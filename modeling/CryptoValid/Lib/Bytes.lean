import Mathlib.Data.List.Basic

/-!
This module contains byte strings and hash functions over them. Nothing is assumed about a hash
function except the length of its digests.
-/

abbrev Bytes := List UInt8

/--
A hash function with digests of `n` bytes.
-/
structure HashFn (n : Nat) where
  digest : Bytes → Bytes
  length_digest : ∀ (msg : Bytes), (digest msg).length = n

namespace HashFn

instance : CoeFun (HashFn n) (fun _ => Bytes → Bytes) where
  coe := digest

attribute [simp] length_digest

end HashFn
