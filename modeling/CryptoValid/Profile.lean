import CryptoValid.Lib.Json.Prescan
import CryptoValid.Lib.Sha256
import CryptoValid.Lib.Sha3

/-!
This module contains what the verifiers of the ledger profile have in common: its bounds, the closed
schema of an entry, the payload that is hashed, and what is true of the values they accept.
-/

namespace CryptoValid

def maxJsonDepth : Nat := 512

def safeInt : Nat := 2 ^ 53 - 1

def genesisPrev : Str := List.replicate 64 0x30

/--
The hash profiles; any other name is not supported.
-/
inductive Algo where
  | sha256
  | sha3_256
  | other (name : Str)
  deriving DecidableEq

def supportedAlgos : List Algo := [.sha256, .sha3_256]

def hashWith (algo : Algo) (payload : Bytes) : Option Str :=
  match algo with
  | .sha256 => some (Hex.ofBytes (sha256 payload))
  | .sha3_256 => some (Hex.ofBytes (sha3_256 payload))
  | .other _ => none

/--
An entry of a ledger: a JSON object.
-/
abbrev Entry := List (Str × Json)

namespace Entry

def has (e : Entry) (key : Str) : Bool := (Assoc.lookup key e).isSome

/--
`e.get(key)`, where an absent member is `None`.
-/
def get (e : Entry) (key : Str) : Json := (Assoc.lookup key e).getD .null

end Entry

def entryKeys : List Str := [
  txt "idx", txt "ts", txt "data", txt "prev_hash", txt "self_hash", txt "signature", txt "signer",
  txt "tsa_token", txt "signature_pq", txt "signer_pq"]

/--
The members that are not hashed.
-/
def attestationKeys : List Str := [
  txt "self_hash", txt "signature", txt "signer", txt "signature_pq", txt "signer_pq",
  txt "tsa_token"]

def hashed (key : Str) : Bool := !attestationKeys.contains key

def withoutAttestation (e : Entry) : Entry := e.filter fun m => hashed m.1

/--
The bytes that `self_hash` is computed from.
-/
def payloadOf (e : Entry) : Bytes :=
  (Json.canonical (.obj (withoutAttestation e))).flatMap Utf8.encodePoint

/-!
### Accepted values
-/

/--
A node of a value inside the profile: no floats, integers of the portable range, proper strings and
no key twice.
-/
def InProfile : Json → Prop
  | .int i => i.natAbs ≤ safeInt
  | .float _ => False
  | .str s => Str.Scalar s
  | .obj ms => (ms.map Prod.fst).Nodup ∧ ∀ m ∈ ms, Str.Scalar m.1
  | _ => True

theorem notFloat_of_inProfile (v : Json) (h : InProfile v) : Json.NotFloat v := by
  cases v with
  | float x => exact h
  | _ => trivial

theorem scalarText_of_inProfile (v : Json) (h : InProfile v) : Json.ScalarText v := by
  cases v with
  | str s => exact h
  | obj ms => exact h.2
  | _ => trivial

/--
Sorting the keys keeps a value inside the profile.
-/
theorem inProfile_sortKeys {v : Json} (h : Json.All InProfile v)
    : Json.All InProfile v.sortKeys := by
  induction v with
  | arr xs ih =>
    rw [Json.sortKeys_arr, Json.all_arr]
    rw [Json.all_arr] at h
    refine ⟨trivial, ?_⟩
    intro x hx
    rcases List.mem_map.mp hx with ⟨y, hy, rfl⟩
    exact ih y hy (h.2 y hy)
  | obj ms ih =>
    rw [Json.sortKeys_obj, Json.all_obj]
    rw [Json.all_obj] at h
    refine ⟨⟨?_, ?_⟩, ?_⟩
    . rw [Json.nodup_sortMembers, List.map_map]
      exact h.1.1
    . intro m hm
      rw [Json.mem_sortMembers, List.mem_map] at hm
      rcases hm with ⟨n, hn, rfl⟩
      exact h.1.2 n hn
    . intro m hm
      rw [Json.mem_sortMembers, List.mem_map] at hm
      rcases hm with ⟨n, hn, rfl⟩
      exact ih n hn (h.2 n hn)
  | _ => exact h

/--
A canonical text determines the value up to the order of its keys.
-/
theorem canonical_inj {v w : Json} (hv : Json.All InProfile v) (hw : Json.All InProfile w)
    (h : v.canonical = w.canonical) : v.sortKeys = w.sortKeys := by
  have hv := inProfile_sortKeys hv
  have hw := inProfile_sortKeys hw
  exact Json.dumps_inj true (hv.imp notFloat_of_inProfile) (hw.imp notFloat_of_inProfile)
    (fun _ => hv.imp scalarText_of_inProfile) (fun _ => hw.imp scalarText_of_inProfile) h

theorem lookup_sortKeys {ms ns : List (Str × Json)} {key : Str}
    (heq : (Json.obj ms).sortKeys = .obj ns) (hnodup : (ms.map Prod.fst).Nodup)
    : Assoc.lookup key ns = (Assoc.lookup key ms).map Json.sortKeys := by
  rw [Json.sortKeys_obj, Json.obj.injEq] at heq
  rw [← heq, Json.lookup_sortMembers key _ (by rwa [List.map_map])]
  clear heq hnodup
  induction ms with
  | nil => rfl
  | cons m ms ih =>
    rw [List.map_cons, Assoc.lookup_cons, Assoc.lookup_cons, ih]
    split <;> rfl

theorem inProfile_withoutAttestation {e : Entry} (h : Json.All InProfile (.obj e))
    : Json.All InProfile (.obj (withoutAttestation e)) := by
  rw [Json.all_obj] at h ⊢
  have hsub : ∀ m ∈ withoutAttestation e, m ∈ e := fun m hm => List.mem_of_mem_filter hm
  refine ⟨⟨?_, fun m hm => h.1.2 m (hsub m hm)⟩, fun m hm => h.2 m (hsub m hm)⟩
  exact h.1.1.sublist (List.filter_sublist.map Prod.fst)

/--
Entries with one payload agree on every text that is hashed.
-/
theorem lookup_eq_of_payloadOf_eq {e e' : Entry} (he : Json.All InProfile (.obj e))
    (he' : Json.All InProfile (.obj e')) (h : payloadOf e = payloadOf e') {key s : Str}
    (hkey : key ∉ attestationKeys) (hlookup : Assoc.lookup key e = some (.str s))
    : Assoc.lookup key e' = some (.str s) := by
  have hp := inProfile_withoutAttestation he
  have hp' := inProfile_withoutAttestation he'
  have hsort := canonical_inj hp hp' (Utf8.flatMap_encodePoint_inj h)
  have hwithout : ∀ e : Entry,
      Assoc.lookup key (withoutAttestation e) = Assoc.lookup key e := by
    intro e
    rw [withoutAttestation, Assoc.lookup_filter key hashed]
    simp [hashed, hkey]
  have hleft := @lookup_sortKeys _ _ key (Json.sortKeys_obj (withoutAttestation e))
    (Json.All.self hp).1
  have hright := @lookup_sortKeys _ _ key
    (hsort.symm.trans (Json.sortKeys_obj (withoutAttestation e))) (Json.All.self hp').1
  rw [hwithout] at hleft hright
  rw [hleft, hlookup] at hright
  rcases Option.map_eq_some_iff.mp hright.symm with ⟨v, hv, hsorted⟩
  cases v with
  | str t =>
    rw [hv]
    exact congrArg some hsorted
  | arr xs => simp [Json.sortKeys] at hsorted
  | obj ms => simp [Json.sortKeys] at hsorted
  | null => simp [Json.sortKeys] at hsorted
  | bool b => simp [Json.sortKeys] at hsorted
  | int i => simp [Json.sortKeys] at hsorted
  | float x => simp [Json.sortKeys] at hsorted

end CryptoValid
