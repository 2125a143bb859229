import CryptoValid.Lib.PrimeOrder
import Mathlib.Data.List.Prime
import Mathlib.NumberTheory.LucasPrimality

/-!
This module contains Lucas's test on top of powers modulo a number: a number is prime when the prime
factors of its predecessor are known and some residue has that predecessor as its order.
-/

namespace PrimeOrder

/--
The residue `a` has order `n - 1` modulo `n`, and `factors` are the factors of `n - 1`.
-/
def lucas (n a : Nat) (factors : List Nat) : Bool :=
  2 ≤ n ∧ factors.prod = n - 1 ∧ powMod a (n - 1) n = 1 ∧
    ∀ q ∈ factors, powMod a ((n - 1) / q) n ≠ 1

theorem cast_pow_eq_one_iff {n : Nat} (hn : 2 ≤ n) (a e : Nat)
    : (a : ZMod n) ^ e = 1 ↔ powMod a e n = 1 := by
  rw [powMod_eq, ← Nat.cast_pow, ← Nat.cast_one, ZMod.natCast_eq_natCast_iff', Nat.mod_eq_of_lt hn]

theorem prime_of_lucas (n a : Nat) (factors : List Nat) (hfactors : ∀ q ∈ factors, q.Prime)
    (hlucas : lucas n a factors = true) : n.Prime := by
  rcases of_decide_eq_true hlucas with ⟨hn, hprod, hone, hne⟩
  refine lucas_primality n (a : ZMod n) ?_ ?_
  . exact (cast_pow_eq_one_iff hn a _).mpr hone
  . intro q hq hdvd
    rw [← hprod] at hdvd
    rcases (Prime.dvd_prod_iff hq.prime).mp hdvd with ⟨r, hr, hqr⟩
    have heq : q = r := (Nat.prime_dvd_prime_iff_eq hq (hfactors r hr)).mp hqr
    rw [ne_eq, cast_pow_eq_one_iff hn, heq]
    exact hne r hr

end PrimeOrder
