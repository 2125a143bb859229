import Mathlib.Algebra.Field.ZMod
import Mathlib.GroupTheory.OrderOfElement
import Mathlib.Tactic.Ring

/-!
This module contains exponents modulo a prime `q`, for elements whose `q`-th power is one, and
commitments `g ^ v * h ^ r`. Two openings of one commitment to different values give the logarithm
of `h` to base `g`.
-/

namespace PrimeOrder

section

variable {M : Type} [CommMonoid M] {q : Nat}

/--
The power of an element to a residue.
-/
def power (x : M) (e : ZMod q) : M := x ^ e.val

def commit (g h : M) (v r : ZMod q) : M := power g v * power h r

/--
The logarithm of `h` to base `g` that two openings of one commitment give.
-/
def logOf (v r v' r' : ZMod q) : ZMod q := (v - v') * (r' - r)⁻¹

@[simp]
theorem power_zero (x : M) : power x (0 : ZMod q) = 1 := by
  simp [power]

theorem power_add [NeZero q] {x : M} (hx : x ^ q = 1) (a b : ZMod q)
    : power x (a + b) = power x a * power x b := by
  rw [power, power, power, ZMod.val_add, ← pow_eq_pow_mod _ hx, pow_add]

theorem power_mul [NeZero q] {x : M} (hx : x ^ q = 1) (a b : ZMod q)
    : power x (a * b) = power (power x a) b := by
  rw [power, power, power, ZMod.val_mul, ← pow_eq_pow_mod _ hx, pow_mul]

/--
The product of two commitments is a commitment to the sums.
-/
theorem commit_add [NeZero q] {g h : M} (hg : g ^ q = 1) (hh : h ^ q = 1) (v r v' r' : ZMod q)
    : commit g h (v + v') (r + r') = commit g h v r * commit g h v' r' := by
  rw [commit, power_add hg, power_add hh, mul_mul_mul_comm]
  rfl

variable [Fact q.Prime]

theorem power_one (x : M) : power x (1 : ZMod q) = x := by
  have : Fact (1 < q) := ⟨(Fact.out : q.Prime).one_lt⟩
  rw [power, ZMod.val_one, pow_one]

/--
An element other than one has only the multiples of `q` as exponents of one.
-/
theorem power_eq_one {g : M} (hg : g ^ q = 1) (hne : g ≠ 1) {a : ZMod q} (ha : power g a = 1)
    : a = 0 := by
  have hdvd : orderOf g ∣ a.val := orderOf_dvd_of_pow_eq_one ha
  rw [orderOf_eq_prime hg hne] at hdvd
  rw [← ZMod.val_eq_zero]
  exact Nat.eq_zero_of_dvd_of_lt hdvd (ZMod.val_lt a)

/--
Both sides of an equation of two commitments, with the powers of `g` on the left.
-/
theorem power_sub_of_commit {g h : M} (hg : g ^ q = 1) (hh : h ^ q = 1) {v r v' r' : ZMod q}
    (heq : commit g h v r = commit g h v' r') : power g (v - v') = power h (r' - r) :=
  calc power g (v - v')
      = commit g h v r * (power g (-v') * power h (-r)) := by
        rw [commit, mul_mul_mul_comm, ← power_add hg, ← power_add hh]
        simp [sub_eq_add_neg]
    _ = commit g h v' r' * (power g (-v') * power h (-r)) := by rw [heq]
    _ = power h (r' - r) := by
        rw [commit, mul_mul_mul_comm, ← power_add hg, ← power_add hh]
        simp [sub_eq_add_neg]

theorem commit_binding {g h : M} (hg : g ^ q = 1) (hne : g ≠ 1) (hh : h ^ q = 1)
    {v r v' r' : ZMod q} (heq : commit g h v r = commit g h v' r')
    : v = v' ∨ power g (logOf v r v' r') = h := by
  have hsub := power_sub_of_commit hg hh heq
  by_cases hr : r' - r = 0
  . rw [hr, power_zero] at hsub
    exact Or.inl (sub_eq_zero.mp (power_eq_one hg hne hsub))
  . refine Or.inr ?_
    rw [logOf, power_mul hg, hsub, ← power_mul hh, mul_inv_cancel₀ hr, power_one]

end

/-!
### Powers modulo a number
-/

/--
`b ^ e % m` by squaring.
-/
def powMod (b e m : Nat) : Nat :=
  if e = 0 then
    1 % m
  else
    let half := powMod (b * b % m) (e / 2) m
    if e % 2 = 1 then b * half % m else half
termination_by e
decreasing_by omega

theorem powMod_eq (b e m : Nat) : powMod b e m = b ^ e % m := by
  fun_induction powMod b e m with
  | case1 b => rw [pow_zero]
  | case2 b e hne half hodd ih =>
    have hsplit : b ^ e = b * (b * b) ^ (e / 2) := by
      rw [← pow_two, ← pow_mul, ← pow_succ']
      congr 1
      omega
    show b * powMod _ _ _ % m = _
    rw [ih, hsplit, ← Nat.pow_mod, Nat.mul_mod_mod]
  | case3 b e hne half heven ih =>
    have hsplit : b ^ e = (b * b) ^ (e / 2) := by
      rw [← pow_two, ← pow_mul]
      congr 1
      omega
    show powMod _ _ _ = _
    rw [ih, hsplit, ← Nat.pow_mod]

theorem natCast_powMod (b e m : Nat) : (powMod b e m : ZMod m) = (b : ZMod m) ^ e := by
  rw [powMod_eq, ZMod.natCast_mod, Nat.cast_pow]

end PrimeOrder
