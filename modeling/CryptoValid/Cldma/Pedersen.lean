import CryptoValid.Lib.Cbor
import CryptoValid.Lib.Except
import CryptoValid.Lib.PrimeOrder
import Mathlib.FieldTheory.Finite.Basic

/-!
This module contains the commitments of `pedersen_commit.py`. The modulus is a parameter, the code
runs with `modp2048`.
-/

namespace CryptoValid
namespace Pedersen

open PrimeOrder

/--
The modulus of the 2048 bit MODP group, in words of 256 bits.
-/
def modp2048 : Nat :=
  [0xFFFFFFFFFFFFFFFFC90FDAA22168C234C4C6628B80DC1CD129024E088A67CC74,
   0x020BBEA63B139B22514A08798E3404DDEF9519B3CD3A431B302B0A6DF25F1437,
   0x4FE1356D6D51C245E485B576625E7EC6F44C42E9A637ED6B0BFF5CB6F406B7ED,
   0xEE386BFB5A899FA5AE9F24117C4B1FE649286651ECE45B3DC2007CB8A163BF05,
   0x98DA48361C55D39A69163FA8FD24CF5F83655D23DCA3AD961C62F356208552BB,
   0x9ED529077096966D670C354E4ABC9804F1746C08CA18217C32905E462E36CE3B,
   0xE39E772C180E86039B2783A2EC07A28FB5C55DF06F4C52C9DE2BCBF695581718,
   0x3995497CEA956AE515D2261898FA051015728E5A8AACAA68FFFFFFFFFFFFFFFF].foldl
    (fun n word => n * 2 ^ 256 + word) 0

section

variable (P : Nat)

def Q : Nat := (P - 1) / 2

def G : Nat := 4

def hashToSubgroup (sha3_512 : HashFn 64) (seed : Bytes) : Nat :=
  let x := Cbor.natOfBytes (sha3_512 seed) % P
  let h := powMod x 2 P
  if h ≠ 0 ∧ h ≠ 1 then h else powMod 3 2 P

def hSeed : Bytes := (txt "OMEGA-CLDMA-Pedersen-h/RFC3526-group14/v1").flatMap Utf8.encodePoint

def H (sha3_512 : HashFn 64) : Nat := hashToSubgroup P sha3_512 hSeed

/--
The exponents are reduced first, so that they are never negative.
-/
def openCommit (sha3_512 : HashFn 64) (C value r : Int) : Bool :=
  C == (powMod G (value % Q P).toNat P * powMod (H P sha3_512) (r % Q P).toNat P % P : Nat)

def add (commitments : List Int) : Int := commitments.foldl (fun acc C => acc * C % P) 1

inductive Error where
  | outOfRange
  deriving DecidableEq, Repr

/--
`commit(value, r)` is the commitment together with its randomizer.
-/
def commit (sha3_512 : HashFn 64) (value r : Int) : Except Error (Int × Int) :=
  if 0 ≤ value ∧ value < Q P then
    .ok ((powMod G (value % Q P).toNat P * powMod (H P sha3_512) (r % Q P).toNat P % P : Nat), r)
  else
    .error .outOfRange

/--
The randomizer from 32 random bytes.
-/
def randScalar (random : Bytes) : Int := 1 + (Cbor.natOfBytes random % (Q P - 1) : Nat)

def sumOpening (values randomizers : List Int) : Int × Int :=
  (values.sum % Q P, randomizers.sum % Q P)

def verifyConfidentialSum (sha3_512 : HashFn 64) (commitments : List Int)
    (totalValue totalR : Int) : Bool :=
  openCommit P sha3_512 (add P commitments) totalValue totalR

/--
The logarithm of `H` to base `G` that two openings give.
-/
def discreteLog (value r value' r' : Int) : Nat :=
  (logOf (value : ZMod (Q P)) (r : ZMod (Q P)) (value' : ZMod (Q P)) (r' : ZMod (Q P))).val

end

/-!
### The subgroup of squares
-/

section

variable {P : Nat} (hP : P.Prime) (hQ : (Q P).Prime)

include hP hQ

theorem P_eq : P - 1 = 2 * Q P := by
  have hpos := hQ.two_le
  rcases hP.eq_two_or_odd with rfl | hodd
  . exact absurd hpos (by decide)
  . unfold Q at hpos ⊢
    omega

theorem five_le_P : 5 ≤ P := by
  have hpos := hQ.two_le
  have hP_eq := P_eq hP hQ
  omega

theorem sq_pow_Q {x : ZMod P} (hx : x ≠ 0) : (x ^ 2) ^ Q P = 1 := by
  have : Fact P.Prime := ⟨hP⟩
  rw [← pow_mul, ← P_eq hP hQ]
  exact ZMod.pow_card_sub_one_eq_one hx

omit hP hQ in
theorem natCast_ne_zero {n : Nat} (hpos : 0 < n) (hlt : n < P) : (n : ZMod P) ≠ 0 := by
  rw [Ne, ZMod.natCast_eq_zero_iff]
  intro hdvd
  have := Nat.le_of_dvd hpos hdvd
  omega

theorem G_pow_Q : (G : ZMod P) ^ Q P = 1 := by
  have hfive := five_le_P hP hQ
  have hsq : (G : ZMod P) = ((2 : Nat) : ZMod P) ^ 2 := by
    norm_num [G]
  rw [hsq]
  exact sq_pow_Q hP hQ (natCast_ne_zero (by omega) (by omega))

theorem G_ne_one : (G : ZMod P) ≠ 1 := by
  have hfive := five_le_P hP hQ
  intro hone
  have hthree : ((3 : Nat) : ZMod P) = 0 := by
    have hsub : ((3 : Nat) : ZMod P) = (G : ZMod P) - 1 := by
      norm_num [G]
    rw [hsub, hone, sub_self]
  exact natCast_ne_zero (by omega) (by omega) hthree

theorem H_pow_Q (sha3_512 : HashFn 64) : (H P sha3_512 : ZMod P) ^ Q P = 1 := by
  have hfive := five_le_P hP hQ
  unfold H hashToSubgroup
  dsimp only
  split
  . next hgood =>
    rw [natCast_powMod]
    apply sq_pow_Q hP hQ
    intro hzero
    apply hgood.1
    rw [powMod_eq, Nat.pow_two, Nat.mul_mod]
    rw [ZMod.natCast_eq_zero_iff] at hzero
    rw [Nat.eq_zero_of_dvd_of_lt hzero (Nat.mod_lt _ (by omega))]
    simp
  . rw [natCast_powMod]
    exact sq_pow_Q hP hQ (natCast_ne_zero (by omega) (by omega))

end

theorem H_lt {P : Nat} (hpos : 0 < P) (sha3_512 : HashFn 64) : H P sha3_512 < P := by
  unfold H hashToSubgroup
  dsimp only
  split
  . rw [powMod_eq]
    exact Nat.mod_lt _ hpos
  . rw [powMod_eq]
    exact Nat.mod_lt _ hpos

/-!
### Binding
-/

section

variable {P : Nat} {sha3_512 : HashFn 64}

theorem toNat_emod (n : Nat) (hn : 0 < n) (a : Int) : (a % n).toNat = (a : ZMod n).val := by
  have : NeZero n := ⟨by omega⟩
  have hcast := ZMod.val_intCast (n := n) a
  omega

theorem commit_of_openCommit (hQ : 0 < Q P) {C value r : Int}
    (hopen : openCommit P sha3_512 C value r = true)
    : (C : ZMod P) = PrimeOrder.commit (G : ZMod P) (H P sha3_512 : ZMod P) (value : ZMod (Q P))
        (r : ZMod (Q P)) := by
  rw [eq_of_beq hopen, toNat_emod _ hQ, toNat_emod _ hQ]
  rw [Int.cast_natCast, ZMod.natCast_mod, Nat.cast_mul, natCast_powMod, natCast_powMod]
  rfl

/--
A commitment opens to one value modulo `Q`, unless the two openings give the logarithm of `H`.
-/
theorem openCommit_binding (hP : P.Prime) (hQ : (Q P).Prime) {C value r value' r' : Int}
    (hopen : openCommit P sha3_512 C value r = true)
    (hopen' : openCommit P sha3_512 C value' r' = true)
    : value ≡ value' [ZMOD Q P] ∨
        powMod G (discreteLog P value r value' r') P = H P sha3_512 := by
  have : Fact (Q P).Prime := ⟨hQ⟩
  have heq := (commit_of_openCommit hQ.pos hopen).symm.trans (commit_of_openCommit hQ.pos hopen')
  rcases commit_binding (G_pow_Q hP hQ) (G_ne_one hP hQ) (H_pow_Q hP hQ sha3_512) heq
    with hvalue | hlog
  . exact Or.inl ((ZMod.intCast_eq_intCast_iff _ _ _).mp hvalue)
  . have hcast : (powMod G (discreteLog P value r value' r') P : ZMod P)
        = (H P sha3_512 : ZMod P) := by
      rw [natCast_powMod]
      exact hlog
    rw [ZMod.natCast_eq_natCast_iff', Nat.mod_eq_of_lt (H_lt hP.pos sha3_512)] at hcast
    rw [← hcast, powMod_eq, Nat.mod_mod]
    exact Or.inr rfl

/-!
### Sums
-/

theorem emod_eq_of_cast {P : Nat} {a b : Int} (ha : 0 ≤ a) (ha' : a < P)
    (hb : 0 ≤ b) (hb' : b < P) (heq : (a : ZMod P) = (b : ZMod P)) : a = b := by
  have hmod := (ZMod.intCast_eq_intCast_iff' _ _ _).mp heq
  rwa [Int.emod_eq_of_lt ha ha', Int.emod_eq_of_lt hb hb'] at hmod

/--
A commitment is a residue, and its residue class is what counts.
-/
theorem openCommit_iff (hpos : 0 < P) (hQ : 0 < Q P) {C value r : Int}
    : openCommit P sha3_512 C value r = true ↔
        0 ≤ C ∧ C < P ∧ (C : ZMod P) = PrimeOrder.commit (G : ZMod P) (H P sha3_512 : ZMod P)
          (value : ZMod (Q P)) (r : ZMod (Q P)) := by
  have hlt (n : Nat) : ((n % P : Nat) : Int) < P := by
    exact_mod_cast Nat.mod_lt n hpos
  constructor
  . intro hopen
    refine ⟨?_, ?_, commit_of_openCommit hQ hopen⟩
    . rw [eq_of_beq hopen]
      exact Int.natCast_nonneg _
    . rw [eq_of_beq hopen]
      exact hlt _
  . rintro ⟨hC, hC', hcast⟩
    have hsame : openCommit P sha3_512 (powMod G (value % Q P).toNat P *
        powMod (H P sha3_512) (r % Q P).toNat P % P : Nat) value r = true := beq_self_eq_true _
    have heq := emod_eq_of_cast hC hC' (Int.natCast_nonneg _) (hlt _)
      (hcast.trans (commit_of_openCommit hQ hsame).symm)
    rwa [heq]

theorem commit_eq_ok (sha3_512 : HashFn 64) {value : Int} (r : Int) (hvalue : 0 ≤ value)
    (hlt : value < Q P)
    : ∃ C, commit P sha3_512 value r = .ok (C, r) :=
  ⟨_, if_pos ⟨hvalue, hlt⟩⟩

theorem openCommit_of_commit {value r : Int} {committed : Int × Int}
    (h : commit P sha3_512 value r = .ok committed)
    : committed.2 = r ∧ openCommit P sha3_512 committed.1 value committed.2 = true := by
  unfold commit at h
  split at h
  . rw [← Except.ok.inj h]
    exact ⟨rfl, beq_self_eq_true _⟩
  . simp at h

theorem openCommit_emod (C value r : Int)
    : openCommit P sha3_512 C (value % Q P) (r % Q P) = openCommit P sha3_512 C value r := by
  rw [openCommit, openCommit, Int.emod_emod, Int.emod_emod]

theorem foldl_mul_bounds (hpos : 0 < P) (Cs : List Int) {acc : Int} (hacc : 0 ≤ acc)
    (hlt : acc < P)
    : 0 ≤ Cs.foldl (fun acc C => acc * C % (P : Int)) acc ∧
        Cs.foldl (fun acc C => acc * C % (P : Int)) acc < P := by
  have hpos : (0 : Int) < P := by exact_mod_cast hpos
  induction Cs generalizing acc with
  | nil => exact ⟨hacc, hlt⟩
  | cons C Cs ih => exact ih (Int.emod_nonneg _ hpos.ne') (Int.emod_lt_of_pos _ hpos)

theorem cast_foldl_mul (hP : P.Prime) (hQ : (Q P).Prime) {Cs : List Int}
    {openings : List (Int × Int)}
    (hopen : List.Forall₂ (fun C o => openCommit P sha3_512 C o.1 o.2 = true) Cs openings)
    {acc value r : Int} (hacc : (acc : ZMod P) = PrimeOrder.commit (G : ZMod P)
      (H P sha3_512 : ZMod P) (value : ZMod (Q P)) (r : ZMod (Q P)))
    : ((Cs.foldl (fun acc C => acc * C % P) acc : Int) : ZMod P)
        = PrimeOrder.commit (G : ZMod P) (H P sha3_512 : ZMod P)
            ((value + (openings.map Prod.fst).sum : Int) : ZMod (Q P))
            ((r + (openings.map Prod.snd).sum : Int) : ZMod (Q P)) := by
  have : NeZero (Q P) := ⟨hQ.ne_zero⟩
  induction hopen generalizing acc value r with
  | nil => simpa using hacc
  | @cons C o Cs openings hC _ ih =>
    rw [List.foldl_cons, List.map_cons, List.map_cons, List.sum_cons, List.sum_cons,
      ← Int.add_assoc, ← Int.add_assoc]
    refine ih ?_
    rw [ZMod.intCast_mod, Int.cast_mul, hacc, commit_of_openCommit hQ.pos hC, Int.cast_add,
      Int.cast_add, commit_add (G_pow_Q hP hQ) (H_pow_Q hP hQ sha3_512)]

/--
The product of commitments opens to the sum of the values with the sum of the randomizers.
-/
theorem openCommit_add (hP : P.Prime) (hQ : (Q P).Prime) {Cs : List Int}
    {openings : List (Int × Int)}
    (hopen : List.Forall₂ (fun C o => openCommit P sha3_512 C o.1 o.2 = true) Cs openings)
    : openCommit P sha3_512 (add P Cs) (openings.map Prod.fst).sum (openings.map Prod.snd).sum
        = true := by
  have hfive := five_le_P hP hQ
  rw [openCommit_iff hP.pos hQ.pos]
  refine ⟨?_, ?_, ?_⟩
  . exact (foldl_mul_bounds hP.pos Cs Int.one_nonneg (by omega)).1
  . exact (foldl_mul_bounds hP.pos Cs Int.one_nonneg (by omega)).2
  . have hone : ((1 : Int) : ZMod P) = PrimeOrder.commit (G : ZMod P) (H P sha3_512 : ZMod P)
        ((0 : Int) : ZMod (Q P)) ((0 : Int) : ZMod (Q P)) := by
      simp [PrimeOrder.commit]
    have hcast := cast_foldl_mul hP hQ hopen hone
    rwa [Int.zero_add, Int.zero_add] at hcast

theorem mapM_commit (sha3_512 : HashFn 64) {values : List (Int × Int)}
    (hvalues : ∀ v ∈ values, 0 ≤ v.1 ∧ v.1 < Q P)
    : ∃ committed : List (Int × Int),
        values.mapM (fun v => commit P sha3_512 v.1 v.2) = .ok committed ∧
        committed.map Prod.snd = values.map Prod.snd ∧
        List.Forall₂ (fun C (o : Int × Int) => openCommit P sha3_512 C o.1 o.2 = true)
          (committed.map Prod.fst) values := by
  induction values with
  | nil => exact ⟨[], rfl, rfl, List.Forall₂.nil⟩
  | cons v values ih =>
    rw [List.forall_mem_cons] at hvalues
    rcases ih hvalues.2 with ⟨committed, hcommitted, hsnd, hall⟩
    rcases commit_eq_ok sha3_512 v.2 hvalues.1.1 hvalues.1.2 with ⟨C, hC⟩
    refine ⟨(C, v.2) :: committed, ?_, ?_, ?_⟩
    . rw [List.mapM_cons, hC, Except.ok_bind, hcommitted]
      rfl
    . rw [List.map_cons, List.map_cons, hsnd]
    . exact List.Forall₂.cons (openCommit_of_commit hC).2 hall

/--
The committed values, which the verifier does not see, have the sum that is opened.
-/
theorem verifyConfidentialSum_committed (hP : P.Prime) (hQ : (Q P).Prime) (sha3_512 : HashFn 64)
    {values : List (Int × Int)} (hvalues : ∀ v ∈ values, 0 ≤ v.1 ∧ v.1 < Q P)
    : ∃ committed : List (Int × Int),
        values.mapM (fun v => commit P sha3_512 v.1 v.2) = .ok committed ∧
        verifyConfidentialSum P sha3_512 (committed.map Prod.fst)
          (sumOpening P (values.map Prod.fst) (committed.map Prod.snd)).1
          (sumOpening P (values.map Prod.fst) (committed.map Prod.snd)).2 = true := by
  rcases mapM_commit sha3_512 hvalues with ⟨committed, hcommitted, hsnd, hall⟩
  refine ⟨committed, hcommitted, ?_⟩
  rw [hsnd, verifyConfidentialSum, sumOpening, openCommit_emod]
  exact openCommit_add hP hQ hall

end

end Pedersen
end CryptoValid
