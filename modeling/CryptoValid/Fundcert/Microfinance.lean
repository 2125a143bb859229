import CryptoValid.Fundcert.Quantity
import CryptoValid.Lib.Collision
import CryptoValid.Lib.Except
import CryptoValid.Lib.Sha3
import CryptoValid.Lib.SortBy

/-!
This module contains the digest of a portfolio in `microfinance.py`: when it does not depend on the
order of the loans.
-/

namespace CryptoValid
namespace Microfinance

open Fundcert

def canonVersion : Str := txt "microfinance-canon-1.0"

structure LoanRecord where
  loanId : Str
  borrowerRef : Str
  principalDisbursed : Str
  principalOutstanding : Str
  principalRepaid : Str
  principalWrittenOff : Str
  deriving DecidableEq

structure CanonLoan where
  loanId : Str
  borrowerRef : Str
  disbursed : Str
  outstanding : Str
  repaid : Str
  writtenOff : Str
  deriving DecidableEq

/--
`amount or "0"`
-/
def orZero (amount : Str) : Str := if amount.isEmpty then txt "0" else amount

def canonLoan (loan : LoanRecord) : Except QuantityError CanonLoan := do
  return {
    loanId := Python.stripBlanks loan.loanId
    borrowerRef := Python.stripBlanks loan.borrowerRef
    disbursed := ← canonQuantity loan.principalDisbursed
    outstanding := ← canonQuantity loan.principalOutstanding
    repaid := ← canonQuantity (orZero loan.principalRepaid)
    writtenOff := ← canonQuantity (orZero loan.principalWrittenOff) }

namespace CanonLoan

/--
What the loans are sorted by.
-/
def key (loan : CanonLoan) : List Str := [loan.loanId, loan.borrowerRef, loan.disbursed]

def toJson (loan : CanonLoan) : Json :=
  .obj [(txt "loan_id", .str loan.loanId), (txt "borrower_ref", .str loan.borrowerRef),
    (txt "disbursed", .str loan.disbursed), (txt "outstanding", .str loan.outstanding),
    (txt "repaid", .str loan.repaid), (txt "written_off", .str loan.writtenOff)]

end CanonLoan

def canonicalForm (loans : List CanonLoan) : Json :=
  .obj [(txt "canon_version", .str canonVersion),
    (txt "loans", .arr ((loans.sortBy CanonLoan.key).map CanonLoan.toJson)),
    (txt "n", .int loans.length)]

def canonicalBytes (loans : List CanonLoan) : Bytes :=
  (Json.canonical (canonicalForm loans)).flatMap Utf8.encodePoint

def portfolioDigest (sha3_256 : HashFn 32) (loans : List LoanRecord) : Except QuantityError Str := do
  return Hex.ofBytes (sha3_256 (canonicalBytes (← loans.mapM canonLoan)))

/-!
### The text of a portfolio
-/

theorem sortKeys_toJson (loan : CanonLoan)
    : Json.sortKeys loan.toJson
        = .obj [(txt "borrower_ref", .str loan.borrowerRef), (txt "disbursed", .str loan.disbursed),
            (txt "loan_id", .str loan.loanId), (txt "outstanding", .str loan.outstanding),
            (txt "repaid", .str loan.repaid), (txt "written_off", .str loan.writtenOff)] := by
  rfl

/--
Texts without surrogates end at their quotation mark.
-/
theorem stringText_append_inj {s t r r' : Str} (hs : Str.Scalar s) (ht : Str.Scalar t)
    (h : Json.stringText true s ++ r = Json.stringText true t ++ r') : s = t ∧ r = r' := by
  simp only [Json.stringText, List.cons_append, List.cons.injEq, true_and, List.append_assoc,
    List.nil_append] at h
  have hkept : ∀ s : Str, Str.Scalar s → Json.Kept id true s :=
    fun s hs => Json.kept_of_scalar id fun _ => hs
  have hscan := Json.scanString_escape r (hkept s hs)
  rw [h, Json.scanString_escape r' (hkept t ht), Option.some.injEq, Prod.mk.injEq] at hscan
  exact ⟨hscan.1.symm, hscan.2.symm⟩

/--
The amounts that are not sorted by.
-/
structure Amounts (loan : CanonLoan) : Prop where
  outstanding : Str.Scalar loan.outstanding
  repaid : Str.Scalar loan.repaid
  writtenOff : Str.Scalar loan.writtenOff

theorem amounts_of_canonLoan {loan : LoanRecord} {c : CanonLoan} (h : canonLoan loan = .ok c)
    : Amounts c := by
  rcases Except.bind_eq_ok.mp h with ⟨_, _, h⟩
  rcases Except.bind_eq_ok.mp h with ⟨_, houtstanding, h⟩
  rcases Except.bind_eq_ok.mp h with ⟨_, hrepaid, h⟩
  rcases Except.bind_eq_ok.mp h with ⟨_, hwrittenOff, h⟩
  rw [← Except.pure_eq_ok.mp h]
  exact ⟨scalar_of_canonQuantity houtstanding, scalar_of_canonQuantity hrepaid,
    scalar_of_canonQuantity hwrittenOff⟩

def loanText (loan : CanonLoan) : Str := Json.dumps true (Json.sortKeys loan.toJson)

theorem loanText_append_inj {u v : CanonLoan} (hu : Amounts u) (hv : Amounts v)
    (hkey : u.key = v.key) {r r' : Str} (h : loanText u ++ r = loanText v ++ r')
    : u = v ∧ r = r' := by
  rcases u with ⟨loanId, borrowerRef, disbursed, outstanding, repaid, writtenOff⟩
  rcases v with ⟨loanId', borrowerRef', disbursed', outstanding', repaid', writtenOff'⟩
  simp only [CanonLoan.key, List.cons.injEq, and_true] at hkey
  rcases hkey with ⟨rfl, rfl, rfl⟩
  simp only [loanText, sortKeys_toJson, Json.dumps, Json.dumpsMembers, List.cons_append,
    List.append_assoc, List.cons.injEq, true_and, List.append_cancel_left_eq, List.nil_append] at h
  rcases stringText_append_inj hu.outstanding hv.outstanding h with ⟨rfl, h⟩
  simp only [List.cons.injEq, true_and, List.append_cancel_left_eq] at h
  rcases stringText_append_inj hu.repaid hv.repaid h with ⟨rfl, h⟩
  simp only [List.cons.injEq, true_and, List.append_cancel_left_eq] at h
  rcases stringText_append_inj hu.writtenOff hv.writtenOff h with ⟨rfl, h⟩
  exact ⟨rfl, by simpa using h⟩

theorem dumpsTail_loans_inj {us vs : List CanonLoan} (hus : ∀ u ∈ us, Amounts u)
    (hvs : ∀ v ∈ vs, Amounts v) (hkeys : us.map CanonLoan.key = vs.map CanonLoan.key) {r r' : Str}
    (h : Json.dumpsTail true (us.map fun u => Json.sortKeys u.toJson) ++ r
      = Json.dumpsTail true (vs.map fun v => Json.sortKeys v.toJson) ++ r') : us = vs := by
  induction us generalizing vs with
  | nil => rw [eq_comm, ← List.map_eq_nil_iff, ← hkeys, List.map_nil]
  | cons u us ih =>
    cases vs with
    | nil => simp at hkeys
    | cons v vs =>
      rw [List.map_cons, List.map_cons, List.cons.injEq] at hkeys
      rw [List.forall_mem_cons] at hus hvs
      simp only [List.map_cons, Json.dumpsTail, List.cons_append, List.append_assoc, List.cons.injEq,
        true_and] at h
      rcases loanText_append_inj hus.1 hvs.1 hkeys.1 h with ⟨rfl, hrest⟩
      rw [ih hus.2 hvs.2 hkeys.2 hrest]

/--
Portfolios whose loans have the same sequence of keys are written alike only if they are the same.
-/
theorem canonicalBytes_inj {us vs : List CanonLoan} (hus : ∀ u ∈ us, Amounts u)
    (hvs : ∀ v ∈ vs, Amounts v)
    (hkeys : (us.sortBy CanonLoan.key).map CanonLoan.key = (vs.sortBy CanonLoan.key).map CanonLoan.key)
    (h : canonicalBytes us = canonicalBytes vs)
    : us.sortBy CanonLoan.key = vs.sortBy CanonLoan.key := by
  have hus' : ∀ u ∈ us.sortBy CanonLoan.key, Amounts u := fun u hu => hus u ((List.mem_sortBy _).mp hu)
  have hvs' : ∀ v ∈ vs.sortBy CanonLoan.key, Amounts v := fun v hv => hvs v ((List.mem_sortBy _).mp hv)
  have htext : ∀ ws : List CanonLoan, Json.canonical (canonicalForm ws)
      = 0x7b :: (Json.stringText true (txt "canon_version") ++ (0x3a ::
        (Json.stringText true canonVersion ++ (0x2c :: (Json.stringText true (txt "loans") ++ (0x3a ::
          (Json.dumps true (.arr ((ws.sortBy CanonLoan.key).map fun w => Json.sortKeys w.toJson)) ++
            (Json.dumpsMembers true [(txt "n", .int ws.length)] ++ [0x7d])))))))) := by
    intro ws
    have hsort : Json.sortKeys (canonicalForm ws)
        = .obj [(txt "canon_version", .str canonVersion),
            (txt "loans", .arr ((ws.sortBy CanonLoan.key).map fun w => Json.sortKeys w.toJson)),
            (txt "n", .int ws.length)] := by
      rw [canonicalForm, Json.sortKeys_obj]
      simp only [List.map_cons, List.map_nil, Json.sortKeys_arr, List.map_map]
      rfl
    rw [Json.canonical, hsort]
    simp only [Json.dumps, Json.dumpsMembers, List.cons_append, List.append_assoc]
  have heq := Utf8.flatMap_encodePoint_inj h
  rw [htext, htext] at heq
  simp only [List.cons.injEq, true_and, List.append_cancel_left_eq] at heq
  generalize us.sortBy CanonLoan.key = us' at *
  generalize vs.sortBy CanonLoan.key = vs' at *
  cases us' with
  | nil => rw [eq_comm, ← List.map_eq_nil_iff, ← hkeys, List.map_nil]
  | cons u us' =>
    cases vs' with
    | nil => simp at hkeys
    | cons v vs' =>
      rw [List.map_cons, List.map_cons, List.cons.injEq] at hkeys
      rw [List.forall_mem_cons] at hus' hvs'
      simp only [List.map_cons, Json.dumps, List.cons_append, List.append_assoc, List.cons.injEq,
        true_and] at heq
      rcases loanText_append_inj hus'.1 hvs'.1 hkeys.1 heq with ⟨rfl, hrest⟩
      rw [dumpsTail_loans_inj hus'.2 hvs'.2 hkeys.2 hrest]

/-!
### The order of the loans
-/

/--
Loans that agree on what they are sorted by agree on the amounts as well.
-/
def Separated (loans : List CanonLoan) : Prop :=
  ∀ u ∈ loans, ∀ v ∈ loans, u.key = v.key → u = v

section

variable (sha3_256 : HashFn 32)

theorem portfolioDigest_eq_ok {loans : List LoanRecord} {digest : Str}
    : portfolioDigest sha3_256 loans = .ok digest ↔
        ∃ canons, loans.mapM canonLoan = .ok canons ∧
          digest = Hex.ofBytes (sha3_256 (canonicalBytes canons)) := by
  rw [portfolioDigest, Except.bind_eq_ok]
  refine exists_congr fun canons => and_congr_right fun _ => ?_
  rw [Except.pure_eq_ok, eq_comm]

theorem canonicalBytes_eq_of_perm {us vs : List CanonLoan} (h : us.Perm vs) (hsep : Separated us)
    : canonicalBytes us = canonicalBytes vs := by
  rw [canonicalBytes, canonicalBytes, canonicalForm, canonicalForm, h.length_eq,
    List.sortBy_eq_of_perm CanonLoan.key h hsep]

/--
Loans that are not separated come in the order in which they were.
-/
theorem separated_of_sortBy {us : List CanonLoan}
    (h : ∀ vs ws : List CanonLoan, vs.Perm us → ws.Perm us →
      vs.sortBy CanonLoan.key = ws.sortBy CanonLoan.key) : Separated us := by
  intro u hu v hv hkey
  by_contra hne
  have hv' : v ∈ us.erase u := (List.mem_erase_of_ne (Ne.symm hne)).mpr hv
  have hperm : (u :: v :: (us.erase u).erase v).Perm us :=
    ((List.perm_cons_erase hv').symm.cons u).trans (List.perm_cons_erase hu).symm
  have hfilter := congrArg (List.filter fun x => x.key = u.key)
    (h _ _ hperm ((List.Perm.swap u v _).trans hperm))
  rw [List.filter_sortBy, List.filter_sortBy] at hfilter
  simp only [List.filter_cons, hkey, decide_true, ↓reduceIte, List.cons.injEq] at hfilter
  exact hne hfilter.1

/--
The order of the loans has no part in the digest, if and only if loans with the same identifier,
borrower and disbursed amount are the same: two portfolios that differ in their order only would
collide otherwise. Where there is no digest, there is none in any order.
-/
theorem portfolioDigest_perm_iff
    : (∀ loans canons, loans.mapM canonLoan = .ok canons →
        (Separated canons → ∀ loans', loans'.Perm loans →
          portfolioDigest sha3_256 loans' = portfolioDigest sha3_256 loans) ∧
        ((∀ loans', loans'.Perm loans →
            portfolioDigest sha3_256 loans' = portfolioDigest sha3_256 loans) →
          Separated canons ∨ ∃ us vs, us.Perm canons ∧ vs.Perm canons ∧
            Collides sha3_256 [canonicalBytes us, canonicalBytes vs])) ∧
      ∀ loans e, portfolioDigest sha3_256 loans = .error e → ∀ loans', loans'.Perm loans →
        ∃ e', portfolioDigest sha3_256 loans' = .error e' := by
  refine ⟨fun loans canons hcanons => ⟨?_, ?_⟩, ?_⟩
  . intro hsep loans' hperm
    rcases Except.mapM_perm hcanons hperm with ⟨canons', hcanons', hperm'⟩
    rw [(portfolioDigest_eq_ok sha3_256).mpr ⟨canons, hcanons, rfl⟩,
      canonicalBytes_eq_of_perm hperm'.symm hsep]
    exact (portfolioDigest_eq_ok sha3_256).mpr ⟨canons', hcanons', rfl⟩
  . intro hsame
    by_cases hcollides : ∃ us vs, us.Perm canons ∧ vs.Perm canons ∧
        Collides sha3_256 [canonicalBytes us, canonicalBytes vs]
    . exact Or.inr hcollides
    refine Or.inl (separated_of_sortBy fun us vs hus hvs => ?_)
    have hall := Except.mapM_eq_ok.mp hcanons
    have hamounts : ∀ u ∈ canons, Amounts u := by
      intro u hu
      rcases List.exists_of_mem_right hall hu with ⟨loan, _, hloan⟩
      exact amounts_of_canonLoan hloan
    -- every order of the canonical loans is the one of an order of the loans
    have hdigest : ∀ us : List CanonLoan, us.Perm canons →
        portfolioDigest sha3_256 loans = .ok (Hex.ofBytes (sha3_256 (canonicalBytes us))) := by
      intro us hus
      have hflip : List.Forall₂ (fun u loan => canonLoan loan = .ok u) canons loans := hall.flip
      rcases List.perm_comp_forall₂ hus hflip with ⟨loans', hloans', hperm⟩
      rw [← hsame loans' hperm]
      exact (portfolioDigest_eq_ok sha3_256).mpr ⟨us, Except.mapM_eq_ok.mpr hloans'.flip, rfl⟩
    have heq := (hdigest us hus).symm.trans (hdigest vs hvs)
    rw [Except.ok.injEq] at heq
    have hor : canonicalBytes us = canonicalBytes vs ∨
        Collides sha3_256 [canonicalBytes us, canonicalBytes vs] :=
      Collides.eq_or (by simp) (by simp) (Hex.ofBytes_inj heq)
    rcases hor with hbytes | hcollides'
    . refine canonicalBytes_inj (fun u hu => hamounts u (hus.mem_iff.mp hu))
        (fun v hv => hamounts v (hvs.mem_iff.mp hv)) ?_ hbytes
      exact List.map_key_sortBy_of_perm CanonLoan.key (hus.trans hvs.symm)
    . exact absurd ⟨us, vs, hus, hvs, hcollides'⟩ hcollides
  . intro loans e h loans' hperm
    cases h' : portfolioDigest sha3_256 loans' with
    | error e' => exact ⟨e', rfl⟩
    | ok digest =>
      rcases (portfolioDigest_eq_ok sha3_256).mp h' with ⟨canons', hcanons', _⟩
      rcases Except.mapM_perm hcanons' hperm.symm with ⟨canons, hcanons, _⟩
      rw [(portfolioDigest_eq_ok sha3_256).mpr ⟨canons, hcanons, rfl⟩] at h
      simp at h

end

/--
Two loans that differ in what is outstanding.
-/
def exampleLoan (outstanding : Str) : LoanRecord :=
  ⟨txt "L1", txt "b", txt "100", outstanding, txt "0", txt "0"⟩

theorem portfolioDigest_order
    : portfolioDigest sha3_256 [exampleLoan (txt "40"), exampleLoan (txt "60")]
        ≠ portfolioDigest sha3_256 [exampleLoan (txt "60"), exampleLoan (txt "40")] := by
  intro h
  have hne : ((portfolioDigest sha3_256 [exampleLoan (txt "40"), exampleLoan (txt "60")]).toOption
      = (portfolioDigest sha3_256 [exampleLoan (txt "60"), exampleLoan (txt "40")]).toOption)
      = False := by decide +kernel
  rw [h] at hne
  simp at hne

end Microfinance
end CryptoValid
