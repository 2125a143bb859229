import CryptoValid.Fundcert.Canonical
import CryptoValid.TxEvidence.CostBasis

/-!
This module contains when the cost basis matches disposals with lots as it says: first in, first out
in the order of the canonical timestamps, whatever the asset is spelled like.
-/

namespace CryptoValid
namespace TxEvidence

open Fundcert

section

variable {u : Python.Unicode}

/-!
### Assets apart
-/

theorem process_eq_ok {book book' : Book} {p : Tx × Nat} (h : process u book p = .ok book')
    : ∃ res, post u (book.lotsOf (p.1.canonAsset u)) p = .ok res ∧
        ((res = none ∧ book' = book) ∨
          (∃ lots, res = some (lots, none) ∧
            book' = { book with lots := book.lots.set (p.1.canonAsset u) lots }) ∨
          ∃ lots d, res = some (lots, some d) ∧
            book' = ⟨book.lots.set (p.1.canonAsset u) lots,
              book.out.set (p.1.canonAsset u) (book.outOf (p.1.canonAsset u) ++ [d])⟩) := by
  rcases Except.bind_eq_ok.mp h with ⟨res, hres, h⟩
  refine ⟨res, hres, ?_⟩
  cases res with
  | none => exact Or.inl ⟨rfl, (Except.pure_eq_ok.mp h).symm⟩
  | some posted =>
    rcases posted with ⟨lots, _ | d⟩
    . exact Or.inr (Or.inl ⟨lots, rfl, (Except.pure_eq_ok.mp h).symm⟩)
    . exact Or.inr (Or.inr ⟨lots, d, rfl, (Except.pure_eq_ok.mp h).symm⟩)

/--
The records of an asset come from its own transactions.
-/
theorem disposals_of_foldlM {ps : List (Tx × Nat)} {book book' : Book} (asset : Str)
    (h : ps.foldlM (process u) book = .ok book')
    : ∃ ds, disposals u (book.lotsOf asset) (ps.filter fun p => p.1.canonAsset u = asset) = .ok ds ∧
        book'.out.get? asset
          = if ds = [] then book.out.get? asset else some (book.outOf asset ++ ds) := by
  induction ps generalizing book with
  | nil =>
    rw [List.foldlM_nil, Except.pure_eq_ok] at h
    exact ⟨[], rfl, by rw [if_pos rfl, h]⟩
  | cons p ps ih =>
    rw [List.foldlM_cons] at h
    rcases Except.bind_eq_ok.mp h with ⟨book₁, hprocess, h⟩
    rcases ih h with ⟨ds, hds, hout⟩
    rcases process_eq_ok hprocess with ⟨res, hpost, hcases⟩
    by_cases hasset : p.1.canonAsset u = asset
    . subst hasset
      rw [List.filter_cons_of_pos (by simp)]
      rcases hcases with ⟨rfl, rfl⟩ | ⟨lots, rfl, rfl⟩ | ⟨lots, d, rfl, rfl⟩
      . refine ⟨ds, ?_, hout⟩
        rw [disposals, hpost]
        exact hds
      . rw [Book.lotsOf, Dict.get?_set_self] at hds
        refine ⟨ds, ?_, hout⟩
        rw [disposals, hpost]
        exact hds
      . rw [Book.lotsOf, Dict.get?_set_self] at hds
        refine ⟨d :: ds, ?_, ?_⟩
        . rw [disposals, hpost, Except.ok_bind]
          dsimp only
          rw [Option.getD_some] at hds
          rw [hds]
          rfl
        . rw [if_neg (List.cons_ne_nil d ds), hout]
          split
          . next hnil => rw [Dict.get?_set_self, hnil]
          . rw [Book.outOf, Dict.get?_set_self, Option.getD_some, List.append_assoc]
            rfl
    . rw [List.filter_cons_of_neg (by simpa using hasset)]
      have hne : asset ≠ p.1.canonAsset u := Ne.symm hasset
      have hlots : book₁.lotsOf asset = book.lotsOf asset := by
        rcases hcases with ⟨_, rfl⟩ | ⟨lots, _, rfl⟩ | ⟨lots, d, _, rfl⟩
        . rfl
        . rw [Book.lotsOf, Dict.get?_set_of_ne _ _ hne]
          rfl
        . rw [Book.lotsOf, Dict.get?_set_of_ne _ _ hne]
          rfl
      have hsame : book₁.out.get? asset = book.out.get? asset := by
        rcases hcases with ⟨_, rfl⟩ | ⟨lots, _, rfl⟩ | ⟨lots, d, _, rfl⟩
        . rfl
        . rfl
        . exact Dict.get?_set_of_ne _ _ hne
      rw [hlots] at hds
      refine ⟨ds, hds, ?_⟩
      rw [hout, hsame, Book.outOf, Book.outOf, hsame]

variable (u) in
/--
The transactions of an asset as they are processed.
-/
def processed (txs : List Tx) (asset : Str) : List (Tx × Nat) :=
  (ordered u txs).filter fun p => p.1.canonAsset u = asset

theorem disposals_of_costBasisFifo {txs : List Tx} {out : Dict Str (List Disposal)}
    (h : costBasisFifo u txs = .ok out) (asset : Str)
    : ∃ ds, disposals u [] (processed u txs asset) = .ok ds ∧
        out.get? asset = if ds = [] then none else some ds := by
  rcases Except.bind_eq_ok.mp h with ⟨book, hfold, h⟩
  rw [← Except.pure_eq_ok.mp h]
  rcases disposals_of_foldlM asset hfold with ⟨ds, hds, hout⟩
  exact ⟨ds, hds, hout⟩

/-!
### The canonical order
-/

variable (u) in
/--
The transactions of an asset in the order of their canonical timestamps, those with the same one as
they come in the list.
-/
def canonicalOrder (txs : List Tx) (asset : Str) : List (Tx × Nat) :=
  (txs.zipIdx.filter fun p => p.1.canonAsset u = asset).sortBy fun p => Python.stripBlanks p.1.ts

variable (u) in
/--
What is sorted by is in the same order as the canonical timestamps, for all transactions of one asset.
-/
def InOrder (txs : List Tx) : Prop :=
  txs.Pairwise fun a b => a.canonAsset u = b.canonAsset u →
    ([u.upper a.asset, a.ts] ≤ [u.upper b.asset, b.ts] ↔
      Python.stripBlanks a.ts ≤ Python.stripBlanks b.ts)

theorem processed_eq_iff (txs : List Tx)
    : (∀ asset, processed u txs asset = canonicalOrder u txs asset) ↔ InOrder u txs := by
  have hone : ∀ asset, processed u txs asset = canonicalOrder u txs asset ↔
      txs.zipIdx.Pairwise fun p q => p.1.canonAsset u = asset → q.1.canonAsset u = asset →
        ([u.upper p.1.asset, p.1.ts] ≤ [u.upper q.1.asset, q.1.ts] ↔
          Python.stripBlanks p.1.ts ≤ Python.stripBlanks q.1.ts) := by
    intro asset
    rw [processed, canonicalOrder, ordered, List.filter_sortBy_eq, List.sortBy_eq_iff,
      List.pairwise_filter]
    simp only [decide_eq_true_eq]
  have hfst : txs.zipIdx.map Prod.fst = txs := by simp
  rw [InOrder]
  conv_rhs => rw [← hfst, List.pairwise_map]
  simp only [hone]
  constructor
  . intro h
    rw [List.pairwise_iff_forall_sublist]
    intro p q hpq hasset
    exact List.pairwise_iff_forall_sublist.mp (h (q.1.canonAsset u)) hpq hasset rfl
  . intro h asset
    refine h.imp ?_
    rintro p q hpq rfl hq
    exact hpq hq.symm

theorem nodup_lotsOf_canonicalOrder (txs : List Tx) (asset : Str)
    : (Fifo.lotsOf (events u (canonicalOrder u txs asset))).Nodup := by
  have hsub : ∀ ps : List (Tx × Nat),
      (Fifo.lotsOf (events u ps)).Sublist (ps.map Prod.snd) := by
    intro ps
    induction ps with
    | nil => exact List.Sublist.refl _
    | cons p ps ih =>
      rw [events, List.filterMap_cons, eventOf]
      split
      . next hnone => exact ih.cons p.2
      . next event hevent =>
        split at hevent
        . rw [← Option.some.inj hevent]
          exact ih.cons_cons p.2
        . split at hevent
          . rw [← Option.some.inj hevent]
            exact ih.cons p.2
          . simp at hevent
  refine (hsub _).nodup ?_
  have hperm := (List.perm_sortBy (fun p : Tx × Nat => Python.stripBlanks p.1.ts)
    (txs.zipIdx.filter fun p => p.1.canonAsset u = asset)).map Prod.snd
  refine hperm.nodup_iff.mpr ((List.filter_sublist.map _).nodup ?_)
  simpa using List.nodup_range' (s := 0) (n := txs.length)

/-!
### First in, first out
-/

variable (u) in
/--
The transactions of every asset are processed in the order of their canonical timestamps, every
disposal takes from the earliest lots that hold something, and the records say so.
-/
structure Matched (txs : List Tx) (out : Dict Str (List Disposal)) : Prop where
  order : ∀ asset, processed u txs asset = canonicalOrder u txs asset
  fifo : ∀ asset, ∃ ms, Fifo.FairRun [] [] (events u (canonicalOrder u txs asset)) ms ∧
    List.Forall₂ Reports ((out.get? asset).getD []) ms
  described : ∀ asset, List.Forall₂ Describes ((out.get? asset).getD [])
    ((canonicalOrder u txs asset).filter fun p => p.1.isDisposal u)

theorem matched_iff {txs : List Tx} {out : Dict Str (List Disposal)}
    (hqty : ∀ t ∈ txs, InRange t.qty) (h : costBasisFifo u txs = .ok out)
    : Matched u txs out ↔ InOrder u txs := by
  constructor
  . exact fun hmatched => (processed_eq_iff txs).mp hmatched.order
  . intro hinorder
    have horder := (processed_eq_iff txs).mpr hinorder
    have hasset : ∀ asset, List.Forall₂ Reports ((out.get? asset).getD [])
        (Fifo.run [] (events u (canonicalOrder u txs asset))) ∧
        List.Forall₂ Describes ((out.get? asset).getD [])
          ((canonicalOrder u txs asset).filter fun p => p.1.isDisposal u) := by
      intro asset
      rcases disposals_of_costBasisFifo h asset with ⟨ds, hds, hout⟩
      have hgetD : (out.get? asset).getD [] = ds := by
        rw [hout]
        split
        . next hnil => rw [hnil, Option.getD_none]
        . rfl
      rw [hgetD, ← horder asset]
      refine reports_run .nil ?_ hds
      intro p hp
      have hmem := (List.mem_sortBy _).mp (List.mem_of_mem_filter hp)
      exact hqty _ (List.fst_mem_of_mem_zipIdx hmem)
    exact ⟨horder, fun asset => ⟨_, Fifo.fairRun_run (nodup_lotsOf_canonicalOrder txs asset),
      (hasset asset).1⟩, fun asset => (hasset asset).2⟩

/-!
### Spelling
-/

variable (u) in
/--
The same transaction, with its asset spelled in another way.
-/
def Respelled (t t' : Tx) : Prop := t'.canonAsset u = t.canonAsset u ∧
    { t' with asset := t.asset } = t

variable (u) in
/--
The asset as it is spelled in the canonical form.
-/
def spelled (p : Tx × Nat) : Tx × Nat := ({ p.1 with asset := p.1.canonAsset u }, p.2)

theorem post_spelled (lots : List Lot) (p : Tx × Nat) : post u lots
    (spelled u p) = post u lots p := rfl

theorem disposals_spelled (lots : List Lot) (ps : List (Tx × Nat))
    : disposals u lots (ps.map (spelled u)) = disposals u lots ps := by
  induction ps generalizing lots with
  | nil => rfl
  | cons p ps ih =>
    rw [List.map_cons, disposals, disposals, post_spelled]
    cases post u lots p with
    | error e => rfl
    | ok res =>
      rcases res with _ | ⟨lots', _ | d⟩
      . exact ih lots
      . exact ih lots'
      . rw [Except.ok_bind, Except.ok_bind]
        dsimp only
        rw [ih lots']

theorem spelled_zipIdx {txs txs' : List Tx} (h : List.Forall₂ (Respelled u) txs txs') (i : Nat)
    : (txs'.zipIdx i).map (spelled u) = (txs.zipIdx i).map (spelled u) := by
  induction h generalizing i with
  | nil => rfl
  | cons hfirst htail ih =>
    next t t' txs txs' =>
    rcases hfirst with ⟨hasset, hsame⟩
    have htx : ({ t' with asset := t'.canonAsset u } : Tx) = { t with asset := t.canonAsset u } :=
      calc
        ({ t' with asset := t'.canonAsset u } : Tx)
          = { { t' with asset := t.asset } with asset := t'.canonAsset u } := rfl
        _ = { t with asset := t.canonAsset u } := by rw [hsame, hasset]
    rw [List.zipIdx_cons, List.zipIdx_cons, List.map_cons, List.map_cons, ih, spelled, spelled, htx]

/--
The canonical order does not read how an asset is spelled.
-/
theorem canonicalOrder_spelled (txs : List Tx) (asset : Str)
    : (canonicalOrder u txs asset).map (spelled u)
        = ((txs.zipIdx.map (spelled u)).filter fun p => p.1.asset = asset).sortBy
            fun p => Python.stripBlanks p.1.ts := by
  rw [List.filter_map, List.map_sortBy]
  rfl

/--
Lists that are in order have the same records, if they differ in the spelling of the assets alone.
-/
theorem get?_eq_of_respelled {txs txs' : List Tx} {out out' : Dict Str (List Disposal)}
    (h : costBasisFifo u txs = .ok out) (h' : costBasisFifo u txs' = .ok out')
    (hspelled : List.Forall₂ (Respelled u) txs txs') (horder : InOrder u txs)
    (horder' : InOrder u txs') (asset : Str) : out'.get? asset = out.get? asset := by
  rcases disposals_of_costBasisFifo h asset with ⟨ds, hds, hout⟩
  rcases disposals_of_costBasisFifo h' asset with ⟨ds', hds', hout'⟩
  rw [(processed_eq_iff txs).mpr horder, ← disposals_spelled, canonicalOrder_spelled] at hds
  rw [(processed_eq_iff txs').mpr horder', ← disposals_spelled, canonicalOrder_spelled,
    spelled_zipIdx hspelled, hds, Except.ok.injEq] at hds'
  rw [hout, hout', hds']

theorem Respelled.inRange {txs txs' : List Tx} (h : List.Forall₂ (Respelled u) txs txs')
    (hqty : ∀ t ∈ txs, InRange t.qty) : ∀ t ∈ txs', InRange t.qty := by
  intro t' ht'
  rcases List.exists_of_mem_right h ht' with ⟨t, ht, _, hsame⟩
  have heq : t'.qty = t.qty := by rw [← hsame]
  rw [heq]
  exact hqty t ht

/--
The cost basis is first in, first out in the order of the canonical timestamps, and it is the same
when the assets are spelled in another way, exactly when sorting by the asset as it is written and the
timestamp as it is written has the transactions of an asset in that order.
-/
theorem costBasisFifo_matched {txs txs' : List Tx} {out out' : Dict Str (List Disposal)}
    (hqty : ∀ t ∈ txs, InRange t.qty) (hspelled : List.Forall₂ (Respelled u) txs txs')
    (h : costBasisFifo u txs = .ok out) (h' : costBasisFifo u txs' = .ok out')
    : (Matched u txs out ∧ Matched u txs' out' ∧ ∀ asset, out'.get? asset = out.get? asset)
        ↔
      (InOrder u txs ∧ InOrder u txs') := by
  rw [matched_iff hqty h, matched_iff (Respelled.inRange hspelled hqty) h']
  constructor
  . rintro ⟨horder, horder', _⟩
    exact ⟨horder, horder'⟩
  . rintro ⟨horder, horder'⟩
    exact ⟨horder, horder', get?_eq_of_respelled h h' hspelled horder horder'⟩

end

/-!
### An asset with a space before it
-/

def exampleTx (kind asset price ts : Str) : Tx :=
  ⟨txt "t", kind, asset, txt "1", price, txt "USD", ts⟩

/--
Two lots and a disposal. The first lot in the list is the later one.
-/
def exampleTxs (asset : Str) : List Tx :=
  [exampleTx (txt "buy") asset (txt "10") (txt "2026-01-02"),
    exampleTx (txt "buy") (txt "BTC") (txt "20") (txt "2026-01-01"),
    exampleTx (txt "sell") (txt "BTC") (txt "30") (txt "2026-01-03")]

def exampleOut (lot : Nat) (basis gain : Str) : Dict Str (List Disposal) :=
  Dict.empty.set (txt "BTC") [{
    txid := txt "t"
    ts := txt "2026-01-03"
    qty := txt "1"
    proceeds := txt "30"
    basis := basis
    gain := gain
    consumedLots := [⟨lot, txt "1", basis⟩]
    insufficientLots := false
    unmatchedQty := txt "0" }]

theorem costBasisFifo_example
    : costBasisFifo Python.Unicode.ascii (exampleTxs (txt "BTC"))
        = .ok (exampleOut 1 (txt "20") (txt "10")) := by
  decide +kernel

theorem costBasisFifo_example_space
    : costBasisFifo Python.Unicode.ascii (exampleTxs (txt " BTC"))
        = .ok (exampleOut 0 (txt "10") (txt "20")) := by
  decide +kernel

theorem inRange_example (asset : Str) : ∀ t ∈ exampleTxs asset, InRange t.qty := by
  have hread : reading (txt "1") = .ok (.finite false 1 0) := by decide +kernel
  have hone : InRange (txt "1") :=
    ⟨1 * 10 ^ quantityDp, (rounds_iff hread).mpr (by decide), by decide⟩
  simp only [exampleTxs, List.forall_mem_cons]
  exact ⟨hone, hone, hone, by simp⟩

theorem respelled_example
    : List.Forall₂ (Respelled Python.Unicode.ascii) (exampleTxs (txt "BTC")) (exampleTxs (txt " BTC")) :=
  .cons ⟨by decide, rfl⟩ (.cons ⟨rfl, rfl⟩ (.cons ⟨rfl, rfl⟩ .nil))

theorem costBasisFifo_matched_example
    : (Matched Python.Unicode.ascii (exampleTxs (txt "BTC")) (exampleOut 1 (txt "20") (txt "10")) ∧
          Matched Python.Unicode.ascii (exampleTxs (txt " BTC")) (exampleOut 0 (txt "10") (txt "20")) ∧
          ∀ asset, (exampleOut 0 (txt "10") (txt "20")).get? asset
            = (exampleOut 1 (txt "20") (txt "10")).get? asset)
        ↔
      (InOrder Python.Unicode.ascii (exampleTxs (txt "BTC")) ∧
        InOrder Python.Unicode.ascii (exampleTxs (txt " BTC"))) :=
  costBasisFifo_matched (inRange_example _) respelled_example costBasisFifo_example
    costBasisFifo_example_space

/--
A space before the asset of the later lot brings it to the front, and the disposal takes it.
-/
theorem costBasisFifo_asWritten
    : (∀ t ∈ exampleTxs (txt "BTC"), InRange t.qty) ∧
        List.Forall₂ (Respelled Python.Unicode.ascii) (exampleTxs (txt "BTC"))
          (exampleTxs (txt " BTC")) ∧
        costBasisFifo Python.Unicode.ascii (exampleTxs (txt "BTC"))
          = .ok (exampleOut 1 (txt "20") (txt "10")) ∧
        costBasisFifo Python.Unicode.ascii (exampleTxs (txt " BTC"))
          = .ok (exampleOut 0 (txt "10") (txt "20")) ∧
        ¬(Matched Python.Unicode.ascii (exampleTxs (txt "BTC")) (exampleOut 1 (txt "20") (txt "10")) ∧
          Matched Python.Unicode.ascii (exampleTxs (txt " BTC")) (exampleOut 0 (txt "10") (txt "20")) ∧
          ∀ asset, (exampleOut 0 (txt "10") (txt "20")).get? asset
            = (exampleOut 1 (txt "20") (txt "10")).get? asset) := by
  refine ⟨inRange_example _, respelled_example, costBasisFifo_example, costBasisFifo_example_space, ?_⟩
  rintro ⟨_, hmatched, _⟩
  have hne : processed Python.Unicode.ascii (exampleTxs (txt " BTC")) (txt "BTC")
      ≠ canonicalOrder Python.Unicode.ascii (exampleTxs (txt " BTC")) (txt "BTC") := by
    decide +kernel
  exact hne (hmatched.order _)

end TxEvidence
end CryptoValid
