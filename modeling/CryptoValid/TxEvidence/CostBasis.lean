import CryptoValid.Fundcert.Quantity
import CryptoValid.Lib.DecimalArith
import CryptoValid.Lib.Dict
import CryptoValid.Lib.Fifo
import CryptoValid.Lib.SortBy

/-!
This module contains the cost basis of `tx_evidence.py`: the transactions are sorted, and every
disposal takes units from the lots of its asset, the first one in the queue first.
-/

namespace CryptoValid
namespace TxEvidence

open Fundcert

/-!
### Transactions
-/

structure Tx where
  txid : Str
  kind : Str
  asset : Str
  qty : Str
  unitPrice : Str
  currency : Str
  ts : Str
  deriving DecidableEq

def acquireKinds : List Str :=
  [txt "acquire", txt "buy", txt "receive", txt "mining", txt "reward", txt "airdrop"]

def disposeKinds : List Str := [txt "dispose", txt "sell", txt "send", txt "spend", txt "trade_out"]

/--
`_canon_quantity` raises, or the arithmetic does.
-/
inductive TxError where
  | quantity (e : QuantityError)
  | decimal (e : Decimal.Error)
  deriving DecidableEq

/--
`Decimal(_canon_quantity(raw))`
-/
def canonNumber (raw : Str) : Except TxError Decimal := do
  let text ← (canonQuantity raw).mapError .quantity
  (Decimal.ofText text).mapError .decimal

/--
`_canon_quantity(x)` of a number.
-/
def canonText (x : Decimal) : Except TxError Str := (canonQuantity x.toText).mapError .quantity

/--
A lot with the place of its transaction in the list, which the code does not keep.
-/
structure Lot where
  tx : Nat
  qty : Decimal
  unitCost : Decimal
  deriving DecidableEq

structure Consumed where
  lot : Nat
  qty : Str
  unitCost : Str
  deriving DecidableEq

structure Disposal where
  txid : Str
  ts : Str
  qty : Str
  proceeds : Str
  basis : Str
  gain : Str
  consumedLots : List Consumed
  insufficientLots : Bool
  unmatchedQty : Str
  deriving DecidableEq

/--
What the loop over the lots leaves behind.
-/
structure Spent where
  lots : List Lot
  remaining : Decimal
  basis : Decimal
  consumed : List Consumed
  deriving DecidableEq

/--
`while remaining > 0 and q`: a lot that is empty afterwards is dropped. One that is not gave all that
remained, so that the loop ends there.
-/
def consume (lots : List Lot) (remaining basis : Decimal) : Except TxError Spent := do
  match lots with
  | [] =>
    let _ ← (Decimal.lt .zero remaining).mapError .decimal
    return ⟨[], remaining, basis, []⟩
  | lot :: lots =>
    if ← (Decimal.lt .zero remaining).mapError .decimal then
      let take ← (Decimal.least remaining lot.qty).mapError .decimal
      let cost ← (Decimal.mul take lot.unitCost).mapError .decimal
      let basis ← (Decimal.add basis cost).mapError .decimal
      let consumed := ⟨lot.tx, ← canonText take, ← canonText lot.unitCost⟩
      let left ← (Decimal.sub lot.qty take).mapError .decimal
      let remaining ← (Decimal.sub remaining take).mapError .decimal
      if left.eq .zero then
        let spent ← consume lots remaining basis
        return { spent with consumed := consumed :: spent.consumed }
      else
        return ⟨{ lot with qty := left } :: lots, remaining, basis, [consumed]⟩
    else
      return ⟨lot :: lots, remaining, basis, []⟩

/--
The record of a disposal.
-/
def report (t : Tx) (qty price : Decimal) (spent : Spent) : Except TxError Disposal := do
  let proceeds ← (Decimal.mul qty price).mapError .decimal
  let qtyText ← canonText qty
  let proceedsText ← canonText proceeds
  let basisText ← canonText spent.basis
  let gain ← (Decimal.sub proceeds spent.basis).mapError .decimal
  let gainText ← canonText gain
  let insufficient ← (Decimal.lt .zero spent.remaining).mapError .decimal
  let unmatched ← if insufficient then canonText spent.remaining else .ok (txt "0")
  return {
    txid := t.txid
    ts := t.ts
    qty := qtyText
    proceeds := proceedsText
    basis := basisText
    gain := gainText
    consumedLots := spent.consumed
    insufficientLots := insufficient
    unmatchedQty := unmatched }

structure Book where
  lots : Dict Str (List Lot)
  out : Dict Str (List Disposal)
  deriving DecidableEq

def Book.lotsOf (book : Book) (asset : Str) : List Lot := (book.lots.get? asset).getD []

def Book.outOf (book : Book) (asset : Str) : List Disposal := (book.out.get? asset).getD []

section

variable (u : Python.Unicode)

def Tx.canonAsset (t : Tx) : Str := u.upper (Python.stripBlanks t.asset)

def Tx.canonKind (t : Tx) : Str := u.lower (Python.stripBlanks t.kind)

/--
What a transaction does to the lots of its asset, and what it adds to the result. A transfer does
nothing.
-/
def post (lots : List Lot) (p : Tx × Nat) : Except TxError (Option (List Lot × Option Disposal)) := do
  let qty ← canonNumber p.1.qty
  let price ← canonNumber p.1.unitPrice
  if p.1.canonKind u ∈ acquireKinds then
    return some (lots ++ [⟨p.2, qty, price⟩], none)
  else if p.1.canonKind u ∈ disposeKinds then
    let spent ← consume lots qty .zero
    return some (spent.lots, some (← report p.1 qty price spent))
  else
    return none

def process (book : Book) (p : Tx × Nat) : Except TxError Book := do
  let asset := p.1.canonAsset u
  match ← post u (book.lotsOf asset) p with
  | none => return book
  | some (lots, none) => return { book with lots := book.lots.set asset lots }
  | some (lots, some d) =>
    return ⟨book.lots.set asset lots, book.out.set asset (book.outOf asset ++ [d])⟩

/--
The transactions by asset and timestamp as they are written, with their places in the list.
-/
def ordered (txs : List Tx) : List (Tx × Nat) :=
  txs.zipIdx.sortBy fun p => [u.upper p.1.asset, p.1.ts]

/--
`by_asset` of the cost basis.
-/
def costBasisFifo (txs : List Tx) : Except TxError (Dict Str (List Disposal)) := do
  let book ← (ordered u txs).foldlM (process u) ⟨Dict.empty, Dict.empty⟩
  return book.out

end

/-!
### Amounts
-/

/--
The millionths of a quantity.
-/
def unitsOf (raw : Str) : Nat :=
  match reading raw with
  | .ok (.finite _ coeff exp) => Decimal.units quantityDp coeff exp
  | _ => 0

/--
The canonical quantity is not negative and below `10 ^ 20`.
-/
def InRange (raw : Str) : Prop := ∃ m : Nat, Rounds raw m ∧ m < 10 ^ 20 * 10 ^ quantityDp

theorem numDigits_le_of_lt {m : Nat} (h : m < 10 ^ 20 * 10 ^ quantityDp)
    : Decimal.numDigits m ≤ Decimal.prec := by
  have hle : Decimal.numDigits m ≤ 26 := by
    rw [Decimal.numDigits, Json.length_natText_le_iff (by decide)]
    exact h
  exact le_trans hle (by decide)

/--
What is known of a quantity in range: its sign is only that of a zero.
-/
theorem InRange.reading_eq {raw : Str} (h : InRange raw)
    : ∃ negative coeff exp, reading raw = .ok (.finite negative coeff exp) ∧
        Decimal.units quantityDp coeff exp = unitsOf raw ∧ Rounds raw (unitsOf raw) ∧
        unitsOf raw < 10 ^ 20 * 10 ^ quantityDp ∧ (negative = true → unitsOf raw = 0) := by
  rcases h with ⟨m, hrounds, hlt⟩
  rcases id hrounds with ⟨negative, coeff, exp, hread, _⟩
  have hunits : Decimal.units quantityDp coeff exp = unitsOf raw := by rw [unitsOf, hread]
  have hm := (rounds_iff hread).mp hrounds
  rw [hunits] at hm
  have hzero : negative = true → unitsOf raw = 0 := by
    rintro rfl
    rw [Decimal.signed, if_pos rfl] at hm
    omega
  rw [Decimal.signed_of_zero hzero, Int.natCast_inj] at hm
  subst hm
  exact ⟨negative, coeff, exp, hread, hunits, hrounds, hlt, hzero⟩

theorem canonNumber_amount {raw : Str} {x : Decimal} (h : InRange raw) (hx : canonNumber raw = .ok x)
    : Decimal.Amount quantityDp (unitsOf raw) x := by
  rcases h.reading_eq with ⟨negative, coeff, exp, hread, hunits, _, _, hzero⟩
  rcases Except.bind_eq_ok.mp hx with ⟨text, htext, hx⟩
  rw [Except.mapError_eq_ok] at htext hx
  rw [canonQuantity_finite hread] at htext
  split at htext
  . next hrep =>
    rw [← Except.ok.inj htext, Decimal.ofText_unitsText negative
      (constructible_lowest (constructible_of_ofText hread) hrep), Except.ok.injEq, hunits] at hx
    rcases Decimal.lowest_spec quantityDp (unitsOf raw) with ⟨hmul, hle, _⟩
    refine ⟨negative, _, _, hx.symm, hle, hmul, fun hneg => ?_⟩
    rw [hzero hneg, Nat.mul_eq_zero] at hmul
    rw [hzero hneg]
    exact hmul.resolve_right (by positivity)
  . simp at htext

theorem canonText_amount {m : Nat} {x : Decimal} {s : Str} (hx : Decimal.Amount quantityDp m x)
    (hm : m < 10 ^ 20 * 10 ^ quantityDp) (hs : canonText x = .ok s) : Rounds s m := by
  have hdigits := numDigits_le_of_lt hm
  rcases Decimal.signed?_toText (by decide) hx hdigits with ⟨hsigned, hplain⟩
  have hread := reading_of_plain hplain
  rw [hsigned, Option.elim_some] at hread
  rcases hx with ⟨negative, coeff, k, rfl, hk, hmul, hzero⟩
  have hunits : Decimal.units quantityDp coeff (-(k : Int)) = m := by
    rw [Decimal.units, if_pos (by omega), ← hmul]
    congr 2
    omega
  have hrounds : Rounds (Decimal.toText (.finite negative coeff (-(k : Int)))) m := by
    rw [rounds_iff hread, hunits, Decimal.signed_of_zero fun hneg => ?_]
    rw [← hmul, hzero hneg, Nat.zero_mul]
  rw [canonText, Except.mapError_eq_ok] at hs
  exact hrounds.canonQuantity hs

/-!
### One disposal
-/

/--
The lots hold what is in the queue.
-/
def Holding (lots : List Lot) (queue : List (Nat × Nat)) : Prop :=
  List.Forall₂ (fun lot q => lot.tx = q.1 ∧ Decimal.Amount quantityDp q.2 lot.qty ∧
    q.2 < 10 ^ 20 * 10 ^ quantityDp) lots queue

/--
The texts of what was consumed say what was taken.
-/
def Stated (consumed : List Consumed) (taken : List (Nat × Nat)) : Prop :=
  List.Forall₂ (fun c t => c.lot = t.1 ∧ Rounds c.qty t.2) consumed taken

/--
A pass of the loop.
-/
theorem consume_cons {lot : Lot} {lots : List Lot} {remaining basis : Decimal} {spent : Spent}
    (hpos : Decimal.lt .zero remaining = .ok true) (h : consume (lot :: lots) remaining basis = .ok spent)
    : ∃ take basis' takeText costText left remaining',
        Decimal.least remaining lot.qty = .ok take ∧ canonText take = .ok takeText ∧
        Decimal.sub lot.qty take = .ok left ∧ Decimal.sub remaining take = .ok remaining' ∧
        ((left.eq .zero = true ∧ ∃ rest, consume lots remaining' basis' = .ok rest ∧
            spent = { rest with consumed := ⟨lot.tx, takeText, costText⟩ :: rest.consumed }) ∨
          (left.eq .zero = false ∧ spent = ⟨{ lot with qty := left } :: lots, remaining', basis',
            [⟨lot.tx, takeText, costText⟩]⟩)) := by
  rw [consume, hpos] at h
  rcases Except.bind_eq_ok.mp h with ⟨_, htrue, h⟩
  rw [← Except.ok.inj htrue, if_pos rfl] at h
  rcases Except.bind_eq_ok.mp h with ⟨take, htake, h⟩
  rcases Except.bind_eq_ok.mp h with ⟨cost, _, h⟩
  rcases Except.bind_eq_ok.mp h with ⟨basis', _, h⟩
  rcases Except.bind_eq_ok.mp h with ⟨takeText, htakeText, h⟩
  rcases Except.bind_eq_ok.mp h with ⟨costText, _, h⟩
  rcases Except.bind_eq_ok.mp h with ⟨left, hleft, h⟩
  rcases Except.bind_eq_ok.mp h with ⟨remaining', hremaining, h⟩
  refine ⟨take, basis', takeText, costText, left, remaining', Except.mapError_eq_ok.mp htake, htakeText,
    Except.mapError_eq_ok.mp hleft, Except.mapError_eq_ok.mp hremaining, ?_⟩
  split at h
  . next hempty =>
    rcases Except.bind_eq_ok.mp h with ⟨rest, hrest, h⟩
    exact Or.inl ⟨hempty, rest, hrest, (Except.pure_eq_ok.mp h).symm⟩
  . next hempty =>
    exact Or.inr ⟨Bool.eq_false_iff.mpr hempty, (Except.pure_eq_ok.mp h).symm⟩

/--
The loop takes from the lots as from a queue.
-/
theorem consume_take {lots : List Lot} {queue : List (Nat × Nat)} {remaining basis : Decimal}
    {units : Nat} {spent : Spent} (hlots : Holding lots queue)
    (hremaining : Decimal.Amount quantityDp units remaining) (hunits : units < 10 ^ 20 * 10 ^ quantityDp)
    (h : consume lots remaining basis = .ok spent)
    : Holding spent.lots (Fifo.take queue units).1 ∧
        Stated spent.consumed (Fifo.take queue units).2.taken ∧
        Decimal.Amount quantityDp (Fifo.take queue units).2.left spent.remaining := by
  induction hlots generalizing remaining basis units spent with
  | nil =>
    rw [consume] at h
    rcases Except.bind_eq_ok.mp h with ⟨_, _, h⟩
    rw [← Except.pure_eq_ok.mp h]
    exact ⟨.nil, .nil, hremaining⟩
  | cons hfirst htail ih =>
    next lot q lots queue =>
    rcases q with ⟨tx, held⟩
    rcases hfirst with ⟨htx, hheld, hbound⟩
    dsimp only at htx hheld hbound
    rw [Fifo.take]
    by_cases hzero : units = 0
    . subst hzero
      rw [consume, (Decimal.amount_zero quantityDp).lt hremaining] at h
      have hspent := Except.pure_eq_ok.mp h
      rw [if_pos rfl, ← hspent]
      exact ⟨.cons ⟨htx, hheld, hbound⟩ htail, .nil, hremaining⟩
    . have hpos : Decimal.lt .zero remaining = .ok true := by
        rw [(Decimal.amount_zero quantityDp).lt hremaining, decide_eq_true (Nat.pos_of_ne_zero hzero)]
      rcases consume_cons hpos h with ⟨take, basis', takeText, costText, left, remaining', htake,
        htakeText, hleft, hremaining', hcases⟩
      rcases hremaining.least hheld with ⟨z, hz, hamount⟩
      rw [htake, Except.ok.injEq] at hz
      subst hz
      rcases hheld.sub hamount (min_le_right _ _) (by decide) (numDigits_le_of_lt hbound) with
        ⟨z, hz, hleftAmount⟩
      rw [hleft, Except.ok.injEq] at hz
      subst hz
      rcases hremaining.sub hamount (min_le_left _ _) (by decide) (numDigits_le_of_lt hunits) with
        ⟨z, hz, hremainingAmount⟩
      rw [hremaining', Except.ok.injEq] at hz
      subst hz
      have hstated : Rounds takeText (min units held : ℕ) :=
        canonText_amount hamount (lt_of_le_of_lt (min_le_right _ _) hbound) htakeText
      rw [if_neg hzero]
      rw [hleftAmount.eq_zero] at hcases
      by_cases hle : held ≤ units
      . rw [min_eq_right hle] at hcases hremainingAmount hstated
        rcases hcases with ⟨_, rest, hrest, rfl⟩ | ⟨hempty, _⟩
        . rcases ih hremainingAmount (lt_of_le_of_lt (Nat.sub_le _ _) hunits) hrest with
            ⟨hlots, hconsumed, hspent⟩
          rw [if_pos hle]
          exact ⟨hlots, .cons ⟨htx, hstated⟩ hconsumed, hspent⟩
        . rw [Nat.sub_self] at hempty
          simp at hempty
      . rw [min_eq_left (Nat.le_of_not_le hle)] at hcases hleftAmount hremainingAmount hstated
        rcases hcases with ⟨hempty, _⟩ | ⟨_, rfl⟩
        . rw [decide_eq_true_eq] at hempty
          omega
        . rw [if_neg hle]
          rw [Nat.sub_self] at hremainingAmount
          exact ⟨.cons ⟨htx, hleftAmount, lt_of_le_of_lt (Nat.sub_le _ _) hbound⟩ htail,
            .cons ⟨htx, hstated⟩ .nil, hremainingAmount⟩

/--
A record has the texts of its transaction.
-/
structure Describes (d : Disposal) (p : Tx × Nat) : Prop where
  txid_eq : d.txid = p.1.txid
  ts_eq : d.ts = p.1.ts
  qty : Rounds d.qty (unitsOf p.1.qty)

/--
A record says what was taken, and what was not found.
-/
structure Reports (d : Disposal) (m : Fifo.Match Nat) : Prop where
  consumed : Stated d.consumedLots m.taken
  insufficient : d.insufficientLots = decide (0 < m.left)
  unmatched : Rounds d.unmatchedQty m.left

theorem report_eq_ok {t : Tx} {qty price : Decimal} {spent : Spent} {d : Disposal}
    (h : report t qty price spent = .ok d)
    : d.txid = t.txid ∧ d.ts = t.ts ∧ canonText qty = .ok d.qty ∧ d.consumedLots = spent.consumed ∧
        Decimal.lt .zero spent.remaining = .ok d.insufficientLots ∧
        if d.insufficientLots then canonText spent.remaining = .ok d.unmatchedQty
        else d.unmatchedQty = txt "0" := by
  unfold report at h
  rcases Except.bind_eq_ok.mp h with ⟨proceeds, _, h⟩
  rcases Except.bind_eq_ok.mp h with ⟨qtyText, hqty, h⟩
  rcases Except.bind_eq_ok.mp h with ⟨proceedsText, _, h⟩
  rcases Except.bind_eq_ok.mp h with ⟨basisText, _, h⟩
  rcases Except.bind_eq_ok.mp h with ⟨gain, _, h⟩
  rcases Except.bind_eq_ok.mp h with ⟨gainText, _, h⟩
  rcases Except.bind_eq_ok.mp h with ⟨insufficient, hinsufficient, h⟩
  have hinsufficient := Except.mapError_eq_ok.mp hinsufficient
  dsimp only at h
  split at h
  . next htrue =>
    rcases Except.bind_eq_ok.mp h with ⟨unmatched, hunmatched, h⟩
    rw [← Except.pure_eq_ok.mp h]
    refine ⟨rfl, rfl, hqty, rfl, hinsufficient, ?_⟩
    rw [if_pos htrue]
    exact hunmatched
  . next hfalse =>
    rw [← Except.pure_eq_ok.mp h]
    refine ⟨rfl, rfl, hqty, rfl, hinsufficient, ?_⟩
    rw [if_neg hfalse]

theorem rounds_zero : Rounds (txt "0") (0 : ℕ) := by
  have hread : reading (txt "0") = .ok (.finite false 0 0) := by decide +kernel
  exact (rounds_iff hread).mpr (by decide)

theorem reports_report {t : Tx} {qty price : Decimal} {spent : Spent} {d : Disposal}
    {m : Fifo.Match Nat} (h : report t qty price spent = .ok d) (hconsumed : Stated spent.consumed m.taken)
    (hleft : Decimal.Amount quantityDp m.left spent.remaining) (hbound : m.left < 10 ^ 20 * 10 ^ quantityDp)
    : Reports d m := by
  rcases report_eq_ok h with ⟨_, _, _, hlots, hinsufficient, hunmatched⟩
  rw [(Decimal.amount_zero quantityDp).lt hleft, Except.ok.injEq] at hinsufficient
  refine ⟨by rwa [hlots], hinsufficient.symm, ?_⟩
  split at hunmatched
  . exact canonText_amount hleft hbound hunmatched
  . next hnone =>
    rw [← hinsufficient, decide_eq_true_eq] at hnone
    rw [hunmatched, Nat.eq_zero_of_not_pos hnone]
    exact rounds_zero

theorem left_take_le (queue : List (Nat × Nat)) (units : Nat) : (Fifo.take queue units).2.left ≤ units := by
  induction queue generalizing units with
  | nil => exact Nat.le_refl _
  | cons q queue ih =>
    rw [Fifo.take]
    split
    . exact Nat.zero_le _
    . split
      . exact (ih _).trans (Nat.sub_le _ _)
      . exact Nat.zero_le _

/-!
### One asset
-/

section

variable (u : Python.Unicode)

/--
The records of transactions of one asset, one after the other.
-/
def disposals (lots : List Lot) : List (Tx × Nat) → Except TxError (List Disposal)
  | [] => .ok []
  | p :: ps => do
    match ← post u lots p with
    | none => disposals lots ps
    | some (lots, none) => disposals lots ps
    | some (lots, some d) => return d :: (← disposals lots ps)

def Tx.isDisposal (t : Tx) : Bool := t.canonKind u ∉ acquireKinds && t.canonKind u ∈ disposeKinds

def eventOf (p : Tx × Nat) : Option (Fifo.Event Nat) :=
  if p.1.canonKind u ∈ acquireKinds then some (.acquire p.2 (unitsOf p.1.qty))
  else if p.1.canonKind u ∈ disposeKinds then some (.dispose (unitsOf p.1.qty))
  else none

def events (ps : List (Tx × Nat)) : List (Fifo.Event Nat) := ps.filterMap (eventOf u)

variable {u}

theorem post_eq_ok {lots : List Lot} {p : Tx × Nat} {res : Option (List Lot × Option Disposal)}
    (h : post u lots p = .ok res)
    : ∃ qty price, canonNumber p.1.qty = .ok qty ∧ canonNumber p.1.unitPrice = .ok price ∧
        ((p.1.canonKind u ∈ acquireKinds ∧ res = some (lots ++ [⟨p.2, qty, price⟩], none)) ∨
          (p.1.canonKind u ∉ acquireKinds ∧ p.1.canonKind u ∈ disposeKinds ∧
            ∃ spent d, consume lots qty .zero = .ok spent ∧ report p.1 qty price spent = .ok d ∧
              res = some (spent.lots, some d)) ∨
          (p.1.canonKind u ∉ acquireKinds ∧ p.1.canonKind u ∉ disposeKinds ∧ res = none)) := by
  rcases Except.bind_eq_ok.mp h with ⟨qty, hqty, h⟩
  rcases Except.bind_eq_ok.mp h with ⟨price, hprice, h⟩
  refine ⟨qty, price, hqty, hprice, ?_⟩
  split at h
  . next hacquire => exact Or.inl ⟨hacquire, (Except.pure_eq_ok.mp h).symm⟩
  . next hacquire =>
    split at h
    . next hdispose =>
      rcases Except.bind_eq_ok.mp h with ⟨spent, hspent, h⟩
      rcases Except.bind_eq_ok.mp h with ⟨d, hd, h⟩
      exact Or.inr (Or.inl ⟨hacquire, hdispose, spent, d, hspent, hd, (Except.pure_eq_ok.mp h).symm⟩)
    . next hdispose => exact Or.inr (Or.inr ⟨hacquire, hdispose, (Except.pure_eq_ok.mp h).symm⟩)

/--
The records of one asset report the run of a queue.
-/
theorem reports_run {lots : List Lot} {queue : List (Nat × Nat)} {ps : List (Tx × Nat)}
    {ds : List Disposal} (hlots : Holding lots queue) (hps : ∀ p ∈ ps, InRange p.1.qty)
    (h : disposals u lots ps = .ok ds)
    : List.Forall₂ Reports ds (Fifo.run queue (events u ps)) ∧
        List.Forall₂ Describes ds (ps.filter fun p => p.1.isDisposal u) := by
  induction ps generalizing lots queue ds with
  | nil =>
    rw [← Except.ok.inj h]
    exact ⟨.nil, .nil⟩
  | cons p ps ih =>
    rw [List.forall_mem_cons] at hps
    rcases Except.bind_eq_ok.mp h with ⟨res, hpost, h⟩
    rcases post_eq_ok hpost with ⟨qty, price, hqty, _, hcases⟩
    have hamount := canonNumber_amount hps.1 hqty
    rcases hps.1.reading_eq with ⟨_, _, _, _, _, _, hbound, _⟩
    rcases hcases with ⟨hacquire, rfl⟩ | ⟨hacquire, hdispose, spent, d, hspent, hd, rfl⟩ |
      ⟨hacquire, hdispose, rfl⟩
    . have hkeep : events u (p :: ps) = .acquire p.2 (unitsOf p.1.qty) :: events u ps := by
        rw [events, List.filterMap_cons, eventOf, if_pos hacquire]
        rfl
      rw [hkeep, Fifo.run, List.filter_cons_of_neg (by simp [Tx.isDisposal, hacquire])]
      exact ih (List.rel_append hlots (.cons ⟨rfl, hamount, hbound⟩ .nil)) hps.2 h
    . have hkeep : events u (p :: ps) = .dispose (unitsOf p.1.qty) :: events u ps := by
        rw [events, List.filterMap_cons, eventOf, if_neg hacquire, if_pos hdispose]
        rfl
      rcases Except.bind_eq_ok.mp h with ⟨ds', hds', h⟩
      rw [← Except.pure_eq_ok.mp h]
      rcases consume_take hlots hamount hbound hspent with ⟨hrest, hconsumed, hleft⟩
      rcases ih hrest hps.2 hds' with ⟨hreports, hdescribes⟩
      rcases report_eq_ok hd with ⟨htxid, hts, hqtyText, _⟩
      rw [hkeep, Fifo.run, List.filter_cons_of_pos (by simp [Tx.isDisposal, hacquire, hdispose])]
      refine ⟨.cons (reports_report hd hconsumed hleft ?_) hreports,
        .cons ⟨htxid, hts, canonText_amount hamount hbound hqtyText⟩ hdescribes⟩
      exact lt_of_le_of_lt (left_take_le queue _) hbound
    . have hkeep : events u (p :: ps) = events u ps := by
        rw [events, List.filterMap_cons, eventOf, if_neg hacquire, if_neg hdispose]
        rfl
      rw [hkeep, List.filter_cons_of_neg (by simp [Tx.isDisposal, hdispose])]
      exact ih hlots hps.2 h

end

end TxEvidence
end CryptoValid
