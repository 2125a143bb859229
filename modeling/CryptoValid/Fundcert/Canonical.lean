import CryptoValid.Fundcert.Quantity
import CryptoValid.Lib.Collision
import CryptoValid.Lib.Except
import CryptoValid.Lib.Groups
import CryptoValid.Lib.Python
import CryptoValid.Lib.Sha3

/-!
This module contains the canonical form of the positions of a fund in `fundcert_canonical.py`, its
digest, and the comparison of two funds.
-/

namespace CryptoValid
namespace Fundcert

def canonVersion : Str := txt "fundcert-canon-1.0"

/--
What funds write where there is no CUSIP.
-/
def cusipSentinels : List Str :=
  [txt "N/A", txt "NA", txt "NONE", txt "XXXXXXXXX", txt "999999999"]

/--
`cashComponent` is empty where there is none.
-/
structure Position where
  identifier : Str
  idScheme : Str
  quantity : Str
  cashComponent : Str
  deriving DecidableEq

structure CanonPosition where
  id : Str
  scheme : Str
  qty : Str
  cash : Option Str
  deriving DecidableEq

/--
A digit of a CUSIP that is no decimal digit raises `ValueError`.
-/
inductive CanonError where
  | checkDigit
  | quantity (e : QuantityError)
  deriving DecidableEq, Repr

section

variable (u : Python.Unicode)

/-!
### Identifiers
-/

/--
The loop over the digits from the last one on, where every other one is doubled.
-/
def luhn (dbl : Bool) (total : Int) : Str → Option Int
  | [] => some total
  | ch :: rest =>
    match Python.int10? [ch] with
    | none => none
    | some d =>
      let d := if dbl then d * 2 else d
      let d := if dbl ∧ 9 < d then d - 9 else d
      luhn (!dbl) (total + d) rest

def isinCheckDigit (body : Str) : Except CanonError Str :=
  let digits := body.flatMap fun ch =>
    if u.isAlpha ch then Json.intText ((ch.val : Int) - 55) else [ch]
  match luhn true 0 digits.reverse with
  | none => .error .checkDigit
  | some total => .ok (Json.intText ((10 - total % 10) % 10))

def cusipToIsin (cusip : Str) : Except CanonError (Option Str) :=
  let c := u.upper (Python.stripBlanks cusip)
  if c.length ≠ 9 || !c.all u.isAlnum then
    .ok none
  else if c.all (· = 0x30) || cusipSentinels.contains c then
    .ok none
  else do
    let body := txt "US" ++ c
    return some (body ++ (← isinCheckDigit u body))

def normalizeId (identifier scheme target : Str) : Except CanonError (Str × Str) :=
  let ident := u.upper (Python.stripBlanks identifier)
  let scheme := u.upper (Python.stripBlanks scheme)
  if target = txt "ISIN" ∧ scheme = txt "CUSIP" then do
    match ← cusipToIsin u ident with
    | some isin => return (isin, txt "ISIN")
    | none => return (ident, scheme)
  else
    .ok (ident, scheme)

/-!
### The canonical form
-/

variable (idTarget : Option Str)

/--
Identifier and scheme, brought to another scheme if one is given.
-/
def canonName (p : Position) : Except CanonError (Str × Str) :=
  let ident := u.upper (Python.stripBlanks p.identifier)
  let scheme := u.upper (Python.stripBlanks p.idScheme)
  match idTarget with
  | none => .ok (ident, scheme)
  | some target => if target.isEmpty then .ok (ident, scheme) else normalizeId u ident scheme target

def canonPosition (p : Position) : Except CanonError CanonPosition := do
  let name ← canonName u idTarget p
  let qty ← (canonQuantity p.quantity).mapError .quantity
  if p.cashComponent.isEmpty then
    return ⟨name.1, name.2, qty, none⟩
  else
    return ⟨name.1, name.2, qty, some (← (canonQuantity p.cashComponent).mapError .quantity)⟩

namespace CanonPosition

/--
What the positions are sorted by.
-/
def key (p : CanonPosition) : List Str := [p.scheme, p.id, p.qty, p.cash.getD []]

def toJson (p : CanonPosition) : Json :=
  .obj ([(txt "id", .str p.id), (txt "scheme", .str p.scheme), (txt "qty", .str p.qty)] ++
    p.cash.toList.map fun cash => (txt "cash", .str cash))

end CanonPosition

/--
The positions in their order.
-/
def sorted (ps : List CanonPosition) : List CanonPosition := ps.sortBy CanonPosition.key

def canonicalForm (ps : List CanonPosition) : Json :=
  .obj [(txt "canon_version", .str canonVersion),
    (txt "positions", .arr ((sorted ps).map CanonPosition.toJson)), (txt "n", .int ps.length)]

def canonicalBytes (ps : List CanonPosition) : Bytes :=
  (Json.canonical (canonicalForm ps)).flatMap Utf8.encodePoint

variable (sha3_256 : HashFn 32)

def digestOf (ps : List CanonPosition) : Str := Hex.ofBytes (sha3_256 (canonicalBytes ps))

def digest (positions : List Position) : Except CanonError Str := do
  return digestOf sha3_256 (← positions.mapM (canonPosition u idTarget))

/-!
### The comparison of two funds
-/

/--
Quantity and cash of one position.
-/
abbrev Row := Str × Str

def CanonPosition.name (p : CanonPosition) : Str × Str := (p.scheme, p.id)

def CanonPosition.row (p : CanonPosition) : Row := (p.qty, p.cash.getD [])

/--
The rows of every scheme and identifier, in an order of their own.
-/
def multi (ps : List CanonPosition) : List ((Str × Str) × List Row) :=
  (Dict.groupBy CanonPosition.name CanonPosition.row (sorted ps)).items.map fun g =>
    (g.1, g.2.sortBy fun row => [row.1, row.2])

structure Changed where
  id : Str
  scheme : Str
  a : List Row
  b : List Row
  deriving DecidableEq

structure Difference where
  sameDigest : Bool
  onlyInA : List Str
  onlyInB : List Str
  changedQuantity : List Changed
  duplicateIds : List Str
  deriving DecidableEq

def colon : CodePoint := 0x3a

def label (g : (Str × Str) × List Row) : Str :=
  let name := g.1.1 ++ colon :: g.1.2
  if 1 < g.2.length then name ++ txt "(×" ++ Json.natText g.2.length ++ txt ")" else name

/--
What stands in the first fund only.
-/
def onlyIn (ma mb : List ((Str × Str) × List Row)) : List Str :=
  ((ma.filter fun g => (Assoc.lookup g.1 mb).isNone).map label).insertionSort (· ≤ ·)

/--
The identifiers of both, as a set, come in no certain order: here it is the one of the first fund.
-/
def compareFunds (a b : List CanonPosition) : Difference :=
  let ma := multi a
  let mb := multi b
  { sameDigest := digestOf sha3_256 a = digestOf sha3_256 b
    onlyInA := onlyIn ma mb
    onlyInB := onlyIn mb ma
    changedQuantity := ma.filterMap fun g =>
      match Assoc.lookup g.1 mb with
      | some rows => if g.2 ≠ rows then some ⟨g.1.2, g.1.1, g.2, rows⟩ else none
      | none => none
    duplicateIds := (ma.filterMap fun g =>
      match Assoc.lookup g.1 mb with
      | some rows =>
        if 1 < g.2.length ∨ 1 < rows.length then
          some (g.1.1 ++ colon :: (g.1.2 ++ txt "(a=" ++ Json.natText g.2.length ++ txt ",b=" ++
            Json.natText rows.length ++ txt ")"))
        else none
      | none => none).insertionSort (· ≤ ·) }

def diff (a b : List Position) : Except CanonError Difference := do
  let ca ← a.mapM (canonPosition u idTarget)
  let cb ← b.mapM (canonPosition u idTarget)
  return compareFunds sha3_256 ca cb

end

/-!
### Canonical positions
-/

/--
Quantities are texts without surrogates, and the cash component of a position is no empty text.
-/
structure CanonPosition.WellFormed (p : CanonPosition) : Prop where
  qty : Str.Scalar p.qty
  cash : ∀ cash, p.cash = some cash → cash ≠ [] ∧ Str.Scalar cash

section

variable {u : Python.Unicode} {idTarget : Option Str}

theorem mapError_eq_ok {ε ε' α : Type} {f : ε → ε'} {x : Except ε α} {a : α}
    (h : x.mapError f = .ok a) : x = .ok a := by
  cases x with
  | error e => simp [Except.mapError] at h
  | ok b => simpa [Except.mapError] using h

theorem wellFormed_of_canonPosition {p : Position} {c : CanonPosition}
    (h : canonPosition u idTarget p = .ok c) : c.WellFormed := by
  rcases Except.bind_eq_ok.mp h with ⟨name, _, h⟩
  rcases Except.bind_eq_ok.mp h with ⟨qty, hqty, h⟩
  have hqty' := scalar_of_canonQuantity (mapError_eq_ok hqty)
  split at h
  . rw [← Except.pure_eq_ok.mp h]
    exact ⟨hqty', by simp⟩
  . rcases Except.bind_eq_ok.mp h with ⟨cash, hcash, h⟩
    rw [← Except.pure_eq_ok.mp h]
    refine ⟨hqty', ?_⟩
    rintro cash' ⟨rfl⟩
    exact ⟨(val_of_canonQuantity (mapError_eq_ok hcash)).1,
      scalar_of_canonQuantity (mapError_eq_ok hcash)⟩

theorem cash_eq {p q : CanonPosition} (hp : p.WellFormed) (hq : q.WellFormed)
    (h : p.cash.getD [] = q.cash.getD []) : p.cash = q.cash := by
  cases hpc : p.cash with
  | none =>
    cases hqc : q.cash with
    | none => rfl
    | some cash =>
      rw [hpc, hqc] at h
      exact absurd h.symm (hq.cash cash hqc).1
  | some cash =>
    cases hqc : q.cash with
    | none =>
      rw [hpc, hqc] at h
      exact absurd h (hp.cash cash hpc).1
    | some cash' =>
      rw [hpc, hqc] at h
      exact congrArg some h

/--
The positions are sorted by all that they have.
-/
theorem key_inj {p q : CanonPosition} (hp : p.WellFormed) (hq : q.WellFormed) (h : p.key = q.key)
    : p = q := by
  simp only [CanonPosition.key, List.cons.injEq, and_true] at h
  have hcash := cash_eq hp hq h.2.2.2
  rcases p with ⟨id, scheme, qty, cash⟩
  rcases q with ⟨id', scheme', qty', cash'⟩
  simp only at h hcash
  rw [h.1, h.2.1, h.2.2.1, hcash]

theorem name_row_inj {p q : CanonPosition} (hp : p.WellFormed) (hq : q.WellFormed)
    (hname : p.name = q.name) (hrow : p.row = q.row) : p = q := by
  simp only [CanonPosition.name, CanonPosition.row, Prod.mk.injEq] at hname hrow
  exact key_inj hp hq (by simp [CanonPosition.key, hname, hrow])

theorem sorted_eq_of_perm {ps qs : List CanonPosition} (h : ps.Perm qs)
    (hps : ∀ p ∈ ps, p.WellFormed) : sorted ps = sorted qs :=
  List.sortBy_eq_of_perm CanonPosition.key h fun p hp q hq => key_inj (hps p hp) (hps q hq)

theorem canonicalBytes_eq_of_perm {ps qs : List CanonPosition} (h : ps.Perm qs)
    (hps : ∀ p ∈ ps, p.WellFormed) : canonicalBytes ps = canonicalBytes qs := by
  rw [canonicalBytes, canonicalBytes, canonicalForm, canonicalForm, h.length_eq,
    sorted_eq_of_perm h hps]

/-!
### What is hashed
-/

/--
No surrogate pairs in the identifier and its scheme.
-/
def CanonPosition.Unpaired (p : CanonPosition) : Prop :=
  Json.unpaired p.id = true ∧ Json.unpaired p.scheme = true

instance (p : CanonPosition) : Decidable p.Unpaired := inferInstanceAs (Decidable (_ ∧ _))

/--
A position as ASCII shows it: a character outside the basic plane and the two surrogates for it are
the same units.
-/
def CanonPosition.written (p : CanonPosition) : List Nat × List Nat × Str × Option Str :=
  (Utf16.units p.id, Utf16.units p.scheme, p.qty, p.cash)

/--
The position with a character for every surrogate pair.
-/
def CanonPosition.joined (p : CanonPosition) : CanonPosition :=
  { p with id := Utf16.join (Utf16.units p.id), scheme := Utf16.join (Utf16.units p.scheme) }

theorem joined_unpaired (p : CanonPosition) : p.joined.Unpaired :=
  ⟨Json.unpaired_join Utf16.units_lt, Json.unpaired_join Utf16.units_lt⟩

theorem joined_eq_self {p : CanonPosition} (hp : p.Unpaired) : p.joined = p := by
  rw [CanonPosition.joined, Json.join_units hp.1, Json.join_units hp.2]

theorem written_joined (p : CanonPosition) : p.joined.written = p.written := by
  rw [CanonPosition.written, CanonPosition.joined, Utf16.units_join Utf16.units_lt,
    Utf16.units_join Utf16.units_lt, CanonPosition.written]

theorem joined_eq_of_written {p q : CanonPosition} (h : p.written = q.written)
    : p.joined = q.joined := by
  simp only [CanonPosition.written, Prod.mk.injEq] at h
  simp only [CanonPosition.joined, h]

theorem sortKeys_toJson (p : CanonPosition)
    : Json.sortKeys p.toJson
        = .obj (p.cash.toList.map (fun cash => (txt "cash", Json.str cash)) ++
            [(txt "id", .str p.id), (txt "qty", .str p.qty), (txt "scheme", .str p.scheme)]) := by
  rcases p with ⟨id, scheme, qty, cash⟩
  cases cash <;> rfl

theorem toJson_inj {p q : CanonPosition} (h : Json.sortKeys p.toJson = Json.sortKeys q.toJson)
    : p = q := by
  rw [sortKeys_toJson, sortKeys_toJson] at h
  rcases p with ⟨id, scheme, qty, cash⟩
  rcases q with ⟨id', scheme', qty', cash'⟩
  cases cash <;> cases cash' <;> simp at h ⊢
  . exact ⟨h.1, h.2.2, h.2.1⟩
  . exact ⟨h.2.1, h.2.2.2, h.2.2.1, h.1⟩

/--
The canonical form of positions that are sorted, with its keys in their order.
-/
def formOf (ps : List CanonPosition) : Json :=
  .obj [(txt "canon_version", .str canonVersion), (txt "n", .int ps.length),
    (txt "positions", .arr (ps.map fun p => Json.sortKeys p.toJson))]

theorem sortKeys_canonicalForm (ps : List CanonPosition)
    : Json.sortKeys (canonicalForm ps) = formOf (sorted ps) := by
  have hlen : (sorted ps).length = ps.length := (List.perm_sortBy CanonPosition.key ps).length_eq
  rw [canonicalForm, Json.sortKeys_obj, formOf, hlen]
  simp only [List.map_cons, List.map_nil, Json.sortKeys_arr, List.map_map]
  rfl

theorem formOf_inj {ps qs : List CanonPosition} (h : formOf ps = formOf qs) : ps = qs := by
  simp only [formOf, Json.obj.injEq, List.cons.injEq, Prod.mk.injEq, Json.arr.injEq, true_and,
    and_true] at h
  exact List.map_injective_iff.mpr (fun p q hpq => toJson_inj hpq) h.2

/--
In ASCII the pairs cannot be told from the characters.
-/
theorem dumps_formOf_joined (ps : List CanonPosition)
    : (formOf (ps.map CanonPosition.joined)).dumps true = (formOf ps).dumps true := by
  have hposition : ∀ p : CanonPosition,
      (Json.sortKeys p.joined.toJson).dumps true = (Json.sortKeys p.toJson).dumps true := by
    intro p
    have htext : ∀ s : Str, Json.stringText true (Utf16.join (Utf16.units s))
        = Json.stringText true s :=
      fun s => Json.stringText_eq_of_units (Utf16.units_join Utf16.units_lt)
    rw [sortKeys_toJson, sortKeys_toJson]
    rcases p with ⟨id, scheme, qty, cash⟩
    cases cash <;> simp [CanonPosition.joined, Json.dumps, Json.dumpsMembers, htext]
  have harr : Json.dumps true (.arr ((ps.map CanonPosition.joined).map fun p =>
      Json.sortKeys p.toJson)) = Json.dumps true (.arr (ps.map fun p => Json.sortKeys p.toJson)) :=
    Json.dumps_arr_congr (by simp only [List.map_map, Function.comp_def, hposition])
  simp only [formOf, Json.dumps, Json.dumpsMembers, harr, List.length_map]

theorem unpaired_of_scalar {s : Str} (hs : Str.Scalar s) : Json.unpaired s = true := by
  induction s with
  | nil => rfl
  | cons c s ih =>
    rw [Str.scalar_cons] at hs
    cases s with
    | nil => rfl
    | cons d s =>
      have hhigh : c.isHighSurrogate = false := by
        have hc := hs.1
        simp only [CodePoint.isSurrogate, CodePoint.isHighSurrogate, Bool.and_eq_false_iff,
          decide_eq_false_iff_not] at hc ⊢
        omega
      rw [Json.unpaired, hhigh, Bool.false_and, Bool.not_false, Bool.true_and]
      exact ih hs.2

theorem unpairedText_formOf {ps : List CanonPosition} (hps : ∀ p ∈ ps, p.WellFormed)
    (hunpaired : ∀ p ∈ ps, p.Unpaired)
    : Json.All (fun v => Json.NotFloat v ∧ Json.UnpairedText v) (formOf ps) := by
  have hposition : ∀ p ∈ ps,
      Json.All (fun v => Json.NotFloat v ∧ Json.UnpairedText v) (Json.sortKeys p.toJson) := by
    intro p hp
    have hqty := unpaired_of_scalar (hps p hp).qty
    rw [sortKeys_toJson, Json.all_obj]
    refine ⟨⟨trivial, ?_⟩, ?_⟩
    . intro m hm
      simp only [List.mem_append, List.mem_map, Option.mem_toList, List.mem_cons, List.not_mem_nil,
        or_false] at hm
      rcases hm with ⟨cash, _, rfl⟩ | rfl | rfl | rfl <;> rfl
    . intro m hm
      simp only [List.mem_append, List.mem_map, Option.mem_toList, List.mem_cons, List.not_mem_nil,
        or_false] at hm
      rcases hm with ⟨cash, hcash, rfl⟩ | rfl | rfl | rfl
      . exact ⟨trivial, unpaired_of_scalar ((hps p hp).cash cash hcash).2⟩
      . exact ⟨trivial, (hunpaired p hp).1⟩
      . exact ⟨trivial, hqty⟩
      . exact ⟨trivial, (hunpaired p hp).2⟩
  rw [formOf, Json.all_obj]
  refine ⟨⟨trivial, ?_⟩, ?_⟩
  . simp only [Json.UnpairedText, List.forall_mem_cons, List.not_mem_nil, false_imp_iff, implies_true,
      and_true]
    exact ⟨rfl, rfl, rfl⟩
  . simp only [List.forall_mem_cons, List.not_mem_nil, false_imp_iff, implies_true, and_true]
    refine ⟨⟨trivial, rfl⟩, ⟨trivial, trivial⟩, ?_⟩
    rw [Json.all_arr]
    refine ⟨⟨trivial, trivial⟩, ?_⟩
    rw [List.forall_mem_map]
    exact hposition

/--
What is hashed is the same exactly if the sorted positions are written the same.
-/
theorem canonicalBytes_eq_iff {ps qs : List CanonPosition} (hps : ∀ p ∈ ps, p.WellFormed)
    (hqs : ∀ q ∈ qs, q.WellFormed)
    : canonicalBytes ps = canonicalBytes qs ↔
        (sorted ps).map CanonPosition.written = (sorted qs).map CanonPosition.written := by
  have hunpaired : ∀ {ps : List CanonPosition}, (∀ p ∈ ps, p.WellFormed) →
      Json.All (fun v => Json.NotFloat v ∧ Json.UnpairedText v)
        (formOf ((sorted ps).map CanonPosition.joined)) := by
    intro ps hps
    refine unpairedText_formOf ?_ ?_
    . rw [List.forall_mem_map]
      intro p hp
      have hp := hps p ((List.mem_sortBy CanonPosition.key).mp hp)
      exact ⟨hp.qty, hp.cash⟩
    . rw [List.forall_mem_map]
      exact fun p _ => joined_unpaired p
  constructor
  . intro h
    have htext := Utf8.flatMap_encodePoint_inj h
    rw [Json.canonical, Json.canonical, sortKeys_canonicalForm, sortKeys_canonicalForm,
      ← dumps_formOf_joined (sorted ps), ← dumps_formOf_joined (sorted qs)] at htext
    have hjoined := formOf_inj (Json.dumps_inj_of_unpaired (hunpaired hps) (hunpaired hqs) htext)
    have hwritten := congrArg (List.map CanonPosition.written) hjoined
    simpa only [List.map_map, Function.comp_def, written_joined] using hwritten
  . intro h
    have hjoined : (sorted ps).map CanonPosition.joined = (sorted qs).map CanonPosition.joined := by
      rw [← List.forall₂_eq_eq_eq, List.forall₂_map_left_iff, List.forall₂_map_right_iff] at h ⊢
      exact h.imp fun _ _ => joined_eq_of_written
    rw [canonicalBytes, canonicalBytes, Json.canonical, Json.canonical, sortKeys_canonicalForm,
      sortKeys_canonicalForm, ← dumps_formOf_joined (sorted ps), hjoined, dumps_formOf_joined]

/--
Funds with different positions that are written the same: a surrogate pair is in one where the other
has the character that it stands for.
-/
def Aliased (ps qs : List CanonPosition) : Prop :=
  (sorted ps).map CanonPosition.written = (sorted qs).map CanonPosition.written ∧ ¬ps.Perm qs

theorem not_aliased_of_unpaired {ps qs : List CanonPosition} (hps : ∀ p ∈ ps, p.Unpaired)
    (hqs : ∀ q ∈ qs, q.Unpaired) : ¬Aliased ps qs := by
  rintro ⟨hwritten, hperm⟩
  have hself : ∀ {ps : List CanonPosition}, (∀ p ∈ ps, p.Unpaired) →
      ∀ p ∈ sorted ps, p.joined = p :=
    fun hps p hp => joined_eq_self (hps p ((List.mem_sortBy CanonPosition.key).mp hp))
  have hsorted : sorted ps = sorted qs := by
    rw [← List.forall₂_eq_eq_eq, List.forall₂_map_left_iff, List.forall₂_map_right_iff] at hwritten
    rw [← List.forall₂_eq_eq_eq]
    refine List.forall₂_iff_get.mpr ⟨hwritten.length_eq, fun i hi hi' => ?_⟩
    rw [← hself hps _ (List.get_mem _ _), ← hself hqs _ (List.get_mem _ _)]
    exact joined_eq_of_written (hwritten.get hi hi')
  exact hperm (((List.perm_sortBy CanonPosition.key ps).symm.trans (List.Perm.of_eq hsorted)).trans
    (List.perm_sortBy CanonPosition.key qs))

/-!
### What the comparison finds
-/

theorem lookup_map_snd {κ ν ρ : Type} [DecidableEq κ] (f : ν → ρ) (xs : List (κ × ν)) (k : κ)
    : Assoc.lookup k (xs.map fun g => (g.1, f g.2)) = (Assoc.lookup k xs).map f := by
  induction xs with
  | nil => rfl
  | cons g xs ih =>
    rw [List.map_cons, Assoc.lookup_cons, Assoc.lookup_cons, ih]
    split <;> rfl

def rows (ps : List CanonPosition) (k : Str × Str) : List Row :=
  Dict.rowsOf CanonPosition.name CanonPosition.row ps k

def sortRows (rows : List Row) : List Row := rows.sortBy fun row => [row.1, row.2]

theorem lookup_multi (ps : List CanonPosition) (k : Str × Str)
    : Assoc.lookup k (multi ps)
        = if rows (sorted ps) k = [] then none else some (sortRows (rows (sorted ps) k)) := by
  have hget := Dict.get?_groupBy CanonPosition.name CanonPosition.row (sorted ps) k
  rw [Dict.get?] at hget
  rw [multi, lookup_map_snd, hget]
  unfold rows
  split <;> rfl

theorem mem_multi_iff (ps : List CanonPosition) (g : (Str × Str) × List Row)
    : g ∈ multi ps ↔ Assoc.lookup g.1 (multi ps) = some g.2 := by
  constructor
  . refine Assoc.lookup_of_mem ?_
    rw [multi, List.map_map]
    exact (Dict.groupBy CanonPosition.name CanonPosition.row (sorted ps)).nodup
  . exact Assoc.mem_of_lookup

theorem sortRows_eq_iff {rs rs' : List Row} : sortRows rs = sortRows rs' ↔ rs.Perm rs' := by
  constructor
  . intro h
    exact ((List.perm_sortBy _ rs).symm.trans (List.Perm.of_eq h)).trans (List.perm_sortBy _ rs')
  . refine fun h => List.sortBy_eq_of_perm _ h ?_
    intro x _ y _ hxy
    simp only [List.cons.injEq, and_true] at hxy
    exact Prod.ext hxy.1 hxy.2

/--
The same groups are found in both if and only if the positions are the same, in some order.
-/
theorem multi_eq_iff {ps qs : List CanonPosition} (hps : ∀ p ∈ ps, p.WellFormed)
    (hqs : ∀ q ∈ qs, q.WellFormed)
    : (∀ k, Assoc.lookup k (multi ps) = Assoc.lookup k (multi qs)) ↔ ps.Perm qs := by
  have hsorted : ∀ ps : List CanonPosition, ∀ k, (rows (sorted ps) k).Perm (rows ps k) :=
    fun ps k => Dict.perm_rowsOf (List.perm_sortBy CanonPosition.key ps) k
  have hmem : ∀ p ∈ ps ++ qs, p.WellFormed := by
    intro p hp
    rcases List.mem_append.mp hp with hp | hp
    . exact hps p hp
    . exact hqs p hp
  rw [Dict.perm_iff_rowsOf CanonPosition.name CanonPosition.row
    fun p hp q hq => name_row_inj (hmem p hp) (hmem q hq)]
  refine forall_congr' fun k => ?_
  rw [lookup_multi, lookup_multi]
  have hrows : (rows (sorted ps) k).Perm (rows (sorted qs) k) ↔ (rows ps k).Perm (rows qs k) := by
    constructor
    . exact fun h => ((hsorted ps k).symm.trans h).trans (hsorted qs k)
    . exact fun h => ((hsorted ps k).trans h).trans (hsorted qs k).symm
  rw [show Dict.rowsOf CanonPosition.name CanonPosition.row ps k = rows ps k from rfl,
    show Dict.rowsOf CanonPosition.name CanonPosition.row qs k = rows qs k from rfl, ← hrows,
    ← sortRows_eq_iff]
  split
  . next hnil =>
    rw [hnil]
    split
    . next hnil' => simp [hnil']
    . next hne =>
      simp only [reduceCtorEq, false_iff]
      intro heq
      exact hne (List.nil_perm.mp (sortRows_eq_iff.mp heq))
  . next hne =>
    split
    . next hnil' =>
      rw [hnil']
      simp only [reduceCtorEq, false_iff]
      intro heq
      exact hne (List.perm_nil.mp (sortRows_eq_iff.mp heq))
    . rw [Option.some.injEq]

/--
Nothing is reported.
-/
def Difference.Empty (d : Difference) : Prop :=
  d.onlyInA = [] ∧ d.onlyInB = [] ∧ d.changedQuantity = []

theorem onlyIn_eq_nil_iff {ps qs : List CanonPosition}
    : onlyIn (multi ps) (multi qs) = [] ↔
        ∀ k, Assoc.lookup k (multi qs) = none → Assoc.lookup k (multi ps) = none := by
  have hnil : ∀ xs : List Str, xs.insertionSort (· ≤ ·) = [] ↔ xs = [] := by
    intro xs
    rw [← List.length_eq_zero_iff, List.length_insertionSort, List.length_eq_zero_iff]
  rw [onlyIn, hnil, List.map_eq_nil_iff, List.filter_eq_nil_iff]
  constructor
  . intro h k hnone
    cases hlookup : Assoc.lookup k (multi ps) with
    | none => rfl
    | some rs =>
      exact absurd (by simp [hnone]) (h (k, rs) ((mem_multi_iff ps (k, rs)).mpr hlookup))
  . rintro h ⟨k, rs⟩ hg hnone
    rw [mem_multi_iff] at hg
    rw [h k (by simpa using hnone)] at hg
    simp at hg

theorem changedQuantity_eq_nil_iff {sha3_256 : HashFn 32} {ps qs : List CanonPosition}
    : (compareFunds sha3_256 ps qs).changedQuantity = [] ↔
        ∀ k rs rs', Assoc.lookup k (multi ps) = some rs → Assoc.lookup k (multi qs) = some rs' →
          rs = rs' := by
  simp only [compareFunds, List.filterMap_eq_nil_iff]
  constructor
  . intro h k rs rs' hrs hrs'
    have hg := h (k, rs) ((mem_multi_iff ps (k, rs)).mpr hrs)
    rw [hrs'] at hg
    by_contra hne
    simp [hne] at hg
  . rintro h ⟨k, rs⟩ hg
    rw [mem_multi_iff] at hg
    cases hrs' : Assoc.lookup k (multi qs) with
    | none => rfl
    | some rs' => simp [h k rs rs' hg hrs']

theorem empty_iff_perm (sha3_256 : HashFn 32) {ps qs : List CanonPosition}
    (hps : ∀ p ∈ ps, p.WellFormed) (hqs : ∀ q ∈ qs, q.WellFormed)
    : (compareFunds sha3_256 ps qs).Empty ↔ ps.Perm qs := by
  rw [← multi_eq_iff hps hqs, Difference.Empty, changedQuantity_eq_nil_iff,
    show (compareFunds sha3_256 ps qs).onlyInA = onlyIn (multi ps) (multi qs) from rfl,
    show (compareFunds sha3_256 ps qs).onlyInB = onlyIn (multi qs) (multi ps) from rfl,
    onlyIn_eq_nil_iff, onlyIn_eq_nil_iff]
  constructor
  . rintro ⟨ha, hb, hchanged⟩ k
    cases hrs : Assoc.lookup k (multi ps) with
    | none => exact (hb k hrs).symm
    | some rs =>
      cases hrs' : Assoc.lookup k (multi qs) with
      | none =>
        rw [ha k hrs'] at hrs
        simp at hrs
      | some rs' => rw [hchanged k rs rs' hrs hrs']
  . intro h
    refine ⟨fun k hk => (h k).trans hk, fun k hk => (h k).symm.trans hk, ?_⟩
    intro k rs rs' hrs hrs'
    rw [h k, hrs'] at hrs
    exact (Option.some.inj hrs).symm

/--
The positions are written anew: in some order, and each of them in a way that has the same canonical
form.
-/
def Respelled (u : Python.Unicode) (idTarget : Option Str) (a b : List Position) : Prop :=
  ∃ b', b'.Perm b ∧
    List.Forall₂ (fun p q => canonPosition u idTarget p = canonPosition u idTarget q) a b'

theorem perm_of_respelled {a b : List Position} {ca cb : List CanonPosition}
    (ha : a.mapM (canonPosition u idTarget) = .ok ca)
    (hb : b.mapM (canonPosition u idTarget) = .ok cb) (h : Respelled u idTarget a b)
    : ca.Perm cb := by
  rcases h with ⟨b', hperm, hall⟩
  rcases Except.mapM_perm hb hperm with ⟨cb', hcb', hperm'⟩
  have hsame : a.mapM (canonPosition u idTarget) = b'.mapM (canonPosition u idTarget) := by
    clear ha hcb' hperm
    induction hall with
    | nil => rfl
    | cons hp _ ih => rw [List.mapM_cons, List.mapM_cons, hp, ih]
  rw [← hsame, ha, Except.ok.injEq] at hcb'
  rw [hcb']
  exact hperm'

end

/--
Digest and comparison of two funds agree on whether their positions are the same, each as often, but
for a collision of what is hashed, exactly if the funds are not two that are written the same.
Without surrogate pairs there are no two such funds.
-/
theorem digest_diff_agree (sha3_256 : HashFn 32) (u : Python.Unicode) (idTarget : Option Str)
    : ∀ a b ca cb, a.mapM (canonPosition u idTarget) = .ok ca →
        b.mapM (canonPosition u idTarget) = .ok cb →
        ∃ da db d, digest u idTarget sha3_256 a = .ok da ∧ digest u idTarget sha3_256 b = .ok db ∧
          diff u idTarget sha3_256 a b = .ok d ∧ (d.Empty ↔ ca.Perm cb) ∧ (ca.Perm cb → da = db) ∧
          ((((da = db ↔ ca.Perm cb) ∧ (Respelled u idTarget a b → da = db) ∧ (d.Empty ↔ da = db)) ∨
              Collides sha3_256 [canonicalBytes ca, canonicalBytes cb]) ↔ ¬Aliased ca cb) ∧
          ((∀ p ∈ ca ++ cb, p.Unpaired) → ¬Aliased ca cb) := by
  intro a b ca cb ha hb
  have hwellFormed : ∀ {ps : List Position} {cs : List CanonPosition},
      ps.mapM (canonPosition u idTarget) = .ok cs → ∀ c ∈ cs, c.WellFormed := by
    intro ps cs hcs c hc
    rcases List.exists_of_mem_right (Except.mapM_eq_ok.mp hcs) hc with ⟨p, _, hp⟩
    exact wellFormed_of_canonPosition hp
  have hdigest : ∀ {ps : List Position} {cs : List CanonPosition},
      ps.mapM (canonPosition u idTarget) = .ok cs →
      digest u idTarget sha3_256 ps = .ok (digestOf sha3_256 cs) := by
    intro ps cs hcs
    rw [digest, hcs]
    rfl
  have hdiff : diff u idTarget sha3_256 a b = .ok (compareFunds sha3_256 ca cb) := by
    rw [diff, ha, hb]
    rfl
  have hempty := empty_iff_perm sha3_256 (hwellFormed ha) (hwellFormed hb)
  have hperm : ca.Perm cb → digestOf sha3_256 ca = digestOf sha3_256 cb := by
    intro h
    rw [digestOf, digestOf, canonicalBytes_eq_of_perm h (hwellFormed ha)]
  have hbytes := canonicalBytes_eq_iff (hwellFormed ha) (hwellFormed hb)
  refine ⟨_, _, _, hdigest ha, hdigest hb, hdiff, hempty, hperm, ⟨?_, ?_⟩, ?_⟩
  -- two funds that are written the same have the same bytes, which collide with nothing
  . rintro hagree ⟨hwritten, hnot⟩
    have hsame := hbytes.mpr hwritten
    rcases hagree with ⟨hiff, _⟩ | ⟨x, hx, y, hy, hne, _⟩
    . exact hnot (hiff.mp (by rw [digestOf, digestOf, hsame]))
    . rw [hsame] at hx hy
      simp only [List.mem_cons, List.not_mem_nil, or_false, or_self] at hx hy
      exact hne (hx.trans hy.symm)
  -- equal digests are of the same bytes, or those bytes collide
  . intro haliased
    have hor : digestOf sha3_256 ca = digestOf sha3_256 cb → ca.Perm cb ∨
        Collides sha3_256 [canonicalBytes ca, canonicalBytes cb] := by
      intro heq
      have hor : canonicalBytes ca = canonicalBytes cb ∨
          Collides sha3_256 [canonicalBytes ca, canonicalBytes cb] :=
        Collides.eq_or (by simp) (by simp) (Hex.ofBytes_inj heq)
      rcases hor with hsame | hcollides
      . exact Or.inl (not_not.mp fun hnot => haliased ⟨hbytes.mp hsame, hnot⟩)
      . exact Or.inr hcollides
    by_cases hcollides : Collides sha3_256 [canonicalBytes ca, canonicalBytes cb]
    . exact Or.inr hcollides
    . have hiff : digestOf sha3_256 ca = digestOf sha3_256 cb ↔ ca.Perm cb :=
        ⟨fun heq => (hor heq).resolve_right hcollides, hperm⟩
      exact Or.inl ⟨hiff, fun h => hperm (perm_of_respelled ha hb h), hempty.trans hiff.symm⟩
  . intro hunpaired
    exact not_aliased_of_unpaired (fun p hp => hunpaired p (List.mem_append_left cb hp))
      (fun q hq => hunpaired q (List.mem_append_right ca hq))

/-!
### An identifier with a surrogate pair
-/

def examplePosition (identifier : Str) : Position := ⟨identifier, txt "TICKER", txt "1", []⟩

/--
Two positions in either order.
-/
theorem digest_diff_agree_examplePosition
    : ∃ ca cb,
        [examplePosition (txt "A"), examplePosition (txt "B")].mapM
            (canonPosition Python.Unicode.ascii none) = .ok ca ∧
          [examplePosition (txt "B"), examplePosition (txt "A")].mapM
            (canonPosition Python.Unicode.ascii none) = .ok cb ∧
          ∃ da db d,
            digest Python.Unicode.ascii none sha3_256
                [examplePosition (txt "A"), examplePosition (txt "B")] = .ok da ∧
              digest Python.Unicode.ascii none sha3_256
                [examplePosition (txt "B"), examplePosition (txt "A")] = .ok db ∧
              diff Python.Unicode.ascii none sha3_256
                [examplePosition (txt "A"), examplePosition (txt "B")]
                [examplePosition (txt "B"), examplePosition (txt "A")] = .ok d ∧
              (d.Empty ↔ ca.Perm cb) ∧ (ca.Perm cb → da = db) ∧ ¬Aliased ca cb := by
  have ha : [examplePosition (txt "A"), examplePosition (txt "B")].mapM
      (canonPosition Python.Unicode.ascii none)
        = .ok [⟨txt "A", txt "TICKER", txt "1", none⟩, ⟨txt "B", txt "TICKER", txt "1", none⟩] := by
    decide +kernel
  have hb : [examplePosition (txt "B"), examplePosition (txt "A")].mapM
      (canonPosition Python.Unicode.ascii none)
        = .ok [⟨txt "B", txt "TICKER", txt "1", none⟩, ⟨txt "A", txt "TICKER", txt "1", none⟩] := by
    decide +kernel
  rcases digest_diff_agree sha3_256 Python.Unicode.ascii none _ _ _ _ ha hb with
    ⟨da, db, d, hda, hdb, hd, hempty, hperm, _, hunpaired⟩
  exact ⟨_, _, ha, hb, da, db, d, hda, hdb, hd, hempty, hperm, hunpaired (by decide +kernel)⟩

/--
Two identifiers, a character and its surrogates, are hashed as one, and the comparison tells them
apart.
-/
theorem digest_surrogatePair
    : ([examplePosition [0x1f600]].mapM (canonPosition Python.Unicode.ascii none)).toOption
          = some [⟨[0x1f600], txt "TICKER", txt "1", none⟩] ∧
        ([examplePosition [0xd83d, 0xde00]].mapM (canonPosition Python.Unicode.ascii none)).toOption
          = some [⟨[0xd83d, 0xde00], txt "TICKER", txt "1", none⟩] ∧
        canonicalBytes [⟨[0x1f600], txt "TICKER", txt "1", none⟩]
          = canonicalBytes [⟨[0xd83d, 0xde00], txt "TICKER", txt "1", none⟩] ∧
        ((diff Python.Unicode.ascii none sha3_256 [examplePosition [0x1f600]]
          [examplePosition [0xd83d, 0xde00]]).toOption.map fun d => (d.sameDigest, d.onlyInA.length))
            = some (true, 1) := by
  refine ⟨?_, ?_, ?_, ?_⟩ <;> decide +kernel

end Fundcert
end CryptoValid
