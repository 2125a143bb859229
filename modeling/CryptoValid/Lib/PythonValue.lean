import CryptoValid.Lib.Except
import CryptoValid.Lib.Json.Print
import CryptoValid.Lib.PythonJson
import Mathlib.Algebra.Order.Field.Rat
import Mathlib.Order.WithBot

/-!
This module contains the values that a caller may hand to `json.dumps` of Python, and what it writes
of them with `sort_keys` and `separators=(",", ":")`.
-/

namespace Python

/--
A key of a dictionary: of a type that has a text in JSON, or of another one.
-/
inductive Key where
  | null
  | bool (b : Bool)
  | int (i : Int)
  | float (x : Binary64)
  | str (s : Str)
  | other
  deriving DecidableEq

/--
A value of Python. A tuple is encoded as a list; `other` is of a type that has no encoding.
-/
inductive Value where
  | null
  | bool (b : Bool)
  | int (i : Int)
  | float (x : Binary64)
  | str (s : Str)
  | list (xs : List Value)
  | dict (ms : List (Key × Value))
  | other

/-!
### Keys
-/

namespace Key

def isStr : Key → Bool
  | .str _ => true
  | _ => false

/--
The text of a key that is a string.
-/
def name : Key → Str
  | .str s => s
  | _ => []

def isNaN : Key → Bool
  | .float x => x.isNaN
  | _ => false

def finite (q : ℚ) : WithBot (WithTop ℚ) := WithBot.some (WithTop.some q)

/--
What a key is compared as, if it is a number.
-/
def number? : Key → Option (WithBot (WithTop ℚ))
  | .bool b => some (finite (if b then 1 else 0))
  | .int i => some (finite i)
  | .float x =>
    if x.isInfinite then
      some (if x.negative then ⊥ else ⊤)
    else
      some (finite (x.quotient.1 / x.quotient.2))
  | _ => none

/--
`a < b` for two strings or for two numbers. Nothing is less than a NaN or greater than it.
-/
def lt (a b : Key) : Bool :=
  match a, b with
  | .str s, .str t => s < t
  | a, b =>
    if a.isNaN || b.isNaN then
      false
    else
      match a.number?, b.number? with
      | some x, some y => x < y
      | _, _ => false

/--
The name under which a member is written.
-/
def text? (interp : Interp) : Key → Option Str
  | .null => some (txt "null")
  | .bool true => some (txt "true")
  | .bool false => some (txt "false")
  | .int i => if printable interp i then some (Json.intText i) else none
  | .float x => some (Json.floatText x)
  | .str s => some s
  | .other => none

end Key

/--
`sorted` by key: a comparison of keys of two kinds raises, and `None` has no order.
-/
def sortItems (items : List (Key × α)) : Option (List (Key × α)) :=
  if items.length ≤ 1 || (items.all fun m => m.1.isStr) ||
      (items.all fun m => m.1.number?.isSome) then
    some (items.insertionSort fun a b => !b.1.lt a.1)
  else
    none

/-!
### Values
-/

mutual

/--
The value as it is written, with the members in the order of the keys and every key a text; `none`
when `json.dumps` raises.
-/
def ordered (interp : Interp) : Value → Option Json
  | .null => some .null
  | .bool b => some (.bool b)
  | .int i => if printable interp i then some (.int i) else none
  | .float x => some (.float x)
  | .str s => some (.str s)
  | .list xs => (orderedElems interp xs).map .arr
  | .dict ms => do
    let items ← sortItems (orderedItems interp ms)
    let members ← items.mapM fun item => do return (← item.1.text? interp, ← item.2)
    return .obj members
  | .other => none

def orderedElems (interp : Interp) : List Value → Option (List Json)
  | [] => some []
  | x :: xs => do return (← ordered interp x) :: (← orderedElems interp xs)

def orderedItems (interp : Interp) : List (Key × Value) → List (Key × Option Json)
  | [] => []
  | (k, x) :: ms => (k, ordered interp x) :: orderedItems interp ms

end

/--
`json.dumps(x, sort_keys=True, separators=(",", ":"))`, if it does not raise.
-/
def dumpsSorted (interp : Interp) (x : Value) : Option Str := do
  let v ← ordered interp x
  if v.depth ≤ interp.encoderLimit then some (v.dumps true) else none

theorem orderedElems_eq_mapM (interp : Interp) (xs : List Value)
    : orderedElems interp xs = xs.mapM (ordered interp) := by
  induction xs with
  | nil => rfl
  | cons x xs ih => rw [orderedElems, ih, List.mapM_cons]

theorem orderedItems_eq_map (interp : Interp) (ms : List (Key × Value))
    : orderedItems interp ms = ms.map fun m => (m.1, ordered interp m.2) := by
  induction ms with
  | nil => rfl
  | cons m ms ih => rw [orderedItems, ih, List.map_cons]

/-!
### JSON values
-/

namespace Value

mutual

/--
A JSON value as a value of Python, where all keys are strings.
-/
def ofJson : Json → Value
  | .null => .null
  | .bool b => .bool b
  | .int i => .int i
  | .float x => .float x
  | .str s => .str s
  | .arr xs => .list (ofElems xs)
  | .obj ms => .dict (ofMembers ms)

def ofElems : List Json → List Value
  | [] => []
  | x :: xs => ofJson x :: ofElems xs

def ofMembers : List (Str × Json) → List (Key × Value)
  | [] => []
  | (k, v) :: ms => (.str k, ofJson v) :: ofMembers ms

end

theorem ofElems_eq_map (xs : List Json) : ofElems xs = xs.map ofJson := by
  induction xs with
  | nil => rfl
  | cons x xs ih => rw [ofElems, ih, List.map_cons]

theorem ofMembers_eq_map (ms : List (Str × Json))
    : ofMembers ms = ms.map fun m => (.str m.1, ofJson m.2) := by
  induction ms with
  | nil => rfl
  | cons m ms ih => rw [ofMembers, ih, List.map_cons]

end Value

/--
Members that are named by strings are sorted by their names.
-/
theorem sortItems_str (f : Str × β → α) (ms : List (Str × β))
    : sortItems (ms.map fun m => (Key.str m.1, f m))
        = some ((ms.insertionSort fun a b => a.1 ≤ b.1).map fun m => (Key.str m.1, f m)) := by
  have hstr : ((ms.map fun m => (Key.str m.1, f m)).all fun m => m.1.isStr) = true := by
    rw [List.all_map]
    exact List.all_eq_true.mpr fun _ _ => rfl
  have hmap := List.map_insertionSort (r := fun a b : Str × β => a.1 ≤ b.1)
    (fun a b : Key × α => (!b.1.lt a.1) = true) (fun m => (Key.str m.1, f m)) ms
    (fun a _ b _ => by simp [Key.lt])
  rw [sortItems, hstr, Bool.or_true, Bool.true_or, if_pos rfl, hmap]

/--
A value whose keys are strings is written with its keys sorted.
-/
theorem ordered_ofJson {interp : Interp} {v w : Json} (h : ordered interp (.ofJson v) = some w)
    : w = v.sortKeys := by
  induction v generalizing w with
  | arr xs ih =>
    rw [Value.ofJson, ordered, Option.map_eq_some_iff] at h
    rcases h with ⟨ys, hys, rfl⟩
    rw [Value.ofElems_eq_map, orderedElems_eq_mapM, Option.mapM_eq_some,
      List.forall₂_map_left_iff] at hys
    have hsorted : List.Forall₂ (fun x y => x.sortKeys = y) xs ys :=
      List.forall₂_imp_of_mem hys fun x hx y hy => (ih x hx hy).symm
    rw [← List.forall₂_map_left_iff, List.forall₂_eq_eq_eq] at hsorted
    rw [Json.sortKeys_arr, hsorted]
  | obj ms ih =>
    rw [Value.ofJson, ordered, Value.ofMembers_eq_map, orderedItems_eq_map, List.map_map] at h
    have hsort := sortItems_str (fun m => ordered interp (.ofJson m.2)) ms
    rw [Function.comp_def, hsort] at h
    simp only [Option.bind_eq_bind, Option.bind_some, Option.pure_def, Option.bind_eq_some_iff,
      Option.some.injEq] at h
    rcases h with ⟨members, hmembers, rfl⟩
    rw [Option.mapM_eq_some, List.forall₂_map_left_iff] at hmembers
    have hsorted : List.Forall₂ (fun m n => (m.1, m.2.sortKeys) = n) (Json.sortMembers ms)
        members := by
      refine List.forall₂_imp_of_mem hmembers fun m hm n hn => ?_
      simp only [Key.text?, Option.bind_some, Option.bind_eq_some_iff, Option.some.injEq] at hn
      rcases hn with ⟨w, hw, rfl⟩
      rw [ih m ((Json.mem_sortMembers m ms).mp hm) hw]
    rw [← List.forall₂_map_left_iff, List.forall₂_eq_eq_eq] at hsorted
    rw [Json.sortKeys_obj, ← hsorted, Json.sortMembers, Json.sortMembers]
    exact congrArg Json.obj (List.map_insertionSort (r := fun a b : Str × Json => a.1 ≤ b.1) _ _ ms
      fun _ _ _ _ => Iff.rfl)
  | int i =>
    rw [Value.ofJson, ordered, Option.ite_none_right_eq_some, Option.some.injEq] at h
    exact h.2.symm
  | _ =>
    rw [Value.ofJson, ordered, Option.some.injEq] at h
    exact h.symm

theorem dumpsSorted_ofJson {interp : Interp} {v : Json} {text : Str}
    (h : dumpsSorted interp (.ofJson v) = some text) : text = v.canonical := by
  simp only [dumpsSorted, Option.bind_eq_bind, Option.bind_eq_some_iff,
    Option.ite_none_right_eq_some, Option.some.injEq] at h
  rcases h with ⟨w, hw, _, rfl⟩
  rw [ordered_ofJson hw, Json.canonical]

end Python
