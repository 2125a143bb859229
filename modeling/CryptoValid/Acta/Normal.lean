import CryptoValid.Acta.Jcs
import CryptoValid.Lib.Digits
import CryptoValid.Lib.Json.Printed
import CryptoValid.Lib.PythonLines
import CryptoValid.Lib.SortBy
import CryptoValid.Lib.Utf16

/-!
This module contains the normal form of values without floats that the canonical JSON of
`cryptovalid_acta.py` is the text of.
-/

namespace CryptoValid
namespace Acta

open Json

/-!
### The order of members
-/

theorem utf16Be_eq (s : Str) : utf16Be s = Utf16.bigEndian (Utf16.units s) := by
  induction s with
  | nil => rfl
  | cons c s ih =>
    rw [utf16Be] at ih
    rw [utf16Be, List.flatMap_cons, ih, Utf16.units_cons, Utf16.bigEndian, Utf16.bigEndian,
      List.flatMap_append]
    congr 1
    unfold Utf16.unitsOf
    split <;> rfl

theorem sortByUtf16_eq {α : Type} (ms : List (Str × α))
    : sortByUtf16 ms = List.sortBy (fun m => Utf16.units m.1) ms := by
  have horder : (fun a b : Str × α => utf16Be a.1 ≤ utf16Be b.1)
      = fun a b => Utf16.units a.1 ≤ Utf16.units b.1 := by
    funext a b
    rw [utf16Be_eq, utf16Be_eq]
    exact propext (Utf16.bigEndian_units_le_iff a.1 b.1)
  have hcongr : ∀ {r s : Str × α → Str × α → Prop} [DecidableRel r] [DecidableRel s], r = s →
      ms.insertionSort r = ms.insertionSort s := by
    rintro r s _ _ rfl
    congr!
  exact hcongr horder

mutual

/--
Members in the order of the UTF-16 code units of their names, at every level.
-/
def sortUtf16 : Json → Json
  | .arr xs => .arr (sortUtf16Elems xs)
  | .obj ms => .obj (sortByUtf16 (sortUtf16Members ms))
  | v => v

def sortUtf16Elems : List Json → List Json
  | [] => []
  | x :: xs => sortUtf16 x :: sortUtf16Elems xs

def sortUtf16Members : List (Str × Json) → List (Str × Json)
  | [] => []
  | (k, v) :: ms => (k, sortUtf16 v) :: sortUtf16Members ms

end

theorem sortUtf16_arr (xs : List Json) : sortUtf16 (.arr xs) = .arr (xs.map sortUtf16) := by
  have helems : ∀ xs, sortUtf16Elems xs = xs.map sortUtf16 := by
    intro xs
    induction xs with
    | nil => rfl
    | cons x xs ih => rw [sortUtf16Elems, ih, List.map_cons]
  rw [sortUtf16, helems]

theorem sortUtf16_obj (ms : List (Str × Json))
    : sortUtf16 (.obj ms)
        = .obj (List.sortBy (fun m => Utf16.units m.1) (ms.map fun m => (m.1, sortUtf16 m.2))) := by
  have hmembers : ∀ ms, sortUtf16Members ms = ms.map fun m => (m.1, sortUtf16 m.2) := by
    intro ms
    induction ms with
    | nil => rfl
    | cons m ms ih => rw [sortUtf16Members, ih, List.map_cons]
  rw [sortUtf16, hmembers, sortByUtf16_eq]

/-!
### Values without floats
-/

mutual

/--
How many levels below the top the lowest element is.
-/
def levels : Json → Nat
  | .arr xs => levelsElems xs
  | .obj ms => levelsMembers ms
  | _ => 0

def levelsElems : List Json → Nat
  | [] => 0
  | x :: xs => max (levels x + 1) (levelsElems xs)

def levelsMembers : List (Str × Json) → Nat
  | [] => 0
  | (_, v) :: ms => max (levels v + 1) (levelsMembers ms)

end

theorem levels_arr_le_iff {xs : List Json} {n : Nat}
    : levels (.arr xs) ≤ n ↔ ∀ x ∈ xs, levels x < n := by
  rw [levels]
  induction xs with
  | nil => simp [levelsElems]
  | cons x xs ih => rw [levelsElems, max_le_iff, ih, List.forall_mem_cons, Nat.lt_iff_add_one_le]

theorem levels_obj_le_iff {ms : List (Str × Json)} {n : Nat}
    : levels (.obj ms) ≤ n ↔ ∀ m ∈ ms, levels m.2 < n := by
  rw [levels]
  induction ms with
  | nil => simp [levelsMembers]
  | cons m ms ih =>
    rcases m with ⟨k, v⟩
    rw [levelsMembers, max_le_iff, ih, List.forall_mem_cons, Nat.lt_iff_add_one_le]

theorem depth_le_levels (v : Json) : v.depth ≤ levels v + 1 := by
  induction v with
  | arr xs ih =>
    rw [depth, Nat.add_le_add_iff_right, depthElems_le_iff]
    intro x hx
    exact (ih x hx).trans (levels_arr_le_iff.mp le_rfl x hx)
  | obj ms ih =>
    rw [depth, Nat.add_le_add_iff_right, depthMembers_le_iff]
    intro m hm
    exact (ih m hm).trans (levels_obj_le_iff.mp le_rfl m hm)
  | _ => exact Nat.zero_le _

/--
The integers that every double keeps apart.
-/
def InRange : Json → Prop
  | .int i => i.natAbs ≤ 2 ^ 53
  | _ => True

/--
No float, no unpaired surrogate, no integer out of range, and names that are unique, as those of a
dictionary are.
-/
structure PlainNode (v : Json) : Prop where
  notFloat : NotFloat v
  scalar : ScalarText v
  inRange : InRange v
  unique : UniqueKeys v

structure Plain (v : Json) : Prop where
  nodes : All PlainNode v
  levels : levels v ≤ jcsMaxDepth

/-!
### The text of the normal form
-/

theorem commaList_cons (t : Str) (ts : List Str)
    : commaList (t :: ts) = t ++ ts.flatMap fun t => 0x2c :: t := by
  have hcomma : txt "," = [0x2c] := by decide
  unfold commaList
  induction ts generalizing t with
  | nil => simp
  | cons u ts ih =>
    rw [List.intersperse_cons_cons, List.flatten_cons, List.flatten_cons, ih, hcomma,
      List.flatMap_cons]
    rfl

theorem dumps_arr (ascii : Bool) (xs : List Json)
    : dumps ascii (.arr xs) = 0x5b :: (commaList (xs.map (dumps ascii)) ++ [0x5d]) := by
  have htail : ∀ xs, dumpsTail ascii xs = (xs.map (dumps ascii)).flatMap fun t => 0x2c :: t := by
    intro xs
    induction xs with
    | nil => rfl
    | cons x xs ih =>
      rw [dumpsTail, ih, List.map_cons, List.flatMap_cons]
      rfl
  cases xs with
  | nil => rfl
  | cons x xs => rw [dumps, htail, List.map_cons, commaList_cons, List.append_assoc]

def memberText (ascii : Bool) (m : Str × Json) : Str :=
  stringText ascii m.1 ++ 0x3a :: dumps ascii m.2

theorem dumps_obj (ascii : Bool) (ms : List (Str × Json))
    : dumps ascii (.obj ms) = 0x7b :: (commaList (ms.map (memberText ascii)) ++ [0x7d]) := by
  have htail : ∀ ms, dumpsMembers ascii ms
      = (ms.map (memberText ascii)).flatMap fun t => 0x2c :: t := by
    intro ms
    induction ms with
    | nil => rfl
    | cons m ms ih =>
      rw [dumpsMembers, ih, List.map_cons, List.flatMap_cons, memberText]
      simp
  cases ms with
  | nil => rfl
  | cons m ms =>
    rw [dumps, htail, List.map_cons, commaList_cons, memberText]
    simp

theorem encElems_eq {room : Nat} {xs : List Json} {f : Json → Str}
    (h : ∀ x ∈ xs, enc room x = .ok (f x)) : encElems room xs = .ok (xs.map f) := by
  induction xs with
  | nil => rfl
  | cons x xs ih =>
    rw [encElems, h x List.mem_cons_self, ih fun y hy => h y (List.mem_cons_of_mem _ hy)]
    rfl

theorem encMembers_eq {room : Nat} {ms : List (Str × Json)} {f : Json → Str}
    (h : ∀ m ∈ ms, enc room m.2 = .ok (f m.2))
    : encMembers room ms = .ok (ms.map fun m => (m.1, stringText false m.1 ++ 0x3a :: f m.2)) := by
  induction ms with
  | nil => rfl
  | cons m ms ih =>
    rw [encMembers, h m List.mem_cons_self, ih fun n hn => h n (List.mem_cons_of_mem _ hn)]
    rfl

/--
The encoding of a value is the text of its normal form.
-/
theorem enc_eq {v : Json} (hv : All PlainNode v) {room : Nat} (hroom : levels v < room)
    : enc room v = .ok (dumps false (sortUtf16 v)) := by
  induction v generalizing room with
  | null =>
    obtain ⟨room, rfl⟩ := Nat.exists_eq_succ_of_ne_zero (by omega : room ≠ 0)
    rfl
  | bool b =>
    obtain ⟨room, rfl⟩ := Nat.exists_eq_succ_of_ne_zero (by omega : room ≠ 0)
    cases b <;> rfl
  | int i =>
    obtain ⟨room, rfl⟩ := Nat.exists_eq_succ_of_ne_zero (by omega : room ≠ 0)
    have hrange : ¬2 ^ 53 < i.natAbs := not_lt.mpr hv.self.inRange
    rw [enc, jcsInt, if_neg hrange]
    rfl
  | float x => exact absurd hv.self.notFloat (by simp [NotFloat])
  | str s =>
    obtain ⟨room, rfl⟩ := Nat.exists_eq_succ_of_ne_zero (by omega : room ≠ 0)
    rfl
  | arr xs ih =>
    obtain ⟨room, rfl⟩ := Nat.exists_eq_succ_of_ne_zero (by omega : room ≠ 0)
    rw [all_arr] at hv
    have hlevels := levels_arr_le_iff.mp (Nat.lt_succ_iff.mp hroom)
    rw [enc, encElems_eq fun x hx => ih x hx (hv.2 x hx) (hlevels x hx), sortUtf16_arr, dumps_arr,
      List.map_map]
    rfl
  | obj ms ih =>
    obtain ⟨room, rfl⟩ := Nat.exists_eq_succ_of_ne_zero (by omega : room ≠ 0)
    rw [all_obj] at hv
    have hlevels := levels_obj_le_iff.mp (Nat.lt_succ_iff.mp hroom)
    have hscalar : (ms.any fun m => m.1.any CodePoint.isSurrogate) = false := by
      rw [List.any_eq_false]
      intro m hm
      rw [Bool.not_eq_true, List.any_eq_false]
      intro c hc
      rw [Bool.not_eq_true]
      exact hv.1.scalar m hm c hc
    rw [enc, hscalar, encMembers_eq (f := fun v => dumps false (sortUtf16 v))
      fun m hm => ih m hm (hv.2 m hm) (hlevels m hm), sortUtf16_obj, dumps_obj, List.map_sortBy,
      List.map_map]
    simp only [Bool.false_eq_true, if_false, Except.ok_bind, sortByUtf16_eq, List.map_sortBy,
      List.map_map]
    rfl

/-!
### The normal form as a value
-/

section

variable (ms : List (Str × Json))

theorem perm_sortUtf16_obj
    : (List.sortBy (fun m => Utf16.units m.1) (ms.map fun m => (m.1, sortUtf16 m.2))).Perm
        (ms.map fun m => (m.1, sortUtf16 m.2)) := List.perm_sortBy _ _

theorem mem_sortUtf16_obj {n : Str × Json}
    : n ∈ List.sortBy (fun m => Utf16.units m.1) (ms.map fun m => (m.1, sortUtf16 m.2))
        ↔ ∃ m ∈ ms, (m.1, sortUtf16 m.2) = n := by
  rw [List.mem_sortBy, List.mem_map]

theorem perm_names_sortUtf16_obj
    : ((List.sortBy (fun m => Utf16.units m.1) (ms.map fun m => (m.1, sortUtf16 m.2))).map
        Prod.fst).Perm (ms.map Prod.fst) := by
  refine ((perm_sortUtf16_obj ms).map Prod.fst).trans ?_
  rw [List.map_map]
  exact List.Perm.refl _

end

theorem plainNode_sortUtf16 {v : Json} (h : All PlainNode v) : All PlainNode (sortUtf16 v) := by
  induction v with
  | arr xs ih =>
    rw [sortUtf16_arr]
    rw [all_arr] at h ⊢
    refine ⟨⟨trivial, trivial, trivial, trivial⟩, fun y hy => ?_⟩
    rcases List.mem_map.mp hy with ⟨x, hx, rfl⟩
    exact ih x hx (h.2 x hx)
  | obj ms ih =>
    rw [sortUtf16_obj]
    rw [all_obj] at h ⊢
    refine ⟨⟨trivial, fun n hn => ?_, trivial, ?_⟩, fun n hn => ?_⟩
    . rcases (mem_sortUtf16_obj ms).mp hn with ⟨m, hm, rfl⟩
      exact h.1.scalar m hm
    . exact (perm_names_sortUtf16_obj ms).nodup_iff.mpr h.1.unique
    . rcases (mem_sortUtf16_obj ms).mp hn with ⟨m, hm, rfl⟩
      exact ih m hm (h.2 m hm)
  | _ => exact h

/--
The order of members by code points does not see their order by code units.
-/
theorem sortKeys_sortUtf16 {v : Json} (h : All PlainNode v)
    : sortKeys (sortUtf16 v) = sortKeys v := by
  induction v with
  | arr xs ih =>
    rw [all_arr] at h
    rw [sortUtf16_arr, sortKeys_arr, sortKeys_arr, List.map_map]
    exact congrArg _ (List.map_congr_left fun x hx => ih x hx (h.2 x hx))
  | obj ms ih =>
    rw [all_obj] at h
    rw [sortUtf16_obj, sortKeys_obj, sortKeys_obj]
    have hmembers : (ms.map fun m => (m.1, sortUtf16 m.2)).map (fun m => (m.1, sortKeys m.2))
        = ms.map fun m => (m.1, sortKeys m.2) := by
      rw [List.map_map]
      refine List.map_congr_left fun m hm => ?_
      rw [Function.comp_apply, ih m hm (h.2 m hm)]
    have hperm := (perm_sortUtf16_obj ms).map fun m => (m.1, sortKeys m.2)
    rw [hmembers] at hperm
    refine congrArg _ (sortMembers_eq_of_perm hperm ?_)
    rw [List.map_map]
    exact (perm_names_sortUtf16_obj ms).nodup_iff.mpr h.1.unique
  | _ => rfl

/--
The order of members by code units does not see their order by code points.
-/
theorem sortUtf16_sortKeys {v : Json} (h : All PlainNode v)
    : sortUtf16 (sortKeys v) = sortUtf16 v := by
  induction v with
  | arr xs ih =>
    rw [all_arr] at h
    rw [sortKeys_arr, sortUtf16_arr, sortUtf16_arr, List.map_map]
    exact congrArg _ (List.map_congr_left fun x hx => ih x hx (h.2 x hx))
  | obj ms ih =>
    rw [all_obj] at h
    rw [sortKeys_obj, sortUtf16_obj, sortUtf16_obj]
    have hmembers : (ms.map fun m => (m.1, sortKeys m.2)).map (fun m => (m.1, sortUtf16 m.2))
        = ms.map fun m => (m.1, sortUtf16 m.2) := by
      rw [List.map_map]
      refine List.map_congr_left fun m hm => ?_
      rw [Function.comp_apply, ih m hm (h.2 m hm)]
    have hperm := (perm_sortMembers (ms.map fun m => (m.1, sortKeys m.2))).map
      fun m => (m.1, sortUtf16 m.2)
    rw [hmembers] at hperm
    refine congrArg _ (List.sortBy_eq_of_perm _ hperm ?_)
    intro a ha b hb hunits
    rcases List.mem_map.mp (hperm.mem_iff.mp ha) with ⟨m, hm, rfl⟩
    rcases List.mem_map.mp (hperm.mem_iff.mp hb) with ⟨n, hn, rfl⟩
    have hname : m.1 = n.1 := Utf16.units_inj (h.1.scalar m hm) (h.1.scalar n hn) hunits
    rw [List.inj_on_of_nodup_map h.1.unique hm hn hname]
  | _ => rfl

theorem depth_sortUtf16 {v : Json} (h : All PlainNode v) : (sortUtf16 v).depth = v.depth := by
  rw [← depth_sortKeys (sortUtf16 v), sortKeys_sortUtf16 h, depth_sortKeys]

/--
The members of every object are in the order of the code units of their names.
-/
def OrderedNode : Json → Prop
  | .obj ms => ms.Pairwise fun a b => Utf16.units a.1 < Utf16.units b.1
  | _ => True

theorem ordered_sortUtf16 {v : Json} (h : All PlainNode v) : All OrderedNode (sortUtf16 v) := by
  induction v with
  | arr xs ih =>
    rw [all_arr] at h
    rw [sortUtf16_arr, all_arr]
    refine ⟨trivial, fun y hy => ?_⟩
    rcases List.mem_map.mp hy with ⟨x, hx, rfl⟩
    exact ih x hx (h.2 x hx)
  | obj ms ih =>
    have hsorted := (plainNode_sortUtf16 h).self
    rw [all_obj] at h
    rw [sortUtf16_obj] at hsorted ⊢
    rw [all_obj]
    refine ⟨?_, fun n hn => ?_⟩
    . have hpairwise := List.pairwise_sortBy (fun m : Str × Json => Utf16.units m.1)
        (ms.map fun m => (m.1, sortUtf16 m.2))
      refine (hpairwise.and (List.pairwise_map.mp hsorted.unique)).imp_of_mem ?_
      rintro a b ha hb ⟨hle, hne⟩
      refine lt_of_le_of_ne hle fun heq => hne ?_
      exact Utf16.units_inj (hsorted.scalar a ha) (hsorted.scalar b hb) heq
    . rcases (mem_sortUtf16_obj ms).mp hn with ⟨m, hm, rfl⟩
      exact ih m hm (h.2 m hm)
  | _ => trivial

/-!
### The bytes of the normal form
-/

theorem Plain.text {v : Json} (h : Plain v) : Str.Scalar (dumps false (sortUtf16 v)) :=
  scalar_dumps _ ((plainNode_sortUtf16 h.nodes).imp fun _ h => ⟨h.notFloat, h.scalar⟩)

theorem jcs_eq {v : Json} (h : Plain v)
    : jcs v = .ok ((dumps false (sortUtf16 v)).flatMap Utf8.encodePoint) := by
  rw [jcs, enc_eq h.nodes (Nat.lt_succ_of_le h.levels), Except.ok_bind, Utf8.encode?, if_pos h.text]

/--
Two values have the same bytes exactly when they differ in the order of members alone.
-/
theorem jcs_eq_iff {v w : Json} (hv : Plain v) (hw : Plain w)
    : jcs v = jcs w ↔ sortKeys v = sortKeys w := by
  rw [jcs_eq hv, jcs_eq hw, Except.ok.injEq]
  constructor
  . intro h
    have hfloat := (plainNode_sortUtf16 hv.nodes).imp fun _ h => h.notFloat
    have hfloat' := (plainNode_sortUtf16 hw.nodes).imp fun _ h => h.notFloat
    have hsame := dumps_inj false hfloat hfloat' (fun h => absurd h (by decide))
      (fun h => absurd h (by decide)) (Utf8.flatMap_encodePoint_inj h)
    rw [← sortKeys_sortUtf16 hv.nodes, ← sortKeys_sortUtf16 hw.nodes, hsame]
  . intro h
    rw [← sortUtf16_sortKeys hv.nodes, ← sortUtf16_sortKeys hw.nodes, h]

/--
A decoder that can follow everything that is encoded, and that reads integers of 640 digits, as every
decoder does.
-/
structure Decodes (interp : Python.Interp) : Prop where
  depth : jcsMaxDepth < interp.recursionLimit
  digits : ∀ limit ∈ interp.maxStrDigits, 640 ≤ limit

theorem accepts_of_plainNode {interp : Python.Interp} (hinterp : Decodes interp) {v : Json}
    (hv : PlainNode v) : Accepts (Python.plainHooks interp) false v := by
  cases v with
  | int i =>
    have hdigits : (intText i).filter isDigit = natText i.natAbs := by
      have hnat := List.filter_eq_self.mpr (natText_isDigit i.natAbs)
      unfold intText
      split
      . rw [List.filter_cons_of_neg (by decide), hnat]
      . exact hnat
    have hlength : (natText i.natAbs).length ≤ 16 :=
      (length_natText_le_iff (by decide)).mpr (Nat.lt_of_le_of_lt hv.inRange (by decide))
    have hlimit : ¬interp.maxStrDigits.any fun limit =>
        limit < ((intText i).filter isDigit).length := by
      rw [Option.any_eq_true]
      rintro ⟨limit, hlimit, hlt⟩
      have := hinterp.digits limit hlimit
      rw [hdigits, decide_eq_true_eq] at hlt
      omega
    simp only [Accepts, Python.plainHooks, if_neg hlimit, intOfText_intText]
  | float x => exact absurd hv.notFloat (by simp [NotFloat])
  | str s => exact fun h => absurd h (by decide)
  | obj ms =>
    have hnodup : (ms.map Prod.fst).Nodup := hv.unique
    refine ⟨?_, fun h => absurd h (by decide)⟩
    simp only [Python.plainHooks, dictOfPairs_of_nodup hnodup]
  | _ => trivial

/--
The bytes are decoded to the normal form.
-/
theorem loadsBytes_jcs {interp : Python.Interp} (hinterp : Decodes interp) {v : Json} (h : Plain v)
    : Python.loadsBytes interp ((dumps false (sortUtf16 v)).flatMap Utf8.encodePoint)
        = .ok (sortUtf16 v) := by
  have hnodes := plainNode_sortUtf16 h.nodes
  have hfloat := hnodes.imp fun _ h => h.notFloat
  have hchars := le_of_mem_dumps _ hfloat
  have hdepth : (sortUtf16 v).depth ≤ interp.recursionLimit := by
    rw [depth_sortUtf16 h.nodes]
    have hdepth := depth_le_levels v
    have hlevels := h.levels
    have hlimit := hinterp.depth
    omega
  rcases dumps_eq_cons_ascii false _ hfloat.self with ⟨c, s, hcons, hascii⟩
  have hload : Python.loads interp (dumps false (sortUtf16 v)) = .ok (sortUtf16 v) :=
    loads_dumps _ false _ (hnodes.imp fun _ => accepts_of_plainNode hinterp) hdepth
  rw [hcons] at hchars hload ⊢
  rw [Python.loadsBytes, Python.decodeDetected?_of_ne_zero hascii fun d hd => ?_]
  . exact hload
  . have := hchars d hd
    omega

end Acta
end CryptoValid
