import CryptoValid.Lib.Json.Basic

/-!
This module contains the equality of JSON values, for which the order of the members of an object does
not count, and that sorting the keys decides it.
-/

namespace Json

mutual

/--
The same value: every member of one object has its counterpart in the other one.
-/
def same : Json → Json → Bool
  | .null, .null => true
  | .bool a, .bool b => a = b
  | .int i, .int j => i = j
  | .float x, .float y => x = y
  | .str s, .str t => s = t
  | .arr xs, .arr ys => sameElems xs ys
  | .obj ms, .obj ns => ms.length = ns.length && sameMembers ms ns
  | _, _ => false

def sameElems : List Json → List Json → Bool
  | [], [] => true
  | x :: xs, y :: ys => same x y && sameElems xs ys
  | _, _ => false

def sameMembers : List (Str × Json) → List (Str × Json) → Bool
  | [], _ => true
  | (k, v) :: ms, ns =>
    match Assoc.lookup k ns with
    | some w => same v w && sameMembers ms ns
    | none => false

end

theorem sameMembers_iff (ms ns : List (Str × Json))
    : sameMembers ms ns = true ↔
        ∀ m ∈ ms, ∃ w, Assoc.lookup m.1 ns = some w ∧ same m.2 w = true := by
  induction ms with
  | nil => simp [sameMembers]
  | cons m ms ih =>
    rw [List.forall_mem_cons, ← ih, sameMembers]
    cases Assoc.lookup m.1 ns <;> simp

/--
Sorting decides equality for the elements of arrays.
-/
theorem sameElems_iff_map {xs ys : List Json}
    (ih : ∀ x ∈ xs, ∀ y ∈ ys, same x y = true ↔ x.sortKeys = y.sortKeys)
    : sameElems xs ys = true ↔ xs.map sortKeys = ys.map sortKeys := by
  induction xs generalizing ys with
  | nil => cases ys <;> simp [sameElems]
  | cons x xs hxs =>
    cases ys with
    | nil => simp [sameElems]
    | cons y ys =>
      have hrest := hxs fun a ha b hb =>
        ih a (List.mem_cons_of_mem x ha) b (List.mem_cons_of_mem y hb)
      rw [sameElems, Bool.and_eq_true, ih x List.mem_cons_self y List.mem_cons_self, hrest,
        List.map_cons, List.map_cons, List.cons.injEq]

/--
Sorting decides equality for the members of objects.
-/
theorem sameMembers_iff_sort {ms ns : List (Str × Json)} (hms : (ms.map Prod.fst).Nodup)
    (hns : (ns.map Prod.fst).Nodup)
    (ih : ∀ m ∈ ms, ∀ n ∈ ns, same m.2 n.2 = true ↔ m.2.sortKeys = n.2.sortKeys)
    : ms.length = ns.length ∧ sameMembers ms ns = true ↔
        sortMembers (ms.map fun m => (m.1, m.2.sortKeys))
          = sortMembers (ns.map fun n => (n.1, n.2.sortKeys)) := by
  have hkeys : ((ms.map fun m => (m.1, m.2.sortKeys)).map Prod.fst).Nodup := by rwa [List.map_map]
  rw [sameMembers_iff]
  constructor
  . rintro ⟨hlen, hall⟩
    have hsub : (ms.map fun m => (m.1, m.2.sortKeys)) ⊆ ns.map fun n => (n.1, n.2.sortKeys) := by
      intro p hp
      rcases List.mem_map.mp hp with ⟨m, hm, rfl⟩
      rcases hall m hm with ⟨w, hw, hsame⟩
      have hmem := Assoc.mem_of_lookup hw
      refine List.mem_map.mpr ⟨(m.1, w), hmem, ?_⟩
      rw [(ih m hm _ hmem).mp hsame]
    have hperm := (List.subperm_of_subset (List.Nodup.of_map _ hkeys) hsub).perm_of_length_le
      (by simp [hlen])
    exact sortMembers_eq_of_perm hperm hkeys
  . intro hsort
    have hperm : (ms.map fun m => (m.1, m.2.sortKeys)).Perm
        (ns.map fun n => (n.1, n.2.sortKeys)) := by
      refine (perm_sortMembers _).symm.trans ?_
      rw [hsort]
      exact perm_sortMembers _
    refine ⟨by simpa using hperm.length_eq, fun m hm => ?_⟩
    have hmem := hperm.mem_iff.mp (List.mem_map.mpr ⟨m, hm, rfl⟩)
    rcases List.mem_map.mp hmem with ⟨n, hn, heq⟩
    simp only [Prod.mk.injEq] at heq
    refine ⟨n.2, ?_, (ih m hm n hn).mpr heq.2.symm⟩
    rw [← heq.1]
    exact Assoc.lookup_of_mem hns hn

/--
Values without double keys are equal if and only if they are one when their keys are sorted.
-/
theorem same_iff {v w : Json} (hv : All UniqueKeys v) (hw : All UniqueKeys w)
    : same v w = true ↔ v.sortKeys = w.sortKeys := by
  induction v generalizing w with
  | null => cases w <;> simp [same, sortKeys]
  | bool a => cases w <;> simp [same, sortKeys]
  | int i => cases w <;> simp [same, sortKeys]
  | float x => cases w <;> simp [same, sortKeys]
  | str s => cases w <;> simp [same, sortKeys]
  | arr xs ih =>
    cases w with
    | arr ys =>
      rw [all_arr] at hv hw
      rw [same, sortKeys_arr, sortKeys_arr, Json.arr.injEq]
      exact sameElems_iff_map fun x hx y hy => ih x hx (hv.2 x hx) (hw.2 y hy)
    | _ => simp [same, sortKeys]
  | obj ms ih =>
    cases w with
    | obj ns =>
      rw [all_obj] at hv hw
      rw [same, sortKeys_obj, sortKeys_obj, Json.obj.injEq, Bool.and_eq_true, decide_eq_true_eq]
      exact sameMembers_iff_sort hv.1 hw.1 fun m hm n hn => ih m hm (hv.2 m hm) (hw.2 n hn)
    | _ => simp [same, sortKeys]

end Json
