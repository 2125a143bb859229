import CryptoValid.Lib.Binary64
import CryptoValid.Lib.Dict
import Mathlib.Data.List.Lex
import Mathlib.Data.List.Sort
import Mathlib.Order.Fin.Basic

/-!
This module contains JSON values, predicates that hold of a value and everything inside it, nesting
depth, and values with sorted keys.
-/

/--
The members of an object are listed in the order of the text they come from.
-/
inductive Json where
  | null
  | bool (b : Bool)
  | int (i : Int)
  | float (x : Binary64)
  | str (s : Str)
  | arr (xs : List Json)
  | obj (ms : List (Str × Json))

namespace Json

mutual

def decEq : (a b : Json) → Decidable (a = b)
  | .null, .null => isTrue rfl
  | .bool a, .bool b => decidable_of_iff (a = b) (by simp)
  | .int a, .int b => decidable_of_iff (a = b) (by simp)
  | .float a, .float b => decidable_of_iff (a = b) (by simp)
  | .str a, .str b => decidable_of_iff (a = b) (by simp)
  | .arr a, .arr b =>
    match decEqElems a b with
    | isTrue h => isTrue (by rw [h])
    | isFalse h => isFalse (by simpa using h)
  | .obj a, .obj b =>
    match decEqMembers a b with
    | isTrue h => isTrue (by rw [h])
    | isFalse h => isFalse (by simpa using h)
  | .null, .bool _ | .null, .int _ | .null, .float _ | .null, .str _ | .null, .arr _
  | .null, .obj _ | .bool _, .null | .bool _, .int _ | .bool _, .float _ | .bool _, .str _
  | .bool _, .arr _ | .bool _, .obj _ | .int _, .null | .int _, .bool _ | .int _, .float _
  | .int _, .str _ | .int _, .arr _ | .int _, .obj _ | .float _, .null | .float _, .bool _
  | .float _, .int _ | .float _, .str _ | .float _, .arr _ | .float _, .obj _ | .str _, .null
  | .str _, .bool _ | .str _, .int _ | .str _, .float _ | .str _, .arr _ | .str _, .obj _
  | .arr _, .null | .arr _, .bool _ | .arr _, .int _ | .arr _, .float _ | .arr _, .str _
  | .arr _, .obj _ | .obj _, .null | .obj _, .bool _ | .obj _, .int _ | .obj _, .float _
  | .obj _, .str _ | .obj _, .arr _ => isFalse (by simp)

def decEqElems : (a b : List Json) → Decidable (a = b)
  | [], [] => isTrue rfl
  | a :: as, b :: bs =>
    match decEq a b, decEqElems as bs with
    | isTrue h, isTrue h' => isTrue (by rw [h, h'])
    | isFalse h, _ => isFalse (by simp [h])
    | _, isFalse h => isFalse (by simp [h])
  | [], _ :: _ | _ :: _, [] => isFalse (by simp)

def decEqMembers : (a b : List (Str × Json)) → Decidable (a = b)
  | [], [] => isTrue rfl
  | (k, a) :: as, (l, b) :: bs =>
    match instDecidableEqList k l, decEq a b, decEqMembers as bs with
    | isTrue h, isTrue h', isTrue h'' => isTrue (by rw [h, h', h''])
    | isFalse h, _, _ => isFalse (by simp [h])
    | _, isFalse h, _ => isFalse (by simp [h])
    | _, _, isFalse h => isFalse (by simp [h])
  | [], _ :: _ | _ :: _, [] => isFalse (by simp)

end

instance : DecidableEq Json := decEq

instance : Inhabited Json := ⟨.null⟩

/--
Induction with one hypothesis for every element of an array and every member of an object.
-/
@[elab_as_elim, induction_eliminator]
theorem ind {P : Json → Prop} (null : P .null) (bool : ∀ b, P (.bool b)) (int : ∀ i, P (.int i))
    (float : ∀ x, P (.float x)) (str : ∀ s, P (.str s))
    (arr : ∀ xs, (∀ x ∈ xs, P x) → P (.arr xs))
    (obj : ∀ ms, (∀ m ∈ ms, P m.2) → P (.obj ms)) (v : Json)
    : P v := by
  refine @Json.rec P (fun xs => ∀ x ∈ xs, P x) (fun ms => ∀ m ∈ ms, P m.2) (fun m => P m.2) null
    bool int float str arr obj ?_ ?_ ?_ ?_ ?_ v
  . simp
  . intro x xs hx hxs
    simpa using ⟨hx, hxs⟩
  . simp
  . intro m ms hm hms
    simpa only [List.mem_cons, forall_eq_or_imp] using ⟨hm, hms⟩
  . intro k v hv
    exact hv

/-!
### Predicates
-/

mutual

/--
`p` holds of the value and of every value inside it.
-/
def All (p : Json → Prop) : Json → Prop
  | .arr xs => p (.arr xs) ∧ AllElems p xs
  | .obj ms => p (.obj ms) ∧ AllMembers p ms
  | v => p v

def AllElems (p : Json → Prop) : List Json → Prop
  | [] => True
  | x :: xs => All p x ∧ AllElems p xs

def AllMembers (p : Json → Prop) : List (Str × Json) → Prop
  | [] => True
  | (_, v) :: ms => All p v ∧ AllMembers p ms

end

mutual

def decidableAll (p : Json → Prop) [DecidablePred p] : (v : Json) → Decidable (All p v)
  | .arr xs =>
    have := decidableAllElems p xs
    inferInstanceAs (Decidable (p (.arr xs) ∧ AllElems p xs))
  | .obj ms =>
    have := decidableAllMembers p ms
    inferInstanceAs (Decidable (p (.obj ms) ∧ AllMembers p ms))
  | .null => inferInstanceAs (Decidable (p .null))
  | .bool b => inferInstanceAs (Decidable (p (.bool b)))
  | .int i => inferInstanceAs (Decidable (p (.int i)))
  | .float x => inferInstanceAs (Decidable (p (.float x)))
  | .str s => inferInstanceAs (Decidable (p (.str s)))

def decidableAllElems (p : Json → Prop) [DecidablePred p]
    : (xs : List Json) → Decidable (AllElems p xs)
  | [] => isTrue trivial
  | x :: xs =>
    have := decidableAll p x
    have := decidableAllElems p xs
    inferInstanceAs (Decidable (All p x ∧ AllElems p xs))

def decidableAllMembers (p : Json → Prop) [DecidablePred p]
    : (ms : List (Str × Json)) → Decidable (AllMembers p ms)
  | [] => isTrue trivial
  | (_, v) :: ms =>
    have := decidableAll p v
    have := decidableAllMembers p ms
    inferInstanceAs (Decidable (All p v ∧ AllMembers p ms))

end

instance instDecidableAll (p : Json → Prop) [DecidablePred p] (v : Json) : Decidable (All p v) :=
  decidableAll p v

theorem allElems_iff (p : Json → Prop) (xs : List Json) : AllElems p xs ↔ ∀ x ∈ xs, All p x := by
  induction xs with
  | nil => simp [AllElems]
  | cons x xs ih => simp [AllElems, ih]

theorem allMembers_iff (p : Json → Prop) (ms : List (Str × Json))
    : AllMembers p ms ↔ ∀ m ∈ ms, All p m.2 := by
  induction ms with
  | nil => simp [AllMembers]
  | cons m ms ih =>
    rcases m with ⟨k, v⟩
    simp [AllMembers, ih]

@[simp]
theorem all_arr (p : Json → Prop) (xs : List Json)
    : All p (.arr xs) ↔ p (.arr xs) ∧ ∀ x ∈ xs, All p x := by
  simp [All, allElems_iff]

@[simp]
theorem all_obj (p : Json → Prop) (ms : List (Str × Json))
    : All p (.obj ms) ↔ p (.obj ms) ∧ ∀ m ∈ ms, All p m.2 := by
  simp [All, allMembers_iff]

theorem All.self {p : Json → Prop} {v : Json} (h : All p v) : p v := by
  cases v <;> simp_all [All]

theorem All.imp {p q : Json → Prop} (hpq : ∀ v, p v → q v) {v : Json} (h : All p v) : All q v := by
  induction v with
  | null => exact hpq _ h
  | bool => exact hpq _ h
  | int => exact hpq _ h
  | float => exact hpq _ h
  | str => exact hpq _ h
  | arr xs ih =>
    rw [all_arr] at h ⊢
    exact ⟨hpq _ h.1, fun x hx => ih x hx (h.2 x hx)⟩
  | obj ms ih =>
    rw [all_obj] at h ⊢
    exact ⟨hpq _ h.1, fun m hm => ih m hm (h.2 m hm)⟩

theorem All.and {p q : Json → Prop} {v : Json} (hp : All p v) (hq : All q v)
    : All (fun v => p v ∧ q v) v := by
  induction v with
  | null => exact ⟨hp, hq⟩
  | bool => exact ⟨hp, hq⟩
  | int => exact ⟨hp, hq⟩
  | float => exact ⟨hp, hq⟩
  | str => exact ⟨hp, hq⟩
  | arr xs ih =>
    rw [all_arr] at hp hq ⊢
    exact ⟨⟨hp.1, hq.1⟩, fun x hx => ih x hx (hp.2 x hx) (hq.2 x hx)⟩
  | obj ms ih =>
    rw [all_obj] at hp hq ⊢
    exact ⟨⟨hp.1, hq.1⟩, fun m hm => ih m hm (hp.2 m hm) (hq.2 m hm)⟩

/--
No two members of an object have the same key.
-/
def UniqueKeys : Json → Prop
  | .obj ms => (ms.map Prod.fst).Nodup
  | _ => True

def NotFloat : Json → Prop
  | .float _ => False
  | _ => True

/--
No surrogates in a string or in the keys of an object.
-/
def ScalarText : Json → Prop
  | .str s => Str.Scalar s
  | .obj ms => ∀ m ∈ ms, Str.Scalar m.1
  | _ => True

/-!
### Depth
-/

mutual

/--
How deep arrays and objects are nested.
-/
def depth : Json → Nat
  | .arr xs => depthElems xs + 1
  | .obj ms => depthMembers ms + 1
  | _ => 0

def depthElems : List Json → Nat
  | [] => 0
  | x :: xs => max (depth x) (depthElems xs)

def depthMembers : List (Str × Json) → Nat
  | [] => 0
  | (_, v) :: ms => max (depth v) (depthMembers ms)

end

theorem depth_le_depthElems {x : Json} {xs : List Json} (h : x ∈ xs)
    : depth x ≤ depthElems xs := by
  induction xs with
  | nil => simp at h
  | cons y ys ih =>
    rcases List.mem_cons.mp h with rfl | h
    . simp [depthElems]
    . exact Nat.le_trans (ih h) (by simp [depthElems])

theorem depth_le_depthMembers {m : Str × Json} {ms : List (Str × Json)} (h : m ∈ ms)
    : depth m.2 ≤ depthMembers ms := by
  induction ms with
  | nil => simp at h
  | cons n ms ih =>
    rcases n with ⟨k, v⟩
    rcases List.mem_cons.mp h with rfl | h
    . simp [depthMembers]
    . exact Nat.le_trans (ih h) (by simp [depthMembers])

theorem depthMembers_le_iff (ms : List (Str × Json)) (n : Nat)
    : depthMembers ms ≤ n ↔ ∀ m ∈ ms, depth m.2 ≤ n := by
  induction ms with
  | nil => simp [depthMembers]
  | cons m ms ih =>
    rcases m with ⟨k, v⟩
    simp [depthMembers, ih]

theorem depthElems_le_iff (xs : List Json) (n : Nat)
    : depthElems xs ≤ n ↔ ∀ x ∈ xs, depth x ≤ n := by
  induction xs with
  | nil => simp [depthElems]
  | cons x xs ih => simp [depthElems, ih]

/-!
### Sorted keys
-/

/--
Members ordered by key, code point by code point.
-/
def sortMembers (ms : List (Str × Json)) : List (Str × Json) :=
  ms.insertionSort fun a b => a.1 ≤ b.1

mutual

/--
The members of every object in the order of their keys.
-/
def sortKeys : Json → Json
  | .arr xs => .arr (sortKeysElems xs)
  | .obj ms => .obj (sortMembers (sortKeysMembers ms))
  | v => v

def sortKeysElems : List Json → List Json
  | [] => []
  | x :: xs => sortKeys x :: sortKeysElems xs

def sortKeysMembers : List (Str × Json) → List (Str × Json)
  | [] => []
  | (k, v) :: ms => (k, sortKeys v) :: sortKeysMembers ms

end

theorem sortKeysElems_eq_map (xs : List Json) : sortKeysElems xs = xs.map sortKeys := by
  induction xs with
  | nil => rfl
  | cons x xs ih => simp [sortKeysElems, ih]

theorem sortKeysMembers_eq_map (ms : List (Str × Json))
    : sortKeysMembers ms = ms.map fun m => (m.1, sortKeys m.2) := by
  induction ms with
  | nil => rfl
  | cons m ms ih => simp [sortKeysMembers, ih]

theorem sortKeys_arr (xs : List Json) : sortKeys (.arr xs) = .arr (xs.map sortKeys) := by
  rw [sortKeys, sortKeysElems_eq_map]

theorem sortKeys_obj (ms : List (Str × Json))
    : sortKeys (.obj ms) = .obj (sortMembers (ms.map fun m => (m.1, sortKeys m.2))) := by
  rw [sortKeys, sortKeysMembers_eq_map]

theorem perm_sortMembers (ms : List (Str × Json)) : (sortMembers ms).Perm ms :=
  List.perm_insertionSort _ ms

@[simp]
theorem mem_sortMembers (m : Str × Json) (ms : List (Str × Json))
    : m ∈ sortMembers ms ↔ m ∈ ms := (perm_sortMembers ms).mem_iff

theorem nodup_sortMembers (ms : List (Str × Json))
    : ((sortMembers ms).map Prod.fst).Nodup ↔ (ms.map Prod.fst).Nodup :=
  ((perm_sortMembers ms).map Prod.fst).nodup_iff

theorem pairwise_sortMembers (ms : List (Str × Json))
    : (sortMembers ms).Pairwise fun a b => a.1 ≤ b.1 := by
  have : Std.Total fun a b : Str × Json => a.1 ≤ b.1 := ⟨fun a b => le_total a.1 b.1⟩
  have : IsTrans (Str × Json) fun a b => a.1 ≤ b.1 := ⟨fun a b c => le_trans⟩
  exact List.pairwise_insertionSort _ ms

/--
Two listings of the same members with unique keys are sorted alike.
-/
theorem sortMembers_eq_of_perm {ms ns : List (Str × Json)} (hperm : ms.Perm ns)
    (hnodup : (ms.map Prod.fst).Nodup) : sortMembers ms = sortMembers ns := by
  have hperm' : (sortMembers ms).Perm (sortMembers ns) :=
    (perm_sortMembers ms).trans (hperm.trans (perm_sortMembers ns).symm)
  refine hperm'.eq_of_pairwise ?_ (pairwise_sortMembers ms) (pairwise_sortMembers ns)
  intro a b ha hb hab hba
  have hkey : a.1 = b.1 := le_antisymm hab hba
  have hb' : b ∈ ms := hperm.mem_iff.mpr ((mem_sortMembers b ns).mp hb)
  exact List.inj_on_of_nodup_map hnodup ((mem_sortMembers a ms).mp ha) hb' hkey

theorem sortMembers_of_pairwise {ms : List (Str × Json)} (h : ms.Pairwise fun a b => a.1 ≤ b.1)
    : sortMembers ms = ms := h.insertionSort_eq

theorem sortMembers_sortMembers (ms : List (Str × Json))
    : sortMembers (sortMembers ms) = sortMembers ms :=
  sortMembers_of_pairwise (pairwise_sortMembers ms)

theorem sortKeys_sortKeys (v : Json) : sortKeys (sortKeys v) = sortKeys v := by
  induction v with
  | arr xs ih =>
    rw [sortKeys_arr, sortKeys_arr, List.map_map]
    congr 1
    exact List.map_congr_left fun x hx => ih x hx
  | obj ms ih =>
    have hfix : ∀ m ∈ sortMembers (ms.map fun m => (m.1, sortKeys m.2)),
        (m.1, sortKeys m.2) = m := by
      intro m hm
      rw [mem_sortMembers, List.mem_map] at hm
      rcases hm with ⟨n, hn, rfl⟩
      rw [ih n hn]
    rw [sortKeys_obj, sortKeys_obj, List.map_congr_left hfix]
    simp [sortMembers_sortMembers]
  | _ => rfl

theorem depth_sortKeys (v : Json) : depth (sortKeys v) = depth v := by
  induction v with
  | arr xs ih =>
    rw [sortKeys_arr, depth, depth]
    congr 1
    apply Nat.le_antisymm
    . rw [depthElems_le_iff]
      intro x hx
      rcases List.mem_map.mp hx with ⟨y, hy, rfl⟩
      rw [ih y hy]
      exact depth_le_depthElems hy
    . rw [depthElems_le_iff]
      intro x hx
      rw [← ih x hx]
      exact depth_le_depthElems (List.mem_map_of_mem hx)
  | obj ms ih =>
    rw [sortKeys_obj, depth, depth]
    congr 1
    apply Nat.le_antisymm
    . rw [depthMembers_le_iff]
      intro m hm
      rw [mem_sortMembers, List.mem_map] at hm
      rcases hm with ⟨n, hn, rfl⟩
      simp only [ih n hn]
      exact depth_le_depthMembers hn
    . rw [depthMembers_le_iff]
      intro m hm
      rw [← ih m hm]
      refine depth_le_depthMembers (m := (m.1, sortKeys m.2)) ?_
      rw [mem_sortMembers]
      exact List.mem_map_of_mem (f := fun m : Str × Json => (m.1, sortKeys m.2)) hm
  | _ => rfl

/--
The value of a member.
-/
def get? (v : Json) (key : Str) : Option Json :=
  match v with
  | .obj ms => Assoc.lookup key ms
  | _ => none

theorem lookup_sortMembers (key : Str) (ms : List (Str × Json))
    (hnodup : (ms.map Prod.fst).Nodup)
    : Assoc.lookup key (sortMembers ms) = Assoc.lookup key ms := by
  cases h : Assoc.lookup key ms with
  | none =>
    rw [Assoc.lookup_eq_none_iff] at h ⊢
    intro hmem
    exact h (((perm_sortMembers ms).map Prod.fst).mem_iff.mp hmem)
  | some v =>
    refine Assoc.lookup_of_mem ((nodup_sortMembers ms).mpr hnodup) ?_
    rw [mem_sortMembers]
    exact Assoc.mem_of_lookup h

/--
The members of objects that are the same when they are sorted.
-/
theorem lookup_of_sortKeys_eq {ms ns : List (Str × Json)} (hms : (ms.map Prod.fst).Nodup)
    (hns : (ns.map Prod.fst).Nodup) (h : sortKeys (.obj ms) = sortKeys (.obj ns)) (key : Str)
    : (Assoc.lookup key ms).map sortKeys = (Assoc.lookup key ns).map sortKeys := by
  have hkeys : ∀ vs : List (Str × Json),
      (vs.map fun m => (m.1, sortKeys m.2)).map Prod.fst = vs.map Prod.fst := by
    intro vs
    rw [List.map_map]
    rfl
  rw [sortKeys_obj, sortKeys_obj, obj.injEq] at h
  have hlookup := congrArg (Assoc.lookup key) h
  rwa [lookup_sortMembers _ _ (by rwa [hkeys]), lookup_sortMembers _ _ (by rwa [hkeys]),
    Assoc.lookup_map, Assoc.lookup_map] at hlookup

end Json
