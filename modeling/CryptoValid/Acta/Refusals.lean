import CryptoValid.Acta.Normal
import CryptoValid.Lib.PythonValue

/-!
This module contains the canonical JSON of `cryptovalid_acta.py` for whatever a caller may pass, and
shows what is always refused.
-/

namespace CryptoValid
namespace Acta

open Python (Key Value)

/--
What `jcs` raises.
-/
inductive Raised where
  | valueError (e : JcsError)
  | keyType
  | unsupported
  deriving DecidableEq

mutual

/--
`enc`, where the members are encoded in the order of their names.
-/
def encAny (room : Nat) (x : Value) : Except Raised Str :=
  match room with
  | 0 => .error (.valueError .tooDeep)
  | room + 1 =>
    match x with
    | .null => .ok (txt "null")
    | .bool true => .ok (txt "true")
    | .bool false => .ok (txt "false")
    | .int i => (jcsInt i).mapError .valueError
    | .float f => (jcsFloat f).mapError .valueError
    | .str s => .ok (Json.stringText false s)
    | .list xs => do return 0x5b :: (commaList (← encAnys room xs) ++ [0x5d])
    | .dict ms => do
      if !ms.all fun m => m.1.isStr then throw .keyType
      if ms.any fun m => m.1.name.any CodePoint.isSurrogate then
        throw (.valueError .loneSurrogate)
      let parts ← (sortByUtf16 (encItems room ms)).mapM Prod.snd
      return 0x7b :: (commaList parts ++ [0x7d])
    | .other => .error .unsupported

def encAnys (room : Nat) (xs : List Value) : Except Raised (List Str) :=
  match xs with
  | [] => .ok []
  | x :: xs => do return (← encAny room x) :: (← encAnys room xs)

/--
Each member's name, with its text or what its value raises.
-/
def encItems (room : Nat) (ms : List (Key × Value)) : List (Str × Except Raised Str) :=
  match ms with
  | [] => []
  | (k, v) :: ms =>
    (k.name, (encAny room v).map fun text => Json.stringText false k.name ++ 0x3a :: text)
      :: encItems room ms

end

def jcsAny (x : Value) : Except Raised Bytes := do
  let text ← encAny (jcsMaxDepth + 1) x
  match Utf8.encode? text with
  | none => .error (.valueError .loneSurrogate)
  | some b => .ok b

theorem encAny_zero (x : Value) : encAny 0 x = .error (.valueError .tooDeep) := by
  rw [encAny]

theorem encAnys_eq_mapM (room : Nat) (xs : List Value) : encAnys room xs = xs.mapM
    (encAny room) := by
  induction xs with
  | nil => rfl
  | cons x xs ih => rw [encAnys, ih, List.mapM_cons]

theorem encItems_eq_map (room : Nat) (ms : List (Key × Value))
    : encItems room ms = ms.map fun m =>
        (m.1.name, (encAny room m.2).map fun text => Json.stringText false m.1.name ++ 0x3a :: text)
    := by
  induction ms with
  | nil => rfl
  | cons m ms ih => rw [encItems, ih, List.map_cons]

/-!
### What is refused
-/

/--
An element of a value, and how many levels below the top it is.
-/
inductive Within : Value → Nat → Value → Prop where
  | self (x : Value) : Within x 0 x
  | elem {xs : List Value} {x y : Value} {n : Nat} (hx : x ∈ xs) (h : Within x n y)
    : Within (.list xs) (n + 1) y
  | member {ms : List (Key × Value)} {m : Key × Value} {y : Value} {n : Nat} (hm : m ∈ ms)
    (h : Within m.2 n y) : Within (.dict ms) (n + 1) y

/--
A string, or a name of a dictionary, with a surrogate.
-/
def Unpaired : Value → Prop
  | .str s => ¬Str.Scalar s
  | .dict ms => ∃ m ∈ ms, ¬Str.Scalar m.1.name
  | _ => False

def StrangeName : Value → Prop
  | .dict ms => ∃ m ∈ ms, m.1.isStr = false
  | _ => False

theorem mem_commaList {ts : List Str} {t : Str} (ht : t ∈ ts) {c : CodePoint} (hc : c ∈ t)
    : c ∈ commaList ts := by
  induction ts with
  | nil => cases ht
  | cons u ts ih =>
    rw [commaList_cons]
    rcases List.mem_cons.mp ht with rfl | ht
    . exact List.mem_append_left _ hc
    . refine List.mem_append_right _ (List.mem_flatMap.mpr ⟨t, ht, List.mem_cons_of_mem _ hc⟩)

theorem scalar_of_bracketed {ts : List Str} {a b : CodePoint}
    (h : Str.Scalar (a :: (commaList ts ++ [b]))) {t : Str} (ht : t ∈ ts) : Str.Scalar t :=
  fun _ hc => h _ (List.mem_cons_of_mem _ (List.mem_append_left _ (mem_commaList ht hc)))

/--
What a dictionary is encoded from.
-/
theorem encAny_dict_eq_ok {room : Nat} {ms : List (Key × Value)} {t : Str}
    (h : encAny (room + 1) (.dict ms) = .ok t)
    : (∀ m ∈ ms, m.1.isStr = true) ∧ (∀ m ∈ ms, Str.Scalar m.1.name) ∧
        ∃ parts, List.Forall₂ (fun item part => item.2 = .ok part)
            (sortByUtf16 (encItems room ms)) parts ∧
          t = 0x7b :: (commaList parts ++ [0x7d]) := by
  rw [encAny] at h
  split at h
  . cases h
  . next hnames =>
    split at h
    . cases h
    . next hscalar =>
      rcases Except.bind_eq_ok.mp h with ⟨parts, hparts, h⟩
      simp only [Bool.not_eq_true, Bool.not_eq_false', List.all_eq_true] at hnames
      refine ⟨hnames, fun m hm c hc => ?_, parts, Except.mapM_eq_ok.mp hparts,
        (Except.pure_eq_ok.mp h).symm⟩
      rw [Bool.not_eq_true, List.any_eq_false] at hscalar
      have hm := hscalar m hm
      rw [Bool.not_eq_true, List.any_eq_false] at hm
      exact Bool.not_eq_true _ ▸ hm c hc

theorem exists_item {room : Nat} {ms : List (Key × Value)} {parts : List Str}
    (h : List.Forall₂ (fun item part => item.2 = .ok part) (sortByUtf16 (encItems room ms)) parts)
    {m : Key × Value} (hm : m ∈ ms)
    : ∃ t, encAny room m.2 = .ok t ∧ Json.stringText false m.1.name ++ 0x3a :: t ∈ parts := by
  have hitem : (m.1.name, (encAny room m.2).map fun text =>
      Json.stringText false m.1.name ++ 0x3a :: text) ∈ sortByUtf16 (encItems room ms) := by
    rw [sortByUtf16_eq, List.mem_sortBy, encItems_eq_map]
    exact List.mem_map.mpr ⟨m, hm, rfl⟩
  rcases List.exists_of_mem_left h hitem with ⟨part, hpart, hok⟩
  rcases Except.map_eq_ok.mp hok with ⟨t, ht, rfl⟩
  exact ⟨t, ht, hpart⟩

/--
Whatever is inside a value that is encoded is encoded too, with as many levels less, and its text is
part of the text of the value.
-/
theorem Within.encAny_eq_ok {x y : Value} {n : Nat} (hy : Within x n y) {room : Nat} {t : Str}
    (h : encAny room x = .ok t)
    : n ≤ room ∧ ∃ u, encAny (room - n) y = .ok u ∧ (Str.Scalar t → Str.Scalar u) := by
  induction hy generalizing room t with
  | self x => exact ⟨Nat.zero_le _, t, h, id⟩
  | @elem xs x y n hx _ ih =>
    obtain _ | room := room
    . cases h
    . rw [encAny] at h
      rcases Except.bind_eq_ok.mp h with ⟨ts, hts, h⟩
      rw [encAnys_eq_mapM, Except.mapM_eq_ok] at hts
      rcases List.exists_of_mem_left hts hx with ⟨v, hv, hok⟩
      rcases ih hok with ⟨hle, u, hu, hscalar⟩
      refine ⟨by omega, u, by rwa [Nat.add_sub_add_right], fun ht => hscalar ?_⟩
      rw [← Except.pure_eq_ok.mp h] at ht
      exact scalar_of_bracketed ht hv
  | @member ms m y n hm _ ih =>
    obtain _ | room := room
    . cases h
    . rcases encAny_dict_eq_ok h with ⟨_, _, parts, hparts, rfl⟩
      rcases exists_item hparts hm with ⟨v, hok, hv⟩
      rcases ih hok with ⟨hle, u, hu, hscalar⟩
      refine ⟨by omega, u, by rwa [Nat.add_sub_add_right], fun ht => hscalar ?_⟩
      have hpart := scalar_of_bracketed ht hv
      rw [Str.scalar_append, Str.scalar_cons] at hpart
      exact hpart.2.2

/--
An unpaired surrogate, a name that is no string, or too many levels.
-/
def Refused (x : Value) : Prop :=
  ∃ n y, Within x n y ∧ (jcsMaxDepth < n ∨ Unpaired y ∨ StrangeName y)

theorem jcsAny_refused {x : Value} (hx : Refused x) : ∃ e, jcsAny x = .error e := by
  rcases hx with ⟨n, y, hy, hrefused⟩
  cases hjcs : jcsAny x with
  | error e => exact ⟨e, rfl⟩
  | ok b =>
    rcases Except.bind_eq_ok.mp hjcs with ⟨t, ht, hencode⟩
    have hscalar : Str.Scalar t := by
      by_contra hnot
      rw [Utf8.encode?, if_neg hnot] at hencode
      cases hencode
    rcases hy.encAny_eq_ok ht with ⟨hle, u, hu, hsub⟩
    cases hroom : jcsMaxDepth + 1 - n with
    | zero =>
      rw [hroom, encAny_zero] at hu
      cases hu
    | succ room =>
      rw [hroom] at hu
      rcases hrefused with hdeep | hunpaired | hstrange
      . omega
      . cases y with
        | str s =>
          rw [encAny, Except.ok.injEq] at hu
          exact absurd (Json.scalar_of_stringText (hu ▸ hsub hscalar)) hunpaired
        | dict ms =>
          rcases hunpaired with ⟨m, hm, hnot⟩
          exact absurd ((encAny_dict_eq_ok hu).2.1 m hm) hnot
        | _ => exact absurd hunpaired id
      . cases y with
        | dict ms =>
          rcases hstrange with ⟨m, hm, hother⟩
          have hstr := (encAny_dict_eq_ok hu).1 m hm
          rw [hother] at hstr
          cases hstr
        | _ => exact absurd hstrange id

/-!
### JSON values
-/

theorem encMembers_eq_ok {room : Nat} {ms : List (Str × Json)} {ps : List (Str × Str)}
    (h : encMembers room ms = .ok ps)
    : ∀ m ∈ ms, ∃ t, (m.1, Json.stringText false m.1 ++ 0x3a :: t) ∈ ps ∧ enc room m.2 = .ok t := by
  induction ms generalizing ps with
  | nil => simp
  | cons m ms ih =>
    rw [encMembers] at h
    rcases Except.bind_eq_ok.mp h with ⟨t, ht, h⟩
    rcases Except.bind_eq_ok.mp h with ⟨rest, hrest, h⟩
    rw [← Except.pure_eq_ok.mp h, List.forall_mem_cons]
    refine ⟨⟨t, List.mem_cons_self, ht⟩, fun n hn => ?_⟩
    rcases ih hrest n hn with ⟨u, hmem, hu⟩
    exact ⟨u, List.mem_cons_of_mem _ hmem, hu⟩

theorem encElems_eq_mapM (room : Nat) (xs : List Json) : encElems room xs = xs.mapM (enc room) := by
  induction xs with
  | nil => rfl
  | cons x xs ih => rw [encElems, ih, List.mapM_cons]

/--
The members are encoded one by one before they are ordered, or after it.
-/
theorem encAny_ofMembers {ms : List (Str × Json)} {room : Nat} {f : Json → Str}
    (henc : ∀ m ∈ ms, enc room m.2 = .ok (f m.2))
    (hencAny : ∀ m ∈ ms, encAny room (.ofJson m.2) = .ok (f m.2)) {t : Str}
    : encAny (room + 1) (.ofJson (.obj ms)) = .ok t ↔ enc (room + 1) (.obj ms) = .ok t := by
  have hitems : encItems room (Value.ofMembers ms)
      = ms.map fun m => (m.1, .ok (Json.stringText false m.1 ++ 0x3a :: f m.2)) := by
    rw [encItems_eq_map, Value.ofMembers_eq_map, List.map_map]
    refine List.map_congr_left fun m hm => ?_
    simp only [Function.comp_apply, Key.name, hencAny m hm]
    rfl
  have hparts : (sortByUtf16 (encItems room (Value.ofMembers ms))).mapM Prod.snd
      = Except.ok (ε := Raised) ((sortByUtf16 (ms.map fun m =>
          (m.1, Json.stringText false m.1 ++ 0x3a :: f m.2))).map Prod.snd) := by
    rw [Except.mapM_eq_ok, hitems, sortByUtf16_eq, sortByUtf16_eq, List.map_sortBy,
      List.map_sortBy, List.map_map, List.forall₂_map_left_iff, List.forall₂_map_right_iff]
    exact List.forall₂_same.mpr fun m _ => rfl
  have hnames : ((Value.ofMembers ms).all fun m => m.1.isStr) = true := by
    rw [Value.ofMembers_eq_map, List.all_map, List.all_eq_true]
    exact fun m _ => rfl
  have hsurrogates : ((Value.ofMembers ms).any fun m => m.1.name.any CodePoint.isSurrogate)
      = ms.any fun m => m.1.any CodePoint.isSurrogate := by
    rw [Value.ofMembers_eq_map, List.any_map]
    rfl
  rw [Value.ofJson, encAny, enc, hparts, encMembers_eq henc, hnames, hsurrogates]
  cases ms.any fun m => m.1.any CodePoint.isSurrogate with
  | true => simp [throw, throwThe, MonadExceptOf.throw, bind, Except.bind]
  | false => simp [bind, Except.bind, pure, Except.pure]

theorem exists_encAny_of_dict {ms : List (Str × Json)} {room : Nat} {t : Str}
    (h : encAny (room + 1) (.ofJson (.obj ms)) = .ok t)
    : ∀ m ∈ ms, ∃ u, encAny room (.ofJson m.2) = .ok u := by
  intro m hm
  rw [Value.ofJson] at h
  rcases encAny_dict_eq_ok h with ⟨_, _, parts, hparts, _⟩
  have hm' : (Key.str m.1, Value.ofJson m.2) ∈ Value.ofMembers ms := by
    rw [Value.ofMembers_eq_map]
    exact List.mem_map.mpr ⟨m, hm, rfl⟩
  rcases exists_item hparts hm' with ⟨u, hu, _⟩
  exact ⟨u, hu⟩

theorem exists_enc_of_obj {ms : List (Str × Json)} {room : Nat} {t : Str}
    (h : enc (room + 1) (.obj ms) = .ok t) : ∀ m ∈ ms, ∃ u, enc room m.2 = .ok u := by
  rw [enc] at h
  split at h
  . cases h
  . rcases Except.bind_eq_ok.mp h with ⟨ps, hps, _⟩
    exact fun m hm => (encMembers_eq_ok hps m hm).imp fun _ h => h.2

theorem encAny_ofJson {v : Json} {room : Nat} {t : Str}
    : encAny room (.ofJson v) = .ok t ↔ enc room v = .ok t := by
  induction v generalizing room t with
  | null => cases room <;> simp [enc, encAny, Value.ofJson]
  | bool b => cases room <;> cases b <;> simp [enc, encAny, Value.ofJson]
  | int i =>
    cases room with
    | zero => simp [enc, encAny]
    | succ room => rw [Value.ofJson, encAny, enc, Except.mapError_eq_ok]
  | float x =>
    cases room with
    | zero => simp [enc, encAny]
    | succ room => rw [Value.ofJson, encAny, enc, Except.mapError_eq_ok]
  | str s => cases room <;> simp [enc, encAny, Value.ofJson]
  | arr xs ih =>
    cases room with
    | zero => simp [enc, encAny]
    | succ room =>
      have helems : ∀ ts, encAnys room (Value.ofElems xs) = .ok ts ↔ encElems room xs = .ok ts := by
        intro ts
        rw [Value.ofElems_eq_map, encAnys_eq_mapM, encElems_eq_mapM, Except.mapM_eq_ok,
          Except.mapM_eq_ok, List.forall₂_map_left_iff]
        exact List.forall₂_congr_of_mem fun x hx ts => ih x hx
      rw [Value.ofJson, encAny, enc, Except.bind_eq_ok, Except.bind_eq_ok]
      simp only [helems, Except.pure_eq_ok]
  | obj ms ih =>
    cases room with
    | zero => simp [enc, encAny]
    | succ room =>
      by_cases hall : ∀ m ∈ ms, ∃ u, enc room m.2 = .ok u
      . have hf : ∀ m ∈ ms, enc room m.2 = .ok ((enc room m.2).toOption.getD []) := by
          intro m hm
          rcases hall m hm with ⟨u, hu⟩
          rw [hu]
          rfl
        exact encAny_ofMembers (f := fun v => (enc room v).toOption.getD []) hf
          fun m hm => (ih m hm).mpr (hf m hm)
      -- a member that has no encoding: neither side returns, whatever the other members are
      . refine iff_of_false (fun h => hall fun m hm => ?_) fun h => hall (exists_enc_of_obj h)
        exact (exists_encAny_of_dict h m hm).imp fun u hu => (ih m hm).mp hu

theorem jcsAny_ofJson {v : Json} {b : Bytes} : jcsAny (.ofJson v) = .ok b ↔ jcs v = .ok b := by
  rw [jcsAny, jcs, Except.bind_eq_ok, Except.bind_eq_ok]
  refine exists_congr fun t => and_congr encAny_ofJson ?_
  cases Utf8.encode? t with
  | none => simp
  | some b => simp

/--
What is encoded has no more levels than are left, and where the text is encodable all of its strings are.
-/
theorem levels_lt_of_enc {v : Json} {room : Nat} {t : Str} (h : enc room v = .ok t)
    : levels v < room ∧ (Str.Scalar t → Json.All Json.ScalarText v) := by
  induction v generalizing room t with
  | str s =>
    cases room with
    | zero => cases h
    | succ room =>
      rw [enc, Except.ok.injEq] at h
      subst h
      exact ⟨Nat.succ_pos room, Json.scalar_of_stringText⟩
  | arr xs ih =>
    cases room with
    | zero => cases h
    | succ room =>
      rw [enc] at h
      rcases Except.bind_eq_ok.mp h with ⟨ts, hts, h⟩
      rw [encElems_eq_mapM, Except.mapM_eq_ok] at hts
      rw [← Except.pure_eq_ok.mp h]
      refine ⟨Nat.lt_succ_of_le (levels_arr_le_iff.mpr fun x hx => ?_), fun ht => ?_⟩
      . rcases List.exists_of_mem_left hts hx with ⟨u, _, hu⟩
        exact (ih x hx hu).1
      . rw [Json.all_arr]
        refine ⟨trivial, fun x hx => ?_⟩
        rcases List.exists_of_mem_left hts hx with ⟨u, hmem, hu⟩
        exact (ih x hx hu).2 (scalar_of_bracketed ht hmem)
  | obj ms ih =>
    cases room with
    | zero => cases h
    | succ room =>
      rw [enc] at h
      split at h
      . cases h
      . next hnames =>
        rcases Except.bind_eq_ok.mp h with ⟨ps, hps, h⟩
        rw [← Except.pure_eq_ok.mp h]
        refine ⟨Nat.lt_succ_of_le (levels_obj_le_iff.mpr fun m hm => ?_), fun ht => ?_⟩
        . rcases encMembers_eq_ok hps m hm with ⟨u, _, hu⟩
          exact (ih m hm hu).1
        . rw [Json.all_obj]
          refine ⟨fun m hm c hc => ?_, fun m hm => ?_⟩
          -- the names are checked on their own, the values stand in the text
          . rw [Bool.not_eq_true, List.any_eq_false] at hnames
            have hname := hnames m hm
            rw [Bool.not_eq_true, List.any_eq_false] at hname
            exact Bool.not_eq_true _ ▸ hname c hc
          . rcases encMembers_eq_ok hps m hm with ⟨u, hmem, hu⟩
            have hpart : Json.stringText false m.1 ++ 0x3a :: u
                ∈ (sortByUtf16 ps).map Prod.snd := by
              rw [sortByUtf16_eq]
              exact List.mem_map_of_mem ((List.mem_sortBy _).mpr hmem)
            have htext := scalar_of_bracketed ht hpart
            rw [Str.scalar_append, Str.scalar_cons] at htext
            exact (ih m hm hu).2 htext.2.2
  | _ =>
    cases room with
    | zero => cases h
    | succ room => exact ⟨Nat.succ_pos room, fun _ => trivial⟩

/--
What has bytes, and neither a float nor an integer out of range, is plain.
-/
theorem plain_of_jcs {v : Json} {b : Bytes} (h : jcs v = .ok b)
    (hnodes : Json.All (fun w => Json.NotFloat w ∧ InRange w ∧ Json.UniqueKeys w) v) : Plain v := by
  rcases Except.bind_eq_ok.mp h with ⟨t, ht, hencode⟩
  have hscalar : Str.Scalar t := by
    by_contra hnot
    rw [Utf8.encode?, if_neg hnot] at hencode
    cases hencode
  rcases levels_lt_of_enc ht with ⟨hlevels, htext⟩
  refine ⟨(hnodes.and (htext hscalar)).imp ?_, Nat.le_of_lt_succ hlevels⟩
  rintro w ⟨⟨hfloat, hrange, hkeys⟩, htext⟩
  exact ⟨hfloat, htext, hrange, hkeys⟩

/--
Canonical JSON is a faithful normal form of the values without floats. Their bytes are decoded to the
value, with the members in the order of the code units of their names, and two values with the same
bytes differ in the order of members alone; what has an unpaired surrogate, a name that is no string or
too many levels has no bytes.
-/
theorem jcs_normalForm {interp : Python.Interp} (hinterp : Decodes interp)
    : (∀ v, Plain v → ∃ b w, jcs v = .ok b ∧ b = (Json.dumps false w).flatMap Utf8.encodePoint ∧
          Python.loadsBytes interp b = .ok w ∧ w.sortKeys = v.sortKeys ∧ w.All OrderedNode) ∧
      (∀ v w, Plain v → Plain w → (jcs v = jcs w ↔ v.sortKeys = w.sortKeys)) ∧
      (∀ v b, jcsAny (.ofJson v) = .ok b ↔ jcs v = .ok b) ∧
      ∀ x, Refused x → ∃ e, jcsAny x = .error e := by
  refine ⟨fun v hv => ?_, fun v w hv hw => jcs_eq_iff hv hw, fun v b => jcsAny_ofJson,
    fun x hx => jcsAny_refused hx⟩
  exact ⟨_, _, jcs_eq hv, rfl, loadsBytes_jcs hinterp hv, sortKeys_sortUtf16 hv.nodes,
    ordered_sortUtf16 hv.nodes⟩

/--
A name outside of the basic plane comes before a private one, which has the smaller code point.
-/
def exampleValue : Json :=
  .obj [([0xE000], .int 1), ([0x10000], .arr [.bool true, .str [0xE9]])]

theorem plain_exampleValue : Plain exampleValue where
  nodes := by
    rw [exampleValue, Json.all_obj]
    refine ⟨⟨trivial, by rw [Json.ScalarText]; decide, trivial, by rw [Json.UniqueKeys]; decide⟩,
      List.forall_mem_cons.mpr ⟨?_, ?_⟩⟩
    . exact ⟨trivial, trivial, by rw [InRange]; decide, trivial⟩
    . rw [List.forall_mem_singleton, Json.all_arr]
      refine ⟨⟨trivial, trivial, trivial, trivial⟩, List.forall_mem_cons.mpr ⟨?_, ?_⟩⟩
      . exact ⟨trivial, trivial, trivial, trivial⟩
      . rw [List.forall_mem_singleton]
        exact ⟨trivial, by rw [Json.ScalarText]; decide, trivial, trivial⟩
  levels := by decide

theorem jcs_normalForm_example
    : ∃ b w, jcs exampleValue = .ok b ∧ b = (Json.dumps false w).flatMap Utf8.encodePoint ∧
        Python.loadsBytes ⟨1000, 1000, some 4300⟩ b = .ok w ∧
        w.sortKeys = exampleValue.sortKeys ∧ w.All OrderedNode := by
  have hinterp : Decodes ⟨1000, 1000, some 4300⟩ := ⟨by decide, by decide⟩
  exact (jcs_normalForm hinterp).1 exampleValue plain_exampleValue

end Acta
end CryptoValid
