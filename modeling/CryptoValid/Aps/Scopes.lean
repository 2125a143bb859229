import CryptoValid.Aps.Separation
import CryptoValid.Lib.Sha256
import Mathlib.Data.Finset.Image

/-!
This module contains the two policies for scopes: the native form puts them in order, the second form
accepts the ordered ones alone. Both tell apart the same sets of scopes.
-/

namespace CryptoValid
namespace Aps

open Acta (jcs Plain)

/-!
### Other scopes in the same object
-/

theorem strings_replace {names : List Str} {k : Str} (h : k ∉ names) (v : Json)
    (ms : List (Str × Json)) (what : Str)
    : strings (Assoc.replace k v ms) names what = strings ms names what := by
  refine Except.forM_congr fun n hn => ?_
  have hnk : n ≠ k := fun hnk => h (hnk ▸ hn)
  rw [get_replace_of_ne hnk]

theorem replace_replace (k : Str) (v w : Json) (ms : List (Str × Json))
    : Assoc.replace k w (Assoc.replace k v ms) = Assoc.replace k w ms := by
  unfold Assoc.replace
  rw [List.map_map]
  refine List.map_congr_left fun m _ => ?_
  dsimp only [Function.comp]
  split <;> rfl

theorem replace_comm {j k : Str} (h : j ≠ k) (v w : Json) (ms : List (Str × Json))
    : Assoc.replace j v (Assoc.replace k w ms) = Assoc.replace k w (Assoc.replace j v ms) := by
  unfold Assoc.replace
  rw [List.map_map, List.map_map]
  refine List.map_congr_left fun m _ => ?_
  by_cases hj : m.1 = j
  . have hk : m.1 ≠ k := hj ▸ h
    simp [hj, h]
  . simp [hj]

theorem nativeFields_replace (v : Json) (ms : List (Str × Json)) (normalize : Bool)
    : nativeFields (.obj (Assoc.replace (txt "scopeRequired") v ms)) normalize =
        (nativeFields (.obj ms) normalize).map (Assoc.replace (txt "scopeRequired") v) := by
  have hnormalized : normalized (Assoc.replace (txt "scopeRequired") v ms) normalize =
      (normalized ms normalize).map (Assoc.replace (txt "scopeRequired") v) := by
    unfold normalized
    rw [get_replace_of_ne (by decide)]
    split
    . cases normalizeTimestamp (get ms (txt "timestamp")) with
      | error e => rfl
      | ok ts => exact congrArg Except.ok (replace_comm (by decide) _ _ _)
    . rfl
  unfold nativeFields
  dsimp only
  rw [hasExactly_replace, hnormalized]
  split
  . rfl
  . cases normalized ms normalize with
    | error e => rfl
    | ok ns =>
      have hnames : txt "scopeRequired" ∉ [txt "agentId", txt "actionType", txt "timestamp"] := by
        decide
      simp only [Except.map, Except.ok_bind]
      rw [strings_replace hnames, get_replace_of_ne (by decide)]
      cases strings ns [txt "agentId", txt "actionType", txt "timestamp"] (txt "-01 §4.1") with
      | error e => rfl
      | ok _ =>
        rw [Except.ok_bind, Except.ok_bind]
        split <;> rfl

theorem v2Fields_replace {ms : List (Str × Json)} (v w : Json)
    (h : ∃ ns, v2Fields (.obj (Assoc.replace (txt "scope_required") v ms)) = .ok ns)
    : v2Fields (.obj (Assoc.replace (txt "scope_required") w ms)) =
        .ok (Assoc.replace (txt "scope_required") w ms) := by
  have hnames : txt "scope_required" ∉ [txt "agent_id", txt "action_type", txt "target",
      txt "payload_ref", txt "issued_at", txt "nonce"] := by
    decide
  have hget : ∀ n, n ≠ txt "scope_required" → ∀ u,
      get (Assoc.replace (txt "scope_required") u ms) n = get ms n :=
    fun n hn u => get_replace_of_ne hn u ms
  rcases h with ⟨ns, h⟩
  unfold v2Fields at h ⊢
  dsimp only at h ⊢
  rw [hasExactly_replace, strings_replace hnames, hget _ (by decide), hget _ (by decide),
    hget _ (by decide), hget _ (by decide)] at h ⊢
  split at h
  . cases h
  . next hexact =>
    rw [if_neg hexact]
    split at h
    . cases h
    . next hprofile =>
      rw [if_neg hprofile]
      rcases Except.bind_eq_ok.mp h with ⟨_, hstrings, h⟩
      rw [hstrings, Except.ok_bind]
      split at h
      . cases h
      . next hhex =>
        rw [if_neg hhex]
        split at h
        . cases h
        . next hcalendar =>
          rw [if_neg hcalendar]
          rfl

/-!
### The native form
-/

section

variable (nfc : Str → Str) (sha256 : HashFn 32)

theorem forM_noLoneSurrogate_congr {sc sc' : List Str}
    (h : (∀ x ∈ sc, Str.Scalar x) ↔ ∀ x ∈ sc', Str.Scalar x) (what : Str)
    : (sc.forM fun x => noLoneSurrogate x what) = sc'.forM fun x => noLoneSurrogate x what := by
  have hforM : ∀ ys : List Str, (ys.forM fun x => noLoneSurrogate x what) =
      if ∀ x ∈ ys, Str.Scalar x then .ok ()
      else .error (.aps (what ++ txt ": unpaired surrogate (no UTF-8 encoding; never repaired)")) := by
    intro ys
    induction ys with
    | nil => rfl
    | cons y ys ih =>
      rw [List.forM, ih, noLoneSurrogate]
      by_cases hy : Str.Scalar y
      . rw [if_pos hy, Except.ok_bind]
        simp only [List.forall_mem_cons, hy, true_and]
      . have hnot : ¬∀ x ∈ y :: ys, Str.Scalar x := fun hall => hy (hall y List.mem_cons_self)
        rw [if_neg hy, if_neg hnot]
        rfl
  rw [hforM, hforM]
  simp only [h]

theorem nativeScopes_congr {sc sc' : List Str} (h : (sc.map nfc).Perm (sc'.map nfc))
    (hscalar : (∀ x ∈ sc, Str.Scalar x) ↔ ∀ x ∈ sc', Str.Scalar x) (reject : Bool)
    : nativeScopes nfc (.arr (sc.map .str)) reject =
        nativeScopes nfc (.arr (sc'.map .str)) reject := by
  unfold nativeScopes
  rw [strings?_eq_some.mpr rfl, strings?_eq_some.mpr rfl]
  dsimp only
  rw [forM_noLoneSurrogate_congr hscalar, List.sortBy_eq_of_perm id h fun _ _ _ _ h => h]

/--
The reference is that of the bag of the normal forms of the scopes.
-/
theorem actionRefNative01_congr {sc sc' : List Str} (h : (sc.map nfc).Perm (sc'.map nfc))
    (hscalar : (∀ x ∈ sc, Str.Scalar x) ↔ ∀ x ∈ sc', Str.Scalar x) (ms : List (Str × Json))
    (reject normalize : Bool)
    : actionRefNative01 nfc sha256 (.obj (Assoc.replace (txt "scopeRequired") (.arr (sc.map .str)) ms))
          reject normalize =
        actionRefNative01 nfc sha256
          (.obj (Assoc.replace (txt "scopeRequired") (.arr (sc'.map .str)) ms)) reject normalize := by
  unfold actionRefNative01 nativeCanonical
  rw [nativeFields_replace, nativeFields_replace]
  cases hfields : nativeFields (.obj ms) normalize with
  | error e => rfl
  | ok ns =>
    rcases nativeFields_eq_ok hfields with ⟨_, _, _, hexact, _⟩
    have hmem : txt "scopeRequired" ∈ ns.map Prod.fst :=
      (hasExactly_iff.mp hexact).1 _ (by decide)
    simp only [Except.map, Except.ok_bind]
    rw [get_replace_self hmem, get_replace_self hmem, nativeScopes_congr nfc h hscalar]
    simp only [replace_replace]

/--
A scope with an unpaired surrogate has no reference.
-/
theorem not_actionRefNative01_of_unpaired {sc : List Str} (h : ∃ x ∈ sc, ¬Str.Scalar x)
    (ms : List (Str × Json)) (reject normalize : Bool)
    : ¬∃ d, actionRefNative01 nfc sha256
        (.obj (Assoc.replace (txt "scopeRequired") (.arr (sc.map .str)) ms)) reject normalize =
          .ok d := by
  rintro ⟨d, hd⟩
  rcases Except.bind_eq_ok.mp hd with ⟨canonical, hcanonical, _⟩
  unfold nativeCanonical at hcanonical
  rw [nativeFields_replace] at hcanonical
  rcases Except.bind_eq_ok.mp hcanonical with ⟨_, hreplaced, hcanonical⟩
  rcases Except.map_eq_ok.mp hreplaced with ⟨ns, hfields, rfl⟩
  rcases nativeFields_eq_ok hfields with ⟨_, _, _, hexact, _⟩
  rw [get_replace_self ((hasExactly_iff.mp hexact).1 _ (by decide))] at hcanonical
  rcases Except.bind_eq_ok.mp hcanonical with ⟨scopes, hscopes, _⟩
  unfold nativeScopes at hscopes
  rw [strings?_eq_some.mpr rfl] at hscopes
  rcases Except.bind_eq_ok.mp hscopes with ⟨_, hpass, _⟩
  rcases h with ⟨x, hx, hunpaired⟩
  have hx := Except.forM_eq_ok.mp hpass x hx
  rw [noLoneSurrogate, if_neg hunpaired] at hx
  cases hx

/-!
### The second form
-/

theorem utf8Key_inj {s t : Str} (h : utf8Key s = utf8Key t) : s = t :=
  Utf8.flatMap_encodePoint_inj (List.map_injective_iff.mpr (fun _ _ => UInt8.toNat_inj.mp) h)

/--
The canonical array depends on the set of normal forms alone.
-/
theorem canonicalScopes_congr {sc sc' : List Str}
    (h : ∀ x, x ∈ sc.map nfc ↔ x ∈ sc'.map nfc)
    : canonicalScopes nfc sc = canonicalScopes nfc sc' := by
  refine List.sortBy_eq_of_perm utf8Key ?_ fun _ _ _ _ => utf8Key_inj
  rw [List.perm_ext_iff_of_nodup (List.nodup_dedup _) (List.nodup_dedup _)]
  intro x
  rw [List.mem_dedup, List.mem_dedup, h]

/--
The dictionary with these scopes is accepted.
-/
def AcceptsScopes (ms : List (Str × Json)) (payload : Json) (permitted : Bool) (v : Json) : Prop :=
  ∃ d, actionRefV2 nfc sha256 (.obj (Assoc.replace (txt "scope_required") v ms)) payload permitted =
    .ok d

/--
The scopes are of these classes.
-/
def OfClasses (S : Finset Str) (v : Json) : Prop :=
  ∃ sc, strings? v = some sc ∧ (sc.map nfc).toFinset = S.image nfc

variable {nfc sha256}

theorem AcceptsScopes.scopes {ms : List (Str × Json)} {payload v : Json} {permitted : Bool}
    (h : AcceptsScopes nfc sha256 ms payload permitted v)
    : v2Fields (.obj (Assoc.replace (txt "scope_required") v ms)) =
          .ok (Assoc.replace (txt "scope_required") v ms) ∧
        v2Scopes nfc v permitted = .ok () ∧
        payloadMatches sha256 payload (get ms (txt "payload_ref")) = .ok () := by
  rcases h with ⟨d, h⟩
  rcases Except.bind_eq_ok.mp h with ⟨ns, hfields, h⟩
  rcases Except.bind_eq_ok.mp h with ⟨_, hscopes, h⟩
  rcases Except.bind_eq_ok.mp h with ⟨_, hpayload, h⟩
  have hns := (v2Fields_eq_ok hfields).1
  rw [Json.obj.injEq] at hns
  subst hns
  have hexact := (v2Fields_eq_ok hfields).2.1
  rw [hasExactly_replace] at hexact
  rw [get_replace_self ((hasExactly_iff.mp hexact).1 _ (by decide))] at hscopes
  rw [get_replace_of_ne (by decide)] at hpayload
  exact ⟨hfields, hscopes, hpayload⟩

theorem scalar_of_v2Members : ∀ n ∈ v2Members, Str.Scalar n := by
  decide

/--
Strings, and arrays of strings, that UTF-8 can express.
-/
def Text (v : Json) : Prop :=
  (∃ s, v = .str s ∧ Str.Scalar s) ∨ ∃ sc : List Str, v = .arr (sc.map .str) ∧ ∀ x ∈ sc, Str.Scalar x

theorem Text.scalar {v : Json} (h : Text v) : v.All Json.ScalarText := by
  rcases h with ⟨s, rfl, hs⟩ | ⟨sc, rfl, hsc⟩
  . exact hs
  . rw [Json.all_arr, List.forall_mem_map]
    exact ⟨trivial, hsc⟩

theorem Text.levels {v : Json} (h : Text v) : Acta.levels v < Acta.jcsMaxDepth := by
  rcases h with ⟨s, rfl, _⟩ | ⟨sc, rfl, _⟩
  . have hzero : Acta.levels (.str s) = 0 := by simp [Acta.levels]
    rw [hzero]
    decide
  . have hle : Acta.levels (.arr (sc.map .str)) ≤ 1 := by
      rw [Acta.levels_arr_le_iff, List.forall_mem_map]
      exact fun s _ => Nat.zero_lt_one
    exact Nat.lt_of_le_of_lt hle (by decide)

theorem plain_of_text {names : List Str} {ms : List (Str × Json)}
    (hnames : ∀ n ∈ names, Str.Scalar n) (hnodup : (ms.map Prod.fst).Nodup)
    (hexact : hasExactly names ms = true) (htext : ∀ n ∈ names, Text (get ms n))
    : Plain (.obj ms) := by
  have hflat : ∀ n ∈ names, Flat (get ms n) := fun n hn => by
    rcases htext n hn with ⟨s, hs, _⟩ | ⟨sc, hsc, _⟩
    . exact Or.inl ⟨s, hs⟩
    . exact Or.inr ⟨sc, strings?_eq_some.mpr hsc⟩
  have hname := (hasExactly_iff.mp hexact).2
  have hvalue : ∀ m ∈ ms, Text m.2 := fun m hm => get_of_mem hnodup hm ▸ htext m.1 (hname m hm)
  refine ⟨?_, Acta.levels_obj_le_iff.mpr fun m hm => (hvalue m hm).levels⟩
  have hscalar : (Json.obj ms).All Json.ScalarText := by
    rw [Json.all_obj]
    exact ⟨fun m hm => hnames m.1 (hname m hm), fun m hm => (hvalue m hm).scalar⟩
  refine ((exact_of_flat hnodup hexact hflat).and hscalar).imp ?_
  rintro v ⟨⟨hfloat, hrange, hkeys⟩, htext⟩
  exact ⟨hfloat, htext, hrange, hkeys⟩

/--
What passes the checks has bytes.
-/
theorem acceptsScopes {ms : List (Str × Json)} {payload v : Json} {permitted : Bool}
    (hnodup : (ms.map Prod.fst).Nodup)
    (hfields : v2Fields (.obj (Assoc.replace (txt "scope_required") v ms)) =
      .ok (Assoc.replace (txt "scope_required") v ms))
    (hscopes : v2Scopes nfc v permitted = .ok ())
    (hpayload : payloadMatches sha256 payload (get ms (txt "payload_ref")) = .ok ())
    : AcceptsScopes nfc sha256 ms payload permitted v := by
  rcases v2Fields_eq_ok hfields with ⟨_, hexact, hstr⟩
  rcases (v2Scopes_eq_ok nfc).mp hscopes with ⟨sc, hsc, hall, _⟩
  have hmem : txt "scope_required" ∈ ms.map Prod.fst := by
    rw [hasExactly_replace] at hexact
    exact (hasExactly_iff.mp hexact).1 _ (by decide)
  have hplain : Plain (.obj (Assoc.replace (txt "scope_required") v ms)) := by
    refine plain_of_text scalar_of_v2Members (by rwa [Assoc.map_fst_replace]) hexact fun n hn => ?_
    by_cases hscope : n = txt "scope_required"
    . rw [hscope, get_replace_self hmem]
      exact Or.inr ⟨sc, hsc, fun x hx => (hall x hx).2⟩
    . exact Or.inl (hstr n hn hscope)
  rw [AcceptsScopes, actionRefV2, hfields, Except.ok_bind, get_replace_self hmem, hscopes,
    Except.ok_bind, get_replace_of_ne (by decide), hpayload, Except.ok_bind, jcsOf,
    Acta.jcs_eq hplain]
  exact ⟨_, rfl⟩

/--
Every finite set of classes has one array that is accepted.
-/
theorem existsUnique_scopes (hnfc : ∀ s, nfc (nfc s) = nfc s) {ms : List (Str × Json)}
    {payload : Json} (hnodup : (ms.map Prod.fst).Nodup)
    (hms : ∃ permitted v, AcceptsScopes nfc sha256 ms payload permitted v) {S : Finset Str}
    (hS : ∀ s ∈ S, nfc s ≠ [] ∧ Str.Scalar (nfc s)) {permitted : Bool}
    (hempty : S = ∅ → permitted = true)
    : ∃! v, AcceptsScopes nfc sha256 ms payload permitted v ∧ OfClasses nfc S v := by
  rcases hms with ⟨permitted', v, hv⟩
  rcases hv.scopes with ⟨hfields, _, hpayload⟩
  let sc := (S.image nfc).toList.sortBy utf8Key
  have hmem : ∀ x, x ∈ sc ↔ ∃ s ∈ S, nfc s = x := fun x => by
    rw [List.mem_sortBy, Finset.mem_toList, Finset.mem_image]
  have hfixed : sc.map nfc = sc := by
    refine (List.map_congr_left fun x hx => ?_).trans (List.map_id sc)
    rcases (hmem x).mp hx with ⟨s, _, rfl⟩
    exact hnfc s
  have hnodup' : sc.Nodup := (List.perm_sortBy _ _).nodup_iff.mpr (Finset.nodup_toList _)
  have hcanonical : sc = canonicalScopes nfc sc := by
    rw [canonicalScopes, hfixed, hnodup'.dedup]
    exact List.sortBy_eq_of_perm utf8Key (List.perm_sortBy _ _).symm fun _ _ _ _ => utf8Key_inj
  have hscopes : v2Scopes nfc (.arr (sc.map .str)) permitted = .ok () := by
    refine (v2Scopes_eq_ok nfc).mpr ⟨sc, rfl, fun x hx => ?_, fun hsc => hempty ?_, hcanonical⟩
    . rcases (hmem x).mp hx with ⟨s, hs, rfl⟩
      exact hS s hs
    . refine Finset.eq_empty_iff_forall_notMem.mpr fun s hs => ?_
      exact absurd ((hmem (nfc s)).mpr ⟨s, hs, rfl⟩) (by rw [hsc]; exact List.not_mem_nil)
  refine ⟨.arr (sc.map .str), ⟨?_, sc, strings?_eq_some.mpr rfl, ?_⟩, ?_⟩
  . exact acceptsScopes hnodup (v2Fields_replace v _ ⟨_, hfields⟩) hscopes hpayload
  . rw [hfixed]
    ext x
    rw [List.mem_toFinset, hmem, Finset.mem_image]
  . rintro w ⟨hw, sc', hsc', hclasses⟩
    rcases (v2Scopes_eq_ok nfc).mp hw.scopes.2.1 with ⟨sc'', rfl, _, _, hcanonical'⟩
    rw [strings?_eq_some.mpr rfl, Option.some.injEq] at hsc'
    subst hsc'
    have hsame : sc'' = sc := by
      rw [hcanonical', hcanonical]
      refine canonicalScopes_congr nfc fun x => ?_
      rw [hfixed, hmem, ← List.mem_toFinset, hclasses, Finset.mem_image]
    rw [hsame]

/--
The scopes that are accepted are their own normal forms, and have no surrogates.
-/
theorem scalar_of_ofClasses {ms : List (Str × Json)} {payload v : Json} {permitted : Bool}
    (h : AcceptsScopes nfc sha256 ms payload permitted v) {S : Finset Str}
    (hclasses : OfClasses nfc S v)
    : ∀ s ∈ S, Str.Scalar (nfc s) := by
  rcases hclasses with ⟨sc, hsc, hclasses⟩
  rcases (v2Scopes_eq_ok nfc).mp h.scopes.2.1 with ⟨sc', rfl, hall, _, hcanonical⟩
  rw [strings?_eq_some.mpr rfl, Option.some.injEq] at hsc
  subst hsc
  intro s hs
  have hmem : nfc s ∈ sc'.map nfc := by
    rw [← List.mem_toFinset, hclasses]
    exact Finset.mem_image_of_mem nfc hs
  have hself : nfc s ∈ sc' := by
    rw [hcanonical, canonicalScopes, List.mem_sortBy, List.mem_dedup]
    exact hmem
  exact (hall _ hself).2

theorem not_acceptsScopes_empty {ms : List (Str × Json)} {payload v : Json}
    (h : AcceptsScopes nfc sha256 ms payload false v) : ¬OfClasses nfc ∅ v := by
  rintro ⟨sc, hsc, hclasses⟩
  rcases (v2Scopes_eq_ok nfc).mp h.scopes.2.1 with ⟨sc', rfl, _, hempty, _⟩
  rw [strings?_eq_some.mpr rfl, Option.some.injEq] at hsc
  subst hsc
  rw [Finset.image_empty, List.toFinset_eq_empty_iff, List.map_eq_nil_iff] at hclasses
  exact Bool.noConfusion (hempty hclasses)

end

/-!
### Identity
-/

/--
References identify actions. A digest belongs to one function and one canonical object; the native
form does not depend on the order and the spelling of the scopes; and each finite set of classes of
scopes has one array that the second form accepts, the empty set only where it is permitted. A scope
with an unpaired surrogate is refused by both.
-/
theorem references_identify (nfc : Str → Str) (sha256 : HashFn 32) (hnfc : ∀ s, nfc (nfc s) = nfc s)
    : (∀ (a b : Call) (d : Str), a.WellFormed → b.WellFormed → a.digest nfc sha256 = .ok d →
        b.digest nfc sha256 = .ok d →
        (a.function = b.function ∧ ∃ v w, a.canonical nfc = .ok v ∧ b.canonical nfc = .ok w ∧
            v.sortKeys = w.sortKeys) ∨
          Collides sha256 (a.messages nfc ++ b.messages nfc)) ∧
      (∀ (ms : List (Str × Json)) (sc sc' : List Str) (reject normalize : Bool),
        ((sc.map nfc).Perm (sc'.map nfc) →
          ((∀ x ∈ sc, Str.Scalar x) ↔ ∀ x ∈ sc', Str.Scalar x) →
          actionRefNative01 nfc sha256
              (.obj (Assoc.replace (txt "scopeRequired") (.arr (sc.map .str)) ms)) reject normalize =
            actionRefNative01 nfc sha256
              (.obj (Assoc.replace (txt "scopeRequired") (.arr (sc'.map .str)) ms)) reject
              normalize) ∧
          ((∃ x ∈ sc, ¬Str.Scalar x) → ¬∃ d, actionRefNative01 nfc sha256
            (.obj (Assoc.replace (txt "scopeRequired") (.arr (sc.map .str)) ms)) reject normalize
              = .ok d)) ∧
      ∀ (ms : List (Str × Json)) (payload : Json) (permitted : Bool) (S : Finset Str),
        (ms.map Prod.fst).Nodup →
        (∃ permitted' v, AcceptsScopes nfc sha256 ms payload permitted' v) →
        (∀ s ∈ S, nfc s ≠ []) →
        if (S = ∅ → permitted = true) ∧ ∀ s ∈ S, Str.Scalar (nfc s) then
          ∃! v, AcceptsScopes nfc sha256 ms payload permitted v ∧ OfClasses nfc S v
        else
          ¬∃ v, AcceptsScopes nfc sha256 ms payload permitted v ∧ OfClasses nfc S v := by
  refine ⟨fun a b d ha hb hda hdb => Call.separated nfc sha256 ha hb hda hdb,
    fun ms sc sc' reject normalize => ⟨fun hperm hscalar => ?_, fun hunpaired => ?_⟩,
    fun ms payload permitted S hnodup hms hS => ?_⟩
  . exact actionRefNative01_congr nfc sha256 hperm hscalar ms reject normalize
  . exact not_actionRefNative01_of_unpaired nfc sha256 hunpaired ms reject normalize
  . split
    . next h => exact existsUnique_scopes hnfc hnodup hms (fun s hs => ⟨hS s hs, h.2 s hs⟩) h.1
    . next h =>
      rintro ⟨v, hv, hclasses⟩
      refine h ⟨fun hempty => ?_, scalar_of_ofClasses hv hclasses⟩
      rw [← Bool.not_eq_false]
      rintro rfl
      exact not_acceptsScopes_empty hv (hempty ▸ hclasses)

def exampleAction : List (Str × Json) :=
  [(txt "profile", .str (txt "aps-action-ref-v2")),
    (txt "agent_id", .str (txt "agent-1")),
    (txt "action_type", .str (txt "transfer")),
    (txt "target", .str (txt "account-7")),
    (txt "payload_ref", .str (List.replicate 64 (.ofChar 'a'))),
    (txt "scope_required", .arr []),
    (txt "issued_at", .str (txt "2026-10-03T12:00:00.000Z")),
    (txt "nonce", .str (List.replicate 32 (.ofChar '0')))]

theorem acceptsScopes_exampleAction
    : AcceptsScopes id sha256 exampleAction .null true (.arr []) := by
  refine acceptsScopes (by decide) ?_ ?_ ?_
  . decide +kernel
  . decide
  . decide

theorem references_identify_example
    : ∃! v, AcceptsScopes id sha256 exampleAction .null false v ∧
        OfClasses id {txt "pay", txt "read"} v := by
  have h := (references_identify id sha256 fun _ => rfl).2.2 exampleAction .null false
    {txt "pay", txt "read"} (by decide) ⟨true, _, acceptsScopes_exampleAction⟩ (by decide)
  rwa [if_pos (by decide)] at h

/--
Without permission no array is accepted for the empty set of scopes, and for a surrogate none at all.
-/
theorem references_identify_counterexample
    : (∃ v, AcceptsScopes id sha256 exampleAction .null true v) ∧
        (¬∃ v, AcceptsScopes id sha256 exampleAction .null false v ∧ OfClasses id ∅ v) ∧
        ¬∃ v, AcceptsScopes id sha256 exampleAction .null true v ∧ OfClasses id {[0xd800]} v := by
  refine ⟨⟨_, acceptsScopes_exampleAction⟩, ?_, ?_⟩
  . rintro ⟨v, hv, hclasses⟩
    exact not_acceptsScopes_empty hv hclasses
  . rintro ⟨v, hv, hclasses⟩
    exact absurd (scalar_of_ofClasses hv hclasses [0xd800] (Finset.mem_singleton_self _)) (by decide)

end Aps
end CryptoValid
