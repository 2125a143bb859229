import CryptoValid.Aps.References

/-!
This module contains the proof that a digest belongs to one function and one canonical object: what is
hashed by the four functions is pairwise apart.
-/

namespace CryptoValid
namespace Aps

open Acta (jcs JcsError Plain InRange)

/-!
### The members that are accepted
-/

theorem hasExactly_iff {names : List Str} {ms : List (Str × Json)}
    : hasExactly names ms = true ↔
        (∀ n ∈ names, n ∈ ms.map Prod.fst) ∧ ∀ m ∈ ms, m.1 ∈ names := by
  rw [hasExactly, Bool.and_eq_true, List.all_eq_true, List.all_eq_true, List.forall_mem_map]
  simp only [decide_eq_true_eq]

theorem get_of_mem {ms : List (Str × Json)} (hnodup : (ms.map Prod.fst).Nodup) {m : Str × Json}
    (hm : m ∈ ms) : get ms m.1 = m.2 := by
  rw [get, Assoc.lookup_of_mem hnodup hm, Option.getD_some]

theorem get_replace_self {ms : List (Str × Json)} {k : Str} (hk : k ∈ ms.map Prod.fst) (v : Json)
    : get (Assoc.replace k v ms) k = v := by
  rw [get, Assoc.lookup_replace, if_pos rfl]
  cases hlookup : Assoc.lookup k ms with
  | none => exact absurd hk ((Assoc.lookup_eq_none_iff k ms).mp hlookup)
  | some w => rfl

theorem get_replace_of_ne {k n : Str} (h : n ≠ k) (v : Json) (ms : List (Str × Json))
    : get (Assoc.replace k v ms) n = get ms n := by
  rw [get, get, Assoc.lookup_replace, if_neg h]

theorem noLoneSurrogate_eq_ok {s what : Str}
    : noLoneSurrogate s what = .ok () ↔ Str.Scalar s := by
  unfold noLoneSurrogate
  split
  . next h => simp only [h]
  . next h => simp only [h, reduceCtorEq]

theorem forM_noLoneSurrogate_eq_ok {sc : List Str} {what : Str}
    : (sc.forM fun x => noLoneSurrogate x what) = .ok () ↔ ∀ x ∈ sc, Str.Scalar x := by
  rw [Except.forM_eq_ok]
  exact forall₂_congr fun _ _ => noLoneSurrogate_eq_ok

theorem strings_eq_ok {ms : List (Str × Json)} {names : List Str} {what : Str}
    : strings ms names what = .ok () ↔
        ∀ n ∈ names, ∃ s, get ms n = .str s ∧ s ≠ [] ∧ Str.Scalar s := by
  rw [strings, Except.forM_eq_ok]
  refine forall₂_congr fun n _ => ?_
  dsimp only
  split
  . next s hs =>
    split
    . next hempty => simp [hs, hempty]
    . next hempty => simp [hs, hempty, noLoneSurrogate_eq_ok]
  . next hs =>
    simp only [reduceCtorEq, false_iff]
    rintro ⟨s, hget, _⟩
    exact hs s hget

/--
A string or an array of strings.
-/
def Flat (v : Json) : Prop := (∃ s, v = .str s) ∨ ∃ sc, strings? v = some sc

theorem strings?_eq_some {v : Json} {sc : List Str}
    : strings? v = some sc ↔ v = .arr (sc.map .str) := by
  cases v with
  | arr xs =>
    rw [strings?, Option.mapM_eq_some, Json.arr.injEq]
    constructor
    . intro h
      induction h with
      | nil => rfl
      | @cons x s xs sc hx _ ih =>
        rw [List.map_cons, ih]
        congr 1
        cases x <;> simp_all
    . rintro rfl
      induction sc with
      | nil => exact .nil
      | cons s sc ih => exact .cons rfl ih
  | _ => simp [strings?]

/--
What is hashed has neither floats, integers out of range nor names that are twice there.
-/
def Exact (v : Json) : Prop := Json.NotFloat v ∧ InRange v ∧ Json.UniqueKeys v

theorem Flat.exact {v : Json} (h : Flat v) : v.All Exact := by
  rcases h with ⟨s, rfl⟩ | ⟨sc, hsc⟩
  . exact ⟨trivial, trivial, trivial⟩
  . rw [strings?_eq_some.mp hsc, Json.all_arr]
    refine ⟨⟨trivial, trivial, trivial⟩, fun x hx => ?_⟩
    rcases List.mem_map.mp hx with ⟨s, _, rfl⟩
    exact ⟨trivial, trivial, trivial⟩

theorem exact_of_flat {names : List Str} {ms : List (Str × Json)} (hnodup : (ms.map Prod.fst).Nodup)
    (hexact : hasExactly names ms = true) (hflat : ∀ n ∈ names, Flat (get ms n))
    : (Json.obj ms).All Exact := by
  rw [Json.all_obj]
  refine ⟨⟨trivial, trivial, hnodup⟩, fun m hm => ?_⟩
  rw [← get_of_mem hnodup hm]
  exact (hflat m.1 ((hasExactly_iff.mp hexact).2 m hm)).exact

theorem hasExactly_replace (names : List Str) (k : Str) (v : Json) (ms : List (Str × Json))
    : hasExactly names (Assoc.replace k v ms) = hasExactly names ms := by
  rw [hasExactly, hasExactly, Assoc.map_fst_replace]

theorem normalized_eq_ok {ms ns : List (Str × Json)} {normalize : Bool}
    (h : normalized ms normalize = .ok ns) : ns.map Prod.fst = ms.map Prod.fst := by
  unfold normalized at h
  split at h
  . rcases Except.map_eq_ok.mp h with ⟨ts, _, rfl⟩
    rw [Assoc.map_fst_replace]
  . cases h
    rfl

theorem nativeFields_eq_ok {obj : Json} {normalize : Bool} {ms : List (Str × Json)}
    (h : nativeFields obj normalize = .ok ms)
    : ∃ ns, obj = .obj ns ∧ ms.map Prod.fst = ns.map Prod.fst ∧ hasExactly nativeMembers ms = true ∧
        ∀ n ∈ [txt "agentId", txt "actionType", txt "timestamp"], ∃ s, get ms n = .str s := by
  cases obj with
  | obj ns =>
    unfold nativeFields at h
    dsimp only at h
    split at h
    . cases h
    . next hexact =>
      rcases Except.bind_eq_ok.mp h with ⟨ms', hms, h⟩
      rcases Except.bind_eq_ok.mp h with ⟨_, hstrings, h⟩
      split at h
      . cases h
      . have hnames := normalized_eq_ok hms
        rw [Except.pure_eq_ok] at h
        subst h
        refine ⟨ns, rfl, hnames, ?_, fun n hn => ?_⟩
        . rw [Bool.not_eq_true, Bool.not_eq_false'] at hexact
          rw [← hexact, hasExactly, hasExactly, hnames]
        . rcases strings_eq_ok.mp hstrings n hn with ⟨s, hs, _⟩
          exact ⟨s, hs⟩
  | _ => cases h

theorem v2Fields_eq_ok {obj : Json} {ms : List (Str × Json)} (h : v2Fields obj = .ok ms)
    : obj = .obj ms ∧ hasExactly v2Members ms = true ∧
        ∀ n ∈ v2Members, n ≠ txt "scope_required" → ∃ s, get ms n = .str s ∧ Str.Scalar s := by
  cases obj with
  | obj ns =>
    unfold v2Fields at h
    dsimp only at h
    split at h
    . cases h
    . next hexact =>
      split at h
      . cases h
      . next hprofile =>
        rcases Except.bind_eq_ok.mp h with ⟨_, hstrings, h⟩
        split at h
        . cases h
        . split at h
          . cases h
          . rw [Except.pure_eq_ok] at h
            subst h
            rw [Bool.not_eq_true, Bool.not_eq_false'] at hexact
            rw [ne_eq, not_not] at hprofile
            refine ⟨rfl, hexact, fun n hn hscope => ?_⟩
            by_cases hn' : n = txt "profile"
            . exact ⟨_, hn' ▸ hprofile, by decide⟩
            . rcases strings_eq_ok.mp hstrings n (by simp_all [v2Members]) with ⟨s, hs, _, hscalar⟩
              exact ⟨s, hs, hscalar⟩
  | _ => cases h

theorem externalFields_eq_ok {obj : Json} {ms : List (Str × Json)} (h : externalFields obj = .ok ms)
    : obj = .obj ms ∧ hasExactly externalMembers ms = true ∧
        ∀ n ∈ externalMembers, ∃ s, get ms n = .str s := by
  cases obj with
  | obj ns =>
    unfold externalFields at h
    dsimp only at h
    split at h
    . cases h
    . next hexact =>
      rcases Except.bind_eq_ok.mp h with ⟨_, hstrings, h⟩
      split at h
      . cases h
      . rw [Except.pure_eq_ok] at h
        subst h
        rw [Bool.not_eq_true, Bool.not_eq_false'] at hexact
        refine ⟨rfl, hexact, fun n hn => ?_⟩
        rw [Except.forM_eq_ok] at hstrings
        have hstr := hstrings n hn
        split at hstr
        . next s hs => exact ⟨s, hs⟩
        . cases hstr
  | _ => cases h

theorem v2Scopes_eq_ok (nfc : Str → Str) {v : Json} {permitted : Bool}
    : v2Scopes nfc v permitted = .ok () ↔
        ∃ sc, v = .arr (sc.map .str) ∧ (∀ x ∈ sc, x ≠ [] ∧ Str.Scalar x) ∧
          (sc = [] → permitted = true) ∧ sc = canonicalScopes nfc sc := by
  unfold v2Scopes
  cases hsc : (strings? v).filter fun sc => sc.all (· ≠ []) with
  | none =>
    simp only [throw, throwThe, MonadExceptOf.throw, reduceCtorEq, false_iff]
    rintro ⟨sc, hv, hall, _⟩
    rw [strings?_eq_some.mpr hv, Option.filter_eq_none_iff] at hsc
    refine hsc sc rfl (List.all_eq_true.mpr fun x hx => ?_)
    simpa using (hall x hx).1
  | some sc =>
    rw [Option.filter_eq_some_iff, strings?_eq_some, List.all_eq_true] at hsc
    rcases hsc with ⟨rfl, hnonempty⟩
    have hunique : ∀ sc', Json.arr (sc.map .str) = .arr (sc'.map .str) → sc = sc' := fun sc' h =>
      Option.some_inj.mp ((strings?_eq_some.mpr rfl).symm.trans (strings?_eq_some.mpr h))
    dsimp only
    constructor
    . intro h
      split at h
      . cases h
      . next hempty =>
        rcases Except.bind_eq_ok.mp h with ⟨_, hscalar, h⟩
        split at h
        . cases h
        . next hcanonical =>
          rw [forM_noLoneSurrogate_eq_ok] at hscalar
          refine ⟨sc, rfl, fun x hx => ⟨by simpa using hnonempty x hx, hscalar x hx⟩, fun hsc => ?_,
            not_not.mp hcanonical⟩
          rw [← Bool.not_eq_false]
          exact fun hpermitted => hempty ⟨hsc, hpermitted⟩
    . rintro ⟨sc', hsc', hall, hempty, hcanonical⟩
      obtain rfl := hunique sc' hsc'
      rw [if_neg (fun ⟨hsc, hpermitted⟩ => Bool.noConfusion ((hempty hsc).symm.trans hpermitted)),
        forM_noLoneSurrogate_eq_ok.mpr fun x hx => (hall x hx).2, Except.ok_bind,
        if_neg (not_not.mpr hcanonical)]
      rfl

theorem jcs_obj {ms : List (Str × Json)} {b : Bytes} (h : jcs (.obj ms) = .ok b)
    : b.head? = some 0x7b := by
  rcases Except.bind_eq_ok.mp h with ⟨t, ht, hencode⟩
  rw [Acta.enc] at ht
  split at ht
  . cases ht
  . rcases Except.bind_eq_ok.mp ht with ⟨ps, _, ht⟩
    rw [← Except.pure_eq_ok.mp ht, Utf8.encode?] at hencode
    split at hencode
    . next heq =>
      split at heq
      . cases heq
      . cases hencode
    . next b' heq =>
      split at heq
      . cases heq
        cases hencode
        rfl
      . cases heq

/-!
### Calls
-/

inductive Function where
  | native
  | payload
  | v2
  | external
  deriving DecidableEq

/--
What comes before the canonical JSON.
-/
def Function.domain : Function → Bytes
  | .payload => payloadPrefix
  | .v2 => refPrefix
  | _ => []

/--
The names of what is hashed; a payload can be anything.
-/
def Function.members : Function → List Str
  | .native => nativeMembers
  | .v2 => v2Members
  | .external => externalMembers
  | .payload => []

/--
What the function hashes.
-/
structure Function.Suits (f : Function) (v : Json) : Prop where
  exact : v.All Exact
  members : f ≠ .payload → ∃ ms, v = .obj ms ∧ hasExactly f.members ms = true

namespace Function

theorem domain_eq_nil_iff {f : Function} : f.domain = [] ↔ f = .native ∨ f = .external := by
  cases f <;> decide

theorem domain_head {f : Function} (h : f.domain ≠ []) : f.domain.head? = some 0x41 := by
  cases f with
  | native => exact absurd rfl h
  | external => exact absurd rfl h
  | payload => decide
  | v2 => decide

/--
The prefixes differ in their twelfth byte.
-/
theorem domain_take {f : Function} (h : f.domain ≠ []) (b : Bytes)
    : (f.domain ++ b).take 12 = f.domain.take 12 := by
  refine List.take_append_of_le_length ?_
  cases f with
  | native => exact absurd rfl h
  | external => exact absurd rfl h
  | payload => decide
  | v2 => decide

theorem Suits.names_ne {v w : Json} (hv : Suits .native v) (hw : Suits .external w)
    : v.sortKeys ≠ w.sortKeys := by
  rcases hv.members (by decide) with ⟨ms, rfl, hms⟩
  rcases hw.members (by decide) with ⟨ns, rfl, hns⟩
  intro h
  have hlookup := Json.lookup_of_sortKeys_eq hv.exact.self.2.2 hw.exact.self.2.2 h (txt "agentId")
  have hnone : Assoc.lookup (txt "agentId") ns = none := by
    rw [Assoc.lookup_eq_none_iff]
    intro hmem
    rcases List.mem_map.mp hmem with ⟨m, hm, hname⟩
    exact absurd (hname ▸ (hasExactly_iff.mp hns).2 m hm) (by decide)
  rw [hnone, Option.map_none, Option.map_eq_none_iff, Assoc.lookup_eq_none_iff] at hlookup
  exact hlookup ((hasExactly_iff.mp hms).1 _ (by decide))

/--
A raw object starts with a brace, a prefix does not.
-/
theorem Suits.bytes_ne {f g : Function} {v : Json} (hv : f.Suits v) (hf : f.domain = [])
    (hg : g.domain ≠ []) {x : Bytes} (hx : jcs v = .ok x) (y : Bytes)
    : f.domain ++ x ≠ g.domain ++ y := by
  rcases hv.members (by rintro rfl; exact absurd hf (by decide)) with ⟨ms, rfl, _⟩
  intro h
  have hhead := congrArg List.head? h
  rw [hf, List.nil_append, jcs_obj hx, List.head?_append, domain_head hg,
    Option.some_or] at hhead
  exact absurd hhead (by decide)

theorem eq_of_bytes {f g : Function} {v w : Json} (hv : f.Suits v) (hw : g.Suits w) {x y : Bytes}
    (hx : jcs v = .ok x) (hy : jcs w = .ok y) (h : f.domain ++ x = g.domain ++ y)
    : f = g ∧ v.sortKeys = w.sortKeys := by
  have hplain := Acta.plain_of_jcs hx hv.exact
  have hplain' := Acta.plain_of_jcs hy hw.exact
  have hsort : x = y → v.sortKeys = w.sortKeys := fun hxy =>
    (Acta.jcs_eq_iff hplain hplain').mp (by rw [hx, hy, hxy])
  by_cases hf : f.domain = []
  . by_cases hg : g.domain = []
    . rw [hf, hg, List.nil_append, List.nil_append] at h
      have hkeys := hsort h
      refine ⟨?_, hkeys⟩
      rcases domain_eq_nil_iff.mp hf with rfl | rfl
      . rcases domain_eq_nil_iff.mp hg with rfl | rfl
        . rfl
        . exact absurd hkeys (hv.names_ne hw)
      . rcases domain_eq_nil_iff.mp hg with rfl | rfl
        . exact absurd hkeys.symm (hw.names_ne hv)
        . rfl
    . exact absurd h (hv.bytes_ne hf hg hx y)
  . by_cases hg : g.domain = []
    . exact absurd h.symm (hw.bytes_ne hg hf hy x)
    . have htake := congrArg (List.take 12) h
      rw [domain_take hf, domain_take hg] at htake
      have hfg : f = g := by
        revert hf hg htake
        cases f <;> cases g <;> decide
      subst hfg
      exact ⟨rfl, hsort (List.append_cancel_left h)⟩

end Function

inductive Call where
  | native (obj : Json) (rejectDuplicateScopes normalize : Bool)
  | payload (payload : Json)
  | v2 (obj payload : Json) (emptyScopePermitted : Bool)
  | external (obj : Json)

namespace Call

def function : Call → Function
  | .native .. => .native
  | .payload _ => .payload
  | .v2 .. => .v2
  | .external _ => .external

/--
The argument is made of dictionaries, which have no name twice; a payload has neither floats nor integers
out of range.
-/
def WellFormed : Call → Prop
  | .native obj _ _ => obj.All Json.UniqueKeys
  | .payload p => p.All Exact
  | .v2 obj _ _ => obj.All Json.UniqueKeys
  | .external obj => obj.All Json.UniqueKeys

section

variable (nfc : Str → Str) (sha256 : HashFn 32)

def digest : Call → Except ApsError Str
  | .native obj reject normalize => (actionRefNative01 nfc sha256 obj reject normalize).map Prod.fst
  | .payload p => payloadRefV2 sha256 p
  | .v2 obj p permitted => actionRefV2 nfc sha256 obj p permitted
  | .external obj => externalActionRef sha256 obj

/--
The native form has its scopes in canonical order; the others are hashed as they are given.
-/
def canonical : Call → Except ApsError Json
  | .native obj reject normalize => (nativeCanonical nfc obj reject normalize).map Prod.fst
  | .payload p => .ok p
  | .v2 obj _ _ => .ok obj
  | .external obj => .ok obj

/--
What is hashed.
-/
def messages (c : Call) : List Bytes :=
  match c.canonical nfc >>= jcsOf with
  | .ok b => [c.function.domain ++ b]
  | .error _ => []

theorem of_digest {c : Call} {d : Str} (h : c.digest nfc sha256 = .ok d)
    : ∃ v b, c.canonical nfc = .ok v ∧ jcsOf v = .ok b ∧
        d = hexdigest sha256 (c.function.domain ++ b) := by
  cases c with
  | native obj reject normalize =>
    rcases Except.map_eq_ok.mp h with ⟨⟨d', scopes⟩, href, hd⟩
    rcases Except.bind_eq_ok.mp href with ⟨⟨v, scopes'⟩, hcanonical, href⟩
    rcases Except.bind_eq_ok.mp href with ⟨b, hb, href⟩
    refine ⟨v, b, Except.map_eq_ok.mpr ⟨_, hcanonical, rfl⟩, hb, ?_⟩
    exact hd ▸ (congrArg Prod.fst (Except.pure_eq_ok.mp href)).symm
  | payload p =>
    rcases Except.bind_eq_ok.mp h with ⟨b, hb, h⟩
    exact ⟨p, b, rfl, hb, (Except.pure_eq_ok.mp h).symm⟩
  | v2 obj p permitted =>
    rcases Except.bind_eq_ok.mp h with ⟨ms, hms, h⟩
    rcases Except.bind_eq_ok.mp h with ⟨_, _, h⟩
    rcases Except.bind_eq_ok.mp h with ⟨_, _, h⟩
    rcases Except.bind_eq_ok.mp h with ⟨b, hb, h⟩
    rw [← (v2Fields_eq_ok hms).1] at hb
    exact ⟨obj, b, rfl, hb, (Except.pure_eq_ok.mp h).symm⟩
  | external obj =>
    rcases Except.bind_eq_ok.mp h with ⟨ms, hms, h⟩
    rcases Except.bind_eq_ok.mp h with ⟨b, hb, h⟩
    rw [← (externalFields_eq_ok hms).1] at hb
    exact ⟨obj, b, rfl, hb, (Except.pure_eq_ok.mp h).symm⟩

theorem suits_canonical {c : Call} {d : Str} (hc : c.WellFormed) (h : c.digest nfc sha256 = .ok d)
    {v : Json} (hv : c.canonical nfc = .ok v) : c.function.Suits v := by
  cases c with
  | native obj reject normalize =>
    rcases Except.map_eq_ok.mp hv with ⟨⟨w, scopes⟩, hw, hwv⟩
    rcases Except.bind_eq_ok.mp hw with ⟨ms, hms, hw⟩
    rcases Except.bind_eq_ok.mp hw with ⟨sc, hsc, hw⟩
    have hobj := (congrArg Prod.fst (Except.pure_eq_ok.mp hw)).trans hwv
    rcases nativeFields_eq_ok hms with ⟨ns, rfl, hnames, hexact, hstr⟩
    have hnodup : (ms.map Prod.fst).Nodup := hnames ▸ hc.self
    have hexact' := (hasExactly_replace nativeMembers (txt "scopeRequired")
      (.arr (sc.map .str)) ms).trans hexact
    subst hobj
    refine ⟨exact_of_flat (by rwa [Assoc.map_fst_replace]) hexact' fun n hn => ?_,
      fun _ => ⟨_, rfl, hexact'⟩⟩
    by_cases hscope : n = txt "scopeRequired"
    . subst hscope
      rw [get_replace_self ((hasExactly_iff.mp hexact).1 _ hn)]
      exact Or.inr ⟨sc, strings?_eq_some.mpr rfl⟩
    . rw [get_replace_of_ne hscope]
      exact Or.inl (hstr n (by simp_all [nativeMembers]))
  | payload p =>
    cases hv
    exact ⟨hc, fun h => absurd rfl h⟩
  | v2 obj p permitted =>
    cases hv
    rcases Except.bind_eq_ok.mp h with ⟨ms, hms, hrest⟩
    rcases Except.bind_eq_ok.mp hrest with ⟨_, hscopes, _⟩
    rcases v2Fields_eq_ok hms with ⟨rfl, hexact, hstr⟩
    refine ⟨exact_of_flat hc.self hexact fun n hn => ?_, fun _ => ⟨ms, rfl, hexact⟩⟩
    by_cases hscope : n = txt "scope_required"
    . rcases (v2Scopes_eq_ok nfc).mp hscopes with ⟨sc, hsc, _⟩
      exact Or.inr ⟨sc, strings?_eq_some.mpr (hscope ▸ hsc)⟩
    . exact Or.inl ((hstr n hn hscope).imp fun _ h => h.1)
  | external obj =>
    cases hv
    rcases Except.bind_eq_ok.mp h with ⟨ms, hms, _⟩
    rcases externalFields_eq_ok hms with ⟨rfl, hexact, hstr⟩
    exact ⟨exact_of_flat hc.self hexact fun n hn => Or.inl (hstr n hn),
      fun _ => ⟨ms, rfl, hexact⟩⟩

/--
A digest belongs to one function and to one canonical object, but for the order of its members.
-/
theorem separated {a b : Call} (ha : a.WellFormed) (hb : b.WellFormed) {d : Str}
    (hda : a.digest nfc sha256 = .ok d) (hdb : b.digest nfc sha256 = .ok d)
    : (a.function = b.function ∧ ∃ v w, a.canonical nfc = .ok v ∧ b.canonical nfc = .ok w ∧
          v.sortKeys = w.sortKeys) ∨
        Collides sha256 (a.messages nfc ++ b.messages nfc) := by
  rcases of_digest nfc sha256 hda with ⟨v, x, hv, hx, hd⟩
  rcases of_digest nfc sha256 hdb with ⟨w, y, hw, hy, hd'⟩
  have hmem : ∀ {c : Call} {u : Json} {z : Bytes}, c.canonical nfc = .ok u → jcsOf u = .ok z →
      c.messages nfc = [c.function.domain ++ z] := by
    intro c u z hu hz
    rw [messages, hu, Except.ok_bind, hz]
  have hsame := Hex.ofBytes_inj (hd.symm.trans hd')
  rw [hmem hv hx, hmem hw hy]
  have hmem' : a.function.domain ++ x ∈ [a.function.domain ++ x] ++ [b.function.domain ++ y] :=
    List.mem_cons_self
  rcases Collides.eq_or hmem' (by simp) hsame with hbytes | hcollides
  . have hx := Except.mapError_eq_ok.mp hx
    have hy := Except.mapError_eq_ok.mp hy
    have hsuits := suits_canonical nfc sha256 ha hda hv
    have hsuits' := suits_canonical nfc sha256 hb hdb hw
    rcases Function.eq_of_bytes hsuits hsuits' hx hy hbytes with ⟨hfunction, hkeys⟩
    exact Or.inl ⟨hfunction, v, w, hv, hw, hkeys⟩
  . exact Or.inr hcollides

end

end Call

end Aps
end CryptoValid
