import CryptoValid.Lib.Python
import CryptoValid.Profile

/-!
This module contains the strict loader of `verifier.py`, and that what it returns is inside the
profile.
-/

namespace CryptoValid
namespace Verifier

/--
The exceptions of `_loads_strict`; all but the last one are a `ValueError`.
-/
inductive LoadError where
  | tooDeep (nesting : Int)
  | notUtf8
  | loneSurrogate
  | decode
  | duplicateKey (key : Str)
  | float (text : Str)
  | intRange (text : Str)
  | constant (name : Str)
  | recursion
  deriving DecidableEq

def rejectDup (pairs : List (Str × Json)) : Except LoadError (List (Str × Json)) := go [] pairs
where
  go (seen : List (Str × Json)) : List (Str × Json) → Except LoadError (List (Str × Json))
    | [] => .ok seen
    | (k, v) :: rest =>
      match Assoc.lookup k seen with
      | some _ => .error (.duplicateKey k)
      | none => go (seen ++ [(k, v)]) rest

def boundedInt (text : Str) : Except LoadError Int :=
  let n := Json.intOfText text
  if safeInt < n.natAbs then .error (.intRange text) else .ok n

/--
The decoder recurses once for each bracket, and there is headroom for all that pass the scan.
-/
def hooks : Json.Hooks LoadError where
  syntaxError := .decode
  recursionError := .recursion
  parseInt := boundedInt
  parseFloat text := .error (.float text)
  parseConstant name := .error (.constant name)
  objectPairs := rejectDup
  lone := id
  maxDepth := maxJsonDepth

def jsonNestingDepth (text : Str) : Int := Json.nestingDepth text

def hasLoneSurrogate (text : Str) : Bool := Json.hasLoneSurrogate Python.int16 text

def loadsStrict (text : Str) : Except LoadError Json :=
  let d := jsonNestingDepth text
  if (maxJsonDepth : Int) < d then .error (.tooDeep d)
  else if text.any CodePoint.isSurrogate then .error .notUtf8
  else if hasLoneSurrogate text then .error .loneSurrogate
  else Json.loads hooks text

theorem rejectDup_eq_ok {pairs ms : List (Str × Json)} (h : rejectDup pairs = .ok ms)
    : ms = pairs ∧ (pairs.map Prod.fst).Nodup := by
  have hgo : ∀ (rest seen : List (Str × Json)), (seen.map Prod.fst).Nodup →
      rejectDup.go seen rest = .ok ms →
      ms = seen ++ rest ∧ ((seen ++ rest).map Prod.fst).Nodup := by
    intro rest
    induction rest with
    | nil =>
      intro seen hnodup h
      rw [List.append_nil]
      exact ⟨(Except.ok.inj h).symm, hnodup⟩
    | cons m rest ih =>
      intro seen hnodup h
      rcases m with ⟨k, v⟩
      rw [rejectDup.go] at h
      split at h
      . simp at h
      . next hnone =>
        rw [Assoc.lookup_eq_none_iff] at hnone
        have hnodup' : ((seen ++ [(k, v)]).map Prod.fst).Nodup := by
          rw [List.map_append, List.nodup_append]
          refine ⟨hnodup, by simp, ?_⟩
          rintro a ha b hb rfl
          simp only [List.map_cons, List.map_nil, List.mem_singleton] at hb
          exact hnone (hb ▸ ha)
        have hrest := ih (seen ++ [(k, v)]) hnodup' h
        rwa [List.append_assoc] at hrest
  exact hgo pairs [] (by simp) h

/--
The text that is left has proper characters only, and no lone surrogate escape.
-/
def Clean (text : Str) : Prop := Str.Scalar text ∧ hasLoneSurrogate text = false

theorem invariant_hooks
    : Json.Invariant hooks Clean Str.Scalar fun n v => Json.All InProfile v ∧ v.depth ≤ n where
  skip c s hc h := by
    refine ⟨((Str.scalar_cons c s).mp h.1).2, ?_⟩
    have hlone := h.2
    rwa [hasLoneSurrogate, Json.hasLoneSurrogate_cons hc] at hlone
  string s t rest h hs := Json.scanString_scalar Python.readsHex_int16 h hs.1 hs.2
  null n := ⟨trivial, Nat.zero_le n⟩
  bool n b := ⟨trivial, Nat.zero_le n⟩
  int n text i h := by
    simp only [hooks, boundedInt] at h
    split at h
    . simp at h
    . next hle =>
      rw [← Except.ok.inj h]
      exact ⟨Nat.not_lt.mp hle, Nat.zero_le n⟩
  float n text x h := by simp [hooks] at h
  constant n text x h := by simp [hooks] at h
  str n t ht := ⟨ht, Nat.zero_le n⟩
  arr n xs h := by
    rw [Json.all_arr]
    refine ⟨⟨trivial, fun x hx => (h x hx).1⟩, Nat.succ_le_succ ?_⟩
    exact (Json.depthElems_le_iff xs n).mpr fun x hx => (h x hx).2
  obj n ms ms' h hpairs := by
    rcases rejectDup_eq_ok hpairs with ⟨rfl, hnodup⟩
    rw [Json.all_obj]
    refine ⟨⟨⟨hnodup, fun m hm => (h m hm).1⟩, fun m hm => (h m hm).2.1⟩, Nat.succ_le_succ ?_⟩
    exact (Json.depthMembers_le_iff _ n).mpr fun m hm => (h m hm).2.2

/--
Whatever the text is, a loaded value is inside the profile, and nested no deeper than the bound.
-/
theorem loadsStrict_sound {text : Str} {v : Json} (h : loadsStrict text = .ok v)
    : Json.All InProfile v ∧ v.depth ≤ maxJsonDepth := by
  simp only [loadsStrict] at h
  split at h
  . simp at h
  split at h
  . simp at h
  . next hraw =>
    split at h
    . simp at h
    . next hlone =>
      refine Json.loads_sound invariant_hooks h ⟨?_, by simpa using hlone⟩
      intro c hc
      simp only [List.any_eq_true, not_exists, not_and, Bool.not_eq_true] at hraw
      exact hraw c hc

theorem inProfile_of_loadsStrict {text : Str} {v : Json} (h : loadsStrict text = .ok v)
    : Json.All InProfile v := (loadsStrict_sound h).1

theorem depth_of_loadsStrict {text : Str} {v : Json} (h : loadsStrict text = .ok v)
    : v.depth ≤ maxJsonDepth := (loadsStrict_sound h).2

end Verifier
end CryptoValid
