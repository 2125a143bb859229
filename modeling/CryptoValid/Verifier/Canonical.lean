import CryptoValid.Lib.Json.Same
import CryptoValid.Verifier.Extend

/-!
This module contains that the canonical payload is a normal form of the objects that the strict loader
accepts: it is loaded again as the same object without the attestation fields.
-/

namespace CryptoValid
namespace Verifier

theorem uniqueKeys_of_inProfile (v : Json) (h : InProfile v) : Json.UniqueKeys v := by
  cases v with
  | obj ms => exact h.1
  | _ => trivial

theorem depth_withoutAttestation {e : Entry} {n : Nat} (h : (Json.obj e).depth ≤ n)
    : (Json.obj (withoutAttestation e)).depth ≤ n := by
  refine Nat.le_trans (Nat.succ_le_succ ?_) h
  rw [Json.depthMembers_le_iff]
  exact fun m hm => Json.depth_le_depthMembers (List.mem_of_mem_filter hm)

/--
The payload is printable text, and this text loads as the members that are hashed, in order.
-/
theorem loadsStrict_canonicalPayload {text : Str} {e : Entry} (h : loadsStrict text = .ok (.obj e))
    : ∃ s ms, Utf8.decode? (canonicalPayload e) = some s ∧ loadsStrict s = .ok (.obj ms) ∧
        (Json.obj (withoutAttestation e)).sortKeys = .obj ms := by
  have hprofile := inProfile_sortKeys (inProfile_withoutAttestation (inProfile_of_loadsStrict h))
  have hdepth : (Json.obj (withoutAttestation e)).sortKeys.depth ≤ maxJsonDepth := by
    rw [Json.depth_sortKeys]
    exact depth_withoutAttestation (depth_of_loadsStrict h)
  have hprintable := Json.printable_dumps _ (hprofile.imp notFloat_of_inProfile)
  have hload := loadsStrict_dumps hprofile hdepth [] [] rfl rfl
  rw [List.nil_append, List.append_nil] at hload
  refine ⟨(Json.obj (withoutAttestation e)).canonical, _, ?_, ?_, Json.sortKeys_obj _⟩
  . exact Utf8.decodeWith_flatMap_encodePoint _ _ _ (Or.inr (Json.printable_scalar hprintable))
  . rw [← Json.sortKeys_obj]
    exact hload

theorem withoutAttestation_of_hashed {e : Entry} (h : ∀ m ∈ e, hashed m.1 = true)
    : withoutAttestation e = e := List.filter_eq_self.mpr h

theorem canonicalPayload_withoutAttestation (e : Entry)
    : canonicalPayload (withoutAttestation e) = canonicalPayload e := by
  rw [canonicalPayload, canonicalPayload, payloadOf, payloadOf, withoutAttestation_of_hashed]
  exact fun m hm => (List.mem_filter.mp hm).2

/--
Equal payloads are those of equal values, fields of attestation aside.
-/
theorem canonicalPayload_eq_iff {e e' : Entry} (h : Json.All InProfile (.obj e))
    (h' : Json.All InProfile (.obj e'))
    : canonicalPayload e = canonicalPayload e' ↔
        Json.same (.obj (withoutAttestation e)) (.obj (withoutAttestation e')) = true := by
  have hprofile := inProfile_withoutAttestation h
  have hprofile' := inProfile_withoutAttestation h'
  rw [Json.same_iff (hprofile.imp uniqueKeys_of_inProfile) (hprofile'.imp uniqueKeys_of_inProfile)]
  constructor
  . intro heq
    exact canonical_inj hprofile hprofile' (Utf8.flatMap_encodePoint_inj heq)
  . intro heq
    rw [canonicalPayload, canonicalPayload, payloadOf, payloadOf, Json.canonical, Json.canonical, heq]

theorem lookup_withoutAttestation (e : Entry) (key : Str)
    : Assoc.lookup key (withoutAttestation e)
        = if hashed key then Assoc.lookup key e else none :=
  Assoc.lookup_filter key hashed e

/--
The canonical payload of an accepted object loads as this object without the excluded fields, which
are dropped nowhere but at the top; it is the payload of what is loaded; and equal payloads are those
of equal values.
-/
theorem canonicalPayload_faithful (text : Str) (e : Entry) (h : loadsStrict text = .ok (.obj e))
    : (∃ s ms, Utf8.decode? (canonicalPayload e) = some s ∧ loadsStrict s = .ok (.obj ms) ∧
        Json.same (.obj ms) (.obj (withoutAttestation e)) = true ∧
        canonicalPayload ms = canonicalPayload e ∧
        ∀ key, Assoc.lookup key ms
          = if hashed key then (Assoc.lookup key e).map Json.sortKeys else none) ∧
      ∀ text' e', loadsStrict text' = .ok (.obj e') →
        (canonicalPayload e = canonicalPayload e' ↔
          Json.same (.obj (withoutAttestation e)) (.obj (withoutAttestation e')) = true) := by
  have hprofile := inProfile_of_loadsStrict h
  have hwithout := inProfile_withoutAttestation hprofile
  have hnodup := (Json.All.self hwithout).1
  refine ⟨?_, fun text' e' h' => canonicalPayload_eq_iff hprofile (inProfile_of_loadsStrict h')⟩
  rcases loadsStrict_canonicalPayload h with ⟨s, ms, hdecode, hload, hsort⟩
  refine ⟨s, ms, hdecode, hload, ?_, ?_, fun key => ?_⟩
  . have hloaded := (inProfile_of_loadsStrict hload).imp uniqueKeys_of_inProfile
    rw [Json.same_iff hloaded (hwithout.imp uniqueKeys_of_inProfile), ← hsort, Json.sortKeys_sortKeys]
  . rw [canonicalPayload_sortKeys hsort hnodup, canonicalPayload_withoutAttestation]
  . rw [lookup_sortKeys hsort hnodup, lookup_withoutAttestation]
    split <;> rfl

/--
`{"b": [], "signature": {}, "a": {"signature": 1}}` loses the field at the top only.
-/
def exampleObject : Entry := [
  (txt "b", .arr []), (txt "signature", .obj []),
  (txt "a", .obj [(txt "signature", .int 1)])]

theorem canonicalPayload_faithful_exampleObject
    : (∃ s ms, Utf8.decode? (canonicalPayload exampleObject) = some s ∧
        loadsStrict s = .ok (.obj ms) ∧
        Json.same (.obj ms) (.obj (withoutAttestation exampleObject)) = true ∧
        canonicalPayload ms = canonicalPayload exampleObject ∧
        ∀ key, Assoc.lookup key ms
          = if hashed key then (Assoc.lookup key exampleObject).map Json.sortKeys else none) ∧
      ∀ text' e', loadsStrict text' = .ok (.obj e') →
        (canonicalPayload exampleObject = canonicalPayload e' ↔
          Json.same (.obj (withoutAttestation exampleObject)) (.obj (withoutAttestation e')) = true) :=
  canonicalPayload_faithful (Json.dumps true (.obj exampleObject)) exampleObject (by decide +kernel)

end Verifier
end CryptoValid
