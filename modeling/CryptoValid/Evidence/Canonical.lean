import CryptoValid.DoraIncident
import CryptoValid.TxEvidence.Attest

/-!
This module contains how far the attestations of `tx_evidence.py` and `dora_incident.py` depend on
canonical content alone.
-/

namespace CryptoValid
namespace Evidence

section

variable {u : Python.Unicode} {fromisoformat : Str → Option DoraIncident.Datetime}
variable {interp : Python.Interp} {sha3_256 : HashFn 32}

/--
All lists with the canonical sequence of a list of transactions have the same digest and the same cost
basis exactly when nothing is disposed of; two of them have, if identifiers, timestamps and the upper
case of the assets are written alike. Two lists of phases with one canonical sequence have the same
digest exactly when the timestamp of the classification is written alike.
-/
theorem attest_sameCanonical
    : (∀ {txs : List TxEvidence.Tx} {asOf : Str} {att : TxEvidence.Attestation},
        TxEvidence.attest u interp sha3_256 txs asOf = .ok att →
          ((∀ txs', TxEvidence.SameCanonical u txs txs' →
              TxEvidence.SameEvidence u interp sha3_256 att txs' asOf) ↔
            ∀ t ∈ txs, t.isDisposal u = false) ∧
          ∀ txs', TxEvidence.SameCanonical u txs txs' →
            List.Forall₂ (TxEvidence.SameWritten u) txs txs' →
              TxEvidence.SameEvidence u interp sha3_256 att txs' asOf) ∧
      ∀ {phases phases' : List DoraIncident.Phase} {incidentId asOf : Str}
          {att : DoraIncident.Attestation},
        DoraIncident.attest u fromisoformat interp sha3_256 phases incidentId asOf = .ok att →
        DoraIncident.SameCanonical u phases phases' →
          ((∃ att', DoraIncident.attest u fromisoformat interp sha3_256 phases' incidentId asOf
                = .ok att' ∧ att'.digest = att.digest) ↔
            (DoraIncident.classifiedMajor u phases').map DoraIncident.Phase.ts
              = (DoraIncident.classifiedMajor u phases).map DoraIncident.Phase.ts) ∨
          Collides sha3_256
            (DoraIncident.digestMessages u fromisoformat interp sha3_256 phases incidentId asOf ++
              DoraIncident.digestMessages u fromisoformat interp sha3_256 phases' incidentId
                asOf) := by
  refine ⟨fun h => ⟨TxEvidence.sameEvidence_iff h, fun txs' hsame hwritten => ?_⟩,
    fun h hsame => DoraIncident.sameDigest_iff h hsame⟩
  exact TxEvidence.sameEvidence_of_written h hsame hwritten

end

/-!
### A space after a field
-/

def exampleInterp : Python.Interp := ⟨1000, 1000, some 4300⟩

def exampleFromisoformat (s : Str) : Option DoraIncident.Datetime :=
  if s = txt "2026-01-01T00:00:00+00:00" then some ⟨1767225600000000, some 0⟩ else none

def exampleTxs (blank : Str) : List TxEvidence.Tx :=
  [⟨txt "t1" ++ blank, txt "sell", txt "BTC", txt "1", txt "10", txt "USD", txt "2026-01-01"⟩]

def examplePhases (blank : Str) : List DoraIncident.Phase :=
  [⟨txt "classified_major", txt "2026-01-01T00:00:00Z" ++ blank, .obj []⟩]

def txDigest (txs : List TxEvidence.Tx) : Option Str :=
  (TxEvidence.attest Python.Unicode.ascii exampleInterp sha3_256 txs []).toOption.map
    TxEvidence.Attestation.digest

def phasesDigest (phases : List DoraIncident.Phase) : Option Str :=
  (DoraIncident.attest Python.Unicode.ascii exampleFromisoformat exampleInterp sha3_256 phases []
    []).toOption.map DoraIncident.Attestation.digest

theorem sameCanonical_exampleTxs
    : TxEvidence.SameCanonical Python.Unicode.ascii (exampleTxs []) (exampleTxs (txt " ")) :=
  .cons (by decide +kernel) .nil

theorem sameCanonical_examplePhases
    : DoraIncident.SameCanonical Python.Unicode.ascii (examplePhases []) (examplePhases (txt " ")) :=
  .cons (by decide +kernel) .nil

theorem attest_sameCanonical_example
    : (∃ att, TxEvidence.attest Python.Unicode.ascii exampleInterp sha3_256 (exampleTxs []) [] = .ok att ∧
        ((∀ txs', TxEvidence.SameCanonical Python.Unicode.ascii (exampleTxs []) txs' →
            TxEvidence.SameEvidence Python.Unicode.ascii exampleInterp sha3_256 att txs' []) ↔
          ∀ t ∈ exampleTxs [], t.isDisposal Python.Unicode.ascii = false)) ∧
      (((∃ att, DoraIncident.attest Python.Unicode.ascii exampleFromisoformat exampleInterp sha3_256
              (examplePhases (txt " ")) [] [] = .ok att ∧
            some att.digest = phasesDigest (examplePhases [])) ↔
          txt "2026-01-01T00:00:00Z" ++ txt " " = txt "2026-01-01T00:00:00Z") ∨
        Collides sha3_256
          (DoraIncident.digestMessages Python.Unicode.ascii exampleFromisoformat exampleInterp sha3_256
              (examplePhases []) [] [] ++
            DoraIncident.digestMessages Python.Unicode.ascii exampleFromisoformat exampleInterp sha3_256
              (examplePhases (txt " ")) [] [])) := by
  have hall := @attest_sameCanonical Python.Unicode.ascii exampleFromisoformat exampleInterp sha3_256
  have htx : (txDigest (exampleTxs [])).isSome = true := by decide +kernel
  have hphases : (phasesDigest (examplePhases [])).isSome = true := by decide +kernel
  rw [txDigest, Option.isSome_map] at htx
  rw [phasesDigest, Option.isSome_map] at hphases
  rcases Except.exists_of_isSome_toOption htx with ⟨att, hatt⟩
  rcases Except.exists_of_isSome_toOption hphases with ⟨datt, hdatt⟩
  refine ⟨⟨att, hatt, (hall.1 hatt).1⟩, ?_⟩
  rcases hall.2 hdatt sameCanonical_examplePhases with hiff | hcollides
  . refine Or.inl ?_
    have hdigest : phasesDigest (examplePhases []) = some datt.digest := by
      rw [phasesDigest, hdatt]
      rfl
    have hts : ∀ blank, (DoraIncident.classifiedMajor Python.Unicode.ascii (examplePhases blank)).map
        DoraIncident.Phase.ts = some (txt "2026-01-01T00:00:00Z" ++ blank) := by
      intro blank
      rfl
    rw [hts, hts, Option.some.injEq, List.append_nil] at hiff
    simpa only [hdigest, Option.some.injEq] using hiff
  . exact Or.inr hcollides

/--
A space after the identifier of a disposal, or after the timestamp of the classification, changes the
digest and nothing in the canonical form.
-/
theorem attest_asWritten
    : (TxEvidence.SameCanonical Python.Unicode.ascii (exampleTxs []) (exampleTxs (txt " ")) ∧
        (txDigest (exampleTxs [])).isSome = true ∧ (txDigest (exampleTxs (txt " "))).isSome = true ∧
        txDigest (exampleTxs (txt " ")) ≠ txDigest (exampleTxs [])) ∧
      DoraIncident.SameCanonical Python.Unicode.ascii (examplePhases []) (examplePhases (txt " ")) ∧
        (phasesDigest (examplePhases [])).isSome = true ∧
        (phasesDigest (examplePhases (txt " "))).isSome = true ∧
        phasesDigest (examplePhases (txt " ")) ≠ phasesDigest (examplePhases []) := by
  refine ⟨⟨sameCanonical_exampleTxs, ?_, ?_, ?_⟩, sameCanonical_examplePhases, ?_, ?_, ?_⟩
  all_goals decide +kernel

end Evidence
end CryptoValid
