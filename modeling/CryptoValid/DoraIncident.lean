import CryptoValid.Evidence.Chain
import CryptoValid.Lib.Collision
import CryptoValid.Lib.Json.RoundTrip
import CryptoValid.Lib.PythonText

/-!
This module contains the phases of an incident in `dora_incident.py`, the check of their deadlines and
their attestation, and what of the phases the attestation depends on.
-/

namespace CryptoValid
namespace DoraIncident

def doraVersion : Str := txt "dora-incident-1.0"

structure Phase where
  phase : Str
  ts : Str
  detail : Json

/--
A `datetime`, in microseconds of its own clock since a fixed day. A naive one has no offset from UTC.
-/
structure Datetime where
  micros : Int
  utcOffset : Option Int

/--
The instant in microseconds; a naive `datetime` is taken to be UTC.
-/
def Datetime.instant (d : Datetime) : Int := d.micros - d.utcOffset.getD 0

inductive DoraError where
  | fromisoformat
  | dump (e : Evidence.DumpError)
  deriving DecidableEq

def hours (n : Int) : Binary64 := .ofQuotient n 1

def initialHours : Binary64 := hours 4

def initialBackstopHours : Binary64 := hours 24

def intermediateHours : Binary64 := hours 72

def finalDays : Nat := 30

/--
One deadline of a phase that is recorded.
-/
structure Check where
  elapsedHours : Binary64
  limitHours : Binary64
  met : Bool
  marginHours : Binary64
  withinBackstop : Option Bool

structure Deadlines where
  classifiedMajorAt : Str
  initialNotification : Option Check
  intermediateReport : Option Check
  finalReport : Option Check

def Check.toJson : Option Check → Json
  | none =>
    .obj [(txt "present", .bool false), (txt "met", .null),
      (txt "note", .str (txt "fase non registrata"))]
  | some c =>
    .obj ([(txt "present", .bool true), (txt "elapsed_hours", .float c.elapsedHours),
        (txt "limit_hours", .float c.limitHours), (txt "met", .bool c.met),
        (txt "margin_hours", .float c.marginHours)] ++
      c.withinBackstop.toList.map fun within => (txt "within_backstop_24h", .bool within))

namespace Deadlines

def checks (d : Deadlines) : List (Option Check) :=
  [d.initialNotification, d.intermediateReport, d.finalReport]

def allPhasesPresent (d : Deadlines) : Bool := d.checks.all Option.isSome

def allDeadlinesMet (d : Deadlines) : Bool := d.checks.all fun check => check.all Check.met

def checksJson (d : Deadlines) : Json :=
  .obj [(txt "initial_notification", Check.toJson d.initialNotification),
    (txt "intermediate_report", Check.toJson d.intermediateReport),
    (txt "final_report", Check.toJson d.finalReport)]

def toJson : Option Deadlines → Json
  | none =>
    .obj [(txt "applicable", .bool false),
      (txt "note", .str (txt "nessuna classificazione 'classified_major' → il timer DORA non " ++
        txt "parte (incident non-major o classificazione mancante)"))]
  | some d =>
    .obj [(txt "applicable", .bool true), (txt "classified_major_at", .str d.classifiedMajorAt),
      (txt "checks", d.checksJson), (txt "all_phases_present", .bool d.allPhasesPresent),
      (txt "all_deadlines_met", .bool d.allDeadlinesMet)]

end Deadlines

section

variable (u : Python.Unicode)

def canonicalPhase (p : Phase) : Json :=
  .obj [(txt "phase", .str (u.lower (Python.stripBlanks p.phase))),
    (txt "ts", .str (Python.stripBlanks p.ts)),
    (txt "detail", if Python.truthy p.detail then p.detail else .obj [])]

/--
`_find`
-/
def find (phases : List Phase) (name : Str) : Option Phase :=
  phases.find? fun p => u.lower (Python.stripBlanks p.phase) = name

def classifiedMajor (phases : List Phase) : Option Phase := find u phases (txt "classified_major")

/-!
### Deadlines
-/

-- `datetime.fromisoformat`, which differs between the versions; `none` stands for `ValueError`
variable (fromisoformat : Str → Option Datetime)

/--
`_parse`
-/
def parse (ts : Str) : Except DoraError Int :=
  let s := (Python.stripBlanks ts).flatMap fun c => if c = .ofChar 'Z' then txt "+00:00" else [c]
  match fromisoformat s with
  | none => .error .fromisoformat
  | some d => .ok d.instant

/--
`(b - a).total_seconds() / 3600.0`
-/
def elapsedHours (a b : Int) : Binary64 := (Binary64.ofQuotient (b - a) 1000000).div (hours 3600)

/--
`_chk` for the instant of a phase.
-/
def checkAt (t0 t : Int) (limit : Binary64) : Check :=
  let elapsed := elapsedHours t0 t
  ⟨elapsed.roundTo 3, limit, elapsed.le limit, (limit.sub elapsed).roundTo 3, none⟩

def check (phases : List Phase) (t0 : Int) (name : Str) (limit : Binary64)
    : Except DoraError (Option Check) :=
  match find u phases name with
  | none => .ok none
  | some p => do
    return some (checkAt t0 (← parse fromisoformat p.ts) limit)

/--
Where the first limit is missed, whether the second one is kept.
-/
def Check.withBackstop (c : Check) : Check :=
  if c.met then c else { c with withinBackstop := some (c.elapsedHours.le initialBackstopHours) }

/--
`none` where the timer does not start.
-/
def checkDeadlines (phases : List Phase) : Except DoraError (Option Deadlines) :=
  match classifiedMajor u phases with
  | none => .ok none
  | some base => do
    let t0 ← parse fromisoformat base.ts
    let initial ← check u fromisoformat phases t0 (txt "initial_notification") initialHours
    let intermediate ← check u fromisoformat phases t0 (txt "intermediate_report") intermediateHours
    let final ← check u fromisoformat phases t0 (txt "final_report") (hours (finalDays * 24))
    return some ⟨base.ts, initial.map Check.withBackstop, intermediate, final⟩

/-!
### Attestations
-/

def honestScope : Str :=
  txt "Proves the incident phases are tamper-evident (hash chain), in recorded order, and " ++
    txt "whether each DORA reporting deadline was met per the RECORDED timestamps — " ++
    txt "reproducibly. NOT proof of DORA compliance, NOT proof the major/significant " ++
    txt "classification is correct (the entity's judgement, reviewed by its auditor), and not " ++
    txt "the truth of the facts. For legal-grade time, seal the chain head with a qualified " ++
    txt "eIDAS timestamp (cryptovalid_tsa)."

/--
What the digest of an attestation is computed from.
-/
def attestBody (version incidentId asOf : Json) (n : Nat) (head : Str) (deadlines : Json)
    : List (Str × Json) :=
  [(txt "dora_version", version), (txt "incident_id", incidentId), (txt "as_of", asOf),
    (txt "n_phases", .int n), (txt "chain_head", .str head), (txt "deadlines", deadlines)]

structure Attestation where
  incidentId : Str
  asOf : Str
  nPhases : Nat
  chainHead : Str
  deadlines : Option Deadlines
  digest : Str

namespace Attestation

def body (att : Attestation) : List (Str × Json) :=
  attestBody (.str doraVersion) (.str att.incidentId) (.str att.asOf) att.nPhases att.chainHead
    (Deadlines.toJson att.deadlines)

def members (att : Attestation) : List (Str × Json) :=
  att.body ++
    [(txt "attestation_digest_sha3", .str att.digest), (txt "honest_scope", .str honestScope)]

end Attestation

variable (interp : Python.Interp) (sha3_256 : HashFn 32)

def buildChain (phases : List Phase) : Except DoraError (List Evidence.Entry) :=
  Evidence.buildChain interp sha3_256 (fun p => .ok (canonicalPhase u p)) .dump phases

def attest (phases : List Phase) (incidentId asOf : Str) : Except DoraError Attestation := do
  let head := Evidence.headOf (← buildChain u interp sha3_256 phases)
  let deadlines ← checkDeadlines u fromisoformat phases
  let body := attestBody (.str doraVersion) (.str incidentId) (.str asOf) phases.length head
    (Deadlines.toJson deadlines)
  let digest ← (Evidence.digestOf interp sha3_256 (.obj body)).mapError .dump
  return ⟨incidentId, asOf, phases.length, head, deadlines, digest⟩

/--
An attestation is an object; a member it does not have is `None`.
-/
def verifyAttestation (att : List (Str × Json)) (phases : List Phase)
    : Except DoraError Evidence.Verdict := do
  let get := fun key => (Assoc.lookup key att).getD .null
  let chain ← buildChain u interp sha3_256 phases
  let chainOk ← (Evidence.verifyChain interp sha3_256 chain).mapError .dump
  let head := Evidence.headOf chain
  let deadlines ← checkDeadlines u fromisoformat phases
  let recomputed := attestBody (get (txt "dora_version")) (get (txt "incident_id"))
    (get (txt "as_of")) phases.length head (Deadlines.toJson deadlines)
  let digest ← (Evidence.digestOf interp sha3_256 (.obj recomputed)).mapError .dump
  return {
    chainOk := chainOk
    headMatch := get (txt "chain_head") = .str head
    digestMatch := get (txt "attestation_digest_sha3") = .str digest }

variable {u fromisoformat interp sha3_256}

theorem attest_eq_ok {phases : List Phase} {incidentId asOf : Str} {att : Attestation}
    (h : attest u fromisoformat interp sha3_256 phases incidentId asOf = .ok att)
    : ∃ chain, buildChain u interp sha3_256 phases = .ok chain ∧
        checkDeadlines u fromisoformat phases = .ok att.deadlines ∧ att.incidentId = incidentId ∧
        att.asOf = asOf ∧ att.nPhases = phases.length ∧ att.chainHead = Evidence.headOf chain ∧
        Evidence.digestOf interp sha3_256 (.obj att.body) = .ok att.digest := by
  rcases Except.bind_eq_ok.mp h with ⟨chain, hchain, h⟩
  rcases Except.bind_eq_ok.mp h with ⟨deadlines, hdeadlines, h⟩
  rcases Except.bind_eq_ok.mp h with ⟨digest, hdigest, h⟩
  rw [← Except.pure_eq_ok.mp h]
  exact ⟨chain, hchain, hdeadlines, rfl, rfl, rfl, rfl, Except.mapError_eq_ok.mp hdigest⟩

/--
An attestation is valid for the phases that it was made of.
-/
theorem verifyAttestation_attest {phases : List Phase} {incidentId asOf : Str} {att : Attestation}
    (h : attest u fromisoformat interp sha3_256 phases incidentId asOf = .ok att)
    : verifyAttestation u fromisoformat interp sha3_256 att.members phases
        = .ok ⟨true, true, true⟩ := by
  rcases attest_eq_ok h with ⟨chain, hchain, hdeadlines, hid, hasOf, hn, hhead, hdigest⟩
  have hchainOk : Evidence.verifyChain interp sha3_256 chain = .ok true :=
    Evidence.verifyChainFrom_buildChainFrom hchain
  have hversion : Assoc.lookup (txt "dora_version") att.members = some (.str doraVersion) := rfl
  have hid' : Assoc.lookup (txt "incident_id") att.members = some (.str att.incidentId) := rfl
  have hasOf' : Assoc.lookup (txt "as_of") att.members = some (.str att.asOf) := rfl
  have hhead' : Assoc.lookup (txt "chain_head") att.members
      = some (.str (Evidence.headOf chain)) := by
    rw [← hhead]
    rfl
  have hdigest' : Assoc.lookup (txt "attestation_digest_sha3") att.members
      = some (.str att.digest) := rfl
  refine Except.bind_eq_ok.mpr ⟨chain, hchain, ?_⟩
  refine Except.bind_eq_ok.mpr ⟨true, Except.mapError_eq_ok.mpr hchainOk, ?_⟩
  refine Except.bind_eq_ok.mpr ⟨att.deadlines, hdeadlines, ?_⟩
  refine Except.bind_eq_ok.mpr ⟨att.digest, Except.mapError_eq_ok.mpr ?_, ?_⟩
  . simp only [hversion, hid', hasOf', Option.getD_some, ← hn, ← hhead]
    exact hdigest
  . simp [hhead', hdigest', pure, Except.pure]

/-!
### The same canonical sequence
-/

variable (u) in
/--
Phase by phase the same canonical object, whatever the order of its keys is.
-/
def SameCanonical (phases phases' : List Phase) : Prop :=
  List.Forall₂ (fun p p' => (canonicalPhase u p').sortKeys = (canonicalPhase u p).sortKeys)
    phases phases'

theorem canonicalPhase_inj {p p' : Phase}
    (h : (canonicalPhase u p').sortKeys = (canonicalPhase u p).sortKeys)
    : u.lower (Python.stripBlanks p'.phase) = u.lower (Python.stripBlanks p.phase) ∧
        Python.stripBlanks p'.ts = Python.stripBlanks p.ts := by
  have hlookup := Json.lookup_of_sortKeys_eq (by simp; decide) (by simp; decide) h
  have hphase := hlookup (txt "phase")
  have hts := hlookup (txt "ts")
  exact ⟨Json.str.inj (Option.some.inj hphase), Json.str.inj (Option.some.inj hts)⟩

theorem SameCanonical.find {phases phases' : List Phase} (h : SameCanonical u phases phases')
    (name : Str)
    : (find u phases name = none ∧ find u phases' name = none) ∨
        ∃ p p', find u phases name = some p ∧ find u phases' name = some p' ∧
          Python.stripBlanks p'.ts = Python.stripBlanks p.ts := by
  induction h with
  | nil => exact Or.inl ⟨rfl, rfl⟩
  | cons hfirst htail ih =>
    next p p' phases phases' =>
    rcases canonicalPhase_inj hfirst with ⟨hphase, hts⟩
    rw [DoraIncident.find, DoraIncident.find, List.find?_cons, List.find?_cons, hphase]
    cases hname : decide (u.lower (Python.stripBlanks p.phase) = name) with
    | true => exact Or.inr ⟨p, p', rfl, rfl, hts⟩
    | false => exact ih

theorem parse_congr {ts ts' : Str} (h : Python.stripBlanks ts' = Python.stripBlanks ts)
    : parse fromisoformat ts' = parse fromisoformat ts := by
  rw [parse, parse, h]

theorem SameCanonical.check_eq {phases phases' : List Phase} (h : SameCanonical u phases phases')
    (t0 : Int) (name : Str) (limit : Binary64)
    : check u fromisoformat phases' t0 name limit = check u fromisoformat phases t0 name limit := by
  rcases h.find name with ⟨hnone, hnone'⟩ | ⟨p, p', hp, hp', hts⟩
  . rw [check, check, hnone, hnone']
  . rw [check, check, hp, hp']
    dsimp only
    rw [parse_congr hts]

/--
The checks depend on the canonical sequence alone, all but the timestamp of the classification, which
is kept as it is written.
-/
theorem SameCanonical.checkDeadlines {phases phases' : List Phase}
    (h : SameCanonical u phases phases') {d : Option Deadlines}
    (hd : checkDeadlines u fromisoformat phases = .ok d)
    : (classifiedMajor u phases = none ∧ classifiedMajor u phases' = none ∧ d = none ∧
          checkDeadlines u fromisoformat phases' = .ok none) ∨
        ∃ base base' x, classifiedMajor u phases = some base ∧
          classifiedMajor u phases' = some base' ∧ d = some x ∧ x.classifiedMajorAt = base.ts ∧
          checkDeadlines u fromisoformat phases'
            = .ok (some { x with classifiedMajorAt := base'.ts }) := by
  rcases h.find (txt "classified_major") with ⟨hnone, hnone'⟩ | ⟨base, base', hbase, hbase', hts⟩
  . rw [DoraIncident.checkDeadlines, classifiedMajor, hnone] at hd
    refine Or.inl ⟨hnone, hnone', (Except.ok.inj hd).symm, ?_⟩
    rw [DoraIncident.checkDeadlines, classifiedMajor, hnone']
  . rw [DoraIncident.checkDeadlines, classifiedMajor, hbase] at hd
    rcases Except.bind_eq_ok.mp hd with ⟨t0, ht0, hd⟩
    rcases Except.bind_eq_ok.mp hd with ⟨initial, hinitial, hd⟩
    rcases Except.bind_eq_ok.mp hd with ⟨intermediate, hintermediate, hd⟩
    rcases Except.bind_eq_ok.mp hd with ⟨final, hfinal, hd⟩
    refine Or.inr ⟨base, base', _, hbase, hbase', (Except.pure_eq_ok.mp hd).symm, rfl, ?_⟩
    rw [DoraIncident.checkDeadlines, classifiedMajor, hbase']
    dsimp only
    rw [parse_congr hts, ht0, Except.ok_bind, h.check_eq, hinitial, Except.ok_bind, h.check_eq,
      hintermediate, Except.ok_bind, h.check_eq, hfinal, Except.ok_bind]
    rfl

theorem SameCanonical.headOf_eq {phases phases' : List Phase} (h : SameCanonical u phases phases')
    {chain : List Evidence.Entry} (hchain : buildChain u interp sha3_256 phases = .ok chain)
    : ∃ chain', buildChain u interp sha3_256 phases' = .ok chain' ∧
        Evidence.headOf chain' = Evidence.headOf chain :=
  Evidence.headOf_buildChain (h.imp fun p p' hsame => by rw [Except.map, Except.map, hsame]) hchain

/-!
### The text of an attestation
-/

theorem dumps_attestBody_inj {version incidentId asOf : Json} {n : Nat} {head : Str} {d d' : Json}
    (h : Json.dumps false (Json.sortKeys (.obj (attestBody version incidentId asOf n head d)))
      = Json.dumps false (Json.sortKeys (.obj (attestBody version incidentId asOf n head d'))))
    : Json.dumps false d.sortKeys = Json.dumps false d'.sortKeys := by
  have hsorted : ∀ d : Json, Json.sortKeys (.obj (attestBody version incidentId asOf n head d))
      = .obj ([(txt "as_of", asOf.sortKeys), (txt "chain_head", .str head)] ++
          (txt "deadlines", d.sortKeys) :: [(txt "dora_version", version.sortKeys),
            (txt "incident_id", incidentId.sortKeys), (txt "n_phases", .int n)]) := by
    intro d
    rw [attestBody, Json.sortKeys_obj]
    rfl
  rw [hsorted, hsorted] at h
  exact Json.dumps_member_inj h

theorem dumps_deadlines_inj {x : Deadlines} {ts : Str}
    (h : Json.dumps false (Deadlines.toJson (some { x with classifiedMajorAt := ts })).sortKeys
      = Json.dumps false (Deadlines.toJson (some x)).sortKeys) : ts = x.classifiedMajorAt := by
  have hsorted : ∀ ts, (Deadlines.toJson (some { x with classifiedMajorAt := ts })).sortKeys
      = .obj ([(txt "all_deadlines_met", .bool x.allDeadlinesMet),
          (txt "all_phases_present", .bool x.allPhasesPresent), (txt "applicable", .bool true),
          (txt "checks", x.checksJson.sortKeys)] ++ (txt "classified_major_at", .str ts) :: []) := by
    intro ts
    rw [Deadlines.toJson, Json.sortKeys_obj]
    rfl
  have hx := hsorted x.classifiedMajorAt
  rw [hsorted, hx] at h
  have hstr := Json.dumps_inj false (v := .str ts) (w := .str x.classifiedMajorAt) trivial trivial
    (by simp) (by simp) (Json.dumps_member_inj h)
  exact Json.str.inj hstr

/-!
### What an attestation depends on
-/

variable (u fromisoformat interp sha3_256) in
/--
What the digest of an attestation is the digest of, if there is an attestation.
-/
def digestMessages (phases : List Phase) (incidentId asOf : Str) : List Bytes :=
  match attest u fromisoformat interp sha3_256 phases incidentId asOf with
  | .ok att => (Evidence.canonBytes interp (.obj att.body)).toOption.toList
  | .error _ => []

theorem mem_digestMessages {phases : List Phase} {incidentId asOf : Str} {att : Attestation}
    (h : attest u fromisoformat interp sha3_256 phases incidentId asOf = .ok att)
    : ∃ bytes ∈ digestMessages u fromisoformat interp sha3_256 phases incidentId asOf,
        att.digest = Hex.ofBytes (sha3_256 bytes) ∧
          Utf8.encode? (Json.dumps false (Json.sortKeys (.obj att.body))) = some bytes := by
  rcases attest_eq_ok h with ⟨_, _, _, _, _, _, _, hdigest⟩
  rcases Except.bind_eq_ok.mp hdigest with ⟨bytes, hbytes, hdigest⟩
  refine ⟨bytes, ?_, (Except.pure_eq_ok.mp hdigest).symm, (Evidence.canonBytes_eq_ok.mp hbytes).2⟩
  rw [digestMessages, h]
  dsimp only
  rw [hbytes]
  exact List.mem_singleton.mpr rfl

/--
The digest depends on the canonical sequence, and on how the timestamp of the classification is
written.
-/
theorem sameDigest_iff {phases phases' : List Phase} {incidentId asOf : Str} {att : Attestation}
    (h : attest u fromisoformat interp sha3_256 phases incidentId asOf = .ok att)
    (hsame : SameCanonical u phases phases')
    : ((∃ att', attest u fromisoformat interp sha3_256 phases' incidentId asOf = .ok att' ∧
            att'.digest = att.digest)
          ↔
        (classifiedMajor u phases').map Phase.ts = (classifiedMajor u phases).map Phase.ts) ∨
      Collides sha3_256 (digestMessages u fromisoformat interp sha3_256 phases incidentId asOf ++
        digestMessages u fromisoformat interp sha3_256 phases' incidentId asOf) := by
  rcases attest_eq_ok h with ⟨chain, hchain, hdeadlines, hid, hasOf, hn, hhead, hdigest⟩
  rcases hsame.headOf_eq hchain with ⟨chain', hchain', hhead'⟩
  have hlength := List.Forall₂.length_eq hsame
  have hagain : checkDeadlines u fromisoformat phases' = .ok att.deadlines →
      attest u fromisoformat interp sha3_256 phases' incidentId asOf = .ok att := by
    intro hdeadlines'
    rw [attest, hchain', hdeadlines', ← hlength, Except.ok_bind, Except.ok_bind, hhead']
    rw [attest, hchain, hdeadlines, Except.ok_bind, Except.ok_bind] at h
    exact h
  rcases hsame.checkDeadlines hdeadlines with ⟨hnone, hnone', hd, hdeadlines'⟩ |
    ⟨base, base', x, hbase, hbase', hd, hat, hdeadlines'⟩
  . rw [hnone, hnone']
    exact Or.inl (iff_of_true ⟨att, hagain (by rw [hdeadlines', hd]), rfl⟩ rfl)
  . rw [hbase, hbase', Option.map_some, Option.map_some, Option.some.injEq]
    by_cases hts : base'.ts = base.ts
    . refine Or.inl (iff_of_true ⟨att, hagain ?_, rfl⟩ hts)
      rw [hdeadlines', hd, hts, ← hat]
    . by_cases hexists : ∃ att', attest u fromisoformat interp sha3_256 phases' incidentId asOf
          = .ok att' ∧ att'.digest = att.digest
      . rcases hexists with ⟨att', hatt', hdigests⟩
        rcases mem_digestMessages h with ⟨bytes, hbytes, heq, hencode⟩
        rcases mem_digestMessages hatt' with ⟨bytes', hbytes', heq', hencode'⟩
        rw [heq, heq'] at hdigests
        refine Or.inr (Collides.of_mem (List.mem_append_right _ hbytes')
          (List.mem_append_left _ hbytes) ?_ (Hex.ofBytes_inj hdigests))
        rintro rfl
        rcases attest_eq_ok hatt' with ⟨chain₁, hchain₁, hdeadlines₁, hid', hasOf', hn', hhead₁, _⟩
        rw [hchain', Except.ok.injEq] at hchain₁
        rw [hdeadlines', Except.ok.injEq] at hdeadlines₁
        have htext := Utf8.encode?_inj hencode' hencode
        rw [Attestation.body, Attestation.body, ← hdeadlines₁, hd, hid, hid', hasOf, hasOf', hn, hn',
          hhead, hhead₁, ← hchain₁, hhead', ← hlength] at htext
        have hsameTs := dumps_deadlines_inj (dumps_attestBody_inj htext)
        exact hts (hsameTs.trans hat)
      . exact Or.inl (iff_of_false hexists hts)

end

end DoraIncident
end CryptoValid
