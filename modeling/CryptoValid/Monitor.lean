import CryptoValid.Ingest.Writer
import CryptoValid.Merkle.Consistency
import CryptoValid.Merkle.Completeness
import CryptoValid.Verifier.Ledger

/-!
This module contains the monitor of `cryptovalid_monitor.py`: a run compares a ledger with the
baseline in the state file, and every green run that writes the state moves the baseline. The state
is kept as the values that the file holds.
-/

namespace CryptoValid
namespace Monitor

open Merkle
open Python (Interp)

/-!
### Signed tree heads
-/

def sthKind : Str := txt "cryptovalid_sth/1"

/--
What a log key signs, whatever a head has for the size, the root and the time.
-/
def sthPayload (treeSize root ts : Json) : Bytes :=
  (Json.canonical (.obj [(txt "kind", .str sthKind), (txt "root_sha256", root),
    (txt "tree_size", treeSize), (txt "ts", ts)])).flatMap Utf8.encodePoint

structure LogKey where
  publicKeyHex : Str
  sign : Bytes → Bytes

section

variable (sha256 : HashFn 32)

def rootHex (leaves : List Bytes) : Str := Hex.ofBytes (mth sha256 leaves)

def signedTreeHead (leaves : List Bytes) (key : LogKey) (ts : Str) : Entry :=
  let size := Json.int leaves.length
  let root := Json.str (rootHex sha256 leaves)
  [(txt "kind", .str sthKind), (txt "tree_size", size), (txt "root_sha256", root),
    (txt "ts", .str ts),
    (txt "signature_hex", .str (Hex.ofBytes (key.sign (sthPayload size root (.str ts))))),
    (txt "log_pubkey_hex", .str key.publicKeyHex)]

end

inductive SthWhy where
  | unsupportedKind (kind : Json)
  | otherKey
  | notTrusted
  | verified
  | invalid
  deriving DecidableEq

structure SthResult where
  ok : Bool
  why : SthWhy
  deriving DecidableEq

/--
`verify` says whether `from_public_bytes(pk).verify(sig, msg)` does not raise.
-/
structure Env where
  interp : Interp
  crypto : Tip.Crypto
  verify : (pk sig msg : Bytes) → Bool

def hexBytes? : Json → Option Bytes
  | .str s => Python.fromHex? s
  | _ => none

/--
The signature of a head under a key; a member that is missing is a `KeyError`, which is caught.
-/
def signatureValid (env : Env) (pk : Json) (sth : Entry) : Bool :=
  match hexBytes? pk, hexBytes? (sth.get (txt "signature_hex")) with
  | some pk, some sig =>
    sth.has (txt "tree_size") && sth.has (txt "root_sha256") && sth.has (txt "ts") &&
      env.verify pk sig (sthPayload (sth.get (txt "tree_size")) (sth.get (txt "root_sha256"))
        (sth.get (txt "ts")))
  | _, _ => false

def verifySth (env : Env) (sth : Entry) (trusted : Option Str) : SthResult :=
  if sth.get (txt "kind") ≠ .str sthKind then
    ⟨false, .unsupportedKind (sth.get (txt "kind"))⟩
  else
    match Tip.given trusted with
    | none =>
      if signatureValid env (sth.get (txt "log_pubkey_hex")) sth then ⟨false, .notTrusted⟩
      else ⟨false, .invalid⟩
    | some pk =>
      if sth.get (txt "log_pubkey_hex") ≠ .str pk then ⟨false, .otherKey⟩
      else if signatureValid env (.str pk) sth then ⟨true, .verified⟩
      else ⟨false, .invalid⟩

/-!
### Runs
-/

/--
The file at `state_path`, which a green run writes.
-/
structure State where
  treeSize : Nat
  rootSha256 : Str
  ts : Str
  ledger : Str
  sth : Option Entry
  logPubkeyHex : Option Str

/--
One run: the file it sees, its arguments, and the outcome of what is outside. A `keyfile` without a
key cannot be read; `silent` says of the time in the state whether it is longer ago than
`max_silence_h`, `search` whether the search for matches runs through, `written` whether the state
is written.
-/
structure Call where
  ledger : Tip.File
  path : Str
  sidecar : Option Tip.File
  keyfile : Option (Option LogKey)
  trusted : Option Str
  sthFile : Option Json
  silent : Str → Bool
  search : Bool
  now : Str
  signedAt : Str
  written : Bool

inductive Alert where
  | snapshot (verdict : Verifier.Verdict)
  | timestamps
  | stateUnsigned
  | stateTampered (why : SthWhy)
  | stateDiffers
  | truncation (old new : Nat)
  | rewrite
  | fork (old new : Nat)
  | keyChanged
  | silence
  deriving DecidableEq

inductive Consistency where
  | notChecked
  | shrank
  | sameSize (ok : Bool)
  | emptyOld
  | growth (ok : Bool) (old new pathLength : Nat)
  deriving DecidableEq

inductive Raised where
  | verifier (e : Verifier.Error)
  | leaves
  | keyfile
  | value
  | search
  | outputNotWritten
  deriving DecidableEq

structure Verdict where
  ok : Bool
  alerts : List Alert
  treeSize : Nat
  rootSha256 : Str
  consistency : Consistency
  stateWritten : Bool
  deriving DecidableEq

/--
`int(x)` of a value that was read from JSON.
-/
def intOf? : Json → Option Int
  | .int i => some i
  | .bool b => some (if b then 1 else 0)
  | .float x => if x.isNaN || x.isInfinite then none else some (x.quotient.1.tdiv x.quotient.2)
  | .str s => Python.int10? s
  | _ => none

def loadSk : Option LogKey → Except Raised LogKey
  | none => .error .keyfile
  | some key => .ok key

/--
What the verifier says about the ledger.
-/
def snapshotAlerts (env : Env) (call : Call) : Except Raised (List Alert) :=
  match Verifier.verifyLedger env.crypto call.ledger { sidecar := call.sidecar } with
  | .error e => .error (.verifier e)
  | .ok snap =>
    let ordered := match snap with
      | .receipt r => r.tsBackwards.isEmpty
      | _ => true
    .ok ((if snap.verdict = .pass then [] else [.snapshot snap.verdict]) ++
      if ordered then [] else [.timestamps])

def leavesOf (env : Env) : Tip.File → Except Raised (List Bytes)
  | .content bytes =>
    match Ingest.leavesFromLedger env.interp bytes with
    | none => .error .leaves
    | some leaves => .ok leaves
  | _ => .error .leaves

/--
The key that the head in the state has to be signed with.
-/
def trustedKey (call : Call) : Except Raised (Option Str) :=
  match call.keyfile, Tip.given call.trusted with
  | _, some pk => .ok (some pk)
  | none, none => .ok none
  | some key, none => (loadSk key).map fun key => Tip.given (some key.publicKeyHex)

def headAlerts (env : Env) (prev : State) (pk : Option Str) : Except Raised (List Alert) :=
  match pk, prev.sth with
  | none, _ => .ok []
  | some _, none | some _, some [] => .ok [.stateUnsigned]
  | some pk, some sth =>
    let v := verifySth env sth (some pk)
    if !v.ok then
      .ok [.stateTampered v.why]
    else
      match intOf? (sth.get (txt "tree_size")) with
      | none => .error .value
      | some size =>
        if size ≠ prev.treeSize ∨ sth.get (txt "root_sha256") ≠ .str prev.rootSha256 then
          .ok [.stateDiffers]
        else
          .ok []

section

variable (sha256 : HashFn 32)

/--
The ledger against the size and the root of the baseline.
-/
def compare (prev : State) (leaves : List Bytes) : Except Raised (Consistency × List Alert) :=
  let n1 := prev.treeSize
  let n2 := leaves.length
  if n2 < n1 then
    .ok (.shrank, [.truncation n1 n2])
  else if n2 = n1 then
    let ok := prev.rootSha256 = rootHex sha256 leaves
    .ok (.sameSize ok, if ok then [] else [.rewrite])
  else if n1 = 0 then
    .ok (.emptyOld, [])
  else
    match consistencyProof sha256 n1 leaves, Python.fromHex? prev.rootSha256 with
    | some proof, some root1 =>
      let ok := verifyConsistency sha256 n1 n2 proof root1 (mth sha256 leaves)
      .ok (.growth ok n1 n2 proof.length, if ok then [] else [.fork n1 n2])
    | _, _ => .error .value

def keyAlerts (prev : State) (call : Call) : Except Raised (List Alert) :=
  match call.keyfile, Tip.given prev.logPubkeyHex with
  | some key, some old =>
    (loadSk key).map fun key => if key.publicKeyHex ≠ old then [.keyChanged] else []
  | _, _ => .ok []

/--
The alerts that come with a baseline.
-/
def baselineAlerts (env : Env) (prev : State) (call : Call) (leaves : List Bytes)
    : Except Raised (Consistency × List Alert) := do
  let head ← headAlerts env prev (← trustedKey call)
  let (consistency, grown) ← compare sha256 prev leaves
  let changed ← keyAlerts prev call
  let silence :=
    if leaves.length = prev.treeSize ∧ call.silent prev.ts = true then [.silence] else []
  return (consistency, head ++ grown ++ changed ++ silence)

/--
The signed head that an auditor is given: the head of a state, or the head itself.
-/
def givenHead : Option Json → Option Entry
  | some (.obj doc) =>
    match if Entry.has doc (txt "sth") then Entry.get doc (txt "sth") else .obj doc with
    | .obj sth => some sth
    | _ => none
  | _ => none

/--
The state that a green run writes, if it writes one: an auditor needs a signed head for this tree.
-/
def newState (env : Env) (prev : Option State) (call : Call) (leaves : List Bytes)
    : Except Raised (Option State) :=
  let plain : State := ⟨leaves.length, rootHex sha256 leaves, call.now, call.path, none, none⟩
  match call.keyfile, Tip.given call.trusted with
  | some key, _ => (loadSk key).map fun key =>
    some { plain with
      sth := some (signedTreeHead sha256 leaves key call.signedAt)
      logPubkeyHex := some key.publicKeyHex }
  | none, none => .ok (some plain)
  | none, some pk => do
    if ← headFits pk then
      return some { plain with sth := givenHead call.sthFile, logPubkeyHex := some pk }
    else
      match prev with
      | some prev =>
        if prev.sth.getD [] ≠ [] ∧ prev.treeSize = leaves.length ∧
            prev.rootSha256 = rootHex sha256 leaves then
          return some { plain with sth := prev.sth, logPubkeyHex := prev.logPubkeyHex }
        else
          return none
      | none => return none
where
  headFits (pk : Str) : Except Raised Bool :=
    match givenHead call.sthFile with
    | none | some [] => .ok false
    | some sth =>
      if !(verifySth env sth (some pk)).ok then
        .ok false
      else
        match intOf? (sth.get (txt "tree_size")) with
        | none => .error .value
        | some size =>
          .ok (size = leaves.length && sth.get (txt "root_sha256") = .str (rootHex sha256 leaves))

def run (env : Env) (prev : Option State) (call : Call) : Option State × Except Raised Verdict :=
  match verdict with
  | .error e => (prev, .error e)
  | .ok (v, none) => (prev, .ok v)
  | .ok (v, some state) =>
    if call.written then (some state, .ok { v with stateWritten := true })
    else (prev, .error .outputNotWritten)
where
  verdict : Except Raised (Verdict × Option State) := do
    let snapshot ← snapshotAlerts env call
    let leaves ← leavesOf env call.ledger
    let (consistency, baseline) ← compared leaves
    let alerts := snapshot ++ baseline
    Except.require call.search .search
    let v : Verdict := ⟨alerts.isEmpty, alerts, leaves.length, rootHex sha256 leaves, consistency,
      false⟩
    if alerts.isEmpty then
      return (v, ← newState sha256 env prev call leaves)
    else
      return (v, none)
  compared (leaves : List Bytes) : Except Raised (Consistency × List Alert) :=
    match prev with
    | none => .ok (.notChecked, [])
    | some prev => baselineAlerts sha256 env prev call leaves

end

/-!
### Green runs
-/

section

variable (sha256 : HashFn 32) (env : Env)

def step (state : Option State) (call : Call) : Option State := (run sha256 env state call).1

/--
The leaves of the ledger, if the run is green.
-/
def green? (state : Option State) (call : Call) : Option (List Bytes) :=
  match (run sha256 env state call).2, leavesOf env call.ledger with
  | .ok v, .ok leaves => if v.ok then some leaves else none
  | _, _ => none

/--
The run writes the state.
-/
def moves (state : Option State) (call : Call) : Bool :=
  match (run sha256 env state call).2 with
  | .ok v => v.stateWritten
  | .error _ => false

/--
The messages that are hashed to compare a ledger with a baseline.
-/
def compareQueries (prev : State) (leaves : List Bytes) : List Bytes :=
  match consistencyProof sha256 prev.treeSize leaves, Python.fromHex? prev.rootSha256 with
  | some proof, some root1 =>
    verifyConsistencyQueries sha256 prev.treeSize leaves.length proof root1
  | _, _ => []

def queries (state : Option State) (call : Call) : List Bytes :=
  match leavesOf env call.ledger with
  | .error _ => []
  | .ok leaves =>
    mthQueries sha256 leaves ++ (state.map fun prev => compareQueries sha256 prev leaves).getD []

def runQueries (state : Option State) : List Call → List Bytes
  | [] => []
  | call :: calls => queries sha256 env state call ++ runQueries (step sha256 env state call) calls

end

section

variable {sha256 : HashFn 32} {env : Env}

/--
The state holds the size and the root of the leaves.
-/
structure Baseline (sha256 : HashFn 32) (s : State) (leaves : List Bytes) : Prop where
  size_eq : s.treeSize = leaves.length
  root_eq : s.rootSha256 = rootHex sha256 leaves

/--
A comparison without an alert finds the leaves of the baseline at the start of the ledger.
-/
theorem prefix_of_compare {s : State} {old leaves : List Bytes} {c : Consistency}
    (hold : Baseline sha256 s old) (h : compare sha256 s leaves = .ok (c, []))
    : old <+: leaves ∨
        Collides sha256
          (compareQueries sha256 s leaves ++
            (mthQueries sha256 old ++ mthQueries sha256 leaves)) := by
  unfold compare at h
  rw [hold.size_eq, hold.root_eq] at h
  dsimp only at h
  split at h
  . simp at h
  . split at h
    . next hsize =>
      by_cases hempty : old = []
      . exact Or.inl (hempty ▸ List.nil_prefix)
      . have hroot : mth sha256 old = mth sha256 leaves := by
          by_contra hne
          have hne' : rootHex sha256 old ≠ rootHex sha256 leaves :=
            fun heq => hne (Hex.ofBytes_inj heq)
          simp [hne'] at h
        have hself : verifyConsistency sha256 old.length leaves.length [] (mth sha256 old)
            (mth sha256 leaves) = true := by
          rw [hsize, verifyConsistency, if_neg (by simp [hempty]), if_pos rfl, hroot]
          simp
        refine (verifyConsistency_sound sha256 old leaves (List.length_pos_iff.mpr hempty) []
          hself).imp id fun hcol => hcol.mono ?_
        rw [verifyConsistencyQueries, if_pos (by omega), List.nil_append]
        exact List.subset_append_right _ _
    . split at h
      . next hzero =>
        rw [List.length_eq_zero_iff] at hzero
        exact Or.inl (hzero ▸ List.nil_prefix)
      . next hzero =>
        rw [rootHex, Python.fromHex?_ofBytes] at h
        cases hproof : consistencyProof sha256 old.length leaves with
        | none => simp [hproof] at h
        | some proof =>
          simp only [hproof, Except.ok.injEq, Prod.mk.injEq, ite_eq_left_iff, reduceCtorEq,
            imp_false, Bool.not_eq_true, Bool.not_eq_false] at h
          have hsound := verifyConsistency_sound sha256 old leaves (Nat.pos_of_ne_zero hzero) proof
            h.2
          rw [compareQueries, hold.size_eq, hold.root_eq, rootHex, Python.fromHex?_ofBytes, hproof]
          exact hsound

/--
A ledger that starts with the leaves of the baseline raises no alert.
-/
theorem compare_of_prefix {s : State} {old leaves : List Bytes} (hold : Baseline sha256 s old)
    (hpre : old <+: leaves) : ∃ c, compare sha256 s leaves = .ok (c, []) := by
  have hle := hpre.length_le
  unfold compare
  rw [hold.size_eq, hold.root_eq]
  dsimp only
  rw [if_neg (by omega)]
  split
  . next hsize =>
    rw [hpre.eq_of_length hsize.symm]
    exact ⟨_, by rw [if_pos rfl]⟩
  . next hsize =>
    split
    . exact ⟨_, rfl⟩
    . next hzero =>
      rcases exists_consistencyProof sha256 leaves old.length (by omega) (by omega)
        with ⟨proof, hproof, hverify, _⟩
      rw [← List.prefix_iff_eq_take.mp hpre] at hverify
      rw [hproof, rootHex, Python.fromHex?_ofBytes]
      refine ⟨.growth true old.length leaves.length proof.length, ?_⟩
      simp only [hverify, if_true]

theorem baseline_of_newState {prev : Option State} {call : Call} {leaves : List Bytes} {s : State}
    (h : newState sha256 env prev call leaves = .ok (some s)) : Baseline sha256 s leaves := by
  unfold newState at h
  dsimp only at h
  split at h
  . rcases Except.map_eq_ok.mp h with ⟨key, _, hs⟩
    rw [← Option.some.inj hs]
    exact ⟨rfl, rfl⟩
  . rw [Except.ok.injEq, Option.some.injEq] at h
    rw [← h]
    exact ⟨rfl, rfl⟩
  . rcases Except.bind_eq_ok.mp h with ⟨fits, _, h⟩
    split at h
    . rw [Except.pure_eq_ok, Option.some.injEq] at h
      rw [← h]
      exact ⟨rfl, rfl⟩
    . split at h
      . split at h
        . rw [Except.pure_eq_ok, Option.some.injEq] at h
          rw [← h]
          exact ⟨rfl, rfl⟩
        . simp [Except.pure_eq_ok] at h
      . simp [Except.pure_eq_ok] at h

/--
What a run with a verdict has done: it has read the leaves, compared them with the baseline, and
left the state alone or, if it is green, written one for the leaves.
-/
structure Judged (sha256 : HashFn 32) (env : Env) (state : Option State) (call : Call) (v : Verdict)
    (leaves : List Bytes) : Prop where
  leaves_eq : leavesOf env call.ledger = .ok leaves
  compared : v.ok = true → ∀ prev, state = some prev → ∃ c, compare sha256 prev leaves = .ok (c, [])
  state_eq : (v.stateWritten = false ∧ (run sha256 env state call).1 = state) ∨
    (v.stateWritten = true ∧ v.ok = true ∧
      ∃ s, (run sha256 env state call).1 = some s ∧ Baseline sha256 s leaves)
  kept : v.ok = true → v.stateWritten = false → newState sha256 env state call leaves = .ok none

theorem compared_of_baselineAlerts {prev : State} {call : Call} {leaves : List Bytes}
    {c : Consistency} (h : baselineAlerts sha256 env prev call leaves = .ok (c, []))
    : ∃ c, compare sha256 prev leaves = .ok (c, []) := by
  unfold baselineAlerts at h
  rcases Except.bind_eq_ok.mp h with ⟨pk, _, h⟩
  rcases Except.bind_eq_ok.mp h with ⟨head, _, h⟩
  rcases Except.bind_eq_ok.mp h with ⟨⟨c', grown⟩, hcompare, h⟩
  rcases Except.bind_eq_ok.mp h with ⟨changed, _, h⟩
  simp only [Except.pure_eq_ok, Prod.mk.injEq, List.append_eq_nil_iff] at h
  exact ⟨c', h.2.1.1.2 ▸ hcompare⟩

theorem judged_of_run {state : Option State} {call : Call} {v : Verdict}
    (h : (run sha256 env state call).2 = .ok v)
    : ∃ leaves, Judged sha256 env state call v leaves := by
  have hverdict : ∀ w news, run.verdict sha256 env state call = .ok (w, news) →
      w.stateWritten = false ∧ ∃ leaves, leavesOf env call.ledger = .ok leaves ∧
        (w.ok = true → ∀ prev, state = some prev →
          ∃ c, compare sha256 prev leaves = .ok (c, [])) ∧
        (∀ s, news = some s → w.ok = true ∧ Baseline sha256 s leaves) ∧
        (w.ok = true → newState sha256 env state call leaves = .ok news) := by
    intro w news hw
    unfold run.verdict at hw
    rcases Except.bind_eq_ok.mp hw with ⟨snapshot, _, hw⟩
    rcases Except.bind_eq_ok.mp hw with ⟨leaves, hleaves, hw⟩
    rcases Except.bind_eq_ok.mp hw with ⟨⟨c, baseline⟩, hbaseline, hw⟩
    rcases Except.bind_eq_ok.mp hw with ⟨_, _, hw⟩
    have hcompared : snapshot ++ baseline = [] → ∀ prev, state = some prev →
        ∃ c, compare sha256 prev leaves = .ok (c, []) := by
      rintro hempty prev rfl
      rw [(List.append_eq_nil_iff.mp hempty).2] at hbaseline
      exact compared_of_baselineAlerts hbaseline
    dsimp only at hw
    split at hw
    . next hempty =>
      rcases Except.bind_eq_ok.mp hw with ⟨news', hnews, hw⟩
      rw [Except.pure_eq_ok, Prod.mk.injEq] at hw
      rcases hw with ⟨rfl, rfl⟩
      refine ⟨rfl, leaves, hleaves, fun _ => hcompared (List.isEmpty_iff.mp hempty), ?_,
        fun _ => hnews⟩
      rintro s rfl
      exact ⟨hempty, baseline_of_newState hnews⟩
    . next hnot =>
      rw [Except.pure_eq_ok, Prod.mk.injEq] at hw
      rcases hw with ⟨rfl, rfl⟩
      exact ⟨rfl, leaves, hleaves, fun hok => hcompared (List.isEmpty_iff.mp hok), by simp,
        fun hok => absurd hok hnot⟩
  generalize hrun : run sha256 env state call = result at h
  have hrun' := hrun
  unfold run at hrun'
  split at hrun'
  . rw [← hrun'] at h
    simp at h
  . next w hw =>
    rw [← hrun', Except.ok.injEq] at h
    subst h
    rcases hverdict _ _ hw with ⟨hwritten, leaves, hleaves, hcompared, _, hkept⟩
    refine ⟨leaves, hleaves, hcompared, Or.inl ⟨hwritten, ?_⟩, fun hok _ => hkept hok⟩
    rw [hrun, ← hrun']
  . next w s hw =>
    rcases hverdict _ _ hw with ⟨_, leaves, hleaves, hcompared, hnews, _⟩
    split at hrun'
    . rw [← hrun', Except.ok.injEq] at h
      subst h
      refine ⟨leaves, hleaves, hcompared, Or.inr ⟨rfl, (hnews s rfl).1, s, ?_, (hnews s rfl).2⟩,
        by simp⟩
      rw [hrun, ← hrun']
    . rw [← hrun'] at h
      simp at h

theorem step_of_not_green {state : Option State} {call : Call}
    (h : green? sha256 env state call = none) : step sha256 env state call = state := by
  cases hresult : (run sha256 env state call).2 with
  | ok v =>
    rcases judged_of_run hresult with ⟨leaves, hjudged⟩
    rcases hjudged.state_eq with ⟨_, heq⟩ | ⟨_, hok, _⟩
    . exact heq
    . simp [green?, hresult, hjudged.leaves_eq, hok] at h
  | error e =>
    rw [step]
    unfold run at hresult ⊢
    split at hresult
    . rfl
    . simp at hresult
    . split at hresult
      . simp at hresult
      . next hwritten => rw [if_neg hwritten]

/--
What a green run has done.
-/
theorem judged_of_green {state : Option State} {call : Call} {leaves : List Bytes}
    (h : green? sha256 env state call = some leaves)
    : ∃ v, (run sha256 env state call).2 = .ok v ∧ v.ok = true ∧
        Judged sha256 env state call v leaves := by
  unfold green? at h
  split at h
  . next v leaves' hresult hleaves =>
    rw [Option.ite_none_right_eq_some, Option.some.injEq] at h
    rcases h with ⟨hok, rfl⟩
    rcases judged_of_run hresult with ⟨leaves, hjudged⟩
    have hsame : leaves' = leaves := Except.ok.inj (hleaves.symm.trans hjudged.leaves_eq)
    exact ⟨v, hresult, hok, hsame ▸ hjudged⟩
  . simp at h

/--
A monitor with a key, or without one to trust, writes the state in every green run.
-/
theorem moves_of_green {state : Option State} {call : Call} {leaves : List Bytes}
    (h : green? sha256 env state call = some leaves)
    (hkey : call.keyfile.isSome = true ∨ Tip.given call.trusted = none)
    : moves sha256 env state call = true := by
  rcases judged_of_green h with ⟨v, hresult, hok, hjudged⟩
  rw [moves, hresult]
  by_contra hstays
  have hnone := hjudged.kept hok (Bool.not_eq_true _ ▸ hstays)
  unfold newState at hnone
  dsimp only at hnone
  split at hnone
  . rcases Except.map_eq_ok.mp hnone with ⟨key, _, hs⟩
    simp at hs
  . simp at hnone
  . next htrusted => simp_all

/--
The state is for leaves that start with `old`, or messages collide.
-/
def Keeps (sha256 : HashFn 32) (msgs old : List Bytes) (state : Option State) : Prop :=
  ∃ s leaves, state = some s ∧ Baseline sha256 s leaves ∧ mthQueries sha256 leaves ⊆ msgs ∧
    (old <+: leaves ∨ Collides sha256 msgs)

theorem Keeps.prefix_of_green {msgs old new : List Bytes} {state : Option State} {call : Call}
    (h : Keeps sha256 msgs old state) (hmsgs : queries sha256 env state call ⊆ msgs)
    (hgreen : green? sha256 env state call = some new) : old <+: new ∨ Collides sha256 msgs := by
  rcases h with ⟨s, leaves, rfl, hbaseline, hleaves, hold⟩
  rcases judged_of_green hgreen with ⟨v, _, hok, hjudged⟩
  rcases hjudged.compared hok s rfl with ⟨c, hcompare⟩
  rw [queries, hjudged.leaves_eq] at hmsgs
  rcases List.append_subset.mp hmsgs with ⟨hnew, hqueries⟩
  rcases hold with hold | hcol
  . rcases prefix_of_compare hbaseline hcompare with hpre | hcol
    . exact Or.inl (hold.trans hpre)
    . exact Or.inr (hcol.mono (List.append_subset.mpr
        ⟨hqueries, List.append_subset.mpr ⟨hleaves, hnew⟩⟩))
  . exact Or.inr hcol

theorem Keeps.step {msgs old : List Bytes} {state : Option State} {call : Call}
    (h : Keeps sha256 msgs old state) (hmsgs : queries sha256 env state call ⊆ msgs)
    : Keeps sha256 msgs old (step sha256 env state call) := by
  cases hgreen : green? sha256 env state call with
  | none =>
    rw [step_of_not_green hgreen]
    exact h
  | some new =>
    rcases judged_of_green hgreen with ⟨v, _, hok, hjudged⟩
    rcases hjudged.state_eq with ⟨_, heq⟩ | ⟨_, _, s, heq, hbaseline⟩
    . rw [Monitor.step, heq]
      exact h
    . have hpre := h.prefix_of_green hmsgs hgreen
      rw [queries, hjudged.leaves_eq] at hmsgs
      exact ⟨s, new, heq, hbaseline, (List.append_subset.mp hmsgs).1, hpre⟩

theorem Keeps.run {msgs old : List Bytes} {state : Option State} {calls : List Call}
    (h : Keeps sha256 msgs old state) (hmsgs : runQueries sha256 env state calls ⊆ msgs)
    : Keeps sha256 msgs old (Runs.run (Monitor.step sha256 env) state calls) := by
  induction calls generalizing state with
  | nil => exact h
  | cons call calls ih =>
    rcases List.append_subset.mp hmsgs with ⟨hcall, hcalls⟩
    exact ih (h.step hcall) hcalls

theorem runQueries_append (state : Option State) (xs ys : List Call)
    : runQueries sha256 env state (xs ++ ys)
        = runQueries sha256 env state xs
          ++ runQueries sha256 env (Runs.run (step sha256 env) state xs) ys := by
  induction xs generalizing state with
  | nil => rfl
  | cons call xs ih =>
    rw [List.cons_append, runQueries, runQueries, ih, List.append_assoc]
    rfl

end

/--
The comparison with a baseline raises an alert exactly when the ledger does not start with the
leaves that the baseline was written for, or two of the hashed messages collide.
-/
theorem compare_exact (sha256 : HashFn 32) (s : State) (old leaves : List Bytes)
    (hold : Baseline sha256 s old)
    : ((∃ c, compare sha256 s leaves = .ok (c, [])) ↔ old <+: leaves) ∨
        Collides sha256
          (compareQueries sha256 s leaves ++
            (mthQueries sha256 old ++ mthQueries sha256 leaves)) := by
  by_cases hsound : ∃ c, compare sha256 s leaves = .ok (c, [])
  . rcases hsound with ⟨c, hc⟩
    exact (prefix_of_compare hold hc).imp (fun hpre => ⟨fun _ => hpre, fun _ => ⟨c, hc⟩⟩) id
  . exact Or.inl ⟨fun h => absurd h hsound, fun hpre => compare_of_prefix hold hpre⟩

theorem compare_exact_two_three
    : ((∃ c, compare sha256 ⟨2, rootHex sha256 [[0x61], [0x62]], [], [], none, none⟩
          [[0x61], [0x62], [0x63]] = .ok (c, [])) ↔
        ([[0x61], [0x62]] : List Bytes) <+: [[0x61], [0x62], [0x63]]) ∨
      Collides sha256
        (compareQueries sha256 ⟨2, rootHex sha256 [[0x61], [0x62]], [], [], none, none⟩
            [[0x61], [0x62], [0x63]] ++
          (mthQueries sha256 [[0x61], [0x62]] ++ mthQueries sha256 [[0x61], [0x62], [0x63]])) :=
  compare_exact sha256 _ [[0x61], [0x62]] [[0x61], [0x62], [0x63]] ⟨rfl, rfl⟩

/--
Runs of the monitor on one state file that nothing else writes. A run that is not green leaves the
state as it was. A green run with a log key, or without a key to trust, writes the state; and after
a run that has written it, every green run sees a ledger that starts with the leaves of that run, or
two of the hashed messages collide.
-/
theorem runs_appendOnly (sha256 : HashFn 32) (env : Env) (before : List Call) (call : Call)
    : (green? sha256 env (Runs.run (step sha256 env) none before) call = none →
        Runs.run (step sha256 env) none (before ++ [call])
          = Runs.run (step sha256 env) none before) ∧
      ∀ leaves, green? sha256 env (Runs.run (step sha256 env) none before) call = some leaves →
        ((call.keyfile.isSome = true ∨ Tip.given call.trusted = none) →
          moves sha256 env (Runs.run (step sha256 env) none before) call = true) ∧
        (moves sha256 env (Runs.run (step sha256 env) none before) call = true →
          ∀ between later new,
            green? sha256 env (Runs.run (step sha256 env) none (before ++ call :: between)) later
              = some new →
            leaves <+: new ∨
              Collides sha256
                (runQueries sha256 env none (before ++ call :: (between ++ [later])))) := by
  refine ⟨fun hgreen => ?_, fun leaves hgreen => ⟨moves_of_green hgreen, ?_⟩⟩
  . rw [Runs.run_append, Runs.run_cons, Runs.run_nil, step_of_not_green hgreen]
  . intro hmoves between later new hlater
    rcases judged_of_green hgreen with ⟨v, hresult, _, hjudged⟩
    have hmsgs := @runQueries_append sha256 env none before (call :: (between ++ [later]))
    have htail := @runQueries_append sha256 env
      (step sha256 env (Runs.run (step sha256 env) none before) call) between [later]
    generalize runQueries sha256 env none (before ++ call :: (between ++ [later])) = msgs at hmsgs ⊢
    have hcall : queries sha256 env (Runs.run (step sha256 env) none before) call ⊆ msgs := by
      rw [hmsgs]
      exact List.subset_append_of_subset_right _ (List.subset_append_left _ _)
    have hrest : runQueries sha256 env
        (step sha256 env (Runs.run (step sha256 env) none before) call) (between ++ [later])
          ⊆ msgs := by
      rw [hmsgs]
      exact List.subset_append_of_subset_right _ (List.subset_append_right _ _)
    rw [htail] at hrest
    rcases List.append_subset.mp hrest with ⟨hbetween, hlast⟩
    have hkeeps : Keeps sha256 msgs leaves
        (step sha256 env (Runs.run (step sha256 env) none before) call) := by
      rcases hjudged.state_eq with ⟨hwritten, _⟩ | ⟨_, _, s, heq, hbaseline⟩
      . simp [moves, hresult, hwritten] at hmoves
      . rw [queries, hjudged.leaves_eq] at hcall
        exact ⟨s, leaves, heq, hbaseline, (List.append_subset.mp hcall).1, Or.inl List.prefix_rfl⟩
    rw [Runs.run_append, Runs.run_cons] at hlater
    exact (hkeeps.run hbetween).prefix_of_green
      (fun msg hmsg => hlast (List.mem_append_left _ hmsg)) hlater

end Monitor
end CryptoValid
