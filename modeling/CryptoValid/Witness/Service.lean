import CryptoValid.Witness.Body
import CryptoValid.Witness.Relied

/-!
This module contains the witness as a service: the logs that it serves, and its answers to requests
to add a checkpoint. A request that is good is answered with the lines of the witness, and one that
starts from another size than the stored one with that size.
-/

namespace CryptoValid
namespace Witness

open Checkpoint

structure Response where
  status : Nat
  body : Bytes
  deriving DecidableEq

/--
The keys of the witness, and of the logs with their origins.
-/
structure Service where
  keys : Keys
  logs : Dict Str (List Str)

def addLog (logs : Dict Str (List Str)) (origin v : Str) : Dict Str (List Str) :=
  logs.set origin ((logs.get? origin).getD [] ++ [v])

/--
The largest body that is read, 2 MiB.
-/
def maxBody : Nat := 2 <<< 20

/--
What is answered to a request that did not raise.
-/
def Out.response (out : Out) : Response :=
  if out.httpStatus = 409 then
    ⟨409, utf8 ((out.storedSize.map Json.natText).getD (txt "None") ++ [newline])⟩
  else if out.outcome ≠ .cosigned then
    ⟨out.httpStatus, utf8 (out.reason.getD (txt "None") ++ [newline])⟩
  else
    ⟨200, out.cosignature.getD []⟩

section

variable (sha256 : HashFn 32) (crypto : Crypto)

/--
`_log_key`.
-/
def logKey (v : Str) : Except NoteError Str := do
  let key ← parseVkey sha256 true v
  if key.typ ∉ logKeyTypes then
    .error (key.name ++ txt ": a log key must be an Ed25519 (0x01) or ECDSA (0x02) note key, " ++
      txt "not a cosigner key")
  else
    return key.name

/--
The origin of a log is the name of its key, or it is given with the keys.
-/
def Service.create (keys : Keys) (logVkeys : List Str) (origins : List (Str × List Str))
    : Except NoteError Service := do
  let logs ← logVkeys.foldlM (fun logs v => do return addLog logs (← logKey sha256 v) v) Dict.empty
  let logs ← origins.foldlM (fun logs o =>
    if o.1.isEmpty || o.1.any isControl then
      .error (txt "origin must be a non-empty line without control characters")
    else
      o.2.foldlM (fun logs v => do
        let _ ← logKey sha256 v
        return addLog logs o.1 v) logs) logs
  if logs.items.isEmpty then
    .error (txt "a witness needs at least one trusted log")
  else
    return ⟨keys, logs⟩

/--
The request that a body makes. Its note has been decoded with the body, so that the first line is
there as text.
-/
def AddCheckpoint.request (b : AddCheckpoint) (vkeys : List Str) (origin : Str)
    (timestamp : Option Int) : Request where
  note := b.note
  logVkeys := vkeys
  proof := b.proof
  timestamp
  oldSize := some b.oldSize
  expectedOrigin := some origin

def AddCheckpoint.origin (b : AddCheckpoint) : Str :=
  (Separated.split newline ((Utf8.decode? b.note).getD [])).headD []

/--
`WitnessService.add_checkpoint`.
-/
def Service.addCheckpoint (s : Service) (host : Host) (files : Files) (timestamp : Option Int)
    (body : Bytes) : Files × Response :=
  match parseAddCheckpointBody body with
  | .error e => (files, ⟨400, utf8 (e ++ [newline])⟩)
  | .ok b =>
    match s.logs.get? b.origin with
    | none => (files, ⟨404, utf8 (txt "unknown log origin\n")⟩)
    | some vkeys =>
      match witnessCosign sha256 crypto s.keys host files (b.request vkeys b.origin timestamp) with
      | (files, .error _) => (files, ⟨500, utf8 (txt "witness error\n")⟩)
      | (files, .ok out) => (files, out.response)

/--
`do_POST`: a body that is too long is not read. The requests come one after the other, each to the
next host.
-/
def Service.post (s : Service) (hosts : Nat → Host) (state : Files × Nat) (body : Bytes)
    : (Files × Nat) × Response :=
  if maxBody < body.length then
    ((state.1, state.2 + 1), ⟨413, []⟩)
  else
    match s.addCheckpoint sha256 crypto (hosts state.2) state.1 none body with
    | (files, response) => ((files, state.2 + 1), response)

end

/-!
### Good requests
-/

section

variable {sha256 : HashFn 32} {crypto : Crypto} {keys : Keys}

theorem origin_of_parse {text : Str} {lines : List Str} {sigs : List (Str × Bytes)} {cp : Parsed}
    {note : Bytes} (hnote : IsNote note text lines sigs) (hcp : parseCheckpoint text = .ok cp)
    (oldSize : Nat) (proof : List Str) : AddCheckpoint.origin ⟨oldSize, proof, note⟩ = cp.origin := by
  rcases parseCheckpoint_eq_ok.mp hcp with ⟨hcheckpoint, htext⟩
  have hplain := hcheckpoint.origin.2.newline_not_mem
  rw [AddCheckpoint.origin, hnote.decode_eq, Option.getD_some, render, htext, checkpointLines,
    Separated.terminated_cons]
  simp only [List.append_assoc, List.cons_append]
  rw [Separated.split_append newline _ _ hplain]
  rfl

theorem length_utf8_le (s : Str) : (utf8 s).length ≤ 4 * s.length := by
  induction s with
  | nil => exact Nat.le_refl _
  | cons c s ih =>
    have hcons : utf8 (c :: s) = Utf8.encodePoint c ++ utf8 s := rfl
    have hpoint : (Utf8.encodePoint c).length ≤ 4 := by
      unfold Utf8.encodePoint
      split_ifs <;> simp
    rw [hcons, List.length_append, List.length_cons]
    omega

theorem length_terminated_le {lines : List Str} {k : Nat} (h : ∀ line ∈ lines, line.length ≤ k)
    : (Separated.terminated newline lines).length ≤ lines.length * (k + 1) := by
  induction lines with
  | nil => exact Nat.zero_le _
  | cons line lines ih =>
    rw [List.forall_mem_cons] at h
    have hrest := ih h.2
    rw [Separated.terminated_cons, List.length_append, List.length_cons, List.length_cons,
      Nat.add_mul]
    omega

/--
The proofs of a client: hashes in base64, and no more than a tree can need.
-/
structure IsProof (proof : List Str) : Prop where
  length_le : proof.length ≤ maxProof
  lines : ∀ line ∈ proof, ∃ hash : Bytes, hash.length = 32 ∧ line = Base64.encode hash

theorem IsProof.isProofLine {proof : List Str} (h : IsProof proof)
    : ∀ line ∈ proof, isProofLine line = true := by
  intro line hline
  rcases h.lines line hline with ⟨hash, hlen, rfl⟩
  rw [Witness.isProofLine, Base64.decode?_encode, Option.any_some, hlen, decide_eq_true rfl]

/--
A request with such a proof is not much longer than its note.
-/
theorem exists_body {b : AddCheckpoint} (hold : b.oldSize < 10 ^ 20) (hproof : IsProof b.proof)
    : ∃ body, formatAddCheckpointBody b.oldSize b.proof b.note = some body ∧
        body.length ≤ b.note.length + 2 ^ 14 := by
  refine ⟨_, formatAddCheckpointBody_eq b fun line hline =>
    (plain_of_isProofLine (hproof.isProofLine line hline)).2.2, ?_⟩
  have hnum : (Json.natText b.oldSize).length ≤ 20 := Json.length_natText_le hold
  have hlines : (Separated.terminated newline b.proof).length ≤ b.proof.length * (44 + 1) := by
    refine length_terminated_le fun line hline => ?_
    rcases hproof.lines line hline with ⟨hash, hlen, rfl⟩
    rw [Base64.length_encode, hlen]
  have hhead : (txt "old ").length = 4 := rfl
  have hutf8 := length_utf8_le (Separated.terminated newline (headLines b) ++ [newline])
  have hproof := hproof.length_le
  rw [headLines, Separated.terminated_cons] at hutf8 ⊢
  simp only [List.length_append, List.length_cons, List.length_nil, hhead] at hutf8 ⊢
  unfold maxProof at hproof
  omega

/--
What the client sends is read back, and handed to the witness with the keys of the log.
-/
theorem Service.post_eq (hosts : Nat → Host) (b : AddCheckpoint) {s : Service}
    {files files' : Files} {n : Nat} {body : Bytes} {vkeys : List Str} {text : Str} {lines : List Str}
    {sigs : List (Str × Bytes)} {cp : Parsed} {out : Out} (hnote : IsNote b.note text lines sigs)
    (hcp : parseCheckpoint text = .ok cp) (hserved : s.logs.get? cp.origin = some vkeys)
    (hold : b.oldSize < 10 ^ 20) (hproof : IsProof b.proof)
    (hbody : formatAddCheckpointBody b.oldSize b.proof b.note = some body)
    (hlen : body.length ≤ maxBody)
    (hcosign : witnessCosign sha256 crypto s.keys (hosts n) files (b.request vkeys cp.origin none)
      = (files', .ok out))
    : s.post sha256 crypto hosts (files, n) body = ((files', n + 1), out.response) := by
  have horigin : b.origin = cp.origin := origin_of_parse hnote hcp b.oldSize b.proof
  have hsendable : Sendable b := by
    refine ⟨hold, hproof.length_le, hproof.isProofLine, _, hnote.decode_eq, ?_, ?_⟩
    . simp [render]
    . rcases parseCheckpoint_eq_ok.mp hcp with ⟨hcheckpoint, htext⟩
      rw [render, htext, checkpointLines, Separated.terminated_cons]
      cases horg : cp.origin with
      | nil => exact absurd horg hcheckpoint.origin.1
      | cons c rest =>
        have hplain := hcheckpoint.origin.2.newline_not_mem
        rw [horg, List.mem_cons, not_or] at hplain
        simpa using Ne.symm hplain.1
  unfold Service.post Service.addCheckpoint
  rw [if_neg (Nat.not_lt.mpr hlen), parseAddCheckpointBody_format hsendable hbody]
  simp only [horigin, hserved, hcosign]

/-!
### A request that is looked at
-/

/--
The writes of a request succeed, and its clock shows a time that can be signed.
-/
structure Host.Good (host : Host) : Prop where
  eq_good : host = .good host.recordedAt host.cosignedAt
  timestamp_ok : timestampOk host.cosignedAt = true

theorem commit_of_good {host : Host} {files : Files} {plan : Plan} {out : Out} (hhost : host.Good)
    (hresult : plan.result = .ok out)
    : commit host files plan
        = ({ state := plan.save.or files.state
             evidence := files.evidence ++ plan.records
             cosigned := files.cosigned ++ plan.history.toList }, .ok out) := by
  rw [hhost.eq_good]
  unfold commit
  simp only [Host.good, hresult, Bool.and_false, Bool.false_eq_true, ↓reduceIte]
  cases plan.save <;> rfl

theorem witnessCosign_of_good {host : Host} {files : Files} {r : Request} {p : Presented} {out : Out}
    (hhost : host.Good) (hpresent : present sha256 crypto keys r = .ok (.inr p))
    (hresult : (cosignLocked sha256 crypto keys host files p r).result = .ok out)
    : (witnessCosign sha256 crypto keys host files r).2 = .ok out ∧
        (witnessCosign sha256 crypto keys host files r).1.state
          = (cosignLocked sha256 crypto keys host files p r).save.or files.state := by
  have hread : host.readFails = false := by rw [hhost.eq_good, Host.good]
  unfold witnessCosign
  simp only [hpresent, hread, Bool.false_eq_true, ↓reduceIte, commit_of_good hhost hresult,
    and_self]

/--
A request that starts from another size is told the stored size; the stored checkpoints stay as they
are.
-/
theorem witnessCosign_conflict {host : Host} {files : Files} {r : Request} {p : Presented} {e : Entry}
    {old : Nat} (hpresent : present sha256 crypto keys r = .ok (.inr p)) (hhost : host.Good)
    (htimestamp : r.timestamp = none) (hold : r.oldSize = some (old : Int))
    (hstored : files.load.origins.get? p.cp.origin = some e) (hle : old ≤ p.cp.size)
    (hne : old ≠ e.size)
    : ∃ out, (witnessCosign sha256 crypto keys host files r).2 = .ok out ∧ out.httpStatus = 409 ∧
        out.storedSize = some e.size ∧
        (witnessCosign sha256 crypto keys host files r).1.load.origins = files.load.origins := by
  have hsize : (p.ctx host files r).storedSize = e.size := by
    simp [Ctx.storedSize, Presented.ctx, hstored]
  have hgate : ∀ d, ∃ reason, gate sha256 (p.ctx host files r) r d = some (d, 409, reason) := by
    intro d
    have hcp : (p.ctx host files r).cp = p.cp := rfl
    unfold gate
    simp only [hold, Option.getD_some, hsize, hcp]
    rw [if_neg (by omega), if_pos (by omega)]
    exact ⟨_, rfl⟩
  rcases hgate (look sha256 (p.ctx host files r) (.start files.load)) with ⟨reason, hgate⟩
  have hplan : cosignLocked sha256 crypto keys host files p r
      = .refuse { p.out with storedSize := some e.size }
          (look sha256 (p.ctx host files r) (.start files.load)) 409 reason := by
    unfold cosignLocked
    simp only [htimestamp, Option.any_none, Bool.false_eq_true, ↓reduceIte, hgate, hsize]
  have horigins : (look sha256 (p.ctx host files r) (.start files.load)).st.origins
      = files.load.origins :=
    origins_of_reached fun Inv keeps hstart => keeps.look hstart
  generalize look sha256 (p.ctx host files r) (.start files.load) = d at hplan horigins
  rcases witnessCosign_of_good hhost hpresent (by rw [hplan]; rfl) with ⟨hout, hstate⟩
  refine ⟨_, hout, rfl, rfl, ?_⟩
  rw [hplan, Plan.refuse] at hstate
  rw [Files.load, hstate]
  dsimp only
  split
  . exact horigins
  . rfl

/--
A request with nothing in its way is answered with the lines of the witness, and its checkpoint is
stored.
-/
theorem witnessCosign_signed {host : Host} {files : Files} {r : Request} {p : Presented}
    {logKeys : List VKey} {lines : List Str} {own : List Bytes}
    (haccepted : Accepted sha256 crypto keys r p logKeys lines own) (hsign : CanSign crypto keys)
    (hkept : p.kept ≠ []) (hhost : host.Good) (htimestamp : r.timestamp = none)
    (hgate : gate sha256 (p.ctx host files r) r
      (look sha256 (p.ctx host files r) (.start files.load)) = none)
    : ∃ out raws, (witnessCosign sha256 crypto keys host files r).2 = .ok out ∧
        OwnLines sha256 crypto keys p.text p.cp host.cosignedAt raws ∧
        out.response = ⟨200, utf8 (Separated.terminated newline (ownLines keys raws))⟩ ∧
        ∃ e, (witnessCosign sha256 crypto keys host files r).1.load.origins.get? p.cp.origin = some e ∧
          e.size = p.cp.size ∧ e.rootB64 = Base64.encode p.cp.root := by
  rcases haccepted.exists_cosignNote hsign hkept hhost.timestamp_ok with ⟨cosigned, added, hcosign⟩
  rcases haccepted.cosignNote_eq_ok hcosign with ⟨raws, hown, _, hadded⟩
  have hplan : ∃ out d, cosignLocked sha256 crypto keys host files p r
      = Plan.sign sha256 crypto keys p (p.ctx host files r) out d host.cosignedAt := by
    unfold cosignLocked
    simp only [htimestamp, Option.any_none, Bool.false_eq_true, ↓reduceIte, hgate, Option.getD_none]
    exact ⟨_, _, rfl⟩
  rcases hplan with ⟨out, d, hplan⟩
  unfold Plan.sign at hplan
  simp only [hcosign] at hplan
  rcases witnessCosign_of_good hhost haccepted.present_eq (by rw [hplan]) with ⟨hout, hstate⟩
  refine ⟨_, raws, hout, hown, ?_, ?_⟩
  . rw [← hadded]
    rfl
  . rw [hplan] at hstate
    rw [Files.load, hstate]
    exact ⟨_, Dict.get?_set_self _ _ _, rfl, rfl⟩

end

end Witness
end CryptoValid
