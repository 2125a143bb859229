import CryptoValid.Lib.Runs
import CryptoValid.Merkle.Line
import CryptoValid.Witness.Steps

/-!
This module contains the runs of a witness, and that it only ever cosigns along one line for each
origin. What is shown of one request is how the stored checkpoints before and after it are related.
-/

namespace CryptoValid
namespace Witness

open Checkpoint Merkle

/-!
### Runs
-/

/--
A request, and what the machine does to it.
-/
structure Call where
  host : Host
  request : Request

section

variable (sha256 : HashFn 32) (crypto : Crypto) (keys : Keys)

def step (files : Files) (call : Call) : Files :=
  (witnessCosign sha256 crypto keys call.host files call.request).1

/--
The files after some requests, one after the other.
-/
def run (calls : List Call) : Files := Runs.run (step sha256 crypto keys) .empty calls

/--
The checkpoint of a note that was cosigned.
-/
def granted (files : Files) (call : Call) : Option Parsed :=
  match (witnessCosign sha256 crypto keys call.host files call.request).2 with
  | .error _ => none
  | .ok out =>
    if out.outcome = .cosigned then ((out.note.bind Utf8.decode?).bind shown) else none

/--
What is hashed to check the consistency proof of a request.
-/
def queries (files : Files) (call : Call) : List Bytes :=
  match present sha256 crypto keys call.request with
  | .ok (.inr p) =>
    match files.load.origins.get? p.cp.origin, call.request.proof.mapM Base64.decode? with
    | some prev, some proof =>
      verifyConsistencyQueries sha256 prev.size p.cp.size proof
        ((Base64.decode? prev.rootB64).getD [])
    | _, _ => []
  | _ => []

def runQueries (files : Files) : List Call → List Bytes
  | [] => []
  | call :: calls =>
    queries sha256 crypto keys files call ++ runQueries (step sha256 crypto keys files call) calls

end

section

variable {sha256 : HashFn 32} {crypto : Crypto} {keys : Keys}

/-!
### One request
-/

theorem origins_of_reached {c : Ctx} {st : State} {d : Draft} (h : Reached sha256 c st d)
    : d.st.origins = st.origins := by
  refine h (fun d => d.st.origins = st.origins) ⟨?_, ?_, ?_⟩ rfl
  . intro d root note hd _ _
    rcases proof_eq sha256 c d root note with heq | ⟨proofsSeen, heq⟩
    . rw [heq]
      exact hd
    . rw [heq]
      exact hd
  . exact fun d _ _ _ hd => hd
  . exact fun d _ hd _ => hd

def Entry.root (e : Entry) : Bytes := (Base64.decode? e.rootB64).getD []

variable (sha256) in
/--
A stored checkpoint as the witness stores it.
-/
structure Stored (e : Entry) : Prop where
  length_eq : e.root.length = 32
  empty : e.size = 0 → e.root = emptyRoot sha256

/--
What a request does to the stored checkpoints: nothing, or it stores a checkpoint that follows.
-/
inductive Moves (sha256 : HashFn 32) (crypto : Crypto) (keys : Keys) (call : Call)
    (files files' : Files) : Prop
  | same (h : files'.load.origins = files.load.origins)
    (hrefused : ∀ out, (witnessCosign sha256 crypto keys call.host files call.request).2 = .ok out →
      out.outcome = .refused)
  | stored (p : Presented) (e : Entry)
    (hpresent : present sha256 crypto keys call.request = .ok (.inr p))
    (hsize : e.size = p.cp.size) (hroot : e.rootB64 = Base64.encode p.cp.root)
    (hlen : p.cp.root.length = 32) (hempty : p.cp.size = 0 → p.cp.root = emptyRoot sha256)
    (hfollows : ∀ prev, files.load.origins.get? p.cp.origin = some prev →
      Follows sha256 prev p.cp call.request.proof)
    (hstate : ∃ st, files'.state = some st ∧
      st.origins = files.load.origins.set p.cp.origin e)
    (hgranted : granted sha256 crypto keys files call = some p.cp)
    (hout : ∃ out, (witnessCosign sha256 crypto keys call.host files call.request).2 = .ok out ∧
      out.origin = some p.cp.origin ∧ out.size = some p.cp.size)

theorem granted_eq_none {files : Files} {call : Call}
    (h : ∀ out, (witnessCosign sha256 crypto keys call.host files call.request).2 = .ok out →
      out.outcome = .refused) : granted sha256 crypto keys files call = none := by
  unfold granted
  split
  . rfl
  . next out hout =>
    rw [h out hout]
    rfl

/--
A request that is turned away before the lock is refused.
-/
theorem outcome_of_present {r : Request} {out : Out}
    (h : present sha256 crypto keys r = .ok (.inl out)) : out.outcome = .refused := by
  have hrefuse : ∀ (o : Out) status reason, o.outcome = .refused →
      (.ok (.inl (o.refuse status reason)) : Except NoteError (Out ⊕ Presented)) = .ok (.inl out) →
      out.outcome = .refused := by
    intro o status reason ho heq
    simp only [Except.ok.injEq, Sum.inl.injEq] at heq
    rw [← heq]
    exact ho
  unfold present at h
  split at h
  . exact hrefuse _ _ _ rfl h
  . split at h
    . simp at h
    . rcases Except.bind_eq_ok.mp h with ⟨logKeys, _, h⟩
      rcases Except.bind_eq_ok.mp h with ⟨v, _, h⟩
      dsimp only at h
      split at h
      . exact hrefuse _ _ _ rfl h
      . split at h
        . exact hrefuse _ _ _ rfl h
        . split at h
          . exact hrefuse _ _ _ rfl h
          . split at h
            . simp at h
            . split at h
              . exact hrefuse _ _ _ rfl h
              . split at h
                . exact hrefuse _ _ _ rfl h
                . split at h
                  . exact hrefuse _ _ _ rfl h
                  . rcases Except.bind_eq_ok.mp h with ⟨own, _, h⟩
                    split at h
                    . exact hrefuse _ _ _ rfl h
                    . split at h
                      . exact hrefuse _ _ _ rfl h
                      . have h := Except.pure_eq_ok.mp h
                        simp at h

/--
What is written of a request that is looked at.
-/
theorem commit_moves {files : Files} {call : Call} {p : Presented} {logKeys : List VKey}
    {lines : List Str} {own : List Bytes}
    (hpresent : present sha256 crypto keys call.request = .ok (.inr p))
    (haccepted : Accepted sha256 crypto keys call.request p logKeys lines own)
    (hw : witnessCosign sha256 crypto keys call.host files call.request
      = commit call.host files (cosignLocked sha256 crypto keys call.host files p call.request))
    : Moves sha256 crypto keys call files
        (commit call.host files
          (cosignLocked sha256 crypto keys call.host files p call.request)).1 := by
  rcases commit_cases call.host files
    (cosignLocked sha256 crypto keys call.host files p call.request) with
    ⟨e, herror, hfiles⟩ | ⟨out, hresult, hcommit⟩
  . refine .same ?_ ?_
    . rcases hfiles with hfiles | hfiles | hfiles <;> rw [hfiles] <;> rfl
    . rw [hw, herror]
      simp
  . rw [hcommit]
    rcases cosignLocked_cases sha256 crypto keys call.host files p call.request with
      ⟨e, hplan⟩ | ⟨out', d, status, reason, hreached, hplan, hout'⟩ |
        ⟨out', d, timestamp, hreached, hempty, hfollows, hplan, hout'⟩
    . rw [hplan] at hresult
      simp [Plan.raise] at hresult
    . rw [hplan] at hresult ⊢
      refine .same ?_ ?_
      . simp only [Plan.refuse, Files.load]
        split
        . exact origins_of_reached hreached
        . rfl
      . intro o ho
        rw [hw, hcommit] at ho
        rw [← Except.ok.inj ho, ← Except.ok.inj hresult, hout', haccepted.out_eq]
        rfl
    . rw [hplan] at hresult ⊢
      unfold Plan.sign at hresult ⊢
      split at hresult
      . simp at hresult
      . next cosigned added hcosign =>
        dsimp only at hresult ⊢
        rcases haccepted.cosignNote_eq_ok hcosign with ⟨raws, hown, hnote, hadded⟩
        have hout := Except.ok.inj hresult
        refine .stored p ⟨p.cp.size, Base64.encode p.cp.root,
          (p.ctx call.host files call.request).presentato ++ (Utf8.decode? added).getD [], timestamp⟩
          hpresent rfl rfl (isCheckpoint_of_parse haccepted.opened.parse_eq).2 hempty hfollows
          ⟨_, rfl, ?_⟩ ?_ ⟨out, ?_, ?_⟩
        . rw [origins_of_reached hreached]
          rfl
        . unfold granted
          rw [hw, hcommit, ← hout]
          simp only [↓reduceIte, Option.bind_some]
          have hlines : ∀ line ∈ p.kept ++ ownLines keys raws,
              (line ≠ [] ∧ newline ∉ line) ∧ Str.Scalar line := by
            intro line hline
            rcases List.mem_append.mp hline with hline | hline
            . exact haccepted.lines_plain line (haccepted.mem_kept_iff.mp hline).1
            . exact ownLines_plain hown line hline
          have hscalar : Str.Scalar (render p.text (p.kept ++ ownLines keys raws)) := by
            rw [render, Str.scalar_append, Str.scalar_cons]
            exact ⟨haccepted.text_ends.2, by decide,
              scalar_terminated fun line hline => (hlines line hline).2⟩
          rw [hnote, decode?_utf8 hscalar, Option.bind_some,
            shown_render (fun line hline => (hlines line hline).1) haccepted.opened.parse_eq]
        . rw [hw, hcommit]
        . rw [← hout, hout', haccepted.out_eq]
          exact ⟨rfl, rfl⟩

variable (sha256 crypto keys) in
theorem step_moves (files : Files) (call : Call)
    : Moves sha256 crypto keys call files (step sha256 crypto keys files call) := by
  unfold step
  have hquiet : ∀ res : Except Raised Out, (∀ out, res = .ok out → out.outcome = .refused) →
      witnessCosign sha256 crypto keys call.host files call.request = (files, res) →
      Moves sha256 crypto keys call files files := by
    intro res hres hw
    refine .same rfl ?_
    rw [hw]
    exact hres
  cases hpresent : present sha256 crypto keys call.request with
  | error e =>
    have hw : witnessCosign sha256 crypto keys call.host files call.request
        = (files, .error (.note e)) := by
      unfold witnessCosign
      rw [hpresent]
    rw [hw]
    exact hquiet _ (by simp) hw
  | ok looked =>
    cases looked with
    | inl out =>
      have hw : witnessCosign sha256 crypto keys call.host files call.request = (files, .ok out) := by
        unfold witnessCosign
        rw [hpresent]
      rw [hw]
      refine hquiet _ ?_ hw
      intro out' hout'
      rw [← Except.ok.inj hout']
      exact outcome_of_present hpresent
    | inr p =>
      rcases accepted_of_present hpresent with ⟨logKeys, lines, own, haccepted⟩
      by_cases hread : call.host.readFails
      . have hw : witnessCosign sha256 crypto keys call.host files call.request
            = (files, .error .unreadable) := by
          unfold witnessCosign
          rw [hpresent]
          simp [hread]
        rw [hw]
        exact hquiet _ (by simp) hw
      . have hw : witnessCosign sha256 crypto keys call.host files call.request
            = commit call.host files
                (cosignLocked sha256 crypto keys call.host files p call.request) := by
          unfold witnessCosign
          rw [hpresent]
          simp [hread]
        rw [hw]
        exact commit_moves hpresent haccepted hw

/-!
### Whole runs
-/

variable (sha256) in
/--
A later checkpoint of the same origin: it is as large at least, and on the line of the earlier one.
-/
structure Advances (msgs : List Bytes) (e e' : Entry) : Prop where
  size_le : e.size ≤ e'.size
  root_eq : e.size = e'.size → e.root = e'.root
  line : Line sha256 msgs e.root e'.root

variable (sha256) in
/--
No stored checkpoint is lost or goes back.
-/
def Grows (msgs : List Bytes) (files files' : Files) : Prop :=
  ∀ origin e, files.load.origins.get? origin = some e →
    ∃ e', files'.load.origins.get? origin = some e' ∧ Advances sha256 msgs e e'

theorem Advances.refl (msgs : List Bytes) (e : Entry) : Advances sha256 msgs e e :=
  ⟨Nat.le_refl _, fun _ => rfl, Line.refl _⟩

theorem Grows.refl (msgs : List Bytes) (files : Files) : Grows sha256 msgs files files :=
  fun _ e h => ⟨e, h, .refl msgs e⟩

theorem Grows.trans {msgs : List Bytes} {a b c : Files} (h : Grows sha256 msgs a b)
    (h' : Grows sha256 msgs b c) : Grows sha256 msgs a c := by
  intro origin e he
  rcases h origin e he with ⟨e₁, he₁, hadv⟩
  rcases h' origin e₁ he₁ with ⟨e₂, he₂, hadv'⟩
  have hle := hadv.size_le
  have hle' := hadv'.size_le
  refine ⟨e₂, he₂, Nat.le_trans hle hle', ?_, hadv.line.trans hadv'.line⟩
  intro hsize
  exact (hadv.root_eq (by omega)).trans (hadv'.root_eq (by omega))

variable (sha256) in
/--
Every checkpoint in the state file is one that the witness stored.
-/
def AllStored (files : Files) : Prop :=
  ∀ origin e, files.load.origins.get? origin = some e → Stored sha256 e

theorem line_of_follows {msgs : List Bytes} {prev : Entry} {cp : Parsed} {proof : List Str}
    (h : Follows sha256 prev cp proof) (hprev : Stored sha256 prev) (hempty : [] ∈ msgs)
    (hmsgs : ∀ hashes, proof.mapM Base64.decode? = some hashes →
      verifyConsistencyQueries sha256 prev.size cp.size hashes prev.root ⊆ msgs)
    : Line sha256 msgs prev.root cp.root := by
  rcases Nat.eq_zero_or_pos prev.size with hzero | hpos
  . rw [hprev.empty hzero]
    exact Line.of_empty _
  . rcases Nat.eq_or_lt_of_le h.size_le with heq | hlt
    . rw [h.root_eq heq.symm]
      exact Line.refl _
    . have hverify := h.consistent hpos hlt
      unfold verifyConsistencyB64 at hverify
      split at hverify
      . simp at hverify
      . next hashes hdecode =>
        split at hverify
        . simp at hverify
        . next hlen =>
          rw [if_neg (by omega), if_neg (by simp [hpos, hlt])] at hverify
          simp only [List.any_eq_true, decide_eq_true_eq, not_exists, not_and,
            Decidable.not_not] at hlen
          exact line_of_verifyConsistency hprev.length_eq hlen hempty (hmsgs hashes hdecode) (by omega)
            hverify

theorem grows_step {msgs : List Bytes} {files : Files} {call : Call}
    (hstored : AllStored sha256 files)
    (hempty : [] ∈ msgs) (hmsgs : queries sha256 crypto keys files call ⊆ msgs)
    : Grows sha256 msgs files (step sha256 crypto keys files call) ∧
        AllStored sha256 (step sha256 crypto keys files call) := by
  rcases step_moves sha256 crypto keys files call with
    ⟨hsame, _⟩ | ⟨p, e, hpresent, hsize, hroot, hlen, hzero, hfollows, ⟨st, hst, horigins⟩, _, _⟩
  . unfold Grows AllStored
    rw [hsame]
    exact ⟨Grows.refl msgs files, hstored⟩
  . have hload : (step sha256 crypto keys files call).load = st := by
      rw [Files.load, hst]
      rfl
    have heroot : e.root = p.cp.root := by
      rw [Entry.root, hroot, Base64.decode?_encode]
      rfl
    unfold Grows AllStored
    rw [hload, horigins]
    constructor
    . intro origin prev hprev
      rw [Dict.get?_set]
      split
      . next horigin =>
        rw [horigin] at hprev
        refine ⟨e, rfl, hsize ▸ (hfollows prev hprev).size_le, ?_, ?_⟩
        . intro heq
          rw [heroot]
          exact ((hfollows prev hprev).root_eq (by omega)).symm
        . rw [heroot]
          refine line_of_follows (hfollows prev hprev) (hstored _ prev hprev) hempty ?_
          intro hashes hdecode
          unfold queries at hmsgs
          rw [hpresent] at hmsgs
          dsimp only at hmsgs
          rw [hprev, hdecode] at hmsgs
          exact hmsgs
      . exact ⟨prev, hprev, .refl msgs prev⟩
    . intro origin e' he'
      rw [Dict.get?_set] at he'
      split at he'
      . rw [← Option.some.inj he']
        exact ⟨heroot ▸ hlen, fun h => heroot ▸ hzero (hsize ▸ h)⟩
      . exact hstored origin e' he'

theorem eachStep_queries {msgs : List Bytes} {files : Files} {calls : List Call}
    (h : runQueries sha256 crypto keys files calls ⊆ msgs)
    : Runs.EachStep (step sha256 crypto keys)
        (fun files call => queries sha256 crypto keys files call ⊆ msgs) files calls := by
  induction calls generalizing files with
  | nil => trivial
  | cons call calls ih =>
    rw [runQueries, List.append_subset] at h
    exact ⟨h.1, ih h.2⟩

theorem allStored_empty : AllStored sha256 .empty := by
  intro origin e h
  simp [Files.load, Files.empty, State.empty] at h

/--
A run is one step after the other, so what is related by every step is related by the run.
-/
theorem grows_run {msgs : List Bytes} {before calls : List Call} (hempty : [] ∈ msgs)
    (hmsgs : runQueries sha256 crypto keys .empty (before ++ calls) ⊆ msgs)
    : Grows sha256 msgs (run sha256 crypto keys before) (run sha256 crypto keys (before ++ calls)) := by
  have hstep : ∀ files call, AllStored sha256 files → queries sha256 crypto keys files call ⊆ msgs →
      Grows sha256 msgs files (step sha256 crypto keys files call) ∧
        AllStored sha256 (step sha256 crypto keys files call) :=
    fun _ _ hstored hsub => grows_step hstored hempty hsub
  have hsteps := (Runs.EachStep.invariant hstep allStored_empty (eachStep_queries hmsgs)).1
  exact hsteps.related (Grows.refl msgs) fun _ _ _ h h' => h.trans h'

/--
What is in the state file once a cosignature is returned.
-/
theorem stored_of_granted {files : Files} {call : Call} {cp : Parsed}
    (h : granted sha256 crypto keys files call = some cp)
    : ∃ st e, (step sha256 crypto keys files call).state = some st ∧
        st.origins.get? cp.origin = some e ∧ e.size = cp.size ∧ e.rootB64 = Base64.encode cp.root ∧
        ∃ out, (witnessCosign sha256 crypto keys call.host files call.request).2 = .ok out ∧
          out.origin = some cp.origin ∧ out.size = some cp.size := by
  rcases step_moves sha256 crypto keys files call with
    ⟨_, hrefused⟩ | ⟨p, e, _, hsize, hroot, _, _, _, ⟨st, hst, horigins⟩, hgranted, hout⟩
  . rw [granted_eq_none hrefused] at h
    simp at h
  . rw [hgranted, Option.some.injEq] at h
    subst h
    exact ⟨st, e, hst, by rw [horigins, Dict.get?_set_self], hsize, hroot, hout⟩

theorem granted_of_cosigned {files : Files} {call : Call} {out : Out}
    (h : (witnessCosign sha256 crypto keys call.host files call.request).2 = .ok out)
    (hcosigned : out.outcome = .cosigned)
    : ∃ cp, granted sha256 crypto keys files call = some cp := by
  rcases step_moves sha256 crypto keys files call with ⟨_, hrefused⟩ | ⟨p, _, _, _, _, _, _, _, _, hp, _⟩
  . rw [hrefused out h] at hcosigned
    simp at hcosigned
  . exact ⟨p.cp, hp⟩

variable (sha256 crypto keys) in
/--
In every run, a checkpoint is in the state file before the witness returns its cosignature. Of two
checkpoints of one origin that it cosigns, the later one is as large at least; if they have one size
they have one root, and if they are roots of leaves then the earlier leaves are a prefix of the later
ones, or there is a collision among what was hashed. A request can be anything, and any write can
fail.
-/
theorem witnessCosign_appendOnly
    : (∀ before call out,
        (witnessCosign sha256 crypto keys call.host (run sha256 crypto keys before) call.request).2
          = .ok out → out.outcome = .cosigned →
        ∃ cp st e, granted sha256 crypto keys (run sha256 crypto keys before) call = some cp ∧
          out.origin = some cp.origin ∧ out.size = some cp.size ∧
          (step sha256 crypto keys (run sha256 crypto keys before) call).state = some st ∧
          st.origins.get? cp.origin = some e ∧ e.size = cp.size ∧
          e.rootB64 = Base64.encode cp.root) ∧
      ∀ before first mid second cp cp',
        granted sha256 crypto keys (run sha256 crypto keys before) first = some cp →
        granted sha256 crypto keys (run sha256 crypto keys (before ++ first :: mid)) second = some cp' →
        cp.origin = cp'.origin →
        cp.size ≤ cp'.size ∧ (cp.size = cp'.size → cp.root = cp'.root) ∧
          ∀ leaves leaves', mth sha256 leaves = cp.root → mth sha256 leaves' = cp'.root →
            leaves <+: leaves' ∨
              Collides sha256 ([] :: (mthQueries sha256 leaves ++ mthQueries sha256 leaves' ++
                runQueries sha256 crypto keys .empty (before ++ first :: (mid ++ [second])))) := by
  constructor
  . intro before call out hout hcosigned
    rcases granted_of_cosigned hout hcosigned with ⟨cp, hcp⟩
    rcases stored_of_granted hcp with ⟨st, e, hst, he, hsize, hroot, out', hout', horigin, hsize'⟩
    rw [hout, Except.ok.injEq] at hout'
    subst hout'
    exact ⟨cp, st, e, hcp, horigin, hsize', hst, he, hsize, hroot⟩
  . intro before first mid second cp cp' hcp hcp' horigin
    have hlater : ∀ msgs : List Bytes, [] ∈ msgs →
        runQueries sha256 crypto keys .empty (before ++ first :: (mid ++ [second])) ⊆ msgs →
        cp.size ≤ cp'.size ∧ (cp.size = cp'.size → cp.root = cp'.root) ∧
          Line sha256 msgs cp.root cp'.root := by
      intro msgs hempty hmsgs
      rcases stored_of_granted hcp with ⟨st, e, hst, he, hsize, hroot, _⟩
      rcases stored_of_granted hcp' with ⟨st', e', hst', he', hsize', hroot', _⟩
      have hafter : run sha256 crypto keys (before ++ [first])
          = step sha256 crypto keys (run sha256 crypto keys before) first := by
        rw [run, Runs.run_append]
        rfl
      have hend : run sha256 crypto keys (before ++ [first] ++ (mid ++ [second]))
          = step sha256 crypto keys (run sha256 crypto keys (before ++ first :: mid)) second := by
        rw [show before ++ [first] ++ (mid ++ [second]) = before ++ first :: mid ++ [second] by simp,
          run, Runs.run_append]
        rfl
      have hgrows := grows_run hempty (show runQueries sha256 crypto keys .empty
        (before ++ [first] ++ (mid ++ [second])) ⊆ msgs by simpa using hmsgs)
      rw [hafter, hend] at hgrows
      have hload : (step sha256 crypto keys (run sha256 crypto keys before) first).load.origins.get?
          cp.origin = some e := by
        rw [Files.load, hst]
        exact he
      rcases hgrows cp.origin e hload with ⟨e₂, he₂, hadv⟩
      rw [Files.load, hst', horigin] at he₂
      have heq : e' = e₂ := Option.some.inj (he'.symm.trans he₂)
      subst heq
      have hroot₁ : e.root = cp.root := by
        rw [Entry.root, hroot, Base64.decode?_encode]
        rfl
      have hroot₂ : e'.root = cp'.root := by
        rw [Entry.root, hroot', Base64.decode?_encode]
        rfl
      rcases hadv with ⟨hle, heq, hline⟩
      rw [hsize, hsize'] at hle heq
      rw [hroot₁, hroot₂] at heq hline
      exact ⟨hle, heq, hline⟩
    refine ⟨(hlater _ List.mem_cons_self (List.subset_cons_self _ _)).1,
      (hlater _ List.mem_cons_self (List.subset_cons_self _ _)).2.1, ?_⟩
    intro leaves leaves' hleaves hleaves'
    have hline := (hlater ([] :: (mthQueries sha256 leaves ++ mthQueries sha256 leaves' ++
      runQueries sha256 crypto keys .empty (before ++ first :: (mid ++ [second]))))
      List.mem_cons_self (List.subset_cons_of_subset _ (List.subset_append_right _ _))).2.2
    rw [← hleaves, ← hleaves'] at hline
    refine hline.isPrefix List.mem_cons_self ?_ ?_
    . exact List.subset_cons_of_subset _
        (List.subset_append_of_subset_left _ (List.subset_append_left _ _))
    . exact List.subset_cons_of_subset _
        (List.subset_append_of_subset_left _ (List.subset_append_right _ _))

/--
A request with nothing in its way is granted.
-/
theorem granted_of_gate {files : Files} {call : Call} {p : Presented} {logKeys : List VKey}
    {lines : List Str} {own : List Bytes}
    (haccepted : Accepted sha256 crypto keys call.request p logKeys lines own)
    (hsign : CanSign crypto keys) (hkept : p.kept ≠ []) (htimestamp : call.request.timestamp = none)
    (hhost : call.host = .good call.host.recordedAt call.host.cosignedAt)
    (hts : timestampOk call.host.cosignedAt = true)
    (hgate : gate sha256 (p.ctx call.host files call.request) call.request
      (look sha256 (p.ctx call.host files call.request) (.start files.load)) = none)
    : granted sha256 crypto keys files call = some p.cp := by
  rcases haccepted.exists_cosignNote hsign hkept hts with ⟨cosigned, added, hcosign⟩
  have hplan : cosignLocked sha256 crypto keys call.host files p call.request
      = Plan.sign sha256 crypto keys p (p.ctx call.host files call.request)
          { p.out with storedSize := some (p.ctx call.host files call.request).storedSize }
          (settle sha256 (p.ctx call.host files call.request)
            (look sha256 (p.ctx call.host files call.request) (.start files.load)))
          call.host.cosignedAt := by
    unfold cosignLocked
    simp [htimestamp, hgate]
  have hcommit : ∃ out, out.outcome = .cosigned ∧
      (witnessCosign sha256 crypto keys call.host files call.request).2 = .ok out := by
    unfold witnessCosign
    rw [haccepted.present_eq]
    dsimp only
    rw [hplan, hhost]
    unfold Plan.sign commit
    simp [hcosign, Host.good]
  rcases hcommit with ⟨out, hcosigned, hout⟩
  rcases step_moves sha256 crypto keys files call with ⟨_, hrefused⟩ | ⟨p', _, hp', _, _, _, _, _, _, h, _⟩
  . rw [hrefused out hout] at hcosigned
    simp at hcosigned
  . rw [haccepted.present_eq, Except.ok.injEq, Sum.inr.injEq] at hp'
    subst hp'
    exact h

end

/-!
### A log and a witness
-/

/--
The neutral element, as the key of a log: there is one signature that is good for every text.
-/
def exampleLogKey : Bytes := 0x01 :: List.replicate 31 0x00

def exampleLogSig : Bytes := exampleLogKey ++ List.replicate 32 0x00

def exampleName : Str := txt "log"

def exampleLogLine : Str :=
  signatureLine exampleName (keyId sha256 exampleName typeEd25519 exampleLogKey ++ exampleLogSig)

def exampleLogVkey : Str :=
  exampleName ++ plus :: (Hex.ofBytes (keyId sha256 exampleName typeEd25519 exampleLogKey) ++
    plus :: Base64.encode (0x01 :: exampleLogKey))

def exampleCheckpoint (leaves : List Bytes) : Parsed :=
  ⟨exampleName, leaves.length, mth sha256 leaves, []⟩

def exampleSeed : Bytes := (List.range 32).map fun n => UInt8.ofNat (32 + n)

def exampleHex (hex : String) : Bytes := (Python.fromHex? (txt hex)).getD []

/--
The key of the witness, and two signatures with it.
-/
def exampleWitnessKey : Bytes :=
  exampleHex "29acbae141bccaf0b22e1a94d34d0bc7361e526d0bfe12c89794bc9322966dd7"

def exampleSigned : List (Bytes × Bytes) := [
  (cosignMessage 1 (textOf (exampleCheckpoint [[0x61]])),
    exampleHex "5d572a2f09161c423ab1008e01a2e0500140a0747aaa93f7" ++
    exampleHex "a3a0db7a87ceb77db00e896219bee8a0b72c8e0e6cf5c87a" ++
    exampleHex "b0e370e7b2479d1d16cf808ca52f4603"),
  (cosignMessage 2 (textOf (exampleCheckpoint [[0x61], [0x62]])),
    exampleHex "1b3f1413264ab6aa8c6c835450a0e1a925dc68cbf81a00a7" ++
    exampleHex "fb45f15a92e603fcf19bc15410e04d4006f6721f5878388a" ++
    exampleHex "c59d3137d94e3755ae3368eb7bece30c")]

def exampleSign (msg : Bytes) : Bytes :=
  ((exampleSigned.find? fun s => s.1 = msg).map Prod.snd).getD (List.replicate 64 0x00)

def exampleScheme : Scheme where
  publicKey _ := exampleWitnessKey
  sign _ msg := exampleSign msg
  verify pub sig msg :=
    (pub = exampleLogKey && sig = exampleLogSig) ||
    (pub = exampleWitnessKey && sig = exampleSign msg)

def exampleCrypto : Crypto := ⟨some exampleScheme, fun _ _ _ => false, none⟩

def exampleKeys : Keys := ⟨txt "w", exampleSeed, none, by decide⟩

def exampleCall (cp : Parsed) (proof : List Str) (now : Int) : Call where
  host := .good now now
  request := {
    note := utf8 (render (textOf cp) [exampleLogLine])
    logVkeys := [exampleLogVkey]
    proof
    timestamp := none
    oldSize := none
    expectedOrigin := none }

theorem vkey_example : vkey sha256 exampleName typeEd25519 exampleLogKey = .ok exampleLogVkey :=
  vkey_eq_ok.mpr ⟨by decide, by decide, by decide, Or.inl ⟨Or.inl rfl, by decide⟩, rfl⟩

theorem length_exampleSign (msg : Bytes) : (exampleSign msg).length = 64 := by
  unfold exampleSign
  cases hfind : exampleSigned.find? fun s => s.1 = msg with
  | none => rfl
  | some s =>
    have hmem := List.mem_of_find?_eq_some hfind
    have hall : ∀ s ∈ exampleSigned, s.2.length = 64 := by decide +kernel
    exact hall s hmem

theorem canSign_example : CanSign exampleCrypto exampleKeys where
  name_ok := by decide
  name_le := by decide
  ed25519 := ⟨exampleScheme, rfl, length_exampleSign⟩
  mldsa44 := by simp [exampleKeys]

def exampleRaw : Bytes := keyId sha256 exampleName typeEd25519 exampleLogKey ++ exampleLogSig

def exampleVKey : VKey :=
  ⟨exampleName, keyId sha256 exampleName typeEd25519 exampleLogKey, typeEd25519, exampleLogKey⟩

def examplePresented (cp : Parsed) : Presented where
  out := { Out.start with origin := some cp.origin, size := some cp.size }
  text := textOf cp
  cp
  trustedLines := [exampleLogLine]
  kept := [exampleLogLine]

theorem ownKids_example
    : ownKids sha256 exampleCrypto exampleKeys
        = .ok [keyId sha256 exampleKeys.name typeCosigV1 exampleWitnessKey] := by
  have hpub : pubkeyFromSeed exampleCrypto exampleKeys.seed = .ok exampleWitnessKey := by
    simp only [pubkeyFromSeed, exampleCrypto, exampleScheme]
  have hpq : exampleKeys.pqSeed = none := by simp only [exampleKeys]
  rw [ownKids, hpub, hpq, Except.ok_bind, Except.pure_eq_ok]

/--
Every checkpoint of the log is looked at, whatever the rest of the request is.
-/
theorem accepted_example {cp : Parsed} {r : Request} (hcp : IsCheckpoint cp)
    (hscalar : Str.Scalar (textOf cp)) (horigin : cp.origin = exampleName)
    (hnote : r.note = utf8 (render (textOf cp) [exampleLogLine]))
    (hvkeys : r.logVkeys = [exampleLogVkey]) (hexpected : r.expectedOrigin = none)
    (hproof : r.proof.length ≤ maxProof)
    : Accepted sha256 exampleCrypto exampleKeys r (examplePresented cp) [exampleVKey] [exampleLogLine]
        [keyId sha256 exampleKeys.name typeCosigV1 exampleWitnessKey] := by
  have hname : exampleName ≠ exampleKeys.name := by decide
  have hparse : parseSigLine exampleLogLine = .ok (exampleName, exampleRaw) := by
    refine parseSigLine_signatureLine (by decide) ?_ ?_
    . rw [List.length_append, length_keyId]
      decide
    . rw [List.length_append, length_keyId]
      decide
  have htake : exampleRaw.take 4 = keyId sha256 exampleName typeEd25519 exampleLogKey :=
    List.take_left' (length_keyId _ _ _ _)
  have hverify : exampleScheme.verify exampleLogKey exampleLogSig (utf8 (textOf cp)) = true := by
    simp [exampleScheme]
  have hopened : Opened sha256 exampleCrypto (utf8 (render (textOf cp) [exampleLogLine]))
      [exampleLogVkey] [exampleVKey] (textOf cp) [exampleLogLine] cp :=
    opened_of_signed hcp hscalar (by decide) vkey_example rfl (by decide) hverify
  have hsigs : ∃ sigs, IsNote r.note (textOf cp) [exampleLogLine] sigs ∧
      sigs = [(exampleName, exampleRaw)] := by
    rcases hopened.isNote with ⟨sigs, hsigs⟩
    refine ⟨sigs, by rw [hnote]; exact hsigs, ?_⟩
    have hall := hsigs.lines_eq
    rw [List.forall₂_cons_left_iff] at hall
    rcases hall with ⟨sig, rest, hsig, hrest, rfl⟩
    rw [List.forall₂_nil_left_iff] at hrest
    rw [hrest, Except.ok.inj (hsig.symm.trans hparse)]
  rcases hsigs with ⟨_, hsigs, rfl⟩
  exact {
    opened := by
      rw [hnote, hvkeys]
      exact hopened
    names_eq := fun _ => rfl
    origin_eq := by
      rw [hexpected]
      exact horigin
    proof_le := hproof
    own_eq := ownKids_example
    origin_le := by simp [exampleKeys]
    room := by simp [examplePresented, exampleKeys, Keys.count, maxSigs]
    out_eq := rfl
    lines_eq := ⟨_, hsigs, by simp [keptLines, hname, examplePresented],
      by simp [trustedLines, htake, exampleVKey, examplePresented, firstOccurrences]⟩ }

theorem plain_exampleName : exampleName ≠ [] ∧ Plain exampleName := by
  have hname : exampleName = [0x6c, 0x6f, 0x67] := rfl
  rw [hname]
  refine ⟨by simp, ?_⟩
  simp only [Plain, List.forall_mem_cons, List.not_mem_nil, false_imp_iff, implies_true, and_true]
  exact ⟨rfl, rfl, rfl⟩

theorem isCheckpoint_example (leaves : List Bytes) (h : leaves.length ≤ maxSize)
    : IsCheckpoint (exampleCheckpoint leaves) where
  origin := plain_exampleName
  size_le := h
  root_length := length_mth leaves
  extensions := by simp [exampleCheckpoint]

theorem scalar_example (leaves : List Bytes) : Str.Scalar (textOf (exampleCheckpoint leaves)) := by
  refine scalar_terminated ?_
  simp only [checkpointLines, exampleCheckpoint, List.forall_mem_cons, List.not_mem_nil,
    false_imp_iff, implies_true, and_true]
  exact ⟨by decide, scalar_natText _, scalar_of_decode? (Base64.decode?_encode _)⟩

def exampleLeaves : List Bytes := [[0x61], [0x62]]

theorem verifyConsistencyB64_example
    : verifyConsistencyB64 sha256 1 (mth sha256 [[0x61]]) 2 (mth sha256 exampleLeaves)
        [Base64.encode (leafHash sha256 [0x62])] = true := by
  have hproof : [Base64.encode (leafHash sha256 [0x62])].mapM Base64.decode?
      = some [leafHash sha256 [0x62]] := by
    rw [Option.mapM_eq_some]
    exact .cons (Base64.decode?_encode _) .nil
  have hlen : (leafHash sha256 [0x62]).length = 32 := sha256.length_digest _
  have hverify : verifyConsistency sha256 1 2 [leafHash sha256 [0x62]] (mth sha256 [[0x61]])
      (mth sha256 exampleLeaves) = true := by decide +kernel
  unfold verifyConsistencyB64
  rw [hproof]
  simp [hlen, hverify]

def exampleFirst : Call := exampleCall (exampleCheckpoint [[0x61]]) [] 1

def exampleSecond : Call :=
  exampleCall (exampleCheckpoint exampleLeaves) [Base64.encode (leafHash sha256 [0x62])] 2

theorem granted_exampleFirst
    : granted sha256 exampleCrypto exampleKeys .empty exampleFirst
        = some (exampleCheckpoint [[0x61]]) := by
  refine granted_of_gate (p := examplePresented (exampleCheckpoint [[0x61]]))
    (accepted_example (isCheckpoint_example _ (by decide)) (scalar_example _) rfl rfl rfl rfl (by decide))
    canSign_example (by simp [examplePresented]) rfl rfl (by decide) ?_
  refine gate_of_follows ?_ ?_ ?_ ?_
  . simp [exampleFirst, exampleCall]
  . simp [Presented.ctx, examplePresented, exampleCheckpoint]
  . exact fun _ => rfl
  . intro prev hprev
    simp [Presented.ctx, Files.load, Files.empty, State.empty] at hprev

theorem granted_exampleSecond
    : granted sha256 exampleCrypto exampleKeys
        (run sha256 exampleCrypto exampleKeys [exampleFirst]) exampleSecond
        = some (exampleCheckpoint exampleLeaves) := by
  rcases stored_of_granted granted_exampleFirst with ⟨st, e, hst, he, hsize, hroot, _⟩
  refine granted_of_gate (p := examplePresented (exampleCheckpoint exampleLeaves))
    (accepted_example (isCheckpoint_example _ (by decide)) (scalar_example _) rfl rfl rfl rfl (by decide))
    canSign_example (by simp [examplePresented]) rfl rfl (by decide) ?_
  have hprev : ((examplePresented (exampleCheckpoint exampleLeaves)).ctx exampleSecond.host
      (run sha256 exampleCrypto exampleKeys [exampleFirst]) exampleSecond.request).prev = some e := by
    have hload : (run sha256 exampleCrypto exampleKeys [exampleFirst]).load = st := by
      rw [Files.load, run, Runs.run_cons, Runs.run_nil, hst]
      rfl
    rw [Presented.ctx, hload]
    exact he
  refine gate_of_follows ?_ ?_ ?_ ?_
  . simp [exampleSecond, exampleCall]
  . simp [Presented.ctx, examplePresented, exampleCheckpoint, exampleLeaves]
  . intro hnone
    rw [hprev] at hnone
    simp at hnone
  . intro prev hprev'
    rw [hprev, Option.some.injEq] at hprev'
    subst hprev'
    have hsize' : e.size = 1 := hsize
    refine ⟨⟨?_, ?_, ?_⟩, ?_⟩
    . rw [hsize']
      decide
    . rw [hsize']
      intro h
      exact absurd h (by decide)
    . intro _ _
      rw [hroot, Base64.decode?_encode, hsize']
      exact verifyConsistencyB64_example
    . rw [hsize']
      rintro (h | h)
      . exact absurd h (by decide)
      . exact absurd h (by decide)

theorem witnessCosign_appendOnly_twoLeaves
    : ([[0x61]] : List Bytes) <+: exampleLeaves ∨
        Collides sha256 ([] :: (mthQueries sha256 [[0x61]] ++ mthQueries sha256 exampleLeaves ++
          runQueries sha256 exampleCrypto exampleKeys .empty [exampleFirst, exampleSecond])) :=
  ((witnessCosign_appendOnly sha256 exampleCrypto exampleKeys).2 [] exampleFirst [] exampleSecond _ _
    granted_exampleFirst granted_exampleSecond rfl).2.2 [[0x61]] exampleLeaves rfl rfl

end Witness
end CryptoValid
