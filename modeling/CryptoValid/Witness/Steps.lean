import CryptoValid.Witness.Presented

/-!
This module contains what a request does to the state while it is looked at: it can put down a pair
of roots, remember a refusal, and keep or drop notes that wait for a partner. Whatever these leave
alone holds of every draft.
-/

namespace CryptoValid
namespace Witness

open Checkpoint

/-!
### Pending notes
-/

/--
There is a root at a size, with its note or without.
-/
def Pending.Has (p : Pending) (size : Nat) (root : Str) (note : Option Str) : Prop :=
  ∃ roots, p.get? size = some roots ∧ roots.get? root = some note

theorem Pending.has_of_getD {p : Pending} {size : Nat} {root : Str} {note : Option Str}
    (h : ((p.get? size).getD Dict.empty).get? root = some note) : p.Has size root note := by
  cases hget : p.get? size with
  | none => simp [hget] at h
  | some roots => exact ⟨roots, hget, by simpa [hget] using h⟩

theorem Pending.has_erase {p : Pending} {size size' : Nat} {root : Str} {note : Option Str}
    (h : Pending.Has (p.erase size') size root note) : p.Has size root note := by
  rcases h with ⟨roots, hget, hroot⟩
  rw [Dict.get?_erase] at hget
  split at hget
  . simp at hget
  . exact ⟨roots, hget, hroot⟩

theorem Pending.has_set {p : Pending} {size size' : Nat} {roots : Dict Str (Option Str)} {root : Str}
    {note : Option Str} (h : Pending.Has (p.set size' roots) size root note)
    : p.Has size root note ∨ size = size' ∧ roots.get? root = some note := by
  rcases h with ⟨roots', hget, hroot⟩
  rw [Dict.get?_set] at hget
  split at hget
  . next hsize =>
    rw [Option.some.injEq] at hget
    exact Or.inr ⟨hsize, hget ▸ hroot⟩
  . exact Or.inl ⟨roots', hget, hroot⟩

theorem Pending.has_evictOne {p : Pending} {size : Nat} {root : Str} {note : Option Str}
    (h : p.evictOne.Has size root note) : p.Has size root note := by
  have hleft : ∀ oldest left,
      Pending.Has (if left.items.isEmpty then p.erase oldest else p.set oldest left) size root note →
      (left.get? root = some note → ((p.get? oldest).getD Dict.empty).get? root = some note) →
      p.Has size root note := by
    intro oldest left h hsub
    split at h
    . exact Pending.has_erase h
    . rcases Pending.has_set h with h | ⟨rfl, hroot⟩
      . exact h
      . exact Pending.has_of_getD (hsub hroot)
  unfold Pending.evictOne at h
  cases hmin : (p.items.map Prod.fst).min? with
  | none =>
    rw [hmin] at h
    exact h
  | some oldest =>
    rw [hmin] at h
    refine hleft oldest _ h ?_
    split
    . simp
    . intro hroot
      rw [Dict.get?_erase] at hroot
      split at hroot
      . simp at hroot
      . exact hroot

/--
Nothing comes into the list when something is dropped.
-/
theorem Pending.has_evict {p : Pending} {fuel size : Nat} {root : Str} {note : Option Str}
    (h : (p.evict fuel).1.Has size root note) : p.Has size root note := by
  induction fuel generalizing p with
  | zero => exact h
  | succ fuel ih =>
    unfold Pending.evict at h
    split at h
    . exact Pending.has_evictOne (ih h)
    . exact h

section

variable {sha256 : HashFn 32}

/-!
### Drafts
-/

/--
Where another root at the size of the request comes from: the stored checkpoint, the pending notes,
the history, or a refusal of which there is only the root.
-/
inductive Ctx.Knows (c : Ctx) (st : State) : Str → Option Str → Prop
  | stored (prev : Entry) (hprev : c.prev = some prev) (hsize : prev.size = c.cp.size)
    : Knows c st prev.rootB64 (some prev.note)
  | pending (root : Str) (note : Option Str)
      (h : (st.pendingOf c.cp.origin).Has c.cp.size root note) : Knows c st root note
  | cosigned (r : Cosigned) (hr : r ∈ c.cosigned) (horigin : r.origin = c.cp.origin)
      (hsize : r.size = c.cp.size) : Knows c st r.rootB64 (some r.note)
  | refused (root : Str) : Knows c st root none

variable (sha256) in
/--
`Inv` is kept by everything that can happen to a draft.
-/
structure Keeps (c : Ctx) (Inv : Draft → Prop) : Prop where
  proof : ∀ d root note, Inv d → root ≠ c.rootB64 → c.Knows d.st root note →
    Inv (proof sha256 c d note root)
  other : ∀ d refusals dirty evidence, Inv d →
    Inv { d with st := { d.st with refusals }, dirty, evidence }
  pending : ∀ (d : Draft) (p : Pending), Inv d →
    (∀ size root note, p.Has size root note →
      (d.st.pendingOf c.cp.origin).Has size root note ∨
        size = c.cp.size ∧ root = c.rootB64 ∧ note = c.small) →
    Inv { d with st := { d.st with pending := d.st.pending.set c.cp.origin p } }

variable {c : Ctx} {Inv : Draft → Prop}

theorem Keeps.evidence (keeps : Keeps sha256 c Inv) {d : Draft} (h : Inv d)
    (evidence : Option Evidence) : Inv { d with evidence } :=
  keeps.other d d.st.refusals d.dirty evidence h

theorem Keeps.remember (keeps : Keeps sha256 c Inv) {d : Draft} (h : Inv d) (kind : Kind)
    : Inv (remember c kind d) := by
  unfold Witness.remember
  dsimp only
  split
  . exact h
  . exact keeps.other d _ _ _ h

theorem knows_of_mem_cosignedAt {st : State} {p : Str × Str} (h : p ∈ (cosignedAt c).items)
    : c.Knows st p.1 (some p.2) := by
  have hall : ∀ (rs : List Cosigned) (found : Dict Str Str),
      (∀ r ∈ rs, r ∈ c.cosigned ∧ r.origin = c.cp.origin ∧ r.size = c.cp.size) →
      (∀ q ∈ found.items, c.Knows st q.1 (some q.2)) →
      ∀ q ∈ (rs.foldl (fun found r =>
        if found.contains r.rootB64 then found else found.set r.rootB64 r.note) found).items,
        c.Knows st q.1 (some q.2) := by
    intro rs
    induction rs with
    | nil => exact fun found _ hfound => hfound
    | cons r rs ih =>
      intro found hrs hfound
      rw [List.forall_mem_cons] at hrs
      rw [List.foldl_cons]
      refine ih _ hrs.2 ?_
      split
      . exact hfound
      . rintro ⟨root, note⟩ hq
        rw [Dict.mem_items_iff, Dict.get?_set] at hq
        split at hq
        . next hroot =>
          rw [← Option.some.inj hq, hroot]
          exact .cosigned r hrs.1.1 hrs.1.2.1 hrs.1.2.2
        . exact hfound _ ((Dict.mem_items_iff _ _ _).mpr hq)
  refine hall _ Dict.empty ?_ (by simp [Dict.empty]) p h
  intro r hr
  simp only [List.mem_filter, Bool.and_eq_true, decide_eq_true_eq] at hr
  refine ⟨?_, hr.2.1.1, hr.2.1.2⟩
  have hsub : ∀ rs : List Cosigned, ∀ r ∈ recent rs, r ∈ rs := by
    intro rs
    induction rs with
    | nil => exact fun _ h => h
    | cons a rs ih =>
      intro r hr
      unfold recent at hr
      split at hr
      . exact hr
      . exact List.mem_cons_of_mem _ (ih r hr)
  exact hsub _ _ hr.1

theorem knows_of_get?_rootsAt {st : State} {root : Str} {note : Option Str}
    (h : (rootsAt c st).get? root = some note) : c.Knows st root note := by
  rcases Dict.get?_foldl_set Prod.fst (fun p => some p.2) _ _ h with h | ⟨p, hp, rfl, rfl⟩
  . rcases Dict.get?_foldl_set Prod.fst Prod.snd _ _ h with h | ⟨p, hp, rfl, rfl⟩
    . rcases Dict.get?_foldl_set Refusal.rootB64 (fun _ => none) _ _ h with h | ⟨e, he, rfl, rfl⟩
      . simp at h
      . exact .refused _
    . exact .pending _ _ (Pending.has_of_getD ((Dict.mem_items_iff _ _ _).mp hp))
  . exact knows_of_mem_cosignedAt hp

theorem knows_of_mem_candidates {st : State} {p : Str × Option Str} (h : p ∈ candidates c st)
    : c.Knows st p.1 p.2 := by
  have hmem : p ∈ (rootsAt c st).items := by
    rcases List.mem_append.mp h with h | h
    . exact List.mem_of_mem_filter h
    . exact List.mem_of_mem_filter h
  exact knows_of_get?_rootsAt ((Dict.mem_items_iff _ _ _).mp hmem)

theorem partner_eq_some {root : Str} {pend : Dict Str (Option Str)} {p : Str × Option Str}
    (h : partner root pend = some p) : p.1 ≠ root ∧ pend.get? p.1 = some p.2 := by
  rw [partner, Option.or_eq_some_iff] at h
  have hmem : p ∈ pend.items ∧ p.1 ≠ root := by
    rcases h with h | ⟨_, h⟩
    . have hp := List.find?_some h
      simp only [Bool.and_eq_true, decide_eq_true_eq] at hp
      exact ⟨List.mem_of_find?_eq_some h, hp.1⟩
    . have hp := List.find?_some h
      simp only [decide_eq_true_eq] at hp
      exact ⟨List.mem_of_find?_eq_some h, hp⟩
  exact ⟨hmem.2, (Dict.mem_items_iff _ _ _).mp hmem.1⟩

/--
The root that a pair is made with is another one.
-/
theorem Keeps.refused (keeps : Keeps sha256 c Inv) {d : Draft} (h : Inv d) (prev : Entry)
    (kind : Kind) : Inv (refused sha256 c prev kind d) := by
  unfold Witness.refused
  dsimp only
  have hremember := keeps.remember h kind
  split
  . split
    . next root note hfind =>
      have hne := List.find?_some hfind
      simp only [decide_eq_true_eq] at hne
      exact keeps.evidence (keeps.proof _ _ _ hremember hne
        (knows_of_mem_candidates (List.mem_of_find?_eq_some hfind))) _
    . exact keeps.evidence hremember _
  . exact keeps.evidence hremember _

variable (sha256 c) in
theorem proof_eq (d : Draft) (root : Str) (note : Option Str)
    : proof sha256 c d note root = d ∨
        ∃ proofsSeen, proof sha256 c d note root = { d with
          st := { d.st with proofsSeen }
          dirty := true
          records := d.records ++ [c.pair note root] } := by
  unfold proof
  dsimp only
  split
  . exact Or.inl rfl
  . exact Or.inr ⟨_, rfl⟩

theorem pendingOf_proof (d : Draft) (root : Str) (note : Option Str) (origin : Str)
    : (proof sha256 c d note root).st.pendingOf origin = d.st.pendingOf origin := by
  rcases proof_eq sha256 c d root note with h | ⟨proofsSeen, h⟩
  . rw [h]
  . rw [h]
    rfl

theorem Keeps.pairPending (keeps : Keeps sha256 c Inv) {d : Draft} (h : Inv d)
    : Inv (pairPending sha256 c d
        (((d.st.pendingOf c.cp.origin).get? c.cp.size).getD Dict.empty)) := by
  unfold Witness.pairPending
  split
  . next root note hpartner =>
    rcases partner_eq_some hpartner with ⟨hne, hget⟩
    exact keeps.evidence (keeps.proof _ _ _ h hne (.pending _ _ (Pending.has_of_getD hget))) _
  . exact h

theorem pendingOf_pairPending (d : Draft) (pend : Dict Str (Option Str)) (origin : Str)
    : (pairPending sha256 c d pend).st.pendingOf origin = d.st.pendingOf origin := by
  unfold pairPending
  split
  . exact pendingOf_proof d _ _ origin
  . rfl

theorem has_keepPending {pendO : Pending} {size : Nat} {root : Str} {note : Option Str}
    (h : (keepPending c pendO ((pendO.get? c.cp.size).getD Dict.empty)).1.Has size root note)
    : pendO.Has size root note ∨ size = c.cp.size ∧ root = c.rootB64 ∧ note = c.small := by
  rcases Pending.has_set (Pending.has_evict h) with h | ⟨rfl, hroot⟩
  . exact Or.inl h
  . split at hroot
    . rw [Dict.get?_set] at hroot
      split at hroot
      . next heq => exact Or.inr ⟨rfl, heq, (Option.some.inj hroot).symm⟩
      . exact Or.inl (Pending.has_of_getD hroot)
    . exact Or.inl (Pending.has_of_getD hroot)

theorem Keeps.noteFuture (keeps : Keeps sha256 c Inv) {d : Draft} (h : Inv d)
    : Inv (noteFuture sha256 c d) := by
  unfold Witness.noteFuture
  dsimp only
  refine keeps.other _ (Witness.pairPending sha256 c d _).st.refusals _ _
    (keeps.pending _ _ (keeps.pairPending h) ?_)
  intro size root note hhas
  rw [pendingOf_pairPending]
  exact has_keepPending hhas

theorem Keeps.look (keeps : Keeps sha256 c Inv) {d : Draft} (h : Inv d) : Inv (look sha256 c d) := by
  unfold Witness.look
  split
  . exact h
  . split
    . next prev hprev =>
      split
      . exact keeps.refused h prev .rollback
      . split
        . next hsame =>
          exact keeps.evidence (keeps.proof _ _ _ h (Ne.symm hsame.2)
            (.stored prev hprev hsame.1.symm)) _
        . split
          . exact keeps.noteFuture h
          . exact h
    . split
      . exact keeps.noteFuture h
      . exact h

theorem Keeps.gate (keeps : Keeps sha256 c Inv) {d : Draft} (h : Inv d) {r : Request}
    {res : Draft × Nat × Str} (hgate : gate sha256 c r d = some res) : Inv res.1 := by
  have hall : ∀ {d' : Draft} {status : Nat} {reason : Str}, Inv d' →
      some (d', status, reason) = some res → Inv res.1 := by
    intro d' status reason hd' heq
    rw [← Option.some.inj heq]
    exact hd'
  unfold Witness.gate at hgate
  dsimp only at hgate
  repeat' split at hgate
  all_goals first
    | exact hall h hgate
    | exact hall (keeps.refused h _ _) hgate
    | simp at hgate

theorem Keeps.settle (keeps : Keeps sha256 c Inv) {d : Draft} (h : Inv d)
    : Inv (settle sha256 c d) := by
  have herase : ∀ {d' : Draft} {p : Pending}, Inv d' →
      d.st.pending.get? c.cp.origin = some p →
      d'.st.pendingOf c.cp.origin = d.st.pendingOf c.cp.origin →
      Inv { d' with st := { d'.st with pending := d'.st.pending.set c.cp.origin (p.erase c.cp.size) } }
      := by
    intro d' p hd' hp hpending
    refine keeps.pending d' _ hd' ?_
    intro size root note hhas
    rw [hpending, State.pendingOf, hp]
    exact Or.inl (Pending.has_erase hhas)
  unfold Witness.settle
  split
  . exact h
  . next p hp =>
    dsimp only
    split
    . split
      . next root note hfind =>
        refine herase (keeps.proof _ _ _ h ?_ (.pending _ _ ?_)) hp (pendingOf_proof d _ _ _)
        . simpa using List.find?_some hfind
        . rw [State.pendingOf, hp]
          exact Pending.has_of_getD ((Dict.mem_items_iff _ _ _).mp (List.mem_of_find?_eq_some hfind))
      . exact herase h hp rfl
    . exact herase h hp rfl

/-!
### Requests
-/

variable (sha256) in
/--
The draft is one that the request can come to.
-/
def Reached (c : Ctx) (st : State) (d : Draft) : Prop :=
  ∀ Inv : Draft → Prop, Keeps sha256 c Inv → Inv (.start st) → Inv d

variable (sha256) in
/--
What the last checkpoint has to do with one that is cosigned.
-/
structure Follows (prev : Entry) (cp : Parsed) (proof : List Str) : Prop where
  size_le : prev.size ≤ cp.size
  root_eq : cp.size = prev.size → cp.root = (Base64.decode? prev.rootB64).getD []
  consistent : 0 < prev.size → prev.size < cp.size →
    verifyConsistencyB64 sha256 prev.size ((Base64.decode? prev.rootB64).getD []) cp.size cp.root proof
      = true

theorem gate_eq_none {r : Request} {d : Draft} (h : gate sha256 c r d = none)
    : (c.cp.size = 0 → c.cp.root = emptyRoot sha256) ∧
        ∀ prev, c.prev = some prev → Follows sha256 prev c.cp r.proof := by
  unfold gate at h
  dsimp only at h
  split at h
  . simp at h
  . split at h
    . simp at h
    . split at h
      . simp at h
      . next hempty =>
        refine ⟨fun hsize => by simpa [hsize] using hempty, ?_⟩
        intro prev hprev
        rw [hprev] at h
        dsimp only at h
        split at h
        . simp at h
        . next hle =>
          split at h
          . simp at h
          . next hroot =>
            refine ⟨Nat.not_lt.mp hle, fun hsize => by simpa [hsize] using hroot, ?_⟩
            intro hpos hlt
            split at h
            . omega
            . split at h
              . simp at h
              . next hproof => simpa using hproof

/--
The other way round: a checkpoint that follows is not refused, if no proof comes where none is
possible.
-/
theorem gate_of_follows {r : Request} {d : Draft} (hold : ∀ old, r.oldSize = some old → old = c.storedSize)
    (hempty : c.cp.size = 0 → c.cp.root = emptyRoot sha256)
    (hnone : c.prev = none → r.proof = [])
    (hprev : ∀ prev, c.prev = some prev → Follows sha256 prev c.cp r.proof ∧
      (prev.size = 0 ∨ c.cp.size = prev.size → r.proof = []))
    : gate sha256 c r d = none := by
  have hgetD : r.oldSize.getD c.storedSize = c.storedSize := by
    cases hsize : r.oldSize with
    | none => rfl
    | some old => exact hold old hsize
  have hle : c.storedSize ≤ c.cp.size := by
    unfold Ctx.storedSize
    cases hc : c.prev with
    | none => exact Nat.zero_le _
    | some prev => exact (hprev prev hc).1.size_le
  unfold gate
  dsimp only
  rw [hgetD, if_neg (by omega), if_neg (by simp), if_neg (fun hand => hand.2 (hempty hand.1))]
  cases hc : c.prev with
  | none => simp [hnone hc]
  | some prev =>
    rcases hprev prev hc with ⟨hfollows, hproof⟩
    dsimp only
    have hsize := hfollows.size_le
    rw [if_neg (by omega), if_neg (fun hand => hand.2 (hfollows.root_eq hand.1))]
    split
    . next hnoproof => simp [hproof hnoproof]
    . next hmore =>
      rw [hfollows.consistent (by omega) (by omega)]
      simp

variable {crypto : Crypto} {keys : Keys} {host : Host} {files : Files} {p : Presented} {r : Request}

variable (sha256 crypto keys host files p r) in
/--
A request that is looked at raises, is refused, or comes to be signed.
-/
theorem cosignLocked_cases
    : (∃ e, cosignLocked sha256 crypto keys host files p r = .raise e) ∨
        (∃ out d status reason, Reached sha256 (p.ctx host files r) files.load d ∧
          cosignLocked sha256 crypto keys host files p r = .refuse out d status reason ∧
          out = { p.out with storedSize := some (p.ctx host files r).storedSize }) ∨
        (∃ out d timestamp, Reached sha256 (p.ctx host files r) files.load d ∧
          (p.cp.size = 0 → p.cp.root = emptyRoot sha256) ∧
          (∀ prev, files.load.origins.get? p.cp.origin = some prev →
            Follows sha256 prev p.cp r.proof) ∧
          cosignLocked sha256 crypto keys host files p r
            = Plan.sign sha256 crypto keys p (p.ctx host files r) out d timestamp ∧
          out = { p.out with storedSize := some (p.ctx host files r).storedSize }) := by
  unfold cosignLocked
  dsimp only
  split
  . exact Or.inl ⟨_, rfl⟩
  . split
    . exact Or.inl ⟨_, rfl⟩
    . split
      . next d status reason hgate =>
        exact Or.inr (Or.inl ⟨_, d, status, reason,
          fun Inv keeps hstart => keeps.gate (keeps.look hstart) hgate, rfl, rfl⟩)
      . next hgate =>
        rcases gate_eq_none hgate with ⟨hempty, hfollows⟩
        exact Or.inr (Or.inr ⟨_, _, _, fun Inv keeps hstart => keeps.settle (keeps.look hstart), hempty,
          hfollows, rfl, rfl⟩)

/--
The writes of a request come one after the other, so that the first one that fails is the last.
-/
theorem commit_cases (host : Host) (files : Files) (plan : Plan)
    : (∃ e, (commit host files plan).2 = .error e ∧
        ((commit host files plan).1 = files ∨
          (commit host files plan).1
            = { files with evidence := files.evidence ++ plan.records } ∨
          (commit host files plan).1 = { files with
            evidence := files.evidence ++ plan.records
            cosigned := files.cosigned ++ plan.history.toList })) ∨
        ∃ out, plan.result = .ok out ∧ commit host files plan
          = ({ state := plan.save.or files.state
               evidence := files.evidence ++ plan.records
               cosigned := files.cosigned ++ plan.history.toList }, .ok out) := by
  unfold commit
  split
  . exact Or.inl ⟨_, rfl, Or.inl rfl⟩
  . dsimp only
    split
    . exact Or.inl ⟨_, rfl, Or.inr (Or.inl rfl)⟩
    . next out hout =>
      split
      . exact Or.inl ⟨_, rfl, Or.inr (Or.inl rfl)⟩
      . split
        . next hsave => exact Or.inr ⟨out, hout, by rw [hsave]; rfl⟩
        . next st hsave =>
          split
          . exact Or.inl ⟨_, rfl, Or.inr (Or.inr rfl)⟩
          . exact Or.inr ⟨out, hout, by rw [hsave]; rfl⟩

end

end Witness
end CryptoValid
