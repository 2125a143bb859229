import CryptoValid.Witness.Safety
import Mathlib.Logic.Relation

/-!
This module contains the bounds of what the witness keeps, and that a request for one origin leaves
what is kept for the others alone. Both are shown of every single change that a request can make to
the state.
-/

namespace CryptoValid
namespace Witness

open Checkpoint

/-!
### Pending notes
-/

/--
The stated number of roots, and of bytes.
-/
structure Pending.Within (p : Pending) : Prop where
  count_le : p.count ≤ ring
  bytes_le : p.bytes ≤ pendingBytes

/--
There is a root at every size that is kept.
-/
def Pending.Filled (p : Pending) : Prop := p.Each fun _ roots => roots.items ≠ []

theorem Pending.within_of_items {p : Pending} (h : p.items = []) : p.Within := by
  constructor
  . rw [Pending.count, h]
    exact Nat.zero_le _
  . rw [Pending.bytes, h]
    exact Nat.zero_le _

theorem Pending.Within.erase {p : Pending} (h : p.Within) (size : Nat)
    : Pending.Within (p.erase size) :=
  ⟨Nat.le_trans (Dict.total_erase_le (fun roots : Dict Str (Option Str) => roots.items.length) p size)
      h.count_le,
    Nat.le_trans (Dict.total_erase_le (fun roots : Dict Str (Option Str) =>
      (roots.items.map fun n => (utf8 (n.2.getD [])).length).sum) p size) h.bytes_le⟩

/--
A pass takes one root out, and the size with the last of its roots.
-/
theorem Pending.evictOne_cases {p : Pending} (hfilled : p.Filled) (hne : p.items ≠ [])
    : ∃ oldest roots root note, p.get? oldest = some roots ∧ roots.get? root = some note ∧
        ((roots.erase root).items = [] ∧ p.evictOne = p.erase oldest ∨
          (roots.erase root).items ≠ [] ∧ p.evictOne = p.set oldest (roots.erase root)) := by
  have hkeys : p.items.map Prod.fst ≠ [] := by simpa using hne
  rcases Option.ne_none_iff_exists'.mp (fun h => hkeys (List.min?_eq_none_iff.mp h)) with ⟨oldest, hmin⟩
  rcases List.mem_map.mp (List.min?_mem hmin) with ⟨⟨_, roots⟩, hmem, rfl⟩
  have hget := (Dict.mem_items_iff _ _ _).mp hmem
  rcases List.exists_cons_of_ne_nil (hfilled _ _ hget) with ⟨first, rest, hitems⟩
  have hroot : roots.get? first.1 = some first.2 := by
    rw [← Dict.mem_items_iff, hitems]
    exact List.mem_cons_self
  refine ⟨_, roots, first.1, first.2, hget, hroot, ?_⟩
  unfold Pending.evictOne
  rw [hmin]
  dsimp only at hget ⊢
  rw [hget, Option.getD_some, hitems]
  dsimp only [List.head?_cons]
  by_cases hleft : (roots.erase first.1).items = []
  . exact Or.inl ⟨hleft, if_pos (List.isEmpty_iff.mpr hleft)⟩
  . exact Or.inr ⟨hleft, if_neg (fun h => hleft (List.isEmpty_iff.mp h))⟩

theorem Pending.count_evictOne {p : Pending} (hfilled : p.Filled) (hne : p.items ≠ [])
    : p.evictOne.count + 1 = p.count := by
  have hcount : ∀ q : Pending, q.count = q.total fun roots => roots.items.length := fun _ => rfl
  rcases Pending.evictOne_cases hfilled hne with ⟨oldest, roots, root, note, hget, hroot, hcases⟩
  have hlength : (roots.erase root).items.length + 1 = roots.items.length := by
    simpa [Dict.total] using Dict.total_erase (fun _ => 1) hroot
  have htotal := Dict.total_erase (fun roots : Dict Str (Option Str) => roots.items.length) hget
  rcases hcases with ⟨hleft, heq⟩ | ⟨_, heq⟩
  . rw [hleft, List.length_nil] at hlength
    rw [heq, hcount, hcount]
    omega
  . rw [heq, hcount, hcount, Dict.total_set]
    omega

/--
What holds of the roots at a size, and still does when one of them is dropped and others are left.
-/
structure Pending.Lasts (P : Nat → Dict Str (Option Str) → Prop) : Prop where
  filled : ∀ size roots, P size roots → roots.items ≠ []
  erase : ∀ size roots root, P size roots → (roots.erase root).items ≠ [] → P size (roots.erase root)

theorem Pending.lasts_filled : Pending.Lasts fun _ roots => roots.items ≠ [] :=
  ⟨fun _ _ h => h, fun _ _ _ _ hleft => hleft⟩

theorem Pending.Lasts.evictOne {P : Nat → Dict Str (Option Str) → Prop} (hP : Pending.Lasts P)
    {p : Pending} (hne : p.items ≠ []) (h : p.Each P) : p.evictOne.Each P := by
  rcases Pending.evictOne_cases (h.imp hP.filled) hne with
    ⟨oldest, roots, root, note, hget, _, ⟨_, heq⟩ | ⟨hleft, heq⟩⟩
  . rw [heq]
    exact h.erase oldest
  . rw [heq]
    exact h.set (hP.erase oldest roots root (h oldest roots hget) hleft)

theorem Pending.Lasts.evict {P : Nat → Dict Str (Option Str) → Prop} (hP : Pending.Lasts P)
    (fuel : Nat) {p : Pending} (h : p.Each P) : (p.evict fuel).1.Each P := by
  induction fuel generalizing p with
  | zero => exact h
  | succ fuel ih =>
    unfold Pending.evict
    split
    . next hbound =>
      simp only [Bool.and_eq_true, Bool.not_eq_true', List.isEmpty_eq_false_iff] at hbound
      exact ih (hP.evictOne hbound.1 h)
    . exact h

/--
Enough passes: what is left is within the bounds.
-/
theorem Pending.within_evict {p : Pending} {fuel : Nat} (hfilled : p.Filled) (hfuel : p.count ≤ fuel)
    : (p.evict fuel).1.Within := by
  induction fuel generalizing p with
  | zero =>
    refine Pending.within_of_items ?_
    by_contra hne
    have := Pending.count_evictOne hfilled hne
    omega
  | succ fuel ih =>
    unfold Pending.evict
    split
    . next h =>
      simp only [Bool.and_eq_true, Bool.not_eq_true', List.isEmpty_eq_false_iff] at h
      have hcount := Pending.count_evictOne hfilled h.1
      exact ih (Pending.lasts_filled.evictOne h.1 hfilled) (by omega)
    . next h =>
      by_cases hitems : p.items = []
      . exact Pending.within_of_items hitems
      . simp only [Bool.and_eq_true, Bool.not_eq_true', List.isEmpty_eq_false_iff, ne_eq, hitems,
          not_false_eq_true, true_and, Bool.or_eq_true, decide_eq_true_eq, not_or, Nat.not_lt] at h
        exact ⟨h.1, h.2⟩

section

variable {sha256 : HashFn 32} {c : Ctx}

theorem keepPending_each {P : Nat → Dict Str (Option Str) → Prop} (hP : Pending.Lasts P)
    {pendO : Pending} {pend : Dict Str (Option Str)}
    (hnew : P c.cp.size (if c.isNew pend then pend.set c.rootB64 c.small else pend))
    (h : pendO.Each P) : (keepPending c pendO pend).1.Each P :=
  hP.evict _ (h.set hnew)

/--
The root of the request is kept, or was there.
-/
theorem kept_ne_nil (pend : Dict Str (Option Str))
    : (if c.isNew pend then pend.set c.rootB64 c.small else pend).items ≠ [] := by
  intro hnil
  have hget : (if c.isNew pend then pend.set c.rootB64 c.small else pend).get? c.rootB64 = none := by
    rw [Dict.get?, hnil]
    rfl
  split at hget
  . simp at hget
  . next hold => simp [Ctx.isNew, hget] at hold

theorem within_keepPending {pendO : Pending} (pend : Dict Str (Option Str)) (h : pendO.Filled)
    : (keepPending c pendO pend).1.Within ∧ (keepPending c pendO pend).1.Filled :=
  ⟨Pending.within_evict (Dict.Each.set h (kept_ne_nil pend)) (Nat.le_refl _),
    keepPending_each Pending.lasts_filled (kept_ne_nil pend) h⟩

/-!
### Changes to the state
-/

variable (sha256) in
/--
The single changes that are made to the state before a checkpoint is stored.
-/
inductive Edit (c : Ctx) (st : State) : State → Prop
  | seen (root : Str) (full : Bool) : Edit c st { st with
      proofsSeen := takeLast proofsSeenMax
        (st.proofsSeen ++ [pairKey sha256 c.cp.origin c.cp.size root c.rootB64 full]) }
  | refusal (kind : Kind) : Edit c st { st with
      refusals := st.refusals.set c.cp.origin ⟨(st.ringOf c.cp.origin).count + 1,
        takeLast ring ((st.ringOf c.cp.origin).last ++
          [⟨kind, c.cp.size, c.rootB64, c.registrato⟩])⟩ }
  | keep : Edit c st { st with
      pending := st.pending.set c.cp.origin (keepPending c (st.pendingOf c.cp.origin)
        (((st.pendingOf c.cp.origin).get? c.cp.size).getD Dict.empty)).1 }
  | drop (p : Pending) (h : st.pending.get? c.cp.origin = some p) : Edit c st { st with
      pending := st.pending.set c.cp.origin (p.erase c.cp.size) }

variable (sha256) in
def Edits (c : Ctx) : State → State → Prop := Relation.ReflTransGen (Edit sha256 c)

theorem edits_proof (d : Draft) (root : Str) (note : Option Str)
    : Edits sha256 c d.st (proof sha256 c d note root).st := by
  unfold proof
  dsimp only
  split
  . exact .refl
  . exact .single (.seen root note.isSome)

theorem edits_remember (d : Draft) (kind : Kind) : Edits sha256 c d.st (remember c kind d).st := by
  unfold remember
  dsimp only
  split
  . exact .refl
  . exact .single (.refusal kind)

theorem edits_refused (d : Draft) (prev : Entry) (kind : Kind)
    : Edits sha256 c d.st (refused sha256 c prev kind d).st := by
  unfold refused
  dsimp only
  split
  . split
    . exact .trans (edits_remember d kind) (edits_proof _ _ _)
    . exact edits_remember d kind
  . exact edits_remember d kind

theorem edits_noteFuture (d : Draft) : Edits sha256 c d.st (noteFuture sha256 c d).st := by
  unfold noteFuture
  dsimp only
  have hpair : ∀ pend, Edits sha256 c d.st (pairPending sha256 c d pend).st := by
    intro pend
    unfold pairPending
    split
    . exact edits_proof d _ _
    . exact .refl
  have hkeep : Edit sha256 c (pairPending sha256 c d
      (((d.st.pendingOf c.cp.origin).get? c.cp.size).getD Dict.empty)).st _ := .keep
  rw [pendingOf_pairPending] at hkeep
  exact .tail (hpair _) hkeep

theorem edits_look (d : Draft) : Edits sha256 c d.st (look sha256 c d).st := by
  unfold look
  split
  . exact .refl
  . split
    . split
      . exact edits_refused d _ _
      . split
        . exact edits_proof d _ _
        . split
          . exact edits_noteFuture d
          . exact .refl
    . split
      . exact edits_noteFuture d
      . exact .refl

theorem edits_gate {d : Draft} {r : Request} {res : Draft × Nat × Str}
    (h : gate sha256 c r d = some res) : Edits sha256 c d.st res.1.st := by
  have hall : ∀ {d' : Draft} {status : Nat} {reason : Str}, Edits sha256 c d.st d'.st →
      some (d', status, reason) = some res → Edits sha256 c d.st res.1.st := by
    intro d' status reason hd' heq
    rw [← Option.some.inj heq]
    exact hd'
  unfold gate at h
  dsimp only at h
  repeat' split at h
  all_goals first
    | exact hall .refl h
    | exact hall (edits_refused d _ _) h
    | simp at h

theorem edits_settle (d : Draft) : Edits sha256 c d.st (settle sha256 c d).st := by
  have hdrop : ∀ {d' : Draft} {p : Pending}, Edits sha256 c d.st d'.st →
      d'.st.pending.get? c.cp.origin = some p → Edits sha256 c d.st
        { d'.st with pending := d'.st.pending.set c.cp.origin (p.erase c.cp.size) } :=
    fun h hp => .tail h (.drop _ hp)
  have hpending : ∀ root note, (proof sha256 c d note root).st.pending = d.st.pending := by
    intro root note
    rcases proof_eq sha256 c d root note with heq | ⟨_, heq⟩ <;> rw [heq]
  unfold settle
  split
  . exact .refl
  . next p hp =>
    dsimp only
    split
    . split
      . exact hdrop (edits_proof d _ _) (by rw [hpending, hp])
      . exact hdrop .refl hp
    . exact hdrop .refl hp

/-!
### What is saved
-/

variable (sha256) in
/--
What a request saves: the state that it looked at, with the checkpoint if it was cosigned.
-/
inductive Saves (c : Ctx) (st : State) : State → Prop
  | looked (st' : State) (h : Edits sha256 c st st') : Saves c st st'
  | stored (st' : State) (note : Str) (timestamp : Int) (h : Edits sha256 c st st')
      (hnote : Str.Scalar c.presentato → Str.Scalar note)
    : Saves c st { st' with
        origins := st'.origins.set c.cp.origin ⟨c.cp.size, c.rootB64, note, timestamp⟩ }

/--
What every single change leaves true holds of what is saved.
-/
theorem Saves.invariant {Inv : State → Prop} {st st' : State} (h : Saves sha256 c st st')
    (hedit : ∀ a b, Edit sha256 c a b → Inv a → Inv b)
    (hstore : ∀ a note timestamp, (Str.Scalar c.presentato → Str.Scalar note) → Inv a → Inv { a with
      origins := a.origins.set c.cp.origin ⟨c.cp.size, c.rootB64, note, timestamp⟩ })
    (hst : Inv st) : Inv st' := by
  have hedits : ∀ {b}, Edits sha256 c st b → Inv b := by
    intro b h
    induction h with
    | refl => exact hst
    | tail _ hlast ih => exact hedit _ _ hlast ih
  cases h with
  | looked _ h => exact hedits h
  | stored mid note timestamp h hnote => exact hstore mid note timestamp hnote (hedits h)

variable {crypto : Crypto} {keys : Keys}

theorem saves_of_cosignLocked {host : Host} {files : Files} {p : Presented} {r : Request} {st : State}
    (h : (cosignLocked sha256 crypto keys host files p r).save = some st)
    : Saves sha256 (p.ctx host files r) files.load st := by
  unfold cosignLocked at h
  dsimp only at h
  split at h
  . simp [Plan.raise] at h
  . split at h
    . simp [Plan.raise] at h
    . split at h
      . next d status reason hgate =>
        rw [Plan.refuse] at h
        dsimp only at h
        split at h
        . rw [← Option.some.inj h]
          exact .looked _ (.trans (edits_look (.start files.load)) (edits_gate hgate))
        . simp at h
      . rw [Plan.sign] at h
        split at h
        . simp at h
        . next cosigned added _ =>
          rw [← Option.some.inj h]
          refine .stored _ _ _ (.trans (edits_look (.start files.load)) (edits_settle _)) ?_
          intro hscalar
          rw [Str.scalar_append]
          refine ⟨hscalar, ?_⟩
          cases hdecode : Utf8.decode? added with
          | none => exact Str.scalar_nil
          | some text => exact Utf8.scalar_of_decode? hdecode

variable (sha256 crypto keys) in
/--
A request leaves the state file as it is, or saves what it looked at.
-/
theorem step_saves (files : Files) (call : Call)
    : (step sha256 crypto keys files call).state = files.state ∨
        ∃ p st, present sha256 crypto keys call.request = .ok (.inr p) ∧
          (step sha256 crypto keys files call).state = some st ∧
          Saves sha256 (p.ctx call.host files call.request) files.load st := by
  unfold step witnessCosign
  split
  . exact Or.inl rfl
  . exact Or.inl rfl
  . next p hpresent =>
    split
    . exact Or.inl rfl
    . rcases commit_cases call.host files
        (cosignLocked sha256 crypto keys call.host files p call.request) with
        ⟨_, _, hfiles | hfiles | hfiles⟩ | ⟨out, _, hfiles⟩
      . rw [hfiles]
        exact Or.inl rfl
      . rw [hfiles]
        exact Or.inl rfl
      . rw [hfiles]
        exact Or.inl rfl
      . rw [hfiles]
        cases hsave : (cosignLocked sha256 crypto keys call.host files p call.request).save with
        | none => exact Or.inl rfl
        | some st => exact Or.inr ⟨p, st, hpresent, rfl, saves_of_cosignLocked hsave⟩

/-!
### Bounds
-/

theorem length_takeLast (count : Nat) (xs : List α) : (takeLast count xs).length ≤ count := by
  rw [takeLast, List.length_drop]
  omega

theorem mem_of_mem_takeLast {count : Nat} {xs : List α} {x : α} (h : x ∈ takeLast count xs) : x ∈ xs :=
  List.mem_of_mem_drop h

/--
Everything that the witness keeps of what it is sent has its bound.
-/
structure Bounded (st : State) : Prop where
  pending : st.pending.Each fun _ p => p.Within ∧ p.Filled
  refusals : st.refusals.Each fun _ r => r.last.length ≤ ring
  proofsSeen : st.proofsSeen.length ≤ proofsSeenMax

theorem bounded_empty : Bounded .empty :=
  ⟨Dict.each_empty, Dict.each_empty, Nat.zero_le _⟩

theorem Bounded.pendingOf {st : State} (h : Bounded st) (origin : Str)
    : (st.pendingOf origin).Within ∧ (st.pendingOf origin).Filled :=
  h.pending.getD origin ⟨Pending.within_of_items rfl, Dict.each_empty⟩

theorem Bounded.edit {a b : State} (h : Edit sha256 c a b) (ha : Bounded a) : Bounded b := by
  cases h with
  | seen root full =>
    refine ⟨ha.pending, ha.refusals, ?_⟩
    dsimp only
    exact length_takeLast proofsSeenMax _
  | refusal kind => exact ⟨ha.pending, ha.refusals.set (length_takeLast ring _), ha.proofsSeen⟩
  | keep =>
    exact ⟨ha.pending.set (within_keepPending _ (ha.pendingOf c.cp.origin).2), ha.refusals, ha.proofsSeen⟩
  | drop p hp =>
    rcases ha.pending _ p hp with ⟨hwithin, hfilled⟩
    exact ⟨ha.pending.set ⟨hwithin.erase c.cp.size, Dict.Each.erase hfilled c.cp.size⟩, ha.refusals,
      ha.proofsSeen⟩

variable (sha256 crypto keys) in
theorem bounded_step {files : Files} (call : Call) (h : Bounded files.load)
    : Bounded (step sha256 crypto keys files call).load := by
  rcases step_saves sha256 crypto keys files call with heq | ⟨p, st, _, hst, hsaves⟩
  . rw [Files.load, heq]
    exact h
  . rw [Files.load, hst]
    exact hsaves.invariant (fun _ _ => Bounded.edit)
      (fun a _ _ _ ha => ⟨ha.pending, ha.refusals, ha.proofsSeen⟩) h

/-!
### Other origins
-/

/--
What is kept for an origin is the same.
-/
structure SameAt (origin : Str) (a b : State) : Prop where
  origins : b.origins.get? origin = a.origins.get? origin
  pending : b.pending.get? origin = a.pending.get? origin
  refusals : b.refusals.get? origin = a.refusals.get? origin

theorem SameAt.edit {origin : Str} (hne : origin ≠ c.cp.origin) {st a b : State}
    (h : Edit sha256 c a b) (ha : SameAt origin st a) : SameAt origin st b := by
  cases h with
  | seen root full => exact ⟨ha.origins, ha.pending, ha.refusals⟩
  | refusal kind =>
    exact ⟨ha.origins, ha.pending, (Dict.get?_set_of_ne _ _ hne).trans ha.refusals⟩
  | keep => exact ⟨ha.origins, (Dict.get?_set_of_ne _ _ hne).trans ha.pending, ha.refusals⟩
  | drop p hp => exact ⟨ha.origins, (Dict.get?_set_of_ne _ _ hne).trans ha.pending, ha.refusals⟩

theorem sameAt_step {files : Files} {call : Call} {origin : Str}
    (hother : ∀ p, present sha256 crypto keys call.request = .ok (.inr p) → p.cp.origin ≠ origin)
    : SameAt origin files.load (step sha256 crypto keys files call).load := by
  have hrefl : SameAt origin files.load files.load := ⟨rfl, rfl, rfl⟩
  rcases step_saves sha256 crypto keys files call with heq | ⟨p, st, hpresent, hst, hsaves⟩
  . rw [show (step sha256 crypto keys files call).load = files.load by rw [Files.load, heq]; rfl]
    exact hrefl
  . have hne : origin ≠ (p.ctx call.host files call.request).cp.origin :=
      Ne.symm (hother p hpresent)
    rw [show (step sha256 crypto keys files call).load = st by rw [Files.load, hst]; rfl]
    exact hsaves.invariant (fun _ _ => SameAt.edit hne)
      (fun a _ _ _ ha => ⟨(Dict.get?_set_of_ne _ _ hne).trans ha.origins, ha.pending, ha.refusals⟩)
      hrefl

end

end Witness
end CryptoValid
