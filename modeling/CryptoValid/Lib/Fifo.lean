import CryptoValid.Lib.Except
import Mathlib.Algebra.GroupWithZero.Nat
import Mathlib.Data.List.Nodup

/-!
This module contains lots that units are taken from, the first one that came in first, and what this
means for every single disposal: nothing is lost, no lot gives more than it had, and no lot gives
anything as long as an earlier one has something left.
-/

namespace Fifo

inductive Event (ι : Type) where
  | acquire (lot : ι) (units : Nat)
  | dispose (units : Nat)
  deriving DecidableEq

/--
What a disposal took, lot by lot, and what there were no lots for.
-/
structure Match (ι : Type) where
  taken : List (ι × Nat)
  left : Nat
  deriving DecidableEq

variable {ι : Type}

/--
Take units from the lots in a queue. A lot that is empty afterwards leaves the queue.
-/
def take : List (ι × Nat) → Nat → List (ι × Nat) × Match ι
  | [], units => ([], ⟨[], units⟩)
  | (lot, held) :: queue, units =>
    if units = 0 then
      ((lot, held) :: queue, ⟨[], 0⟩)
    else if held ≤ units then
      let (queue, m) := take queue (units - held)
      (queue, ⟨(lot, held) :: m.taken, m.left⟩)
    else
      ((lot, held - units) :: queue, ⟨[(lot, units)], 0⟩)

/--
What the disposals take, one after the other.
-/
def run (queue : List (ι × Nat)) : List (Event ι) → List (Match ι)
  | [] => []
  | .acquire lot units :: events => run (queue ++ [(lot, units)]) events
  | .dispose units :: events => (take queue units).2 :: run (take queue units).1 events

def lotsOf : List (Event ι) → List ι
  | [] => []
  | .acquire lot _ :: events => lot :: lotsOf events
  | .dispose _ :: events => lotsOf events

variable [DecidableEq ι]

/--
What a lot gave.
-/
def given (taken : List (ι × Nat)) (lot : ι) : Nat :=
  ((taken.filter fun t => t.1 = lot).map Prod.snd).sum

theorem given_append (xs ys : List (ι × Nat)) (lot : ι)
    : given (xs ++ ys) lot = given xs lot + given ys lot := by
  simp [given]

theorem given_of_not_mem {taken : List (ι × Nat)} {lot : ι} (h : lot ∉ taken.map Prod.fst)
    : given taken lot = 0 := by
  have hnil : (taken.filter fun t => t.1 = lot) = [] := by
    rw [List.filter_eq_nil_iff]
    intro t ht
    simp only [decide_eq_true_eq]
    rintro rfl
    exact h (List.mem_map_of_mem ht)
  simp [given, hnil]

/--
A disposal from lots that were acquired in this order, after some units have been taken before.
-/
structure Fair (acquired before : List (ι × Nat)) (units : Nat) (m : Match ι) : Prop where
  conserved : (m.taken.map Prod.snd).sum + m.left = units
  known : ∀ t ∈ m.taken, t.1 ∈ acquired.map Prod.fst
  within : ∀ lot held, (lot, held) ∈ acquired → given (before ++ m.taken) lot ≤ held
  inOrder : ∀ pre t post, m.taken = pre ++ t :: post → ∀ earlier held later,
    acquired = earlier ++ (t.1, held) :: later → ∀ x ∈ earlier, given (before ++ pre) x.1 = x.2
  exhausted : 0 < m.left → ∀ x ∈ acquired, given (before ++ m.taken) x.1 = x.2

/--
Every disposal is fair to the lots that were acquired before it.
-/
def FairRun (acquired before : List (ι × Nat)) : List (Event ι) → List (Match ι) → Prop
  | [], ms => ms = []
  | .acquire lot units :: events, ms => FairRun (acquired ++ [(lot, units)]) before events ms
  | .dispose _ :: _, [] => False
  | .dispose units :: events, m :: ms =>
    Fair acquired before units m ∧ FairRun acquired (before ++ m.taken) events ms

/--
The queue has what is left of the lots, except for some at the start that are empty.
-/
structure Holds (acquired before queue : List (ι × Nat)) : Prop where
  nodup : (acquired.map Prod.fst).Nodup
  known : ∀ t ∈ before, t.1 ∈ acquired.map Prod.fst
  split : ∃ done rest, acquired = done ++ rest ∧ (∀ x ∈ done, given before x.1 = x.2) ∧
    List.Forall₂ (fun x q => x.1 = q.1 ∧ given before x.1 + q.2 = x.2) rest queue

theorem holds_nil : Holds ([] : List (ι × Nat)) [] [] :=
  ⟨List.nodup_nil, by simp, [], [], rfl, by simp, .nil⟩

theorem Holds.acquire {acquired before queue : List (ι × Nat)} (h : Holds acquired before queue)
    {lot : ι} (hlot : lot ∉ acquired.map Prod.fst) (units : Nat)
    : Holds (acquired ++ [(lot, units)]) before (queue ++ [(lot, units)]) := by
  rcases h with ⟨hnodup, hknown, done, rest, rfl, hdone, hrest⟩
  have hzero : given before lot = 0 := by
    refine given_of_not_mem fun hmem => hlot ?_
    rcases List.mem_map.mp hmem with ⟨t, ht, rfl⟩
    exact hknown t ht
  refine ⟨?_, fun t ht => ?_, done, rest ++ [(lot, units)], by simp, hdone, ?_⟩
  . rw [List.map_append, List.nodup_append]
    refine ⟨hnodup, by simp, ?_⟩
    rintro a ha b hb rfl
    rw [List.map_cons, List.map_nil, List.mem_singleton] at hb
    rw [hb] at ha
    exact hlot ha
  . rw [List.map_append]
    exact List.mem_append_left _ (hknown t ht)
  . refine List.rel_append hrest (.cons ⟨rfl, ?_⟩ .nil)
    rw [hzero, Nat.zero_add]

theorem Holds.le {acquired before queue : List (ι × Nat)} (h : Holds acquired before queue)
    {x : ι × Nat} (hx : x ∈ acquired) : given before x.1 ≤ x.2 := by
  rcases h with ⟨_, _, done, rest, rfl, hdone, hrest⟩
  rcases List.mem_append.mp hx with hx | hx
  . exact Nat.le_of_eq (hdone x hx)
  . rcases List.exists_of_mem_left hrest hx with ⟨q, _, _, heq⟩
    omega

omit [DecidableEq ι] in
/--
A lot stands at one place.
-/
theorem eq_of_split {acquired earlier later earlier' later' : List (ι × Nat)} {lot : ι} {n n' : Nat}
    (hnodup : (acquired.map Prod.fst).Nodup) (h : acquired = earlier ++ (lot, n) :: later)
    (h' : acquired = earlier' ++ (lot, n') :: later') : earlier = earlier' := by
  induction earlier generalizing acquired earlier' with
  | nil =>
    cases earlier' with
    | nil => rfl
    | cons x earlier' =>
      rw [h] at h' hnodup
      rw [List.nil_append, List.cons_append, List.cons.injEq] at h'
      rw [List.nil_append, List.map_cons, List.nodup_cons] at hnodup
      refine absurd ?_ hnodup.1
      rw [h'.2]
      exact List.mem_map.mpr ⟨(lot, n'), by simp, rfl⟩
  | cons x earlier ih =>
    cases earlier' with
    | nil =>
      rw [h'] at h hnodup
      rw [List.nil_append, List.cons_append, List.cons.injEq] at h
      rw [List.nil_append, List.map_cons, List.nodup_cons] at hnodup
      refine absurd ?_ hnodup.1
      rw [h.2]
      exact List.mem_map.mpr ⟨(lot, n), by simp, rfl⟩
    | cons y earlier' =>
      rw [h] at h' hnodup
      rw [List.cons_append, List.cons_append, List.cons.injEq] at h'
      rw [List.cons_append, List.map_cons, List.nodup_cons] at hnodup
      rw [h'.1, ih hnodup.2 rfl h'.2]

/--
Some units of the first lot in the queue are taken, and what it had is replaced.
-/
theorem Holds.give {acquired before queue : List (ι × Nat)} {lot : ι} {held units : Nat}
    (h : Holds acquired before ((lot, held) :: queue)) (hle : units ≤ held)
    : Holds acquired (before ++ [(lot, units)]) ((lot, held - units) :: queue) := by
  rcases h with ⟨hnodup, hknown, done, rest, rfl, hdone, hrest⟩
  cases hrest with
  | cons hfirst hrest =>
    next x rest =>
    rcases hfirst with ⟨hlot, hheld⟩
    dsimp only at hlot hheld
    rw [List.map_append, List.nodup_append, List.map_cons, List.nodup_cons] at hnodup
    have hsame : ∀ y : ι × Nat, y.1 ≠ lot →
        given (before ++ [(lot, units)]) y.1 = given before y.1 := by
      intro y hy
      have hnone : given [(lot, units)] y.1 = 0 := given_of_not_mem (by simpa using hy)
      rw [given_append, hnone, Nat.add_zero]
    have hself : given (before ++ [(lot, units)]) lot = given before lot + units := by
      rw [given_append]
      simp [given]
    refine ⟨?_, fun t ht => ?_, done, x :: rest, rfl, fun y hy => ?_, .cons ⟨hlot, ?_⟩ ?_⟩
    . rw [List.map_append, List.nodup_append, List.map_cons, List.nodup_cons]
      exact hnodup
    . rcases List.mem_append.mp ht with ht | ht
      . exact hknown t ht
      . rw [List.mem_singleton.mp ht, List.map_append, List.map_cons]
        exact List.mem_append_right _ (by simp [hlot])
    . rw [hsame y fun heq => ?_, hdone y hy]
      refine hnodup.2.2 y.1 (List.mem_map_of_mem hy) x.1 List.mem_cons_self ?_
      rw [heq, hlot]
    . rw [hlot, hself]
      rw [hlot] at hheld
      omega
    . refine List.forall₂_imp_of_mem hrest ?_
      intro y hy q hq
      rw [hsame y fun heq => hnodup.2.1.1 ?_]
      . exact hq
      . rw [hlot, ← heq]
        exact List.mem_map_of_mem hy

/--
A lot without units leaves the queue.
-/
theorem Holds.pop {acquired before queue : List (ι × Nat)} {lot : ι}
    (h : Holds acquired before ((lot, 0) :: queue)) : Holds acquired before queue := by
  rcases h with ⟨hnodup, hknown, done, rest, rfl, hdone, hrest⟩
  cases hrest with
  | cons hfirst hrest =>
    next x rest =>
    refine ⟨hnodup, hknown, done ++ [x], rest, by simp, fun y hy => ?_, hrest⟩
    rcases List.mem_append.mp hy with hy | hy
    . exact hdone y hy
    . rw [List.mem_singleton.mp hy]
      simpa using hfirst.2

/--
All lots before the first one in the queue are empty.
-/
theorem Holds.earlier_empty {acquired before queue earlier later : List (ι × Nat)} {lot : ι}
    {held n : Nat} (h : Holds acquired before ((lot, held) :: queue))
    (hsplit : acquired = earlier ++ (lot, n) :: later) : ∀ x ∈ earlier, given before x.1 = x.2 := by
  rcases h with ⟨hnodup, _, done, rest, hacquired, hdone, hrest⟩
  cases hrest with
  | cons hfirst htail =>
    next x rest =>
    have hx : x = (lot, x.2) := Prod.ext hfirst.1 rfl
    rw [hx] at hacquired
    rw [eq_of_split hnodup hsplit hacquired]
    exact hdone

theorem Holds.fair_nothing {acquired before queue : List (ι × Nat)}
    (h : Holds acquired before queue)
    : Fair acquired before 0 ⟨[], 0⟩ where
  conserved := rfl
  known := by simp
  within lot held hmem := by
    rw [List.append_nil]
    exact h.le hmem
  inOrder pre t post heq := by simp at heq
  exhausted hlt := absurd hlt (Nat.lt_irrefl 0)

theorem Holds.mem_first {acquired before queue : List (ι × Nat)} {lot : ι} {held : Nat}
    (h : Holds acquired before ((lot, held) :: queue)) : lot ∈ acquired.map Prod.fst := by
  rcases h with ⟨_, _, done, rest, rfl, _, hrest⟩
  cases hrest with
  | cons hfirst htail =>
    rw [List.map_append, List.map_cons, hfirst.1]
    exact List.mem_append_right _ List.mem_cons_self

/--
What is taken from the first lot in the queue comes before the rest of what is taken.
-/
theorem Holds.fair_cons {acquired before queue : List (ι × Nat)} {lot : ι} {held n units : Nat}
    {m : Match ι} (h : Holds acquired before ((lot, held) :: queue)) (hle : n ≤ units)
    (hfair : Fair acquired (before ++ [(lot, n)]) (units - n) m)
    : Fair acquired before units ⟨(lot, n) :: m.taken, m.left⟩ := by
  have hassoc : ∀ xs, before ++ (lot, n) :: xs = before ++ [(lot, n)] ++ xs := by simp
  refine ⟨?_, ?_, ?_, ?_, ?_⟩
  . have := hfair.conserved
    rw [List.map_cons, List.sum_cons]
    dsimp only
    omega
  . rw [List.forall_mem_cons]
    exact ⟨h.mem_first, hfair.known⟩
  . intro l size hmem
    rw [hassoc]
    exact hfair.within l size hmem
  . intro pre t post heq earlier size later hsplit
    cases pre with
    | nil =>
      rw [List.nil_append, List.cons.injEq] at heq
      rw [← heq.1] at hsplit
      rw [List.append_nil]
      exact h.earlier_empty hsplit
    | cons p pre =>
      rw [List.cons_append, List.cons.injEq] at heq
      rw [← heq.1, hassoc]
      exact hfair.inOrder pre t post heq.2 earlier size later hsplit
  . intro hleft x hx
    rw [hassoc]
    exact hfair.exhausted hleft x hx

/--
A disposal from the queue is fair, and leaves the queue as it should be.
-/
theorem Holds.take {acquired before queue : List (ι × Nat)} (h : Holds acquired before queue)
    (units : Nat)
    : Fair acquired before units (take queue units).2 ∧
        Holds acquired (before ++ (take queue units).2.taken) (take queue units).1 := by
  induction queue generalizing before units with
  | nil =>
    refine ⟨⟨by simp [Fifo.take], by simp [Fifo.take], fun lot held hmem => ?_, ?_, fun _ x hx => ?_⟩, ?_⟩
    . rw [Fifo.take, List.append_nil]
      exact h.le hmem
    . intro pre t post heq
      simp [Fifo.take] at heq
    . rcases h with ⟨_, _, done, rest, rfl, hdone, hrest⟩
      rw [List.forall₂_nil_right_iff.mp hrest, List.append_nil] at hx
      rw [Fifo.take, List.append_nil]
      exact hdone x hx
    . rw [Fifo.take, List.append_nil]
      exact h
  | cons first queue ih =>
    rcases first with ⟨lot, held⟩
    rw [Fifo.take]
    split
    . next hzero =>
      subst hzero
      rw [List.append_nil]
      exact ⟨h.fair_nothing, h⟩
    . split
      . next hle =>
        have hgive := h.give (Nat.le_refl held)
        rw [Nat.sub_self] at hgive
        rcases ih hgive.pop (units - held) with ⟨hfair, hholds⟩
        rw [List.append_assoc] at hholds
        exact ⟨h.fair_cons hle hfair, hholds⟩
      . next hlt =>
        have hgive := h.give (show units ≤ held by omega)
        have hfair : Fair acquired (before ++ [(lot, units)]) (units - units) ⟨[], 0⟩ := by
          rw [Nat.sub_self]
          exact hgive.fair_nothing
        exact ⟨h.fair_cons (Nat.le_refl units) hfair, hgive⟩

theorem Holds.fairRun {acquired before queue : List (ι × Nat)} (h : Holds acquired before queue)
    {events : List (Event ι)} (hnodup : (acquired.map Prod.fst ++ lotsOf events).Nodup)
    : FairRun acquired before events (run queue events) := by
  induction events generalizing acquired before queue with
  | nil => rfl
  | cons event events ih =>
    cases event with
    | acquire lot units =>
      rw [lotsOf, List.nodup_append] at hnodup
      have hlot : lot ∉ acquired.map Prod.fst :=
        fun hmem => hnodup.2.2 lot hmem lot List.mem_cons_self rfl
      refine ih (h.acquire hlot units) ?_
      rw [List.map_append, List.append_assoc, List.nodup_append]
      exact hnodup
    | dispose units =>
      rcases h.take units with ⟨hfair, hholds⟩
      exact ⟨hfair, ih hholds hnodup⟩

/--
The disposals of a run are fair, if no two lots have one name.
-/
theorem fairRun_run {events : List (Event ι)} (hnodup : (lotsOf events).Nodup)
    : FairRun [] [] events (run [] events) :=
  holds_nil.fairRun hnodup

end Fifo
