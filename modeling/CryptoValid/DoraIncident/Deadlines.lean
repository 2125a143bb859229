import CryptoValid.DoraIncident
import CryptoValid.Fundcert.Canonical
import CryptoValid.Lib.Rounding

/-!
This module contains the exact times behind the deadlines of `dora_incident.py`, and which of the flags
of `check_deadlines` the rounding of floating point numbers can decide.
-/

namespace CryptoValid
namespace DoraIncident

/-!
### Elapsed hours
-/

def microsPerHour : Int := 3600000000

theorem value_elapsedHours_mono {a b a' b' : Int} (h : b - a ≤ b' - a')
    : (elapsedHours a b).value ≤ (elapsedHours a' b').value :=
  Binary64.div_mono (by decide +kernel) (by decide +kernel)
    (Binary64.ofQuotient_mono (by decide) h)

/--
A limit on a number that grows with the elapsed time is kept up to the last time that keeps it.
-/
theorem le_limit_iff {f : Binary64 → Binary64}
    (hf : ∀ x y : Binary64, x.value ≤ y.value → (f x).value ≤ (f y).value) {limit : Binary64}
    {last : Int} (hlast : (f (elapsedHours 0 last)).le limit = true)
    (hnext : (f (elapsedHours 0 (last + 1))).le limit = false) (a b : Int)
    : (f (elapsedHours a b)).le limit = true ↔ b - a ≤ last := by
  constructor
  . intro h
    by_contra hlate
    have hmono := hf _ _ (value_elapsedHours_mono (show last + 1 - 0 ≤ b - a by omega))
    rw [(Binary64.le_iff.mpr (hmono.trans (Binary64.le_iff.mp h)))] at hnext
    cases hnext
  . intro h
    have hmono := hf _ _ (value_elapsedHours_mono (show b - a ≤ last - 0 by omega))
    exact Binary64.le_iff.mpr (hmono.trans (Binary64.le_iff.mp hlast))

theorem met_checkAt (a b : Int) (limit : Binary64)
    : (checkAt a b limit).met = (elapsedHours a b).le limit := rfl

theorem met_initial (a b : Int)
    : (checkAt a b initialHours).met = true ↔ b - a ≤ 4 * microsPerHour := by
  rw [met_checkAt]
  exact le_limit_iff (fun _ _ h => h) (by decide +kernel) (by decide +kernel) a b

theorem met_intermediate (a b : Int)
    : (checkAt a b intermediateHours).met = true ↔ b - a ≤ 72 * microsPerHour := by
  rw [met_checkAt]
  exact le_limit_iff (fun _ _ h => h) (by decide +kernel) (by decide +kernel) a b

theorem met_final (a b : Int)
    : (checkAt a b (hours (finalDays * 24))).met = true ↔ b - a ≤ 720 * microsPerHour := by
  rw [met_checkAt]
  exact le_limit_iff (fun _ _ h => h) (by decide +kernel) (by decide +kernel) a b

/--
The hours that are compared with the second limit are rounded to thousandths, and half of one is
1.8 seconds.
-/
theorem backstop_iff (a b : Int)
    : ((elapsedHours a b).roundTo 3).le initialBackstopHours = true
        ↔ b - a < 24 * microsPerHour + 1800000 := by
  rw [← Int.le_sub_one_iff]
  exact le_limit_iff (fun _ _ => Binary64.roundTo_mono 3) (by decide +kernel) (by decide +kernel) a b

/-!
### Flags
-/

/--
A deadline: the phase that keeps it, its limit, and what is reported about it.
-/
structure Deadline where
  phase : Str
  limitHours : Int
  check : Option Check

def Deadlines.deadlines (d : Deadlines) : List Deadline :=
  [⟨txt "initial_notification", 4, d.initialNotification⟩,
    ⟨txt "intermediate_report", 72, d.intermediateReport⟩,
    ⟨txt "final_report", 720, d.finalReport⟩]

section

variable (u : Python.Unicode) (fromisoformat : Str → Option Datetime)

/--
The exact time from the classification to a phase, in microseconds.
-/
def elapsed? (phases : List Phase) (name : Str) : Option Int := do
  let base ← classifiedMajor u phases
  let p ← find u phases name
  return (← (parse fromisoformat p.ts).toOption) - (← (parse fromisoformat base.ts).toOption)

/--
A recorded phase that keeps its limit, by exact times.
-/
def Deadline.Kept (phases : List Phase) (x : Deadline) : Prop :=
  ∀ t ∈ elapsed? u fromisoformat phases x.phase, t ≤ x.limitHours * microsPerHour

/--
A deadline is reported when its phase is recorded, with the flag that the exact time asks for.
-/
structure Deadline.Exact (phases : List Phase) (x : Deadline) : Prop where
  reported : x.check.isSome = true ↔ (elapsed? u fromisoformat phases x.phase).isSome = true
  met : ∀ c ∈ x.check, c.met = true ↔ x.Kept u fromisoformat phases

/--
The flags say what is true of the exact times: of every deadline, of the second limit where the first
one is missed, and of all deadlines together.
-/
structure ExactFlags (phases : List Phase) (d : Deadlines) : Prop where
  deadline : ∀ x ∈ d.deadlines, x.Exact u fromisoformat phases
  backstop : ∀ c ∈ d.initialNotification,
    (c.withinBackstop.isSome = true ↔ c.met = false) ∧
      ∀ within ∈ c.withinBackstop,
        within = true
          ↔ ∀ t ∈ elapsed? u fromisoformat phases (txt "initial_notification"),
              t ≤ 24 * microsPerHour
  allMet : d.allDeadlinesMet = true ↔ ∀ x ∈ d.deadlines, x.Kept u fromisoformat phases

/--
The first notification is not in the 1.8 seconds after the second limit.
-/
def OutsideRounding (phases : List Phase) : Prop :=
  ∀ t ∈ elapsed? u fromisoformat phases (txt "initial_notification"),
    t ≤ 24 * microsPerHour ∨ 24 * microsPerHour + 1800000 ≤ t

variable {u fromisoformat}

/-!
### Checks by the elapsed time
-/

def checkAfter (t0 : Int) (limit : Binary64) (t : Int) : Check := checkAt t0 (t0 + t) limit

def initialAfter (t0 t : Int) : Check := (checkAfter t0 initialHours t).withBackstop

theorem check_of_parse {phases : List Phase}
    (hparse : ∀ p ∈ phases, ∃ t, parse fromisoformat p.ts = .ok t) {base : Phase}
    (hbase : classifiedMajor u phases = some base) {t0 : Int}
    (ht0 : parse fromisoformat base.ts = .ok t0) (name : Str) (limit : Binary64)
    : check u fromisoformat phases t0 name limit
        = .ok ((elapsed? u fromisoformat phases name).map (checkAfter t0 limit)) := by
  rw [check, elapsed?, hbase, Option.bind_eq_bind, Option.bind_some]
  cases hfind : find u phases name with
  | none => rfl
  | some p =>
    rcases hparse p (List.mem_of_find?_eq_some hfind) with ⟨t, ht⟩
    have ht' : (parse fromisoformat p.ts).toOption = some t := by rw [ht]; rfl
    have ht0' : (parse fromisoformat base.ts).toOption = some t0 := by rw [ht0]; rfl
    have hsum : t0 + (t - t0) = t := by omega
    dsimp only
    rw [ht, Except.ok_bind, Option.bind_eq_bind, Option.bind_some, ht', ht0']
    exact congrArg (fun t => Except.ok (some (checkAt t0 t limit))) hsum.symm

/--
What is reported, by the exact times.
-/
theorem checkDeadlines_eq {phases : List Phase}
    (hparse : ∀ p ∈ phases, ∃ t, parse fromisoformat p.ts = .ok t) {base : Phase}
    (hbase : classifiedMajor u phases = some base)
    : ∃ t0, checkDeadlines u fromisoformat phases = .ok (some ⟨base.ts,
        (elapsed? u fromisoformat phases (txt "initial_notification")).map (initialAfter t0),
        (elapsed? u fromisoformat phases (txt "intermediate_report")).map
          (checkAfter t0 intermediateHours),
        (elapsed? u fromisoformat phases (txt "final_report")).map
          (checkAfter t0 (hours (finalDays * 24)))⟩) := by
  rcases hparse base (List.mem_of_find?_eq_some hbase) with ⟨t0, ht0⟩
  refine ⟨t0, ?_⟩
  rw [checkDeadlines, hbase]
  dsimp only
  rw [ht0, Except.ok_bind, check_of_parse hparse hbase ht0, Except.ok_bind,
    check_of_parse hparse hbase ht0, Except.ok_bind, check_of_parse hparse hbase ht0, Except.ok_bind,
    Option.map_map]
  rfl

theorem met_withBackstop (c : Check) : c.withBackstop.met = c.met := by
  rw [Check.withBackstop]
  split <;> rfl

theorem add_sub_self (t0 t : Int) : t0 + t - t0 = t := by omega

theorem met_initialAfter (t0 t : Int) : (initialAfter t0 t).met = true ↔ t ≤ 4 * microsPerHour := by
  rw [initialAfter, met_withBackstop, checkAfter, met_initial, add_sub_self]

theorem met_intermediateAfter (t0 t : Int)
    : (checkAfter t0 intermediateHours t).met = true ↔ t ≤ 72 * microsPerHour := by
  rw [checkAfter, met_intermediate, add_sub_self]

theorem met_finalAfter (t0 t : Int)
    : (checkAfter t0 (hours (finalDays * 24)) t).met = true ↔ t ≤ 720 * microsPerHour := by
  rw [checkAfter, met_final, add_sub_self]

theorem withinBackstop_initialAfter (t0 t : Int)
    : (initialAfter t0 t).withinBackstop
        = if t ≤ 4 * microsPerHour then none
          else some (decide (t < 24 * microsPerHour + 1800000)) := by
  have hmet := met_initial t0 (t0 + t)
  have hwithin := backstop_iff t0 (t0 + t)
  rw [add_sub_self] at hmet hwithin
  rw [initialAfter, checkAfter, Check.withBackstop]
  by_cases h : t ≤ 4 * microsPerHour
  . rw [if_pos (hmet.mpr h), if_pos h]
    rfl
  . rw [if_neg (mt hmet.mp h), if_neg h]
    exact congrArg some (Bool.eq_iff_iff.mpr (hwithin.trans decide_eq_true_iff.symm))

section

variable {phases : List Phase} {name : Str} {limitHours : Int} {f : Int → Check}
variable (hf : ∀ t, (f t).met = true ↔ t ≤ limitHours * microsPerHour)
include hf

theorem exact_map
    : (⟨name, limitHours, (elapsed? u fromisoformat phases name).map f⟩ : Deadline).Exact u
        fromisoformat phases := by
  constructor
  . rw [Option.isSome_map]
  . rw [Deadline.Kept]
    cases elapsed? u fromisoformat phases name with
    | none => simp
    | some t => simp [hf]

theorem all_met_map
    : ((elapsed? u fromisoformat phases name).map f).all Check.met = true
        ↔ (⟨name, limitHours, (elapsed? u fromisoformat phases name).map f⟩ : Deadline).Kept u
            fromisoformat phases := by
  rw [Deadline.Kept]
  cases elapsed? u fromisoformat phases name with
  | none => simp
  | some t => simp [hf]

end

/--
Every flag follows the exact elapsed time, but for the second limit in the 1.8 seconds after it, which
are rounded away.
-/
theorem checkDeadlines_exact {phases : List Phase}
    (hbase : (classifiedMajor u phases).isSome = true)
    (hparse : ∀ p ∈ phases, ∃ t, parse fromisoformat p.ts = .ok t)
    : ∃ d, checkDeadlines u fromisoformat phases = .ok (some d) ∧
        (ExactFlags u fromisoformat phases d ↔ OutsideRounding u fromisoformat phases) := by
  rcases Option.isSome_iff_exists.mp hbase with ⟨base, hbase⟩
  rcases checkDeadlines_eq hparse hbase with ⟨t0, hd⟩
  refine ⟨_, hd, ?_⟩
  constructor
  . rintro hexact t ht
    rw [Option.mem_def] at ht
    by_contra hin
    push Not at hin
    have hbackstop := hexact.backstop _ (Option.mem_map.mpr ⟨t, ht, rfl⟩)
    rw [withinBackstop_initialAfter, if_neg (by unfold microsPerHour at *; omega)] at hbackstop
    have hwithin := (hbackstop.2 _ rfl).mp (decide_eq_true hin.2) t ht
    omega
  . intro houtside
    refine ⟨?_, ?_, ?_⟩
    . intro x hx
      rcases List.mem_cons.mp hx with rfl | hx
      . exact exact_map (met_initialAfter t0)
      . rcases List.mem_cons.mp hx with rfl | hx
        . exact exact_map (met_intermediateAfter t0)
        . rw [List.mem_singleton.mp hx]
          exact exact_map (met_finalAfter t0)
    . intro c hc
      rcases Option.mem_map.mp hc with ⟨t, ht, rfl⟩
      have hlimit := houtside t ht
      rw [Option.mem_def] at ht
      rw [withinBackstop_initialAfter, ht, ← Bool.not_eq_true, met_initialAfter]
      by_cases hfirst : t ≤ 4 * microsPerHour
      . simp [hfirst]
      . simp only [if_neg hfirst, Option.isSome_some, true_iff, Option.mem_def,
          Option.some.injEq, forall_eq', decide_eq_true_eq]
        refine ⟨hfirst, ?_⟩
        constructor
        . intro hlt
          omega
        . intro hle
          unfold microsPerHour at *
          omega
    . rw [Deadlines.allDeadlinesMet, Deadlines.checks, Deadlines.deadlines]
      simp only [List.all_cons, List.all_nil, Bool.and_true, Bool.and_eq_true, List.forall_mem_cons,
        List.not_mem_nil, false_implies, implies_true, and_true]
      exact and_congr (all_met_map (met_initialAfter t0))
        (and_congr (all_met_map (met_intermediateAfter t0)) (all_met_map (met_finalAfter t0)))

end

/--
The start of a day, and a moment of the next one.
-/
def exampleFromisoformat (s : Str) : Option Datetime :=
  if s = txt "2026-01-01T00:00:00+00:00" then some ⟨1767225600000000, some 0⟩
  else if s = txt "2026-01-02T00:00:01+00:00" then some ⟨1767312001000000, some 0⟩
  else if s = txt "2026-01-02T00:00:02+00:00" then some ⟨1767312002000000, some 0⟩
  else none

def examplePhases (notified : Str) : List Phase :=
  [⟨txt "classified_major", txt "2026-01-01T00:00:00Z", .obj []⟩,
    ⟨txt "initial_notification", notified, .obj []⟩]

theorem checkDeadlines_exact_example
    : ∃ d, checkDeadlines Python.Unicode.ascii exampleFromisoformat
          (examplePhases (txt "2026-01-02T00:00:02Z")) = .ok (some d) ∧
        (ExactFlags Python.Unicode.ascii exampleFromisoformat (examplePhases (txt "2026-01-02T00:00:02Z")) d
          ↔
        OutsideRounding Python.Unicode.ascii exampleFromisoformat
          (examplePhases (txt "2026-01-02T00:00:02Z"))) := by
  refine checkDeadlines_exact (by decide +kernel) ?_
  intro p hp
  rcases List.mem_cons.mp hp with rfl | hp
  . exact ⟨1767225600000000, by decide +kernel⟩
  . rw [List.mem_singleton.mp hp]
    exact ⟨1767312002000000, by decide +kernel⟩

/--
A notification one second after the second limit is reported to be within it.
-/
theorem checkDeadlines_rounded
    : ∃ d c, checkDeadlines Python.Unicode.ascii exampleFromisoformat
          (examplePhases (txt "2026-01-02T00:00:01Z")) = .ok (some d) ∧
        d.initialNotification = some c ∧ c.withinBackstop = some true ∧
        elapsed? Python.Unicode.ascii exampleFromisoformat (examplePhases (txt "2026-01-02T00:00:01Z"))
          (txt "initial_notification") = some (24 * microsPerHour + 1000000) ∧
        ¬ExactFlags Python.Unicode.ascii exampleFromisoformat
            (examplePhases (txt "2026-01-02T00:00:01Z")) d := by
  have helapsed : elapsed? Python.Unicode.ascii exampleFromisoformat
      (examplePhases (txt "2026-01-02T00:00:01Z")) (txt "initial_notification")
        = some (24 * microsPerHour + 1000000) := by
    decide +kernel
  have hparse : ∀ p ∈ examplePhases (txt "2026-01-02T00:00:01Z"),
      ∃ t, parse exampleFromisoformat p.ts = .ok t := by
    intro p hp
    rcases List.mem_cons.mp hp with rfl | hp
    . exact ⟨1767225600000000, by decide +kernel⟩
    . rw [List.mem_singleton.mp hp]
      exact ⟨1767312001000000, by decide +kernel⟩
  have hbase : (classifiedMajor Python.Unicode.ascii
      (examplePhases (txt "2026-01-02T00:00:01Z"))).isSome = true := by
    decide +kernel
  rcases Option.isSome_iff_exists.mp hbase with ⟨base, hbase⟩
  rcases checkDeadlines_eq hparse hbase with ⟨t0, hd⟩
  rw [helapsed, Option.map_some] at hd
  have hwithin := withinBackstop_initialAfter t0 (24 * microsPerHour + 1000000)
  rw [if_neg (by decide), decide_eq_true (by decide)] at hwithin
  refine ⟨_, _, hd, rfl, hwithin, helapsed, fun hexact => ?_⟩
  have hexact := ((hexact.backstop _ rfl).2 true hwithin).mp rfl _ helapsed
  exact absurd hexact (by decide)

end DoraIncident
end CryptoValid
