import CryptoValid.Ingest.Writer
import CryptoValid.Verifier.Writes

/-!
This module contains what `append_line` does to a ledger, whatever the system does, and that the
ingestor, for which a batch is written, lost or torn, is right about it.
-/

namespace CryptoValid
namespace Verifier
namespace Writes

open Calls

section

variable {os : Os} {base : Path → Option File}

/-!
### Lines of a ledger
-/

/--
What an exception of `append_line` says of a ledger that could not be brought back.
-/
def Err.SaysTorn (e : Err) : Prop := ∃ before, e = .notWritten (before ++ couldNotTruncate)

/--
What is left of a line.
-/
def partOf (line : Bytes) : Ingest.Append → Bytes
  | .done => line
  | .undone => []
  | .torn kept => line.take kept

/--
The caller learns what happened.
-/
def Tells (outcome : Ingest.Append) (r : Except Err Unit) : Prop :=
  match outcome with
  | .done => r = .ok ()
  | .undone => ∃ e, r = .error e ∧ ¬e.SaysTorn
  | .torn _ => ∃ e, r = .error e ∧ e.SaysTorn

theorem not_saysTorn {before left : Str}
    (hleft : left = leftAsItWas ∨ left = truncationNotSynced)
    : ¬(Err.notWritten (before ++ left)).SaysTorn := by
  rintro ⟨before', h⟩
  have hlast := congrArg List.getLast? (Err.notWritten.inj h)
  have htorn : couldNotTruncate.getLast? = some (.ofChar 'e') := by
    simp only [couldNotTruncate, txt_ofList]
    rfl
  have hwas : leftAsItWas.getLast? = some (.ofChar 's') := by
    simp only [leftAsItWas, txt_ofList]
    rfl
  have hsynced : truncationNotSynced.getLast? = some (.ofChar ')') := by
    simp only [truncationNotSynced, txt_ofList]
    rfl
  rcases hleft with rfl | rfl
  . rw [List.getLast?_append, List.getLast?_append, hwas, htorn] at hlast
    exact absurd (Option.some.inj hlast) (by decide)
  . rw [List.getLast?_append, List.getLast?_append, hsynced, htorn] at hlast
    exact absurd (Option.some.inj hlast) (by decide)

/--
A part of the line has been added to the file.
-/
def HasPart (os : Os) (base : Path → Option File) (path : Path) (f : File) (line : Bytes) (t : Os)
    : Prop :=
  ∃ n, Has os (Function.update base path (some (f.grown (line.take n)))) t

theorem HasPart.of_none {path : Path} {f : File} {line : Bytes} {t : Os}
    (h : Has os (Function.update base path (some f)) t) : HasPart os base path f line t :=
  ⟨0, by rwa [List.take_zero, File.grown_nil]⟩

theorem HasPart.of_whole {path : Path} {f : File} {line : Bytes} {t : Os}
    (h : Has os (Function.update base path (some (f.grown line))) t)
    : HasPart os base path f line t :=
  ⟨line.length, by rwa [List.take_length]⟩

theorem HasPart.next {path : Path} {f : File} {line : Bytes} {t : Os}
    (h : HasPart os base path f line t) : HasPart os base path f line t.next := by
  rcases h with ⟨n, h⟩
  exact ⟨n, h.next⟩

/--
How `os.ftruncate` leaves the file.
-/
def TakenBack (os : Os) (base : Path → Option File) (path : Path) (f : File) (line : Bytes)
    : Except Err Unit → Os → Prop
  | .ok (), t => Has os (Function.update base path (some f)) t
  | .error _, t => HasPart os base path f line t

theorem triple_truncateBack (path : Path) (f : File) (line : Bytes)
    : Triple (HasPart os base path f line) (truncateBack path f.content.length)
        (HasPart os base path f line)
        (fun r t => (r = .ok couldNotTruncate ∧ HasPart os base path f line t) ∨
          ∃ left, r = .ok left ∧ (left = leftAsItWas ∨ left = truncationNotSynced) ∧
            Has os (Function.update base path (some f)) t) := by
  refine Triple.andThen (TakenBack os base path f line) ?_ fun r => ?_
  . refine triple_syscall (fun t _ ht => ⟨ht.next, ht.next⟩) ?_
    rintro t ⟨n, ht⟩
    have hfile : (t.next.files path).map (fun g =>
        { g with content := g.content.take f.content.length }) = some f := by
      rw [ht.next.files_eq, Function.update_self, Option.map_some, File.grown]
      simp
    have hput := ht.next.put path (some f)
    rw [Function.update_idem] at hput
    have hback : Has os (Function.update base path (some f)) (t.next.put path
        ((t.next.files path).map fun g =>
          { g with content := g.content.take f.content.length })) := by
      rwa [hfile]
    exact ⟨.of_none hback, hback⟩
  . cases r with
    | error e => exact Triple.pure fun t ht => Or.inl ⟨rfl, ht⟩
    | ok u =>
      refine Triple.andThen _ ((triple_quiet fun _ ht => Has.next ht).weaken (fun _ ht => ht)
        (fun _ ht => HasPart.of_none ht) fun r t ht => ht.2) fun r => ?_
      cases r with
      | ok u => exact Triple.pure fun t ht => Or.inr ⟨_, rfl, Or.inl rfl, ht⟩
      | error e => exact Triple.pure fun t ht => Or.inr ⟨_, rfl, Or.inr rfl, ht⟩

theorem triple_appendWhole (path : Path) (f : File) (line : Bytes) (sync : Bool)
    : Triple (Has os (Function.update base path (some f)))
        (appendWhole path line sync f.content.length) (HasPart os base path f line)
        (fun r t => ∃ outcome, Tells outcome r ∧
          Has os (Function.update base path (some (f.grown (partOf line outcome)))) t) := by
  refine Triple.tryCatch (fun _ => HasPart os base path f line) ?_ fun e => ?_
  . refine Triple.bind (fun _ => Has os (Function.update base path (some (f.grown line))))
      ?_ fun _ => ?_
    . refine (triple_writeFd path f line).weaken (fun _ ht => ht) (fun _ ht => ht) ?_
      intro r t ht
      cases r with
      | ok u => exact ht
      | error e => exact ht.2
    . have hdone : ∀ t, Has os (Function.update base path (some (f.grown line))) t →
          ∃ outcome, Tells outcome (.ok ()) ∧
            Has os (Function.update base path (some (f.grown (partOf line outcome)))) t :=
        fun t ht => ⟨.done, rfl, ht⟩
      split
      . refine (triple_quiet fun _ ht => Has.next ht).weaken (fun _ ht => ht)
          (fun _ ht => HasPart.of_whole ht) ?_
        rintro r t ⟨-, ht⟩
        cases r with
        | ok u => exact hdone t ht
        | error e => exact HasPart.of_whole ht
      . exact Triple.pure fun t ht => hdone t ht
  . refine Triple.bind (fun left t =>
      (left = couldNotTruncate ∧ HasPart os base path f line t) ∨
        (left = leftAsItWas ∨ left = truncationNotSynced) ∧
          Has os (Function.update base path (some f)) t) ?_ fun left => ?_
    . refine (triple_truncateBack path f line).weaken (fun _ ht => ht) (fun _ ht => ht) ?_
      rintro r t (⟨rfl, ht⟩ | ⟨left, rfl, hleft, ht⟩)
      . exact Or.inl ⟨rfl, ht⟩
      . exact Or.inr ⟨hleft, ht⟩
    . refine Triple.throw ?_
      rintro t (⟨rfl, n, ht⟩ | ⟨hleft, ht⟩)
      . exact ⟨.torn n, ⟨_, rfl, _, rfl⟩, ht⟩
      . refine ⟨.undone, ⟨_, rfl, not_saysTorn hleft⟩, ?_⟩
        rwa [partOf, File.grown_nil]

theorem not_saysTorn_os (reason : Str) : ¬(Err.os reason).SaysTorn := by
  rintro ⟨before, h⟩
  cases h

/--
The ledger is as it was after an exception that says nothing else.
-/
theorem undone_of_base {path : Path} {f : File} {line : Bytes} {e : Err} (he : ¬e.SaysTorn) {t : Os}
    (h : Has os (Function.update base path (some f)) t)
    : ∃ outcome, Tells outcome (.error e) ∧
        Has os (Function.update base path (some (f.grown (partOf line outcome)))) t :=
  ⟨.undone, ⟨e, rfl, he⟩, by rwa [partOf, File.grown_nil]⟩

theorem triple_requireNewline (path : Path) (f : File) (line : Bytes)
    : Triple (Has os (Function.update base path (some f))) (requireNewline line)
        (HasPart os base path f line)
        (fun r t => (∀ e, r = .error e → ¬e.SaysTorn) ∧
          Has os (Function.update base path (some f)) t) := by
  rw [requireNewline]
  split
  . exact Triple.pure fun t ht => ⟨by simp, ht⟩
  . refine Triple.throw fun t ht => ⟨?_, ht⟩
    rintro e he ⟨before, htorn⟩
    rw [← Except.error.inj he] at htorn
    cases htorn

theorem triple_seekEnd (path : Path) (f : File) (line : Bytes)
    : Triple (Has os (Function.update base path (some f))) (seekEnd path)
        (HasPart os base path f line)
        (fun r t => (∀ e, r = .error e → ¬e.SaysTorn) ∧ (∀ size, r = .ok size →
          size = f.content.length) ∧ Has os (Function.update base path (some f)) t) := by
  refine triple_syscall ?_ ?_
  . intro t strerror ht
    refine ⟨.of_none ht.next, ?_, by simp, ht.next⟩
    rintro e he
    rw [← Except.error.inj he]
    exact not_saysTorn_os strerror
  . intro t ht
    refine ⟨.of_none ht.next, by simp, ?_, ht.next⟩
    intro size hsize
    rw [← Except.ok.inj hsize, ht.next.files_eq, Function.update_self]
    rfl

theorem triple_appendAtEnd (path : Path) (f : File) (line : Bytes) (sync : Bool)
    : Triple (Has os (Function.update base path (some f))) (appendAtEnd path line sync)
        (HasPart os base path f line)
        (fun r t => ∃ outcome, Tells outcome r ∧
          Has os (Function.update base path (some (f.grown (partOf line outcome)))) t) := by
  refine Triple.bind (fun size t => size = f.content.length ∧
    Has os (Function.update base path (some f)) t) ?_ fun size => ?_
  . refine (triple_seekEnd path f line).weaken (fun _ ht => ht) (fun _ ht => ht) ?_
    rintro r t ⟨herror, hok, ht⟩
    cases r with
    | ok size => exact ⟨hok size rfl, ht⟩
    | error e => exact undone_of_base (herror e rfl) ht
  . refine Triple.of_and fun hsize => ?_
    rw [hsize]
    exact triple_appendWhole path f line sync

theorem triple_appendOpened (path : Path) (f : File) (line : Bytes) (sync : Bool)
    : Triple (Has os (Function.update base path (some f))) (appendOpened path line sync)
        (HasPart os base path f line)
        (fun r t => ∃ outcome, Tells outcome r ∧
          Has os (Function.update base path (some (f.grown (partOf line outcome)))) t) := by
  refine Triple.bind (fun _ => Has os (Function.update base path (some f))) ?_ fun _ => ?_
  . refine (triple_requireNewline path f line).weaken (fun _ ht => ht) (fun _ ht => ht) ?_
    rintro r t ⟨herror, ht⟩
    cases r with
    | ok u => exact ht
    | error e => exact undone_of_base (herror e rfl) ht
  refine Triple.bind (fun _ => Has os (Function.update base path (some f))) ?_ fun _ =>
    triple_appendAtEnd path f line sync
  refine (triple_quiet fun _ ht => Has.next ht).weaken (fun _ ht => ht)
    (fun _ ht => HasPart.of_none ht) ?_
  rintro r t ⟨herror, ht⟩
  cases r with
  | ok u => exact ht
  | error e =>
    rcases herror e rfl with ⟨reason, rfl⟩
    exact undone_of_base (not_saysTorn_os reason) ht

/--
Lines that are appended one after the other, and what each call comes to.
-/
def appendEach (path : Path) (sync : Bool) : List Bytes → Io (List (Except Err Unit))
  | [] => pure []
  | line :: lines => (appendOpened path line sync).andThen fun r => do
    let rs ← appendEach path sync lines
    return r :: rs

theorem triple_appendEach (path : Path) (sync : Bool) (lines : List Bytes) (f : File)
    : Triple (Has os (Function.update base path (some f))) (appendEach path sync lines)
        (fun _ => True)
        (fun r t => ∃ results outcomes, r = .ok results ∧ List.Forall₂ Tells outcomes results ∧
          outcomes.length = lines.length ∧ Has os (Function.update base path
            (some (f.grown (List.zipWith partOf lines outcomes).flatten))) t) := by
  induction lines generalizing f with
  | nil =>
    refine Triple.pure fun t ht => ⟨[], [], rfl, .nil, rfl, ?_⟩
    rwa [List.zipWith_nil_left, List.flatten_nil, File.grown_nil]
  | cons line lines ih =>
    refine Triple.andThen _ ((triple_appendOpened path f line sync).weaken (fun _ ht => ht)
      (fun _ _ => trivial) fun _ _ ht => ht) fun r => ?_
    refine Triple.of_exists fun outcome => Triple.of_and fun htells => ?_
    refine Triple.bind (fun results t => ∃ outcomes, List.Forall₂ Tells outcomes results ∧
      outcomes.length = lines.length ∧ Has os (Function.update base path (some
        ((f.grown (partOf line outcome)).grown (List.zipWith partOf lines outcomes).flatten))) t)
      ?_ fun results => ?_
    . refine (ih (f.grown (partOf line outcome))).weaken (fun _ ht => ht) (fun _ ht => ht) ?_
      rintro _ t ⟨results, outcomes, rfl, h⟩
      exact ⟨outcomes, h⟩
    . refine Triple.pure ?_
      rintro t ⟨outcomes, hall, hlength, ht⟩
      refine ⟨r :: results, outcome :: outcomes, rfl, .cons htells hall, by simp [hlength], ?_⟩
      rwa [File.grown_grown] at ht

/--
What `append_line` finds, or makes, at the path.
-/
def Found (base : Path → Option File) (path : Path) (f : File) : Prop :=
  base path = some f ∨ base path = none ∧ f.regular = true ∧ f.content = []

theorem triple_openAppend (path : Path) (mode : Nat)
    : Triple (Has os base) (openAppend path mode)
        (fun t => Has os base t ∨ ∃ f, Found base path f ∧
          Has os (Function.update base path (some f)) t)
        (fun
          | .ok (), t => ∃ f, Found base path f ∧ Has os (Function.update base path (some f)) t
          | .error e, t => (∃ reason, e = .os reason) ∧ Has os base t) := by
  refine triple_syscall ?_ ?_
  . exact fun t strerror ht => ⟨Or.inl ht.next, ⟨_, rfl⟩, ht.next⟩
  . intro t ht
    split
    . exact ⟨Or.inl ht.next, ⟨_, rfl⟩, ht.next⟩
    . split
      . next f hf =>
        rw [ht.next.files_eq] at hf
        have hsame : Function.update base path (some f) = base := by
          rw [← hf, Function.update_eq_self]
        refine ⟨Or.inl ht.next, f, Or.inl hf, ?_⟩
        rw [hsame]
        exact ht.next
      . next hf =>
        rw [ht.next.files_eq] at hf
        have hput := ht.next.put path (some ⟨true, [], mode - (mode &&& t.next.umask)⟩)
        exact ⟨Or.inr ⟨_, Or.inr ⟨hf, rfl, rfl⟩, hput⟩, _, Or.inr ⟨hf, rfl, rfl⟩, hput⟩

theorem HasPart.of_partOf {path : Path} {f : File} {line : Bytes} {outcome : Ingest.Append} {t : Os}
    (h : Has os (Function.update base path (some (f.grown (partOf line outcome)))) t)
    : HasPart os base path f line t := by
  cases outcome with
  | done => exact .of_whole h
  | undone =>
    rw [partOf, File.grown_nil] at h
    exact .of_none h
  | torn kept => exact ⟨kept, h⟩

end

/-!
### A ledger that is opened and closed
-/

/--
Every call of the program takes one of the replies.
-/
def Counted {α : Type} (p : Io α) : Prop :=
  ∀ os k, (p os).final.replies k = os.replies (k + (p os).passed.length)

namespace Counted

variable {α β : Type}

theorem pure (a : α) : Counted (Pure.pure a : Io α) := fun _ _ => rfl

theorem throw (e : Err) : Counted (Prog.throw e : Io α) := fun _ _ => rfl

theorem syscall {effect : Os → Except Err α × Os}
    (h : ∀ os, (effect os).2.replies = os.replies) : Counted (syscall effect) := by
  intro os k
  simp only [Writes.syscall, Prog.call, List.length_singleton]
  split
  . rfl
  . rw [h]
    rfl

theorem andThen {p : Io α} {next : Except Err α → Io β} (hp : Counted p)
    (hnext : ∀ r, Counted (next r)) : Counted (p.andThen next) := by
  intro os k
  simp only [Prog.andThen, List.length_append]
  rw [hnext, hp]
  congr 1
  omega

theorem bind {p : Io α} {next : α → Io β} (hp : Counted p) (hnext : ∀ a, Counted (next a))
    : Counted (p >>= next) := by
  refine andThen hp fun r => ?_
  cases r with
  | ok a => exact hnext a
  | error e => exact throw e

theorem tryCatch {p : Io α} {handler : Err → Io α} (hp : Counted p)
    (hhandler : ∀ e, Counted (handler e)) : Counted (p.tryCatch handler) := by
  refine andThen hp fun r => ?_
  cases r with
  | ok a => exact pure a
  | error e => exact hhandler e

end Counted

theorem counted_quiet : Counted quiet := .syscall fun _ => rfl

theorem counted_openAppend (path : Path) (mode : Nat) : Counted (openAppend path mode) := by
  refine .syscall fun os => ?_
  split
  . rfl
  . split <;> rfl

theorem counted_write (fd : Path) (data : Bytes) : Counted (write fd data) := by
  intro os k
  simp only [write, Prog.call, List.length_singleton]
  split <;> rfl

theorem counted_writeFd (fd : Path) (data : Bytes) : Counted (writeFd fd data) := by
  induction data using writeFd.induct with
  | case1 =>
    rw [writeFd]
    exact .pure ()
  | case2 data hdata ih =>
    rw [writeFd, dif_neg hdata]
    refine .bind (counted_write fd data) fun n => ?_
    split
    . exact .throw _
    . next hn => exact ih n hn

theorem counted_truncateBack (fd : Path) (size : Nat) : Counted (truncateBack fd size) := by
  refine .andThen (.syscall fun _ => rfl) fun r => ?_
  cases r with
  | error e => exact .pure _
  | ok u =>
    refine .andThen counted_quiet fun r => ?_
    cases r <;> exact .pure _

theorem counted_appendAtEnd (path : Path) (line : Bytes) (sync : Bool)
    : Counted (appendAtEnd path line sync) := by
  refine .bind (.syscall fun _ => rfl) fun size => .tryCatch ?_ fun e => ?_
  . refine .bind (counted_writeFd path line) fun _ => ?_
    split
    . exact counted_quiet
    . exact .pure ()
  . exact .bind (counted_truncateBack path size) fun _ => .throw _

/--
What a file is closed after, and what takes the place of its result if the close fails.
-/
theorem tryFinally_quiet {α : Type} (p : Io α) (os : Os)
    : p.tryFinally quiet os =
        ⟨match (p os).final.replies 0 with
          | .fails strerror => .error (.os strerror)
          | _ => (p os).result,
          (p os).final.next, (p os).passed ++ [(p os).final.next]⟩ := by
  simp only [Prog.tryFinally, Prog.andThen, quiet, syscall, Prog.call]
  cases (p os).final.replies 0 <;> rfl

/--
`append_line` to a path: at every moment the ledger is the one before with a first part of the line,
and nothing else changes. The outcome is as it is told, unless the last call fails, which is the
close: that exception takes the place of the one that tells.
-/
theorem appendLine_atomic (path : Path) (line : Bytes) (mode : Nat) (sync : Bool) (os : Os)
    : (∀ t ∈ (appendLine path line mode sync os).passed,
          t.files = os.files ∨ ∃ f n, Found os.files path f ∧
            t.files = Function.update os.files path (some (f.grown (line.take n)))) ∧
        (((∃ e, (appendLine path line mode sync os).result = .error e ∧ ¬e.SaysTorn) ∧
            (appendLine path line mode sync os).final.files = os.files) ∨
          ∃ f outcome, Found os.files path f ∧
            (Tells outcome (appendLine path line mode sync os).result ∨
              Tells outcome (appendAtEnd path line sync (openAppend path mode os).final).result ∧
                ∃ reason, os.replies ((appendLine path line mode sync os).passed.length - 1) =
                    .fails reason ∧
                  (appendLine path line mode sync os).result = .error (.os reason)) ∧
            (appendLine path line mode sync os).final.files =
              Function.update os.files path (some (f.grown (partOf line outcome)))) := by
  have hstart : Has os os.files os := ⟨rfl, rfl, rfl⟩
  have hopening := triple_openAppend path mode os hstart
  by_cases hline : line.getLast? = some 0x0a
  swap
  . have hrun : appendLine path line mode sync os = ⟨.error .value, os, []⟩ := by
      rw [appendLine, requireNewline, if_neg hline]
      rfl
    rw [hrun]
    exact ⟨by simp, Or.inl ⟨⟨_, rfl, by rintro ⟨before, h⟩; cases h⟩, rfl⟩⟩
  have hrun : appendLine path line mode sync os = (do
      openAppend path mode; (appendAtEnd path line sync).tryFinally quiet : Io Unit) os := by
    rw [appendLine, requireNewline, if_pos hline]
    rfl
  have hduring : ∀ t ∈ (openAppend path mode os).passed, t.files = os.files ∨
      ∃ f n, Found os.files path f ∧
        t.files = Function.update os.files path (some (f.grown (line.take n))) := by
    intro t ht
    rcases hopening.1 t ht with h | ⟨f, hf, h⟩
    . exact Or.inl h.files_eq
    . exact Or.inr ⟨f, 0, hf, by rw [h.files_eq, List.take_zero, File.grown_nil]⟩
  rw [hrun]
  cases hopen : (openAppend path mode os).result with
  | error e =>
    -- the ledger cannot be opened
    rw [Prog.bind_of_error hopen]
    rw [hopen] at hopening
    rcases hopening.2 with ⟨⟨reason, rfl⟩, hfinal⟩
    exact ⟨hduring, Or.inl ⟨⟨_, rfl, not_saysTorn_os reason⟩, hfinal.files_eq⟩⟩
  | ok u =>
    rw [Prog.bind_of_ok hopen, tryFinally_quiet]
    rw [hopen] at hopening
    rcases hopening.2 with ⟨f, hf, hopened⟩
    have hbody := triple_appendAtEnd path f line sync _ hopened
    rcases hbody.2 with ⟨outcome, htells, hfinal⟩
    refine ⟨fun t ht => ?_, Or.inr ⟨f, outcome, hf, ?_, hfinal.next.files_eq⟩⟩
    . simp only [List.mem_append, List.mem_singleton] at ht
      rcases ht with ht | ht | rfl
      . exact hduring t ht
      . rcases hbody.1 t ht with ⟨n, h⟩
        exact Or.inr ⟨f, n, hf, h.files_eq⟩
      -- the close leaves the file as it is
      . rcases HasPart.of_partOf hfinal.next with ⟨n, h⟩
        exact Or.inr ⟨f, n, hf, h.files_eq⟩
    . have hlast : (appendAtEnd path line sync (openAppend path mode os).final).final.replies 0 =
          os.replies (((openAppend path mode os).passed ++
            ((appendAtEnd path line sync (openAppend path mode os).final).passed ++
              [(appendAtEnd path line sync (openAppend path mode os).final).final.next])).length -
            1) := by
        rw [counted_appendAtEnd, counted_openAppend]
        congr 1
        simp only [List.length_append, List.length_singleton]
        omega
      rw [← hlast]
      cases (appendAtEnd path line sync (openAppend path mode os).final).final.replies 0 with
      | fails reason => exact Or.inr ⟨htells, reason, rfl, rfl⟩
      | done => exact Or.inl htells
      | short n => exact Or.inl htells

/--
The lines whose calls returned.
-/
def recorded (lines : List Bytes) (results : List (Except Err Unit)) : List Bytes :=
  ((lines.zip results).filter fun p => p.2.isOk).map Prod.fst

theorem flatten_recorded {lines : List Bytes} {outcomes : List Ingest.Append}
    {results : List (Except Err Unit)} (htells : List.Forall₂ Tells outcomes results)
    (hwhole : ∀ e, .error e ∈ results → ¬e.SaysTorn)
    : (List.zipWith partOf lines outcomes).flatten = (recorded lines results).flatten := by
  induction htells generalizing lines with
  | nil => simp [recorded]
  | @cons outcome r outcomes results hfirst hrest ih =>
    cases lines with
    | nil => simp [recorded]
    | cons line lines =>
      have htail : (List.zipWith partOf lines outcomes).flatten = (recorded lines results).flatten :=
        ih fun e he => hwhole e (List.mem_cons_of_mem _ he)
      rw [List.zipWith_cons_cons, List.flatten_cons, htail]
      cases outcome with
      | done =>
        have hr : r = .ok () := hfirst
        simp [recorded, hr, partOf, Except.isOk, Except.toBool]
      | undone =>
        rcases hfirst with ⟨e, rfl, -⟩
        simp [recorded, partOf, Except.isOk, Except.toBool]
      | torn kept =>
        rcases hfirst with ⟨e, rfl, htorn⟩
        exact absurd htorn (hwhole e List.mem_cons_self)

/--
Lines that are appended to an open ledger, whatever the system does: as long as no exception says
that the ledger could not be truncated back, it is the one before with exactly the lines whose calls
returned, in their order.
-/
theorem appendEach_ledger (path : Path) (sync : Bool) (lines : List Bytes) (f : File) (os : Os)
    (hf : os.files path = some f)
    : ∃ results, (appendEach path sync lines os).result = .ok results ∧
        results.length = lines.length ∧
        ((∀ e, .error e ∈ results → ¬e.SaysTorn) →
          (appendEach path sync lines os).final.files =
            Function.update os.files path (some (f.grown (recorded lines results).flatten))) := by
  have hself : Function.update os.files path (some f) = os.files := by
    rw [← hf, Function.update_eq_self]
  have hstart : Has os (Function.update os.files path (some f)) os := ⟨hself.symm, rfl, rfl⟩
  have hrun := triple_appendEach path sync lines f os hstart
  rcases hrun.2 with ⟨results, outcomes, hresult, htells, hlength, h⟩
  refine ⟨results, hresult, htells.length_eq.symm.trans hlength, fun hwhole => ?_⟩
  rw [h.files_eq, flatten_recorded htells hwhole]

/--
Two lines, of which the first is written in two parts and the second one fails.
-/
def exampleOs : Os where
  files p := if p = txt "l" then some ⟨true, [0x7b, 0x7d, 0x0a], 0o644⟩ else none
  isDir _ := false
  realpath := id
  umask := 0o022
  replies k := if k = 2 then .short 1 else if k = 7 then .fails (txt "No space left on device")
    else .done
  tokens _ := txt "0123456789abcdef"

theorem appendEach_ledger_example
    : ∃ results, (appendEach (txt "l") true [[0x31, 0x0a], [0x32, 0x0a]] exampleOs).result =
          .ok results ∧ results.length = 2 ∧
        ((∀ e, .error e ∈ results → ¬e.SaysTorn) →
          (appendEach (txt "l") true [[0x31, 0x0a], [0x32, 0x0a]] exampleOs).final.files =
            Function.update exampleOs.files (txt "l") (some
              ((⟨true, [0x7b, 0x7d, 0x0a], 0o644⟩ : File).grown
                (recorded [[0x31, 0x0a], [0x32, 0x0a]] results).flatten))) :=
  appendEach_ledger (txt "l") true [[0x31, 0x0a], [0x32, 0x0a]] ⟨true, [0x7b, 0x7d, 0x0a], 0o644⟩
    exampleOs (by simp [exampleOs])

/-!
### The segments of an ingestor
-/

/--
A flush does to its segment what the system calls do, for one of the outcomes that the ingestor
counts with. The buffer is emptied if the batch is written, and kept otherwise.
-/
theorem flush_refines (cfg : Ingest.Config) (env : Ingest.Env) (fs : Ingest.Fs)
    (o : Ingest.Ingestor) (k : Nat) (path : Path) (f : File) (sync : Bool) (os : Os)
    (hfh : o.fh = some k)
    (hbuf : o.buf ≠ []) (hsegment : fs.segments.get? k = some f.content)
    (hf : os.files path = some f)
    : ∃ outcome, Tells outcome (appendOpened path (Ingest.batchOf o.buf) sync os).result ∧
        (∀ j, (o.flush cfg { env with append := outcome } fs).fs.segments.get? j =
          if j = k then
            ((appendOpened path (Ingest.batchOf o.buf) sync os).final.files path).map File.content
          else fs.segments.get? j) ∧
        ((o.flush cfg { env with append := outcome } fs).ing.buf = [] ↔
          (appendOpened path (Ingest.batchOf o.buf) sync os).result = .ok ()) ∧
        ∀ p ≠ path,
          (appendOpened path (Ingest.batchOf o.buf) sync os).final.files p = os.files p := by
  have hself : Function.update os.files path (some f) = os.files := by
    rw [← hf, Function.update_eq_self]
  have hstart : Has os (Function.update os.files path (some f)) os := ⟨hself.symm, rfl, rfl⟩
  have hrun := triple_appendOpened path f (Ingest.batchOf o.buf) sync os hstart
  rcases hrun.2 with ⟨outcome, htells, hfinal⟩
  have hempty : o.buf.isEmpty = false := by simpa using hbuf
  have hcontent : ((appendOpened path (Ingest.batchOf o.buf) sync os).final.files path).map
      File.content = some (f.content ++ partOf (Ingest.batchOf o.buf) outcome) := by
    rw [hfinal.files_eq, Function.update_self]
    rfl
  refine ⟨outcome, htells, fun j => ?_, ?_, fun p hp => ?_⟩
  . rw [hcontent, Ingest.Ingestor.flush, hempty, hfh]
    cases outcome with
    | done =>
      simp only [Bool.false_eq_true, if_false, Ingest.Fs.appendTo, Dict.get?_set, hsegment,
        Option.getD_some, partOf]
    | undone =>
      simp only [Bool.false_eq_true, if_false, partOf, List.append_nil]
      split
      . next hj => rw [hj, hsegment]
      . rfl
    | torn kept =>
      simp only [Bool.false_eq_true, if_false, Ingest.Fs.appendTo, Dict.get?_set, hsegment,
        Option.getD_some, partOf]
  . rw [Ingest.Ingestor.flush, hempty, hfh]
    cases outcome with
    | done =>
      have hok : (appendOpened path (Ingest.batchOf o.buf) sync os).result = .ok () := htells
      simp [hok]
    | undone =>
      rcases htells with ⟨e, he, -⟩
      simp [he, hbuf]
    | torn kept =>
      rcases htells with ⟨e, he, -⟩
      simp [he, hbuf]
  . rw [hfinal.files_eq, Function.update_of_ne hp]

/--
An entry that is queued, and the open segment that it goes to.
-/
def exampleIngestor : Ingest.Ingestor :=
  ⟨0, 1, [], [], [[.ofNat 0x7b, .ofNat 0x7d]], some 0, 0⟩

def exampleFs : Ingest.Fs where
  segments := Dict.empty.set 0 [0x7b, 0x7d, 0x0a]
  sth := Dict.empty
  head := none

def exampleConfig : Ingest.Config where
  interp := ⟨1000, 1000, some 4300⟩
  directory := txt "archive"

theorem flush_refines_example
    : ∃ outcome, Tells outcome
          (appendOpened (txt "l") (Ingest.batchOf exampleIngestor.buf) true exampleOs).result ∧
        (∀ j, (exampleIngestor.flush exampleConfig { append := outcome }
            exampleFs).fs.segments.get? j =
          if j = 0 then ((appendOpened (txt "l") (Ingest.batchOf exampleIngestor.buf) true
            exampleOs).final.files (txt "l")).map File.content
          else exampleFs.segments.get? j) ∧
        ((exampleIngestor.flush exampleConfig { append := outcome } exampleFs).ing.buf = [] ↔
          (appendOpened (txt "l") (Ingest.batchOf exampleIngestor.buf) true exampleOs).result =
            .ok ()) ∧
        ∀ p ≠ txt "l", (appendOpened (txt "l") (Ingest.batchOf exampleIngestor.buf) true
          exampleOs).final.files p = exampleOs.files p :=
  flush_refines exampleConfig {} exampleFs exampleIngestor 0 (txt "l")
    ⟨true, [0x7b, 0x7d, 0x0a], 0o644⟩ true exampleOs rfl (by decide) (Dict.get?_set_self _ _ _)
    (by simp [exampleOs])

end Writes
end Verifier
end CryptoValid
