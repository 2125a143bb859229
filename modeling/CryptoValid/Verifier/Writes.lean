import CryptoValid.Lib.Calls
import CryptoValid.Lib.Text
import Mathlib.Logic.Function.Basic

/-!
This module contains the writers of `verifier.py`, through which every file of a command goes, over
the system calls that they make. Each call may fail, and a write may take a part of its bytes.
-/

namespace CryptoValid
namespace Verifier
namespace Writes

open Calls

abbrev Path := Str

structure File where
  regular : Bool
  content : Bytes
  mode : Nat
  deriving DecidableEq

/--
How a system call ends. Only a write can be short.
-/
inductive Reply where
  | done
  | short (n : Nat)
  | fails (strerror : Str)

/--
The files, and what comes next: how the calls end, and the random parts of names.
-/
structure Os where
  files : Path → Option File
  isDir : Path → Bool
  realpath : Path → Path
  umask : Nat
  replies : Nat → Reply
  tokens : Nat → Str

inductive Err where
  | os (reason : Str)
  | fileExists
  | notWritten (text : Str)
  | value
  deriving DecidableEq

def Err.reason : Err → Str
  | os reason => reason
  | fileExists => txt "File exists"
  | notWritten text => text
  | value => []

abbrev Io (α : Type) := Prog Os Err α

def couldNotTruncate : Str :=
  txt "the ledger could not be truncated back and may end in part of the line"

def leftAsItWas : Str := txt "the ledger is left as it was"

def truncationNotSynced : Str :=
  txt "the ledger was truncated back to the bytes it had (that truncation could not be synced)"

/-!
### System calls
-/

def Os.next (os : Os) : Os := { os with replies := fun k => os.replies (k + 1) }

def Os.put (os : Os) (path : Path) (file : Option File) : Os :=
  { os with files := Function.update os.files path file }

def File.grown (f : File) (bytes : Bytes) : File := { f with content := f.content ++ bytes }

/--
More bytes at the end of a file.
-/
def Os.extend (os : Os) (path : Path) (bytes : Bytes) : Os :=
  os.put path ((os.files path).map fun f => f.grown bytes)

/--
A call that does `effect`, or fails and does nothing.
-/
def syscall (effect : Os → Except Err α × Os) : Io α :=
  Prog.call fun os =>
    match os.replies 0 with
    | .fails strerror => (.error (.os strerror), os.next)
    | _ => effect os.next

/--
`os.open` with `O_CREAT | O_EXCL`
-/
def openNew (path : Path) (mode : Nat) : Io Unit :=
  syscall fun os =>
    if (os.files path).isSome || os.isDir path then (.error (.os (txt "File exists")), os)
    else (.ok (), os.put path (some ⟨true, [], mode - (mode &&& os.umask)⟩))

/--
`os.open` with `O_CREAT | O_APPEND`
-/
def openAppend (path : Path) (mode : Nat) : Io Unit :=
  syscall fun os =>
    if os.isDir path then (.error (.os (txt "Is a directory")), os)
    else
      match os.files path with
      | some _ => (.ok (), os)
      | none => (.ok (), os.put path (some ⟨true, [], mode - (mode &&& os.umask)⟩))

/--
`os.open` with `O_WRONLY` alone
-/
def openExisting (path : Path) : Io Unit :=
  syscall fun os =>
    if (os.files path).isSome then (.ok (), os)
    else (.error (.os (txt "No such file or directory")), os)

def write (fd : Path) (data : Bytes) : Io Nat :=
  Prog.call fun os =>
    match os.replies 0 with
    | .fails strerror => (.error (.os strerror), os.next)
    | .short n => (.ok (min n data.length), os.next.extend fd (data.take n))
    | .done => (.ok data.length, os.next.extend fd data)

def fchmod (fd : Path) (mode : Nat) : Io Unit :=
  syscall fun os => (.ok (), os.put fd ((os.files fd).map fun f => { f with mode }))

/--
`os.fsync`, `os.close`, and `flush` of a file without a buffer: they change no bytes.
-/
def quiet : Io Unit := syscall fun os => (.ok (), os)

/--
`os.lseek(fd, 0, os.SEEK_END)`
-/
def seekEnd (fd : Path) : Io Nat :=
  syscall fun os => (.ok ((os.files fd).elim 0 fun f => f.content.length), os)

def ftruncate (fd : Path) (size : Nat) : Io Unit :=
  syscall fun os => (.ok (), os.put fd ((os.files fd).map fun f =>
    { f with content := f.content.take size }))

def unlink (path : Path) : Io Unit := syscall fun os => (.ok (), os.put path none)

/--
`os.replace`
-/
def replace (src dst : Path) : Io Unit :=
  syscall fun os =>
    if os.isDir dst then (.error (.os (txt "Is a directory")), os)
    else (.ok (), (os.put dst (os.files src)).put src none)

def link (src dst : Path) : Io Unit :=
  syscall fun os =>
    if (os.files dst).isSome || os.isDir dst then (.error .fileExists, os)
    else (.ok (), os.put dst (os.files src))

/--
`secrets.token_hex(8)`
-/
def tokenHex : Io Str :=
  Prog.call fun os => (.ok (os.tokens 0), { os with tokens := fun k => os.tokens (k + 1) })

/-!
### Writers
-/

def unlinkQuietly (path : Path) : Io Unit := (unlink path).tryCatch fun _ => pure ()

/--
`raise OutputNotWritten(f"\x7bpath\x7d: \x7be.strerror or e\x7d")` for an `OSError`.
-/
def notWritten (path : Path) (e : Err) : Err := .notWritten (path ++ txt ": " ++ e.reason)

/--
`_write_fd`
-/
def writeFd (fd : Path) (data : Bytes) : Io Unit :=
  if _hdata : data = [] then pure ()
  else do
    let n ← write fd data
    if _hn : n = 0 then
      Prog.throw (.os (txt "short write: " ++ txt (toString data.length) ++
        txt " bytes not written"))
    else
      writeFd fd (data.drop n)
termination_by data.length
decreasing_by
  have hpos := List.length_pos_iff.mpr _hdata
  rw [List.length_drop]
  omega

def tmpName (path : Path) (token : Str) : Path := path ++ txt "." ++ token ++ txt ".tmp"

/--
`os.fchmod` if there is a mode that the file has to have.
-/
def chmodTo (fd : Path) : Option Nat → Io Unit
  | some mode => fchmod fd mode
  | none => pure ()

def fill (tmp : Path) (raw : Bytes) (exactMode : Option Nat) : Io Unit := do
  chmodTo tmp exactMode
  writeFd tmp raw
  quiet

def writeTmp (path : Path) (raw : Bytes) (mode : Nat) (exactMode : Option Nat) : Io Path := do
  let token ← tokenHex
  let tmp := tmpName path token
  (openNew tmp mode).tryCatch fun e => Prog.throw (notWritten path e)
  ((fill tmp raw exactMode).tryFinally quiet).tryCatch fun e => do
    unlinkQuietly tmp
    Prog.throw (notWritten path e)
  return tmp

/--
A regular file has to be one that this process may write.
-/
def checkWritable (path real : Path) (f : File) : Io Unit :=
  if f.regular then
    (do openExisting real; quiet).tryCatch fun e => Prog.throw (notWritten path e)
  else
    pure ()

/--
`_replace_target`: where the file goes, and what is there.
-/
def replaceTarget (path : Path) : Io (Path × Option File) :=
  Prog.andThen (syscall fun os => (.ok (os.realpath path, os.files (os.realpath path)), os))
    fun
    | .error _ => Prog.call fun os => (.ok (os.realpath path, none), os)
    | .ok (real, none) => pure (real, none)
    | .ok (real, some f) => do
      checkWritable path real f
      return (real, some f)

def commitTmp (tmp path : Path) : Io Unit :=
  (replace tmp path).tryCatch fun e => do
    unlinkQuietly tmp
    Prog.throw (notWritten path e)

def refuseDirectory (path : Path) : Io Unit :=
  Prog.call fun os =>
    if path.getLast? = some (.ofChar '/') || os.isDir path then
      (.error (.notWritten (path ++ txt ": is a directory")), os)
    else
      (.ok (), os)

/--
What is not a regular file is written directly.
-/
def writeDevice (real : Path) (raw : Bytes) : Io Unit :=
  (do openExisting real; (writeFd real raw).tryFinally quiet).tryCatch fun e =>
    Prog.throw (notWritten real e)

/--
An existing file keeps its mode, unless the caller asks for one.
-/
def keptMode (mode : Nat) (st : Option File) : Option Nat :=
  if mode = 0o666 then st.map File.mode else none

def writeOutput (path : Path) (raw : Bytes) (mode : Nat) : Io Unit := do
  refuseDirectory path
  let (real, st) ← replaceTarget path
  if st.any fun f => !f.regular then
    writeDevice real raw
  else
    let tmp ← writeTmp real raw mode (keptMode mode st)
    commitTmp tmp real

def writeNew (path : Path) (raw : Bytes) (mode : Nat) : Io Unit := do
  let tmp ← writeTmp path raw mode none
  ((link tmp path).tryCatch fun e =>
    Prog.throw (if e = .fileExists then e else notWritten path e)).tryFinally (unlinkQuietly tmp)

/--
What is done after a failure of `append_line`: how the ledger is left.
-/
def truncateBack (fd : Path) (size : Nat) : Io Str :=
  (ftruncate fd size).andThen fun
    | .error _ => pure couldNotTruncate
    | .ok () => quiet.andThen fun
      | .error _ => pure truncationNotSynced
      | .ok () => pure leftAsItWas

def requireNewline (line : Bytes) : Io Unit :=
  if line.getLast? = some 0x0a then pure () else Prog.throw .value

/--
The line, as a whole, or what was there, as far as it can be brought back.
-/
def appendWhole (path : Path) (line : Bytes) (sync : Bool) (size : Nat) : Io Unit :=
  (do writeFd path line; if sync then quiet else pure ()).tryCatch fun e => do
    let left ← truncateBack path size
    Prog.throw (.notWritten (txt "ledger " ++ path ++ txt ": " ++ e.reason ++
      txt "; nothing was recorded, " ++ left))

def appendAtEnd (path : Path) (line : Bytes) (sync : Bool) : Io Unit := do
  let size ← seekEnd path
  appendWhole path line sync size

/--
`append_line` to a file that the caller has open.
-/
def appendOpened (path : Path) (line : Bytes) (sync : Bool) : Io Unit := do
  requireNewline line
  quiet
  appendAtEnd path line sync

/--
`append_line` to a path.
-/
def appendLine (path : Path) (line : Bytes) (mode : Nat) (sync : Bool) : Io Unit := do
  requireNewline line
  openAppend path mode
  (appendAtEnd path line sync).tryFinally quiet

/-!
### What each part does
-/

/--
The files are these ones. What names stand for has not changed.
-/
structure Has (os : Os) (files : Path → Option File) (t : Os) : Prop where
  files_eq : t.files = files
  isDir_eq : t.isDir = os.isDir
  realpath_eq : t.realpath = os.realpath

@[simp]
theorem File.grown_grown (f : File) (xs ys : Bytes)
    : (f.grown xs).grown ys = f.grown (xs ++ ys) := by
  simp [File.grown]

@[simp]
theorem File.grown_nil (f : File) : f.grown [] = f := by
  simp [File.grown]

section

variable {os : Os} {base : Path → Option File}

theorem triple_syscall {effect : Os → Except Err α × Os} {pre during : Os → Prop}
    {post : Except Err α → Os → Prop}
    (hfails : ∀ t strerror, pre t → during t.next ∧ post (.error (.os strerror)) t.next)
    (heffect : ∀ t, pre t → during (effect t.next).2 ∧ post (effect t.next).1 (effect t.next).2)
    : Triple pre (syscall effect) during post := by
  refine Triple.call fun t ht => ?_
  split
  . exact hfails t _ ht
  . exact heffect t ht

theorem Has.next {files : Path → Option File} {t : Os} (h : Has os files t) : Has os files t.next :=
  ⟨h.files_eq, h.isDir_eq, h.realpath_eq⟩

theorem Has.put {files : Path → Option File} {t : Os} (h : Has os files t) (path : Path)
    (file : Option File) : Has os (Function.update files path file) (t.put path file) :=
  ⟨by rw [Os.put, h.files_eq], h.isDir_eq, h.realpath_eq⟩

/--
The loop adds the bytes at the end of the file, or a part of them.
-/
theorem triple_writeFd (fd : Path) (f : File) (data : Bytes)
    : Triple (Has os (Function.update base fd (some f))) (writeFd fd data)
        (fun t => ∃ n, Has os (Function.update base fd (some (f.grown (data.take n)))) t)
        (fun
          | .ok (), t => Has os (Function.update base fd (some (f.grown data))) t
          | .error e, t => (∃ reason, e = .os reason) ∧
              ∃ n, Has os (Function.update base fd (some (f.grown (data.take n)))) t) := by
  induction hlen : data.length using Nat.strong_induction_on generalizing data f with
  | _ len ih =>
    rw [writeFd]
    split
    . next hdata =>
      refine Triple.pure fun t ht => ?_
      rwa [hdata, File.grown_nil]
    . next hdata =>
      have hextend : ∀ (k : Nat) (t : Os), Has os (Function.update base fd (some f)) t →
          Has os (Function.update base fd (some (f.grown (data.take k))))
            (t.next.extend fd (data.take k)) := by
        intro k t ht
        have hfile : t.next.files fd = some f := by
          rw [ht.next.files_eq, Function.update_self]
        have hput := ht.next.put fd (some (f.grown (data.take k)))
        rw [Function.update_idem] at hput
        rwa [Os.extend, hfile]
      -- one call writes the first k bytes, the rest is left to the induction hypothesis
      refine Triple.bind (fun k t =>
        Has os (Function.update base fd (some (f.grown (data.take k)))) t) ?_ fun k => ?_
      . refine Triple.call fun t ht => ?_
        dsimp only
        split
        . refine ⟨⟨0, by simpa using ht.next⟩, ⟨_, rfl⟩, 0, by simpa using ht.next⟩
        . next n hreply =>
          have h := hextend n t ht
          have hmin : Has os
              (Function.update base fd (some (f.grown (data.take (min n data.length)))))
              (t.next.extend fd (data.take n)) := by
            rwa [← List.take_eq_take_min]
          exact ⟨⟨n, h⟩, hmin⟩
        . have h := hextend data.length t ht
          rw [List.take_length] at h
          have hwhole : Has os (Function.update base fd (some (f.grown (data.take data.length))))
              (t.next.extend fd data) := by
            rwa [List.take_length]
          exact ⟨⟨data.length, hwhole⟩, hwhole⟩
      . split
        . exact Triple.throw fun t ht => ⟨⟨_, rfl⟩, k, ht⟩
        . next hk =>
          have hshorter : (data.drop k).length < len := by
            have hpos := List.length_pos_iff.mpr hdata
            rw [List.length_drop]
            omega
          have hrest := ih _ hshorter (f.grown (data.take k)) (data.drop k) rfl
          have hpart : ∀ n, (f.grown (data.take k)).grown ((data.drop k).take n) =
              f.grown (data.take (k + n)) := by
            intro n
            rw [File.grown_grown, List.take_add]
          have hwhole : (f.grown (data.take k)).grown (data.drop k) = f.grown data := by
            rw [File.grown_grown, List.take_append_drop]
          refine hrest.weaken (fun t ht => ht) ?_ ?_
          . rintro t ⟨n, ht⟩
            exact ⟨k + n, by rwa [← hpart]⟩
          . intro r t ht
            cases r with
            | ok u =>
              rw [← hwhole]
              exact ht
            | error e =>
              rcases ht with ⟨he, n, ht⟩
              exact ⟨he, k + n, by rwa [← hpart]⟩

/--
Nothing has changed, but that there may be a new temporary file next to the path.
-/
def Spare (base : Path → Option File) (path : Path) (files : Path → Option File) : Prop :=
  files = base ∨ ∃ token f, base (tmpName path token) = none ∧
    files = Function.update base (tmpName path token) (some f)

def HasSpare (os : Os) (base : Path → Option File) (path : Path) (t : Os) : Prop :=
  ∃ files, Spare base path files ∧ Has os files t

theorem HasSpare.of_base {path : Path} {t : Os} (h : Has os base t) : HasSpare os base path t :=
  ⟨base, Or.inl rfl, h⟩

theorem HasSpare.of_tmp {path : Path} {token : Str} {f : File} {t : Os}
    (hnew : base (tmpName path token) = none)
    (h : Has os (Function.update base (tmpName path token) (some f)) t) : HasSpare os base path t :=
  ⟨_, Or.inr ⟨token, f, hnew, rfl⟩, h⟩

theorem triple_unlinkQuietly {path : Path} {token : Str} {f : File}
    (hnew : base (tmpName path token) = none)
    : Triple (Has os (Function.update base (tmpName path token) (some f)))
        (unlinkQuietly (tmpName path token)) (HasSpare os base path)
        (fun r t => r = .ok () ∧ HasSpare os base path t) := by
  have hgone : ∀ t : Os, Has os (Function.update base (tmpName path token) (some f)) t →
      Has os base (t.put (tmpName path token) none) := by
    intro t ht
    have hput := ht.put (tmpName path token) none
    have hself := Function.update_eq_self (tmpName path token) base
    rw [hnew] at hself
    rwa [Function.update_idem, hself] at hput
  refine Triple.tryCatch (fun _ => HasSpare os base path) ?_ fun e => ?_
  . refine triple_syscall ?_ ?_
    . exact fun t _ ht => ⟨.of_tmp hnew ht.next, .of_tmp hnew ht.next⟩
    . exact fun t ht => ⟨.of_base (hgone _ ht.next), rfl, .of_base (hgone _ ht.next)⟩
  . exact Triple.pure fun t ht => ⟨rfl, ht⟩

theorem triple_quiet {pre : Os → Prop} (h : ∀ t : Os, pre t → pre t.next)
    : Triple pre quiet pre (fun r t => (∀ e, r = .error e → ∃ reason, e = .os reason) ∧ pre t) := by
  refine triple_syscall ?_ ?_
  . intro t strerror ht
    refine ⟨h t ht, ?_, h t ht⟩
    intro e he
    exact ⟨strerror, (Except.error.inj he).symm⟩
  . exact fun t ht => ⟨h t ht, by simp, h t ht⟩

/--
What has been written of the temporary file.
-/
def HasTmp (os : Os) (base : Path → Option File) (tmp : Path) (t : Os) : Prop :=
  ∃ f, Has os (Function.update base tmp (some f)) t

theorem HasTmp.spare {path : Path} {token : Str} (hnew : base (tmpName path token) = none) {t : Os}
    (h : HasTmp os base (tmpName path token) t) : HasSpare os base path t := by
  rcases h with ⟨f, h⟩
  exact .of_tmp hnew h

theorem triple_fill {tmp : Path} (raw : Bytes) (m : Nat) (exactMode : Option Nat)
    : Triple (Has os (Function.update base tmp (some ⟨true, [], m⟩))) (fill tmp raw exactMode)
        (HasTmp os base tmp)
        (fun
          | .ok (), t => ∃ m, Has os (Function.update base tmp (some ⟨true, raw, m⟩)) t
          | .error _, t => HasTmp os base tmp t) := by
  refine Triple.bind (fun _ t => ∃ m,
    Has os (Function.update base tmp (some ⟨true, [], m⟩)) t) ?_ fun _ => ?_
  . cases exactMode with
    | none => exact Triple.pure fun t ht => ⟨m, ht⟩
    | some m' =>
      rw [chmodTo, fchmod]
      refine triple_syscall ?_ ?_
      . exact fun t _ ht => ⟨⟨_, ht.next⟩, ⟨_, ht.next⟩⟩
      . intro t ht
        have hput := ht.next.put tmp (some ⟨true, [], m'⟩)
        rw [Function.update_idem] at hput
        have hfile : (t.next.files tmp).map (fun f => { f with mode := m' }) =
            some ⟨true, [], m'⟩ := by
          rw [ht.next.files_eq, Function.update_self]
          rfl
        have hdone : Has os (Function.update base tmp (some ⟨true, [], m'⟩)) (t.next.put tmp
            ((t.next.files tmp).map fun f => { f with mode := m' })) := by
          rwa [hfile]
        exact ⟨⟨_, hdone⟩, m', hdone⟩
  refine Triple.of_exists fun m => ?_
  refine Triple.bind (fun _ => Has os (Function.update base tmp (some ⟨true, raw, m⟩)))
    ?_ fun _ => ?_
  . refine (triple_writeFd tmp ⟨true, [], m⟩ raw).weaken (fun _ ht => ht) ?_ ?_
    . rintro t ⟨n, ht⟩
      exact ⟨_, ht⟩
    . intro r t ht
      cases r with
      | ok u => exact ht
      | error e =>
        rcases ht with ⟨-, n, ht⟩
        exact ⟨_, ht⟩
  . refine (triple_quiet fun _ ht => Has.next ht).weaken (fun _ ht => ht) (fun _ ht => ⟨_, ht⟩) ?_
    rintro r t ⟨-, ht⟩
    cases r with
    | ok u => exact ⟨m, ht⟩
    | error e => exact ⟨_, ht⟩

/--
The temporary file is whole if no exception is raised.
-/
theorem triple_writeTmp (path : Path) (raw : Bytes) (mode : Nat) (exactMode : Option Nat)
    : Triple (Has os base) (writeTmp path raw mode exactMode) (HasSpare os base path)
        (fun
          | .ok tmp, t => ∃ token m, tmp = tmpName path token ∧ base tmp = none ∧
              Has os (Function.update base tmp (some ⟨true, raw, m⟩)) t
          | .error e, t => (∃ text, e = .notWritten text) ∧ HasSpare os base path t) := by
  refine Triple.bind (fun _ => Has os base) ?_ fun token => ?_
  . refine Triple.call fun t ht => ?_
    have htoken : Has os base { t with tokens := fun k => t.tokens (k + 1) } :=
      ⟨ht.files_eq, ht.isDir_eq, ht.realpath_eq⟩
    exact ⟨.of_base htoken, htoken⟩
  -- `O_EXCL`: nothing was at the name
  refine Triple.bind (fun _ t => base (tmpName path token) = none ∧
    ∃ m, Has os (Function.update base (tmpName path token) (some ⟨true, [], m⟩)) t) ?_ fun _ => ?_
  . refine Triple.tryCatch (fun _ => Has os base) ?_ fun e => ?_
    . refine triple_syscall ?_ ?_
      . exact fun t _ ht => ⟨.of_base ht.next, ht.next⟩
      . intro t ht
        split
        . exact ⟨.of_base ht.next, ht.next⟩
        . next hfree =>
          have hnew : base (tmpName path token) = none := by
            rw [ht.next.files_eq, Bool.or_eq_true, not_or, Option.isSome_iff_ne_none,
              not_not] at hfree
            exact hfree.1
          exact ⟨.of_tmp hnew (ht.next.put _ _), hnew, _, ht.next.put _ _⟩
    . exact Triple.throw fun t ht => ⟨⟨_, rfl⟩, .of_base ht⟩
  refine Triple.of_and fun hnew => Triple.of_exists fun m => ?_
  -- the file is filled and closed, and it is removed again if any of this fails
  refine Triple.bind (fun _ t => ∃ m,
    Has os (Function.update base (tmpName path token) (some ⟨true, raw, m⟩)) t) ?_ fun _ => ?_
  . refine Triple.tryCatch (fun _ => HasTmp os base (tmpName path token)) ?_ fun e => ?_
    . have hspare := fun t (ht : HasTmp os base (tmpName path token) t) => ht.spare hnew
      refine Triple.tryFinally _ ((triple_fill raw m exactMode).weaken (fun _ ht => ht) hspare
        fun _ _ ht => ht) fun r => ?_
      cases r with
      | ok u =>
        refine (triple_quiet fun t ht => ?_).weaken (fun _ ht => ht) ?_ ?_
        . rcases ht with ⟨m, ht⟩
          exact ⟨m, ht.next⟩
        . rintro t ⟨m, ht⟩
          exact .of_tmp hnew ht
        . rintro r t ⟨-, m, ht⟩
          cases r with
          | ok u => exact ⟨m, ht⟩
          | error e => exact ⟨_, ht⟩
      | error e =>
        refine (triple_quiet fun t ht => ?_).weaken (fun _ ht => ht) hspare ?_
        . rcases ht with ⟨f, ht⟩
          exact ⟨f, ht.next⟩
        . rintro r t ⟨-, ht⟩
          cases r with
          | ok u => exact ht
          | error e => exact ht
    . refine Triple.of_exists fun f => ?_
      refine Triple.bind (fun _ => HasSpare os base path) ?_ fun _ => ?_
      . refine (triple_unlinkQuietly hnew).weaken (fun _ ht => ht) (fun _ ht => ht) ?_
        rintro _ t ⟨rfl, ht⟩
        exact ht
      . exact Triple.throw fun t ht => ⟨⟨_, rfl⟩, ht⟩
  . refine Triple.pure ?_
    rintro t ⟨m, ht⟩
    exact ⟨token, m, rfl, hnew, ht⟩

theorem tmpName_ne (path : Path) (token : Str) : tmpName path token ≠ path := by
  intro h
  have hlength := congrArg List.length h
  simp only [tmpName, List.length_append] at hlength
  have hdot : (txt ".").length = 1 := rfl
  omega

theorem update_replaced {path : Path} {token : Str} (hnew : base (tmpName path token) = none)
    (file : Option File)
    : Function.update (Function.update (Function.update base (tmpName path token) file) path file)
        (tmpName path token) none = Function.update base path file := by
  have hne := tmpName_ne path token
  have hself := Function.update_eq_self (tmpName path token) (Function.update base path file)
  rw [Function.update_of_ne hne, hnew] at hself
  rw [Function.update_comm hne, Function.update_idem, hself]

/--
The rename is the only moment at which the file changes.
-/
theorem triple_commitTmp {path : Path} {token : Str} {f : File}
    (hnew : base (tmpName path token) = none)
    : Triple (Has os (Function.update base (tmpName path token) (some f)))
        (commitTmp (tmpName path token) path)
        (fun t => HasSpare os base path t ∨ Has os (Function.update base path (some f)) t)
        (fun
          | .ok (), t => Has os (Function.update base path (some f)) t
          | .error e, t => (∃ text, e = .notWritten text) ∧ HasSpare os base path t) := by
  refine Triple.tryCatch (fun _ =>
    Has os (Function.update base (tmpName path token) (some f))) ?_ fun e => ?_
  . refine triple_syscall ?_ ?_
    . exact fun t _ ht => ⟨Or.inl (.of_tmp hnew ht.next), ht.next⟩
    . intro t ht
      split
      . exact ⟨Or.inl (.of_tmp hnew ht.next), ht.next⟩
      . have hfile : t.next.files (tmpName path token) = some f := by
          rw [ht.next.files_eq, Function.update_self]
        have hput := (ht.next.put path (some f)).put (tmpName path token) none
        rw [update_replaced hnew] at hput
        rw [hfile]
        exact ⟨Or.inr hput, hput⟩
  . refine Triple.bind (fun _ => HasSpare os base path) ?_ fun _ => ?_
    . refine (triple_unlinkQuietly hnew).weaken (fun _ ht => ht) (fun _ ht => Or.inl ht) ?_
      rintro _ t ⟨rfl, ht⟩
      exact ht
    . exact Triple.throw fun t ht => ⟨⟨_, rfl⟩, ht⟩

theorem triple_replaceTarget (path : Path)
    : Triple (Has os base) (replaceTarget path) (Has os base)
        (fun
          | .ok (real, st), t => real = os.realpath path ∧ (∀ f ∈ st, base real = some f) ∧
              Has os base t
          | .error e, t => (∃ text, e = .notWritten text) ∧ Has os base t) := by
  refine Triple.andThen (fun
    | .ok (real, st), t => real = os.realpath path ∧ base real = st ∧ Has os base t
    | .error _, t => Has os base t) ?_ fun r => ?_
  . refine triple_syscall ?_ ?_
    . exact fun t _ ht => ⟨ht.next, ht.next⟩
    . intro t ht
      refine ⟨ht.next, congrFun ht.realpath_eq path, ?_, ht.next⟩
      rw [ht.next.files_eq]
  . match r with
    | .error e =>
      refine Triple.call fun t ht => ⟨ht, congrFun ht.realpath_eq path, by simp, ht⟩
    | .ok (real, none) =>
      exact Triple.pure fun t ⟨hreal, _, ht⟩ => ⟨hreal, by simp, ht⟩
    | .ok (real, some f) =>
      refine Triple.of_and fun hreal => Triple.of_and fun hbase => ?_
      refine Triple.bind (fun _ => Has os base) ?_ fun _ => ?_
      . rw [checkWritable]
        split
        . refine Triple.tryCatch (fun _ => Has os base) ?_ fun e => ?_
          . refine Triple.bind (fun _ => Has os base) ?_ fun _ => ?_
            . refine triple_syscall (fun t _ ht => ⟨ht.next, ht.next⟩) fun t ht => ?_
              split <;> exact ⟨ht.next, ht.next⟩
            . refine (triple_quiet fun _ ht => Has.next ht).weaken (fun _ ht => ht)
                (fun _ ht => ht) ?_
              rintro r t ⟨-, ht⟩
              cases r <;> exact ht
          . exact Triple.throw fun t ht => ⟨⟨_, rfl⟩, ht⟩
        . exact Triple.pure fun t ht => ht
      . refine Triple.pure fun t ht => ⟨hreal, ?_, ht⟩
        intro g hg
        rwa [← Option.some.inj hg]

/--
The whole of the data is at the path, and everything else is as it was.
-/
def Written (os : Os) (base : Path → Option File) (path : Path) (raw : Bytes) (t : Os) : Prop :=
  ∃ m, Has os (Function.update base path (some ⟨true, raw, m⟩)) t

/--
What is at the path is no regular file, and has got some of the data.
-/
def Fed (os : Os) (base : Path → Option File) (path : Path) (raw : Bytes) (t : Os) : Prop :=
  ∃ f n, base path = some f ∧ f.regular = false ∧
    Has os (Function.update base path (some (f.grown (raw.take n)))) t

theorem triple_writeDevice {path : Path} {f : File} (hbase : base path = some f)
    (hdevice : f.regular = false) (raw : Bytes)
    : Triple (Has os base) (writeDevice path raw) (Fed os base path raw)
        (fun
          | .ok (), t => Has os (Function.update base path (some (f.grown raw))) t
          | .error e, t => (∃ text, e = .notWritten text) ∧ Fed os base path raw t) := by
  have hself : Function.update base path (some f) = base := by
    rw [← hbase, Function.update_eq_self]
  have hstart : ∀ t, Has os base t → Fed os base path raw t := by
    intro t ht
    refine ⟨f, 0, hbase, hdevice, ?_⟩
    rwa [List.take_zero, File.grown_nil, hself]
  have hpart : ∀ t n, Has os (Function.update base path (some (f.grown (raw.take n)))) t →
      Fed os base path raw t := fun t n ht => ⟨f, n, hbase, hdevice, ht⟩
  have hwhole : ∀ t, Has os (Function.update base path (some (f.grown raw))) t →
      Fed os base path raw t := by
    intro t ht
    refine hpart t raw.length ?_
    rwa [List.take_length]
  refine Triple.tryCatch (fun _ => Fed os base path raw) ?_ fun e => ?_
  . refine Triple.bind (fun _ => Has os base) ?_ fun _ => ?_
    . refine triple_syscall (fun t _ ht => ⟨hstart _ ht.next, hstart _ ht.next⟩) fun t ht => ?_
      split
      . exact ⟨hstart _ ht.next, ht.next⟩
      . exact ⟨hstart _ ht.next, hstart _ ht.next⟩
    . have hwrite : Triple (Has os (Function.update base path (some f))) _ _ _ :=
        triple_writeFd path f raw
      rw [hself] at hwrite
      refine Triple.tryFinally (fun r t => match r with
        | .ok () => Has os (Function.update base path (some (f.grown raw))) t
        | .error _ => Fed os base path raw t) (hwrite.weaken (fun _ ht => ht) ?_ ?_) fun r => ?_
      . rintro t ⟨n, ht⟩
        exact hpart t n ht
      . intro r t ht
        cases r with
        | ok u => exact ht
        | error e =>
          rcases ht with ⟨-, n, ht⟩
          exact hpart t n ht
      . cases r with
        | ok u =>
          refine (triple_quiet fun _ ht => Has.next ht).weaken (fun _ ht => ht) hwhole ?_
          rintro r t ⟨-, ht⟩
          cases r with
          | ok u => exact ht
          | error e => exact hwhole t ht
        | error e =>
          have hnext : ∀ t : Os, Fed os base path raw t → Fed os base path raw t.next := by
            rintro t ⟨g, n, hg, hreg, ht⟩
            exact ⟨g, n, hg, hreg, ht.next⟩
          refine (triple_quiet hnext).weaken (fun _ ht => ht) (fun _ ht => ht) ?_
          rintro r t ⟨-, ht⟩
          cases r <;> exact ht
  . exact Triple.throw fun t ht => ⟨⟨_, rfl⟩, ht⟩

theorem triple_writeOutput (path : Path) (raw : Bytes) (mode : Nat)
    : Triple (Has os base) (writeOutput path raw mode)
        (fun t => HasSpare os base (os.realpath path) t ∨
          Written os base (os.realpath path) raw t ∨ Fed os base (os.realpath path) raw t)
        (fun
          | .ok (), t => Written os base (os.realpath path) raw t ∨
              ∃ f, base (os.realpath path) = some f ∧ f.regular = false ∧
                Has os (Function.update base (os.realpath path) (some (f.grown raw))) t
          | .error e, t => (∃ text, e = .notWritten text) ∧
              (HasSpare os base (os.realpath path) t ∨ Fed os base (os.realpath path) raw t)) := by
  have hspare : ∀ t, Has os base t → HasSpare os base (os.realpath path) t := fun _ ht =>
    .of_base ht
  refine Triple.bind (fun _ => Has os base) ?_ fun _ => ?_
  . refine Triple.call fun t ht => ?_
    split
    . exact ⟨Or.inl (hspare t ht), ⟨_, rfl⟩, Or.inl (hspare t ht)⟩
    . exact ⟨Or.inl (hspare t ht), ht⟩
  refine Triple.bind (fun target t => target.1 = os.realpath path ∧
    (∀ f ∈ target.2, base target.1 = some f) ∧ Has os base t) ?_ fun target => ?_
  . refine (triple_replaceTarget path).weaken (fun _ ht => ht)
      (fun t ht => Or.inl (hspare t ht)) ?_
    intro r t ht
    cases r with
    | ok target => exact ht
    | error e => exact ⟨ht.1, Or.inl (hspare t ht.2)⟩
  rcases target with ⟨real, st⟩
  refine Triple.of_and fun hreal => Triple.of_and fun hst => ?_
  rw [← hreal]
  dsimp only at hst ⊢
  split
  -- a device is written where it is
  . next hdevice =>
    cases st with
    | none => simp at hdevice
    | some f =>
      have hbase := hst f rfl
      have hregular : f.regular = false := by simpa using hdevice
      refine (triple_writeDevice hbase hregular raw).weaken (fun _ ht => ht)
        (fun t ht => Or.inr (Or.inr ht)) ?_
      intro r t ht
      cases r with
      | ok u => exact Or.inr ⟨f, hbase, hregular, ht⟩
      | error e => exact ⟨ht.1, Or.inr ht.2⟩
  -- a regular file is replaced by a whole one
  . refine Triple.bind (fun tmp t => ∃ token, ∃ m, tmp = tmpName real token ∧
      base tmp = none ∧ Has os (Function.update base tmp (some ⟨true, raw, m⟩)) t) ?_ fun tmp => ?_
    . refine (triple_writeTmp real raw mode (keptMode mode st)).weaken (fun _ ht => ht)
        (fun t ht => Or.inl ht) ?_
      intro r t ht
      cases r with
      | ok tmp => exact ht
      | error e => exact ⟨ht.1, Or.inl ht.2⟩
    . refine Triple.of_exists fun token => Triple.of_exists fun m => ?_
      refine Triple.of_and fun htmp => Triple.of_and fun hnew => ?_
      rw [htmp] at hnew ⊢
      refine (triple_commitTmp hnew).weaken (fun _ ht => ht) ?_ ?_
      . rintro t (ht | ht)
        . exact Or.inl ht
        . exact Or.inr (Or.inl ⟨m, ht⟩)
      . intro r t ht
        cases r with
        | ok u => exact Or.inl ⟨m, ht⟩
        | error e => exact ⟨ht.1, Or.inl ht.2⟩

theorem HasSpare.files_eq {path : Path} {t : Os} (h : HasSpare os base path t)
    : t.files path = base path ∧
        ∃ token, ∀ p ≠ path, t.files p = base p ∨ base p = none ∧ p = tmpName path token := by
  rcases h with ⟨files, rfl | ⟨token, f, hnew, rfl⟩, ht⟩
  . rw [ht.files_eq]
    exact ⟨rfl, [], fun p _ => Or.inl rfl⟩
  . rw [ht.files_eq]
    refine ⟨Function.update_of_ne (tmpName_ne path token).symm _ _, token, fun p _ => ?_⟩
    by_cases htmp : p = tmpName path token
    . exact Or.inr ⟨htmp ▸ hnew, htmp⟩
    . exact Or.inl (Function.update_of_ne htmp _ _)

/--
The whole of the data is at a path where nothing was.
-/
def Made (os : Os) (base : Path → Option File) (path : Path) (raw : Bytes) (t : Os) : Prop :=
  base path = none ∧ ∃ m, HasSpare os (Function.update base path (some ⟨true, raw, m⟩)) path t

/--
The link is the only moment at which there is something new at the path.
-/
theorem triple_linkTmp {path : Path} {token : Str} {raw : Bytes} {m : Nat}
    (hnew : base (tmpName path token) = none)
    : Triple (Has os (Function.update base (tmpName path token) (some ⟨true, raw, m⟩)))
        ((link (tmpName path token) path).tryCatch fun e =>
          Prog.throw (if e = .fileExists then e else notWritten path e))
        (fun t => HasSpare os base path t ∨ Made os base path raw t)
        (fun
          | .ok (), t => base path = none ∧ Has os (Function.update
              (Function.update base path (some ⟨true, raw, m⟩)) (tmpName path token)
              (some ⟨true, raw, m⟩)) t
          | .error e, t => (e = .fileExists ∨ ∃ text, e = .notWritten text) ∧
              Has os (Function.update base (tmpName path token) (some ⟨true, raw, m⟩)) t) := by
  have hne := tmpName_ne path token
  refine Triple.tryCatch (fun _ =>
    Has os (Function.update base (tmpName path token) (some ⟨true, raw, m⟩))) ?_ fun e => ?_
  . refine triple_syscall ?_ ?_
    . exact fun t _ ht => ⟨Or.inl (.of_tmp hnew ht.next), ht.next⟩
    . intro t ht
      split
      . exact ⟨Or.inl (.of_tmp hnew ht.next), ht.next⟩
      . next hfree =>
        have hnone : base path = none := by
          rw [ht.next.files_eq, Function.update_of_ne hne.symm, Bool.or_eq_true, not_or,
            Option.isSome_iff_ne_none, not_not] at hfree
          exact hfree.1
        have hfile : t.next.files (tmpName path token) = some ⟨true, raw, m⟩ := by
          rw [ht.next.files_eq, Function.update_self]
        have hput := ht.next.put path (some ⟨true, raw, m⟩)
        rw [Function.update_comm hne] at hput
        rw [hfile]
        refine ⟨Or.inr ⟨hnone, m, .of_tmp ?_ hput⟩, hnone, hput⟩
        rwa [Function.update_of_ne hne]
  . refine Triple.throw fun t ht => ⟨?_, ht⟩
    split
    . next he => exact Or.inl he
    . exact Or.inr ⟨_, rfl⟩

theorem triple_writeNew (path : Path) (raw : Bytes) (mode : Nat)
    : Triple (Has os base) (writeNew path raw mode)
        (fun t => HasSpare os base path t ∨ Made os base path raw t)
        (fun
          | .ok (), t => Made os base path raw t
          | .error e, t => (e = .fileExists ∨ ∃ text, e = .notWritten text) ∧
              HasSpare os base path t) := by
  refine Triple.bind (fun tmp t => ∃ token, ∃ m, tmp = tmpName path token ∧ base tmp = none ∧
    Has os (Function.update base tmp (some ⟨true, raw, m⟩)) t) ?_ fun tmp => ?_
  . refine (triple_writeTmp path raw mode none).weaken (fun _ ht => ht) (fun t ht => Or.inl ht) ?_
    intro r t ht
    cases r with
    | ok tmp => exact ht
    | error e => exact ⟨Or.inr ht.1, ht.2⟩
  refine Triple.of_exists fun token => Triple.of_exists fun m => ?_
  refine Triple.of_and fun htmp => Triple.of_and fun hnew => ?_
  rw [htmp] at hnew ⊢
  refine Triple.tryFinally _ (triple_linkTmp hnew) fun r => ?_
  cases r with
  | ok u =>
    refine Triple.of_and fun hnone => ?_
    have hnew' : Function.update base path (some ⟨true, raw, m⟩) (tmpName path token) = none := by
      rwa [Function.update_of_ne (tmpName_ne path token)]
    refine (triple_unlinkQuietly hnew').weaken (fun _ ht => ht)
      (fun t ht => Or.inr ⟨hnone, m, ht⟩) ?_
    rintro _ t ⟨rfl, ht⟩
    exact ⟨hnone, m, ht⟩
  | error e =>
    refine Triple.of_and fun he => ?_
    refine (triple_unlinkQuietly hnew).weaken (fun _ ht => ht) (fun t ht => Or.inl ht) ?_
    rintro _ t ⟨rfl, ht⟩
    exact ⟨he, ht⟩

/--
A key or an object of a WORM store is absent or whole at its path at every moment, also where the
program is cut off, and what is there already is never touched.
-/
theorem writeNew_atomic (path : Path) (raw : Bytes) (mode : Nat) (os : Os)
    : (∀ t ∈ (writeNew path raw mode os).passed,
          (t.files path = os.files path ∨
            os.files path = none ∧ ∃ m, t.files path = some ⟨true, raw, m⟩) ∧
          ∃ token, ∀ p ≠ path,
            t.files p = os.files p ∨ os.files p = none ∧ p = tmpName path token) ∧
        ((writeNew path raw mode os).result = .ok () → os.files path = none ∧
          ∃ m, (writeNew path raw mode os).final.files path = some ⟨true, raw, m⟩) ∧
        ∀ e, (writeNew path raw mode os).result = .error e →
          (e = .fileExists ∨ ∃ text, e = .notWritten text) ∧
            (writeNew path raw mode os).final.files path = os.files path := by
  have hstart : Has os os.files os := ⟨rfl, rfl, rfl⟩
  have hrun := triple_writeNew path raw mode os hstart
  have hmade : ∀ t, Made os os.files path raw t → os.files path = none ∧
      (∃ m, t.files path = some ⟨true, raw, m⟩) ∧ ∃ token, ∀ p ≠ path,
        t.files p = os.files p ∨ os.files p = none ∧ p = tmpName path token := by
    rintro t ⟨hnone, m, h⟩
    rcases h.files_eq with ⟨hat, token, hother⟩
    rw [Function.update_self] at hat
    refine ⟨hnone, ⟨m, hat⟩, token, fun p hp => ?_⟩
    have h := hother p hp
    rwa [Function.update_of_ne hp] at h
  refine ⟨fun t ht => ?_, fun hok => ?_, fun e herror => ?_⟩
  . rcases hrun.1 t ht with h | h
    . exact ⟨Or.inl h.files_eq.1, h.files_eq.2⟩
    . rcases hmade t h with ⟨hnone, hwhole, hother⟩
      exact ⟨Or.inr ⟨hnone, hwhole⟩, hother⟩
  . have hend := hrun.2
    rw [hok] at hend
    rcases hmade _ hend with ⟨hnone, hwhole, _⟩
    exact ⟨hnone, hwhole⟩
  . have hend := hrun.2
    rw [herror] at hend
    exact ⟨hend.1, hend.2.files_eq.1⟩

end

end Writes
end Verifier
end CryptoValid
