import CryptoValid.Ingest.Resume

/-!
This module contains when recovery loses nothing durable. A line that is no JSON stops the scan like a
torn write does, wherever it is.
-/

namespace CryptoValid
namespace Ingest

open Python (Interp)

/--
What the next entry has to carry.
-/
structure Link where
  idx : Nat
  prev : Str
  deriving DecidableEq

def Link.start : Link := ⟨0, genesisPrev⟩

def Tail.link (t : Tail) : Link := ⟨t.idx, t.prev⟩

section

variable (interp : Interp)

/-!
### What the recovery promises
-/

/--
The line is the next entry of the chain.
-/
def IsNext (l : Link) (line : Bytes) (l' : Link) : Prop :=
  ∃ e, Python.loadsBytes interp line = .ok (.obj e) ∧
    Entry.get e (txt "idx") = .int l.idx ∧ Entry.get e (txt "prev_hash") = .str l.prev ∧
    Entry.get e (txt "self_hash") = .str l'.prev ∧
    l'.prev = Hex.ofBytes (sha256 (payloadOf e)) ∧ l'.idx = l.idx + 1

/--
Every line that is terminated and not blank is the next entry.
-/
def AllNext (l : Link) : List Bytes → Prop
  | [] => True
  | line :: rest =>
    if !isTerminated line || isBlank line then AllNext l rest
    else ∃ l', IsNext interp l line l' ∧ AllNext l' rest

/--
At most the last line is gone, and only if it was torn.
-/
def OnlyTornRemoved (content : Bytes) (r : Resumed) : Prop :=
  r.content = content ∨
    ∃ torn, torn ≠ [] ∧ newline ∉ torn ∧ content = r.content ++ torn ∧
      (r.content = [] ∨ r.content.getLast? = some newline)

/--
Recovery either refuses, or removes nothing but a torn line and has seen nothing wrong.
-/
def RecoverySafe (content : Bytes) : Prop :=
  match resume interp content with
  | .error _ => True
  | .ok r => OnlyTornRemoved content r ∧ AllNext interp .start (Lines.split newline content)

/-!
### When it holds
-/

/--
The test of the loop, where `False` and `0.0` are as good as `0`.
-/
def takes? (l : Link) (line : Bytes) : Option Link :=
  match Python.loadsBytes interp line with
  | .ok (.obj e) =>
    match recompute interp e with
    | some h =>
      if Python.eqInt (Entry.get e (txt "idx")) l.idx ∧
          Entry.get e (txt "prev_hash") = .str l.prev ∧
          Entry.get e (txt "self_hash") = .str h then
        some ⟨l.idx + 1, h⟩
      else
        none
    | none => none
  | _ => none

/--
The first line that is terminated and neither blank nor taken as the next entry.
-/
def stopLine (l : Link) : List Bytes → Option Bytes
  | [] => none
  | line :: rest =>
    if !isTerminated line || isBlank line then stopLine l rest
    else
      match takes? interp l line with
      | some l' => stopLine l' rest
      | none => some line

/--
The line's `idx` is an integer, and not just equal to one.
-/
def HasIntIdx (line : Bytes) : Prop :=
  ∀ e, Python.loadsBytes interp line = .ok (.obj e) → ∃ n, Entry.get e (txt "idx") = .int n

/--
The line that stops the scan is JSON, or there is none and no index is a boolean or a float.
-/
def Recoverable (content : Bytes) : Prop :=
  match stopLine interp .start (Lines.split newline content) with
  | some line => Python.loadsBytes interp line ≠ .error .jsonDecode
  | none => ∀ line ∈ Lines.split newline content,
      isTerminated line = true → isBlank line = false → HasIntIdx interp line

end

section

variable {interp : Interp}

theorem scanLine_of_not_terminated {t : Tail} {line : Bytes} (h : isTerminated line = false)
    : scanLine interp t line = .ok none := by
  simp [scanLine, h]

theorem scanLine_of_blank {t : Tail} {line : Bytes} (h : isTerminated line = true)
    (hblank : isBlank line = true) : scanLine interp t line = .ok (some (t.skip line)) := by
  simp [scanLine, h, hblank]

theorem scanLine_of_takes {t : Tail} {line : Bytes} {l : Link} (h : isTerminated line = true)
    (hblank : isBlank line = false) (htakes : takes? interp t.link line = some l)
    : scanLine interp t line = .ok (some (t.take line l.prev)) ∧
        (t.take line l.prev).link = l := by
  unfold takes? at htakes
  split at htakes
  . next e hload =>
    split at htakes
    . next digest hdigest =>
      split at htakes
      . next hok =>
        rw [← Option.some.inj htakes]
        refine ⟨?_, rfl⟩
        simp only [Tail.link] at hok
        simp [scanLine, h, hblank, hload, hdigest, hok]
      . simp at htakes
    . simp at htakes
  . simp at htakes

/--
A line that is not taken is a `break` if it is no JSON, and a refusal otherwise.
-/
theorem scanLine_of_not_takes {t : Tail} {line : Bytes} (h : isTerminated line = true)
    (hblank : isBlank line = false) (htakes : takes? interp t.link line = none)
    : if Python.loadsBytes interp line = .error .jsonDecode then scanLine interp t line = .ok none
      else ∃ e, scanLine interp t line = .error e := by
  unfold takes? at htakes
  split
  . next hbroken => simp [scanLine, h, hblank, hbroken]
  . next hbroken =>
    simp only [scanLine, h, hblank, Bool.not_true, Bool.false_eq_true, ↓reduceIte]
    split
    . next hload => exact absurd hload hbroken
    . exact ⟨_, rfl⟩
    . next e hload =>
      rw [hload] at htakes
      simp only at htakes
      split at htakes
      . next digest hdigest =>
        split at htakes
        . simp at htakes
        . next hnot =>
          refine ⟨.tampered t.idx, ?_⟩
          simp only [hdigest]
          rw [if_pos]
          simp only [Tail.link, not_and] at hnot
          simp only [Bool.or_eq_true, Bool.not_eq_eq_eq_not, Bool.not_true, decide_eq_true_eq]
          by_contra hcon
          simp only [not_or, Bool.not_eq_false, not_not] at hcon
          exact hnot hcon.1.1 hcon.1.2 hcon.2
      . next hdigest =>
        simp only [hdigest]
        exact ⟨_, rfl⟩
    . exact ⟨_, rfl⟩

theorem scan_cons_none {t : Tail} {line : Bytes} {rest : List Bytes}
    (h : scanLine interp t line = .ok none) : scan interp t (line :: rest) = .ok t := by
  rw [scan, h]
  rfl

theorem scan_cons_some {t t' : Tail} {line : Bytes} {rest : List Bytes}
    (h : scanLine interp t line = .ok (some t'))
    : scan interp t (line :: rest) = scan interp t' rest := by
  rw [scan, h]
  rfl

theorem scan_cons_error {t : Tail} {line : Bytes} {rest : List Bytes} {e : ResumeError}
    (h : scanLine interp t line = .error e) : scan interp t (line :: rest) = .error e := by
  rw [scan, h]
  rfl

/--
The scan over all lines: it is the stop line that decides.
-/
theorem scan_cases (t : Tail) (lines : List Bytes)
    (htorn : ∀ pre line post, lines = pre ++ line :: post → isTerminated line = false → post = [])
    : match stopLine interp t.link lines with
      | some line =>
        if Python.loadsBytes interp line = .error .jsonDecode then
          ∃ t', scan interp t lines = .ok t'
        else
          ∃ e, scan interp t lines = .error e
      | none => ∃ t', scan interp t lines = .ok t' ∧
          t'.goodEnd = t.goodEnd + (lines.filter isTerminated).flatten.length := by
  induction lines generalizing t with
  | nil => exact ⟨t, rfl, rfl⟩
  | cons line rest ih =>
    have htorn' : ∀ pre line post, rest = pre ++ line :: post → isTerminated line = false →
        post = [] := by
      intro pre line' post heq
      exact htorn (line :: pre) line' post (by rw [heq]; rfl)
    cases hterm : isTerminated line with
    | false =>
      have hnil := htorn [] line rest rfl hterm
      subst hnil
      have hstop : stopLine interp t.link [line] = none := by simp [stopLine, hterm]
      rw [hstop]
      exact ⟨t, scan_cons_none (scanLine_of_not_terminated hterm), by simp [hterm]⟩
    | true =>
      cases hblank : isBlank line with
      | true =>
        have hstop : stopLine interp t.link (line :: rest)
            = stopLine interp (t.skip line).link rest := by
          simp [stopLine, hblank, Tail.skip, Tail.link]
        have hscan : scan interp t (line :: rest) = scan interp (t.skip line) rest :=
          scan_cons_some (scanLine_of_blank hterm hblank)
        have hend : (t.skip line).goodEnd + (rest.filter isTerminated).flatten.length
            = t.goodEnd + ((line :: rest).filter isTerminated).flatten.length := by
          simp [hterm, Tail.skip, Nat.add_assoc]
        rw [hstop, hscan, ← hend]
        exact ih _ htorn'
      | false =>
        cases htakes : takes? interp t.link line with
        | some l =>
          rcases scanLine_of_takes hterm hblank htakes with ⟨hline, hlink⟩
          have hstop : stopLine interp t.link (line :: rest)
              = stopLine interp (t.take line l.prev).link rest := by
            simp [stopLine, hterm, hblank, htakes, hlink]
          have hscan : scan interp t (line :: rest) = scan interp (t.take line l.prev) rest :=
            scan_cons_some hline
          have hend : (t.take line l.prev).goodEnd + (rest.filter isTerminated).flatten.length
              = t.goodEnd + ((line :: rest).filter isTerminated).flatten.length := by
            simp [hterm, Tail.take, Nat.add_assoc]
          rw [hstop, hscan, ← hend]
          exact ih _ htorn'
        | none =>
          have hstop : stopLine interp t.link (line :: rest) = some line := by
            simp [stopLine, hterm, hblank, htakes]
          have hline := scanLine_of_not_takes hterm hblank htakes
          rw [hstop]
          simp only
          split
          . next hbroken =>
            rw [if_pos hbroken] at hline
            exact ⟨t, scan_cons_none hline⟩
          . next hbroken =>
            rw [if_neg hbroken] at hline
            rcases hline with ⟨e, he⟩
            exact ⟨e, scan_cons_error he⟩

/--
A line that is the next entry is taken, unless it is too deep for the encoder.
-/
theorem takes?_of_isNext {l l' : Link} {line : Bytes} (h : IsNext interp l line l')
    : takes? interp l line = some l' ∨ takes? interp l line = none := by
  rcases h with ⟨e, hload, hidx, hprev, hself, hhash, hsucc⟩
  cases hrec : recompute interp e with
  | none => exact Or.inr (by simp [takes?, hload, hrec])
  | some digest =>
    refine Or.inl ?_
    have hdigest : digest = l'.prev := by
      rcases Option.map_eq_some_iff.mp hrec with ⟨raw, hraw, hdigest⟩
      unfold canonical at hraw
      split at hraw
      . rw [hhash, ← hdigest, ← Option.some.inj hraw]
        rfl
      . simp at hraw
    subst hdigest
    simp [takes?, hload, hrec, hidx, hprev, hself, Python.eqInt, ← hsucc]

theorem isNext_of_takes? {l l' : Link} {line : Bytes} (h : takes? interp l line = some l')
    (hint : HasIntIdx interp line) : IsNext interp l line l' := by
  unfold takes? at h
  split at h
  . next e hload =>
    split at h
    . next digest hdigest =>
      split at h
      . next hok =>
        rw [← Option.some.inj h]
        rcases hint e hload with ⟨n, hn⟩
        have hidx : n = (l.idx : Int) := by simpa [hn, Python.eqInt] using hok.1
        rw [hidx] at hn
        refine ⟨e, hload, hn, hok.2.1, hok.2.2, ?_, rfl⟩
        rcases Option.map_eq_some_iff.mp hdigest with ⟨raw, hraw, hdigest⟩
        unfold canonical at hraw
        split at hraw
        . rw [← hdigest, ← Option.some.inj hraw]
          rfl
        . simp at hraw
      . simp at h
    . simp at h
  . simp at h

theorem hasIntIdx_of_isNext {l l' : Link} {line : Bytes} (h : IsNext interp l line l')
    : HasIntIdx interp line := by
  rcases h with ⟨e, hload, hidx, _⟩
  intro e' hload'
  rw [hload] at hload'
  have heq : e = e' := by simpa using hload'
  rw [← heq]
  exact ⟨_, hidx⟩

/--
If the scan stops at a line that is no JSON, this line is not the next entry.
-/
theorem not_allNext_of_stopLine {l : Link} {lines : List Bytes} {line : Bytes}
    (hstop : stopLine interp l lines = some line)
    (hbroken : Python.loadsBytes interp line = .error .jsonDecode)
    : ¬AllNext interp l lines := by
  induction lines generalizing l with
  | nil => simp [stopLine] at hstop
  | cons first rest ih =>
    rw [stopLine] at hstop
    rw [AllNext]
    split
    . next hskip =>
      rw [if_pos hskip] at hstop
      exact ih hstop
    . next hskip =>
      rw [if_neg hskip] at hstop
      rintro ⟨l', hnext, hrest⟩
      rcases takes?_of_isNext hnext with htakes | htakes
      . rw [htakes] at hstop
        exact ih hstop hrest
      . rw [htakes] at hstop
        rcases hnext with ⟨e, hload, _⟩
        rw [Option.some.inj hstop, hbroken] at hload
        simp at hload

/--
Without a stop line every line is the next entry, as far as indices are integers.
-/
theorem allNext_iff_of_stopLine {l : Link} {lines : List Bytes}
    (hstop : stopLine interp l lines = none)
    : AllNext interp l lines ↔ ∀ line ∈ lines, isTerminated line = true →
        isBlank line = false → HasIntIdx interp line := by
  induction lines generalizing l with
  | nil => simp [AllNext]
  | cons first rest ih =>
    rw [stopLine] at hstop
    rw [AllNext, List.forall_mem_cons]
    split
    . next hskip =>
      rw [if_pos hskip] at hstop
      rw [ih hstop]
      simp only [Bool.or_eq_true, Bool.not_eq_eq_eq_not, Bool.not_true] at hskip
      constructor
      . intro h
        refine ⟨fun hterm hblank => ?_, h⟩
        simp [hterm, hblank] at hskip
      . exact fun h => h.2
    . next hskip =>
      rw [if_neg hskip] at hstop
      simp only [Bool.or_eq_true, Bool.not_eq_eq_eq_not, Bool.not_true, not_or,
        Bool.not_eq_false, Bool.not_eq_true] at hskip
      split at hstop
      . next l' htakes =>
        constructor
        . rintro ⟨l'', hnext, hrest⟩
          rcases takes?_of_isNext hnext with htakes' | htakes'
          . have heq : l' = l'' := by simpa [htakes] using htakes'
            rw [← heq, ih hstop] at hrest
            exact ⟨fun _ _ => hasIntIdx_of_isNext hnext, hrest⟩
          . simp [htakes] at htakes'
        . rintro ⟨hfirst, hrest⟩
          exact ⟨l', isNext_of_takes? htakes (hfirst hskip.1 hskip.2), (ih hstop).mpr hrest⟩
      . simp at hstop

/--
What is left when only unterminated lines are cut off.
-/
theorem onlyTornRemoved_of_goodEnd (content : Bytes) (t : Tail)
    (hend : t.goodEnd = ((Lines.split newline content).filter isTerminated).flatten.length)
    : OnlyTornRemoved content
        ⟨content.take t.goodEnd, t, content.length - t.goodEnd⟩ := by
  rcases Lines.split_eq_append newline content with ⟨lines, last, heq, hlines, hlast⟩
  have hflat := Lines.flatten_split newline content
  have hall : lines.filter isTerminated = lines := by
    rw [List.filter_eq_self]
    intro line hline
    simp [isTerminated, hlines line hline]
  rcases hlast with rfl | ⟨torn, rfl, hne, hnot⟩
  . rw [heq, List.append_nil] at hend hflat
    rw [hall, hflat] at hend
    refine Or.inl ?_
    simp [hend]
  . have hterm : isTerminated torn = false := by
      simp only [isTerminated, decide_eq_false_iff_not]
      intro hgetLast
      exact hnot (List.mem_of_getLast? hgetLast)
    rw [heq, List.filter_append, hall, List.filter_cons, hterm] at hend
    simp only [Bool.false_eq_true, ↓reduceIte, List.filter_nil, List.append_nil] at hend
    rw [heq, List.flatten_append, List.flatten_singleton] at hflat
    have htake : content.take t.goodEnd = lines.flatten := by
      rw [← hflat, hend, List.take_left]
    refine Or.inr ⟨torn, hne, hnot, ?_, ?_⟩
    . rw [htake, hflat]
    . rw [htake]
      rcases List.eq_nil_or_concat lines with rfl | ⟨front, line, rfl⟩
      . exact Or.inl rfl
      . refine Or.inr ?_
        rw [List.concat_eq_append, List.flatten_append, List.flatten_singleton]
        have hline := hlines line (by simp)
        rw [List.getLast?_append, hline]
        rfl

end

/--
Exactly when the recovery of a segment loses nothing durable.
-/
theorem recoverySafe_iff (interp : Interp) (content : Bytes)
    : RecoverySafe interp content ↔ Recoverable interp content := by
  have htorn : ∀ pre line post, Lines.split newline content = pre ++ line :: post →
      isTerminated line = false → post = [] := by
    intro pre line post heq hterm
    by_contra hpost
    rcases Lines.split_eq_append newline content with ⟨lines, last, heq', hlines, hlast⟩
    have hmem : line ∈ lines := by
      have hlt : pre.length < lines.length := by
        have hlen := congrArg List.length (heq.symm.trans heq')
        have hpos := List.length_pos_iff.mpr hpost
        have hshort : last.length ≤ 1 := by
          rcases hlast with rfl | ⟨torn, rfl, _⟩ <;> simp
        simp only [List.length_append, List.length_cons] at hlen
        omega
      have hget : (pre ++ line :: post)[pre.length]? = some line := by simp
      rw [← heq, heq', List.getElem?_append_left hlt] at hget
      exact List.mem_of_getElem? hget
    simp [isTerminated, hlines line hmem] at hterm
  have hscan := @scan_cases interp .start (Lines.split newline content) htorn
  rw [RecoverySafe, Recoverable]
  cases hstop : stopLine interp .start (Lines.split newline content) with
  | some line =>
    rw [show Tail.start.link = Link.start from rfl, hstop] at hscan
    simp only at hscan ⊢
    split at hscan
    . next hbroken =>
      rcases hscan with ⟨t, ht⟩
      have hnot := not_allNext_of_stopLine hstop hbroken
      simp [resume, ht, hbroken, hnot]
    . next hbroken =>
      rcases hscan with ⟨e, he⟩
      simp [resume, he, hbroken]
  | none =>
    rw [show Tail.start.link = Link.start from rfl, hstop] at hscan
    rcases hscan with ⟨t, ht, hend⟩
    have hend : t.goodEnd = ((Lines.split newline content).filter isTerminated).flatten.length := by
      rw [hend]
      simp [Tail.start]
    simp only [resume, ht, Except.ok_bind]
    rw [← allNext_iff_of_stopLine hstop]
    exact and_iff_right (onlyTornRemoved_of_goodEnd content t hend)

/-!
A segment with two durable entries and a line that is no JSON between them.
-/

def exampleLine (idx : Nat) (ts prevHash selfHash : Str) : Bytes :=
  ((Json.obj [(txt "idx", .int idx), (txt "ts", .str ts), (txt "data", .int idx),
    (txt "prev_hash", .str prevHash), (txt "self_hash", .str selfHash)]).canonical ++
    txt "\n").flatMap Utf8.encodePoint

def exampleHash : Str := txt "bb2b99d8bd5d239fd97dbdeefbfff13aea200aec742a849466bf52195712de0f"

def exampleNextHash : Str := txt "78a169b9b4c1e1f046508085dbbe930c9f1b4ff1a6e96724f327c73d97246f6b"

def exampleFirstLine : Bytes :=
  exampleLine 0 (txt "2026-01-01T00:00:00Z") genesisPrev exampleHash

def exampleSecondLine : Bytes :=
  exampleLine 1 (txt "2026-01-01T00:00:01Z") exampleHash exampleNextHash

def exampleSegment : Bytes := exampleFirstLine ++ [0x78, newline] ++ exampleSecondLine

def exampleInterp : Interp := ⟨1000, 1000, some 4300⟩

/--
The second entry is the next one of the chain, and is deleted along with the line before it.
-/
theorem resume_deletes_durable_entry
    : resume exampleInterp exampleSegment
        = .ok ⟨exampleFirstLine, ⟨exampleFirstLine.length, 1, exampleHash, exampleHash⟩,
            exampleSecondLine.length + 2⟩ ∧
      takes? exampleInterp ⟨1, exampleHash⟩ exampleSecondLine = some ⟨2, exampleNextHash⟩ ∧
      ¬RecoverySafe exampleInterp exampleSegment := by
  have hresume : resume exampleInterp exampleSegment
      = .ok ⟨exampleFirstLine, ⟨exampleFirstLine.length, 1, exampleHash, exampleHash⟩,
          exampleSecondLine.length + 2⟩ := by
    decide +kernel
  refine ⟨hresume, by decide +kernel, ?_⟩
  rw [RecoverySafe, hresume]
  rintro ⟨hsame | ⟨torn, _, hnot, heq, _⟩, _⟩
  . exact absurd hsame (by decide +kernel)
  . have htorn : torn = [0x78, newline] ++ exampleSecondLine := by
      rw [exampleSegment, List.append_assoc] at heq
      exact (List.append_cancel_left heq).symm
    rw [htorn] at hnot
    simp at hnot

end Ingest
end CryptoValid
