import CryptoValid.Ingest.Sealed
import CryptoValid.Verifier.Extend

/-!
This module contains what the verifier makes of the segments an `Ingestor` has written, over runs
that count the events of every segment.
-/

namespace CryptoValid
namespace Ingest

open Verifier (Intact Follows lastHash Terminated Passes entriesOf parseLines rawLines)

/-!
### Entries
-/

section

variable {cfg : Config} {o : Ingestor} {now : Str} {data : Json} {line selfHash : Str}

/--
The members of a queued entry in the order they are put in.
-/
def members (o : Ingestor) (now : Str) (data : Json) (selfHash : Str) : Entry := [
  (txt "idx", .int o.idx), (txt "ts", .str now), (txt "data", data), (txt "prev_hash", .str o.prev),
  (txt "self_hash", .str selfHash)]

def memberKeys : List Str := [
  txt "idx", txt "ts", txt "data", txt "prev_hash", txt "self_hash"]

theorem map_fst_members : (members o now data selfHash).map Prod.fst = memberKeys := rfl

theorem nodup_members : ((members o now data selfHash).map Prod.fst).Nodup := by
  rw [map_fst_members]
  decide

/--
With strings for keys the line is the canonical text of the entry.
-/
theorem entryOf_ofJson (h : entryOf cfg o now (.ofJson data) = some (line, selfHash))
    : line = (Json.obj (members o now data selfHash)).canonical ∧
        selfHash = Hex.ofBytes (sha256 (payloadOf (members o now data selfHash))) := by
  have hwithout : ∀ s : Str, withoutAttestation (members o now data s)
      = [(txt "idx", .int o.idx), (txt "ts", .str now), (txt "data", data),
        (txt "prev_hash", .str o.prev)] := fun s => rfl
  simp only [entryOf, Option.bind_eq_bind, Option.bind_eq_some_iff, Option.pure_def,
    Option.some.injEq, Prod.mk.injEq] at h
  rcases h with ⟨raw, hraw, text, htext, rfl, rfl⟩
  have hraw := Python.dumpsSorted_ofJson (v := .obj (withoutAttestation (members o now data [])))
    hraw
  subst hraw
  refine ⟨Python.dumpsSorted_ofJson (v := .obj (members o now data _)) htext, ?_⟩
  rw [payloadOf, hwithout, hwithout]

theorem inProfile_members (hidx : o.idx ≤ safeInt) (hnow : Str.Scalar now)
    (hdata : Json.All InProfile data) (hprev : Str.Scalar o.prev) (hself : Str.Scalar selfHash)
    : Json.All InProfile (.obj (members o now data selfHash)) := by
  have hkeys : ∀ k ∈ memberKeys, Str.Scalar k := by decide
  rw [Json.all_obj]
  refine ⟨⟨nodup_members, ?_⟩, ?_⟩
  . intro m hm
    exact hkeys _ (map_fst_members (o := o) ▸ List.mem_map_of_mem hm)
  . simp only [members, List.forall_mem_cons]
    refine ⟨?_, hnow, hdata, hprev, hself, by simp⟩
    simpa [Json.All, InProfile] using hidx

/--
What the verifier reads from the line of an entry may follow.
-/
theorem follows_members {entries : List Entry} {e : Entry}
    (hself : selfHash = Hex.ofBytes (sha256 (payloadOf (members o now data selfHash))))
    (he : (Json.obj (members o now data selfHash)).sortKeys = .obj e)
    (hidx : entries.length = o.idx) (hlast : lastHash entries = .str o.prev)
    : Follows .sha256 entries e ∧ e.get (txt "self_hash") = .str selfHash := by
  have hget : ∀ key, e.get key
      = ((Assoc.lookup key (members o now data selfHash)).map Json.sortKeys).getD .null := by
    intro key
    rw [Entry.get, lookup_sortKeys he nodup_members]
  have hhash : e.get (txt "self_hash") = .str selfHash := by
    rw [hget]
    rfl
  refine ⟨Verifier.follows_of_members (h := selfHash) ?_ ?_ hlast ?_ hhash ?_, hhash⟩
  . have hkeys : ∀ k ∈ memberKeys, k ∈ entryKeys := by decide
    intro m hm
    rw [Json.sortKeys_obj, Json.obj.injEq] at he
    rw [← he, Json.mem_sortMembers, List.mem_map] at hm
    rcases hm with ⟨n, hn, rfl⟩
    exact hkeys n.1 (map_fst_members (o := o) ▸ List.mem_map_of_mem hn)
  . rw [hget, hidx]
    rfl
  . rw [hget]
    rfl
  . rw [Verifier.canonicalPayload_sortKeys he nodup_members, hashWith]
    exact congrArg some hself.symm

end

/-!
### Segments
-/

/--
The lines that are queued, as a flush would write them.
-/
def linesOf (buf : List Str) : Bytes := (buf.flatMap (· ++ [0x0a])).flatMap Utf8.encodePoint

theorem batchOf_eq_linesOf {buf : List Str} (h : buf ≠ []) : batchOf buf = linesOf buf := by
  have hnl : txt "\n" = [0x0a] := by decide
  have hjoin : (txt "\n").intercalate buf ++ txt "\n" = buf.flatMap (· ++ [0x0a]) := by
    rw [hnl]
    induction buf with
    | nil => exact absurd rfl h
    | cons line buf ih =>
      cases buf with
      | nil => simp
      | cons line' buf =>
        rw [List.intercalate_cons_cons, List.append_assoc, ih (by simp)]
        rfl
  rw [batchOf, hjoin, linesOf]

theorem linesOf_concat (buf : List Str) (line : Str)
    : linesOf (buf ++ [line])
        = linesOf buf ++ (line ++ [0x0a]).flatMap Utf8.encodePoint := by
  simp [linesOf]

/--
A segment of `count` events that ends with the hash `prev`. An index must be portable, so that no
more is said of longer segments.
-/
structure Written (content : Bytes) (count : Nat) (prev : Str) : Prop where
  terminated : Terminated content
  count_le : count ≤ content.length
  scalar : Str.Scalar prev
  entries : count ≤ safeInt + 1 → ∃ entries, parseLines (rawLines content) = (entries, []) ∧
    entries.length = count ∧ Intact .sha256 entries ∧ lastHash entries = .str prev

theorem written_nil : Written [] 0 genesisPrev where
  terminated := Or.inl rfl
  count_le := Nat.le_refl 0
  scalar := by decide
  entries _ := ⟨[], by rw [Verifier.rawLines_nil]; rfl, rfl, Verifier.intact_nil _, rfl⟩

/--
The verifier agrees, unless there is nothing or too much in the segment.
-/
theorem Written.passes {content : Bytes} {count : Nat} {prev : Str}
    (h : Written content count prev) (hcount : 0 < count)
    (hsize : content.length ≤ Verifier.maxInputBytes) (crypto : Tip.Crypto)
    (sidecar : Option Tip.File) : Passes crypto content { sidecar } count := by
  have hle := h.count_le
  have hbound : Verifier.maxInputBytes ≤ safeInt := by decide
  rcases h.entries (by omega) with ⟨entries, hparse, hlength, hintact, _⟩
  have hne : entries ≠ [] := by
    rintro rfl
    rw [List.length_nil] at hlength
    omega
  have hentries : entriesOf content = entries := by rw [entriesOf, hparse]
  refine (Verifier.passes_iff crypto content none sidecar count).mpr ?_
  rw [hentries, hparse, Verifier.detectAlgo_of_intact hintact hne]
  exact ⟨hsize, rfl, hne, hlength, hintact⟩

/--
One more event of the profile.
-/
theorem Written.concat {cfg : Config} {o : Ingestor} {now line selfHash : Str} {data : Json}
    {content : Bytes} (h : Written content o.idx o.prev)
    (hentry : entryOf cfg o now (.ofJson data) = some (line, selfHash)) (hnow : Str.Scalar now)
    (hdata : Json.All InProfile data) (hdepth : data.depth < maxJsonDepth)
    : Written (content ++ (line ++ [0x0a]).flatMap Utf8.encodePoint) (o.idx + 1) selfHash := by
  rcases entryOf_ofJson hentry with ⟨rfl, hself⟩
  have hscalar : Str.Scalar selfHash := by
    rw [hself]
    exact Hex.scalar_ofBytes _
  have hline : ((Json.obj (members o now data selfHash)).canonical ++ [0x0a]).flatMap
      Utf8.encodePoint ≠ [] := by
    rw [List.flatMap_append]
    exact List.append_ne_nil_of_right_ne_nil _ (by decide)
  refine ⟨?_, ?_, hscalar, ?_⟩
  . right
    rw [List.flatMap_append, ← List.append_assoc, List.getLast?_append]
    rfl
  . have hle := h.count_le
    have hpos := List.length_pos_iff.mpr hline
    rw [List.length_append]
    omega
  . intro hcount
    rcases h.entries (by omega) with ⟨entries, hparse, hlength, hintact, hlast⟩
    have hprofile := inProfile_sortKeys
      (inProfile_members (by omega) hnow hdata h.scalar hscalar (o := o))
    have hdepth' : (Json.obj (members o now data selfHash)).sortKeys.depth ≤ maxJsonDepth := by
      rw [Json.depth_sortKeys]
      simp only [members, Json.depth, Json.depthMembers]
      omega
    obtain ⟨e, hsort⟩ : ∃ e, (Json.obj (members o now data selfHash)).sortKeys = .obj e :=
      ⟨_, Json.sortKeys_obj _⟩
    rcases follows_members hself hsort hlength hlast with ⟨hfollows, hget⟩
    rw [Json.canonical, hsort]
    rw [hsort] at hprofile hdepth'
    have hfloat := hprofile.imp notFloat_of_inProfile
    have hprintable := Json.printable_dumps _ hfloat
    have hload := Verifier.loadsStrict_dumps hprofile hdepth' [] [0x0a] rfl rfl
    refine ⟨entries ++ [e], ?_, by simp [hlength], ?_, ?_⟩
    . rw [Verifier.parseLines_append_line h.terminated (Json.printable_scalar hprintable)
        (Verifier.printable_not_mem_nl hprintable) (Verifier.isBlank_dumps hfloat.self) hload,
        hparse]
    . exact (Verifier.intact_concat _ _ _).mpr ⟨hintact, hfollows⟩
    . simp [lastHash, hget]

/-!
### Operations
-/

section

variable (cfg : Config) (env : Env) (fs : Fs) {o : Ingestor}

/--
What the current segment holds once the queue is flushed.
-/
def pending (fs : Fs) (o : Ingestor) : Bytes := (fs.segments.get? o.seq).getD [] ++ linesOf o.buf

/--
At most the queue is flushed, and nothing is lost.
-/
structure Result.Keeps (fs : Fs) (o : Ingestor) (r : Result α) : Prop where
  seq : r.ing.seq = o.seq
  idx : r.ing.idx = o.idx
  prev : r.ing.prev = o.prev
  pending : pending r.fs r.ing = pending fs o
  others : ∀ k, k ≠ o.seq → r.fs.segments.get? k = fs.segments.get? k
  onSegment : r.ing.OnSegment

theorem keeps_flush (ho : o.OnSegment) (henv : ∀ kept, env.append ≠ .torn kept)
    : (o.flush cfg env fs).Keeps fs o ∧
        ((o.flush cfg env fs).result = .ok () → (o.flush cfg env fs).ing.buf = []) := by
  unfold Ingestor.flush
  split
  . next hempty =>
    exact ⟨⟨rfl, rfl, rfl, rfl, fun _ _ => rfl, ho⟩, fun _ => List.isEmpty_iff.mp hempty⟩
  . next hne =>
    split
    . exact ⟨⟨rfl, rfl, rfl, rfl, fun _ _ => rfl, ho⟩, by simp⟩
    . next k hk =>
      rw [ho k hk]
      split
      . exact ⟨⟨rfl, rfl, rfl, rfl, fun _ _ => rfl, ho⟩, by simp⟩
      . next kept happend => exact absurd happend (henv kept)
      . refine ⟨⟨rfl, rfl, rfl, ?_, ?_, ho⟩, fun _ => rfl⟩
        . rw [List.isEmpty_iff] at hne
          simp [Ingest.pending, Fs.appendTo, Dict.get?_set_self, batchOf_eq_linesOf hne, linesOf]
        . intro j hj
          exact Dict.get?_set_of_ne _ _ hj

theorem segments_writeHead (sth : Json) : (writeHead cfg env fs sth).1.segments = fs.segments := by
  unfold writeHead
  split
  . rfl
  . split <;> rfl

/--
The writer has gone on to a new segment with nothing in it, and the one before it is flushed.
-/
structure Result.Switches (fs : Fs) (o : Ingestor) (r : Result α) : Prop where
  seq : r.ing.seq = o.seq + 1
  idx : r.ing.idx = 0
  prev : r.ing.prev = genesisPrev
  buf : r.ing.buf = []
  flushed : ∀ content, r.fs.segments.get? o.seq = some content → content = Ingest.pending fs o
  opened : ∀ content, r.fs.segments.get? (o.seq + 1) = some content →
    fs.segments.get? (o.seq + 1) = none → content = []
  others : ∀ k, k ≠ o.seq → k ≠ o.seq + 1 → r.fs.segments.get? k = fs.segments.get? k
  onSegment : r.ing.OnSegment

def Result.Moves (fs : Fs) (o : Ingestor) (r : Result α) : Prop := r.Keeps fs o ∨ r.Switches fs o

theorem segments_openSegment (seq : Nat)
    : (∀ k, k ≠ seq → (fs.openSegment seq).segments.get? k = fs.segments.get? k) ∧
        ∀ content, (fs.openSegment seq).segments.get? seq = some content →
          fs.segments.get? seq = none → content = [] := by
  unfold Fs.openSegment
  split
  . next hcontains =>
    refine ⟨fun _ _ => rfl, ?_⟩
    intro content _ hnone
    rw [(Dict.contains_eq_false_iff _ _).mpr hnone] at hcontains
    simp at hcontains
  . refine ⟨fun k hk => Dict.get?_set_of_ne _ _ hk, ?_⟩
    intro content hcontent _
    rw [Dict.get?_set_self] at hcontent
    exact (Option.some.inj hcontent).symm

theorem moves_switchSegment (sth : Json) (hbuf : o.buf = [])
    : (switchSegment cfg env fs o sth).Moves fs o := by
  rcases segments_openSegment fs (o.seq + 1) with ⟨hothers, hopened⟩
  have hflushed : ∀ content, fs.segments.get? o.seq = some content →
      content = pending fs o := by
    intro content hcontent
    simp [pending, hcontent, hbuf, linesOf]
  have hclosed : Ingestor.OnSegment { o with
      seq := o.seq + 1, idx := 0, prev := genesisPrev, first := genesisPrev, fh := none } := by
    simp [Ingestor.OnSegment]
  unfold switchSegment
  split
  . left
    exact ⟨rfl, rfl, rfl, rfl, fun _ _ => rfl, by simp [Ingestor.OnSegment]⟩
  . right
    dsimp only
    split
    . refine ⟨rfl, rfl, rfl, hbuf, hflushed, ?_, fun _ _ _ => rfl, hclosed⟩
      intro content hcontent hnone
      rw [hnone] at hcontent
      simp at hcontent
    . have hcurrent := hothers o.seq (by omega)
      have hswitch : ∀ result : Except Error (Option Json), Result.Switches fs o
          ⟨fs.openSegment (o.seq + 1), { o with
            seq := o.seq + 1, idx := 0, prev := genesisPrev, first := genesisPrev,
            fh := some (o.seq + 1) }, result⟩ := by
        intro result
        refine ⟨rfl, rfl, rfl, hbuf, ?_, hopened, fun k _ => hothers k, ?_⟩
        . rw [hcurrent]
          exact hflushed
        . simp [Ingestor.OnSegment]
      split
      . exact hswitch _
      . split <;> exact hswitch _

/--
Only the segments count.
-/
theorem Result.Moves.of_segments {fs fs' : Fs} {o : Ingestor} {r : Result α} (h : r.Moves fs' o)
    (hsegments : fs'.segments = fs.segments) : r.Moves fs o := by
  have hpending : pending fs' o = pending fs o := by rw [pending, pending, hsegments]
  rcases h with h | h
  . exact Or.inl ⟨h.seq, h.idx, h.prev, h.pending.trans hpending, hsegments ▸ h.others,
      h.onSegment⟩
  . exact Or.inr ⟨h.seq, h.idx, h.prev, h.buf, hpending ▸ h.flushed, hsegments ▸ h.opened,
      hsegments ▸ h.others, h.onSegment⟩

theorem moves_sealFlushed (minEntries : Nat) (hbuf : o.buf = []) (ho : o.OnSegment)
    : (o.sealFlushed cfg minEntries env fs).Moves fs o := by
  have hkeep : ∀ fs' : Fs, fs'.segments = fs.segments → ∀ result : Except Error (Option Json),
      Result.Moves fs o ⟨fs', o, result⟩ := by
    intro fs' hsegments result
    have hself : Result.Keeps fs' o ⟨fs', o, result⟩ :=
      ⟨rfl, rfl, rfl, rfl, fun _ _ => rfl, ho⟩
    exact Result.Moves.of_segments (Or.inl hself) hsegments
  unfold Ingestor.sealFlushed
  split
  . exact hkeep fs rfl _
  . split
    . exact hkeep fs rfl _
    . next sth _ =>
      split
      . exact hkeep fs rfl _
      . exact hkeep (fs.setSth o.seq sth) rfl _
      . have hsegments : (writeHead cfg env (fs.setSth o.seq sth) sth).1.segments
            = fs.segments := segments_writeHead cfg env (fs.setSth o.seq sth) sth
        split
        . next hw =>
          rw [hw] at hsegments
          exact hkeep _ hsegments _
        . next fs' hw =>
          rw [hw] at hsegments
          exact (moves_switchSegment cfg env fs' sth hbuf).of_segments hsegments

/--
A flush does not show in what comes after it.
-/
theorem Result.Keeps.moves {fs : Fs} {o : Ingestor} {r : Result α} {r' : Result β}
    (h : r.Keeps fs o) (h' : r'.Moves r.fs r.ing) : r'.Moves fs o := by
  have hseq := h.seq
  have hpending := h.pending
  rcases h' with h' | h'
  . refine Or.inl ⟨h'.seq.trans hseq, h'.idx.trans h.idx, h'.prev.trans h.prev,
      h'.pending.trans hpending, ?_, h'.onSegment⟩
    intro k hk
    exact (h'.others k (by rwa [hseq])).trans (h.others k hk)
  . have hopened := h'.opened
    have hflushed := h'.flushed
    rw [hseq, h.others _ (by omega)] at hopened
    rw [hseq, hpending] at hflushed
    refine Or.inr ⟨by rw [h'.seq, hseq], h'.idx, h'.prev, h'.buf, hflushed, hopened, ?_,
      h'.onSegment⟩
    intro k hk hk'
    exact (h'.others k (by rwa [hseq]) (by rwa [hseq])).trans (h.others k hk)

theorem moves_seal (minEntries : Nat) (ho : o.OnSegment)
    (henv : ∀ kept, env.append ≠ .torn kept)
    : (o.seal cfg minEntries env fs).Moves fs o := by
  rcases keeps_flush cfg env fs ho henv with ⟨hkeeps, hbuf⟩
  unfold Ingestor.seal
  dsimp only
  split
  . exact Or.inl ⟨hkeeps.seq, hkeeps.idx, hkeeps.prev, hkeeps.pending, hkeeps.others,
      hkeeps.onSegment⟩
  . next hok =>
    exact hkeeps.moves (moves_sealFlushed cfg env _ minEntries (hbuf hok) hkeeps.onSegment)

theorem moves_close (sealIt : Bool) (ho : o.OnSegment)
    (henv : ∀ kept, env.append ≠ .torn kept)
    : (o.close cfg sealIt env fs).Moves fs o := by
  cases sealIt with
  | true =>
    rcases moves_seal cfg env fs 1 ho henv with h | h
    . exact Or.inl ⟨h.seq, h.idx, h.prev, h.pending, h.others,
        by simp [Ingestor.close, Ingestor.OnSegment]⟩
    . exact Or.inr ⟨h.seq, h.idx, h.prev, h.buf, h.flushed, h.opened, h.others,
        by simp [Ingestor.close, Ingestor.OnSegment]⟩
  | false =>
    have h := (keeps_flush cfg env fs ho henv).1
    exact Or.inl ⟨h.seq, h.idx, h.prev, h.pending, h.others,
      by simp [Ingestor.close, Ingestor.OnSegment]⟩

end

/-!
### Runs
-/

/--
A writer, and how many events were put in the queue of each segment.
-/
structure Traced where
  state : State
  appended : Nat → Nat

/--
The segment that an `append` queues its event for. It may still raise when it flushes the queue.
-/
def queuedFor (cfg : Config) (s : State) (input : Op × Env) : Option Nat :=
  match input.1, s.ing with
  | .append data, some o => (entryOf cfg o input.2.now data).map fun _ => o.seq
  | _, _ => none

def tracedStep (cfg : Config) (t : Traced) (input : Op × Env) : Traced where
  state := step cfg t.state input
  appended k := t.appended k + if queuedFor cfg t.state input = some k then 1 else 0

/--
The writer on an empty directory, if it can be opened.
-/
def opened (cfg : Config) (env : Env) : Traced := ⟨step cfg .start (.reopen, env), fun _ => 0⟩

/--
All keys of the value are strings, it is inside the profile and it leaves room for the entry around
it. No write fails half way without being undone, and the object is not replaced.
-/
def FitsProfile (input : Op × Env) : Prop :=
  (∀ kept, input.2.append ≠ .torn kept) ∧
    match input.1 with
    | .append data =>
      ∃ v, data = .ofJson v ∧ Json.All InProfile v ∧ v.depth < maxJsonDepth ∧
        Str.Scalar input.2.now
    | .reopen => False
    | _ => True

/--
The files and the queue of the writer hold the events that are counted.
-/
structure Sound (appended : Nat → Nat) (fs : Fs) (o : Ingestor) : Prop where
  idx : o.idx = appended o.seq
  current : Written (pending fs o) o.idx o.prev
  past : ∀ k content, k ≠ o.seq → fs.segments.get? k = some content →
    ∃ prev, Written content (appended k) prev
  later : ∀ k, o.seq < k → fs.segments.get? k = none ∧ appended k = 0
  onSegment : o.OnSegment

section

variable {cfg : Config} {appended : Nat → Nat} {fs : Fs} {o : Ingestor}

theorem Sound.moves {r : Result α} (h : Sound appended fs o) (hr : r.Moves fs o)
    : Sound appended r.fs r.ing := by
  rcases hr with hr | hr
  . refine ⟨?_, ?_, ?_, ?_, hr.onSegment⟩
    . rw [hr.idx, hr.seq]
      exact h.idx
    . rw [hr.pending, hr.idx, hr.prev]
      exact h.current
    . intro k content hk hcontent
      rw [hr.seq] at hk
      rw [hr.others k hk] at hcontent
      exact h.past k content hk hcontent
    . intro k hk
      rw [hr.seq] at hk
      rw [hr.others k (by omega)]
      exact h.later k hk
  . have hnew : ∀ content, r.fs.segments.get? (o.seq + 1) = some content → content = [] :=
      fun content hcontent => hr.opened content hcontent (h.later _ (by omega)).1
    refine ⟨?_, ?_, ?_, ?_, hr.onSegment⟩
    . rw [hr.idx, hr.seq, (h.later _ (by omega)).2]
    . have hpending : pending r.fs r.ing = [] := by
        rw [pending, hr.seq, hr.buf]
        cases hcontent : r.fs.segments.get? (o.seq + 1) with
        | none => rfl
        | some content =>
          rw [hnew content hcontent]
          rfl
      rw [hpending, hr.idx, hr.prev]
      exact written_nil
    . intro k content hk hcontent
      rw [hr.seq] at hk
      by_cases hseq : k = o.seq
      . subst hseq
        rw [hr.flushed content hcontent, ← h.idx]
        exact ⟨_, h.current⟩
      . rw [hr.others k hseq hk] at hcontent
        exact h.past k content hseq hcontent
    . intro k hk
      rw [hr.seq] at hk
      rw [hr.others k (by omega) (by omega)]
      exact h.later k (by omega)

/--
An event is queued.
-/
theorem Sound.enqueue {now line selfHash : Str} {data : Json} (h : Sound appended fs o)
    (hentry : entryOf cfg o now (.ofJson data) = some (line, selfHash)) (hnow : Str.Scalar now)
    (hdata : Json.All InProfile data) (hdepth : data.depth < maxJsonDepth)
    : Sound (fun k => appended k + if some o.seq = some k then 1 else 0) fs
        (o.enqueue line selfHash) where
  idx := by simp [Ingestor.enqueue, h.idx]
  current := by
    have hpending : pending fs (o.enqueue line selfHash)
        = pending fs o ++ (line ++ [0x0a]).flatMap Utf8.encodePoint := by
      rw [pending, pending, List.append_assoc, ← linesOf_concat]
      rfl
    rw [hpending]
    exact h.current.concat hentry hnow hdata hdepth
  past k content hk hcontent := by
    have hk' : o.seq ≠ k := Ne.symm hk
    simpa [hk'] using h.past k content hk hcontent
  later k hk := by
    have hk' : o.seq ≠ k := Nat.ne_of_lt hk
    simpa [hk'] using h.later k hk
  onSegment := h.onSegment

end

def Traced.Sound (t : Traced) : Prop :=
  match t.state.ing with
  | some o => Ingest.Sound t.appended t.state.fs o
  | none => ∀ k, t.appended k = 0

/--
Opening finds and makes nothing but an empty segment.
-/
theorem sound_openOrResume_opened {env : Env} {fs fs' : Fs} {o o' : Ingestor}
    (hempty : ∀ k content, fs.segments.get? k = some content → k = o.seq ∧ content = [])
    (hidx : o.idx = 0) (hprev : o.prev = genesisPrev) (hbuf : o.buf = [])
    (h : openOrResume.opened env fs o = (fs', .ok o')) : Ingest.Sound (fun _ => 0) fs' o' := by
  unfold openOrResume.opened at h
  split at h
  . simp at h
  . dsimp only at h
    split at h
    . simp at h
    . simp only [Prod.mk.injEq, Except.ok.injEq] at h
      rcases h with ⟨rfl, rfl⟩
      rcases segments_openSegment fs o.seq with ⟨hothers, hopened⟩
      have hnone : ∀ k, k ≠ o.seq → (fs.openSegment o.seq).segments.get? k = none := by
        intro k hk
        rw [hothers k hk, Option.eq_none_iff_forall_ne_some]
        intro content hcontent
        exact hk (hempty k content hcontent).1
      have hcurrent : ((fs.openSegment o.seq).segments.get? o.seq).getD [] = [] := by
        cases hcontent : (fs.openSegment o.seq).segments.get? o.seq with
        | none => rfl
        | some content =>
          cases hbefore : fs.segments.get? o.seq with
          | none => exact hopened content hcontent hbefore
          | some before =>
            have hkept : (fs.openSegment o.seq).segments.get? o.seq = some before := by
              simp [Fs.openSegment, Dict.contains, hbefore]
            rw [hcontent] at hkept
            rw [Option.some.inj hkept]
            exact (hempty _ _ hbefore).2
      refine ⟨hidx, ?_, ?_, fun k hk => ⟨hnone k (Nat.ne_of_gt hk), rfl⟩, ?_⟩
      . simp only [pending, hcurrent, hidx, hprev, hbuf]
        exact written_nil
      . intro k content hk hcontent
        rw [hnone k hk] at hcontent
        simp at hcontent
      . simp [Ingestor.OnSegment]

theorem sound_opened (cfg : Config) (env : Env) : (opened cfg env).Sound := by
  have hnone : ∀ k, State.start.fs.segments.get? k = none := fun _ => rfl
  simp only [opened, step]
  rcases hopen : openOrResume cfg env State.start.fs with ⟨fs, o | o⟩
  . exact fun _ => rfl
  . change Ingest.Sound (fun _ => 0) fs o
    unfold openOrResume at hopen
    split at hopen
    . refine sound_openOrResume_opened ?_ rfl rfl rfl hopen
      simp [hnone]
    . next k _ =>
      have hresume : resume cfg.interp [] = .ok ⟨[], .start, 0⟩ := rfl
      have hsth : State.start.fs.sth.contains k = false := rfl
      rw [hsth, hnone, Option.getD_none, hresume] at hopen
      simp only [Nat.lt_irrefl, false_and, if_false, Bool.false_eq_true] at hopen
      refine sound_openOrResume_opened ?_ rfl rfl rfl hopen
      intro j content hcontent
      by_cases hj : j = k
      . subst hj
        rw [Fs.setSegment, Dict.get?_set_self] at hcontent
        exact ⟨rfl, (Option.some.inj hcontent).symm⟩
      . rw [Fs.setSegment, Dict.get?_set_of_ne _ _ hj, hnone] at hcontent
        simp at hcontent

theorem sound_step (cfg : Config) (t : Traced) (input : Op × Env) (ht : t.Sound)
    (hinput : FitsProfile input) : (tracedStep cfg t input).Sound := by
  rcases t with ⟨⟨fs, ing⟩, appended⟩
  rcases input with ⟨op, env⟩
  rcases hinput with ⟨henv, hop⟩
  cases ing with
  | none =>
    have hzero : ∀ k, appended k + 0 = 0 := ht
    cases op with
    | reopen => exact absurd hop id
    | _ => exact hzero
  | some o =>
    have ho : Ingest.Sound appended fs o := ht
    have hmoves : ∀ {α : Type} {r : Result α}, r.Moves fs o →
        Ingest.Sound (fun k => appended k + 0) r.fs r.ing := fun h => ho.moves h
    cases op with
    | reopen => exact absurd hop id
    | flush => exact hmoves (Or.inl (keeps_flush cfg env fs ho.onSegment henv).1)
    | «seal» minEntries => exact hmoves (moves_seal cfg env fs minEntries ho.onSegment henv)
    | close sealIt => exact hmoves (moves_close cfg env fs sealIt ho.onSegment henv)
    | append data =>
      rcases hop with ⟨v, rfl, hdata, hdepth, hnow⟩
      change Ingest.Sound
        (fun k => appended k + if queuedFor cfg ⟨fs, some o⟩ (.append (.ofJson v), env) = some k
          then 1 else 0) (o.append cfg (.ofJson v) env fs).fs (o.append cfg (.ofJson v) env fs).ing
      cases hentry : entryOf cfg o env.now (.ofJson v) with
      | none =>
        simp only [queuedFor, Ingestor.append, hentry, Option.map_none, reduceCtorEq, if_false]
        exact ho
      | some queued =>
        rcases queued with ⟨entry, selfHash⟩
        have hqueue := ho.enqueue hentry hnow hdata hdepth
        have hflushed := keeps_flush cfg env fs hqueue.onSegment henv
        simp only [queuedFor, Ingestor.append, hentry, Option.map_some]
        split
        . have hsound := hqueue.moves (Or.inl hflushed.1)
          exact hsound
        . exact hqueue

/--
Every segment whose events are all flushed passes with as many entries as it got events, unless it
has none or is too large to be read.
-/
def AllPass (crypto : Tip.Crypto) (sidecar : Option Tip.File) (t : Traced) : Prop :=
  ∀ k content, t.state.fs.segments.get? k = some content →
    (∀ o ∈ t.state.ing, o.seq = k → o.buf = []) → 0 < t.appended k →
    content.length ≤ Verifier.maxInputBytes → Passes crypto content { sidecar } (t.appended k)

theorem Traced.Sound.allPass {t : Traced} (h : t.Sound) (crypto : Tip.Crypto)
    (sidecar : Option Tip.File) : AllPass crypto sidecar t := by
  rcases t with ⟨⟨fs, ing⟩, appended⟩
  intro k content hcontent hflushed hcount hsize
  cases ing with
  | none =>
    have hzero : appended k = 0 := h k
    exact absurd hzero (Nat.ne_of_gt hcount)
  | some o =>
    have hsound : Ingest.Sound appended fs o := h
    by_cases hk : k = o.seq
    . subst hk
      have hpending : pending fs o = content := by
        have hbuf := hflushed o rfl rfl
        have hcontent : fs.segments.get? o.seq = some content := hcontent
        simp [pending, hcontent, hbuf, linesOf]
      have hidx := hsound.idx
      have hwritten := hsound.current
      rw [hpending, hidx] at hwritten
      exact hwritten.passes hcount hsize crypto sidecar
    . rcases hsound.past k content hk hcontent with ⟨prev, hwritten⟩
      exact hwritten.passes hcount hsize crypto sidecar

/--
Whatever fits the profile, and in whatever order the writer is used: every segment it has written
passes with as many entries as it got events.
-/
theorem run_allPass (cfg : Config) (env : Env) (inputs : List (Op × Env))
    (h : Runs.EachStep (tracedStep cfg) (fun _ input => FitsProfile input) (opened cfg env) inputs)
    (crypto : Tip.Crypto) (sidecar : Option Tip.File)
    : Runs.EachState (tracedStep cfg) (AllPass crypto sidecar) (opened cfg env) inputs := by
  have hstep : ∀ t input, Traced.Sound t → FitsProfile input →
      True ∧ (tracedStep cfg t input).Sound :=
    fun t input ht hinput => ⟨trivial, sound_step cfg t input ht hinput⟩
  have hrun := (Runs.EachStep.invariant (P := fun _ _ => True) hstep (sound_opened cfg env) h).2
  exact hrun.mono fun t ht => ht.allPass crypto sidecar

/--
The segment after two events.
-/
def eventSegment : Bytes :=
  ((Runs.run (tracedStep smallArchive) (opened smallArchive {})
    [event 0, event 1]).state.fs.segments.get? 0).getD []

theorem run_allPass_events : Passes Verifier.exampleCrypto eventSegment {} 2 := by
  have hfits : ∀ n : Int, n.natAbs ≤ safeInt → FitsProfile (event n) := by
    intro n hn
    have hkey : Str.Scalar (txt "n") := by decide
    have hnow : Str.Scalar (txt "t") := by decide
    refine ⟨by simp [event], .obj [(txt "n", .int n)], rfl, ?_,
      by simp [Json.depth, Json.depthMembers, maxJsonDepth], hnow⟩
    rw [Json.all_obj]
    exact ⟨⟨by simp, by simpa using hkey⟩, by simpa [Json.All, InProfile] using hn⟩
  have hrun := run_allPass smallArchive {} [event 0, event 1]
    ⟨hfits 0 (by decide), hfits 1 (by decide), trivial⟩ Verifier.exampleCrypto none
  have hcount : (Runs.run (tracedStep smallArchive) (opened smallArchive {})
      [event 0, event 1]).appended 0 = 2 := by decide +kernel
  rw [← hcount]
  exact hrun [event 0, event 1] (List.prefix_refl _) 0 eventSegment (by decide +kernel)
    (by decide +kernel) (by decide +kernel) (by decide +kernel)

/--
The writer after one event, and its segment.
-/
def afterEvent (data : Python.Value) : Traced :=
  tracedStep smallArchive (opened smallArchive {}) (.append data, { now := txt "t" })

def segmentAfter (data : Python.Value) : Bytes :=
  ((afterEvent data).state.fs.segments.get? 0).getD []

/--
An integer that the strict loader refuses.
-/
def unsafeData : Python.Value := .dict [(.str (txt "n"), .int (2 ^ 53))]

theorem accepted_event_fails
    : ((opened smallArchive {}).state.ing.any fun o =>
        (o.append smallArchive unsafeData { now := txt "t" }
          (opened smallArchive {}).state.fs).result.toBool) = true ∧
        ¬AllPass Verifier.exampleCrypto none (afterEvent unsafeData) := by
  refine ⟨by decide +kernel, ?_⟩
  intro h
  have hpasses := h 0 (segmentAfter unsafeData) (by decide +kernel) (by decide +kernel)
    (by decide +kernel) (by decide +kernel)
  have herrors := ((Verifier.passes_iff _ _ none none _).mp hpasses).2.1
  exact absurd herrors (by decide +kernel)

/--
Keys that are numbers are written in the order of the numbers, and read in the order of their texts.
-/
def numberedData : Python.Value :=
  .dict [(.int 2, .str (txt "a")), (.int 10, .str (txt "b"))]

example : ¬AllPass Verifier.exampleCrypto none (afterEvent numberedData) := by
  intro h
  rcases h 0 (segmentAfter numberedData) (by decide +kernel) (by decide +kernel)
    (by decide +kernel) (by decide +kernel) with ⟨r, hr, hpass, _⟩
  have hfails : (Verifier.verifyLedger Verifier.exampleCrypto
      (.content (segmentAfter numberedData)) {}).toOption.map Verifier.Outcome.verdict
        = some .fail := by decide +kernel
  rw [hr] at hfails
  exact absurd hfails (by simp [Except.toOption, hpass])

end Ingest
end CryptoValid
