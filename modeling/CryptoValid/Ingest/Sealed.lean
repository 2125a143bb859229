import CryptoValid.Ingest.Writer

/-!
This module contains what happens to a sealed segment over a run of the `Ingestor`: it stays as it
was until an operation writes through an object whose current segment is sealed already.
-/

namespace CryptoValid
namespace Ingest

/--
Every tree head that `fs` has is still there in `fs'`, over the same segment.
-/
def Frozen (fs fs' : Fs) : Prop :=
  ∀ k doc, fs.sth.get? k = some doc →
    fs'.sth.get? k = some doc ∧ fs'.segments.get? k = fs.segments.get? k

theorem Frozen.segment {fs fs' : Fs} (h : Frozen fs fs') {k : Nat} (hk : fs.sth.contains k)
    : fs'.segments.get? k = fs.segments.get? k := by
  rcases Option.isSome_iff_exists.mp hk with ⟨doc, hdoc⟩
  exact (h k doc hdoc).2

theorem Frozen.refl (fs : Fs) : Frozen fs fs := fun _ _ h => ⟨h, rfl⟩

theorem Frozen.trans {fs fs' fs'' : Fs} (h : Frozen fs fs') (h' : Frozen fs' fs'')
    : Frozen fs fs'' := by
  intro k doc hk
  rcases h k doc hk with ⟨hsth, hseg⟩
  rcases h' k doc hsth with ⟨hsth', hseg'⟩
  exact ⟨hsth', hseg'.trans hseg⟩

/--
What was done to the files has at most touched segment `j` and its tree head, or created segments.
-/
structure Fs.Confined (j : Nat) (fs fs' : Fs) : Prop where
  sth : ∀ k, k ≠ j → fs'.sth.get? k = fs.sth.get? k
  segments : ∀ k, k ≠ j → fs.segments.contains k → fs'.segments.get? k = fs.segments.get? k
  keeps : ∀ k, fs.segments.contains k → fs'.segments.contains k
  backed : fs'.sth.contains j → fs.sth.contains j ∨ fs'.segments.contains j

/--
There is no tree head without its segment.
-/
def Fs.Backed (fs : Fs) : Prop := ∀ k, fs.sth.contains k → fs.segments.contains k

namespace Fs

theorem Confined.refl (j : Nat) (fs : Fs) : Confined j fs fs :=
  ⟨fun _ _ => rfl, fun _ _ _ => rfl, fun _ h => h, Or.inl⟩

theorem Confined.trans {j : Nat} {fs fs' fs'' : Fs} (h : Confined j fs fs')
    (h' : Confined j fs' fs'') : Confined j fs fs'' where
  sth := fun k hk => (h'.sth k hk).trans (h.sth k hk)
  segments := fun k hk hc => (h'.segments k hk (h.keeps k hc)).trans (h.segments k hk hc)
  keeps := fun k hc => h'.keeps k (h.keeps k hc)
  backed := by
    intro hsth
    rcases h'.backed hsth with hold | hseg
    . rcases h.backed hold with hold | hseg
      . exact Or.inl hold
      . exact Or.inr (h'.keeps j hseg)
    . exact Or.inr hseg

theorem Confined.keeps_backed {j : Nat} {fs fs' : Fs} (h : Confined j fs fs') (hfs : fs.Backed)
    : fs'.Backed := by
  intro k hk
  by_cases hkj : k = j
  . subst hkj
    rcases h.backed hk with hold | hseg
    . exact h.keeps k (hfs k hold)
    . exact hseg
  . rw [Dict.contains, h.sth k hkj] at hk
    exact h.keeps k (hfs k hk)

/--
What is confined to a segment without a tree head leaves every sealed segment alone.
-/
theorem Confined.frozen {j : Nat} {fs fs' : Fs} (h : Confined j fs fs') (hfs : fs.Backed)
    (hj : ¬fs.sth.contains j) : Frozen fs fs' := by
  intro k doc hk
  have hcontains : fs.sth.contains k := by simp [Dict.contains, hk]
  have hkj : k ≠ j := by
    rintro rfl
    exact hj hcontains
  exact ⟨(h.sth k hkj).trans hk, h.segments k hkj (hfs k hcontains)⟩

theorem confined_setSegment (fs : Fs) (j : Nat) (bytes : Bytes)
    : Confined j fs (fs.setSegment j bytes) where
  sth := fun _ _ => rfl
  segments := fun k hk _ => Dict.get?_set_of_ne fs.segments bytes hk
  keeps := by
    intro k hk
    by_cases hkj : k = j <;> simp_all [setSegment, Dict.contains, Dict.get?_set]
  backed := Or.inl

theorem confined_appendTo (fs : Fs) (j : Nat) (bytes : Bytes)
    : Confined j fs (fs.appendTo j bytes) :=
  confined_setSegment fs j _

theorem confined_setSth (fs : Fs) (j : Nat) (doc : Json) (h : fs.segments.contains j)
    : Confined j fs (fs.setSth j doc) where
  sth := fun _ hk => Dict.get?_set_of_ne fs.sth doc hk
  segments := fun _ _ _ => rfl
  keeps := fun _ hk => hk
  backed := fun _ => Or.inr h

theorem confined_head (fs : Fs) (j : Nat) (head : Option Json)
    : Confined j fs { fs with head := head } :=
  ⟨fun _ _ => rfl, fun _ _ _ => rfl, fun _ h => h, Or.inl⟩

/--
Whichever segment is created, a segment that exists keeps its bytes.
-/
theorem confined_openSegment (fs : Fs) (j seq : Nat) : Confined j fs (fs.openSegment seq) := by
  unfold openSegment
  split
  . exact Confined.refl j fs
  . next hseq =>
    have hne : ∀ k, fs.segments.contains k → k ≠ seq := by
      rintro k hk rfl
      exact hseq hk
    refine ⟨fun _ _ => rfl, ?_, ?_, Or.inl⟩
    . intro k _ hk
      exact Dict.get?_set_of_ne fs.segments [] (hne k hk)
    . intro k hk
      simpa [Dict.contains, Dict.get?_set_of_ne fs.segments [] (hne k hk)] using hk

theorem Backed.frozen_openSegment {fs : Fs} (hfs : fs.Backed) (seq : Nat)
    : Frozen fs (fs.openSegment seq) := by
  intro k doc hk
  have hcontains : fs.sth.contains k := by simp [Dict.contains, hk]
  have h := confined_openSegment fs (k + 1) seq
  exact ⟨(h.sth k (by omega)).trans hk, h.segments k (by omega) (hfs k hcontains)⟩

end Fs

/-!
### Operations
-/

/--
An open handle belongs to the current segment.
-/
def Ingestor.OnSegment (o : Ingestor) : Prop := ∀ k, o.fh = some k → k = o.seq

/--
The files were touched at segment `j` only, and the object is in order.
-/
structure Result.Confined (j : Nat) (fs : Fs) (r : Result α) : Prop where
  files : Fs.Confined j fs r.fs
  onSegment : r.ing.OnSegment

variable (cfg : Config) (env : Env) (fs : Fs) {o : Ingestor}

theorem flush_seq : (o.flush cfg env fs).ing.seq = o.seq := by
  unfold Ingestor.flush
  split
  . rfl
  . split
    . rfl
    . split <;> rfl

theorem confined_flush (ho : o.OnSegment) : (o.flush cfg env fs).Confined o.seq fs := by
  unfold Ingestor.flush
  split
  . exact ⟨Fs.Confined.refl _ fs, ho⟩
  . split
    . exact ⟨Fs.Confined.refl _ fs, ho⟩
    . next k hk =>
      rw [ho k hk]
      split
      . exact ⟨Fs.Confined.refl _ fs, ho⟩
      . exact ⟨Fs.confined_appendTo fs o.seq _, ho⟩
      . exact ⟨Fs.confined_appendTo fs o.seq _, ho⟩

theorem confined_append (data : Python.Value) (ho : o.OnSegment)
    : (o.append cfg data env fs).Confined o.seq fs := by
  unfold Ingestor.append
  split
  . exact ⟨Fs.Confined.refl _ fs, ho⟩
  . next line selfHash _ =>
    have hflush := confined_flush cfg env fs (o := o.enqueue line selfHash) ho
    dsimp only
    split
    . exact ⟨hflush.files, hflush.onSegment⟩
    . exact ⟨Fs.Confined.refl _ fs, ho⟩

/--
Without the segment's file there is no tree head.
-/
theorem contains_of_sthOf {sth : Json} (h : sthOf cfg env fs o = .ok sth)
    : fs.segments.contains o.seq := by
  cases hseg : fs.segments.get? o.seq with
  | none => simp [sthOf, hseg] at h
  | some content => simp [Dict.contains, hseg]

theorem confined_writeHead (j : Nat) (sth : Json)
    : Fs.Confined j fs (writeHead cfg env fs sth).1 := by
  unfold writeHead
  split
  . exact Fs.Confined.refl j fs
  . split
    . exact Fs.Confined.refl j fs
    . exact Fs.confined_head fs j _
    . exact Fs.confined_head fs j _

theorem confined_switchSegment (j : Nat) (sth : Json)
    : (switchSegment cfg env fs o sth).Confined j fs := by
  have hopen := Fs.confined_openSegment fs j (o.seq + 1)
  unfold switchSegment
  split
  . exact ⟨Fs.Confined.refl j fs, by simp [Ingestor.OnSegment]⟩
  . dsimp only
    split
    . exact ⟨Fs.Confined.refl j fs, by simp [Ingestor.OnSegment]⟩
    . split
      . exact ⟨hopen, by simp [Ingestor.OnSegment]⟩
      . split <;> exact ⟨hopen, by simp [Ingestor.OnSegment]⟩

theorem confined_sealFlushed (minEntries : Nat) (ho : o.OnSegment)
    : (o.sealFlushed cfg minEntries env fs).Confined o.seq fs := by
  unfold Ingestor.sealFlushed
  split
  . exact ⟨Fs.Confined.refl _ fs, ho⟩
  . split
    . exact ⟨Fs.Confined.refl _ fs, ho⟩
    . next sth hsth =>
      have hsealed := Fs.confined_setSth fs o.seq sth (contains_of_sthOf cfg env fs hsth)
      split
      . exact ⟨Fs.Confined.refl _ fs, ho⟩
      . exact ⟨hsealed, ho⟩
      . have hhead := hsealed.trans (confined_writeHead cfg env _ o.seq sth)
        split
        . next hw =>
          rw [hw] at hhead
          exact ⟨hhead, ho⟩
        . next hw =>
          rw [hw] at hhead
          exact ⟨hhead.trans (confined_switchSegment cfg env _ o.seq sth).files,
            (confined_switchSegment cfg env _ o.seq sth).onSegment⟩

theorem confined_seal (minEntries : Nat) (ho : o.OnSegment)
    : (o.seal cfg minEntries env fs).Confined o.seq fs := by
  have hflush := confined_flush cfg env fs ho
  unfold Ingestor.seal
  dsimp only
  split
  . exact ⟨hflush.files, hflush.onSegment⟩
  . have hseal := confined_sealFlushed cfg env (o.flush cfg env fs).fs minEntries
      hflush.onSegment
    rw [flush_seq] at hseal
    exact ⟨hflush.files.trans hseal.files, hseal.onSegment⟩

theorem confined_close (sealIt : Bool) (ho : o.OnSegment)
    : (o.close cfg sealIt env fs).Confined o.seq fs := by
  cases sealIt with
  | true =>
    exact ⟨(confined_seal cfg env fs 1 ho).files, by simp [Ingestor.close, Ingestor.OnSegment]⟩
  | false =>
    exact ⟨(confined_flush cfg env fs ho).files, by simp [Ingestor.close, Ingestor.OnSegment]⟩

/-!
### Operations that write nothing
-/

/--
Does the operation write to the current segment or to its tree head, if nothing fails before that?
-/
def Ingestor.writes (cfg : Config) (o : Ingestor) : Op → Bool
  | .append _ => o.fh.isSome && decide (cfg.batch ≤ o.buf.length + 1)
  | .flush => flushes
  | .seal minEntries => seals minEntries
  | .close sealIt => if sealIt then seals 1 else flushes
  | .reopen => false
where
  flushes : Bool := o.fh.isSome && !o.buf.isEmpty
  seals (minEntries : Nat) : Bool :=
    if o.buf.isEmpty then decide (max 1 minEntries ≤ o.idx) else o.fh.isSome

theorem flush_fs_of_quiet (h : Ingestor.writes.flushes o = false)
    : (o.flush cfg env fs).fs = fs := by
  unfold Ingestor.flush
  split
  . rfl
  . next hbuf =>
    split
    . rfl
    . next k hk => simp [Ingestor.writes.flushes, hk, hbuf] at h

theorem append_fs_of_quiet (data : Python.Value) (h : o.writes cfg (.append data) = false)
    : (o.append cfg data env fs).fs = fs := by
  unfold Ingestor.append
  split
  . rfl
  . next line selfHash _ =>
    dsimp only
    split
    . next hbatch =>
      have hlen : cfg.batch ≤ o.buf.length + 1 := by simpa [Ingestor.enqueue] using hbatch
      apply flush_fs_of_quiet
      have hfh : o.fh.isSome = false := by simpa [Ingestor.writes, hlen] using h
      simp [Ingestor.writes.flushes, Ingestor.enqueue, hfh]
    . rfl

theorem seal_fs_of_quiet (minEntries : Nat)
    (h : Ingestor.writes.seals o minEntries = false)
    : (o.seal cfg minEntries env fs).fs = fs := by
  unfold Ingestor.seal Ingestor.flush
  split
  . next hbuf =>
    have hidx : o.idx < max 1 minEntries := by
      rw [Ingestor.writes.seals, if_pos hbuf] at h
      simpa only [decide_eq_false_iff_not, Nat.not_le] using h
    simp only [Ingestor.sealFlushed, if_pos hidx]
  . next hbuf =>
    have hfh : o.fh = none := by simpa [Ingestor.writes.seals, hbuf] using h
    simp [hfh]

theorem close_fs_of_quiet (sealIt : Bool) (h : o.writes cfg (.close sealIt) = false)
    : (o.close cfg sealIt env fs).fs = fs := by
  cases sealIt with
  | true => exact seal_fs_of_quiet cfg env fs 1 h
  | false => exact flush_fs_of_quiet cfg env fs h

/-!
### Opening
-/

theorem confined_opened (j : Nat)
    : Fs.Confined j fs (openOrResume.opened env fs o).1 := by
  unfold openOrResume.opened
  split
  . exact Fs.Confined.refl j fs
  . dsimp only
    split <;> exact Fs.confined_openSegment fs j o.seq

theorem opened_frozen (hfs : fs.Backed) : Frozen fs (openOrResume.opened env fs o).1 := by
  unfold openOrResume.opened
  split
  . exact Frozen.refl fs
  . dsimp only
    split <;> exact hfs.frozen_openSegment o.seq

theorem opened_onSegment {o' : Ingestor} (h : (openOrResume.opened env fs o).2 = .ok o')
    : o'.OnSegment := by
  unfold openOrResume.opened at h
  split at h
  . simp at h
  . dsimp only at h
    split at h
    . simp at h
    . cases h
      simp [Ingestor.OnSegment]

/--
Opening touches the newest listed segment, and only if it has no tree head.
-/
theorem openOrResume_spec (hfs : fs.Backed)
    : Frozen fs (openOrResume cfg env fs).1 ∧ (openOrResume cfg env fs).1.Backed
        ∧ ∀ o, (openOrResume cfg env fs).2 = .ok o → o.OnSegment := by
  unfold openOrResume
  split
  . exact ⟨opened_frozen env fs hfs, (confined_opened env fs 0).keeps_backed hfs,
      fun _ => opened_onSegment env _⟩
  . next k _ =>
    split
    . exact ⟨opened_frozen env fs hfs, (confined_opened env fs 0).keeps_backed hfs,
        fun _ => opened_onSegment env _⟩
    . next hk =>
      split
      . exact ⟨Frozen.refl fs, hfs, by simp⟩
      . next r _ =>
        split
        . exact ⟨Frozen.refl fs, hfs, by simp⟩
        . have hcut := Fs.confined_setSegment fs k r.content
          exact ⟨(hcut.trans (confined_opened env _ k)).frozen hfs hk,
            (hcut.trans (confined_opened env _ k)).keeps_backed hfs,
            fun _ => opened_onSegment env _⟩

/-!
### Steps
-/

/--
What the writer keeps whatever happens.
-/
structure State.InOrder (s : State) : Prop where
  backed : s.fs.Backed
  onSegment : ∀ o, s.ing = some o → o.OnSegment

theorem inOrder_start : State.start.InOrder where
  backed := by simp [Fs.Backed, State.start, Dict.contains]
  onSegment := by simp [State.start]

/--
An operation on an object: nothing is written, or the segment has no tree head yet.
-/
theorem after_spec {s : State} (hs : s.InOrder) {r : Result α} (hr : r.Confined o.seq s.fs)
    (h : r.fs = s.fs ∨ ¬s.fs.sth.contains o.seq)
    : Frozen s.fs (step.after r).fs ∧ (step.after r).InOrder := by
  refine ⟨?_, hr.files.keeps_backed hs.backed, ?_⟩
  . rcases h with h | h
    . simpa [step.after, h] using Frozen.refl s.fs
    . exact hr.files.frozen hs.backed h
  . rintro o' h'
    cases h'
    exact hr.onSegment

theorem step_spec (cfg : Config) (s : State) (input : Op × Env) (hs : s.InOrder)
    (h : ∀ o ∈ s.ing, o.writes cfg input.1 → ¬s.fs.sth.contains o.seq)
    : Frozen s.fs (step cfg s input).fs ∧ (step cfg s input).InOrder := by
  rcases s with ⟨fs, ing⟩
  rcases input with ⟨op, env⟩
  -- nothing is written, or the segment that is written to has no tree head
  have hquiet : ∀ o, ing = some o → o.writes cfg op = false ∨ ¬fs.sth.contains o.seq := by
    intro o ho
    cases hw : o.writes cfg op with
    | false => exact Or.inl rfl
    | true => exact Or.inr (h o ho hw)
  cases op with
  | reopen =>
    have hopen := openOrResume_spec cfg env fs hs.backed
    unfold step
    dsimp only
    split
    . next hr =>
      rw [hr] at hopen
      refine ⟨hopen.1, hopen.2.1, ?_⟩
      rintro o' h'
      cases h'
      exact hopen.2.2 _ rfl
    . next hr =>
      rw [hr] at hopen
      exact ⟨hopen.1, hopen.2.1, hs.onSegment⟩
  | append data =>
    cases ing with
    | none => exact ⟨Frozen.refl _, hs⟩
    | some o =>
      exact after_spec hs (confined_append cfg env fs data (hs.onSegment o rfl))
        ((hquiet o rfl).imp_left (append_fs_of_quiet cfg env fs data))
  | flush =>
    cases ing with
    | none => exact ⟨Frozen.refl _, hs⟩
    | some o =>
      exact after_spec hs (confined_flush cfg env fs (hs.onSegment o rfl))
        ((hquiet o rfl).imp_left (flush_fs_of_quiet cfg env fs))
  | «seal» minEntries =>
    cases ing with
    | none => exact ⟨Frozen.refl _, hs⟩
    | some o =>
      exact after_spec hs (confined_seal cfg env fs minEntries (hs.onSegment o rfl))
        ((hquiet o rfl).imp_left (seal_fs_of_quiet cfg env fs minEntries))
  | close sealIt =>
    cases ing with
    | none => exact ⟨Frozen.refl _, hs⟩
    | some o =>
      exact after_spec hs (confined_close cfg env fs sealIt (hs.onSegment o rfl))
        ((hquiet o rfl).imp_left (close_fs_of_quiet cfg env fs sealIt))

/-!
### How an object comes to a sealed segment
-/

/--
Nothing fails in `flush`.
-/
def Env.Flushes (cfg : Config) (env : Env) (o : Ingestor) : Prop :=
  o.buf.isEmpty ∨ o.fh.isSome ∧ env.append = .done ∧ (cfg.tipKey → env.tip)

/--
Nothing fails before the tree head is published, but something does before the object goes on to the
next segment.
-/
def Env.RaisesAfterSth (cfg : Config) (env : Env) : Prop :=
  env.leaves ∧ env.prevSth ∧ (cfg.backend.isSome → env.signSth) ∧
    (env.sth = .unsynced ∨
      env.sth = .done ∧ ((cfg.backend.isSome ∧ !env.signHead) ∨ env.head ≠ .done ∨ !env.close))

/--
The operation seals, and raises with the tree head published and the object still on its segment.
-/
def Ingestor.CutOff (cfg : Config) (env : Env) (o : Ingestor) : Op → Prop
  | .seal minEntries => sealing minEntries
  | .close sealIt => sealIt ∧ sealing 1
  | _ => False
where
  sealing (minEntries : Nat) : Prop :=
    max 1 minEntries ≤ o.idx ∧ env.Flushes cfg o ∧ env.RaisesAfterSth cfg

instance (cfg : Config) (env : Env) (o : Ingestor) (minEntries : Nat)
    : Decidable (Ingestor.CutOff.sealing cfg env o minEntries) := by
  unfold Ingestor.CutOff.sealing Env.Flushes Env.RaisesAfterSth
  infer_instance

instance (cfg : Config) (env : Env) (o : Ingestor) (op : Op)
    : Decidable (o.CutOff cfg env op) := by
  unfold Ingestor.CutOff
  split <;> infer_instance

/--
The current segment of the object has a tree head already.
-/
def State.Spoiled (s : State) : Prop := ∃ o ∈ s.ing, s.fs.sth.contains o.seq

/--
No segment above that of the object is sealed.
-/
def State.Ahead (s : State) : Prop := ∀ o ∈ s.ing, ∀ k, s.fs.sth.contains k → k ≤ o.seq

/--
The path that `_segments` lists last is that of the highest number. By text it is not from a million
segments on.
-/
def NewestLast (cfg : Config) (fs : Fs) : Prop :=
  ∀ p ∈ fs.segments.items, ∃ newest ∈ (segments cfg fs).getLast?, p.1 ≤ newest

instance (cfg : Config) (fs : Fs) : Decidable (NewestLast cfg fs) :=
  inferInstanceAs (Decidable (∀ p ∈ fs.segments.items, ∃ newest ∈ _, p.1 ≤ newest))

/--
The object stays, with a new tree head only if the operation was cut off, or it goes to the next
segment.
-/
def Result.Advances (r : Result α) (fs : Fs) (o : Ingestor) (cut : Prop) : Prop :=
  (r.ing.seq = o.seq ∧ (r.fs.sth.contains o.seq → fs.sth.contains o.seq ∨ cut)) ∨
    r.ing.seq = o.seq + 1

theorem flush_sth : (o.flush cfg env fs).fs.sth = fs.sth := by
  unfold Ingestor.flush
  split
  . rfl
  . split
    . rfl
    . split <;> rfl

theorem flush_idx : (o.flush cfg env fs).ing.idx = o.idx := by
  unfold Ingestor.flush
  split
  . rfl
  . split
    . rfl
    . split <;> rfl

theorem flushes_of_flush (h : (o.flush cfg env fs).result = .ok ()) : env.Flushes cfg o := by
  unfold Ingestor.flush at h
  split at h
  . next hempty => exact Or.inl hempty
  . split at h
    . simp at h
    . next hfh =>
      split at h
      . simp at h
      . simp at h
      . next happend =>
        refine Or.inr ⟨by rw [hfh]; rfl, happend, ?_⟩
        intro hkey
        cases htip : env.tip with
        | true => rfl
        | false => simp [hkey, htip] at h

theorem advances_flush (cut : Prop) : (o.flush cfg env fs).Advances fs o cut := by
  refine Or.inl ⟨flush_seq cfg env fs, ?_⟩
  rw [flush_sth]
  exact Or.inl

theorem advances_append (data : Python.Value) (cut : Prop)
    : (o.append cfg data env fs).Advances fs o cut := by
  unfold Ingestor.append
  split
  . exact Or.inl ⟨rfl, Or.inl⟩
  . next line selfHash _ =>
    dsimp only
    split
    . exact advances_flush cfg env fs (o := o.enqueue line selfHash) cut
    . exact Or.inl ⟨rfl, Or.inl⟩

/--
There is a tree head only if nothing fails on the way to it.
-/
theorem sthOf_eq_ok {sth : Json} (h : sthOf cfg env fs o = .ok sth)
    : env.leaves ∧ env.prevSth ∧ (cfg.backend.isSome → env.signSth) := by
  unfold sthOf at h
  dsimp only at h
  split at h
  . simp at h
  . next hleaves =>
    split at h
    . simp at h
    . next hprev =>
      refine ⟨?_, by simpa using hprev, ?_⟩
      . cases henv : env.leaves with
        | true => rfl
        | false => simp [henv] at hleaves
      . unfold signed at h
        split at h
        . next hbackend => simp [hbackend]
        . split at h
          . next hsign => exact fun _ => hsign
          . simp at h

theorem writeHead_raises {sth : Json} {fs' : Fs} {e : Error}
    (h : writeHead cfg env fs sth = (fs', .error e))
    : (cfg.backend.isSome ∧ !env.signHead) ∨ env.head ≠ .done := by
  unfold writeHead at h
  split at h
  . next hsigned =>
    left
    unfold signed at hsigned
    split at hsigned
    . simp at hsigned
    . split at hsigned
      . simp at hsigned
      . simp_all
  . right
    split at h <;> simp_all

theorem advances_sealFlushed (minEntries : Nat)
    : (o.sealFlushed cfg minEntries env fs).Advances fs o
        (max 1 minEntries ≤ o.idx ∧ env.RaisesAfterSth cfg) := by
  unfold Ingestor.sealFlushed
  split
  . exact Or.inl ⟨rfl, Or.inl⟩
  . next hidx =>
    have hidx := Nat.not_lt.mp hidx
    split
    . exact Or.inl ⟨rfl, Or.inl⟩
    . next sth hsth =>
      rcases sthOf_eq_ok cfg env fs hsth with ⟨hleaves, hprev, hsigned⟩
      split
      . exact Or.inl ⟨rfl, Or.inl⟩
      . next hunsynced =>
        exact Or.inl ⟨rfl, fun _ => Or.inr ⟨hidx, hleaves, hprev, hsigned, Or.inl hunsynced⟩⟩
      . next hdone =>
        have hcut : (cfg.backend.isSome ∧ !env.signHead) ∨ env.head ≠ .done ∨ !env.close →
            max 1 minEntries ≤ o.idx ∧ env.RaisesAfterSth cfg :=
          fun h => ⟨hidx, hleaves, hprev, hsigned, Or.inr ⟨hdone, h⟩⟩
        split
        . next hw =>
          refine Or.inl ⟨rfl, fun _ => Or.inr (hcut ?_)⟩
          rcases writeHead_raises cfg env _ hw with hsign | hhead
          . exact Or.inl hsign
          . exact Or.inr (Or.inl hhead)
        . unfold switchSegment
          split
          . next hclose =>
            exact Or.inl ⟨rfl, fun _ => Or.inr (hcut (Or.inr (Or.inr hclose)))⟩
          . right
            dsimp only
            split
            . rfl
            . split
              . rfl
              . split <;> rfl

theorem advances_seal (minEntries : Nat)
    : (o.seal cfg minEntries env fs).Advances fs o
        (o.CutOff cfg env (.seal minEntries)) := by
  unfold Ingestor.seal
  dsimp only
  split
  . exact advances_flush cfg env fs _
  . next hflush =>
    have hseal := advances_sealFlushed cfg env (o.flush cfg env fs).fs
      (o := (o.flush cfg env fs).ing) minEntries
    simp only [Result.Advances, flush_seq, flush_sth, flush_idx] at hseal
    refine hseal.imp_left fun h => ⟨h.1, fun hk => (h.2 hk).imp_right ?_⟩
    rintro ⟨hidx, hraises⟩
    exact ⟨hidx, flushes_of_flush cfg env fs hflush, hraises⟩

theorem advances_close (sealIt : Bool)
    : (o.close cfg sealIt env fs).Advances fs o (o.CutOff cfg env (.close sealIt)) := by
  cases sealIt with
  | true =>
    have h := advances_seal cfg env fs 1 (o := o)
    exact h.imp_left fun h => ⟨h.1, fun hk => (h.2 hk).imp_right fun hcut => ⟨rfl, hcut⟩⟩
  | false => exact advances_flush cfg env fs _

theorem openOrResume_sth : (openOrResume cfg env fs).1.sth = fs.sth := by
  have hopened : ∀ fs o, (openOrResume.opened env fs o).1.sth = fs.sth := by
    intro fs o
    unfold openOrResume.opened Fs.openSegment
    dsimp only
    repeat' split
    all_goals rfl
  unfold openOrResume
  split
  . exact hopened _ _
  . split
    . exact hopened _ _
    . split
      . rfl
      . split
        . rfl
        . exact hopened _ _

theorem opened_seq {o' : Ingestor} (h : (openOrResume.opened env fs o).2 = .ok o')
    : o'.seq = o.seq := by
  unfold openOrResume.opened at h
  split at h
  . simp at h
  . dsimp only at h
    split at h
    . simp at h
    . cases h
      rfl

/--
An object that was just made is on a segment that is open, above all that are sealed.
-/
theorem openOrResume_ahead (hfs : fs.Backed) (hnewest : NewestLast cfg fs)
    (h : (openOrResume cfg env fs).2 = .ok o)
    : ¬fs.sth.contains o.seq ∧ ∀ k, fs.sth.contains k → k ≤ o.seq := by
  have hlisted : ∀ k, fs.sth.contains k → ∃ newest ∈ (segments cfg fs).getLast?, k ≤ newest := by
    intro k hk
    rcases Option.isSome_iff_exists.mp (hfs k hk) with ⟨content, hcontent⟩
    exact hnewest (k, content) ((Dict.mem_items_iff _ _ _).mpr hcontent)
  unfold openOrResume at h
  split at h
  . next hnone =>
    have hempty : ∀ k, ¬fs.sth.contains k := by
      intro k hk
      rcases hlisted k hk with ⟨newest, hmem, _⟩
      simp [hnone] at hmem
    exact ⟨hempty _, fun k hk => absurd hk (hempty k)⟩
  . next newest hsome =>
    have hle : ∀ k, fs.sth.contains k → k ≤ newest := by
      intro k hk
      rcases hlisted k hk with ⟨newest', hmem, hle⟩
      rw [hsome, Option.mem_some_iff] at hmem
      exact hmem ▸ hle
    split at h
    . rw [opened_seq env fs h]
      refine ⟨?_, ?_⟩
      . intro hk
        have := hle _ hk
        simp at this
      . intro k hk
        exact Nat.le_succ_of_le (hle k hk)
    . next hunsealed =>
      split at h
      . simp at h
      . split at h
        . simp at h
        . rw [opened_seq env _ h]
          exact ⟨hunsealed, hle⟩

theorem after_advances {s : State} (hing : s.ing = some o) (hs : s.Ahead) {r : Result α}
    (hr : r.Confined o.seq s.fs) {cut : Prop} (hadvances : r.Advances s.fs o cut)
    : (step.after r).Ahead ∧ ((step.after r).Spoiled → s.Spoiled ∨ cut) := by
  have hold : ∀ k, k ≠ o.seq → r.fs.sth.contains k → k ≤ o.seq := by
    intro k hk hcontains
    rw [Dict.contains, hr.files.sth k hk] at hcontains
    exact hs o hing k hcontains
  have hseq : o.seq ≤ r.ing.seq := by
    rcases hadvances with ⟨hsame, _⟩ | hnext <;> omega
  constructor
  . rintro o' h' k hk
    cases h'
    by_cases hkseq : k = o.seq
    . exact hkseq ▸ hseq
    . exact Nat.le_trans (hold k hkseq hk) hseq
  . rintro ⟨o', h', hk⟩
    cases h'
    rcases hadvances with ⟨hsame, hraised⟩ | hnext
    . exact (hraised (hsame ▸ hk)).imp_left fun hpublished => ⟨o, hing, hpublished⟩
    . have := hold r.ing.seq (by omega) hk
      omega

/--
A reopening finds the newest segment last.
-/
def Ordered (cfg : Config) (s : State) (input : Op × Env) : Prop :=
  match input.1 with
  | .reopen => NewestLast cfg s.fs
  | _ => True

instance (cfg : Config) (s : State) (input : Op × Env) : Decidable (Ordered cfg s input) := by
  unfold Ordered
  split <;> infer_instance

/--
What the writer keeps when the newest segment is listed last.
-/
structure State.Tracked (s : State) : Prop extends s.InOrder where
  ahead : s.Ahead

def CutOff (cfg : Config) (s : State) (input : Op × Env) : Prop :=
  ∃ o ∈ s.ing, o.CutOff cfg input.2 input.1

instance (cfg : Config) (s : State) (input : Op × Env) : Decidable (CutOff cfg s input) :=
  inferInstanceAs (Decidable (∃ o ∈ s.ing, o.CutOff cfg input.2 input.1))

/--
The directory is opened again, and there is a new object.
-/
def Renews (cfg : Config) (s : State) (input : Op × Env) : Bool :=
  match input.1 with
  | .reopen => (openOrResume cfg input.2 s.fs).2.toBool
  | _ => false

theorem tracked_after {α : Type} {s : State} {o : Ingestor} {r : Result α} {cut : Prop}
    (hs : s.Tracked) (hing : s.ing = some o) (hr : r.Confined o.seq s.fs)
    (hadvances : r.Advances s.fs o cut)
    : ((step.after r).Spoiled → s.Spoiled ∨ cut) ∧ (step.after r).Tracked := by
  rcases after_advances hing hs.ahead hr hadvances with ⟨hahead, hspoiled⟩
  refine ⟨hspoiled, ⟨hr.files.keeps_backed hs.backed, ?_⟩, hahead⟩
  rintro o' h'
  cases h'
  exact hr.onSegment

theorem tracked_reopen (cfg : Config) (s : State) (env : Env) (hs : s.Tracked)
    (h : NewestLast cfg s.fs)
    : ((step cfg s (.reopen, env)).Spoiled →
          s.Spoiled ∧ Renews cfg s (.reopen, env) = false) ∧
        (step cfg s (.reopen, env)).Tracked := by
  rcases s with ⟨fs, ing⟩
  have hopen := openOrResume_spec cfg env fs hs.backed
  have hsth := openOrResume_sth cfg env fs
  unfold step
  dsimp only
  split
  -- the new object is on a segment without a tree head, and ahead of those that have one
  . next o hr =>
    have hmade := openOrResume_ahead cfg env fs (o := o) hs.backed h (by rw [hr])
    rw [hr] at hopen hsth
    dsimp only at hsth
    rw [← hsth] at hmade
    refine ⟨?_, ⟨hopen.2.1, ?_⟩, ?_⟩
    . rintro ⟨o', h', hk⟩
      cases h'
      exact absurd hk hmade.1
    . rintro o' h'
      cases h'
      exact hopen.2.2 o rfl
    . rintro o' h'
      cases h'
      exact hmade.2
  -- the constructor raised: the caller still has the object of before, if any
  . next hr =>
    have hfails : Renews cfg ⟨fs, ing⟩ (.reopen, env) = false := by
      simp [Renews, hr, Except.toBool]
    rw [hr] at hopen hsth
    dsimp only at hsth
    refine ⟨?_, ⟨hopen.2.1, hs.onSegment⟩, ?_⟩
    . rintro ⟨o, hing, hk⟩
      exact ⟨⟨o, hing, hsth ▸ hk⟩, hfails⟩
    . intro o hing k hk
      exact hs.ahead o hing k (hsth ▸ hk)

/--
An operation leaves its object on a sealed segment only if it is cut off, and the constructor never
does.
-/
theorem step_tracked (cfg : Config) (s : State) (input : Op × Env) (hs : s.Tracked)
    (h : Ordered cfg s input)
    : ((step cfg s input).Spoiled → (s.Spoiled ∧ Renews cfg s input = false) ∨ CutOff cfg s input) ∧
        (step cfg s input).Tracked := by
  rcases s with ⟨fs, ing⟩
  rcases input with ⟨op, env⟩
  have hobject : ∀ {α : Type} (o : Ingestor) (r : Result α), ing = some o →
      Renews cfg ⟨fs, ing⟩ (op, env) = false → r.Confined o.seq fs →
      r.Advances fs o (o.CutOff cfg env op) →
      ((step.after r).Spoiled →
        (State.Spoiled ⟨fs, ing⟩ ∧ Renews cfg ⟨fs, ing⟩ (op, env) = false) ∨
          CutOff cfg ⟨fs, ing⟩ (op, env)) ∧ (step.after r).Tracked := by
    intro α o r hing hkeeps hr hadvances
    rcases tracked_after hs hing hr hadvances with ⟨hspoiled, htracked⟩
    exact ⟨fun h => (hspoiled h).imp (⟨·, hkeeps⟩) (⟨o, hing, ·⟩), htracked⟩
  cases op with
  | reopen =>
    rcases tracked_reopen cfg ⟨fs, ing⟩ env hs h with ⟨hspoiled, htracked⟩
    exact ⟨fun h => Or.inl (hspoiled h), htracked⟩
  | append data =>
    cases ing with
    | none => exact ⟨fun h => Or.inl ⟨h, rfl⟩, hs⟩
    | some o =>
      exact hobject o _ rfl rfl (confined_append cfg env fs data (hs.onSegment o rfl))
        (advances_append cfg env fs data _)
  | flush =>
    cases ing with
    | none => exact ⟨fun h => Or.inl ⟨h, rfl⟩, hs⟩
    | some o =>
      exact hobject o _ rfl rfl (confined_flush cfg env fs (hs.onSegment o rfl))
        (advances_flush cfg env fs _)
  | «seal» minEntries =>
    cases ing with
    | none => exact ⟨fun h => Or.inl ⟨h, rfl⟩, hs⟩
    | some o =>
      exact hobject o _ rfl rfl (confined_seal cfg env fs minEntries (hs.onSegment o rfl))
        (advances_seal cfg env fs minEntries)
  | close sealIt =>
    cases ing with
    | none => exact ⟨fun h => Or.inl ⟨h, rfl⟩, hs⟩
    | some o =>
      exact hobject o _ rfl rfl (confined_close cfg env fs sealIt (hs.onSegment o rfl))
        (advances_close cfg env fs sealIt)

/--
`raised` says whether the object is one of which a `seal` was cut off.
-/
structure Watched where
  state : State
  raised : Bool

def Watched.start : Watched := ⟨.start, false⟩

def watch (cfg : Config) (w : Watched) (input : Op × Env) : Watched where
  state := step cfg w.state input
  raised := (w.raised && !Renews cfg w.state input) || decide (CutOff cfg w.state input)

/--
Nothing is written through an object of which a `seal` was cut off, and a reopening finds the newest
segment last.
-/
def Careful (cfg : Config) (w : Watched) (input : Op × Env) : Prop :=
  (w.raised → ∀ o ∈ w.state.ing, ¬o.writes cfg input.1) ∧ Ordered cfg w.state input

instance (cfg : Config) (w : Watched) (input : Op × Env) : Decidable (Careful cfg w input) :=
  inferInstanceAs (Decidable (_ ∧ _))

theorem run_watch (cfg : Config) (inputs : List (Op × Env)) (w : Watched)
    : (Runs.run (watch cfg) w inputs).state = Runs.run (step cfg) w.state inputs :=
  Runs.map_run Watched.state (fun _ _ => rfl) w inputs

/--
Only an object of which a `seal` was cut off is on a sealed segment.
-/
structure Watched.Sound (w : Watched) : Prop where
  tracked : w.state.Tracked
  raised : w.state.Spoiled → w.raised

theorem watch_spec (cfg : Config) (w : Watched) (input : Op × Env) (hw : w.Sound)
    (h : Careful cfg w input)
    : Frozen w.state.fs (watch cfg w input).state.fs ∧ (watch cfg w input).Sound := by
  rcases h with ⟨hraised, hordered⟩
  rcases step_tracked cfg w.state input hw.tracked hordered with ⟨hspoiled, htracked⟩
  have hunsealed : ∀ o ∈ w.state.ing, o.writes cfg input.1 →
      ¬w.state.fs.sth.contains o.seq :=
    fun o ho hwrites hsealed => hraised (hw.raised ⟨o, ho, hsealed⟩) o ho hwrites
  refine ⟨(step_spec cfg w.state input hw.tracked.toInOrder hunsealed).1, htracked, fun hs => ?_⟩
  rcases hspoiled hs with ⟨hold, hkeeps⟩ | hcut
  . simp [watch, hw.raised hold, hkeeps]
  . simp [watch, hcut]

/-!
### Sealed segments
-/

/--
When nothing is written through an object of which a `seal` raised after publishing the tree head,
until the directory is reopened, every tree head that is published stays, over the same segment.
-/
theorem run_frozen (cfg : Config) (inputs rest : List (Op × Env))
    (h : Runs.EachStep (watch cfg) (Careful cfg) .start (inputs ++ rest))
    : Frozen (Runs.run (step cfg) .start inputs).fs
        (Runs.run (step cfg) .start (inputs ++ rest)).fs := by
  have hstart : Watched.start.Sound :=
    ⟨⟨inOrder_start, by simp [State.Ahead, Watched.start, State.start]⟩,
      by simp [State.Spoiled, Watched.start, State.start]⟩
  have hsteps := (Runs.EachStep.invariant (watch_spec cfg) hstart h).1
  have hrun := Runs.EachStep.related (R := fun (v w : Watched) => Frozen v.state.fs w.state.fs)
    (fun w => Frozen.refl w.state.fs) (fun _ _ _ => Frozen.trans) hsteps
  rw [run_watch, run_watch] at hrun
  exact hrun

def smallArchive : Config :=
  { interp := ⟨1000, 1000, some 4300⟩, directory := txt "archive", batch := 1 }

def event (n : Int) : Op × Env := (.append (.dict [(.str (txt "n"), .int n)]), { now := txt "t" })

/--
The caller reopens the archive after a HEAD that could not be written.
-/
def reopenedRun : List (Op × Env) :=
  [(.reopen, {}), event 0, (.seal 1, { head := .notWritten }),
    (.reopen, {}), event 1, (.seal 1, {})]

theorem run_frozen_reopenedRun
    : Frozen (Runs.run (step smallArchive) .start (reopenedRun.take 3)).fs
        (Runs.run (step smallArchive) .start (reopenedRun.take 3 ++ reopenedRun.drop 3)).fs :=
  run_frozen smallArchive (reopenedRun.take 3) (reopenedRun.drop 3) (by decide +kernel)

/--
The caller goes on with the object whose `seal` raised, since HEAD could not be written.
-/
def spoiledRun : List (Op × Env) := [(.reopen, {}), event 0, (.seal 1, { head := .notWritten })]

theorem sealed_segment_grows
    : ¬Frozen (Runs.run (step smallArchive) .start spoiledRun).fs
        (Runs.run (step smallArchive) .start (spoiledRun ++ [event 1])).fs := by
  intro h
  exact absurd (h.segment (k := 0) (by decide +kernel)) (by decide +kernel)

end Ingest
end CryptoValid
