import CryptoValid.Ingest.Writer
import CryptoValid.Lib.Glob

/-!
This module contains how `Ingestor` and `verify_archive` find the segments of an archive: by a
pattern over the names in a directory, sorted as texts.
-/

namespace CryptoValid
namespace Ingest

open Glob (World)

/-!
### Paths
-/

/--
`os.path.join` for a name that is not absolute.
-/
def joinPath (d name : Str) : Str :=
  if d.isEmpty || d.getLast? = some 0x2f then d ++ name else d ++ 0x2f :: name

/--
`os.path.split`.
-/
def splitPath (p : Str) : Str × Str :=
  let base := (p.reverse.takeWhile (· ≠ 0x2f)).reverse
  let head := (p.reverse.dropWhile (· ≠ 0x2f)).reverse
  (if head.all (· = 0x2f) then head else (head.reverse.dropWhile (· = 0x2f)).reverse, base)

section

variable (cfg : Config)

/--
The directory of the segments, and how their names start. The last slash is in the directory or in
the prefix, since there is none after the prefix.
-/
def place : Str × Str :=
  splitPath (if cfg.segPrefix.head? = some 0x2f then cfg.segPrefix
    else joinPath cfg.directory cfg.segPrefix)

/--
The file of a segment: its directory and its name.
-/
def segFile (seq : Nat) : Str × Str :=
  ((place cfg).1, (place cfg).2 ++ txt "-" ++ pad6 seq ++ txt ".jsonl")

def segPattern : Str := (place cfg).2 ++ txt "-[0-9]*.jsonl"

/--
The text that the paths are sorted by.
-/
def pathText (p : Str × Str) : Str := joinPath p.1 p.2

def globbed (w : World) : List (Str × Str) := Glob.glob w (place cfg).1 (segPattern cfg)

/--
`sorted(glob.glob(...))`, in `_segments` and in `verify_archive`.
-/
def listing (w : World) : List (Str × Str) :=
  (globbed cfg w).insertionSort fun a b => pathText a ≤ pathText b

/--
`os.path.exists(path + ".sth.json")`.
-/
def hasSth (w : World) (p : Str × Str) : Bool := (w.names p.1).contains (p.2 ++ txt ".sth.json")

/--
What `verify_archive` walks through, and `_write_head` counts.
-/
def sealedSegments (w : World) : List (Str × Str) := (listing cfg w).filter (hasSth w)

/--
`int(os.path.basename(path).rsplit("-", 1)[1].split(".")[0])`, `none` stands for `ValueError`.
-/
def numberOf (p : Str × Str) : Option Int :=
  Python.int10? ((p.2.reverse.takeWhile (· ≠ 0x2d)).reverse.takeWhile (· ≠ 0x2e))

/--
The segment that a constructor goes on with or starts: `self._seq` of `_open_or_resume`.
-/
def openSeq (w : World) : Option Int :=
  match (listing cfg w).getLast? with
  | none => some 0
  | some p => if hasSth w p then (numberOf p).map (· + 1) else numberOf p

/-!
### Numbers of fixed width
-/

/--
The last `w` digits of a number.
-/
def lastDigits : (w n : Nat) → Str
  | 0, _ => []
  | w + 1, n => lastDigits w (n / 10) ++ [Json.digit (n % 10)]

theorem length_lastDigits (w n : Nat) : (lastDigits w n).length = w := by
  induction w generalizing n with
  | zero => rfl
  | succ w ih => simp [lastDigits, ih]

theorem lastDigits_zero (w : Nat) : lastDigits w 0 = List.replicate w 0x30 := by
  induction w with
  | zero => rfl
  | succ w ih => rw [lastDigits, ih, List.replicate_succ']; rfl

/--
A number with at most `w` digits, filled up with zeros.
-/
theorem lastDigits_eq (w n : Nat) (hw : 0 < w) (hn : n < 10 ^ w)
    : lastDigits w n
        =
      List.replicate (w - (Json.natText n).length) 0x30 ++ Json.natText n := by
  induction w generalizing n with
  | zero => omega
  | succ w ih =>
    rw [lastDigits, Json.natText]
    split
    . next hlt =>
      rw [Nat.div_eq_of_lt hlt, lastDigits_zero, Nat.mod_eq_of_lt hlt]
      simp
    . next hge =>
      have hn' : n / 10 < 10 ^ w := by
        rw [Nat.pow_succ] at hn
        omega
      have hw' : 0 < w := by
        by_contra h
        rw [Nat.eq_zero_of_not_pos h] at hn'
        omega
      rw [ih (n / 10) hw' hn']
      simp [Nat.add_sub_add_right]

theorem pad6_eq_lastDigits (seq : Nat) (h : seq < 10 ^ 6) : pad6 seq = lastDigits 6 seq := by
  rw [lastDigits_eq 6 seq (by omega) h, pad6]

theorem digit_lt_digit {m n : Nat} (hmn : m < n) (hn : n < 10) : Json.digit m < Json.digit n := by
  rw [Fin.lt_def, Json.digit, Json.digit, CodePoint.val_ofNat _ (by omega),
    CodePoint.val_ofNat _ (by omega)]
  omega

/--
A text that is smaller than one of the same length stays so whatever comes after.
-/
theorem append_lt_append {u v : Str} (hlength : u.length = v.length) (h : u < v) (x y : Str)
    : u ++ x < v ++ y := by
  induction u generalizing v with
  | nil =>
    rw [List.length_nil, eq_comm, List.length_eq_zero_iff] at hlength
    rw [hlength] at h
    exact absurd h (lt_irrefl _)
  | cons a u ih =>
    cases v with
    | nil => simp at hlength
    | cons b v =>
      rw [List.cons_lt_cons_iff] at h
      rw [List.cons_append, List.cons_append, List.cons_lt_cons_iff]
      rcases h with hab | ⟨hab, huv⟩
      . exact Or.inl hab
      . exact Or.inr ⟨hab, ih (by simpa using hlength) huv⟩

theorem lastDigits_lt (w : Nat) {m n : Nat} (hmn : m < n) (hn : n < 10 ^ w)
    : lastDigits w m < lastDigits w n := by
  induction w generalizing m n with
  | zero =>
    rw [Nat.pow_zero] at hn
    omega
  | succ w ih =>
    have hn' : n / 10 < 10 ^ w := by
      rw [Nat.pow_succ] at hn
      omega
    rw [lastDigits, lastDigits]
    rcases Nat.lt_or_ge (m / 10) (n / 10) with hlt | hge
    . exact append_lt_append (by rw [length_lastDigits, length_lastDigits]) (ih hlt hn') _ _
    . have heq : m / 10 = n / 10 := by omega
      rw [heq]
      apply List.append_left_lt
      rw [List.cons_lt_cons_iff]
      exact Or.inl (digit_lt_digit (by omega) (by omega))

/-!
### Order
-/

/--
The path of a file starts with its directory.
-/
theorem pathText_eq (d : Str) : ∃ front, ∀ name, pathText (d, name) = front ++ name := by
  by_cases h : d.isEmpty || d.getLast? = some 0x2f
  . exact ⟨d, fun name => by rw [pathText, joinPath, if_pos h]⟩
  . exact ⟨d ++ [0x2f], fun name => by rw [pathText, joinPath, if_neg h]; simp⟩

theorem pathText_segFile : ∃ front, ∀ seq,
    pathText (segFile cfg seq) = front ++ (pad6 seq ++ txt ".jsonl") := by
  rcases pathText_eq (place cfg).1 with ⟨front, hfront⟩
  exact ⟨front ++ ((place cfg).2 ++ txt "-"), fun seq => by rw [segFile, hfront]; simp⟩

/--
Up to a million segments the order of the texts is that of the numbers.
-/
theorem pathText_segFile_lt {m n : Nat} (hmn : m < n) (hn : n < 10 ^ 6)
    : pathText (segFile cfg m) < pathText (segFile cfg n) := by
  rcases pathText_segFile cfg with ⟨front, hfront⟩
  rw [hfront, hfront, pad6_eq_lastDigits m (by omega), pad6_eq_lastDigits n hn]
  apply List.append_left_lt
  exact append_lt_append (by rw [length_lastDigits, length_lastDigits]) (lastDigits_lt 6 hmn hn) _ _

/--
The first number with seven digits is before some with six.
-/
theorem pathText_segFile_million
    : pathText (segFile cfg 1000000) < pathText (segFile cfg 100001) := by
  rcases pathText_segFile cfg with ⟨front, hfront⟩
  have hmillion : pad6 1000000 = txt "1000000" := by decide +kernel
  rw [hfront, hfront, hmillion, pad6_eq_lastDigits 100001 (by omega)]
  apply List.append_left_lt
  decide

/--
The files of the segments that an archive has, in the order of their numbers.
-/
def segFiles (count : Nat) : List (Str × Str) := (List.range count).map (segFile cfg)

theorem pairwise_segFiles_iff (count : Nat)
    : (segFiles cfg count).Pairwise (fun a b => pathText a ≤ pathText b) ↔ count ≤ 10 ^ 6 := by
  rw [segFiles, List.pairwise_map]
  constructor
  . intro h
    by_contra hcount
    rw [List.pairwise_iff_getElem] at h
    have hle := h 100001 1000000 (by rw [List.length_range]; omega)
      (by rw [List.length_range]; omega) (by omega)
    rw [List.getElem_range, List.getElem_range] at hle
    exact absurd (pathText_segFile_million cfg) (not_lt.mpr hle)
  . intro hcount
    refine List.pairwise_lt_range.imp_of_mem fun {a b} _ hb hab => ?_
    rw [List.mem_range] at hb
    exact (pathText_segFile_lt cfg hab (by omega)).le

theorem isDigit_pad6 (seq : Nat) : ∀ c ∈ pad6 seq, Json.isDigit c = true := by
  intro c hc
  rcases List.mem_append.mp hc with hc | hc
  . rw [List.eq_of_mem_replicate hc]
    rfl
  . exact Json.natText_isDigit seq c hc

theorem natOfText_pad6 (seq : Nat) : Json.natOfText (pad6 seq) = seq := by
  have hzeros : ∀ k, (List.replicate k (0x30 : CodePoint)).foldl
      (fun n c => 10 * n + (c.val - 48)) 0 = 0 := by
    intro k
    induction k with
    | zero => rfl
    | succ k ih => exact ih
  have hnumber := Json.natOfText_natText seq
  rw [Json.natOfText] at hnumber
  rw [pad6, Json.natOfText, List.foldl_append, hzeros, hnumber]

theorem takeWhile_append_cons {p : CodePoint → Bool} {s : Str} {c : CodePoint}
    (hs : ∀ x ∈ s, p x = true) (hc : p c = false) (t : Str) : (s ++ c :: t).takeWhile p = s := by
  rw [List.takeWhile_append_of_pos hs, List.takeWhile_cons_of_neg (by simp [hc]), List.append_nil]

/--
The number in the name of a segment is read back, however long it is.
-/
theorem numberOf_segFile (seq : Nat) : numberOf (segFile cfg seq) = some (seq : Int) := by
  have hdash : ∀ c ∈ (pad6 seq ++ txt ".jsonl").reverse, decide (c ≠ 0x2d) = true := by
    intro c hc
    rw [List.mem_reverse, List.mem_append] at hc
    rcases hc with hc | hc
    . exact decide_eq_true (Python.toAscii_of_isDigit (isDigit_pad6 seq c hc)).2.2.1
    . exact List.all_eq_true.mp (show (txt ".jsonl").all (· ≠ 0x2d) by decide) c hc
  have hdot : ∀ c ∈ pad6 seq, decide (c ≠ 0x2e) = true := by
    intro c hc
    have hdigit := isDigit_pad6 seq c hc
    rw [decide_eq_true_eq]
    rintro rfl
    simp [Json.isDigit] at hdigit
  have hname : (segFile cfg seq).2.reverse
      = (pad6 seq ++ txt ".jsonl").reverse ++ 0x2d :: (place cfg).2.reverse := by
    simp [segFile, txt, CodePoint.ofChar, CodePoint.ofNat]
  rw [numberOf, hname, takeWhile_append_cons hdash (by decide), List.reverse_reverse,
    show txt ".jsonl" = 0x2e :: txt "jsonl" from rfl, takeWhile_append_cons hdot (by decide),
    Python.int10?_of_isDigit ?_ (isDigit_pad6 seq), natOfText_pad6]
  simp [pad6, Json.natText_ne_nil]

/-!
### Archives
-/

/--
The listing has the segments of the archive in the order of their numbers, `verify_archive` walks
through the sealed ones in this order, and a constructor goes on with the last segment, or after it
if it is sealed.
-/
structure InOrder (w : World) (count : Nat) : Prop where
  listing : listing cfg w = segFiles cfg count
  sealedSegments : sealedSegments cfg w = (segFiles cfg count).filter (hasSth w)
  openSeq : openSeq cfg w = some
    (if count = 0 then 0 else if hasSth w (segFile cfg (count - 1)) then count else count - 1)

/--
A file whose name the pattern matches, in a directory that the path of the pattern leads to. A first
dot hides a name from a pattern that has none.
-/
structure Selected (w : World) (p : Str × Str) : Prop where
  dir : p.1 ∈ Glob.dirs w (place cfg).1
  name : p.2 ∈ w.names p.1
  visible : Glob.isHidden (segPattern cfg) ∨ Glob.isHidden p.2 = false
  fnmatch : Glob.fnmatch p.2 (segPattern cfg)

/--
The pattern selects the segments of the archive.
-/
def SelectsOwn (w : World) (count : Nat) : Prop := ∀ seq < count, Selected cfg w (segFile cfg seq)

/--
The pattern selects nothing else, neither under another name nor in another directory.
-/
def SelectsNoOther (w : World) (count : Nat) : Prop :=
  ∀ p, Selected cfg w p → ∃ seq < count, p = segFile cfg seq

end

section

variable {cfg : Config}

theorem mem_segFiles {count : Nat} {p : Str × Str}
    : p ∈ segFiles cfg count ↔ ∃ seq < count, p = segFile cfg seq := by
  simp [segFiles, eq_comm]

theorem injective_segFile : Function.Injective (segFile cfg) := by
  intro a b hab
  have hnumber := numberOf_segFile cfg a
  rw [hab, numberOf_segFile] at hnumber
  exact (Int.ofNat.inj (Option.some.inj hnumber)).symm

theorem nodup_segFiles (count : Nat) : (segFiles cfg count).Nodup :=
  List.nodup_range.map injective_segFile

theorem mem_globbed (w : World) (p : Str × Str) : p ∈ globbed cfg w ↔ Selected cfg w p := by
  rcases p with ⟨d, name⟩
  rw [globbed, Glob.mem_glob]
  constructor
  . rintro ⟨hdir, hname, hvisible, hmatch⟩
    exact ⟨hdir, hname, hvisible, hmatch⟩
  . rintro ⟨hdir, hname, hvisible, hmatch⟩
    exact ⟨hdir, hname, hvisible, hmatch⟩

theorem nodup_globbed (w : World) : (globbed cfg w).Nodup := Glob.nodup_glob w _ _

theorem perm_listing (w : World) : (listing cfg w).Perm (globbed cfg w) :=
  List.perm_insertionSort _ _

theorem pairwise_listing (w : World)
    : (listing cfg w).Pairwise fun a b => pathText a ≤ pathText b := by
  have : Std.Total fun a b : Str × Str => pathText a ≤ pathText b :=
    ⟨fun a b => le_total (pathText a) (pathText b)⟩
  have : IsTrans (Str × Str) fun a b => pathText a ≤ pathText b := ⟨fun a b c => le_trans⟩
  exact List.pairwise_insertionSort _ _

theorem segFile_eq_of_pathText_eq {m n : Nat}
    (h : pathText (segFile cfg m) = pathText (segFile cfg n)) : segFile cfg m = segFile cfg n := by
  rcases pathText_eq (place cfg).1 with ⟨front, hfront⟩
  rw [segFile, segFile, hfront, hfront, List.append_cancel_left_eq] at h
  rw [segFile, segFile, h]

theorem listing_eq_iff (w : World) (count : Nat)
    : listing cfg w = segFiles cfg count
        ↔
      count ≤ 10 ^ 6 ∧ SelectsOwn cfg w count ∧ SelectsNoOther cfg w count := by
  constructor
  . intro h
    have hmem : ∀ p, p ∈ globbed cfg w ↔ p ∈ segFiles cfg count := by
      intro p
      rw [← h]
      exact (perm_listing w).mem_iff.symm
    refine ⟨?_, ?_, ?_⟩
    . rw [← pairwise_segFiles_iff cfg, ← h]
      exact pairwise_listing w
    . intro seq hseq
      exact (mem_globbed w _).mp ((hmem _).mpr (mem_segFiles.mpr ⟨seq, hseq, rfl⟩))
    . intro p hp
      exact mem_segFiles.mp ((hmem p).mp ((mem_globbed w p).mpr hp))
  . rintro ⟨hcount, hown, hother⟩
    have hperm : (listing cfg w).Perm (segFiles cfg count) := by
      refine (perm_listing w).trans ?_
      rw [List.perm_ext_iff_of_nodup (nodup_globbed w) (nodup_segFiles count)]
      intro p
      rw [mem_segFiles, mem_globbed]
      constructor
      . exact hother p
      . rintro ⟨seq, hseq, rfl⟩
        exact hown seq hseq
    refine hperm.eq_of_pairwise ?_ (pairwise_listing w)
      ((pairwise_segFiles_iff cfg count).mpr hcount)
    intro a b ha hb hab hba
    rcases mem_segFiles.mp (hperm.mem_iff.mp ha) with ⟨m, _, rfl⟩
    rcases mem_segFiles.mp hb with ⟨n, _, rfl⟩
    exact segFile_eq_of_pathText_eq (le_antisymm hab hba)

theorem openSeq_of_listing {w : World} {count : Nat} (h : listing cfg w = segFiles cfg count)
    : openSeq cfg w = some
        (if count = 0 then 0
          else if hasSth w (segFile cfg (count - 1)) then count else count - 1) := by
  rw [openSeq, h]
  cases count with
  | zero => rfl
  | succ n =>
    rw [segFiles, List.range_succ, List.map_append, List.map_singleton, List.getLast?_concat]
    dsimp only
    rw [numberOf_segFile, if_neg (Nat.succ_ne_zero n), Nat.add_sub_cancel, Option.map_some]
    split
    . rfl
    . simp

/--
An archive is listed in order exactly if it has at most a million segments, and the pattern selects
its segments and nothing else.
-/
theorem inOrder_iff_selected (cfg : Config) (w : World) (count : Nat)
    : InOrder cfg w count
        ↔
      count ≤ 10 ^ 6 ∧ SelectsOwn cfg w count ∧ SelectsNoOther cfg w count := by
  constructor
  . intro h
    exact (listing_eq_iff w count).mp h.listing
  . intro h
    have hlisting := (listing_eq_iff w count).mpr h
    exact ⟨hlisting, by rw [sealedSegments, hlisting], openSeq_of_listing hlisting⟩

end

/-!
### Plain names
-/

/--
No metacharacters in the directory or the prefix.
-/
def Plain (cfg : Config) : Prop := Glob.hasMagic ((place cfg).1 ++ (place cfg).2) = false

/--
The name of a segment as far as the pattern looks at it: the prefix, a dash, a digit, anything, and
`.jsonl`.
-/
def LooksLikeSegment (cfg : Config) (name : Str) : Prop :=
  ∃ c rest, Json.isDigit c ∧ name = (place cfg).2 ++ txt "-" ++ c :: rest ++ txt ".jsonl"

theorem Plain.place {cfg : Config} (h : Plain cfg)
    : Glob.hasMagic (place cfg).1 = false ∧ Glob.hasMagic (place cfg).2 = false := by
  rwa [Plain, Glob.hasMagic, List.any_append, Bool.or_eq_false_iff] at h

theorem inClass_digits (c : CodePoint) : Glob.inClass (txt "0-9") c = Json.isDigit c := by
  show ((0x30 ≤ c && c ≤ 0x39) || Glob.inClass [] c) = _
  rw [Glob.inClass, Bool.or_false]
  rfl

theorem fnmatch_segPattern_iff {cfg : Config} (h : Plain cfg) (name : Str)
    : Glob.fnmatch name (segPattern cfg) ↔ LooksLikeSegment cfg name := by
  have hitems : Glob.parse (txt "-[0-9]*.jsonl")
      = (txt "-").map .lit ++ .cls false (txt "0-9") :: .star :: (txt ".jsonl").map .lit := by
    decide
  rw [Glob.fnmatch, segPattern, Glob.parse_append h.place.2, hitems, Glob.matchItems_lit]
  constructor
  . rintro ⟨t, rfl, ht⟩
    rw [Glob.matchItems_lit] at ht
    rcases ht with ⟨t, rfl, ht⟩
    cases t with
    | nil => simp [Glob.matchItems] at ht
    | cons c t =>
      rw [Glob.matchItems, inClass_digits, Bool.and_eq_true, Glob.matchItems_star] at ht
      rcases ht with ⟨hdigit, u, v, rfl, hv⟩
      rw [← List.append_nil (List.map _ (txt ".jsonl")), Glob.matchItems_lit] at hv
      rcases hv with ⟨v, rfl, hv⟩
      rw [Glob.matchItems_nil] at hv
      exact ⟨c, u, by simpa using hdigit, by simp [hv]⟩
  . rintro ⟨c, rest, hdigit, rfl⟩
    refine ⟨txt "-" ++ c :: rest ++ txt ".jsonl", by simp, ?_⟩
    rw [List.append_assoc, Glob.matchItems_lit]
    refine ⟨c :: rest ++ txt ".jsonl", rfl, ?_⟩
    rw [List.cons_append, Glob.matchItems, inClass_digits, Bool.and_eq_true, Glob.matchItems_star]
    refine ⟨by simp [hdigit], rest, txt ".jsonl", rfl, ?_⟩
    rw [← List.append_nil (List.map _ (txt ".jsonl")), Glob.matchItems_lit]
    exact ⟨[], by simp, (Glob.matchItems_nil []).mpr rfl⟩

theorem looksLikeSegment_segFile (cfg : Config) (seq : Nat)
    : LooksLikeSegment cfg (segFile cfg seq).2 := by
  have hne : pad6 seq ≠ [] := by simp [pad6, Json.natText_ne_nil]
  rcases List.exists_cons_of_ne_nil hne with ⟨c, rest, heq⟩
  refine ⟨c, rest, isDigit_pad6 seq c (by simp [heq]), ?_⟩
  rw [segFile, heq]

/--
A pattern starts with a dot if the names that look like segments do.
-/
theorem visible_of_looksLikeSegment {cfg : Config} {name : Str} (h : LooksLikeSegment cfg name)
    : Glob.isHidden (segPattern cfg) ∨ Glob.isHidden name = false := by
  rcases h with ⟨c, rest, _, rfl⟩
  rw [Glob.isHidden, Glob.isHidden, segPattern]
  cases (place cfg).2 with
  | nil => exact Or.inr rfl
  | cons b base =>
    by_cases hb : b = 0x2e
    . simp [hb]
    . simp [hb]

/--
With a plain directory and prefix, what matters is that no other name in the directory looks like a
segment.
-/
theorem inOrder_iff_of_plain {cfg : Config} (h : Plain cfg) (w : World) (count : Nat)
    (hthere : ∀ seq < count, (segFile cfg seq).2 ∈ w.names (place cfg).1)
    : InOrder cfg w count
        ↔
      count ≤ 10 ^ 6 ∧ ∀ name ∈ w.names (place cfg).1, LooksLikeSegment cfg name →
        ∃ seq < count, name = (segFile cfg seq).2 := by
  have hdirs : Glob.dirs w (place cfg).1 = [(place cfg).1] := by
    rw [Glob.dirs, h.place.1]
    rfl
  have hselected : ∀ d name, Selected cfg w (d, name)
      ↔ d = (place cfg).1 ∧ name ∈ w.names d ∧ LooksLikeSegment cfg name := by
    intro d name
    constructor
    . rintro ⟨hdir, hname, _, hmatch⟩
      rw [hdirs, List.mem_singleton] at hdir
      exact ⟨hdir, hname, (fnmatch_segPattern_iff h name).mp hmatch⟩
    . rintro ⟨rfl, hname, hlooks⟩
      refine ⟨by simp [hdirs], hname, visible_of_looksLikeSegment hlooks, ?_⟩
      exact (fnmatch_segPattern_iff h name).mpr hlooks
  have hown : SelectsOwn cfg w count := fun seq hseq =>
    (hselected _ _).mpr ⟨rfl, hthere seq hseq, looksLikeSegment_segFile cfg seq⟩
  rw [inOrder_iff_selected]
  constructor
  . rintro ⟨hcount, _, hother⟩
    refine ⟨hcount, fun name hname hlooks => ?_⟩
    rcases hother ((place cfg).1, name) ((hselected _ _).mpr ⟨rfl, hname, hlooks⟩) with
      ⟨seq, hseq, heq⟩
    exact ⟨seq, hseq, congrArg Prod.snd heq⟩
  . rintro ⟨hcount, hother⟩
    refine ⟨hcount, hown, fun p hp => ?_⟩
    rcases p with ⟨d, name⟩
    rcases (hselected d name).mp hp with ⟨rfl, hname, hlooks⟩
    rcases hother name hname hlooks with ⟨seq, hseq, rfl⟩
    exact ⟨seq, hseq, rfl⟩

/--
When an archive is listed in order: the condition on what the pattern selects, and what it comes to
for a plain directory and prefix.
-/
theorem inOrder_iff (cfg : Config) (w : World) (count : Nat)
    : (InOrder cfg w count
          ↔
        count ≤ 10 ^ 6 ∧ SelectsOwn cfg w count ∧ SelectsNoOther cfg w count) ∧
      (Plain cfg → (∀ seq < count, (segFile cfg seq).2 ∈ w.names (place cfg).1) →
        (InOrder cfg w count
            ↔
          count ≤ 10 ^ 6 ∧ ∀ name ∈ w.names (place cfg).1, LooksLikeSegment cfg name →
            ∃ seq < count, name = (segFile cfg seq).2)) :=
  ⟨inOrder_iff_selected cfg w count, fun h hthere => inOrder_iff_of_plain h w count hthere⟩

/-!
### The listing of the writer
-/

/--
A directory that is written without a slash at its end, and a prefix that names no directory.
-/
structure PlainPath (cfg : Config) : Prop where
  nonempty : cfg.directory ≠ []
  noSlashAtEnd : cfg.directory.getLast? ≠ some 0x2f
  noSlash : 0x2f ∉ cfg.segPrefix

theorem place_of_plainPath {cfg : Config} (h : PlainPath cfg)
    : place cfg = (cfg.directory, cfg.segPrefix) := by
  rcases List.eq_nil_or_concat' cfg.directory with hnil | ⟨front, last, hdir⟩
  . exact absurd hnil h.nonempty
  . have hlast : last ≠ 0x2f := by
      have hend := h.noSlashAtEnd
      rw [hdir, List.getLast?_concat] at hend
      exact fun heq => hend (congrArg some heq)
    have hhead : cfg.segPrefix.head? ≠ some 0x2f := fun heq => h.noSlash (List.mem_of_mem_head? heq)
    have hjoin : joinPath cfg.directory cfg.segPrefix = cfg.directory ++ 0x2f :: cfg.segPrefix := by
      rw [joinPath, if_neg]
      simp [h.nonempty, h.noSlashAtEnd]
    have hreverse : (cfg.directory ++ 0x2f :: cfg.segPrefix).reverse
        = cfg.segPrefix.reverse ++ 0x2f :: cfg.directory.reverse := by simp
    have hbase : ∀ c ∈ cfg.segPrefix.reverse, decide (c ≠ 0x2f) = true := by
      intro c hc
      rw [decide_eq_true_eq]
      rintro rfl
      exact h.noSlash (List.mem_reverse.mp hc)
    have hdrop : (cfg.segPrefix.reverse ++ 0x2f :: cfg.directory.reverse).dropWhile (· ≠ 0x2f)
        = 0x2f :: cfg.directory.reverse := by
      rw [List.dropWhile_append_of_pos hbase, List.dropWhile_cons_of_neg (by decide)]
    rw [place, if_neg hhead, hjoin, splitPath, hreverse,
      takeWhile_append_cons hbase (by decide), hdrop, hdir]
    simp [hlast]

theorem pathText_segFile_of_plainPath {cfg : Config} (h : PlainPath cfg) (seq : Nat)
    : pathText (segFile cfg seq) = segPath cfg seq := by
  rw [segFile, place_of_plainPath h, pathText, joinPath, if_neg, segPath, segName]
  . simp [txt, CodePoint.ofChar, CodePoint.ofNat]
  . simp [h.nonempty, h.noSlashAtEnd]

/--
On a disk that has the writer's segments and no other file that the pattern selects, the listing is
that of the writer, which knows segments by their numbers.
-/
theorem listing_eq_map_segments {cfg : Config} (hpath : PlainPath cfg)
    (hmagic : hasMagic (cfg.directory ++ cfg.segPrefix) = false) (fs : Fs) (w : World)
    (hfiles : ∀ p, Selected cfg w p ↔ ∃ seq, fs.segments.contains seq ∧ p = segFile cfg seq)
    : listing cfg w = (segments cfg fs).map (segFile cfg) := by
  have hsegments : segments cfg fs
      = (fs.segments.items.map Prod.fst).insertionSort
          fun a b => segPath cfg a ≤ segPath cfg b := by
    rw [segments, hmagic]
    rfl
  have hperm : (listing cfg w).Perm ((segments cfg fs).map (segFile cfg)) := by
    rw [hsegments]
    refine (perm_listing w).trans (List.Perm.trans ?_ ((List.perm_insertionSort _ _).map _).symm)
    rw [List.perm_ext_iff_of_nodup (nodup_globbed w) (fs.segments.nodup.map injective_segFile)]
    intro p
    rw [mem_globbed, hfiles, List.mem_map]
    refine exists_congr fun seq => ?_
    rw [Dict.contains, Dict.get?, Option.isSome_iff_ne_none, ne_eq, Assoc.lookup_eq_none_iff,
      not_not, @eq_comm _ p]
  refine hperm.eq_of_pairwise ?_ (pairwise_listing w) ?_
  . intro a b ha hb hab hba
    rcases List.mem_map.mp (hperm.mem_iff.mp ha) with ⟨m, _, rfl⟩
    rcases List.mem_map.mp hb with ⟨n, _, rfl⟩
    exact segFile_eq_of_pathText_eq (le_antisymm hab hba)
  . rw [List.pairwise_map, hsegments]
    simp only [pathText_segFile_of_plainPath hpath]
    have : Std.Total fun a b => segPath cfg a ≤ segPath cfg b :=
      ⟨fun a b => le_total (segPath cfg a) (segPath cfg b)⟩
    have : IsTrans Nat fun a b => segPath cfg a ≤ segPath cfg b := ⟨fun a b c => le_trans⟩
    exact List.pairwise_insertionSort _ _

/-!
An archive with one sealed segment, next to one with the prefix `ledger-2`.
-/

def exampleConfig : Config where
  interp := ⟨1000, 1000, some 4300⟩
  directory := txt "archive"

def exampleWorld : World where
  names d :=
    if d = txt "archive" then
      [txt "ledger-000000.jsonl", txt "ledger-000000.jsonl.sth.json", txt "ledger-2-000000.jsonl"]
    else
      []
  expand _ := []
  nodup_names d := by
    split
    . decide
    . exact List.nodup_nil
  nodup_expand _ := List.nodup_nil

theorem inOrder_iff_exampleWorld
    : InOrder exampleConfig exampleWorld 1
        ↔
      1 ≤ 10 ^ 6 ∧ ∀ name ∈ exampleWorld.names (place exampleConfig).1,
        LooksLikeSegment exampleConfig name → ∃ seq < 1, name = (segFile exampleConfig seq).2 :=
  (inOrder_iff exampleConfig exampleWorld 1).2 (by rw [Plain]; decide +kernel) (by decide +kernel)

/--
The archive is listed with the segment of the other one, and the constructor goes on with number 0,
whose segment is sealed.
-/
theorem sealed_number_reused
    : hasSth exampleWorld (segFile exampleConfig 0) ∧
        listing exampleConfig exampleWorld
          = [segFile exampleConfig 0, (txt "archive", txt "ledger-2-000000.jsonl")] ∧
        openSeq exampleConfig exampleWorld = some 0 ∧ ¬InOrder exampleConfig exampleWorld 1 := by
  refine ⟨by decide +kernel, by decide +kernel, by decide +kernel, fun h => ?_⟩
  have hlisting := h.listing
  revert hlisting
  decide +kernel

end Ingest
end CryptoValid
