import CryptoValid.Lib.Cbor
import CryptoValid.Lib.Except

/-!
This module contains that what is encoded is decoded again, a map with its entries in the order of
their encoded keys.
-/

namespace List

variable {α β : Type} {R : α → β → Prop} {r : α → α → Prop} {s : β → β → Prop} [DecidableRel r]
  [DecidableRel s]

/--
Related lists that are sorted alike stay related.
-/
theorem forall₂_insertionSort (hrs : ∀ {a b c d}, R a b → R c d → (r a c ↔ s b d))
    {xs : List α} {ys : List β} (h : Forall₂ R xs ys)
    : Forall₂ R (xs.insertionSort r) (ys.insertionSort s) := by
  have hinsert : ∀ {a b} {xs : List α} {ys : List β}, R a b → Forall₂ R xs ys →
      Forall₂ R (xs.orderedInsert r a) (ys.orderedInsert s b) := by
    intro a b xs ys hab h
    induction h with
    | nil => exact .cons hab .nil
    | @cons c d xs ys hcd hrest ih =>
      rw [List.orderedInsert_cons, List.orderedInsert_cons]
      by_cases hle : r a c
      . rw [if_pos hle, if_pos ((hrs hab hcd).mp hle)]
        exact .cons hab (.cons hcd hrest)
      . rw [if_neg hle, if_neg (mt (hrs hab hcd).mpr hle)]
        exact .cons hcd ih
  induction h with
  | nil => exact .nil
  | cons hab _ ih =>
    rw [List.insertionSort_cons, List.insertionSort_cons]
    exact hinsert hab ih

end List

namespace Utf8

theorem decode?_of_encode? {s : Str} {b : Bytes} (h : encode? s = some b) : decode? b = some s := by
  have hscalar : Str.Scalar s := by
    by_contra hnot
    simp [encode?, hnot] at h
  rw [encode?_eq_some h]
  exact decodeWith_flatMap_encodePoint _ _ _ (Or.inr hscalar)

end Utf8

namespace Cbor

/-!
### Heads
-/

/--
A value reads back from some bytes, wherever they stand.
-/
def ReadsAs (room : Nat) (b : Bytes) (v : Cbor) : Prop :=
  ∀ pre post : Bytes, rd (pre ++ (b ++ post)) room pre.length = .ok (v, pre.length + b.length)

theorem natOfBytes_append_singleton (b : Bytes) (x : UInt8)
    : natOfBytes (b ++ [x]) = natOfBytes b * 256 + x.toNat := by
  simp [natOfBytes]

theorem natOfBytes_beBytes (count n : Nat) (h : n < 256 ^ count)
    : natOfBytes (beBytes count n) = n := by
  induction count generalizing n with
  | zero =>
    have hzero : n = 0 := by simpa using h
    rw [hzero]
    rfl
  | succ count ih =>
    have hlt : n / 256 < 256 ^ count := by
      rw [Nat.div_lt_iff_lt_mul (by omega)]
      rwa [Nat.pow_succ] at h
    rw [beBytes, natOfBytes_append_singleton, ih _ hlt, UInt8.toNat_ofNat']
    omega

theorem slice_append (pre b post : Bytes) : slice (pre ++ (b ++ post)) pre.length b.length = b := by
  rw [slice, List.drop_left, List.take_left]

theorem slice_of_eq {B b : Bytes} {i n : Nat} (pre post : Bytes) (hB : B = pre ++ (b ++ post))
    (hi : i = pre.length) (hn : n = b.length) : slice B i n = b := by
  rw [hB, hi, hn, slice_append]

/--
The first byte of a head, and the argument that is read after it.
-/
structure Head (major n : Nat) (hb : Bytes) : Prop where
  reads : ∀ pre post : Bytes, ∃ ib, byteAt (pre ++ (hb ++ post)) pre.length = .ok ib ∧
    ib.toNat / 32 = major ∧
    argument (pre ++ (hb ++ post)) (ib.toNat % 32) (pre.length + 1) = .ok (n, pre.length + hb.length)

theorem byteAt_append (pre : Bytes) (x : UInt8) (post : Bytes)
    : byteAt (pre ++ (x :: post)) pre.length = .ok x := by
  simp [byteAt]

/--
A head whose argument takes `count` bytes.
-/
theorem head_of_count {major n info count : Nat} (hmajor : major < 6)
    (hcase : info = 25 ∧ count = 2 ∨ info = 26 ∧ count = 4 ∨ info = 27 ∧ count = 8)
    (hn : n < 256 ^ count)
    : Head major n (UInt8.ofNat (major * 32 + info) :: beBytes count n) := by
  have hinfo : info < 32 := by omega
  refine ⟨fun pre post => ⟨_, byteAt_append .., ?_, ?_⟩⟩
  . rw [UInt8.toNat_ofNat']
    omega
  . have hslice : slice (pre ++ (UInt8.ofNat (major * 32 + info) :: beBytes count n ++ post))
        (pre.length + 1) count = beBytes count n := by
      refine slice_of_eq (pre ++ [UInt8.ofNat (major * 32 + info)]) post ?_ ?_ ?_
      . simp
      . simp
      . rw [length_beBytes]
    have hmod : (UInt8.ofNat (major * 32 + info)).toNat % 32 = info := by
      rw [UInt8.toNat_ofNat']
      omega
    have hvalue := natOfBytes_beBytes count n hn
    rw [hmod, argument, List.length_cons, length_beBytes]
    rcases hcase with ⟨rfl, rfl⟩ | ⟨rfl, rfl⟩ | ⟨rfl, rfl⟩
    . simp only [hslice, hvalue]
      rfl
    . simp only [hslice, hvalue]
      rfl
    . simp only [hslice, hvalue]
      rfl

theorem head_reads {major n : Nat} {hb : Bytes} (hmajor : major < 6) (h : head major n = .ok hb)
    : Head major n hb := by
  unfold head at h
  split at h
  . next hlt =>
    rw [← Except.ok.inj h]
    have hmod : (UInt8.ofNat (major * 32 + n)).toNat % 32 = n := by
      rw [UInt8.toNat_ofNat']
      omega
    refine ⟨fun pre post => ⟨_, byteAt_append .., ?_, ?_⟩⟩
    . rw [UInt8.toNat_ofNat']
      omega
    . rw [hmod, argument, if_pos hlt]
      rfl
  split at h
  . next hlt =>
    rw [← Except.ok.inj h]
    have hmod : (UInt8.ofNat (major * 32 + 24)).toNat % 32 = 24 := by
      rw [UInt8.toNat_ofNat']
      omega
    have hbyte : ∀ pre post : Bytes,
        byteAt (pre ++ ([UInt8.ofNat (major * 32 + 24), UInt8.ofNat n] ++ post)) (pre.length + 1)
          = .ok (UInt8.ofNat n) := by
      intro pre post
      have := byteAt_append (pre ++ [UInt8.ofNat (major * 32 + 24)]) (UInt8.ofNat n) post
      simpa using this
    refine ⟨fun pre post => ⟨_, byteAt_append .., ?_, ?_⟩⟩
    . rw [UInt8.toNat_ofNat']
      omega
    . rw [hmod, argument, if_neg (by omega), if_pos rfl, hbyte, Except.ok_bind, UInt8.toNat_ofNat']
      rw [Nat.mod_eq_of_lt (by omega)]
      rfl
  split at h
  . rw [← Except.ok.inj h]
    exact head_of_count hmajor (Or.inl ⟨rfl, rfl⟩) (by omega)
  split at h
  . rw [← Except.ok.inj h]
    exact head_of_count hmajor (Or.inr (Or.inl ⟨rfl, rfl⟩)) (by omega)
  split at h
  . rw [← Except.ok.inj h]
    exact head_of_count hmajor (Or.inr (Or.inr ⟨rfl, rfl⟩)) (by omega)
  . simp at h

/-!
### Scalars
-/

theorem readsAs_int {i : Int} {b : Bytes} (h : encodeInt i = .ok b) (room : Nat)
    : ReadsAs (room + 1) b (.int i) := by
  unfold encodeInt at h
  intro pre post
  split at h
  . rcases (head_reads (by decide) h).reads pre post with ⟨ib, hib, hmajor, harg⟩
    simp only [rd, hib, Except.ok_bind, hmajor, harg]
    simp [Except.pure_eq_ok, *]
  . rcases (head_reads (by decide) h).reads pre post with ⟨ib, hib, hmajor, harg⟩
    simp only [rd, hib, Except.ok_bind, hmajor, harg]
    simp only [OfNat.one_ne_ofNat, false_and, ↓reduceIte, one_ne_zero, Except.pure_eq_ok,
      Prod.mk.injEq, and_true]
    congr 1
    omega

theorem readsAs_bytes {x b : Bytes} (h : encodeBytes x = .ok b) (room : Nat)
    : ReadsAs (room + 1) b (.bytes x) := by
  rcases Except.bind_eq_ok.mp h with ⟨hb, hhead, h⟩
  rw [← Except.pure_eq_ok.mp h]
  intro pre post
  rcases (head_reads (by decide) hhead).reads pre (x ++ post) with ⟨ib, hib, hmajor, harg⟩
  have hslice : slice (pre ++ (hb ++ (x ++ post))) (pre.length + hb.length) x.length = x :=
    slice_of_eq (pre ++ hb) post (by simp) (by simp) rfl
  rw [List.append_assoc]
  simp only [rd, hib, Except.ok_bind, hmajor, harg, hslice]
  simp [pure, Except.pure, Nat.add_assoc]

theorem readsAs_text {s : Str} {b : Bytes} (h : encodeText s = .ok b) (room : Nat)
    : ReadsAs (room + 1) b (.text s) := by
  unfold encodeText at h
  split at h
  . simp at h
  . next x hx =>
    rcases Except.bind_eq_ok.mp h with ⟨hb, hhead, h⟩
    rw [← Except.pure_eq_ok.mp h]
    intro pre post
    rcases (head_reads (by decide) hhead).reads pre (x ++ post) with ⟨ib, hib, hmajor, harg⟩
    have hslice : slice (pre ++ (hb ++ (x ++ post))) (pre.length + hb.length) x.length = x :=
      slice_of_eq (pre ++ hb) post (by simp) (by simp) rfl
    have hdecode := Utf8.decode?_of_encode? hx
    rw [List.append_assoc]
    simp only [rd, hib, Except.ok_bind, hmajor, harg, hslice, hdecode]
    simp [pure, Except.pure, Nat.add_assoc]

theorem readsAs_key {k : Key} {b : Bytes} (h : encodeKey k = .ok b) (room : Nat)
    : ReadsAs (room + 1) b k.value := by
  cases k with
  | int i => exact readsAs_int h room
  | bytes x => exact readsAs_bytes h room
  | text s => exact readsAs_text h room

theorem key?_value (k : Key) : key? k.value = some k := by
  cases k <;> rfl

theorem readsAs_simple {x : UInt8} {v : Cbor} {room : Nat}
    (h : ∀ pre post : Bytes, rd (pre ++ (x :: post)) (room + 1) pre.length = .ok (v, pre.length + 1))
    : ReadsAs (room + 1) [x] v := h

theorem readsAs_bool (b : Bool) (room : Nat)
    : ReadsAs (room + 1) [if b then 0xf5 else 0xf4] (.bool b) := by
  refine readsAs_simple fun pre post => ?_
  cases b <;> simp [rd, byteAt_append, Except.ok_bind, pure, Except.pure]

theorem readsAs_null (room : Nat) : ReadsAs (room + 1) [0xf6] .null := by
  refine readsAs_simple fun pre post => ?_
  simp [rd, byteAt_append, Except.ok_bind, pure, Except.pure]

/-!
### Sequences
-/

theorem readElems_flatten {room : Nat} {vs : List Cbor} {bs : List Bytes}
    (h : List.Forall₂ (fun v b => ReadsAs room b v) vs bs) (pre post : Bytes)
    : readElems (fun i => rd (pre ++ (bs.flatten ++ post)) room i) vs.length pre.length
        = .ok (vs, pre.length + bs.flatten.length) := by
  induction h generalizing pre with
  | nil => rfl
  | @cons v b vs bs hv _ ih =>
    have hfirst := hv pre (bs.flatten ++ post)
    have hrest := ih (pre ++ b)
    rw [List.flatten_cons, List.append_assoc]
    rw [List.length_append, List.append_assoc] at hrest
    rw [List.length_cons, readElems, hfirst, Except.ok_bind]
    dsimp only
    rw [hrest, Except.ok_bind]
    simp [pure, Except.pure, Nat.add_assoc]

/--
The bytes of an entry, the key and then the value.
-/
def pairBytes (items : List (Bytes × Bytes)) : Bytes := items.flatMap fun kv => kv.1 ++ kv.2

theorem readEntries_pairBytes {room : Nat} {ms : List (Key × Cbor)} {items : List (Bytes × Bytes)}
    (h : List.Forall₂ (fun m it => ReadsAs room it.1 m.1.value ∧ ReadsAs room it.2 m.2) ms items)
    (seen : List (Key × Cbor)) (hnodup : ((seen.reverse ++ ms).map Prod.fst).Nodup)
    (pre post : Bytes)
    : readEntries (fun i => rd (pre ++ (pairBytes items ++ post)) room i) seen ms.length pre.length
        = .ok (seen.reverse ++ ms, pre.length + (pairBytes items).length) := by
  induction h generalizing pre seen with
  | nil => simp [readEntries, pairBytes]
  | @cons m it ms items hm _ ih =>
    rcases m with ⟨k, v⟩
    rcases it with ⟨kb, vb⟩
    have hkey := hm.1 pre (vb ++ (pairBytes items ++ post))
    have hvalue := hm.2 (pre ++ kb) (pairBytes items ++ post)
    have hnew : Assoc.lookup k seen = none := by
      rw [Assoc.lookup_eq_none_iff]
      intro hmem
      rw [List.map_append, List.nodup_append] at hnodup
      refine hnodup.2.2 k ?_ k (by simp) rfl
      rwa [List.map_reverse, List.mem_reverse]
    have hrest := ih ((k, v) :: seen) (by simpa using hnodup) (pre ++ (kb ++ vb))
    have hB : pre ++ (pairBytes ((kb, vb) :: items) ++ post)
        = pre ++ (kb ++ (vb ++ (pairBytes items ++ post))) := by
      simp [pairBytes]
    rw [hB, List.length_cons, readEntries, hkey, Except.ok_bind]
    dsimp only
    simp only [List.append_assoc, List.length_append] at hvalue hrest
    rw [hvalue, Except.ok_bind]
    dsimp only
    rw [key?_value]
    dsimp only
    rw [hnew, if_neg (by simp), Nat.add_assoc, hrest]
    simp [pairBytes, Nat.add_assoc]

/-!
### Values
-/

/--
What the decoder may return with `room` levels left.
-/
inductive Within : Nat → Cbor → Prop where
  | int (room : Nat) (i : Int) : Within (room + 1) (.int i)
  | bytes (room : Nat) (b : Bytes) : Within (room + 1) (.bytes b)
  | text (room : Nat) (s : Str) : Within (room + 1) (.text s)
  | bool (room : Nat) (b : Bool) : Within (room + 1) (.bool b)
  | null (room : Nat) : Within (room + 1) .null
  | arr (room : Nat) (xs : List Cbor) (h : ∀ x ∈ xs, Within room x) : Within (room + 1) (.arr xs)
  | map (room : Nat) (ms : List (Key × Cbor)) (hnodup : (ms.map Prod.fst).Nodup)
      (h : ∀ m ∈ ms, Within room m.2) : Within (room + 1) (.map ms)

theorem Within.pos {room : Nat} {v : Cbor} (h : Within room v) : 0 < room := by
  cases h <;> exact Nat.succ_pos _

/--
The order of the entries of an encoded map.
-/
def keyBytes (k : Key) : Bytes := (encodeKey k).toOption.getD []

def sortEntries (ms : List (Key × Cbor)) : List (Key × Cbor) :=
  ms.insertionSort fun a b => keyBytes a.1 ≤ keyBytes b.1

mutual

/--
A value with its maps in the order that they are encoded in.
-/
def sorted : Cbor → Cbor
  | .arr xs => .arr (sortedElems xs)
  | .map ms => .map (sortEntries (sortedEntries ms))
  | .int i => .int i
  | .bytes b => .bytes b
  | .text s => .text s
  | .bool b => .bool b
  | .null => .null

def sortedElems : List Cbor → List Cbor
  | [] => []
  | x :: xs => sorted x :: sortedElems xs

def sortedEntries : List (Key × Cbor) → List (Key × Cbor)
  | [] => []
  | (k, v) :: ms => (k, sorted v) :: sortedEntries ms

end

theorem sortedElems_eq_map (xs : List Cbor) : sortedElems xs = xs.map sorted := by
  induction xs with
  | nil => rfl
  | cons x xs ih => rw [sortedElems, ih, List.map_cons]

theorem sortedEntries_eq_map (ms : List (Key × Cbor))
    : sortedEntries ms = ms.map fun m => (m.1, sorted m.2) := by
  induction ms with
  | nil => rfl
  | cons m ms ih => rw [sortedEntries, ih, List.map_cons]

theorem perm_sortEntries (ms : List (Key × Cbor)) : (sortEntries ms).Perm ms :=
  List.perm_insertionSort ..

theorem map_fst_sortedEntries (ms : List (Key × Cbor))
    : (sortedEntries ms).map Prod.fst = ms.map Prod.fst := by
  rw [sortedEntries_eq_map, List.map_map]
  rfl

theorem nodup_sortEntries {ms : List (Key × Cbor)} (h : (ms.map Prod.fst).Nodup)
    : ((sortEntries (sortedEntries ms)).map Prod.fst).Nodup := by
  rw [((perm_sortEntries _).map Prod.fst).nodup_iff, map_fst_sortedEntries]
  exact h

/--
The entries are found in the sorted map as well.
-/
theorem lookup_sorted {ms : List (Key × Cbor)} (h : (ms.map Prod.fst).Nodup) (k : Key)
    : Assoc.lookup k (sortEntries (sortedEntries ms)) = (Assoc.lookup k ms).map sorted := by
  cases hk : Assoc.lookup k ms with
  | none =>
    rw [Assoc.lookup_eq_none_iff] at hk
    rw [Option.map_none, Assoc.lookup_eq_none_iff]
    rwa [((perm_sortEntries _).map Prod.fst).mem_iff, map_fst_sortedEntries]
  | some v =>
    refine Assoc.lookup_of_mem (nodup_sortEntries h) ?_
    rw [(perm_sortEntries _).mem_iff, sortedEntries_eq_map]
    exact List.mem_map.mpr ⟨_, Assoc.mem_of_lookup hk, rfl⟩

theorem encodeElems_eq_ok {xs : List Cbor} {b : Bytes}
    : encodeElems xs = .ok b ↔
        ∃ bs, List.Forall₂ (fun x b => encode x = .ok b) xs bs ∧ b = bs.flatten := by
  induction xs generalizing b with
  | nil => simp [encodeElems, eq_comm]
  | cons x xs ih =>
    simp only [encodeElems, Except.bind_eq_ok, Except.pure_eq_ok, ih,
      List.forall₂_cons_left_iff]
    constructor
    . rintro ⟨hb, hx, _, ⟨bs, hbs, rfl⟩, rfl⟩
      exact ⟨_, ⟨hb, bs, hx, hbs, rfl⟩, rfl⟩
    . rintro ⟨_, ⟨hb, bs, hx, hbs, rfl⟩, rfl⟩
      exact ⟨hb, hx, _, ⟨bs, hbs, rfl⟩, rfl⟩

theorem encodeEntries_eq_ok {ms : List (Key × Cbor)} {items : List (Bytes × Bytes)}
    : encodeEntries ms = .ok items ↔
        List.Forall₂ (fun m it => encodeKey m.1 = .ok it.1 ∧ encode m.2 = .ok it.2) ms items := by
  induction ms generalizing items with
  | nil => simp [encodeEntries, eq_comm]
  | cons m ms ih =>
    simp only [encodeEntries, Except.bind_eq_ok, Except.pure_eq_ok, ih,
      List.forall₂_cons_left_iff]
    constructor
    . rintro ⟨kb, hk, vb, hv, items, hitems, rfl⟩
      exact ⟨_, items, ⟨hk, hv⟩, hitems, rfl⟩
    . rintro ⟨⟨kb, vb⟩, items, ⟨hk, hv⟩, hitems, rfl⟩
      exact ⟨kb, hk, vb, hv, items, hitems, rfl⟩

theorem keyBytes_of_encodeKey {k : Key} {b : Bytes} (h : encodeKey k = .ok b) : keyBytes k = b := by
  rw [keyBytes, h]
  rfl

/--
Round trip: what is encoded is decoded, if it is not nested too deep.
-/
theorem readsAs_encode {room : Nat} {v : Cbor} (hv : Within room v) {b : Bytes}
    (h : encode v = .ok b) : ReadsAs room b (sorted v) := by
  induction hv generalizing b with
  | int room i => exact readsAs_int h room
  | bytes room x => exact readsAs_bytes h room
  | text room s => exact readsAs_text h room
  | bool room x =>
    have hbool := readsAs_bool x room
    cases x <;>
    . rw [← Except.ok.inj h]
      exact hbool
  | null room =>
    rw [← Except.ok.inj h]
    exact readsAs_null room
  | arr room xs hxs ih =>
    simp only [encode, Except.bind_eq_ok, encodeElems_eq_ok, Except.pure_eq_ok] at h
    rcases h with ⟨hb, hhead, _, ⟨bs, hbs, rfl⟩, rfl⟩
    have hreads : List.Forall₂ (fun v b => ReadsAs room b v) (sortedElems xs) bs := by
      rw [sortedElems_eq_map, List.forall₂_map_left_iff]
      exact ((List.forall₂_and_left xs bs).mpr ⟨fun _ hx => hx, hbs⟩).imp
        fun x b hxb => ih x hxb.1 hxb.2
    intro pre post
    rcases (head_reads (by decide) hhead).reads pre (bs.flatten ++ post) with
      ⟨ib, hib, hmajor, harg⟩
    have helems := readElems_flatten hreads (pre ++ hb) post
    rw [sortedElems_eq_map, List.length_map, List.length_append, List.append_assoc] at helems
    rw [List.append_assoc, sorted, sortedElems_eq_map]
    simp only [rd, hib, Except.ok_bind, hmajor, harg, helems]
    simp [pure, Except.pure, Nat.add_assoc]
  | map room ms hnodup hms ih =>
    simp only [encode, Except.bind_eq_ok, encodeEntries_eq_ok, Except.pure_eq_ok] at h
    rcases h with ⟨items, hitems, hb, hhead, rfl⟩
    have hreads : List.Forall₂
        (fun m it => encodeKey m.1 = .ok it.1 ∧ 0 < room ∧ ReadsAs room it.2 m.2)
        (sortedEntries ms) items := by
      rw [sortedEntries_eq_map, List.forall₂_map_left_iff]
      refine ((List.forall₂_and_left ms items).mpr ⟨fun _ hm => hm, hitems⟩).imp ?_
      intro m it hmit
      exact ⟨hmit.2.1, (hms m hmit.1).pos, ih m hmit.1 hmit.2.2⟩
    have hsorted : List.Forall₂
        (fun m it => ReadsAs room it.1 m.1.value ∧ ReadsAs room it.2 m.2)
        (sortEntries (sortedEntries ms)) (sortItems items) := by
      refine (List.forall₂_insertionSort ?_ hreads).imp ?_
      . intro a b c d hab hcd
        rw [keyBytes_of_encodeKey hab.1, keyBytes_of_encodeKey hcd.1]
      . rintro m it ⟨hkey, hpos, hvalue⟩
        rw [← Nat.sub_add_cancel hpos] at hvalue ⊢
        exact ⟨readsAs_key hkey _, hvalue⟩
    intro pre post
    rcases (head_reads (by decide) hhead).reads pre (pairBytes (sortItems items) ++ post) with
      ⟨ib, hib, hmajor, harg⟩
    have hentries := readEntries_pairBytes hsorted [] (nodup_sortEntries hnodup) (pre ++ hb) post
    rw [hsorted.length_eq, List.length_append, List.append_assoc] at hentries
    rw [List.append_assoc, sorted, ← pairBytes]
    simp only [rd, hib, Except.ok_bind, hmajor, harg, hentries]
    simp [pure, Except.pure, Nat.add_assoc]

theorem decode_encode {v : Cbor} (hv : Within (maxDepth + 1) v) {b : Bytes} (h : encode v = .ok b)
    : decode b = .ok (sorted v) := by
  have hread := readsAs_encode hv h [] []
  rw [List.append_nil, List.nil_append, List.length_nil] at hread
  rw [decode, hread, Except.ok_bind]
  simp

/-!
### Maps that are changed
-/

theorem lookup_set (ms : List (Key × Cbor)) (k j : Key) (v : Cbor)
    : Assoc.lookup j (set ms k v) = if j = k then some v else Assoc.lookup j ms := by
  rw [set]
  cases hk : Assoc.lookup k ms with
  | none =>
    rw [if_neg (by simp), Assoc.lookup_append]
    by_cases hjk : j = k
    . simp [hjk, hk, Assoc.lookup_cons]
    . simp [hjk, Assoc.lookup_cons]
  | some w =>
    rw [if_pos (by simp), Assoc.lookup_replace, hk]
    rfl

/-!
### More bytes and more room
-/

/--
A reader of some bytes and a reader of more of them: the first one goes ahead, and what it finds within
its bytes the second one finds as well.
-/
def Extends (n : Nat) (item item' : Nat → Except DecodeError (β × Nat)) : Prop :=
  ∀ i v j, item i = .ok (v, j) → i ≤ j ∧ (j ≤ n → item' i = .ok (v, j))

theorem slice_append_of_le {b t : Bytes} {i n : Nat} (h : i + n ≤ b.length)
    : slice (b ++ t) i n = slice b i n := by
  rw [slice, slice, List.drop_append_of_le_length (by omega), List.take_append_of_le_length]
  rw [List.length_drop]
  omega

theorem byteAt_append_of_ok {b t : Bytes} {i : Nat} {x : UInt8} (h : byteAt b i = .ok x)
    : i < b.length ∧ byteAt (b ++ t) i = .ok x := by
  rw [byteAt] at h ⊢
  split at h
  . next y hy =>
    have hlt := (List.getElem?_eq_some_iff.mp hy).1
    refine ⟨hlt, ?_⟩
    rw [List.getElem?_append_left hlt, hy]
    exact h
  . simp at h

theorem argument_extends (b t : Bytes) (info : Nat)
    : Extends b.length (argument b info) (argument (b ++ t) info) := by
  have hcut : ∀ i count n j : Nat, (Except.ok (natOfBytes (slice b i count), i + count)
        : Except DecodeError (Nat × Nat)) = .ok (n, j) →
      i ≤ j ∧ (j ≤ b.length →
        (Except.ok (natOfBytes (slice (b ++ t) i count), i + count)
          : Except DecodeError (Nat × Nat)) = .ok (n, j)) := by
    intro i count n j h
    rw [Except.ok.injEq, Prod.mk.injEq] at h
    refine ⟨by omega, fun hle => ?_⟩
    rw [slice_append_of_le (by omega), h.1, h.2]
  intro i n j h
  unfold argument at h ⊢
  by_cases h24 : info < 24
  . rw [if_pos h24] at h ⊢
    refine ⟨?_, fun _ => h⟩
    rw [Except.ok.injEq, Prod.mk.injEq] at h
    omega
  rw [if_neg h24] at h ⊢
  by_cases heq24 : info = 24
  . rw [if_pos heq24] at h ⊢
    rcases Except.bind_eq_ok.mp h with ⟨x, hx, h⟩
    have hbyte := byteAt_append_of_ok (t := t) hx
    rw [hbyte.2, Except.ok_bind]
    refine ⟨?_, fun _ => h⟩
    rw [Except.pure_eq_ok, Prod.mk.injEq] at h
    omega
  rw [if_neg heq24] at h ⊢
  by_cases heq25 : info = 25
  . rw [if_pos heq25] at h ⊢
    exact hcut i 2 n j h
  rw [if_neg heq25] at h ⊢
  by_cases heq26 : info = 26
  . rw [if_pos heq26] at h ⊢
    exact hcut i 4 n j h
  rw [if_neg heq26] at h ⊢
  by_cases heq27 : info = 27
  . rw [if_pos heq27] at h ⊢
    exact hcut i 8 n j h
  . rw [if_neg heq27] at h
    simp at h

theorem readElems_extends {m : Nat} {item item' : Nat → Except DecodeError (Cbor × Nat)}
    (h : Extends m item item') (n : Nat) : Extends m (readElems item n) (readElems item' n) := by
  induction n with
  | zero =>
    intro i vs j hread
    rw [readElems, Except.ok.injEq, Prod.mk.injEq] at hread
    rw [readElems, hread.1, hread.2]
    exact ⟨Nat.le_refl _, fun _ => rfl⟩
  | succ n ih =>
    intro i vs j hread
    rcases Except.bind_eq_ok.mp hread with ⟨⟨v, k⟩, hv, hread⟩
    rcases Except.bind_eq_ok.mp hread with ⟨⟨ws, j'⟩, hws, hread⟩
    rw [Except.pure_eq_ok, Prod.mk.injEq] at hread
    rcases hread with ⟨rfl, rfl⟩
    have hfirst := h _ _ _ hv
    have hrest := ih _ _ _ hws
    refine ⟨by omega, fun hle => ?_⟩
    rw [readElems, hfirst.2 (by omega), Except.ok_bind]
    dsimp only
    rw [hrest.2 hle]
    rfl

theorem readEntries_extends {m : Nat} {item item' : Nat → Except DecodeError (Cbor × Nat)}
    (h : Extends m item item') (seen : List (Key × Cbor)) (n : Nat)
    : Extends m (readEntries item seen n) (readEntries item' seen n) := by
  induction n generalizing seen with
  | zero =>
    intro i ms j hread
    rw [readEntries, Except.ok.injEq, Prod.mk.injEq] at hread
    rw [readEntries, hread.1, hread.2]
    exact ⟨Nat.le_refl _, fun _ => rfl⟩
  | succ n ih =>
    intro i ms j hread
    rcases Except.bind_eq_ok.mp hread with ⟨⟨k, i'⟩, hk, hread⟩
    rcases Except.bind_eq_ok.mp hread with ⟨⟨v, i''⟩, hv, hread⟩
    have hkey := h _ _ _ hk
    have hvalue := h _ _ _ hv
    dsimp only at hread
    split at hread
    . simp at hread
    . next k' hk' =>
      split at hread
      . simp at hread
      . next hnew =>
        have hrest := ih _ _ _ _ hread
        refine ⟨by omega, fun hle => ?_⟩
        rw [readEntries, hkey.2 (by omega), Except.ok_bind]
        dsimp only
        rw [hvalue.2 (by omega), Except.ok_bind]
        dsimp only
        rw [hk']
        dsimp only
        rw [if_neg hnew, hrest.2 hle]

/--
What `rd` does after the head.
-/
def readBody (b : Bytes) (item : Nat → Except DecodeError (Cbor × Nat)) (major n i : Nat)
    : Except DecodeError (Cbor × Nat) := do
  if major = 0 then return (.int n, i)
  if major = 1 then return (.int (-1 - n), i)
  if major = 2 then return (.bytes (slice b i n), i + n)
  if major = 3 then
    match Utf8.decode? (slice b i n) with
    | none => throw .notUtf8
    | some s => return (.text s, i + n)
  if major = 4 then
    let (xs, i) ← readElems item n i
    return (.arr xs, i)
  if major = 5 then
    let (ms, i) ← readEntries item [] n i
    return (.map ms, i)
  throw .majorType

theorem rd_succ (b : Bytes) (room i : Nat)
    : rd b (room + 1) i = byteAt b i >>= fun ib =>
        if ib.toNat / 32 = 7 ∧ ib.toNat % 32 = 20 then .ok (.bool false, i + 1)
        else if ib.toNat / 32 = 7 ∧ ib.toNat % 32 = 21 then .ok (.bool true, i + 1)
        else if ib.toNat / 32 = 7 ∧ ib.toNat % 32 = 22 then .ok (.null, i + 1)
        else argument b (ib.toNat % 32) (i + 1) >>= fun (n, k) =>
          readBody b (fun i => rd b room i) (ib.toNat / 32) n k := rfl

theorem readBody_extends {b t : Bytes} {item item' : Nat → Except DecodeError (Cbor × Nat)}
    (h : Extends b.length item item') (major n : Nat)
    : Extends b.length (readBody b item major n) (readBody (b ++ t) item' major n) := by
  intro i v j hread
  have hpure : ∀ {w w' : Cbor} {k : Nat}, i ≤ k → (k ≤ b.length → w = w') →
      (pure (w, k) : Except DecodeError (Cbor × Nat)) = .ok (v, j) →
      i ≤ j ∧ (j ≤ b.length → (pure (w', k) : Except DecodeError (Cbor × Nat)) = .ok (v, j)) := by
    intro w w' k hik hsame hw
    rw [Except.pure_eq_ok, Prod.mk.injEq] at hw
    refine ⟨by omega, fun hle => ?_⟩
    rw [Except.pure_eq_ok, Prod.mk.injEq, ← hsame (by omega)]
    exact hw
  unfold readBody at hread ⊢
  by_cases h0 : major = 0
  . rw [if_pos h0] at hread ⊢
    exact hpure (Nat.le_refl i) (fun _ => rfl) hread
  rw [if_neg h0] at hread ⊢
  by_cases h1 : major = 1
  . rw [if_pos h1] at hread ⊢
    exact hpure (Nat.le_refl i) (fun _ => rfl) hread
  rw [if_neg h1] at hread ⊢
  by_cases h2 : major = 2
  . rw [if_pos h2] at hread ⊢
    exact hpure (by omega) (fun hle => by rw [slice_append_of_le hle]) hread
  rw [if_neg h2] at hread ⊢
  by_cases h3 : major = 3
  . rw [if_pos h3] at hread ⊢
    cases hdecode : Utf8.decode? (slice b i n) with
    | none =>
      rw [hdecode] at hread
      rcases Except.bind_eq_ok.mp hread with ⟨_, hthrow, _⟩
      cases hthrow
    | some s =>
      rw [hdecode] at hread
      dsimp only at hread
      rw [Except.pure_eq_ok, Prod.mk.injEq] at hread
      refine ⟨by omega, fun hle => ?_⟩
      rw [slice_append_of_le (by omega), hdecode]
      dsimp only
      rw [Except.pure_eq_ok, Prod.mk.injEq]
      exact hread
  rw [if_neg h3] at hread ⊢
  by_cases h4 : major = 4
  . rw [if_pos h4] at hread ⊢
    rcases Except.bind_eq_ok.mp hread with ⟨⟨xs, k⟩, hxs, hread⟩
    have helems := readElems_extends h n _ _ _ hxs
    rw [Except.pure_eq_ok, Prod.mk.injEq] at hread
    refine ⟨by omega, fun hle => ?_⟩
    rw [helems.2 (by omega), Except.ok_bind]
    dsimp only
    rw [Except.pure_eq_ok, Prod.mk.injEq]
    exact hread
  rw [if_neg h4] at hread ⊢
  by_cases h5 : major = 5
  . rw [if_pos h5] at hread ⊢
    rcases Except.bind_eq_ok.mp hread with ⟨⟨ms, k⟩, hms, hread⟩
    have hentries := readEntries_extends h [] n _ _ _ hms
    rw [Except.pure_eq_ok, Prod.mk.injEq] at hread
    refine ⟨by omega, fun hle => ?_⟩
    rw [hentries.2 (by omega), Except.ok_bind]
    dsimp only
    rw [Except.pure_eq_ok, Prod.mk.injEq]
    exact hread
  . rw [if_neg h5] at hread
    cases hread

/--
More bytes and more room do not change what is read within some bytes.
-/
theorem rd_extends (b t : Bytes) {room room' : Nat} (hroom : room ≤ room')
    : Extends b.length (rd b room) (rd (b ++ t) room') := by
  induction room generalizing room' with
  | zero =>
    intro i v j h
    simp [rd] at h
  | succ room ih =>
    rcases Nat.exists_eq_add_of_le' hroom with ⟨extra, rfl⟩
    have hitem := ih (Nat.le_add_left room extra)
    intro i v j h
    rw [rd_succ] at h
    rw [← Nat.add_assoc, rd_succ]
    rcases Except.bind_eq_ok.mp h with ⟨ib, hib, h⟩
    rw [(byteAt_append_of_ok (t := t) hib).2, Except.ok_bind]
    have hone : ∀ w : Cbor, (Except.ok (w, i + 1) : Except DecodeError (Cbor × Nat)) = .ok (v, j) →
        i ≤ j ∧ (j ≤ b.length →
          (Except.ok (w, i + 1) : Except DecodeError (Cbor × Nat)) = .ok (v, j)) := by
      intro w hw
      refine ⟨?_, fun _ => hw⟩
      rw [Except.ok.injEq, Prod.mk.injEq] at hw
      omega
    by_cases hfalse : ib.toNat / 32 = 7 ∧ ib.toNat % 32 = 20
    . rw [if_pos hfalse] at h ⊢
      exact hone _ h
    rw [if_neg hfalse] at h ⊢
    by_cases htrue : ib.toNat / 32 = 7 ∧ ib.toNat % 32 = 21
    . rw [if_pos htrue] at h ⊢
      exact hone _ h
    rw [if_neg htrue] at h ⊢
    by_cases hnull : ib.toNat / 32 = 7 ∧ ib.toNat % 32 = 22
    . rw [if_pos hnull] at h ⊢
      exact hone _ h
    rw [if_neg hnull] at h ⊢
    rcases Except.bind_eq_ok.mp h with ⟨⟨n, k⟩, hn, h⟩
    have hhead := argument_extends b t _ _ _ _ hn
    have hbody := readBody_extends (t := t) hitem _ _ _ _ _ h
    refine ⟨by omega, fun hle => ?_⟩
    rw [hhead.2 (by omega), Except.ok_bind]
    exact hbody.2 hle

/-!
### Nothing is cut off
-/

/--
What is accepted is read from the first byte to the last one.
-/
theorem rd_of_decode {b : Bytes} {v : Cbor} (h : decode b = .ok v)
    : rd b (maxDepth + 1) 0 = .ok (v, b.length) := by
  rcases Except.bind_eq_ok.mp h with ⟨⟨w, i⟩, hw, h⟩
  dsimp only at h
  split at h
  . simp at h
  . next hend => rw [hw, ← Except.ok.inj h, not_not.mp hend]

/--
Bytes that are read in whole have no proper prefix that is accepted.
-/
theorem decode_prefix {b p : Bytes} {room : Nat} {v w : Cbor} (hb : rd b room 0 = .ok (v, b.length))
    (hp : p <+: b) (h : decode p = .ok w) : p = b := by
  rcases hp with ⟨t, rfl⟩
  have hlong := (rd_extends p t (Nat.le_max_left _ room) _ _ _ (rd_of_decode h)).2 (Nat.le_refl _)
  have hwhole := (rd_extends (p ++ t) [] (Nat.le_max_right (maxDepth + 1) room) _ _ _ hb).2
    (Nat.le_refl _)
  rw [List.append_nil, hlong, Except.ok.injEq, Prod.mk.injEq, List.length_append] at hwhole
  have hnil : t = [] := List.eq_nil_of_length_eq_zero (by omega)
  rw [hnil, List.append_nil]

/-!
### What can be encoded
-/

/--
What the encoder has bytes for: integers of 64 bits and a sign, texts without surrogates, and lengths
of 64 bits.
-/
inductive Encodable : Cbor → Prop where
  | int (i : Int) (hlo : -2 ^ 64 ≤ i) (hhi : i < 2 ^ 64) : Encodable (.int i)
  | bytes (b : Bytes) (hlen : b.length < 2 ^ 64) : Encodable (.bytes b)
  | text (s : Str) (hscalar : Str.Scalar s) (hlen : (s.flatMap Utf8.encodePoint).length < 2 ^ 64)
      : Encodable (.text s)
  | bool (b : Bool) : Encodable (.bool b)
  | null : Encodable .null
  | arr (xs : List Cbor) (hlen : xs.length < 2 ^ 64) (h : ∀ x ∈ xs, Encodable x)
      : Encodable (.arr xs)
  | map (ms : List (Key × Cbor)) (hlen : ms.length < 2 ^ 64) (hkey : ∀ m ∈ ms, Encodable m.1.value)
      (h : ∀ m ∈ ms, Encodable m.2) : Encodable (.map ms)

theorem head_returns_iff (major n : Nat) : (∃ b, head major n = .ok b) ↔ n < 2 ^ 64 := by
  unfold head
  constructor
  . rintro ⟨b, h⟩
    by_contra hge
    rw [if_neg (by omega), if_neg (by omega), if_neg (by omega), if_neg (by omega),
      if_neg (by omega)] at h
    simp at h
  . intro hlt
    repeat' split
    all_goals first | exact ⟨_, rfl⟩ | omega

theorem encodeInt_returns_iff (i : Int)
    : (∃ b, encodeInt i = .ok b) ↔ -2 ^ 64 ≤ i ∧ i < 2 ^ 64 := by
  rw [encodeInt]
  split
  . rw [head_returns_iff]
    omega
  . rw [head_returns_iff]
    omega

theorem encodeBytes_returns_iff (x : Bytes)
    : (∃ b, encodeBytes x = .ok b) ↔ x.length < 2 ^ 64 := by
  rw [← head_returns_iff 2]
  simp only [encodeBytes, Except.bind_eq_ok, Except.pure_eq_ok]
  constructor
  . rintro ⟨_, hb, hhead, _⟩
    exact ⟨hb, hhead⟩
  . rintro ⟨hb, hhead⟩
    exact ⟨_, hb, hhead, rfl⟩

theorem encodeText_returns_iff (s : Str)
    : (∃ b, encodeText s = .ok b) ↔
        Str.Scalar s ∧ (s.flatMap Utf8.encodePoint).length < 2 ^ 64 := by
  rw [← head_returns_iff 3, encodeText]
  by_cases hs : Str.Scalar s
  . have hencode : Utf8.encode? s = some (s.flatMap Utf8.encodePoint) := if_pos hs
    rw [hencode]
    simp only [Except.bind_eq_ok, Except.pure_eq_ok]
    constructor
    . rintro ⟨_, hb, hhead, _⟩
      exact ⟨hs, hb, hhead⟩
    . rintro ⟨_, hb, hhead⟩
      exact ⟨_, hb, hhead, rfl⟩
  . have hencode : Utf8.encode? s = none := if_neg hs
    rw [hencode]
    simp [hs]

theorem encodeKey_returns_iff (k : Key) : (∃ b, encodeKey k = .ok b) ↔ Encodable k.value := by
  cases k with
  | int i =>
    rw [encodeKey, encodeInt_returns_iff]
    exact ⟨fun h => .int i h.1 h.2, fun h => by cases h with | int _ hlo hhi => exact ⟨hlo, hhi⟩⟩
  | bytes x =>
    rw [encodeKey, encodeBytes_returns_iff]
    exact ⟨fun h => .bytes x h, fun h => by cases h with | bytes _ h => exact h⟩
  | text s =>
    rw [encodeKey, encodeText_returns_iff]
    exact ⟨fun h => .text s h.1 h.2, fun h => by cases h with | text _ hs hlen => exact ⟨hs, hlen⟩⟩

/--
Every step of a loop returns, and so does the loop.
-/
theorem exists_forall₂_iff {α β : Type} {R : α → β → Prop} {xs : List α}
    : (∃ ys, List.Forall₂ R xs ys) ↔ ∀ x ∈ xs, ∃ y, R x y := by
  induction xs with
  | nil => simp
  | cons x xs ih =>
    rw [List.forall_mem_cons, ← ih]
    constructor
    . rintro ⟨_, hys⟩
      rcases List.forall₂_cons_left_iff.mp hys with ⟨y, ys, hy, hys, _⟩
      exact ⟨⟨y, hy⟩, ys, hys⟩
    . rintro ⟨⟨y, hy⟩, ys, hys⟩
      exact ⟨y :: ys, .cons hy hys⟩

/--
Whatever is not nested without end: it is encoded if and only if there are bytes for it.
-/
theorem encode_returns_iff {room : Nat} {v : Cbor} (hv : Within room v)
    : (∃ b, encode v = .ok b) ↔ Encodable v := by
  induction hv with
  | int room i => exact encodeKey_returns_iff (.int i)
  | bytes room x => exact encodeKey_returns_iff (.bytes x)
  | text room s => exact encodeKey_returns_iff (.text s)
  | bool room x => cases x <;> exact iff_of_true ⟨_, rfl⟩ (.bool _)
  | null room => exact iff_of_true ⟨_, rfl⟩ .null
  | arr room xs _ ih =>
    have helems : (∃ b, encodeElems xs = .ok b) ↔ ∀ x ∈ xs, Encodable x := by
      rw [← forall₂_congr ih, ← exists_forall₂_iff]
      simp only [encodeElems_eq_ok]
      constructor
      . rintro ⟨_, bs, hbs, _⟩
        exact ⟨bs, hbs⟩
      . rintro ⟨bs, hbs⟩
        exact ⟨_, bs, hbs, rfl⟩
    simp only [encode, Except.bind_eq_ok, Except.pure_eq_ok]
    constructor
    . rintro ⟨_, hb, hhead, b, hb', _⟩
      exact .arr xs ((head_returns_iff 4 _).mp ⟨hb, hhead⟩) (helems.mp ⟨b, hb'⟩)
    . intro h
      cases h with
      | arr _ hlen h =>
        rcases (head_returns_iff 4 _).mpr hlen with ⟨hb, hhead⟩
        rcases helems.mpr h with ⟨b, hb'⟩
        exact ⟨_, hb, hhead, b, hb', rfl⟩
  | map room ms _ _ ih =>
    have hentries : (∃ items, encodeEntries ms = .ok items) ↔
        ∀ m ∈ ms, Encodable m.1.value ∧ Encodable m.2 := by
      simp only [encodeEntries_eq_ok, exists_forall₂_iff]
      refine forall₂_congr fun m hm => ?_
      rw [← encodeKey_returns_iff, ← ih m hm]
      constructor
      . rintro ⟨⟨kb, vb⟩, hk, hv⟩
        exact ⟨⟨kb, hk⟩, vb, hv⟩
      . rintro ⟨⟨kb, hk⟩, vb, hv⟩
        exact ⟨(kb, vb), hk, hv⟩
    have hlength : ∀ {items}, encodeEntries ms = .ok items →
        (sortItems items).length = ms.length := by
      intro items hitems
      rw [sortItems, List.length_insertionSort, (encodeEntries_eq_ok.mp hitems).length_eq]
    simp only [encode, Except.bind_eq_ok, Except.pure_eq_ok]
    constructor
    . rintro ⟨_, items, hitems, hb, hhead, _⟩
      rw [hlength hitems] at hhead
      have hall := hentries.mp ⟨items, hitems⟩
      exact .map ms ((head_returns_iff 5 _).mp ⟨hb, hhead⟩) (fun m hm => (hall m hm).1)
        fun m hm => (hall m hm).2
    . intro h
      cases h with
      | map _ hlen hkey h =>
        rcases hentries.mpr fun m hm => ⟨hkey m hm, h m hm⟩ with ⟨items, hitems⟩
        rcases (head_returns_iff 5 _).mpr hlen with ⟨hb, hhead⟩
        rw [← hlength hitems] at hhead
        exact ⟨_, items, hitems, hb, hhead, rfl⟩

/-!
### Equal values
-/

theorem sameElems_map {f : Cbor → Cbor} {xs : List Cbor} (h : ∀ x ∈ xs, same x (f x) = true)
    : sameElems xs (xs.map f) = true := by
  induction xs with
  | nil => rfl
  | cons x xs ih =>
    rw [List.map_cons, sameElems, h x List.mem_cons_self, Bool.true_and]
    exact ih fun y hy => h y (List.mem_cons_of_mem x hy)

theorem sameEntries_of_lookup {ms ns : List (Key × Cbor)}
    (h : ∀ m ∈ ms, ∃ w, Assoc.lookup m.1 ns = some w ∧ same m.2 w = true)
    : sameEntries ms ns = true := by
  induction ms with
  | nil => rfl
  | cons m ms ih =>
    rcases h m List.mem_cons_self with ⟨w, hw, hsame⟩
    rw [sameEntries, hw]
    dsimp only
    rw [hsame, Bool.true_and]
    exact ih fun n hn => h n (List.mem_cons_of_mem m hn)

theorem same_sorted {room : Nat} {v : Cbor} (hv : Within room v) : same v (sorted v) = true := by
  induction hv with
  | int room i => simp [sorted, same]
  | bytes room b => simp [sorted, same]
  | text room s => simp [sorted, same]
  | bool room b => simp [sorted, same]
  | null room => rfl
  | arr room xs _ ih =>
    rw [sorted, sortedElems_eq_map, same]
    exact sameElems_map ih
  | map room ms hnodup _ ih =>
    have hlength : ms.length = (sortEntries (sortedEntries ms)).length := by
      rw [(perm_sortEntries _).length_eq, sortedEntries_eq_map, List.length_map]
    rw [sorted, same, ← hlength, decide_eq_true rfl, Bool.true_and]
    refine sameEntries_of_lookup fun m hm => ⟨sorted m.2, ?_, ih m hm⟩
    rw [lookup_sorted hnodup, Assoc.lookup_of_mem hnodup hm, Option.map_some]

end Cbor
