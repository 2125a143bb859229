import CryptoValid.Cedulon.OneToOne
import CryptoValid.Lib.HashChain

/-!
This module contains what the checkpoints of a VALID ledger bind: the records up to the last one
inside of any window, by the hash chain that leads back from the head that a checkpoint names.
-/

namespace CryptoValid
namespace Cedulon

section

variable (env : Env)

/--
The octets that a line of the decisions file carries.
-/
def lineOctets (line : Json) : Bytes :=
  match line with
  | .obj ms =>
    match member ms (txt "coseHex") with
    | .str coseHex => (Python.fromHex? coseHex).getD []
    | _ => []
  | _ => []

/--
The record octets of a decisions file, in their order.
-/
def recordOctets (decisionsText : Str) : List Bytes :=
  match loadsLines env.interp decisionsText .recordHeader with
  | .ok lines => lines.map lineOctets
  | .error _ => []

/--
The claims of a checkpoint that is signed under the pinned key.
-/
def checkpointClaims? (pinned : Bytes) (cp : Json) : Option (List (Str × Cbor)) :=
  match cose env (lineOctets cp) pinned ctCheckpoint .checkpointSignature .checkpointSignature with
  | .ok p => namedClaims? checkpointLabels p
  | .error _ => none

/--
The claims of the checkpoints of a file.
-/
def checkpointsOf (text : Str) (pinned : Bytes) : List (List (Str × Cbor)) :=
  match loadsLines env.interp text .checkpointSignature with
  | .ok cps => cps.filterMap (checkpointClaims? env pinned)
  | .error _ => []

def inWindow (k : List (Str × Cbor)) (c : Record) : Bool :=
  uintClaim k (txt "startMs") ≤ c.timestampMs && c.timestampMs < uintClaim k (txt "endMs")

/--
The ledger of a request has a record at position `i` that is inside of a window.
-/
def Windowed (req : Request) (i : Nat) : Prop :=
  ∃ entries e k, readLedger env req.decisionsText req.recordKey = .ok entries ∧
    entries[i]? = some e ∧ k ∈ checkpointsOf env req.checkpointsText req.checkpointKey ∧
    inWindow k e.record = true

end

section

variable {env : Env}

/-!
### Records and their octets
-/

theorem recordClaims_unique {payload : Cbor} {presented presented' : Json} {c c' : Record}
    (hc : recordClaims payload presented = .ok c) (hc' : recordClaims payload presented' = .ok c')
    : c = c' := by
  unfold recordClaims at hc hc'
  split at hc
  . simp [throw, throwThe, MonadExceptOf.throw] at hc
  . next k hk =>
    simp only [hk] at hc'
    rcases Except.bind_eq_ok.mp hc with ⟨_, _, hc⟩
    rcases Except.bind_eq_ok.mp hc' with ⟨_, _, hc'⟩
    split at hc
    . simp [throw, throwThe, MonadExceptOf.throw] at hc
    . next decision hdecision =>
      simp only [hdecision] at hc'
      dsimp only at hc
      split at hc
      . next hcomplete =>
        rw [dif_pos hcomplete] at hc'
        rcases Except.bind_eq_ok.mp hc with ⟨_, _, hc⟩
        rcases Except.bind_eq_ok.mp hc with ⟨_, _, hc⟩
        rcases Except.bind_eq_ok.mp hc' with ⟨_, _, hc'⟩
        rcases Except.bind_eq_ok.mp hc' with ⟨_, _, hc'⟩
        exact (Except.pure_eq_ok.mp hc).symm.trans (Except.pure_eq_ok.mp hc')
      . simp [throw, throwThe, MonadExceptOf.throw] at hc

/--
The octets carry the entry.
-/
structure Carries (env : Env) (pinned : Bytes) (octets : Bytes) (e : Entry) : Prop where
  hash_eq : e.hash = hexdigest env octets
  record_eq : ∃ payload presented,
    cose env octets pinned ctRecord .recordHeader .recordSignature = .ok payload ∧
      recordClaims payload presented = .ok e.record

theorem Carries.unique {pinned octets : Bytes} {e e' : Entry} (h : Carries env pinned octets e)
    (h' : Carries env pinned octets e') : e.record = e'.record := by
  rcases h.record_eq with ⟨payload, presented, hpayload, hrecord⟩
  rcases h'.record_eq with ⟨payload', presented', hpayload', hrecord'⟩
  rw [hpayload, Except.ok.injEq] at hpayload'
  subst hpayload'
  exact recordClaims_unique hrecord hrecord'

theorem carries_of_readRecord {pinned : Bytes} {i : Nat} {line : Json} {e : Entry}
    (he : readRecord env pinned i line = .ok e) : Carries env pinned (lineOctets line) e := by
  unfold readRecord at he
  split at he
  . next ms =>
    split at he
    . next coseHex hhex =>
      split at he
      . simp [throw, throwThe, MonadExceptOf.throw] at he
      . next octets hoctets =>
        rcases Except.bind_eq_ok.mp he with ⟨payload, hpayload, he⟩
        rcases Except.bind_eq_ok.mp he with ⟨record, hrecord, he⟩
        have hline : lineOctets (.obj ms) = octets := by
          simp only [lineOctets, hhex, hoctets, Option.getD_some]
        rw [hline, ← Except.pure_eq_ok.mp he]
        exact ⟨rfl, payload, _, hpayload, hrecord⟩
    . simp [throw, throwThe, MonadExceptOf.throw] at he
  . simp [throw, throwThe, MonadExceptOf.throw] at he

theorem carries_of_readRecords {pinned : Bytes} {i : Nat} {lines : List Json} {es : List Entry}
    (hes : readRecords env pinned i lines = .ok es)
    : List.Forall₂ (Carries env pinned) (lines.map lineOctets) es := by
  induction lines generalizing i es with
  | nil =>
    rw [← Except.ok.inj hes]
    exact .nil
  | cons line lines ih =>
    rcases Except.bind_eq_ok.mp hes with ⟨e, he, hes⟩
    rcases Except.bind_eq_ok.mp hes with ⟨rest, hrest, hes⟩
    rw [← Except.pure_eq_ok.mp hes]
    exact .cons (carries_of_readRecord he) (ih hrest)

/--
A ledger that is read: the octets beside the entries, linked by their hashes.
-/
structure Read (env : Env) (pinned decisionsText) (es : List Entry) where
  items : List (Bytes × Entry)
  octets_eq : items.map Prod.fst = recordOctets env decisionsText
  entries_eq : items.map Prod.snd = es
  carries : ∀ x ∈ items, Carries env pinned x.1 x.2
  linked : HashChain.Linked (fun x : Bytes × Entry => x.2.record.prevRecordHash)
    (fun x => some (hexdigest env x.1)) none items

theorem linked_of_checkChain {i : Nat} {want : Option Str} {items : List (Bytes × Entry)}
    (hchain : checkChain i want (items.map Prod.snd) = .ok ())
    (hhash : ∀ x ∈ items, x.2.hash = hexdigest env x.1)
    : HashChain.Linked (fun x : Bytes × Entry => x.2.record.prevRecordHash)
        (fun x => some (hexdigest env x.1)) want items := by
  induction items generalizing i want with
  | nil => trivial
  | cons x items ih =>
    rcases Except.bind_eq_ok.mp hchain with ⟨_, hlink, hrest⟩
    rw [List.forall_mem_cons] at hhash
    rw [hhash.1] at hrest
    refine ⟨?_, ih hrest hhash.2⟩
    unfold require at hlink
    split at hlink
    . next heq => exact of_decide_eq_true heq
    . simp at hlink

theorem read_of_readLedger {decisionsText : Str} {pinned : Bytes} {es : List Entry}
    (hes : readLedger env decisionsText pinned = .ok es)
    : Nonempty (Read env pinned decisionsText es) := by
  rcases Except.bind_eq_ok.mp hes with ⟨lines, hlines, hes⟩
  rcases Except.bind_eq_ok.mp hes with ⟨es', hrecords, hes⟩
  rcases Except.bind_eq_ok.mp hes with ⟨_, hchain, hes⟩
  rw [Except.pure_eq_ok.mp hes] at hchain hrecords
  have hcarries := carries_of_readRecords hrecords
  rw [List.forall₂_iff_zip] at hcarries
  have hfst : ((lines.map lineOctets).zip es).map Prod.fst = lines.map lineOctets :=
    List.map_fst_zip (Nat.le_of_eq hcarries.1)
  have hsnd : ((lines.map lineOctets).zip es).map Prod.snd = es :=
    List.map_snd_zip (Nat.le_of_eq hcarries.1.symm)
  refine ⟨(lines.map lineOctets).zip es, ?_, hsnd, fun x hx => hcarries.2 hx, ?_⟩
  . rw [hfst, recordOctets, hlines]
  . rw [← hsnd] at hchain
    exact linked_of_checkChain hchain fun x hx => (hcarries.2 hx).hash_eq

/-!
### Back from the head
-/

/--
Records with one hash have the same records before them, up to a collision.
-/
theorem octets_eq_of_head {pinned : Bytes} {text text' : Str} {es es' : List Entry}
    (r : Read env pinned text es) (r' : Read env pinned text' es')
    {pre pre' post post' : List (Bytes × Entry)} {x x' : Bytes × Entry}
    (hitems : r.items = pre ++ [x] ++ post) (hitems' : r'.items = pre' ++ [x'] ++ post')
    (hhash : x.2.hash = x'.2.hash)
    : (pre ++ [x]).map Prod.fst = (pre' ++ [x']).map Prod.fst ∨
        Collides env.sha256 (recordOctets env text ++ recordOctets env text') := by
  have hlinked := r.linked
  have hlinked' := r'.linked
  rw [hitems] at hlinked
  rw [hitems'] at hlinked'
  have hsub : ∀ y ∈ pre ++ [x], y ∈ r.items := by
    intro y hy
    rw [hitems]
    exact List.mem_append_left _ hy
  have hsub' : ∀ y ∈ pre' ++ [x'], y ∈ r'.items := by
    intro y hy
    rw [hitems']
    exact List.mem_append_left _ hy
  have hlink : ∀ y ∈ pre ++ [x], ∀ y' ∈ pre' ++ [x'], y.1 = y'.1 →
      y.2.record.prevRecordHash = y'.2.record.prevRecordHash := by
    intro y hy y' hy' heq
    have hcarries := r.carries y (hsub y hy)
    have hcarries' := r'.carries y' (hsub' y' hy')
    rw [heq] at hcarries
    rw [hcarries.unique hcarries']
  have htip : HashChain.tip (fun y : Bytes × Entry => some (hexdigest env y.1)) none (pre ++ [x])
      = HashChain.tip (fun y : Bytes × Entry => some (hexdigest env y.1)) none (pre' ++ [x']) := by
    rw [HashChain.tip_concat, HashChain.tip_concat,
      ← (r.carries x (hsub x (by simp))).hash_eq, ← (r'.carries x' (hsub' x' (by simp))).hash_eq,
      hhash]
  rcases HashChain.payloads_eq_or_clashes (f := fun b => some (hexdigest env b))
    (g := fun b => some (hexdigest env b)) (HashChain.linked_append hlinked)
    (HashChain.linked_append hlinked') hlink (Or.inr fun m => ⟨by simp, by simp⟩) htip
    with heq | hclash
  . exact Or.inl heq
  . refine Or.inr ?_
    rcases hclash.collides with ⟨a, ha, b, hb, hne, heq⟩
    rw [Option.some.injEq] at heq
    refine Collides.mono ⟨a, ha, b, hb, hne, Hex.ofBytes_inj heq⟩ ?_
    rw [← r.octets_eq, ← r'.octets_eq, hitems, hitems']
    have hpre := List.map_subset Prod.fst (List.subset_append_left (pre ++ [x]) post)
    have hpre' := List.map_subset Prod.fst (List.subset_append_left (pre' ++ [x']) post')
    intro m hm
    rw [List.mem_append] at hm ⊢
    exact hm.imp (fun h => hpre h) fun h => hpre' h

/-!
### Checkpoints
-/

theorem isClaim_unique {v : Cbor} {want want' : Option Str} (h : isClaim v want = true)
    (h' : isClaim v want' = true) : want = want' := by
  cases v <;> cases want <;> cases want' <;> simp_all [isClaim]

/--
A checkpoint that is accepted names the hash of the last record in its window.
-/
theorem head_of_checkCheckpoint {pinned : Bytes} {es : List Entry} {prev : Option Str} {i : Nat}
    {cp : Json} {hash : Str} (hcp : checkCheckpoint env pinned es prev i cp = .ok hash)
    {k : List (Str × Cbor)} (hk : checkpointClaims? env pinned cp = some k)
    : isClaim (claim k (txt "chainHeadHash"))
        ((es.filter fun e => inWindow k e.record).getLast?.map Entry.hash) = true := by
  unfold checkCheckpoint at hcp
  split at hcp
  . next ms =>
    split at hcp
    . next coseHex hhex =>
      rcases Except.bind_eq_ok.mp hcp with ⟨octets, hoctets, hcp⟩
      rcases Except.bind_eq_ok.mp hcp with ⟨p, hp, hcp⟩
      have hline : lineOctets (.obj ms) = octets := by
        unfold orOther at hoctets
        split at hoctets
        . next b hb => simp only [lineOctets, hhex, hb, Option.getD_some, Except.ok.inj hoctets]
        . simp at hoctets
      simp only [checkpointClaims?, hline, hp] at hk
      simp only [hk] at hcp
      rcases Except.bind_eq_ok.mp hcp with ⟨_, _, hcp⟩
      rcases Except.bind_eq_ok.mp hcp with ⟨_, _, hcp⟩
      rcases Except.bind_eq_ok.mp hcp with ⟨_, _, hcp⟩
      rcases Except.bind_eq_ok.mp hcp with ⟨_, hhead, _⟩
      exact require_eq_ok hhead
    . simp [throw, throwThe, MonadExceptOf.throw] at hcp
  . simp [throw, throwThe, MonadExceptOf.throw] at hcp

theorem head_of_checkCheckpoints {pinned : Bytes} {es : List Entry} {prev : Option Str} {i : Nat}
    {cps : List Json} (hcps : checkCheckpoints env pinned es prev i cps = .ok ())
    {k : List (Str × Cbor)} (hk : k ∈ cps.filterMap (checkpointClaims? env pinned))
    : isClaim (claim k (txt "chainHeadHash"))
        ((es.filter fun e => inWindow k e.record).getLast?.map Entry.hash) = true := by
  induction cps generalizing prev i with
  | nil => simp at hk
  | cons cp cps ih =>
    rcases Except.bind_eq_ok.mp hcps with ⟨hash, hcp, hcps⟩
    rcases List.mem_filterMap.mp hk with ⟨cp', hmem, hclaims⟩
    rcases List.mem_cons.mp hmem with rfl | hmem
    . exact head_of_checkCheckpoint hcp hclaims
    . exact ih hcps (List.mem_filterMap.mpr ⟨cp', hmem, hclaims⟩)

/--
What a VALID verdict has read, and the head of every window.
-/
theorem read_of_valid {req : Request} (hvalid : (verifyLedger env req).Valid)
    : ∃ es, readLedger env req.decisionsText req.recordKey = .ok es ∧
        Nonempty (Read env req.recordKey req.decisionsText es) ∧
        ∀ k ∈ checkpointsOf env req.checkpointsText req.checkpointKey,
          isClaim (claim k (txt "chainHeadHash"))
            ((es.filter fun e => inWindow k e.record).getLast?.map Entry.hash) = true := by
  rcases valid_verifyLedger hvalid with ⟨es, inputs, rows, hledger, _, _, hlater⟩
  rcases Except.bind_eq_ok.mp hlater with ⟨_, _, hlater⟩
  rcases Except.bind_eq_ok.mp hlater with ⟨_, _, hlater⟩
  rcases Except.bind_eq_ok.mp hlater with ⟨_, hcheckpoints, _⟩
  rcases Except.bind_eq_ok.mp hcheckpoints with ⟨cps, hcps, hcheck⟩
  refine ⟨es, hledger, read_of_readLedger hledger, ?_⟩
  intro k hk
  simp only [checkpointsOf, hcps] at hk
  exact head_of_checkCheckpoints hcheck hk

/--
The last element that a filter keeps, with nothing to keep after it.
-/
theorem exists_split_of_getLast?_filter {α : Type} {p : α → Bool} {xs : List α} {x : α}
    (h : (xs.filter p).getLast? = some x)
    : ∃ pre post, xs = pre ++ [x] ++ post ∧ ∀ y ∈ post, p y = false := by
  rcases List.getLast?_eq_some_iff.mp h with ⟨ys, hys⟩
  rcases List.filter_eq_append_iff.mp hys with ⟨front, back, rfl, _, hback⟩
  rcases List.filter_eq_cons_iff.mp hback with ⟨skipped, post, rfl, _, _, hpost⟩
  refine ⟨front ++ skipped, post, by simp, ?_⟩
  intro y hy
  have := List.filter_eq_nil_iff.mp hpost y hy
  simpa using this

theorem Read.window_eq {pinned : Bytes} {text : Str} {es : List Entry}
    (r : Read env pinned text es) (k : List (Str × Cbor))
    : es.filter (fun e => inWindow k e.record)
        = (r.items.filter fun x => inWindow k x.2.record).map Prod.snd :=
  calc es.filter (fun e => inWindow k e.record)
      = (r.items.map Prod.snd).filter (fun e => inWindow k e.record) := by rw [r.entries_eq]
    _ = (r.items.filter fun x => inWindow k x.2.record).map Prod.snd := List.filter_map

/--
A record inside of a window has a last record of the window behind it, or is this record.
-/
theorem exists_head {pinned : Bytes} {text : Str} {es : List Entry} (r : Read env pinned text es)
    {k : List (Str × Cbor)} {i : Nat} {e : Entry} (he : es[i]? = some e)
    (hwindow : inWindow k e.record = true)
    : ∃ pre x post, r.items = pre ++ [x] ++ post ∧ i ≤ pre.length ∧
        ((es.filter fun e => inWindow k e.record).getLast?.map Entry.hash) = some x.2.hash := by
  rw [← r.entries_eq, List.getElem?_map, Option.map_eq_some_iff] at he
  rcases he with ⟨y, hy, rfl⟩
  have hmem : y ∈ r.items.filter fun x => inWindow k x.2.record :=
    List.mem_filter.mpr ⟨List.mem_of_getElem? hy, hwindow⟩
  rcases List.getLast?_isSome.mpr (List.ne_nil_of_mem hmem) |> Option.isSome_iff_exists.mp
    with ⟨x, hx⟩
  rcases exists_split_of_getLast?_filter hx with ⟨pre, post, hsplit, hpost⟩
  refine ⟨pre, x, post, hsplit, ?_, ?_⟩
  . by_contra hlt
    rw [hsplit, List.getElem?_append_right (by simp; omega)] at hy
    have := hpost y (List.mem_of_getElem? hy)
    rw [hwindow] at this
    exact absurd this (by simp)
  . rw [r.window_eq, List.getLast?_map, hx]
    rfl

/--
One side: a record inside of a window of the first file is at the same position of the second one.
-/
theorem take_eq_of_windowed {pinned : Bytes} {text text' : Str} {es es' : List Entry}
    (r : Read env pinned text es) (r' : Read env pinned text' es') {k : List (Str × Cbor)}
    (hhead : isClaim (claim k (txt "chainHeadHash"))
      ((es.filter fun e => inWindow k e.record).getLast?.map Entry.hash) = true)
    (hhead' : isClaim (claim k (txt "chainHeadHash"))
      ((es'.filter fun e => inWindow k e.record).getLast?.map Entry.hash) = true)
    {i : Nat} {e : Entry} (he : es[i]? = some e) (hwindow : inWindow k e.record = true)
    : (i < (recordOctets env text).length ∧ i < (recordOctets env text').length ∧
        (recordOctets env text).take (i + 1) = (recordOctets env text').take (i + 1)) ∨
        Collides env.sha256 (recordOctets env text ++ recordOctets env text') := by
  rcases exists_head r he hwindow with ⟨pre, x, post, hitems, hi, hlast⟩
  have hsame := isClaim_unique hhead hhead'
  rw [hlast] at hsame
  rcases Option.map_eq_some_iff.mp hsame.symm with ⟨e', he', hhash⟩
  -- the window of the other file ends in a record with the same hash
  rw [r'.window_eq, List.getLast?_map, Option.map_eq_some_iff] at he'
  rcases he' with ⟨x', hx', rfl⟩
  rcases exists_split_of_getLast?_filter hx' with ⟨pre', post', hsplit', _⟩
  rcases octets_eq_of_head r r' hitems hsplit' hhash.symm with heq | hcol
  . have hlen := congrArg List.length heq
    simp only [List.length_map, List.length_append, List.length_singleton] at hlen
    have hleft : recordOctets env text
        = (pre ++ [x]).map Prod.fst ++ post.map Prod.fst := by
      rw [← r.octets_eq, hitems, List.map_append]
    have hright : recordOctets env text'
        = (pre ++ [x]).map Prod.fst ++ post'.map Prod.fst := by
      rw [← r'.octets_eq, hsplit', List.map_append, heq]
    refine Or.inl ⟨?_, ?_, ?_⟩
    . rw [hleft]
      simp only [List.length_append, List.length_map, List.length_singleton]
      omega
    . rw [hright]
      simp only [List.length_append, List.length_map, List.length_singleton]
      omega
    . rw [hleft, hright, List.take_append_of_le_length (by simp; omega),
        List.take_append_of_le_length (by simp; omega)]
  . exact Or.inr hcol

end

/--
Two VALID ledgers under the same checkpoints have the same records, in the same positions, up to the
last one inside of any window.
-/
theorem checkpoints_bind_decisions (env : Env) (req req' : Request)
    (hrecordKey : req.recordKey = req'.recordKey)
    (hcheckpointKey : req.checkpointKey = req'.checkpointKey)
    (hcheckpoints : req.checkpointsText = req'.checkpointsText)
    (hvalid : (verifyLedger env req).Valid) (hvalid' : (verifyLedger env req').Valid)
    : (∀ i, Windowed env req i ∨ Windowed env req' i →
        i < (recordOctets env req.decisionsText).length ∧
        i < (recordOctets env req'.decisionsText).length ∧
        (recordOctets env req.decisionsText).take (i + 1)
          = (recordOctets env req'.decisionsText).take (i + 1)) ∨
        Collides env.sha256
          (recordOctets env req.decisionsText ++ recordOctets env req'.decisionsText) := by
  rcases read_of_valid hvalid with ⟨es, hes, ⟨r⟩, hheads⟩
  rcases read_of_valid hvalid' with ⟨es', hes', ⟨r'⟩, hheads'⟩
  rw [← hrecordKey] at r'
  rw [← hcheckpointKey, ← hcheckpoints] at hheads'
  by_cases hcol : Collides env.sha256
    (recordOctets env req.decisionsText ++ recordOctets env req'.decisionsText)
  . exact Or.inr hcol
  . refine Or.inl fun i hwindowed => ?_
    rcases hwindowed with ⟨es₁, e, k, hread, he, hk, hwindow⟩ | ⟨es₁, e, k, hread, he, hk, hwindow⟩
    . rw [hes, Except.ok.injEq] at hread
      subst hread
      exact (take_eq_of_windowed r r' (hheads k hk) (hheads' k hk) he hwindow).resolve_right hcol
    . rw [hes', Except.ok.injEq] at hread
      subst hread
      rw [← hcheckpointKey, ← hcheckpoints] at hk
      rcases take_eq_of_windowed r' r (hheads' k hk) (hheads k hk) he hwindow
        with ⟨hlt', hlt, heq⟩ | hcol'
      . exact ⟨hlt, hlt', heq.symm⟩
      . exact absurd (hcol'.mono (by intro m; simp [or_comm])) hcol

/-!
A ledger of three refusals, a checkpoint whose window has two of them, and a ledger of these two
after a blank line.
-/

def exampleRefusal (prevRecordHash : Option Bytes) (timestampMs : Nat)
    : List (Str × Option (Int ⊕ Str)) :=
  (exampleClaims (exampleHash 0x61) (prevRecordHash.map Hex.ofBytes) timestampMs).map
    fun (name, v) =>
      if name = txt "decision" then (name, some (.inr (txt "deny")))
      else if name = txt "effectHash" ∨ name = txt "effectClass" then (name, none)
      else (name, v)

def exampleRefusalHash : Bytes :=
  Cbor.beBytes 32 0xeffc0cfd51f3bd7f3cac8ffd8f1bc309b2a74e2545aea451a25d36e3568ecd6e

def exampleHeadHash : Bytes :=
  Cbor.beBytes 32 0xe450345ce69b2982d5c8a1d7997ccd4187bab7630042d636603fd735ac8f3a29

/--
The refusals with their signatures.
-/
def exampleRefusals : List (List (Str × Option (Int ⊕ Str)) × Bytes) := [
  (exampleRefusal none 1,
    Cbor.beBytes 32 0xf782b8299adc92d493eddd6fcb00241f54c46d4277b42f9cb3c20576e05dc105 ++
    Cbor.beBytes 32 0x105ecb79df5809b00ac9437f6ad6856ac630219fd8023222bf606c3f1feb8200),
  (exampleRefusal (some exampleRefusalHash) 2,
    Cbor.beBytes 32 0xa420e6e45ad13cf47490363ec215c5b6b616a84671d852b62ce2e4bca8f723f2 ++
    Cbor.beBytes 32 0xf5c646d6d8f46fa825abcc03fad5b823c7e812c6b1e19036dd3a419b2135a808),
  (exampleRefusal (some exampleHeadHash) 11,
    Cbor.beBytes 32 0xbda977620fa8c11d26d9c48c7e51f49b4d3c7819965e2bb26a1e3d0b00bb6952 ++
    Cbor.beBytes 32 0x79e320d390e1e0295cdbc83f9666cf0222c0965cbd23ca27b21d11bd6c1af20d)]

def exampleCheckpoint : List (Int × Str × Option (Int ⊕ Str)) := [
  (-70101, txt "epoch", some (.inl 0)), (-70102, txt "startMs", some (.inl 0)),
  (-70103, txt "endMs", some (.inl 10)), (-70104, txt "receiptCount", some (.inl 2)),
  (-70105, txt "chainHeadHash", some (.inr (Hex.ofBytes exampleHeadHash))),
  (-70106, txt "totals", none), (-70107, txt "prevCheckpointHash", none)]

def exampleCheckpointHeader : Bytes := exampleEncode <| .map [
  (.int 1, .int algEd25519), (.int 3, .text ctCheckpoint),
  (.int 4, .bytes ((sha256 exampleDer).take 8))]

def exampleCheckpointPayload : Bytes :=
  exampleEncode <| .map <| exampleCheckpoint.map fun c => (.int c.1, exampleCbor c.2.2)

def exampleCheckpointSignature : Bytes :=
  Cbor.beBytes 32 0xe41371693b40a24fbf9f481af7535864d58a529bd399f72926c842345db56efe ++
  Cbor.beBytes 32 0xc2c8b0666052483d8dce47717284461ab883f641a893c1d35f4f87236f3e6200

def exampleCheckpointsText : Str := Json.dumps true <| .obj [
  (txt "coseHex", .str (Hex.ofBytes (exampleEncode (.arr [
    .bytes exampleCheckpointHeader, .map [], .bytes exampleCheckpointPayload,
    .bytes exampleCheckpointSignature])))),
  (txt "claims", .obj (exampleCheckpoint.map fun c => (c.2.1, exampleJson c.2.2)))]

/--
The library on the signatures that are there.
-/
def exampleCheckpointEnv : Env :=
  { exampleEnv with
    loadDer := fun der =>
      if der = exampleDer then
        some ⟨true, some fun sig msg =>
          (exampleRefusals.any fun (claims, signature) => sig = signature &&
              msg = exampleEncode (sigStructure exampleHeader (examplePayload claims))) ||
            (sig = exampleCheckpointSignature &&
              msg = exampleEncode
                (sigStructure exampleCheckpointHeader exampleCheckpointPayload))⟩
      else
        none }

def exampleLedger (refusals : List (List (Str × Option (Int ⊕ Str)) × Bytes)) : Str :=
  refusals.flatMap fun (claims, signature) =>
    Json.dumps true (exampleLine claims signature) ++ txt "\n"

def exampleCheckpointed : Request :=
  { exampleRequest with
    decisionsText := exampleLedger exampleRefusals
    effectsText := []
    checkpointsText := exampleCheckpointsText }

def exampleSpaced : Request :=
  { exampleCheckpointed with
    decisionsText := txt "\n" ++ exampleLedger (exampleRefusals.take 2) }

theorem exampleCheckpointed_valid
    : (verifyLedger exampleCheckpointEnv exampleCheckpointed).Valid ∧
        (verifyLedger exampleCheckpointEnv exampleSpaced).Valid := by
  simp only [exampleCheckpointEnv, exampleCheckpointed, exampleSpaced, exampleEnv, exampleRequest,
    exampleLedger, exampleLine, exampleRefusals, exampleRefusal, exampleClaims, exampleHeader,
    examplePem, exampleDer, exampleDer.examplePublicKey, exampleCheckpointHeader,
    exampleCheckpointsText, sha256_eq_fast, txt_ofList]
  decide +kernel

theorem checkpoints_bind_decisions_exampleCheckpointed
    : (∀ i, Windowed exampleCheckpointEnv exampleCheckpointed i ∨
          Windowed exampleCheckpointEnv exampleSpaced i →
        i < (recordOctets exampleCheckpointEnv exampleCheckpointed.decisionsText).length ∧
        i < (recordOctets exampleCheckpointEnv exampleSpaced.decisionsText).length ∧
        (recordOctets exampleCheckpointEnv exampleCheckpointed.decisionsText).take (i + 1)
          = (recordOctets exampleCheckpointEnv exampleSpaced.decisionsText).take (i + 1)) ∨
        Collides sha256
          (recordOctets exampleCheckpointEnv exampleCheckpointed.decisionsText ++
            recordOctets exampleCheckpointEnv exampleSpaced.decisionsText) :=
  checkpoints_bind_decisions exampleCheckpointEnv exampleCheckpointed exampleSpaced rfl rfl rfl
    exampleCheckpointed_valid.1 exampleCheckpointed_valid.2

end Cedulon
end CryptoValid
