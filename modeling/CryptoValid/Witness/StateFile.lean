import CryptoValid.Lib.Json.Printed
import CryptoValid.Lib.PythonLines
import CryptoValid.Witness.Bounds

/-!
This module contains the state file of the witness: how the state is written, the checks with which it
is read, and that nothing that a request can put there makes the witness refuse its own file.
-/

namespace CryptoValid
namespace Witness

open Checkpoint
open Python (printable)

/-!
### Writing
-/

def Kind.text : Kind → Str
  | .splitView => txt "split-view"
  | .splitViewUnkept => txt "split-view-unkept"
  | .rollback => txt "rollback"
  | .unprovenExtension => txt "unproven-extension"

def dictJson (key : κ → Str) (value : ν → Json) (d : Dict κ ν) : Json :=
  .obj (d.items.map fun p => (key p.1, value p.2))

def Entry.toJson (e : Entry) : Json := .obj [
  (txt "size", .int e.size),
  (txt "root_b64", .str e.rootB64),
  (txt "note", .str e.note),
  (txt "cosigned_at", .int e.cosignedAt)]

def noteJson : Option Str → Json
  | none => .null
  | some note => .str note

def Pending.toJson (p : Pending) : Json := dictJson Json.natText (dictJson id noteJson) p

def Refusal.toJson (e : Refusal) : Json := .obj [
  (txt "tipo", .str e.kind.text),
  (txt "size", .int e.size),
  (txt "root_b64", .str e.rootB64),
  (txt "quando", .int e.quando)]

def Ring.toJson (r : Ring) : Json := .obj [
  (txt "count", .int r.count),
  (txt "last", .arr (r.last.map Refusal.toJson))]

/--
What comes after `origins`, in the order in which the requests needed it.
-/
inductive Part where
  | pending
  | refusals
  | proofsSeen
  deriving DecidableEq

def Part.key : Part → Str
  | .pending => txt "pending"
  | .refusals => txt "refusals"
  | .proofsSeen => txt "proofs_seen"

def State.part (st : State) : Part → Json
  | .pending => dictJson id Pending.toJson st.pending
  | .refusals => dictJson id Ring.toJson st.refusals
  | .proofsSeen => .arr (st.proofsSeen.map .str)

def State.toJson (st : State) (parts : List Part) : Json :=
  .obj ((txt "origins", dictJson id Entry.toJson st.origins) ::
    parts.map fun part => (part.key, st.part part))

/--
A part that is not there is empty.
-/
structure State.Written (st : State) (parts : List Part) : Prop where
  nodup : parts.Nodup
  pending : .pending ∉ parts → st.pending = Dict.empty
  refusals : .refusals ∉ parts → st.refusals = Dict.empty
  proofsSeen : .proofsSeen ∉ parts → st.proofsSeen = []

def Entry.integers (e : Entry) : List Int := [e.size, e.cosignedAt]

def Ring.integers (r : Ring) : List Int :=
  r.count :: r.last.flatMap fun e => [(e.size : Int), e.quando]

/--
The integers in a state file. The sizes of pending notes are keys, so that they are texts.
-/
def State.integers (st : State) : List Int :=
  (st.origins.items.flatMap fun p => p.2.integers) ++ st.refusals.items.flatMap fun p => p.2.integers

/--
`_save_state`: the bytes of the file, if the state can be printed and encoded.
-/
def saveState (interp : Python.Interp) (st : State) (parts : List Part) : Option Bytes :=
  if st.integers.all (printable interp) then
    Utf8.encode? (Json.dumpsIn .indented false 0 (st.toJson parts))
  else
    none

/-!
### Reading
-/

def isStr : Json → Bool
  | .str _ => true
  | _ => false

/--
`isinstance(v, int)`.
-/
def isInt : Json → Bool
  | .int _ => true
  | .bool _ => true
  | _ => false

def isObj : Json → Bool
  | .obj _ => true
  | _ => false

def isArr : Json → Bool
  | .arr _ => true
  | _ => false

def membersOf : Json → List (Str × Json)
  | .obj ms => ms
  | _ => []

/--
The notes that are pending at a size.
-/
def rootsFormed : Json → Bool
  | .obj roots => roots.all fun r => r.2 == .null || isStr r.2
  | _ => false

def sizesFormed : Json → Bool
  | .obj sizes => sizes.all fun s => isSizeText s.1 && rootsFormed s.2
  | _ => false

def refusalFormed (e : Json) : Bool :=
  isObj e && (e.get? (txt "root_b64")).any isStr && (e.get? (txt "size")).any isInt

def ringFormed (r : Json) : Bool :=
  isObj r && (r.get? (txt "count")).any isInt &&
    match r.get? (txt "last") with
    | some (.arr es) => es.all refusalFormed
    | _ => false

/--
A size is no bool, and not negative.
-/
def sizeFormed : Json → Bool
  | .int n => 0 ≤ n
  | _ => false

def timeFormed : Json → Bool
  | .int _ => true
  | _ => false

def entryFormed (e : Json) : Bool :=
  isObj e && (e.get? (txt "size")).any sizeFormed && (e.get? (txt "root_b64")).any isStr &&
    (e.get? (txt "note")).any isStr && (e.get? (txt "cosigned_at")).all timeFormed

def rootFormed (e : Json) : Bool :=
  match e.get? (txt "root_b64") with
  | some (.str root) => (Base64.decode? root).any fun raw => raw.length = 32
  | _ => false

inductive StateError where
  | unreadable (e : Option Python.LoadsError)
  | note (message : NoteError)
  deriving DecidableEq

def StateError.malformed : StateError := .note (txt "witness state file malformed")

section

variable (repr : Str → Str)

/--
What is wrong with the stored checkpoint of an origin, if anything.
-/
def checkEntry (m : Str × Json) : Except StateError Unit :=
  if !entryFormed m.2 then
    .error (.note (txt "witness state entry for origin " ++ repr m.1 ++ txt " malformed"))
  else if !rootFormed m.2 then
    .error (.note (txt "witness state entry for origin " ++ repr m.1 ++
      txt ": root is not 32 bytes base64"))
  else
    .ok ()

def checkPending (m : Str × Json) : Except StateError Unit :=
  if sizesFormed m.2 then .ok ()
  else .error (.note (txt "witness state pending index for origin " ++ repr m.1 ++ txt " malformed"))

def checkRing (m : Str × Json) : Except StateError Unit :=
  if ringFormed m.2 then .ok ()
  else .error (.note (txt "witness state refusals for origin " ++ repr m.1 ++ txt " malformed"))

def checkState (st : Json) : Except StateError Unit :=
  if !(isObj st && (st.get? (txt "origins")).any isObj) then
    .error .malformed
  else if !((st.get? (txt "pending")).all isObj && (st.get? (txt "proofs_seen")).all isArr &&
      (st.get? (txt "refusals")).all isObj) then
    .error .malformed
  else do
    (membersOf ((st.get? (txt "pending")).getD (.obj []))).forM (checkPending repr)
    (membersOf ((st.get? (txt "refusals")).getD (.obj []))).forM (checkRing repr)
    (membersOf ((st.get? (txt "origins")).getD (.obj []))).forM (checkEntry repr)

/--
`_load_state`: without a file there are no origins.
-/
def loadState (interp : Python.Interp) : Option Bytes → Except StateError Json
  | none => .ok (State.empty.toJson [])
  | some bytes =>
    match Utf8.decode? bytes with
    | none => .error (.unreadable none)
    | some text =>
      match Python.loads interp (Python.universalNewlines text) with
      | .error e => .error (.unreadable (some e))
      | .ok st => do
        checkState repr st
        return st

end

/-!
### Reading what was written
-/

/--
A value that is printed, encoded and read back as it was.
-/
def Printed (interp : Python.Interp) (v : Json) : Prop :=
  v.All fun v => Json.Accepts (Python.plainHooks interp) false v ∧ Json.NotFloat v ∧ Json.ScalarText v

section

variable {interp : Python.Interp}

theorem printed_null : Printed interp .null := ⟨trivial, trivial, trivial⟩

theorem printed_str {s : Str} (h : Str.Scalar s) : Printed interp
    (.str s) := ⟨by simp [Json.Accepts],
  trivial, h⟩

theorem printed_int {i : Int} (h : printable interp i = true) : Printed interp (.int i) := by
  refine ⟨?_, trivial, trivial⟩
  have hdigits : (Json.intText i).filter Json.isDigit = Json.natText i.natAbs := by
    have hnat := List.filter_eq_self.mpr (Json.natText_isDigit i.natAbs)
    unfold Json.intText
    split
    . rw [List.filter_cons_of_neg (by decide), hnat]
    . exact hnat
  have hlimit : ¬interp.maxStrDigits.any fun limit =>
      limit < ((Json.intText i).filter Json.isDigit).length := by
    rw [hdigits]
    unfold printable at h
    cases hmax : interp.maxStrDigits with
    | none => simp
    | some limit =>
      rw [hmax] at h
      simpa using h
  simp only [Json.Accepts, Python.plainHooks, if_neg hlimit, Json.intOfText_intText]

theorem printed_arr {xs : List Json} (h : ∀ x ∈ xs, Printed interp x) : Printed interp (.arr xs) :=
  (Json.all_arr _ _).mpr ⟨⟨trivial, trivial, trivial⟩, h⟩

theorem printed_obj {ms : List (Str × Json)} (hnodup : (ms.map Prod.fst).Nodup)
    (hkeys : ∀ m ∈ ms, Str.Scalar m.1) (h : ∀ m ∈ ms, Printed interp m.2)
    : Printed interp (.obj ms) := by
  refine (Json.all_obj _ _).mpr ⟨⟨⟨?_, fun hascii => absurd hascii (by decide)⟩, trivial, hkeys⟩, h⟩
  simp only [Python.plainHooks, Json.dictOfPairs_of_nodup hnodup]

theorem printed_dictJson [DecidableEq κ] {key : κ → Str} {value : ν → Json} {d : Dict κ ν}
    (hkey : Function.Injective key)
    (h : d.Each fun k v => Str.Scalar (key k) ∧ Printed interp (value v))
    : Printed interp (dictJson key value d) := by
  rw [Dict.each_iff] at h
  refine printed_obj ?_ ?_ ?_
  . rw [List.map_map]
    have hnodup := d.nodup.map hkey
    rwa [List.map_map] at hnodup
  . intro m hm
    rcases List.mem_map.mp hm with ⟨p, hp, rfl⟩
    exact (h p hp).1
  . intro m hm
    rcases List.mem_map.mp hm with ⟨p, hp, rfl⟩
    exact (h p hp).2

theorem depth_dictJson [DecidableEq κ] {key : κ → Str} {value : ν → Json} {n : Nat} {d : Dict κ ν}
    (h : d.Each fun _ v => (value v).depth ≤ n) : (dictJson key value d).depth ≤ n + 1 := by
  rw [Dict.each_iff] at h
  rw [dictJson, Json.depth, Nat.add_le_add_iff_right, Json.depthMembers_le_iff]
  intro m hm
  rcases List.mem_map.mp hm with ⟨p, hp, rfl⟩
  exact h p hp

/--
A printed value is found in the file again.
-/
theorem loads_encode? {v : Json} (hv : Printed interp v) (hdepth : v.depth ≤ interp.recursionLimit)
    : ∃ bytes text, Utf8.encode? (Json.dumpsIn .indented false 0 v) = some bytes ∧
        Utf8.decode? bytes = some text ∧
        Python.loads interp (Python.universalNewlines text) = .ok v := by
  have hscalar := Json.scalar_dumpsIn Json.Layout.scalar_indented v (hv.imp fun _ h => h.2) 0
  refine ⟨_, _, if_pos hscalar, decode?_utf8 hscalar, Python.loads_universalNewlines ?_⟩
  exact Json.loads_dumpsIn _ Json.Layout.blank_indented false 0 v (hv.imp fun _ h => h.1) hdepth

end

/-!
### What requests put into the state
-/

/--
The roots at a size of a checkpoint: texts that can be encoded, and one of them at least.
-/
structure RootsSound (size : Nat) (roots : Dict Str (Option Str)) : Prop where
  filled : roots.items ≠ []
  size_le : size ≤ maxSize
  scalar : roots.Each fun root note => Str.Scalar root ∧ ∀ text ∈ note, Str.Scalar text

theorem lasts_rootsSound : Pending.Lasts RootsSound :=
  ⟨fun _ _ h => h.filled, fun _ _ root h hleft => ⟨hleft, h.size_le, h.scalar.erase root⟩⟩

/--
Everything in the state is what the loader asks for.
-/
structure Sound (st : State) : Prop where
  origins : st.origins.Each fun origin e => Str.Scalar origin ∧ Str.Scalar e.rootB64 ∧
    Str.Scalar e.note ∧ ∃ raw, Base64.decode? e.rootB64 = some raw ∧ raw.length = 32
  pending : st.pending.Each fun origin p => Str.Scalar origin ∧ p.Each RootsSound
  refusals : st.refusals.Each fun origin r =>
    Str.Scalar origin ∧ ∀ e ∈ r.last, Str.Scalar e.rootB64
  proofsSeen : ∀ key ∈ st.proofsSeen, Str.Scalar key

theorem sound_empty : Sound .empty :=
  ⟨Dict.each_empty, Dict.each_empty, Dict.each_empty, by simp [State.empty]⟩

/--
A checkpoint that was parsed, from a note that was decoded.
-/
structure Ctx.Sound (c : Ctx) : Prop where
  origin : Str.Scalar c.cp.origin
  size_le : c.cp.size ≤ maxSize
  length_root : c.cp.root.length = 32
  presentato : Str.Scalar c.presentato

theorem scalar_rootB64 (c : Ctx) : Str.Scalar c.rootB64 :=
  scalar_of_decode? (Base64.decode?_encode c.cp.root)

section

variable {sha256 : HashFn 32} {crypto : Crypto} {keys : Keys} {c : Ctx}

theorem Accepted.sound {r : Request} {p : Presented} {logKeys : List VKey} {lines : List Str}
    {own : List Bytes} (h : Accepted sha256 crypto keys r p logKeys lines own) (host : Host)
    (files : Files) : (p.ctx host files r).Sound := by
  rcases parseCheckpoint_eq_ok.mp h.opened.parse_eq with ⟨hcp, htext⟩
  have hscalar := h.text_ends.2
  refine ⟨?_, hcp.size_le, hcp.root_length, ?_⟩
  . intro ch hch
    refine hscalar ch ?_
    rw [htext, checkpointLines, Separated.terminated, List.flatMap_cons]
    exact List.mem_append_left _ (List.mem_append_left _ hch)
  . rw [Presented.ctx, Str.scalar_append, Str.scalar_cons]
    refine ⟨hscalar, by decide, scalar_terminated fun line hline => ?_⟩
    exact (h.lines_plain line (h.mem_trustedLines_iff.mp hline).1).2

theorem Sound.edit (hc : c.Sound) {a b : State} (h : Edit sha256 c a b)
    (ha : Sound a) : Sound b := by
  cases h with
  | seen root full =>
    refine ⟨ha.origins, ha.pending, ha.refusals, fun key hkey => ?_⟩
    dsimp only at hkey
    rcases List.mem_append.mp (mem_of_mem_takeLast hkey) with hkey | hkey
    . exact ha.proofsSeen key hkey
    . rw [List.mem_singleton.mp hkey, pairKey, Str.scalar_append]
      refine ⟨Hex.scalar_ofBytes _, ?_⟩
      cases full <;> decide
  | refusal kind =>
    refine ⟨ha.origins, ha.pending, ha.refusals.set ⟨hc.origin, fun e he => ?_⟩, ha.proofsSeen⟩
    rcases List.mem_append.mp (mem_of_mem_takeLast he) with he | he
    . rw [State.ringOf] at he
      exact (ha.refusals.getD (v := Ring.empty) c.cp.origin ⟨hc.origin, by simp [Ring.empty]⟩).2 e he
    . rw [List.mem_singleton.mp he]
      exact scalar_rootB64 c
  | keep =>
    have hpendO : (a.pendingOf c.cp.origin).Each RootsSound :=
      (ha.pending.getD (v := Dict.empty) c.cp.origin ⟨hc.origin, Dict.each_empty⟩).2
    refine ⟨ha.origins, ha.pending.set ⟨hc.origin, keepPending_each lasts_rootsSound ?_ hpendO⟩,
      ha.refusals, ha.proofsSeen⟩
    refine ⟨kept_ne_nil _, hc.size_le, ?_⟩
    have hpend : (((a.pendingOf c.cp.origin).get? c.cp.size).getD Dict.empty).Each fun root note =>
        Str.Scalar root ∧ ∀ text ∈ note, Str.Scalar text := by
      cases hget : (a.pendingOf c.cp.origin).get? c.cp.size with
      | none => exact Dict.each_empty
      | some roots => exact (hpendO _ roots hget).scalar
    split
    . refine hpend.set ⟨scalar_rootB64 c, ?_⟩
      unfold Ctx.small
      split
      . simpa using hc.presentato
      . simp
    . exact hpend
  | drop p hp =>
    exact ⟨ha.origins, ha.pending.set ⟨hc.origin, Dict.Each.erase (ha.pending _ p hp).2 c.cp.size⟩,
      ha.refusals, ha.proofsSeen⟩

variable (sha256 crypto keys) in
theorem sound_step {files : Files} (call : Call) (h : Sound files.load)
    : Sound (step sha256 crypto keys files call).load := by
  rcases step_saves sha256 crypto keys files call with heq | ⟨p, st, hpresent, hst, hsaves⟩
  . rw [Files.load, heq]
    exact h
  . rw [Files.load, hst]
    rcases accepted_of_present hpresent with ⟨logKeys, lines, own, haccepted⟩
    have hc := haccepted.sound call.host files
    refine hsaves.invariant (fun _ _ => Sound.edit hc) ?_ h
    intro a note timestamp hnote ha
    refine ⟨ha.origins.set ⟨hc.origin, scalar_rootB64 _, hnote hc.presentato, ?_⟩, ha.pending,
      ha.refusals, ha.proofsSeen⟩
    exact ⟨_, Base64.decode?_encode _, hc.length_root⟩

end

/-!
### What is written is taken
-/

theorem natText_injective : Function.Injective Json.natText :=
  Function.LeftInverse.injective Json.natOfText_natText

theorem Part.key_injective : Function.Injective Part.key := by
  intro a b h
  cases a <;> cases b <;> first | rfl | exact absurd h (by decide)

theorem Part.key_ne_origins (part : Part) : part.key ≠ txt "origins" := by
  cases part <;> decide

theorem State.get?_origins (st : State) (parts : List Part)
    : (st.toJson parts).get? (txt "origins") = some (dictJson id Entry.toJson st.origins) := by
  simp [State.toJson, Json.get?, Assoc.lookup_cons]

theorem State.get?_part (st : State) (parts : List Part) (part : Part)
    : (st.toJson parts).get? part.key = if part ∈ parts then some (st.part part) else none := by
  rw [State.toJson, Json.get?, Assoc.lookup_cons, if_neg part.key_ne_origins]
  induction parts with
  | nil => rfl
  | cons other parts ih =>
    rw [List.map_cons, Assoc.lookup_cons]
    by_cases heq : part = other
    . simp [heq]
    . rw [if_neg fun h => heq (Part.key_injective h), ih]
      simp [heq]

section

variable {interp : Python.Interp} {st : State} {parts : List Part}

theorem printed_entry {e : Entry} (hroot : Str.Scalar e.rootB64) (hnote : Str.Scalar e.note)
    (hints : ∀ i ∈ e.integers, printable interp i = true) : Printed interp e.toJson := by
  simp only [Entry.integers, List.forall_mem_cons] at hints
  refine printed_obj (show [txt "size", txt "root_b64", txt "note", txt "cosigned_at"].Nodup by decide)
    ?_ ?_
  . simp only [List.forall_mem_cons, List.not_mem_nil, false_imp_iff, implies_true, and_true]
    decide
  . simp only [List.forall_mem_cons, List.not_mem_nil, false_imp_iff, implies_true, and_true]
    exact ⟨printed_int hints.1, printed_str hroot, printed_str hnote, printed_int hints.2.1⟩

theorem printed_refusal {e : Refusal} (hroot : Str.Scalar e.rootB64)
    (hsize : printable interp e.size = true) (hquando : printable interp e.quando = true)
    : Printed interp e.toJson := by
  have hkind : Str.Scalar e.kind.text := by cases e.kind <;> decide
  refine printed_obj (show [txt "tipo", txt "size", txt "root_b64", txt "quando"].Nodup by decide)
    ?_ ?_
  . simp only [List.forall_mem_cons, List.not_mem_nil, false_imp_iff, implies_true, and_true]
    decide
  . simp only [List.forall_mem_cons, List.not_mem_nil, false_imp_iff, implies_true, and_true]
    exact ⟨printed_str hkind, printed_int hsize, printed_str hroot, printed_int hquando⟩

theorem printed_ring {r : Ring} (hroots : ∀ e ∈ r.last, Str.Scalar e.rootB64)
    (hints : ∀ i ∈ r.integers, printable interp i = true) : Printed interp r.toJson := by
  simp only [Ring.integers, List.forall_mem_cons] at hints
  have hlast : Printed interp (.arr (r.last.map Refusal.toJson)) := by
    refine printed_arr fun v hv => ?_
    rcases List.mem_map.mp hv with ⟨e, he, rfl⟩
    have hin : ∀ i ∈ [(e.size : Int), e.quando], printable interp i = true :=
      fun i hi => hints.2 i (List.mem_flatMap.mpr ⟨e, he, hi⟩)
    exact printed_refusal (hroots e he) (hin _ (by simp)) (hin _ (by simp))
  refine printed_obj (show [txt "count", txt "last"].Nodup by decide) ?_ ?_
  . simp only [List.forall_mem_cons, List.not_mem_nil, false_imp_iff, implies_true, and_true]
    decide
  . simp only [List.forall_mem_cons, List.not_mem_nil, false_imp_iff, implies_true, and_true]
    exact ⟨printed_int hints.1, hlast⟩

theorem printed_pending {p : Pending} (h : p.Each RootsSound) : Printed interp p.toJson := by
  refine printed_dictJson natText_injective (h.imp fun size roots hroots => ?_)
  refine ⟨scalar_natText size, printed_dictJson Function.injective_id (hroots.scalar.imp ?_)⟩
  rintro root note ⟨hroot, hnote⟩
  cases note with
  | none => exact ⟨hroot, printed_null⟩
  | some text => exact ⟨hroot, printed_str (hnote text rfl)⟩

theorem Sound.printed_toJson (h : Sound st) (hparts : st.Written parts)
    (hints : ∀ i ∈ st.integers, printable interp i = true) : Printed interp (st.toJson parts) := by
  simp only [State.integers, List.forall_mem_append] at hints
  have horigins : Printed interp (dictJson id Entry.toJson st.origins) := by
    refine printed_dictJson Function.injective_id fun origin e hget => ?_
    rcases h.origins origin e hget with ⟨horigin, hroot, hnote, _⟩
    refine ⟨horigin, printed_entry hroot hnote fun i hi => hints.1 i ?_⟩
    exact List.mem_flatMap.mpr ⟨(origin, e), (Dict.mem_items_iff _ _ _).mpr hget, hi⟩
  have hpart : ∀ part, Printed interp (st.part part) := by
    intro part
    cases part with
    | pending =>
      exact printed_dictJson Function.injective_id
        (h.pending.imp fun _ _ hp => ⟨hp.1, printed_pending hp.2⟩)
    | refusals =>
      refine printed_dictJson Function.injective_id fun origin r hget => ?_
      rcases h.refusals origin r hget with ⟨horigin, hroots⟩
      refine ⟨horigin, printed_ring hroots fun i hi => hints.2 i ?_⟩
      exact List.mem_flatMap.mpr ⟨(origin, r), (Dict.mem_items_iff _ _ _).mpr hget, hi⟩
    | proofsSeen =>
      refine printed_arr fun v hv => ?_
      rcases List.mem_map.mp hv with ⟨key, hkey, rfl⟩
      exact printed_str (h.proofsSeen key hkey)
  refine printed_obj ?_ ?_ ?_
  . rw [List.map_cons, List.nodup_cons, List.map_map]
    refine ⟨?_, hparts.nodup.map Part.key_injective⟩
    rw [List.mem_map]
    rintro ⟨part, _, hkey⟩
    exact part.key_ne_origins hkey
  . rw [List.forall_mem_cons, List.forall_mem_map]
    refine ⟨show Str.Scalar (txt "origins") by decide, fun part _ => ?_⟩
    have hkey : Str.Scalar part.key := by cases part <;> decide
    exact hkey
  . rw [List.forall_mem_cons, List.forall_mem_map]
    exact ⟨horigins, fun part _ => hpart part⟩

theorem depth_toJson (st : State) (parts : List Part) : (st.toJson parts).depth ≤ 5 := by
  have horigins : (dictJson id Entry.toJson st.origins).depth ≤ 4 := by
    refine depth_dictJson fun _ e _ => ?_
    simp [Entry.toJson, Json.depth, Json.depthMembers]
  have hpart : ∀ part, (st.part part).depth ≤ 4 := by
    intro part
    cases part with
    | pending =>
      refine depth_dictJson fun _ p _ => depth_dictJson fun _ roots _ => ?_
      refine (depth_dictJson (n := 0) fun _ note _ => ?_).trans (by decide)
      cases note <;> exact Nat.le_refl 0
    | refusals =>
      refine depth_dictJson fun _ r _ => ?_
      have hlast : Json.depthElems (r.last.map Refusal.toJson) ≤ 1 := by
        rw [Json.depthElems_le_iff, List.forall_mem_map]
        intro e _
        simp [Refusal.toJson, Json.depth, Json.depthMembers]
      simp only [Ring.toJson, Json.depth, Json.depthMembers]
      omega
    | proofsSeen =>
      have hkeys : Json.depthElems (st.proofsSeen.map .str) ≤ 0 := by
        rw [Json.depthElems_le_iff, List.forall_mem_map]
        exact fun _ _ => Nat.le_refl 0
      simp only [State.part, Json.depth]
      omega
  rw [State.toJson, Json.depth, Nat.add_le_add_iff_right, Json.depthMembers_le_iff,
    List.forall_mem_cons, List.forall_mem_map]
  exact ⟨horigins, fun part _ => hpart part⟩

theorem sizesFormed_toJson {p : Pending} (h : p.Each RootsSound) : sizesFormed p.toJson = true := by
  rw [Dict.each_iff] at h
  simp only [Pending.toJson, dictJson, sizesFormed, List.all_eq_true, List.forall_mem_map,
    Bool.and_eq_true]
  intro s hs
  refine ⟨isSizeText_natText ?_, ?_⟩
  . exact Nat.lt_of_le_of_lt (h s hs).size_le (by decide)
  . rw [rootsFormed, List.all_eq_true, List.forall_mem_map]
    rintro ⟨root, note⟩ _
    cases note <;> rfl

theorem ringFormed_toJson (r : Ring) : ringFormed r.toJson = true := by
  have hlast : r.toJson.get? (txt "last") = some (.arr (r.last.map Refusal.toJson)) := rfl
  have hrefusals : ∀ e ∈ r.last.map Refusal.toJson, refusalFormed e = true := by
    rw [List.forall_mem_map]
    exact fun e _ => rfl
  rw [ringFormed, hlast]
  simp only [List.all_eq_true.mpr hrefusals, Bool.and_true]
  rfl

theorem checkEntry_toJson (repr : Str → Str) (origin : Str) {e : Entry} {raw : Bytes}
    (hdecode : Base64.decode? e.rootB64 = some raw) (hlength : raw.length = 32)
    : checkEntry repr (origin, e.toJson) = .ok () := by
  have hroot : e.toJson.get? (txt "root_b64") = some (.str e.rootB64) := rfl
  have hsize : (e.toJson.get? (txt "size")).any sizeFormed = true := by
    have hget : e.toJson.get? (txt "size") = some (.int e.size) := rfl
    rw [hget]
    exact decide_eq_true (Int.natCast_nonneg e.size)
  have hformed : entryFormed e.toJson = true := by
    rw [entryFormed, hsize]
    rfl
  have hrooted : rootFormed e.toJson = true := by
    rw [rootFormed, hroot]
    simp [hdecode, hlength]
  simp [checkEntry, hformed, hrooted]

theorem Sound.checkState_toJson (repr : Str → Str) (h : Sound st)
    : checkState repr (st.toJson parts) = .ok () := by
  have hpart : ∀ part m, m ∈ membersOf (((st.toJson parts).get? part.key).getD (.obj [])) →
      m ∈ membersOf (st.part part) := by
    intro part m hm
    rw [State.get?_part] at hm
    split at hm
    . exact hm
    . simp [membersOf] at hm
  have hall : ∀ part (p : Json → Bool), p (st.part part) = true →
      ((st.toJson parts).get? part.key).all p = true := by
    intro part p hp
    rw [State.get?_part]
    split
    . exact hp
    . rfl
  have hpending := hall .pending isObj rfl
  have hproofs := hall .proofsSeen isArr rfl
  have hrefusals := hall .refusals isObj rfl
  simp only [Part.key] at hpending hproofs hrefusals
  have hobj : isObj (st.toJson parts) = true := rfl
  unfold checkState
  rw [State.get?_origins, hobj, hpending, hproofs, hrefusals]
  refine Except.bind_eq_ok.mpr ⟨(), Except.forM_eq_ok.mpr ?_, Except.bind_eq_ok.mpr
    ⟨(), Except.forM_eq_ok.mpr ?_, Except.forM_eq_ok.mpr ?_⟩⟩
  . intro m hm
    rcases List.mem_map.mp (hpart .pending m hm) with ⟨⟨origin, p⟩, hp, rfl⟩
    exact if_pos (sizesFormed_toJson (h.pending origin p ((Dict.mem_items_iff _ _ _).mp hp)).2)
  . intro m hm
    rcases List.mem_map.mp (hpart .refusals m hm) with ⟨⟨origin, r⟩, _, rfl⟩
    exact if_pos (ringFormed_toJson r)
  . intro m hm
    rcases List.mem_map.mp hm with ⟨⟨origin, e⟩, he, rfl⟩
    rcases h.origins origin e ((Dict.mem_items_iff _ _ _).mp he) with ⟨_, _, _, raw, hdecode, hlength⟩
    exact checkEntry_toJson repr origin hdecode hlength

/-!
### The file says what the state is
-/

theorem dictJson_inj [DecidableEq κ] {key : κ → Str} {value : ν → Json}
    (hkey : Function.Injective key) (hvalue : Function.Injective value) {d e : Dict κ ν}
    (h : dictJson key value d = dictJson key value e) : d = e := by
  have hitems : d.items = e.items := by
    refine List.map_injective_iff.mpr ?_ (Json.obj.inj h)
    rintro ⟨k, v⟩ ⟨k', v'⟩ heq
    rw [Prod.mk.injEq] at heq
    exact Prod.ext (hkey heq.1) (hvalue heq.2)
  cases d
  cases e
  simpa using hitems

theorem Entry.toJson_injective : Function.Injective Entry.toJson := by
  intro a b h
  cases a
  cases b
  simp only [Entry.toJson, Json.obj.injEq, List.cons.injEq, Prod.mk.injEq, true_and, and_true,
    Json.int.injEq, Json.str.injEq, Int.natCast_inj] at h
  rcases h with ⟨rfl, rfl, rfl, rfl⟩
  rfl

theorem noteJson_injective : Function.Injective noteJson := by
  intro a b h
  cases a <;> cases b <;> simp_all [noteJson]

theorem Pending.toJson_injective : Function.Injective Pending.toJson := fun _ _ h =>
  dictJson_inj natText_injective (fun _ _ h => dictJson_inj Function.injective_id noteJson_injective h) h

theorem Refusal.toJson_injective : Function.Injective Refusal.toJson := by
  have hkind : Function.Injective Kind.text := by
    intro a b h
    cases a <;> cases b <;> first | rfl | exact absurd h (by decide)
  intro a b h
  cases a
  cases b
  simp only [Refusal.toJson, Json.obj.injEq, List.cons.injEq, Prod.mk.injEq, true_and, and_true,
    Json.int.injEq, Json.str.injEq, Int.natCast_inj, hkind.eq_iff] at h
  rcases h with ⟨rfl, rfl, rfl, rfl⟩
  rfl

theorem Ring.toJson_injective : Function.Injective Ring.toJson := by
  intro a b h
  cases a
  cases b
  simp only [Ring.toJson, Json.obj.injEq, List.cons.injEq, Prod.mk.injEq, true_and, and_true,
    Json.int.injEq, Json.arr.injEq, Int.natCast_inj,
    (List.map_injective_iff.mpr Refusal.toJson_injective).eq_iff] at h
  rcases h with ⟨rfl, rfl⟩
  rfl

/--
Two states with the same file are the same.
-/
theorem State.toJson_inj {st' : State} {parts' : List Part} (hst : st.Written parts)
    (hst' : st'.Written parts') (h : st.toJson parts = st'.toJson parts') : st = st' := by
  have horigins : st.origins = st'.origins := by
    have hget := congrArg (fun v => v.get? (txt "origins")) h
    simp only [State.get?_origins, Option.some.injEq] at hget
    exact dictJson_inj Function.injective_id Entry.toJson_injective hget
  have hpart : ∀ part, part ∈ parts ∧ part ∈ parts' ∧ st.part part = st'.part part ∨
      part ∉ parts ∧ part ∉ parts' := by
    intro part
    have hget := congrArg (fun v => v.get? part.key) h
    simp only [State.get?_part] at hget
    split at hget
    . next hmem =>
      split at hget
      . next hmem' => exact Or.inl ⟨hmem, hmem', Option.some.inj hget⟩
      . simp at hget
    . next hmem =>
      split at hget
      . simp at hget
      . next hmem' => exact Or.inr ⟨hmem, hmem'⟩
  have hpending : st.pending = st'.pending := by
    rcases hpart .pending with ⟨_, _, heq⟩ | ⟨hmem, hmem'⟩
    . exact dictJson_inj Function.injective_id Pending.toJson_injective heq
    . rw [hst.pending hmem, hst'.pending hmem']
  have hrefusals : st.refusals = st'.refusals := by
    rcases hpart .refusals with ⟨_, _, heq⟩ | ⟨hmem, hmem'⟩
    . exact dictJson_inj Function.injective_id Ring.toJson_injective heq
    . rw [hst.refusals hmem, hst'.refusals hmem']
  have hproofs : st.proofsSeen = st'.proofsSeen := by
    rcases hpart .proofsSeen with ⟨_, _, heq⟩ | ⟨hmem, hmem'⟩
    . exact List.map_injective_iff.mpr (fun _ _ => Json.str.inj) (Json.arr.inj heq)
    . rw [hst.proofsSeen hmem, hst'.proofsSeen hmem']
  cases st
  cases st'
  simp only [State.mk.injEq]
  exact ⟨horigins, hpending, hrefusals, hproofs⟩

theorem Sound.loadState_saveState (repr : Str → Str) (h : Sound st) (hparts : st.Written parts)
    (hdepth : 5 ≤ interp.recursionLimit) {bytes : Bytes}
    (hsave : saveState interp st parts = some bytes)
    : loadState repr interp (some bytes) = .ok (st.toJson parts) := by
  unfold saveState at hsave
  split at hsave
  . next hints =>
    have hprinted := h.printed_toJson hparts (List.all_eq_true.mp hints)
    rcases loads_encode? hprinted ((depth_toJson st parts).trans hdepth) with
      ⟨bytes', text, hencode, hdecode, hload⟩
    rw [hencode, Option.some.injEq] at hsave
    subst hsave
    simp only [loadState, hdecode, hload, h.checkState_toJson repr]
    rfl
  . simp at hsave

/--
Only an integer with more digits than the interpreter prints keeps the state from being saved.
-/
theorem Sound.saveState_eq_none (h : Sound st) (hparts : st.Written parts)
    (hdepth : 5 ≤ interp.recursionLimit) (hsave : saveState interp st parts = none)
    : ∃ i ∈ st.integers, printable interp i = false := by
  unfold saveState at hsave
  split at hsave
  . next hints =>
    have hprinted := h.printed_toJson hparts (List.all_eq_true.mp hints)
    rcases loads_encode? hprinted ((depth_toJson st parts).trans hdepth) with ⟨bytes, _, hencode, _⟩
    simp [hencode] at hsave
  . next hints => simpa using hints

end

section

variable (sha256 : HashFn 32) (crypto : Crypto) (keys : Keys)

theorem kept_run (calls : List Call)
    : Bounded (run sha256 crypto keys calls).load ∧ Sound (run sha256 crypto keys calls).load := by
  induction calls using List.reverseRecOn with
  | nil => exact ⟨bounded_empty, sound_empty⟩
  | append_singleton calls call ih =>
    rw [run, Runs.run_append]
    exact ⟨bounded_step sha256 crypto keys call ih.1, sound_step sha256 crypto keys call ih.2⟩

/--
After every sequence of requests what is kept is within its bounds, the file that is saved is read as
the state that it was saved from, and the next request changes nothing of other origins.
-/
theorem witnessCosign_bounded (interp : Python.Interp) (repr : Str → Str)
    (hdepth : 5 ≤ interp.recursionLimit) (calls : List Call)
    : (∀ origin,
        ((run sha256 crypto keys calls).load.pendingOf origin).count ≤ ring ∧
        ((run sha256 crypto keys calls).load.pendingOf origin).bytes ≤ pendingBytes ∧
        ((run sha256 crypto keys calls).load.ringOf origin).last.length ≤ ring) ∧
      (run sha256 crypto keys calls).load.proofsSeen.length ≤ proofsSeenMax ∧
      (∀ st parts, (run sha256 crypto keys calls).state = some st → st.Written parts →
        (∀ bytes, saveState interp st parts = some bytes →
          loadState repr interp (some bytes) = .ok (st.toJson parts) ∧
          ∀ st' parts', st'.Written parts' →
            loadState repr interp (some bytes) = .ok (st'.toJson parts') → st' = st) ∧
        (saveState interp st parts = none → ∃ i ∈ st.integers, printable interp i = false)) ∧
      ∀ call origin,
        (∀ p, present sha256 crypto keys call.request = .ok (.inr p) → p.cp.origin ≠ origin) →
        SameAt origin (run sha256 crypto keys calls).load
          (run sha256 crypto keys (calls ++ [call])).load := by
  rcases kept_run sha256 crypto keys calls with ⟨hbounded, hsound⟩
  refine ⟨fun origin => ?_, hbounded.proofsSeen, fun st parts hst hparts => ?_,
    fun call origin hother => ?_⟩
  . rcases (hbounded.pendingOf origin).1 with ⟨hcount, hbytes⟩
    refine ⟨hcount, hbytes, ?_⟩
    exact hbounded.refusals.getD (v := Ring.empty) origin (Nat.zero_le _)
  . rw [Files.load, hst, Option.getD_some] at hsound
    refine ⟨fun bytes hsave => ?_, hsound.saveState_eq_none hparts hdepth⟩
    have hload := hsound.loadState_saveState repr hparts hdepth hsave
    refine ⟨hload, fun st' parts' hparts' hload' => ?_⟩
    rw [hload, Except.ok.injEq] at hload'
    exact (State.toJson_inj hparts hparts' hload').symm
  . rw [show run sha256 crypto keys (calls ++ [call])
      = step sha256 crypto keys (run sha256 crypto keys calls) call from Runs.run_append _ _ _ _]
    exact sameAt_step hother

end

def exampleParts : List Part := [.pending, .refusals, .proofsSeen]

theorem witnessCosign_bounded_oneLeaf
    : ∃ st bytes, (run sha256 exampleCrypto exampleKeys [exampleFirst]).state = some st ∧
        saveState ⟨1000, 1000, none⟩ st exampleParts = some bytes ∧
        loadState id ⟨1000, 1000, none⟩ (some bytes) = .ok (st.toJson exampleParts) := by
  rcases stored_of_granted granted_exampleFirst with ⟨st, e, hst, _⟩
  have hwritten : st.Written exampleParts :=
    ⟨by decide, fun h => absurd h (by decide), fun h => absurd h (by decide),
      fun h => absurd h (by decide)⟩
  have hbounded := witnessCosign_bounded sha256 exampleCrypto exampleKeys ⟨1000, 1000, none⟩ id
    (by decide) [exampleFirst]
  rcases hbounded.2.2.1 st exampleParts hst hwritten with ⟨hload, hnone⟩
  cases hsave : saveState ⟨1000, 1000, none⟩ st exampleParts with
  | none =>
    rcases hnone hsave with ⟨i, _, hi⟩
    simp [printable] at hi
  | some bytes => exact ⟨st, bytes, hst, hsave, (hload bytes hsave).1⟩

end Witness
end CryptoValid
