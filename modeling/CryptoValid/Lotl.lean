import CryptoValid.Lib.Gregorian
import CryptoValid.Lib.PythonText
import CryptoValid.Lib.Timeline
import CryptoValid.Lib.Json.RoundTrip
import CryptoValid.Tip.Instants
import Mathlib.Data.Finset.Sort
import Mathlib.Data.List.Lex

/-!
This module contains the trusted lists of `cryptovalid_lotl.py`: which certificates are those of a
qualified time stamping service at an instant, and the cache of this set. A list is the tree of
elements that the XML parser makes of it.
-/

namespace CryptoValid
namespace Lotl

open Python (Interp)

def lotlUrl : Str := txt "https://ec.europa.eu/tools/lotl/eu-lotl.xml"

def tslNs : Str := txt "http://uri.etsi.org/02231/v2#"

def tslxNs : Str := txt "http://uri.etsi.org/02231/v2/additionaltypes#"

def tslMime : Str := txt "application/vnd.etsi.tsl+xml"

def lotlType : Str := txt "http://uri.etsi.org/TrstSvc/TrustedList/TSLType/EUlistofthelists"

def qtstUri : Str := txt "http://uri.etsi.org/TrstSvc/Svctype/TSA/QTST"

def grantedUri : Str := txt "http://uri.etsi.org/TrstSvc/TrustedList/Svcstatus/granted"

def rule : Str := txt "etsi-ts-119612/status-in-force:QTST+granted/2"

def historyNotOrdered : Str := txt "history_not_ordered"

def historyDuplicateStart : Str := txt "history_duplicate_start"

/-!
### Elements
-/

inductive Element where
  | mk (tag : Str) (text : Option Str) (children : List Element)

namespace Element

def tag : Element → Str
  | mk tag _ _ => tag

def text : Element → Option Str
  | mk _ text _ => text

def children : Element → List Element
  | mk _ _ children => children

mutual

/--
The element and everything below it, in the order of the document.
-/
def all : Element → List Element
  | mk tag text children => mk tag text children :: allOf children

def allOf : List Element → List Element
  | [] => []
  | e :: es => all e ++ allOf es

end

def iter (e : Element) (tag : Str) : List Element := e.all.filter fun d => d.tag = tag

def findall (e : Element) (tag : Str) : List Element := e.children.filter fun d => d.tag = tag

def find (e : Element) (tag : Str) : Option Element := (e.findall tag).head?

/--
`(e.text or "").strip()`
-/
def stripped (e : Element) : Str := Python.stripBlanks (e.text.getD [])

end Element

/--
A name in the namespace of trusted lists.
-/
def q (name : Str) : Str := txt "\x7b" ++ tslNs ++ txt "\x7d" ++ name

/--
The text of a child.
-/
def text (e : Element) (name : Str) : Option Str := (e.find (q name)).map Element.stripped

/--
The addresses of the national lists: every pointer to the XML form of a list that is not the list of
lists itself.
-/
def lotlPointers (root : Element) : List Str :=
  (root.iter (q (txt "OtherTSLPointer"))).foldl (fun out ptr =>
    let mimes := (ptr.iter (txt "\x7b" ++ tslxNs ++ txt "\x7d" ++ txt "MimeType")).map
      Element.stripped
    let types := (ptr.iter (q (txt "TSLType"))).map Element.stripped
    match text ptr (txt "TSLLocation") with
    | none => out
    | some loc =>
      if loc.isEmpty || mimes ≠ [tslMime] || types.contains lotlType || loc = lotlUrl then out
      else if out.contains loc then out
      else out ++ [loc]) []

/-!
### Instants
-/

/--
An instant of the system clock, in UTC.
-/
structure Datetime where
  y : Nat
  mo : Nat
  d : Nat
  h : Nat
  mi : Nat
  s : Nat
  us : Nat
  date : Gregorian.IsDate y mo d ∧ y ≤ 9999
  time : h ≤ 23 ∧ mi ≤ 59 ∧ s ≤ 59 ∧ us < 10 ^ 6

namespace Datetime

/--
Microseconds since 1970.
-/
def instant (t : Datetime) : Int := Tip.timegm t.y t.mo t.d t.h t.mi t.s * 10 ^ 6 + t.us

/--
`strftime("%Y-%m-%dT%H:%M:%SZ")`
-/
def strftime (t : Datetime) : Str :=
  Tip.pad 4 t.y ++ .ofChar '-' :: (Tip.pad 2 t.mo ++ .ofChar '-' :: (Tip.pad 2 t.d ++
    .ofChar 'T' :: (Tip.pad 2 t.h ++ .ofChar ':' :: (Tip.pad 2 t.mi ++ .ofChar ':' ::
      (Tip.pad 2 t.s ++ [.ofChar 'Z'])))))

end Datetime

/--
`_when`: the instant of a text of the form `YYYY-MM-DDThh:mm:ssZ`.
-/
def when? (text : Str) : Option Int := do
  let (y, rest) ← Tip.digits 4 text
  let (mo, rest) ← Tip.digits 2 (← Tip.expect '-' rest)
  let (d, rest) ← Tip.digits 2 (← Tip.expect '-' rest)
  let (h, rest) ← Tip.digits 2 (← Tip.expect 'T' rest)
  let (mi, rest) ← Tip.digits 2 (← Tip.expect ':' rest)
  let (s, rest) ← Tip.digits 2 (← Tip.expect ':' rest)
  if rest = txt "Z" ∧ (1 ≤ y ∧ 1 ≤ mo ∧ mo ≤ 12 ∧ 1 ≤ d ∧ d ≤ Tip.daysInMonth y mo) ∧
      h ≤ 23 ∧ mi ≤ 59 ∧ s ≤ 59 then
    return Tip.timegm y mo d h mi s * 10 ^ 6
  else
    none

/-!
### Services
-/

/--
A block of a service: when it starts, what it says, and the fingerprints of its certificates.
-/
structure Entry where
  start : Option Int
  typ : Option Str
  status : Option Str
  certs : Finset Str
  deriving DecidableEq

/--
A service: its `ServiceInformation`, and the instances of its `ServiceHistory`.
-/
structure Service where
  info : Entry
  history : List Entry
  deriving DecidableEq

def Service.timeline (svc : Service) : List Entry := svc.info :: svc.history

/--
The entries with their starts, if all of these can be read.
-/
def Service.dated (svc : Service) : Option (List (Int × Entry)) :=
  svc.timeline.mapM fun e => e.start.map (·, e)

section

variable (sha256 : HashFn 32) (b64decode : Str → Option Bytes)

/--
The fingerprint of a certificate, of which no blanks are left; `b64decode(text, validate=True)` is
`none` for an exception.
-/
def certFpr (text : Str) : Option Str := (b64decode text).map fun der => Hex.ofBytes (sha256 der)

def certs (e : Element) : Finset Str :=
  match e.find (q (txt "ServiceDigitalIdentity")) with
  | none => ∅
  | some sdi =>
    (((sdi.findall (q (txt "DigitalId"))).flatMap fun did =>
      did.findall (q (txt "X509Certificate"))).filterMap fun c =>
        certFpr sha256 b64decode ((c.text.getD []).filter fun d => !Python.isSpace d)).toFinset

def entryOf (e : Element) : Entry where
  start := (text e (txt "StatusStartingTime")).bind when?
  typ := text e (txt "ServiceTypeIdentifier")
  status := text e (txt "ServiceStatus")
  certs := certs sha256 b64decode e

def services (root : Element) : List Service :=
  (root.iter (q (txt "TSPService"))).filterMap fun svc =>
    (svc.find (q (txt "ServiceInformation"))).map fun si =>
      { info := entryOf sha256 b64decode si
        history := match svc.find (q (txt "ServiceHistory")) with
          | none => []
          | some hist => (hist.findall (q (txt "ServiceHistoryInstance"))).map
              (entryOf sha256 b64decode) }

end

/--
What is wrong with the starts of a history, which has to go back in time.
-/
def historyError (starts : List Int) : Option Str :=
  if starts.dedup.length < starts.length then some historyDuplicateStart
  else if (starts.zip starts.tail).any (fun p => p.1 < p.2) then some historyNotOrdered
  else none

structure Status where
  granted : Finset Str
  errors : Dict Str Str

/--
Why the certificates of a service count as an error.
-/
def Service.error? (svc : Service) : Option Str :=
  match svc.dated with
  | none => none
  | some dated =>
    if svc.info.typ = some qtstUri then historyError (dated.tail.map Prod.fst) else none

/--
The service is a qualified one at the instant.
-/
def Service.grants (time : Int) (svc : Service) : Bool :=
  match svc.dated with
  | none => false
  | some dated =>
    match Timeline.inForce Prod.fst time dated with
    | none => false
    | some (_, e) => e.typ = some qtstUri && e.status = some grantedUri

def sorted (fingerprints : Finset Str) : List Str := fingerprints.sort

@[simp] theorem mem_sorted {fingerprints : Finset Str} {f : Str}
    : f ∈ sorted fingerprints ↔ f ∈ fingerprints :=
  Finset.mem_sort _

/--
One pass of the loop over the services.
-/
def statusStep (time : Int) (acc : Status) (svc : Service) : Status :=
  match svc.error? with
  | some why =>
    { acc with errors := (sorted svc.info.certs).foldl (fun errors f => errors.set f why) acc.errors }
  | none => if svc.grants time then { acc with granted := acc.granted ∪ svc.info.certs } else acc

def qtstStatusAt (services : List Service) (time : Int) : Status :=
  let acc := services.foldl (statusStep time) ⟨∅, Dict.empty⟩
  { acc with granted := acc.granted.filter fun f => acc.errors.contains f = false }

/-!
### What is granted
-/

theorem any_zip_tail (starts : List Int)
    : (starts.zip starts.tail).any (fun p => p.1 < p.2) = false ↔
        starts.Pairwise fun a b => b ≤ a := by
  rw [← List.isChain_iff_pairwise]
  induction starts with
  | nil => simp
  | cons a starts ih =>
    cases starts with
    | nil => simp
    | cons b starts => simpa [List.isChain_cons_cons] using fun _ => ih

theorem length_dedup_lt (starts : List Int)
    : starts.dedup.length < starts.length ↔ ¬starts.Nodup := by
  rw [← not_le, not_iff_not]
  constructor
  . intro hle
    rw [← (List.dedup_sublist starts).eq_of_length_le hle]
    exact List.nodup_dedup starts
  . intro hnodup
    rw [hnodup.dedup]

theorem historyError_eq_some {starts : List Int} {why : Str}
    : historyError starts = some why ↔ ¬starts.Pairwise (fun a b => b < a) ∧
        why = if starts.Nodup then historyNotOrdered else historyDuplicateStart := by
  have hdescending : starts.Pairwise (fun a b => b < a) ↔
      starts.Nodup ∧ starts.Pairwise fun a b => b ≤ a := by
    constructor
    . intro h
      exact ⟨h.imp fun hlt => (ne_of_lt hlt).symm, h.imp le_of_lt⟩
    . rintro ⟨hnodup, hle⟩
      exact (hle.and hnodup).imp fun ⟨hle, hne⟩ => lt_of_le_of_ne hle (Ne.symm hne)
  rw [historyError, hdescending, ← any_zip_tail]
  simp only [length_dedup_lt]
  by_cases hnodup : starts.Nodup
  . cases hany : (starts.zip starts.tail).any fun p => p.1 < p.2
    . simp [hnodup]
    . simpa [hnodup] using eq_comm
  . simpa [hnodup] using eq_comm

theorem historyError_eq_none {starts : List Int}
    : historyError starts = none ↔ starts.Pairwise fun a b => b < a := by
  rw [Option.eq_none_iff_forall_ne_some]
  simp only [ne_eq, historyError_eq_some]
  constructor
  . intro h
    by_contra hnot
    exact h _ ⟨hnot, rfl⟩
  . intro h why hsome
    exact hsome.1 h

namespace Service

variable {svc : Service} {time : Int}

/--
Every start can be read.
-/
def Readable (svc : Service) : Prop := ∀ e ∈ svc.timeline, e.start ≠ none

/--
Each instance of the history starts before the one above it.
-/
def Ordered (svc : Service) : Prop :=
  (svc.history.filterMap Entry.start).Pairwise fun a b => b < a

/--
The service is a qualified one whose history is an error.
-/
def Disordered (svc : Service) : Prop :=
  svc.Readable ∧ svc.info.typ = some qtstUri ∧ ¬svc.Ordered

/--
`e` is the entry in force: it has started, no other entry that has started started later, and none
above it at the same instant.
-/
def InForce (svc : Service) (time : Int) (e : Entry) : Prop :=
  ∃ pre post start, svc.timeline = pre ++ e :: post ∧ e.start = some start ∧ start ≤ time ∧
    (∀ d ∈ pre, ∀ s, d.start = some s → s ≤ time → s < start) ∧
    ∀ d ∈ post, ∀ s, d.start = some s → s ≤ time → s ≤ start

/--
The service is granted as a qualified one at the instant.
-/
structure QualifiedAt (svc : Service) (time : Int) : Prop where
  readable : svc.Readable
  ordered : svc.info.typ = some qtstUri → svc.Ordered
  granted : ∃ e, svc.InForce time e ∧ e.typ = some qtstUri ∧ e.status = some grantedUri

theorem dated_eq_some {ds : List (Int × Entry)}
    : svc.dated = some ds ↔
        ds.map Prod.snd = svc.timeline ∧ ∀ p ∈ ds, p.2.start = some p.1 := by
  rw [dated]
  generalize svc.timeline = entries
  induction entries generalizing ds with
  | nil =>
    simp only [List.mapM_nil, Option.pure_def, Option.some.injEq, List.map_eq_nil_iff]
    constructor
    . rintro rfl
      simp
    . rintro ⟨rfl, -⟩
      rfl
  | cons e entries ih =>
    simp only [List.mapM_cons, Option.pure_def, Option.bind_eq_bind, Option.bind_eq_some_iff,
      Option.map_eq_some_iff, Option.some.injEq, ih]
    constructor
    . rintro ⟨_, ⟨start, hstart, rfl⟩, ds', ⟨hmap, hall⟩, rfl⟩
      refine ⟨by rw [List.map_cons, hmap], ?_⟩
      rintro p (_ | ⟨_, hp⟩)
      . exact hstart
      . exact hall p hp
    . rintro ⟨hmap, hall⟩
      rcases List.map_eq_cons_iff.mp hmap with ⟨⟨start, d⟩, ds', rfl, rfl, hmap'⟩
      exact ⟨_, ⟨start, hall (start, d) List.mem_cons_self, rfl⟩, ds',
        ⟨hmap', fun p hp => hall p (List.mem_cons_of_mem _ hp)⟩, rfl⟩

theorem dated_eq_none : svc.dated = none ↔ ¬svc.Readable := by
  rw [dated, Readable, not_forall]
  generalize svc.timeline = entries
  induction entries with
  | nil => simp
  | cons e entries ih =>
    rw [List.mapM_cons]
    cases hstart : e.start with
    | none => simp [hstart]
    | some start =>
      simp only [Option.pure_def, Option.bind_eq_bind, Option.map_some, Option.bind_some,
        Option.bind_eq_none_iff, reduceCtorEq, imp_false, ← Option.eq_none_iff_forall_ne_some, ih]
      simp [hstart]

theorem readable_of_dated {ds : List (Int × Entry)} (h : svc.dated = some ds) : svc.Readable := by
  by_contra hnot
  rw [dated_eq_none.mpr hnot] at h
  cases h

theorem starts_of_dated {ds : List (Int × Entry)} (h : svc.dated = some ds)
    : ds.tail.map Prod.fst = svc.history.filterMap Entry.start := by
  rcases dated_eq_some.mp h with ⟨hmap, hall⟩
  rcases List.map_eq_cons_iff.mp hmap with ⟨p, ds', rfl, -, hhistory⟩
  rw [List.tail_cons, ← hhistory, List.filterMap_map]
  have hsome : ds'.filterMap (Entry.start ∘ Prod.snd) = ds'.filterMap (some ∘ Prod.fst) :=
    List.filterMap_congr fun q hq => hall q (List.mem_cons_of_mem _ hq)
  rw [hsome, List.filterMap_eq_map]

theorem error?_eq_none : svc.error? = none ↔ ¬svc.Disordered := by
  rw [error?, Disordered]
  cases hdated : svc.dated with
  | none => simp [dated_eq_none.mp hdated]
  | some ds =>
    have hreadable := readable_of_dated hdated
    simp only [hreadable, true_and, not_and, not_not]
    split
    . next htyp =>
      rw [historyError_eq_none, starts_of_dated hdated]
      simp [htyp, Ordered]
    . next htyp => simp [htyp]

theorem grants_iff
    : svc.grants time = true ↔ svc.Readable ∧
        ∃ e, svc.InForce time e ∧ e.typ = some qtstUri ∧ e.status = some grantedUri := by
  rw [grants]
  cases hdated : svc.dated with
  | none => simp [dated_eq_none.mp hdated]
  | some ds =>
    have hreadable := readable_of_dated hdated
    rcases dated_eq_some.mp hdated with ⟨hmap, hall⟩
    have hforce : ∀ e, svc.InForce time e ↔
        ∃ start, Timeline.inForce Prod.fst time ds = some (start, e) := by
      intro e
      simp only [Timeline.inForce_eq_some]
      constructor
      . rintro ⟨pre, post, start, hsplit, hstart, hle, hpre, hpost⟩
        rw [hsplit] at hmap
        rcases List.map_eq_append_iff.mp hmap with ⟨as, bs, rfl, rfl, hbs⟩
        rcases List.map_eq_cons_iff.mp hbs with ⟨⟨start', d⟩, cs, rfl, rfl, rfl⟩
        have heq : start = start' :=
          Option.some.inj (hstart.symm.trans (hall (start', d) (by simp)))
        rw [← heq] at hall ⊢
        refine ⟨start, as, cs, rfl, hle, ?_, ?_⟩
        . intro p hp
          exact hpre p.2 (List.mem_map_of_mem hp) p.1 (hall p (by simp [hp]))
        . intro p hp
          exact hpost p.2 (List.mem_map_of_mem hp) p.1 (hall p (by simp [hp]))
      . rintro ⟨start, pre, post, rfl, hle, hpre, hpost⟩
        refine ⟨pre.map Prod.snd, post.map Prod.snd, start, by rw [← hmap]; simp,
          hall (start, e) (by simp), hle, ?_, ?_⟩
        . intro d hd s hs
          rcases List.mem_map.mp hd with ⟨p, hp, rfl⟩
          rw [hall p (by simp [hp])] at hs
          rw [← Option.some.inj hs]
          exact hpre p hp
        . intro d hd s hs
          rcases List.mem_map.mp hd with ⟨p, hp, rfl⟩
          rw [hall p (by simp [hp])] at hs
          rw [← Option.some.inj hs]
          exact hpost p hp
    simp only [hreadable, true_and, hforce]
    cases hin : Timeline.inForce Prod.fst time ds with
    | none => simp
    | some p =>
      rcases p with ⟨start, e⟩
      simp

theorem qualifiedAt_iff : svc.QualifiedAt time ↔ svc.error? = none ∧ svc.grants time = true := by
  rw [error?_eq_none, grants_iff]
  constructor
  . intro h
    exact ⟨fun hnot => hnot.2.2 (h.ordered hnot.2.1), h.readable, h.granted⟩
  . rintro ⟨hnot, hreadable, hgranted⟩
    refine ⟨hreadable, fun htyp => ?_, hgranted⟩
    by_contra hordered
    exact hnot ⟨hreadable, htyp, hordered⟩

theorem error?_eq_some {why : Str}
    : svc.error? = some why ↔ svc.Disordered ∧
        why = if (svc.history.filterMap Entry.start).Nodup then historyNotOrdered
          else historyDuplicateStart := by
  rw [error?, Disordered]
  cases hdated : svc.dated with
  | none => simp [dated_eq_none.mp hdated]
  | some ds =>
    have hreadable := readable_of_dated hdated
    simp only [hreadable, true_and]
    split
    . next htyp =>
      rw [starts_of_dated hdated, historyError_eq_some]
      simp [htyp, Ordered]
    . next htyp => simp [htyp]

end Service

theorem get?_foldl_set (fs : List Str) (errors : Dict Str Str) (why f : Str)
    : (fs.foldl (fun errors f => errors.set f why) errors).get? f =
        if f ∈ fs then some why else errors.get? f := by
  induction fs generalizing errors with
  | nil => simp
  | cons g fs ih =>
    rw [List.foldl_cons, ih, Dict.get?_set]
    by_cases hf : f ∈ fs
    . simp [hf]
    . simp [hf]

theorem mem_granted_foldl (svcs : List Service) (time : Int) (acc : Status) (f : Str)
    : f ∈ (svcs.foldl (statusStep time) acc).granted ↔
        f ∈ acc.granted ∨ ∃ svc ∈ svcs, svc.QualifiedAt time ∧ f ∈ svc.info.certs := by
  induction svcs generalizing acc with
  | nil => simp
  | cons svc svcs ih =>
    have hstep : f ∈ (statusStep time acc svc).granted ↔
        f ∈ acc.granted ∨ svc.QualifiedAt time ∧ f ∈ svc.info.certs := by
      rw [Service.qualifiedAt_iff, statusStep]
      cases svc.error? with
      | some why => simp
      | none =>
        cases svc.grants time with
        | true => simp
        | false => simp
    rw [List.foldl_cons, ih, hstep]
    simp only [List.exists_mem_cons_iff, or_assoc]

/--
The error of a fingerprint is that of the last service with an error that has the fingerprint.
-/
theorem get?_errors (svcs : List Service) (time : Int) (f : Str)
    : (qtstStatusAt svcs time).errors.get? f =
        svcs.reverse.findSome? fun svc => if f ∈ svc.info.certs then svc.error? else none := by
  have hstep : ∀ (acc : Status) (svc : Service), (statusStep time acc svc).errors.get? f =
      (if f ∈ svc.info.certs then svc.error? else none).or (acc.errors.get? f) := by
    intro acc svc
    rw [statusStep]
    cases svc.error? with
    | some why =>
      simp only [get?_foldl_set, mem_sorted]
      split <;> rfl
    | none =>
      cases svc.grants time with
      | true => simp
      | false => simp
  have hpass := Timeline.foldl_override (fun acc : Status => acc.errors.get? f) hstep svcs
    ⟨∅, Dict.empty⟩
  rw [qtstStatusAt, hpass, Dict.get?_empty, Option.or_none]

theorem contains_errors (svcs : List Service) (time : Int) (f : Str)
    : (qtstStatusAt svcs time).errors.contains f = false ↔
        ∀ svc ∈ svcs, svc.Disordered → f ∉ svc.info.certs := by
  rw [Dict.contains_eq_false_iff, get?_errors, List.findSome?_eq_none_iff]
  simp only [List.mem_reverse]
  refine forall₂_congr fun svc _ => ?_
  rw [ite_eq_right_iff, Service.error?_eq_none]
  exact ⟨fun h hdisordered hf => h hf hdisordered, fun h hf hdisordered => h hdisordered hf⟩

theorem mem_granted (svcs : List Service) (time : Int) (f : Str)
    : f ∈ (qtstStatusAt svcs time).granted ↔
        (∃ svc ∈ svcs, svc.QualifiedAt time ∧ f ∈ svc.info.certs) ∧
          ∀ svc ∈ svcs, svc.Disordered → f ∉ svc.info.certs := by
  rw [← contains_errors svcs time f]
  simp only [qtstStatusAt, Finset.mem_filter, mem_granted_foldl, Finset.notMem_empty, false_or]

theorem Service.grants_congr {svc : Service} {time time' : Int} (hle : time ≤ time')
    (h : ∀ e ∈ svc.timeline, ∀ s, e.start = some s → s ≤ time' → s ≤ time)
    : svc.grants time' = svc.grants time := by
  rw [Service.grants, Service.grants]
  cases hdated : svc.dated with
  | none => rfl
  | some ds =>
    rcases Service.dated_eq_some.mp hdated with ⟨hmap, hall⟩
    have hforce : Timeline.inForce Prod.fst time ds = Timeline.inForce Prod.fst time' ds := by
      refine Timeline.inForce_congr hle fun p hp => ?_
      exact h p.2 (hmap ▸ List.mem_map_of_mem hp) p.1 (hall p hp)
    simp only [hforce]

/--
The set at an instant. The order of the services does not count, and nothing changes as long as no
entry of a service starts.
-/
theorem qtstStatusAt_exact (svcs : List Service) (time : Int)
    : (∀ f, f ∈ (qtstStatusAt svcs time).granted ↔
          (∃ svc ∈ svcs, svc.QualifiedAt time ∧ f ∈ svc.info.certs) ∧
            ∀ svc ∈ svcs, svc.Disordered → f ∉ svc.info.certs) ∧
        (∀ svcs', svcs.Perm svcs' →
          (qtstStatusAt svcs' time).granted = (qtstStatusAt svcs time).granted ∧
            ∀ f, (qtstStatusAt svcs' time).errors.contains f =
              (qtstStatusAt svcs time).errors.contains f) ∧
        ∀ time', time ≤ time' →
          (∀ svc ∈ svcs, ∀ e ∈ svc.timeline, ∀ s, e.start = some s → s ≤ time' → s ≤ time) →
          qtstStatusAt svcs time' = qtstStatusAt svcs time := by
  refine ⟨mem_granted svcs time, fun svcs' hperm => ⟨?_, fun f => ?_⟩, fun time' hle hstarts => ?_⟩
  . ext f
    simp only [mem_granted, hperm.mem_iff]
  . rw [Bool.eq_iff_iff, ← not_iff_not, Bool.not_eq_true, Bool.not_eq_true, contains_errors,
      contains_errors]
    simp only [hperm.mem_iff]
  . have hstep : ∀ svc ∈ svcs, ∀ acc, statusStep time' acc svc = statusStep time acc svc := by
      intro svc hsvc acc
      rw [statusStep, statusStep, Service.grants_congr hle (hstarts svc hsvc)]
    have hfold : svcs.foldl (statusStep time') ⟨∅, Dict.empty⟩ =
        svcs.foldl (statusStep time) ⟨∅, Dict.empty⟩ :=
      List.foldl_ext _ _ _ fun acc svc hsvc => hstep svc hsvc acc
    rw [qtstStatusAt, qtstStatusAt, hfold]

end Lotl
end CryptoValid
