import CryptoValid.Lib.Base64
import CryptoValid.Lotl

/-!
This module contains the set of qualified fingerprints that `cryptovalid_lotl.py` builds from all
the lists, and the cache file that spares it building the set again.
-/

namespace CryptoValid
namespace Lotl

open Python (Interp)

/--
What the network and the XML parser give; `none` stands for an exception. No character of a document
is a surrogate.
-/
structure Net where
  get : Str → Option Bytes
  xml : Bytes → Option Element
  scalar : ∀ bytes root, xml bytes = some root → ∀ e ∈ root.all, ∀ t ∈ e.text, Str.Scalar t

/--
`_parse_tl`
-/
def parseTl (net : Net) (tlXml : Bytes) : Option Element :=
  if tlXml.contains 0 then none
  else (net.xml tlXml).filter fun root => root.tag = q (txt "TrustServiceStatusList")

/--
The list at an address.
-/
def Net.list? (net : Net) (url : Str) : Option Element := (net.get url).bind (parseTl net)

/--
A call: its arguments, the clock when it looks at the cache, when it has the list of lists and when
it writes the cache, and whether that succeeds.
-/
structure Call where
  net : Net
  memberStates : List Str
  cached : Bool
  maxAge : Int
  now : Datetime
  time : Datetime
  written : Datetime
  writes : Bool

inductive Error where
  | json (e : Python.LoadsError)
  | unhashable
  | lotl
  | url
  | notWritten
  deriving DecidableEq

/--
A returned set of fingerprints, the coverage, and the items of the errors.
-/
structure Qualified where
  fingerprints : List Json
  coverage : Json
  errors : List (Str × Json)
  deriving DecidableEq

structure Collected where
  fprs : Finset Str
  coverage : List Str
  errors : Dict Str Str

section

variable (interp : Interp) (unicode : Python.Unicode) (sha256 : HashFn 32)
  (b64decode : Str → Option Bytes)

/--
`_ms_of_url`, `none` stands for `IndexError`.
-/
def msOfUrl (url : Str) : Option Str := do
  let host ← (url.splitOn (.ofChar '/'))[2]?
  let tld ← (host.splitOn (.ofChar '.')).getLast?
  return unicode.upper tld

/--
Whether the list at an address is wanted.
-/
def Call.wants? (c : Call) (url : Str) : Option Bool :=
  if c.memberStates.isEmpty then some true
  else (msOfUrl unicode url).map fun ms => (c.memberStates.map unicode.upper).contains ms

def Call.status (c : Call) (root : Element) : Status :=
  qtstStatusAt (services sha256 b64decode root) c.time.instant

/--
What a list adds that could be read.
-/
def addList (c : Call) (acc : Collected) (list : Str × Element) : Collected :=
  let st := c.status sha256 b64decode list.2
  { fprs := acc.fprs ∪ st.granted
    coverage := acc.coverage ++ [list.1]
    errors := st.errors.items.foldl (fun errors p => errors.set p.1 (p.2 ++ txt " " ++ list.1))
      acc.errors }

def collectList (c : Call) (acc : Collected) (url : Str) : Collected :=
  match c.net.list? url with
  | none => acc
  | some root => addList sha256 b64decode c acc (url, root)

def collect (c : Call) (ptrs : List Str) : Option Collected :=
  ptrs.foldlM (fun acc url => do
    if ← c.wants? unicode url then
      return collectList sha256 b64decode c acc url
    else
      return acc) ⟨∅, [], Dict.empty⟩

def Collected.fingerprints (acc : Collected) : Finset Str :=
  acc.fprs.filter fun f => acc.errors.contains f = false

def Collected.qualified (acc : Collected) : Qualified where
  fingerprints := (sorted acc.fingerprints).map .str
  coverage := .arr (acc.coverage.map .str)
  errors := acc.errors.items.map fun p => (p.1, .str p.2)

/--
The value that is written to the cache.
-/
def cacheValue (written : Datetime) (acc : Collected) : Json :=
  .obj [(txt "rule", .str rule), (txt "built_at", .str written.strftime),
    (txt "fingerprints", .arr ((sorted acc.fingerprints).map .str)),
    (txt "coverage", .arr (acc.coverage.map .str)),
    (txt "history_errors",
      .obj (Json.sortMembers (acc.errors.items.map fun p => (p.1, .str p.2))))]

def cacheText (written : Datetime) (acc : Collected) : Str :=
  Json.dumpsIn .spaced true 0 (cacheValue written acc)

def hashable : Json → Bool
  | .arr _ => false
  | .obj _ => false
  | _ => true

/--
What the cache holds, if it was built by this rule and is not too old.
-/
def cacheAnswer (maxAge now : Int) (d : Json) : Except Error (Option Qualified) :=
  match (d.get? (txt "built_at")).bind builtAt? with
  | none => .ok none
  | some built =>
    if d.get? (txt "rule") = some (.str rule) ∧ 0 ≤ now - built ∧ now - built ≤ maxAge * 10 ^ 6 then
      match d.get? (txt "fingerprints") with
      | some (.arr fingerprints) =>
        if fingerprints.all hashable then
          .ok (some
            { fingerprints
              coverage := (d.get? (txt "coverage")).getD (.arr [])
              errors := match d.get? (txt "history_errors") with
                | some (.obj errs) => errs
                | _ => [] })
        else
          .error .unhashable
      | _ => .ok none
    else
      .ok none
where
  builtAt? : Json → Option Int
    | .str s => when? s
    | _ => none

def readCache (c : Call) (cache : Option Str) : Except Error (Option Qualified) :=
  if c.cached then
    match cache with
    | none => .ok none
    | some text => do
      cacheAnswer c.maxAge c.now.instant (← (Python.loads interp text).mapError .json)
  else
    .ok none

/--
What the lists hold.
-/
def build (c : Call) : Except Error Collected :=
  match c.net.list? lotlUrl with
  | none => .error .lotl
  | some root =>
    match collect unicode sha256 b64decode c (lotlPointers root) with
    | none => .error .url
    | some acc => .ok acc

/--
`load_qualified_status`: what it returns, and the text of the cache file after it.
-/
def loadQualifiedStatus (c : Call) (cache : Option Str) : Except Error Qualified × Option Str :=
  match readCache interp c cache with
  | .error e => (.error e, cache)
  | .ok (some qualified) => (.ok qualified, cache)
  | .ok none =>
    match build unicode sha256 b64decode c with
    | .error e => (.error e, cache)
    | .ok acc =>
      if !c.cached then (.ok acc.qualified, cache)
      else if c.writes then (.ok acc.qualified, some (cacheText c.written acc))
      else (.error .notWritten, cache)

/--
The cache after calls.
-/
def cacheAfter (calls : List Call) : Option Str :=
  calls.foldl (fun cache c => (loadQualifiedStatus interp unicode sha256 b64decode c cache).2) none

/-!
### What is built
-/

/--
The wanted lists that could be read.
-/
def Call.lists (c : Call) (root : Element) : List (Str × Element) :=
  (lotlPointers root).filterMap fun url =>
    if c.wants? unicode url = some true then (c.net.list? url).map (url, ·) else none

/--
The answer is what the lists say that the call could read: the coverage are these lists. A
fingerprint is in the set if a service of one of them is granted and has it, and no service of any
of them with an error has it. The error of a fingerprint is that of the last list with one for it.
-/
structure Answers (c : Call) (root : Element) (answer : Qualified) : Prop where
  lotl : c.net.list? lotlUrl = some root
  coverage : answer.coverage = .arr ((c.lists unicode root).map fun list => .str list.1)
  fingerprints : ∀ v, v ∈ answer.fingerprints ↔ ∃ f, v = .str f ∧
    (∃ list ∈ c.lists unicode root, ∃ svc ∈ services sha256 b64decode list.2,
      svc.QualifiedAt c.time.instant ∧ f ∈ svc.info.certs) ∧
    ∀ list ∈ c.lists unicode root, ∀ svc ∈ services sha256 b64decode list.2,
      svc.Disordered → f ∉ svc.info.certs
  errors : ∀ f, Assoc.lookup f answer.errors =
    (c.lists unicode root).reverse.findSome? fun list =>
      ((c.status sha256 b64decode list.2).errors.get? f).map fun why =>
        .str (why ++ txt " " ++ list.1)

variable {unicode sha256 b64decode} {c : Call}

theorem collect_eq_some {ptrs : List Str} {acc : Collected}
    (h : collect unicode sha256 b64decode c ptrs = some acc)
    : acc = (ptrs.filterMap fun url =>
        if c.wants? unicode url = some true then (c.net.list? url).map (url, ·) else none).foldl
          (addList sha256 b64decode c) ⟨∅, [], Dict.empty⟩ := by
  rw [collect] at h
  generalize (⟨∅, [], Dict.empty⟩ : Collected) = start at h ⊢
  induction ptrs generalizing start with
  | nil => exact (Option.some.inj h).symm
  | cons url ptrs ih =>
    rw [List.foldlM_cons] at h
    cases hwants : c.wants? unicode url with
    | none => simp [hwants] at h
    | some wants =>
      cases wants with
      | false =>
        rw [List.filterMap_cons_none (by simp [hwants])]
        exact ih start (by simpa [hwants] using h)
      | true =>
        have hrest := ih (collectList sha256 b64decode c start url) (by simpa [hwants] using h)
        rw [collectList] at hrest
        cases hlist : c.net.list? url with
        | none =>
          rw [List.filterMap_cons_none (by simp [hlist])]
          simpa only [hlist] using hrest
        | some root =>
          rw [List.filterMap_cons_some (by rw [if_pos hwants, hlist]; rfl), List.foldl_cons]
          simpa only [hlist] using hrest

theorem mem_fprs_foldl (lists : List (Str × Element)) (acc : Collected) (f : Str)
    : f ∈ (lists.foldl (addList sha256 b64decode c) acc).fprs ↔
        f ∈ acc.fprs ∨ ∃ list ∈ lists, f ∈ (c.status sha256 b64decode list.2).granted := by
  induction lists generalizing acc with
  | nil => simp
  | cons list lists ih =>
    rw [List.foldl_cons, ih]
    simp only [addList, Finset.mem_union, List.exists_mem_cons_iff, or_assoc]

theorem coverage_foldl (lists : List (Str × Element)) (acc : Collected)
    : (lists.foldl (addList sha256 b64decode c) acc).coverage =
        acc.coverage ++ lists.map Prod.fst := by
  induction lists generalizing acc with
  | nil => simp
  | cons list lists ih =>
    rw [List.foldl_cons, ih]
    simp [addList]

theorem get?_foldl_items (g : Str → Str) (ps : List (Str × Str)) (hnodup : (ps.map Prod.fst).Nodup)
    (d : Dict Str Str) (f : Str)
    : (ps.foldl (fun d p => d.set p.1 (g p.2)) d).get? f =
        ((Assoc.lookup f ps).map g).or (d.get? f) := by
  induction ps generalizing d with
  | nil => rfl
  | cons p ps ih =>
    rw [List.map_cons, List.nodup_cons] at hnodup
    rw [List.foldl_cons, ih hnodup.2, Dict.get?_set, Assoc.lookup_cons]
    by_cases hf : f = p.1
    . rw [hf, (Assoc.lookup_eq_none_iff _ _).mpr hnodup.1]
      simp
    . simp [hf]

theorem get?_errors_lists (lists : List (Str × Element)) (f : Str)
    : (lists.foldl (addList sha256 b64decode c) ⟨∅, [], Dict.empty⟩).errors.get? f =
        lists.reverse.findSome? fun list =>
          ((c.status sha256 b64decode list.2).errors.get? f).map fun why =>
            why ++ txt " " ++ list.1 := by
  have hstep : ∀ (acc : Collected) (list : Str × Element),
      (addList sha256 b64decode c acc list).errors.get? f =
        (((c.status sha256 b64decode list.2).errors.get? f).map fun why =>
          why ++ txt " " ++ list.1).or (acc.errors.get? f) := by
    intro acc list
    exact get?_foldl_items (fun why => why ++ txt " " ++ list.1) _
      (c.status sha256 b64decode list.2).errors.nodup acc.errors f
  have hpass := Timeline.foldl_override (fun acc : Collected => acc.errors.get? f) hstep
    lists ⟨∅, [], Dict.empty⟩
  rw [hpass, Dict.get?_empty, Option.or_none]

theorem lookup_map_str (items : List (Str × Str)) (f : Str)
    : Assoc.lookup f (items.map fun p => (p.1, Json.str p.2)) = (Assoc.lookup f items).map .str :=
  Assoc.lookup_map f Json.str items

theorem build_eq_ok {acc : Collected} (h : build unicode sha256 b64decode c = .ok acc)
    : ∃ root, c.net.list? lotlUrl = some root ∧
        acc = (c.lists unicode root).foldl (addList sha256 b64decode c) ⟨∅, [], Dict.empty⟩ := by
  rw [build] at h
  cases hroot : c.net.list? lotlUrl with
  | none => simp [hroot] at h
  | some root =>
    rw [hroot] at h
    cases hcollect : collect unicode sha256 b64decode c (lotlPointers root) with
    | none => simp [hcollect] at h
    | some acc' =>
      have hacc : acc' = acc := by simpa [hcollect] using h
      exact ⟨root, rfl, hacc ▸ collect_eq_some hcollect⟩

theorem answers_of_build {acc : Collected} (h : build unicode sha256 b64decode c = .ok acc)
    : ∃ root, Answers unicode sha256 b64decode c root acc.qualified := by
  rcases build_eq_ok h with ⟨root, hroot, hlists⟩
  have herrors : ∀ f, acc.errors.get? f = _ := fun f => hlists ▸ get?_errors_lists _ f
  refine ⟨root, hroot, ?_, ?_, ?_⟩
  . rw [Collected.qualified, hlists, coverage_foldl]
    simp
  . intro v
    have hgranted : ∀ f, f ∈ acc.fprs ↔ ∃ list ∈ c.lists unicode root,
        f ∈ (c.status sha256 b64decode list.2).granted := by
      intro f
      rw [hlists, mem_fprs_foldl]
      simp
    have hnone : ∀ f, acc.errors.contains f = false ↔ ∀ list ∈ c.lists unicode root,
        ∀ svc ∈ services sha256 b64decode list.2, svc.Disordered → f ∉ svc.info.certs := by
      intro f
      rw [Dict.contains_eq_false_iff, herrors, List.findSome?_eq_none_iff]
      simp only [List.mem_reverse, Option.map_eq_none_iff, Call.status,
        ← Dict.contains_eq_false_iff, contains_errors]
    simp only [Collected.qualified, List.mem_map, mem_sorted, Collected.fingerprints,
      Finset.mem_filter, hgranted, hnone, Call.status, mem_granted]
    constructor
    . rintro ⟨f, ⟨⟨list, hlist, hsvc, -⟩, hclean⟩, rfl⟩
      exact ⟨f, rfl, ⟨list, hlist, hsvc⟩, hclean⟩
    . rintro ⟨f, rfl, ⟨list, hlist, hsvc⟩, hclean⟩
      exact ⟨f, ⟨⟨list, hlist, hsvc, hclean list hlist⟩, hclean⟩, rfl⟩
  . intro f
    rw [Collected.qualified, lookup_map_str, ← Dict.get?, herrors, List.map_findSome?]
    congr 1
    funext list
    rw [Function.comp_apply, Option.map_map]
    rfl

/-!
### Texts of a list
-/

namespace Element

theorem mem_all_self (e : Element) : e ∈ e.all := by
  cases e
  rw [all]
  exact List.mem_cons_self

theorem mem_allOf {e d : Element} {es : List Element} (he : e ∈ es) (hd : d ∈ e.all)
    : d ∈ allOf es := by
  induction es with
  | nil => cases he
  | cons first es ih =>
    rw [allOf, List.mem_append]
    rcases List.mem_cons.mp he with rfl | he
    . exact Or.inl hd
    . exact Or.inr (ih he)

mutual

/--
The children of an element of the document are elements of it.
-/
theorem mem_all_of_child {d e : Element} (hchild : e ∈ d.children)
    : ∀ root : Element, d ∈ root.all → e ∈ root.all
  | mk tag text children => by
    intro hd
    rw [all] at hd ⊢
    rcases List.mem_cons.mp hd with rfl | hd
    . exact List.mem_cons_of_mem _ (mem_allOf hchild e.mem_all_self)
    . exact List.mem_cons_of_mem _ (mem_allOf_of_child hchild children hd)

theorem mem_allOf_of_child {d e : Element} (hchild : e ∈ d.children)
    : ∀ es : List Element, d ∈ allOf es → e ∈ allOf es
  | [] => fun hd => by cases hd
  | first :: es => by
    intro hd
    rw [allOf, List.mem_append] at hd ⊢
    exact hd.imp (mem_all_of_child hchild first) (mem_allOf_of_child hchild es)

end

end Element

theorem mem_of_mem_stripBlanks {s : Str} {d : CodePoint} (h : d ∈ Python.stripBlanks s)
    : d ∈ s := by
  rw [Python.stripBlanks, List.mem_reverse] at h
  exact (List.dropWhile_sublist _).mem (List.mem_reverse.mp ((List.dropWhile_sublist _).mem h))

theorem scalar_lotlPointers {root : Element}
    (hroot : ∀ e ∈ root.all, ∀ t ∈ e.text, Str.Scalar t)
    : ∀ url ∈ lotlPointers root, Str.Scalar url := by
  have htext : ∀ ptr ∈ root.iter (q (txt "OtherTSLPointer")), ∀ loc,
      text ptr (txt "TSLLocation") = some loc → Str.Scalar loc := by
    intro ptr hptr loc hloc
    rcases Option.map_eq_some_iff.mp hloc with ⟨e, he, rfl⟩
    have hmem := (List.mem_filter.mp (List.mem_of_mem_head? he)).1
    have hdoc := Element.mem_all_of_child hmem root (List.mem_filter.mp hptr).1
    intro d hd
    have hd := mem_of_mem_stripBlanks hd
    cases ht : e.text with
    | none => simp [ht] at hd
    | some t =>
      rw [ht, Option.getD_some] at hd
      exact hroot e hdoc t ht d hd
  rw [lotlPointers]
  generalize root.iter (q (txt "OtherTSLPointer")) = ptrs at htext ⊢
  induction ptrs using List.reverseRecOn with
  | nil => simp
  | append_singleton ptrs ptr ih =>
    have hout := ih fun p hp => htext p (List.mem_append_left _ hp)
    rw [List.foldl_append, List.foldl_cons, List.foldl_nil]
    cases hloc : text ptr (txt "TSLLocation") with
    | none => simpa only [hloc] using hout
    | some loc =>
      have hscalar := htext ptr (by simp) loc hloc
      dsimp only
      split
      . exact hout
      . split
        . exact hout
        . intro url hurl
          rcases List.mem_append.mp hurl with hurl | hurl
          . exact hout url hurl
          . exact List.mem_singleton.mp hurl ▸ hscalar

theorem scalar_certs {e : Element} {f : Str} (h : f ∈ certs sha256 b64decode e) : Str.Scalar f := by
  rw [certs] at h
  split at h
  . simp at h
  . rw [List.mem_toFinset, List.mem_filterMap] at h
    rcases h with ⟨x, -, hx⟩
    rcases Option.map_eq_some_iff.mp hx with ⟨der, -, rfl⟩
    exact Hex.scalar_ofBytes _

theorem scalar_info {root : Element} {svc : Service} (hsvc : svc ∈ services sha256 b64decode root)
    {f : Str} (hf : f ∈ svc.info.certs) : Str.Scalar f := by
  rcases List.mem_filterMap.mp hsvc with ⟨e, -, he⟩
  rcases Option.map_eq_some_iff.mp he with ⟨si, -, rfl⟩
  exact scalar_certs hf

theorem scalar_errors {root : Element} {f why : Str}
    (h : (c.status sha256 b64decode root).errors.get? f = some why)
    : Str.Scalar f ∧ Str.Scalar why := by
  rw [Call.status, get?_errors] at h
  rcases List.exists_of_findSome?_eq_some h with ⟨svc, hsvc, hwhy⟩
  split at hwhy
  . next hf =>
    refine ⟨scalar_info (List.mem_reverse.mp hsvc) hf, ?_⟩
    rw [(Service.error?_eq_some.mp hwhy).2]
    split <;> decide
  . cases hwhy

/--
Nothing that is written to the cache has a surrogate.
-/
structure Collected.Scalar (acc : Collected) : Prop where
  fingerprints : ∀ f ∈ acc.fingerprints, Str.Scalar f
  coverage : ∀ url ∈ acc.coverage, Str.Scalar url
  errors : ∀ p ∈ acc.errors.items, Str.Scalar p.1 ∧ Str.Scalar p.2

theorem scalar_of_build {acc : Collected} (h : build unicode sha256 b64decode c = .ok acc)
    : acc.Scalar := by
  rcases build_eq_ok h with ⟨root, hroot, hlists⟩
  have hchars : ∀ e ∈ root.all, ∀ t ∈ e.text, Str.Scalar t := by
    rcases Option.bind_eq_some_iff.mp hroot with ⟨bytes, -, hparse⟩
    rw [parseTl] at hparse
    split at hparse
    . cases hparse
    . exact c.net.scalar bytes root (Option.filter_eq_some_iff.mp hparse).1
  have hurl : ∀ list ∈ c.lists unicode root, Str.Scalar list.1 := by
    intro list hlist
    rcases List.mem_filterMap.mp hlist with ⟨url, hptr, hurl⟩
    split at hurl
    . rcases Option.map_eq_some_iff.mp hurl with ⟨_, -, rfl⟩
      exact scalar_lotlPointers hchars url hptr
    . cases hurl
  refine ⟨?_, ?_, ?_⟩
  . intro f hf
    rw [Collected.fingerprints, hlists, Finset.mem_filter, mem_fprs_foldl] at hf
    rcases hf with ⟨hf | ⟨list, -, hf⟩, -⟩
    . simp at hf
    . rcases (mem_granted _ _ _).mp hf with ⟨⟨svc, hsvc, -, hcert⟩, -⟩
      exact scalar_info hsvc hcert
  . intro url hmem
    rw [hlists, coverage_foldl, List.nil_append] at hmem
    rcases List.mem_map.mp hmem with ⟨list, hlist, rfl⟩
    exact hurl list hlist
  . intro p hp
    have hget := (Dict.mem_items_iff acc.errors p.1 p.2).mp hp
    rw [hlists, get?_errors_lists] at hget
    rcases List.exists_of_findSome?_eq_some hget with ⟨list, hlist, hwhy⟩
    rcases Option.map_eq_some_iff.mp hwhy with ⟨why, herror, htext⟩
    rcases scalar_errors herror with ⟨hf, hscalar⟩
    refine ⟨hf, ?_⟩
    rw [← htext, Str.scalar_append, Str.scalar_append]
    exact ⟨⟨hscalar, by decide⟩, hurl list (List.mem_reverse.mp hlist)⟩

/-!
### Reading the cache
-/

namespace Datetime

/--
The whole seconds of an instant.
-/
def second (t : Datetime) : Int := Tip.timegm t.y t.mo t.d t.h t.mi t.s * 10 ^ 6

theorem when?_strftime (t : Datetime) : when? t.strftime = some t.second := by
  rcases t.date with ⟨hdate, hyear⟩
  rcases t.time with ⟨hh, hmi, hs, -⟩
  have hmonth : Gregorian.monthLength t.y t.mo = Tip.daysInMonth t.y t.mo := rfl
  have hday : Gregorian.monthLength t.y t.mo ≤ 31 := by
    rw [hmonth, Tip.daysInMonth]
    split_ifs <;> omega
  have hdigits : ∀ {n k : Nat} {rest : Str}, k < 10 ^ n →
      Tip.digits n (Tip.pad n k ++ rest) = some (k, rest) := fun hk =>
    Tip.digits_eq_some.mpr ⟨hk, rfl⟩
  have hexpect : ∀ {d : Char} {rest : Str}, Tip.expect d (.ofChar d :: rest) = some rest :=
    Tip.expect_eq_some.mpr rfl
  obtain ⟨hy, hmo, hmo', hd, hd'⟩ := hdate
  rw [strftime, when?]
  simp only [Option.bind_eq_bind]
  rw [hdigits (by omega)]
  simp only [Option.bind_some, hexpect]
  rw [hdigits (by omega)]
  simp only [Option.bind_some, hexpect]
  rw [hdigits (by omega)]
  simp only [Option.bind_some, hexpect]
  rw [hdigits (by omega)]
  simp only [Option.bind_some, hexpect]
  rw [hdigits (by omega)]
  simp only [Option.bind_some, hexpect]
  rw [hdigits (by omega)]
  simp only [Option.bind_some]
  rw [if_pos ⟨rfl, ⟨hy, hmo, hmo', hd, hmonth ▸ hd'⟩, hh, hmi, hs⟩]
  rfl

end Datetime

theorem scalar_strftime (t : Datetime) : Str.Scalar t.strftime := by
  have hpad : ∀ n k, Str.Scalar (Tip.pad n k) := by
    intro n k d hd
    have hdigit := Tip.isDigit_pad n k d hd
    rw [Json.isDigit, Bool.and_eq_true, decide_eq_true_eq, decide_eq_true_eq] at hdigit
    simp only [CodePoint.isSurrogate, Bool.and_eq_false_iff, decide_eq_false_iff_not]
    omega
  have hchar : (CodePoint.ofChar '-').isSurrogate = false ∧
      (CodePoint.ofChar 'T').isSurrogate = false ∧ (CodePoint.ofChar ':').isSurrogate = false ∧
      (CodePoint.ofChar 'Z').isSurrogate = false := ⟨rfl, rfl, rfl, rfl⟩
  simp only [Datetime.strftime, Str.scalar_append, Str.scalar_cons, Str.scalar_nil, hpad, hchar,
    and_self]

/--
The errors as they are written.
-/
def Collected.sortedErrors (acc : Collected) : List (Str × Json) :=
  Json.sortMembers (acc.errors.items.map fun p => (p.1, .str p.2))

theorem Collected.nodup_errors (acc : Collected)
    : ((acc.errors.items.map fun p => (p.1, Json.str p.2)).map Prod.fst).Nodup := by
  rw [List.map_map]
  exact acc.errors.nodup

theorem depth_cacheValue (written : Datetime) (acc : Collected)
    : (cacheValue written acc).depth ≤ 2 := by
  have harr : ∀ xs : List Str, (Json.arr (xs.map .str)).depth ≤ 1 := by
    intro xs
    have helems : Json.depthElems (xs.map .str) ≤ 0 := by
      rw [Json.depthElems_le_iff, List.forall_mem_map]
      exact fun _ _ => Nat.le_refl 0
    exact Nat.succ_le_succ helems
  have herrors : (Json.obj acc.sortedErrors).depth ≤ 1 := by
    refine Nat.succ_le_succ ((Json.depthMembers_le_iff _ 0).mpr ?_)
    intro m hm
    rw [Collected.sortedErrors, Json.mem_sortMembers] at hm
    rcases List.mem_map.mp hm with ⟨p, -, rfl⟩
    exact Nat.le_refl 0
  refine Nat.succ_le_succ ((Json.depthMembers_le_iff _ 1).mpr ?_)
  simp only [List.forall_mem_cons]
  exact ⟨Nat.zero_le 1, Nat.zero_le 1, harr _, harr _, herrors, by simp⟩

theorem loads_cacheText (interp : Interp) (hlimit : 2 ≤ interp.recursionLimit) (written : Datetime)
    {acc : Collected} (hacc : acc.Scalar)
    : Python.loads interp (cacheText written acc) = .ok (cacheValue written acc) := by
  have hstr : ∀ {s : Str}, Str.Scalar s →
      (Json.str s).All (Json.Accepts (Python.plainHooks interp) true) := fun hs _ => hs
  have harr : ∀ xs : List Str, (∀ x ∈ xs, Str.Scalar x) →
      (Json.arr (xs.map .str)).All (Json.Accepts (Python.plainHooks interp) true) := by
    intro xs hxs
    rw [Json.all_arr, List.forall_mem_map]
    exact ⟨trivial, fun x hx => hstr (hxs x hx)⟩
  have hobj : ∀ {ms : List (Str × Json)}, (ms.map Prod.fst).Nodup →
      (∀ m ∈ ms, Str.Scalar m.1 ∧ m.2.All (Json.Accepts (Python.plainHooks interp) true)) →
      (Json.obj ms).All (Json.Accepts (Python.plainHooks interp) true) := by
    intro ms hnodup hms
    rw [Json.all_obj]
    refine ⟨⟨?_, fun _ m hm => (hms m hm).1⟩, fun m hm => (hms m hm).2⟩
    simp only [Python.plainHooks, Json.dictOfPairs_of_nodup hnodup]
  have herrors : (Json.obj acc.sortedErrors).All
      (Json.Accepts (Python.plainHooks interp) true) := by
    refine hobj ((Json.nodup_sortMembers _).mpr acc.nodup_errors) ?_
    intro m hm
    rcases List.mem_map.mp ((Json.mem_sortMembers m _).mp hm) with ⟨p, hp, rfl⟩
    exact ⟨(hacc.errors p hp).1, hstr (hacc.errors p hp).2⟩
  have hfingerprints := harr (sorted acc.fingerprints) fun f hf =>
    hacc.fingerprints f (mem_sorted.mp hf)
  refine Json.loads_dumpsIn _ Json.Layout.blank_spaced true 0 _ ?_
    ((depth_cacheValue written acc).trans hlimit)
  have hkeys : [txt "rule", txt "built_at", txt "fingerprints", txt "coverage",
      txt "history_errors"].Nodup := by decide
  refine hobj hkeys ?_
  simp only [List.forall_mem_cons]
  exact ⟨⟨by decide, hstr (by decide)⟩, ⟨by decide, hstr (scalar_strftime written)⟩,
    ⟨by decide, hfingerprints⟩, ⟨by decide, harr _ hacc.coverage⟩, ⟨by decide, herrors⟩, by simp⟩

/--
What is read from a cache that was written before: the same answer, unless it is too old or from the
future.
-/
theorem cacheAnswer_cacheValue (maxAge now : Int) (written : Datetime) (acc : Collected)
    : cacheAnswer maxAge now (cacheValue written acc) =
        .ok (if 0 ≤ now - written.second ∧ now - written.second ≤ maxAge * 10 ^ 6 then
          some { acc.qualified with errors := acc.sortedErrors } else none) := by
  have hbuilt : (cacheValue written acc).get? (txt "built_at") = some (.str written.strftime) := rfl
  have hrule : (cacheValue written acc).get? (txt "rule") = some (.str rule) := rfl
  have hfingerprints : (cacheValue written acc).get? (txt "fingerprints") =
      some (.arr ((sorted acc.fingerprints).map .str)) := rfl
  have hcoverage : (cacheValue written acc).get? (txt "coverage") =
      some (.arr (acc.coverage.map .str)) := rfl
  have herrors : (cacheValue written acc).get? (txt "history_errors") =
      some (.obj acc.sortedErrors) := rfl
  have hhashable : ((sorted acc.fingerprints).map Json.str).all hashable = true := by
    rw [List.all_eq_true, List.forall_mem_map]
    exact fun _ _ => rfl
  rw [cacheAnswer, hbuilt, Option.bind_some, cacheAnswer.builtAt?, Datetime.when?_strftime]
  simp only [hrule, true_and, hfingerprints, hhashable, if_true, hcoverage, herrors,
    Option.getD_some]
  split <;> rfl

/-!
### Calls one after the other
-/

variable (unicode sha256 b64decode)

theorem load_cases (c : Call) (cache : Option Str)
    : (∃ answer, readCache interp c cache = .ok (some answer) ∧
          loadQualifiedStatus interp unicode sha256 b64decode c cache = (.ok answer, cache)) ∨
        (∃ acc, build unicode sha256 b64decode c = .ok acc ∧
          (loadQualifiedStatus interp unicode sha256 b64decode c cache =
              (.ok acc.qualified, cache) ∨
            c.cached = true ∧ loadQualifiedStatus interp unicode sha256 b64decode c cache =
              (.ok acc.qualified, some (cacheText c.written acc)))) ∨
        ∃ e, loadQualifiedStatus interp unicode sha256 b64decode c cache = (.error e, cache) := by
  rw [loadQualifiedStatus]
  cases hread : readCache interp c cache with
  | error e => exact Or.inr (Or.inr ⟨e, rfl⟩)
  | ok found =>
    cases found with
    | some answer => exact Or.inl ⟨answer, rfl, rfl⟩
    | none =>
      cases hbuild : build unicode sha256 b64decode c with
      | error e => exact Or.inr (Or.inr ⟨e, rfl⟩)
      | ok acc =>
        cases hcached : c.cached with
        | false => exact Or.inr (Or.inl ⟨acc, rfl, Or.inl (by simp)⟩)
        | true =>
          cases hwrites : c.writes with
          | false => exact Or.inr (Or.inr ⟨.notWritten, by simp⟩)
          | true => exact Or.inr (Or.inl ⟨acc, rfl, Or.inr ⟨rfl, by simp⟩⟩)

/--
`b` is the last of the calls that wrote the cache, and `acc` is what it built.
-/
def LastWritten (interp : Interp) (unicode : Python.Unicode) (sha256 : HashFn 32)
    (b64decode : Str → Option Bytes) (calls : List Call) (b : Call) (acc : Collected) : Prop :=
  ∃ pre post, calls = pre ++ b :: post ∧ b.cached = true ∧
    build unicode sha256 b64decode b = .ok acc ∧
    ∀ later, later <+: post →
      cacheAfter interp unicode sha256 b64decode (pre ++ b :: later) =
        some (cacheText b.written acc)

theorem cacheAfter_append (calls : List Call) (c : Call)
    : cacheAfter interp unicode sha256 b64decode (calls ++ [c]) =
        (loadQualifiedStatus interp unicode sha256 b64decode c
          (cacheAfter interp unicode sha256 b64decode calls)).2 := by
  rw [cacheAfter, List.foldl_append]
  rfl

/--
The cache is what the last call wrote that wrote it.
-/
theorem cacheAfter_cases (calls : List Call)
    : cacheAfter interp unicode sha256 b64decode calls = none ∨
        ∃ b acc, LastWritten interp unicode sha256 b64decode calls b acc := by
  induction calls using List.reverseRecOn with
  | nil => exact Or.inl rfl
  | append_singleton calls c ih =>
    by_cases hwritten : ∃ acc, c.cached = true ∧ build unicode sha256 b64decode c = .ok acc ∧
        cacheAfter interp unicode sha256 b64decode (calls ++ [c]) =
          some (cacheText c.written acc)
    . rcases hwritten with ⟨acc, hcached, hbuild, hafter⟩
      refine Or.inr ⟨c, acc, calls, [], rfl, hcached, hbuild, ?_⟩
      intro later hlater
      rw [List.prefix_nil.mp hlater]
      exact hafter
    . have hsame : cacheAfter interp unicode sha256 b64decode (calls ++ [c]) =
          cacheAfter interp unicode sha256 b64decode calls := by
        have hload := cacheAfter_append interp unicode sha256 b64decode calls c
        rcases load_cases interp unicode sha256 b64decode c
            (cacheAfter interp unicode sha256 b64decode calls) with
          ⟨answer, -, heq⟩ | ⟨acc, hbuild, heq | ⟨hcached, heq⟩⟩ | ⟨e, heq⟩
        . rw [hload, heq]
        . rw [hload, heq]
        . rw [heq] at hload
          exact absurd ⟨acc, hcached, hbuild, hload⟩ hwritten
        . rw [hload, heq]
      rcases ih with hnone | ⟨b, acc, pre, post, rfl, hcached, hbuild, hafter⟩
      . exact Or.inl (hsame.trans hnone)
      . refine Or.inr ⟨b, acc, pre, post ++ [c], by simp, hcached, hbuild, ?_⟩
        intro later hlater
        rcases List.prefix_concat_iff.mp hlater with rfl | hlater
        . have hlast := hsame.trans (hafter post (List.prefix_refl post))
          rwa [List.append_assoc, List.cons_append] at hlast
        . exact hafter later hlater

variable {unicode sha256 b64decode} in
theorem Answers.sorted {root : Element} {acc : Collected}
    (h : Answers unicode sha256 b64decode c root acc.qualified)
    : Answers unicode sha256 b64decode c root
        { acc.qualified with errors := acc.sortedErrors } where
  lotl := h.lotl
  coverage := h.coverage
  fingerprints := h.fingerprints
  errors f := by
    rw [← h.errors f]
    exact Json.lookup_sortMembers f _ acc.nodup_errors

/--
Calls that share a cache file: an answer is what the lists said to the call that gives it, or to the
last one that wrote the cache, which was not longer ago than the call allows.
-/
theorem calls_answer (hlimit : 2 ≤ interp.recursionLimit) (calls : List Call) (c : Call)
    (answer : Qualified)
    (h : (loadQualifiedStatus interp unicode sha256 b64decode c
      (cacheAfter interp unicode sha256 b64decode calls)).1 = .ok answer)
    : (∃ root, Answers unicode sha256 b64decode c root answer) ∨
        c.cached = true ∧ ∃ b acc root, LastWritten interp unicode sha256 b64decode calls b acc ∧
          Answers unicode sha256 b64decode b root answer ∧ b.written.second ≤ c.now.instant ∧
          c.now.instant ≤ b.written.second + c.maxAge * 10 ^ 6 := by
  rcases load_cases interp unicode sha256 b64decode c
      (cacheAfter interp unicode sha256 b64decode calls) with
    ⟨found, hread, heq⟩ | ⟨acc, hbuild, heq | ⟨-, heq⟩⟩ | ⟨e, heq⟩
  . right
    have hfound : found = answer := by simpa [heq] using h
    rw [hfound, readCache.eq_def] at hread
    split at hread
    . next hcached =>
      refine ⟨hcached, ?_⟩
      rcases cacheAfter_cases interp unicode sha256 b64decode calls with hnone | ⟨b, acc, hlast⟩
      . simp [hnone] at hread
      . rcases hlast with ⟨pre, post, hcalls, hb, hbuild, hafter⟩
        have htext := hafter post (List.prefix_refl post)
        rw [← hcalls] at htext
        rw [htext] at hread
        dsimp only at hread
        rw [loads_cacheText interp hlimit b.written (scalar_of_build hbuild)] at hread
        have hanswer : cacheAnswer c.maxAge c.now.instant (cacheValue b.written acc) =
            .ok (some answer) := hread
        rw [cacheAnswer_cacheValue] at hanswer
        split at hanswer
        . next hage =>
          rcases answers_of_build hbuild with ⟨root, hroot⟩
          have heq' : answer = { acc.qualified with errors := acc.sortedErrors } := by
            simpa [eq_comm] using hanswer
          exact ⟨b, acc, root, ⟨pre, post, hcalls, hb, hbuild, hafter⟩, heq' ▸ hroot.sorted,
            by omega, by omega⟩
        . simp at hanswer
    . simp at hread
  . rcases answers_of_build hbuild with ⟨root, hroot⟩
    have hfound : acc.qualified = answer := by simpa [heq] using h
    exact Or.inl ⟨root, hfound ▸ hroot⟩
  . rcases answers_of_build hbuild with ⟨root, hroot⟩
    have hfound : acc.qualified = answer := by simpa [heq] using h
    exact Or.inl ⟨root, hfound ▸ hroot⟩
  . simp [heq] at h

/-!
### An answer from the cache
-/

def leaf (name text : Str) : Element := .mk (q name) (some text) []

def branch (name : Str) (children : List Element) : Element := .mk (q name) none children

def exampleUrl : Str := txt "https://tl.it/tl.xml"

def exampleLotl : Element :=
  branch (txt "TrustServiceStatusList")
    [branch (txt "OtherTSLPointer")
      [leaf (txt "TSLLocation") exampleUrl,
        .mk (txt "\x7b" ++ tslxNs ++ txt "\x7d" ++ txt "MimeType") (some tslMime) []]]

def exampleList : Element :=
  branch (txt "TrustServiceStatusList")
    [branch (txt "TSPService")
      [branch (txt "ServiceInformation")
        [leaf (txt "ServiceTypeIdentifier") qtstUri, leaf (txt "ServiceStatus") grantedUri,
          leaf (txt "StatusStartingTime") (txt "2016-07-01T00:00:00Z"),
          branch (txt "ServiceDigitalIdentity")
            [branch (txt "DigitalId") [leaf (txt "X509Certificate") (txt "QUJD")]]]]]

def exampleNet : Net where
  get url := if url = lotlUrl then some [1] else if url = exampleUrl then some [2] else none
  xml bytes :=
    if bytes = [1] then some exampleLotl
    else if bytes = [2] then some exampleList
    else none
  scalar := by
    have hlotl : ∀ e ∈ exampleLotl.all, ∀ t ∈ e.text, Str.Scalar t := by decide +kernel
    have hlist : ∀ e ∈ exampleList.all, ∀ t ∈ e.text, Str.Scalar t := by decide +kernel
    intro bytes root hroot
    split at hroot
    . exact Option.some.inj hroot ▸ hlotl
    . split at hroot
      . exact Option.some.inj hroot ▸ hlist
      . cases hroot

def exampleTime (h : Nat) (hh : h ≤ 23) : Datetime where
  y := 2026
  mo := 10
  d := 14
  h := h
  mi := 0
  s := 0
  us := 0
  date := by
    refine ⟨?_, by decide⟩
    rw [Gregorian.IsDate]
    decide
  time := ⟨hh, by decide⟩

/--
A call at an hour, with a cache that may be an hour old.
-/
def exampleCall (h : Nat) (hh : h ≤ 23) : Call where
  net := exampleNet
  memberStates := [txt "IT"]
  cached := true
  maxAge := 3600
  now := exampleTime h hh
  time := exampleTime h hh
  written := exampleTime h hh
  writes := true

def exampleInterp : Interp := ⟨1000, 1000, some 4300⟩

def exampleHash : HashFn 32 where
  digest der := der.take 1 ++ List.replicate (32 - (der.take 1).length) 7
  length_digest der := by simp

def exampleCollected : Collected where
  fprs := {Hex.ofBytes (exampleHash [0x41, 0x42, 0x43])}
  coverage := [exampleUrl]
  errors := Dict.empty

theorem lotlPointers_exampleLotl : lotlPointers exampleLotl = [exampleUrl] := by
  simp only [lotlPointers, exampleLotl, branch, leaf, text, exampleUrl, q, tslNs, tslxNs, tslMime,
    lotlType, lotlUrl, txt_ofList]
  decide +kernel

theorem services_exampleList
    : services exampleHash Base64.decode? exampleList =
        [{ info := ⟨some 1467331200000000, some qtstUri, some grantedUri, exampleCollected.fprs⟩
           history := [] }] := by
  simp only [services, exampleList, entryOf, certs, branch, leaf, text, q, tslNs, txt_ofList,
    qtstUri, grantedUri, exampleCollected]
  decide +kernel

theorem wants_exampleUrl
    : (exampleCall 8 (by decide)).wants? Python.Unicode.ascii exampleUrl = some true := by
  simp only [exampleCall, Call.wants?, msOfUrl, exampleUrl, txt_ofList]
  decide +kernel

theorem Net.list?_eq (bytes : Bytes) {net : Net} {url : Str} {root : Element}
    (hget : net.get url = some bytes) (hbytes : bytes.contains 0 = false)
    (hxml : net.xml bytes = some root) (hroot : root.tag = q (txt "TrustServiceStatusList"))
    : net.list? url = some root := by
  rw [Net.list?, hget, Option.bind_some, parseTl, hbytes, hxml]
  simp [hroot]

theorem list_lotlUrl : exampleNet.list? lotlUrl = some exampleLotl :=
  Net.list?_eq [1] (by simp [exampleNet]) rfl rfl rfl

theorem list_exampleUrl : exampleNet.list? exampleUrl = some exampleList := by
  have hne : exampleUrl ≠ lotlUrl := by
    simp only [exampleUrl, lotlUrl, txt_ofList]
    decide +kernel
  exact Net.list?_eq [2] (by simp [exampleNet, hne]) rfl rfl rfl

theorem status_exampleList
    : (exampleCall 8 (by decide)).status exampleHash Base64.decode? exampleList =
        ⟨exampleCollected.fprs, Dict.empty⟩ := by
  have htime : (exampleCall 8 (by decide)).time.instant = 1791964800000000 := by decide
  have herror : historyError [] = none := rfl
  rw [Call.status, services_exampleList, htime]
  simp [qtstStatusAt, statusStep, Service.error?, Service.dated, Service.timeline, Service.grants,
    herror, Timeline.inForce, Timeline.maxBy?, Dict.contains]

theorem build_exampleCall
    : build Python.Unicode.ascii exampleHash Base64.decode? (exampleCall 8 (by decide)) =
        .ok exampleCollected := by
  have hcollect : collect Python.Unicode.ascii exampleHash Base64.decode? (exampleCall 8 (by decide))
      [exampleUrl] = some exampleCollected := by
    have hadd : collectList exampleHash Base64.decode? (exampleCall 8 (by decide))
        ⟨∅, [], Dict.empty⟩ exampleUrl = exampleCollected := by
      rw [collectList, show (exampleCall 8 (by decide)).net = exampleNet from rfl, list_exampleUrl]
      simp only [addList, status_exampleList, Finset.empty_union]
      rfl
    simp [collect, wants_exampleUrl, hadd]
  rw [build, show (exampleCall 8 (by decide)).net = exampleNet from rfl, list_lotlUrl]
  simp only [lotlPointers_exampleLotl, hcollect]

def exampleAnswer : Qualified :=
  { exampleCollected.qualified with errors := exampleCollected.sortedErrors }

/--
An hour later the answer comes from the cache.
-/
theorem load_exampleCall
    : (loadQualifiedStatus exampleInterp Python.Unicode.ascii exampleHash Base64.decode?
        (exampleCall 9 (by decide)) (cacheAfter exampleInterp Python.Unicode.ascii exampleHash
          Base64.decode? [exampleCall 8 (by decide)])).1 = .ok exampleAnswer := by
  have hcache : cacheAfter exampleInterp Python.Unicode.ascii exampleHash Base64.decode?
      [exampleCall 8 (by decide)] =
        some (cacheText (exampleTime 8 (by decide)) exampleCollected) := by
    simp only [cacheAfter, List.foldl_cons, List.foldl_nil, loadQualifiedStatus, build_exampleCall]
    rfl
  have hread : readCache exampleInterp (exampleCall 9 (by decide))
      (some (cacheText (exampleTime 8 (by decide)) exampleCollected)) = .ok (some exampleAnswer) := by
    have hloads := loads_cacheText exampleInterp (by decide)
      (exampleTime 8 (by decide)) (scalar_of_build build_exampleCall)
    have hage : 0 ≤ (exampleCall 9 (by decide)).now.instant - (exampleTime 8 (by decide)).second ∧
        (exampleCall 9 (by decide)).now.instant - (exampleTime 8 (by decide)).second ≤
          3600 * 10 ^ 6 := by decide
    have hanswer := cacheAnswer_cacheValue 3600 (exampleCall 9 (by decide)).now.instant
      (exampleTime 8 (by decide)) exampleCollected
    rw [if_pos hage] at hanswer
    rw [readCache, if_pos (show (exampleCall 9 (by decide)).cached = true from rfl), hloads]
    exact hanswer
  rw [hcache, loadQualifiedStatus, hread]

theorem calls_answer_example
    : (∃ root, Answers Python.Unicode.ascii exampleHash Base64.decode? (exampleCall 9 (by decide)) root
          exampleAnswer) ∨
        (exampleCall 9 (by decide)).cached = true ∧ ∃ b acc root,
          LastWritten exampleInterp Python.Unicode.ascii exampleHash Base64.decode?
            [exampleCall 8 (by decide)] b acc ∧
          Answers Python.Unicode.ascii exampleHash Base64.decode? b root exampleAnswer ∧
          b.written.second ≤ (exampleCall 9 (by decide)).now.instant ∧
          (exampleCall 9 (by decide)).now.instant ≤
            b.written.second + (exampleCall 9 (by decide)).maxAge * 10 ^ 6 :=
  calls_answer exampleInterp Python.Unicode.ascii exampleHash Base64.decode? (by decide)
    [exampleCall 8 (by decide)] (exampleCall 9 (by decide)) exampleAnswer load_exampleCall

end

end Lotl
end CryptoValid
