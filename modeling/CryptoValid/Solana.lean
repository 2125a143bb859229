import CryptoValid.Lib.Except
import CryptoValid.Lib.PythonText
import Mathlib.Data.Finset.Dedup
import Mathlib.Data.List.Dedup

/-!
This module contains the verification of an anchor in `cryptovalid_solana.py`: what every endpoint
answers, the checks on the answers, and how many endpoints stand behind a positive verdict.
-/

namespace CryptoValid
namespace Solana

def mainnetGenesis : Str := txt "5eykt4UsFv8P8NJdTREpY1vzqKqZKvdpKuc147dw2N9d"

def memoProgramIds : List Str :=
  [txt "MemoSq4gqABAXKb96qnH8TysNcWxMyWCqXgDLGmfcHr",
    txt "Memo1UhkJRfHyvLMcVucJwxXeuD728EqVDDwQDxFMNo"]

/--
What the code does not expect of a transaction.
-/
inductive Raised where
  | attributeError
  | typeError
  | keyError
  deriving DecidableEq

/--
`v.get(key, default)`
-/
def getD (v : Json) (key : Str) (default : Json) : Except Raised Json :=
  match v with
  | .obj ms => .ok ((Assoc.lookup key ms).getD default)
  | _ => .error .attributeError

/--
`list(v)`
-/
def iter : Json → Except Raised (List Json)
  | .arr xs => .ok xs
  | .obj ms => .ok (ms.map fun m => .str m.1)
  | .str s => .ok (s.map fun c => .str [c])
  | _ => .error .typeError

/--
`v or default`
-/
def orElse (v default : Json) : Json := if Python.truthy v then v else default

/-!
### Memos
-/

/--
The digits of a digest that the text starts with.
-/
def digestAt? (s : Str) : Option Str :=
  let digits := (s.drop 5).take 64
  if s.take 5 = txt "sha3:" ∧ digits.length = 64 ∧ digits.all (Hex.digit? · |>.isSome) then
    some digits
  else
    none

/--
`re.findall(r"sha3:([0-9a-fA-F]{64})", memo)`; `skip` characters belong to the last match.
-/
def findDigests (skip : Nat) : Str → List Str
  | [] => []
  | c :: s =>
    match skip with
    | skip + 1 => findDigests skip s
    | 0 =>
      match digestAt? (c :: s) with
      | some digits => digits :: findDigests 68 s
      | none => findDigests 0 s

/--
Is an instruction one of the memo program? A list or an object cannot be looked up in a set.
-/
def isMemo (ix : Json) : Except Raised Bool := do
  let programId ← getD ix (txt "programId") .null
  match programId with
  | .arr _ | .obj _ => throw .typeError
  | _ =>
    if memoProgramIds.any fun id => programId = .str id then
      return true
    else
      return (← getD ix (txt "program") .null) = .str (txt "spl-memo")

def memoDigests (ix : Json) : Except Raised (List Str) := do
  if ← isMemo ix then
    match ← getD ix (txt "parsed") .null with
    | .str memo => return (findDigests 0 memo).map Python.asciiLower
    | _ => return []
  else
    return []

def message (tx : Json) : Except Raised Json := do
  getD (← getD tx (txt "transaction") (.obj [])) (txt "message") (.obj [])

/--
`_extract_memo_digests`
-/
def extractMemoDigests (tx : Json) : Except Raised (Finset Str) := do
  let tx := orElse tx (.obj [])
  let instrs ← iter (← getD (← message tx) (txt "instructions") (.arr []))
  let meta_ ← getD tx (txt "meta") (.obj [])
  let inners ← iter (orElse (← getD meta_ (txt "innerInstructions") (.arr [])) (.arr []))
  let more ← inners.mapM fun inner => do iter (← getD inner (txt "instructions") (.arr []))
  let digests ← (instrs ++ more.flatten).mapM memoDigests
  return digests.flatten.toFinset

/-!
### Signers
-/

/--
`keys[0]`
-/
def first : Json → Except Raised Json
  | .arr (key :: _) => .ok key
  | .str (c :: _) => .ok (.str [c])
  | .obj _ => .error .keyError
  | _ => .error .typeError

/--
`_tx_signer`
-/
def txSigner (tx : Json) : Except Raised Json := do
  let keys ← getD (← message tx) (txt "accountKeys") (.arr [])
  if !Python.truthy keys then
    return .null
  else
    match ← first keys with
    | .obj ms => getD (.obj ms) (txt "pubkey") .null
    | key => return key

/-!
### The verdict
-/

inductive Request where
  | getGenesisHash
  | getTransaction (signature : Str)

inductive Answer where
  | unreachable
  | reachable (genesis tx : Json)

/--
What an endpoint says a transaction is.
-/
structure View where
  errNone : Bool
  digests : Finset Str
  signer : Json
  deriving DecidableEq

structure Check where
  check : Str
  ok : Option Bool
  deriving DecidableEq

structure Onchain where
  signature : Str
  slot : Json
  blockTime : Json
  signer : Json
  digests : Finset Str
  witnesses : Nat

structure Verdict where
  ok : Bool
  checks : List Check
  onchain : Option Onchain

def viewOf (tx : Json) : Except Raised View := do
  let err ← getD (orElse (← getD tx (txt "meta") .null) (.obj [])) (txt "err") .null
  let digests ← extractMemoDigests tx
  let signer ← txSigner tx
  return ⟨err = .null, digests, signer⟩

/--
`v[1] == w[1] and v[2] == w[2] and v[3] == w[3]`
-/
def View.agrees (v w : View) : Bool :=
  v.errNone = w.errNone && v.digests = w.digests && Python.eqLoaded false v.signer w.signer

/--
`^[0-9a-f]{64}$` for a text without a line break at its end.
-/
def isHex64 (s : Str) : Bool :=
  s.length = 64 && s.all fun c => (Hex.digit? c).isSome && Python.asciiLower [c] = [c]

section

-- `_rpc`: the result of a request, `none` where it raises
variable (u : Python.Unicode) (rpc : Str → Request → Option Json)

/--
`_fetch_one`
-/
def fetchOne (url signature : Str) : Answer :=
  match rpc url .getGenesisHash, rpc url (.getTransaction signature) with
  | some genesis, some tx => .reachable genesis tx
  | _, _ => .unreachable

/--
Genesis and transaction of the endpoints that answer.
-/
def reachable (signature : Str) (rpcs : List Str) : List (Json × Json) :=
  rpcs.filterMap fun url =>
    match fetchOne rpc url signature with
    | .reachable genesis tx => some (genesis, tx)
    | .unreachable => none

def verifySolanaAnchor (signature : Str) (expectedSha3Hex : Option Str) (rpcs : List Str)
    (expectedSigner : Option Str) (minWitnesses : Int) : Except Raised Verdict :=
  let exp := u.lower (Python.stripBlanks (expectedSha3Hex.getD []))
  let hexCheck := fun ok => Check.mk (txt "expected digest is 64-hex sha3-256") (some ok)
  if !isHex64 exp then
    .ok ⟨false, [hexCheck false], none⟩
  else
    let answers := reachable rpc signature rpcs
    if answers.isEmpty then
      .ok ⟨false, [hexCheck true, ⟨txt "at least one RPC reachable", none⟩], none⟩
    else
      let genesisOk := answers.all fun a => a.1 = .str mainnetGenesis
      let genesisCheck := Check.mk (txt "all reachable RPCs on mainnet (genesis pin)") (some genesisOk)
      let archiveCheck := fun ok => Check.mk (txt "≥1 archive RPC has the tx (finalized)") (some ok)
      match (answers.map Prod.snd).filter Python.truthy with
      | [] => .ok ⟨false, [hexCheck true, genesisCheck, archiveCheck false], none⟩
      | tx :: txs => do
        let view ← viewOf tx
        let views ← txs.mapM viewOf
        let noContradiction := (view :: views).all fun v => v.agrees view
        let witnesses := txs.length + 1
        let witnessesOk := minWitnesses ≤ witnesses
        let strict := decide (1 < minWitnesses)
        let digestOk := decide (exp ∈ view.digests)
        let signerOk := expectedSigner.map fun s => decide (view.signer = .str s)
        let signerCheck :=
          if expectedSigner.isSome then txt "fee-payer == expected signer (anchor→KEY, not person)"
          else txt "fee-payer == expected signer (anchor→identity)"
        let slot ← getD tx (txt "slot") .null
        let blockTime ← getD tx (txt "blockTime") .null
        return {
          ok := genesisOk && noContradiction && view.errNone && digestOk && signerOk.getD true &&
            (!strict || witnessesOk)
          checks := [hexCheck true, genesisCheck, archiveCheck true,
              ⟨txt "witnessing RPCs do not contradict each other", some noContradiction⟩,
              ⟨txt "cross-confirmed by ≥2 archives", if 2 ≤ witnesses then some true else none⟩] ++
            (if strict then
              [⟨txt "strict: ≥" ++ Json.intText minWitnesses ++
                txt " same-chain archive replicas agree (NOT fault-independent)", some witnessesOk⟩]
            else []) ++
            [⟨txt "tx executed without error (meta.err is null)", some view.errNone⟩,
              ⟨txt "expected digest present in canonical spl-memo", some digestOk⟩,
              ⟨signerCheck, signerOk⟩]
          onchain := some ⟨signature, slot, blockTime, view.signer, view.digests, witnesses⟩ }

/-!
### Distinct endpoints
-/

/--
The digest that is looked for.
-/
def wanted (expectedSha3Hex : Option Str) : Str :=
  u.lower (Python.stripBlanks (expectedSha3Hex.getD []))

/--
An endpoint is on the main network, and has the transaction with everything that is asked for.
-/
def Stands (signature exp : Str) (expectedSigner : Option Str) (url : Str) : Prop :=
  ∃ tx view, fetchOne rpc url signature = .reachable (.str mainnetGenesis) tx ∧
    Python.truthy tx = true ∧ viewOf tx = .ok view ∧ view.errNone = true ∧ exp ∈ view.digests ∧
    ∀ s ∈ expectedSigner, view.signer = .str s

/--
At least so many different endpoints of the list stand behind the anchor.
-/
def Distinct (signature exp : Str) (rpcs : List Str) (expectedSigner : Option Str)
    (minWitnesses : Int) : Prop :=
  ∃ urls : List Str, urls.Nodup ∧ minWitnesses ≤ urls.length ∧
    ∀ url ∈ urls, url ∈ rpcs ∧ Stands rpc signature exp expectedSigner url

/--
`with_tx`, by the names of the endpoints.
-/
def hasTx (signature url : Str) : Bool :=
  match fetchOne rpc url signature with
  | .reachable _ tx => Python.truthy tx
  | .unreachable => false

variable {u rpc}

theorem mem_reachable {signature : Str} {rpcs : List Str} {a : Json × Json}
    : a ∈ reachable rpc signature rpcs
        ↔ ∃ url ∈ rpcs, fetchOne rpc url signature = .reachable a.1 a.2 := by
  rw [reachable, List.mem_filterMap]
  refine exists_congr fun url => and_congr_right fun _ => ?_
  cases fetchOne rpc url signature with
  | unreachable => simp
  | reachable genesis tx =>
    rw [Answer.reachable.injEq]
    dsimp only
    rw [Option.some.injEq, Prod.ext_iff]

theorem length_filter_reachable (signature : Str) (rpcs : List Str)
    : (((reachable rpc signature rpcs).map Prod.snd).filter Python.truthy).length
        = (rpcs.filter (hasTx rpc signature)).length := by
  induction rpcs with
  | nil => rfl
  | cons url rpcs ih =>
    rw [reachable, List.filterMap_cons, List.filter_cons, hasTx]
    cases hurl : fetchOne rpc url signature with
    | unreachable => simpa [reachable] using ih
    | reachable genesis tx =>
      dsimp only
      rw [List.map_cons, List.filter_cons]
      split
      . rw [List.length_cons, List.length_cons]
        exact congrArg (· + 1) ih
      . exact ih

/--
What a positive verdict has seen.
-/
theorem verifySolanaAnchor_ok {signature : Str} {expectedSha3Hex : Option Str} {rpcs : List Str}
    {expectedSigner : Option Str} {minWitnesses : Int} {v : Verdict}
    (h : verifySolanaAnchor u rpc signature expectedSha3Hex rpcs expectedSigner minWitnesses = .ok v)
    (hok : v.ok = true)
    : ∃ tx txs view views,
        ((reachable rpc signature rpcs).map Prod.snd).filter Python.truthy = tx :: txs ∧
        viewOf tx = .ok view ∧ txs.mapM viewOf = .ok views ∧
        (∀ a ∈ reachable rpc signature rpcs, a.1 = .str mainnetGenesis) ∧
        (∀ w ∈ view :: views, w.agrees view = true) ∧ view.errNone = true ∧
        wanted u expectedSha3Hex ∈ view.digests ∧ (∀ s ∈ expectedSigner, view.signer = .str s) ∧
        (1 < minWitnesses → minWitnesses ≤ txs.length + 1) := by
  unfold verifySolanaAnchor at h
  dsimp only at h
  split at h
  . rw [← Except.ok.inj h] at hok
    simp at hok
  . split at h
    . rw [← Except.ok.inj h] at hok
      simp at hok
    . split at h
      . rw [← Except.ok.inj h] at hok
        simp at hok
      . next tx txs htxs =>
        rcases Except.bind_eq_ok.mp h with ⟨view, hview, h⟩
        rcases Except.bind_eq_ok.mp h with ⟨views, hviews, h⟩
        rcases Except.bind_eq_ok.mp h with ⟨slot, _, h⟩
        rcases Except.bind_eq_ok.mp h with ⟨blockTime, _, h⟩
        rw [← Except.pure_eq_ok.mp h] at hok
        simp only [Bool.and_eq_true, Bool.or_eq_true, Bool.not_eq_true', decide_eq_true_eq,
          decide_eq_false_iff_not, List.all_eq_true] at hok
        rcases hok with ⟨⟨⟨⟨⟨hgenesis, hagrees⟩, herr⟩, hdigest⟩, hsigner⟩, hcount⟩
        refine ⟨tx, txs, view, views, htxs, hview, hviews, hgenesis, hagrees, herr, hdigest, ?_, ?_⟩
        . rintro s rfl
          simpa using hsigner
        . intro hstrict
          exact hcount.resolve_left (not_not.mpr hstrict)

theorem View.agrees_iff {v w : View}
    : v.agrees w = true ↔ v.errNone = w.errNone ∧ v.digests = w.digests ∧
        Python.eqLoaded false v.signer w.signer = true := by
  simp only [View.agrees, Bool.and_eq_true, decide_eq_true_eq, and_assoc]

/--
Every endpoint that has the transaction stands behind a positive verdict.
-/
theorem stands_of_ok {signature : Str} {expectedSha3Hex : Option Str} {rpcs : List Str}
    {expectedSigner : Option Str} {minWitnesses : Int} {v : Verdict}
    (h : verifySolanaAnchor u rpc signature expectedSha3Hex rpcs expectedSigner minWitnesses = .ok v)
    (hok : v.ok = true)
    : (∀ url ∈ rpcs.filter (hasTx rpc signature),
          Stands rpc signature (wanted u expectedSha3Hex) expectedSigner url) ∧
        0 < (rpcs.filter (hasTx rpc signature)).length ∧
        (1 < minWitnesses → minWitnesses ≤ (rpcs.filter (hasTx rpc signature)).length) := by
  rcases verifySolanaAnchor_ok h hok with ⟨tx, txs, view, views, htxs, hview, hviews, hgenesis,
    hagrees, herr, hdigest, hsigner, hcount⟩
  rw [← length_filter_reachable, htxs, List.length_cons]
  refine ⟨fun url hurl => ?_, Nat.succ_pos _, by exact_mod_cast hcount⟩
  rw [List.mem_filter, hasTx] at hurl
  cases hfetch : fetchOne rpc url signature with
  | unreachable => simp [hfetch] at hurl
  | reachable genesis tx' =>
    rw [hfetch] at hurl
    have hmem : (genesis, tx') ∈ reachable rpc signature rpcs := mem_reachable.mpr ⟨url, hurl.1, hfetch⟩
    have hgenesis' : genesis = .str mainnetGenesis := hgenesis _ hmem
    have hmem' : tx' ∈ tx :: txs := by
      rw [← htxs, List.mem_filter]
      exact ⟨List.mem_map.mpr ⟨_, hmem, rfl⟩, hurl.2⟩
    have hview' : ∃ w, viewOf tx' = .ok w ∧ w.agrees view = true := by
      rcases List.mem_cons.mp hmem' with rfl | hmem'
      . exact ⟨view, hview, hagrees _ List.mem_cons_self⟩
      . rcases List.exists_of_mem_left (Except.mapM_eq_ok.mp hviews) hmem' with ⟨w, hw, hok'⟩
        exact ⟨w, hok', hagrees _ (List.mem_cons_of_mem _ hw)⟩
    rcases hview' with ⟨w, hw, hsame⟩
    rcases View.agrees_iff.mp hsame with ⟨herr', hdigests', hsigner'⟩
    subst hgenesis'
    refine ⟨tx', w, hfetch, hurl.2, hw, herr'.trans herr, by rw [hdigests']; exact hdigest, ?_⟩
    intro s hs
    rw [hsigner s hs, Python.eqLoaded_str_right_iff] at hsigner'
    exact hsigner'

/-!
### One endpoint more
-/

/--
The fee payer of a well-formed transaction.
-/
def IsKey (signer : Json) : Prop := signer = .null ∨ ∃ s, signer = .str s

variable (rpc) in
/--
What an endpoint answers is not what another endpoint, or the main network, answers: another genesis,
error state, set of digests or signer.
-/
def Contradicts (signature : Str) (rpcs : List Str) (url : Str) : Prop :=
  ∃ genesis tx, fetchOne rpc url signature = .reachable genesis tx ∧
    (genesis ≠ .str mainnetGenesis ∨
      ∃ url' ∈ rpcs, ∃ genesis' tx', fetchOne rpc url' signature = .reachable genesis' tx' ∧
        (genesis ≠ genesis' ∨
          Python.truthy tx = true ∧ Python.truthy tx' = true ∧
            ∃ view view', viewOf tx = .ok view ∧ viewOf tx' = .ok view' ∧ IsKey view.signer ∧
              IsKey view'.signer ∧ (view.errNone ≠ view'.errNone ∨ view.digests ≠ view'.digests ∨
                view.signer ≠ view'.signer)))

theorem eq_of_eqLoaded_key {signer signer' first : Json} (hkey : IsKey signer)
    (hkey' : IsKey signer')
    (h : Python.eqLoaded false signer first = true)
    (h' : Python.eqLoaded false signer' first = true)
    : signer = signer' := by
  rcases hkey with rfl | ⟨s, rfl⟩
  . rw [Python.eqLoaded_null_iff] at h
    subst h
    rcases hkey' with rfl | ⟨s', rfl⟩
    . rfl
    . rw [Python.eqLoaded_str_iff] at h'
      exact h'
  . rw [Python.eqLoaded_str_iff] at h
    subst h
    exact ((Python.eqLoaded_str_right_iff false signer' s).mp h').symm

/--
All views of a positive verdict agree with the first one.
-/
theorem exists_agrees_of_ok {signature : Str} {expectedSha3Hex : Option Str} {rpcs : List Str}
    {expectedSigner : Option Str} {minWitnesses : Int} {v : Verdict}
    (h : verifySolanaAnchor u rpc signature expectedSha3Hex rpcs expectedSigner minWitnesses = .ok v)
    (hok : v.ok = true)
    : ∃ first : View, ∀ url ∈ rpcs, ∀ genesis tx, fetchOne rpc url signature = .reachable genesis tx →
        genesis = .str mainnetGenesis ∧ (Python.truthy tx = true →
          ∀ view, viewOf tx = .ok view → view.agrees first = true) := by
  rcases verifySolanaAnchor_ok h hok with ⟨tx, txs, first, views, htxs, hfirst, hviews, hgenesis,
    hagrees, _⟩
  refine ⟨first, fun url hurl genesis tx' hfetch => ?_⟩
  have hmem : (genesis, tx') ∈ reachable rpc signature rpcs := mem_reachable.mpr ⟨url, hurl, hfetch⟩
  refine ⟨hgenesis _ hmem, fun htruthy view hview => ?_⟩
  have hmem' : tx' ∈ tx :: txs := by
    rw [← htxs, List.mem_filter]
    exact ⟨List.mem_map.mpr ⟨_, hmem, rfl⟩, htruthy⟩
  rcases List.mem_cons.mp hmem' with rfl | hmem'
  . rw [hfirst, Except.ok.injEq] at hview
    rw [← hview]
    exact hagrees _ List.mem_cons_self
  . rcases List.exists_of_mem_left (Except.mapM_eq_ok.mp hviews) hmem' with ⟨w, hw, hok'⟩
    rw [hview, Except.ok.injEq] at hok'
    rw [hok']
    exact hagrees _ (List.mem_cons_of_mem _ hw)

/--
With an endpoint that contradicts, at any place of the list, no verdict is positive.
-/
theorem not_ok_of_contradicts {signature : Str} {expectedSha3Hex : Option Str}
    {pre post : List Str} {url : Str} {expectedSigner : Option Str} {minWitnesses : Int}
    {v : Verdict}
    (hcontra : Contradicts rpc signature (pre ++ post) url)
    (h : verifySolanaAnchor u rpc signature expectedSha3Hex (pre ++ url :: post) expectedSigner
      minWitnesses = .ok v)
    : v.ok = false := by
  by_contra hok
  rcases exists_agrees_of_ok h (Bool.eq_true_of_not_eq_false hok) with ⟨first, hfirst⟩
  rcases hcontra with ⟨genesis, tx, hfetch, hdiffers⟩
  have hself := hfirst url (by simp) genesis tx hfetch
  rcases hdiffers with hgenesis | ⟨url', hurl', genesis', tx', hfetch', hdiffers⟩
  . exact hgenesis hself.1
  . have hmem : url' ∈ pre ++ url :: post := by
      rcases List.mem_append.mp hurl' with hurl' | hurl'
      . exact List.mem_append_left _ hurl'
      . exact List.mem_append_right _ (List.mem_cons_of_mem _ hurl')
    have hother := hfirst url' hmem genesis' tx' hfetch'
    rcases hdiffers with hgenesis | ⟨htruthy, htruthy', view, view', hview, hview', hkey, hkey', hne⟩
    . exact hgenesis (hself.1.trans hother.1.symm)
    . rcases View.agrees_iff.mp (hself.2 htruthy view hview) with ⟨herr, hdigests, hsigner⟩
      rcases View.agrees_iff.mp (hother.2 htruthy' view' hview') with ⟨herr', hdigests', hsigner'⟩
      rcases hne with hne | hne | hne
      . exact hne (herr.trans herr'.symm)
      . exact hne (hdigests.trans hdigests'.symm)
      . exact hne (eq_of_eqLoaded_key hkey hkey' hsigner hsigner')

end

/-!
### An endpoint named twice
-/

theorem exists_repeating {α : Type} [DecidableEq α] {xs : List α} {n : Nat} (htwo : 2 ≤ n)
    (hlen : n ≤ xs.length) (hdup : ¬xs.Nodup)
    : ∃ ys : List α, ys.length = n ∧ ¬ys.Nodup ∧ n ≤ (xs.filter fun x => x ∈ ys).length := by
  rw [List.nodup_iff_sublist] at hdup
  push Not at hdup
  rcases hdup with ⟨x, hsub⟩
  rcases hsub.exists_perm_append with ⟨rest, hperm⟩
  refine ⟨([x, x] ++ rest).take n, ?_, ?_, ?_⟩
  . rw [List.length_take, ← hperm.length_eq]
    omega
  . obtain ⟨k, rfl⟩ := Nat.exists_eq_add_of_le' htwo
    simp
  . have hfilter := (hperm.filter fun y => y ∈ ([x, x] ++ rest).take n).length_eq
    rw [hfilter]
    have hself : (([x, x] ++ rest).take n).filter (fun y => y ∈ ([x, x] ++ rest).take n)
        = ([x, x] ++ rest).take n := List.filter_eq_self.mpr fun y hy => decide_eq_true hy
    have hle := ((List.take_sublist n ([x, x] ++ rest)).filter
      fun y => y ∈ ([x, x] ++ rest).take n).length_le
    rw [hself, List.length_take, ← hperm.length_eq] at hle
    omega

def exampleDigest : Str := List.replicate 64 0x30

/--
A transaction with one memo.
-/
def exampleTx : Json :=
  .obj [(txt "transaction", .obj [(txt "message", .obj [
      (txt "instructions", .arr [.obj [(txt "program", .str (txt "spl-memo")),
        (txt "parsed", .str (txt "sha3:" ++ exampleDigest))]]),
      (txt "accountKeys", .arr [.str (txt "key")])])]),
    (txt "meta", .obj [(txt "err", .null)])]

def exampleView : View := ⟨true, [exampleDigest].toFinset, .str (txt "key")⟩

/--
Some endpoints answer with the transaction, the others do not answer.
-/
def answersFrom (urls : List Str) (url : Str) (request : Request) : Option Json :=
  if url ∈ urls then
    match request with
    | .getGenesisHash => some (.str mainnetGenesis)
    | .getTransaction _ => some exampleTx
  else
    none

theorem fetchOne_answersFrom (urls : List Str) (url signature : Str)
    : fetchOne (answersFrom urls) url signature
        = if url ∈ urls then .reachable (.str mainnetGenesis) exampleTx else .unreachable := by
  rw [fetchOne, answersFrom, answersFrom]
  by_cases hurl : url ∈ urls
  . rw [if_pos hurl, if_pos hurl, if_pos hurl]
  . rw [if_neg hurl, if_neg hurl, if_neg hurl]

theorem reachable_answersFrom (urls rpcs : List Str) (signature : Str)
    : reachable (answersFrom urls) signature rpcs
        = List.replicate (rpcs.filter fun url => url ∈ urls).length
            (.str mainnetGenesis, exampleTx) := by
  induction rpcs with
  | nil => rfl
  | cons url rpcs ih =>
    rw [reachable, List.filterMap_cons, fetchOne_answersFrom, List.filter_cons]
    by_cases hurl : url ∈ urls
    . rw [if_pos hurl, if_pos (decide_eq_true hurl), List.length_cons, List.replicate_succ]
      exact congrArg _ ih
    . rw [if_neg hurl, if_neg (by simpa using hurl)]
      exact ih

theorem verifySolanaAnchor_answersFrom (urls rpcs : List Str) {n : Nat}
    (hn : (rpcs.filter fun url => url ∈ urls).length = n + 1) (minWitnesses : Int)
    (hcount : minWitnesses ≤ n + 1) (signature : Str)
    : ∃ v, verifySolanaAnchor Python.Unicode.ascii (answersFrom urls) signature (some exampleDigest) rpcs
        none minWitnesses = .ok v ∧ v.ok = true := by
  have hhex : isHex64 (Python.Unicode.ascii.lower (Python.stripBlanks ((some exampleDigest).getD [])))
      = true := by
    decide +kernel
  have hview : viewOf exampleTx = .ok exampleView := by decide +kernel
  have hself : exampleView.agrees exampleView = true := by decide +kernel
  have hdigest : Python.Unicode.ascii.lower (Python.stripBlanks ((some exampleDigest).getD []))
      ∈ exampleView.digests := by
    decide +kernel
  have hsame : ∀ m, List.Forall₂ (fun tx view => viewOf tx = .ok view) (List.replicate m exampleTx)
      (List.replicate m exampleView) := by
    intro m
    induction m with
    | zero => exact .nil
    | succ m ih => exact .cons hview ih
  have htxs : ((List.replicate (n + 1) (Json.str mainnetGenesis, exampleTx)).map Prod.snd).filter
      Python.truthy = exampleTx :: List.replicate n exampleTx := by
    rw [List.map_replicate, List.filter_replicate_of_pos (by decide), List.replicate_succ]
  rw [verifySolanaAnchor, reachable_answersFrom, hn]
  dsimp only
  rw [htxs, hhex, if_neg (by decide), if_neg (by simp)]
  dsimp only
  rw [hview, Except.ok_bind, Except.mapM_eq_ok.mpr (hsame n), Except.ok_bind]
  refine ⟨_, rfl, ?_⟩
  have herr : exampleView.errNone = true := rfl
  have hdigest' : decide (Python.Unicode.ascii.lower (Python.stripBlanks exampleDigest)
      ∈ exampleView.digests) = true := decide_eq_true hdigest
  simp [hself, herr, hdigest', hcount]

theorem mem_of_stands_answersFrom {urls : List Str} {signature exp url : Str}
    {expectedSigner : Option Str} (h : Stands (answersFrom urls) signature exp expectedSigner url)
    : url ∈ urls := by
  rcases h with ⟨tx, view, hfetch, _⟩
  rw [fetchOne_answersFrom] at hfetch
  by_contra hurl
  rw [if_neg hurl] at hfetch
  simp at hfetch

/--
Endpoints that repeat are fewer than they are counted.
-/
theorem length_lt_of_nodup_of_subset {α : Type} [DecidableEq α] {xs ys : List α} (hxs : xs.Nodup)
    (hys : ¬ys.Nodup) (hsub : ∀ x ∈ xs, x ∈ ys) : xs.length < ys.length := by
  have hle : xs.length ≤ ys.dedup.length :=
    (hxs.subperm fun x hx => List.mem_dedup.mpr (hsub x hx)).length_le
  refine lt_of_le_of_ne (hle.trans (List.dedup_sublist ys).length_le) fun heq => hys ?_
  have hsame : ys.dedup = ys :=
    (List.dedup_sublist ys).eq_of_length (Nat.le_antisymm (List.dedup_sublist ys).length_le
      (heq ▸ hle))
  exact List.dedup_eq_self.mp hsame

/--
A positive verdict that asks for a number of witnesses has that many different endpoints behind it,
whatever the endpoints answer, exactly when the list cannot reach the number by naming one of them
twice. An endpoint more that contradicts leaves no positive verdict.
-/
theorem verifySolanaAnchor_distinct {rpcs : List Str} {minWitnesses : Int}
    : ((∀ (u : Python.Unicode) (rpc : Str → Request → Option Json) (signature : Str)
            (expectedSha3Hex expectedSigner : Option Str) (v : Verdict),
          verifySolanaAnchor u rpc signature expectedSha3Hex rpcs expectedSigner minWitnesses = .ok v →
          v.ok = true →
            Distinct rpc signature (wanted u expectedSha3Hex) rpcs expectedSigner minWitnesses)
          ↔
        (minWitnesses ≤ 1 ∨ rpcs.Nodup ∨ (rpcs.length : Int) < minWitnesses)) ∧
      ∀ (u : Python.Unicode) (rpc : Str → Request → Option Json) (signature : Str)
          (expectedSha3Hex expectedSigner : Option Str) (pre post : List Str) (url : Str) (v : Verdict),
        rpcs = pre ++ post → Contradicts rpc signature rpcs url →
        verifySolanaAnchor u rpc signature expectedSha3Hex (pre ++ url :: post) expectedSigner
          minWitnesses = .ok v →
          v.ok = false := by
  refine ⟨⟨fun hall => ?_, fun hcond u rpc signature expected signer v h hok => ?_⟩, ?_⟩
  . by_contra hcond
    push Not at hcond
    rcases hcond with ⟨hmin, hdup, hlen⟩
    rcases Int.eq_ofNat_of_zero_le (by omega : 0 ≤ minWitnesses) with ⟨n, rfl⟩
    rcases exists_repeating (n := n) (by omega) (by omega) hdup with ⟨urls, hurls, hrepeat, hcount⟩
    have hcount : n ≤ (rpcs.filter fun url => url ∈ urls).length := by convert hcount
    obtain ⟨m, hm⟩ := Nat.exists_eq_add_of_le
      (show 1 ≤ (rpcs.filter fun url => url ∈ urls).length by omega)
    rcases verifySolanaAnchor_answersFrom urls rpcs (hm.trans (Nat.add_comm 1 m)) n (by omega)
      [] with ⟨v, hv, hok⟩
    rcases hall _ _ _ _ _ v hv hok with ⟨ws, hnodup, hmany, hstand⟩
    have hlt := length_lt_of_nodup_of_subset hnodup hrepeat fun url hurl =>
      mem_of_stands_answersFrom (hstand url hurl).2
    omega
  . rcases stands_of_ok h hok with ⟨hstand, hpos, hmany⟩
    by_cases hone : minWitnesses ≤ 1
    . rcases List.exists_mem_of_length_pos hpos with ⟨url, hurl⟩
      refine ⟨[url], List.nodup_singleton url, hone, fun url' hurl' => ?_⟩
      rw [List.mem_singleton.mp hurl']
      exact ⟨List.mem_of_mem_filter hurl, hstand url hurl⟩
    . have hmany := hmany (by omega)
      have hle := (List.filter_sublist (p := hasTx rpc signature) (l := rpcs)).length_le
      have hnodup : rpcs.Nodup := by
        rcases hcond with hcond | hcond | hcond
        . exact absurd hcond hone
        . exact hcond
        . omega
      exact ⟨_, hnodup.filter _, hmany, fun url hurl => ⟨List.mem_of_mem_filter hurl, hstand url hurl⟩⟩
  . rintro u rpc signature expected signer pre post url v rfl hcontra h
    exact not_ok_of_contradicts hcontra h

theorem verifySolanaAnchor_distinct_example
    : ∃ v, verifySolanaAnchor Python.Unicode.ascii (answersFrom [txt "a", txt "b"]) [] (some exampleDigest)
          [txt "a", txt "b"] none 2 = .ok v ∧ v.ok = true ∧
        Distinct (answersFrom [txt "a", txt "b"]) [] (wanted Python.Unicode.ascii (some exampleDigest))
          [txt "a", txt "b"] none 2 := by
  rcases verifySolanaAnchor_answersFrom [txt "a", txt "b"] [txt "a", txt "b"] (n := 1) (by decide) 2
    (by decide) [] with ⟨v, hv, hok⟩
  refine ⟨v, hv, hok, ?_⟩
  exact verifySolanaAnchor_distinct.1.mpr (Or.inr (Or.inl (by decide))) _ _ _ _ _ v hv hok

/--
One endpoint that is named twice is one witness, and counts as two.
-/
theorem verifySolanaAnchor_repeated
    : ∃ v, verifySolanaAnchor Python.Unicode.ascii (answersFrom [txt "a"]) [] (some exampleDigest)
          [txt "a", txt "a"] none 2 = .ok v ∧ v.ok = true ∧
        ¬Distinct (answersFrom [txt "a"]) [] (wanted Python.Unicode.ascii (some exampleDigest))
          [txt "a", txt "a"] none 2 := by
  rcases verifySolanaAnchor_answersFrom [txt "a"] [txt "a", txt "a"] (n := 1) (by decide) 2
    (by decide) [] with ⟨v, hv, hok⟩
  refine ⟨v, hv, hok, ?_⟩
  rintro ⟨urls, hnodup, hmany, hstand⟩
  have hrepeat : ¬[txt "a", txt "a"].Nodup := by decide
  have hlt := length_lt_of_nodup_of_subset hnodup hrepeat fun url hurl => (hstand url hurl).1
  simp only [List.length_cons, List.length_nil] at hlt
  omega

end Solana
end CryptoValid
