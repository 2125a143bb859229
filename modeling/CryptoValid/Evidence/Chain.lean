import CryptoValid.Lib.Except
import CryptoValid.Lib.PythonJson
import CryptoValid.Lib.Sha3

/-!
This module contains what `tx_evidence.py` and `dora_incident.py` have in common: the bytes of a
canonical value, its digest, and the chain of the canonical records.
-/

namespace CryptoValid
namespace Evidence

/--
What `json.dumps` and `encode` raise.
-/
inductive DumpError where
  | recursion
  | unicodeEncode
  deriving DecidableEq

structure Entry where
  canonical : Json
  prev : Str
  selfHash : Str

section

variable (interp : Python.Interp)

/--
`_canon_bytes`
-/
def canonBytes (v : Json) : Except DumpError Bytes :=
  if interp.encoderLimit < v.depth then
    .error .recursion
  else
    match Utf8.encode? (Json.dumps false v.sortKeys) with
    | none => .error .unicodeEncode
    | some bytes => .ok bytes

variable (sha3_256 : HashFn 32)

def digestOf (v : Json) : Except DumpError Str := do
  return Hex.ofBytes (sha3_256 (← canonBytes interp v))

/--
What the digest of an entry is computed from.
-/
def entryJson (canonical : Json) (prev : Str) : Json :=
  .obj [(txt "canonical", canonical), (txt "prev", .str prev)]

section

variable {α ε : Type} (canonical : α → Except ε Json) (raised : DumpError → ε)

/--
The loop of `build_chain`.
-/
def buildChainFrom (prev : Str) : List α → Except ε (List Entry)
  | [] => .ok []
  | x :: xs => do
    let c ← canonical x
    let selfHash ← (digestOf interp sha3_256 (entryJson c prev)).mapError raised
    return ⟨c, prev, selfHash⟩ :: (← buildChainFrom selfHash xs)

def buildChain (xs : List α) : Except ε (List Entry) :=
  buildChainFrom interp sha3_256 canonical raised (txt "GENESIS") xs

end

/--
The loop of `verify_chain`.
-/
def verifyChainFrom (prev : Str) : List Entry → Except DumpError Bool
  | [] => .ok true
  | e :: es => do
    let h ← digestOf interp sha3_256 (entryJson e.canonical prev)
    if h ≠ e.selfHash ∨ e.prev ≠ prev then
      return false
    else
      verifyChainFrom h es

def verifyChain (chain : List Entry) : Except DumpError Bool :=
  verifyChainFrom interp sha3_256 (txt "GENESIS") chain

/--
`chain[-1]["self_hash"] if chain else "EMPTY"`
-/
def headOf (chain : List Entry) : Str := (chain.getLast?.map Entry.selfHash).getD (txt "EMPTY")

/--
What `verify_attestation` answers.
-/
structure Verdict where
  chainOk : Bool
  headMatch : Bool
  digestMatch : Bool
  deriving DecidableEq

def Verdict.valid (v : Verdict) : Bool := v.chainOk && v.headMatch && v.digestMatch

/-!
### Canonical values
-/

variable {interp}

/--
The order of the keys is not in the bytes.
-/
theorem canonBytes_congr {v w : Json} (h : v.sortKeys = w.sortKeys)
    : canonBytes interp v = canonBytes interp w := by
  have hdepth : v.depth = w.depth := by rw [← Json.depth_sortKeys v, h, Json.depth_sortKeys]
  rw [canonBytes, canonBytes, h, hdepth]

theorem canonBytes_eq_ok {v : Json} {bytes : Bytes}
    : canonBytes interp v = .ok bytes ↔
        v.depth ≤ interp.encoderLimit ∧
          Utf8.encode? (Json.dumps false v.sortKeys) = some bytes := by
  unfold canonBytes
  split
  . next hdeep => simp [Nat.not_le.mpr hdeep]
  . next hdepth =>
    cases Utf8.encode? (Json.dumps false v.sortKeys) with
    | none => simp
    | some b => simp [Nat.not_lt.mp hdepth]

variable {sha3_256}

theorem digestOf_congr {v w : Json} (h : v.sortKeys = w.sortKeys)
    : digestOf interp sha3_256 v = digestOf interp sha3_256 w := by
  rw [digestOf, digestOf, canonBytes_congr h]

theorem sortKeys_entryJson {c c' : Json} (h : c.sortKeys = c'.sortKeys) (prev : Str)
    : (entryJson c prev).sortKeys = (entryJson c' prev).sortKeys := by
  rw [entryJson, entryJson, Json.sortKeys_obj, Json.sortKeys_obj, List.map_cons, List.map_cons]
  dsimp only
  rw [h]
  rfl

/-!
### Chains
-/

variable {α ε : Type} {canonical : α → Except ε Json} {raised : DumpError → ε}

/--
The digests of a chain depend on the canonical records alone.
-/
theorem buildChainFrom_congr {xs xs' : List α}
    (h : List.Forall₂ (fun x x' => (canonical x').map Json.sortKeys = (canonical x).map Json.sortKeys)
      xs xs') (prev : Str)
    : (buildChainFrom interp sha3_256 canonical raised prev xs').map (List.map Entry.selfHash)
        =
      (buildChainFrom interp sha3_256 canonical raised prev xs).map (List.map Entry.selfHash) := by
  induction h generalizing prev with
  | nil => rfl
  | cons hfirst htail ih =>
    next x x' xs xs' =>
    rw [buildChainFrom, buildChainFrom]
    rcases Except.map_eq_map hfirst with ⟨e, hc', hc⟩ | ⟨c', c, hc', hc, hsame⟩
    . rw [hc, hc']
      rfl
    . rw [hc, hc', Except.ok_bind, Except.ok_bind, digestOf_congr (sortKeys_entryJson hsame prev)]
      cases digestOf interp sha3_256 (entryJson c prev) with
      | error e => rfl
      | ok selfHash =>
        rw [Except.mapError, Except.ok_bind, Except.ok_bind]
        rcases Except.map_eq_map (ih selfHash) with
          ⟨e, hchain', hchain⟩ | ⟨chain', chain, hchain', hchain, hhashes⟩
        . rw [hchain, hchain']
          rfl
        . rw [hchain, hchain']
          exact congrArg (fun hashes => Except.ok (selfHash :: hashes)) hhashes

theorem headOf_eq (chain : List Entry)
    : headOf chain = ((chain.map Entry.selfHash).getLast?).getD (txt "EMPTY") := by
  rw [headOf, List.getLast?_map]

theorem headOf_buildChain {xs xs' : List α} {chain : List Entry}
    (h : List.Forall₂ (fun x x' => (canonical x').map Json.sortKeys = (canonical x).map Json.sortKeys)
      xs xs') (hchain : buildChain interp sha3_256 canonical raised xs = .ok chain)
    : ∃ chain', buildChain interp sha3_256 canonical raised xs' = .ok chain' ∧
        headOf chain' = headOf chain := by
  rcases Except.map_eq_map (buildChainFrom_congr h (txt "GENESIS")) with
    ⟨e, _, herror⟩ | ⟨chain', chain₁, hchain', hchain₁, hsame⟩
  . rw [buildChain, herror] at hchain
    simp at hchain
  . rw [buildChain, hchain₁, Except.ok.injEq] at hchain
    subst hchain
    refine ⟨chain', hchain', ?_⟩
    rw [headOf_eq, headOf_eq, hsame]

/--
A chain that has just been built is in order.
-/
theorem verifyChainFrom_buildChainFrom {xs : List α} {prev : Str} {chain : List Entry}
    (h : buildChainFrom interp sha3_256 canonical raised prev xs = .ok chain)
    : verifyChainFrom interp sha3_256 prev chain = .ok true := by
  induction xs generalizing prev chain with
  | nil =>
    rw [← Except.ok.inj h]
    rfl
  | cons x xs ih =>
    rcases Except.bind_eq_ok.mp h with ⟨c, _, h⟩
    rcases Except.bind_eq_ok.mp h with ⟨selfHash, hhash, h⟩
    rcases Except.bind_eq_ok.mp h with ⟨rest, hrest, h⟩
    rw [← Except.pure_eq_ok.mp h, verifyChainFrom, Except.mapError_eq_ok.mp hhash, Except.ok_bind,
      if_neg (by simp)]
    exact ih hrest

/--
Every record of a chain has a canonical form.
-/
theorem canonical_of_buildChainFrom {xs : List α} {prev : Str} {chain : List Entry}
    (h : buildChainFrom interp sha3_256 canonical raised prev xs = .ok chain)
    : ∀ x ∈ xs, ∃ c, canonical x = .ok c := by
  induction xs generalizing prev chain with
  | nil => simp
  | cons x xs ih =>
    rcases Except.bind_eq_ok.mp h with ⟨c, hc, h⟩
    rcases Except.bind_eq_ok.mp h with ⟨selfHash, _, h⟩
    rcases Except.bind_eq_ok.mp h with ⟨rest, hrest, _⟩
    rw [List.forall_mem_cons]
    exact ⟨⟨c, hc⟩, ih hrest⟩

end

end Evidence
end CryptoValid
