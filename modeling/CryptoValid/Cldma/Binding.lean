import CryptoValid.Cldma.Basic
import CryptoValid.Lib.Json.RoundTrip
import CryptoValid.Lib.Sha3

/-!
This module contains what an opening that is reported as good says about the committed records. The
path of an opening leads to one leaf of the committed tree, and record and salt of the opening are
those of that leaf. The index that the opening carries plays no part in this.
-/

namespace CryptoValid
namespace Cldma

open Levels
open Python (Interp PrintableNode printable)

/-!
### What is hashed
-/

/--
The texts that are hashed, where they can be made.
-/
def encCommit (rec : Json) (salt : Str) : Str := enc [txt "commit", salt, recordText rec]

def encLeaf (commit : Str) (num den : Int) : Str :=
  enc [txt "L", commit, Json.intText num, Json.intText den]

def encNode (left right : Str) (num den : Int) : Str :=
  enc [txt "N", left, right, Json.intText num, Json.intText den]

def encBind (treeRoot : Str) (n : Nat) (metricId asOf : Str) (numTotal denTotal : Int) : Str :=
  enc [txt "CLDMA", specVersion, metricId, asOf, Json.natText n, treeRoot, Json.intText numTotal,
    Json.intText denTotal]

/--
`json.dumps` writes the record.
-/
def Writable (interp : Interp) (rec : Json) : Prop :=
  rec.depth ≤ interp.encoderLimit ∧ rec.All (PrintableNode interp)

instance (interp : Interp) (rec : Json) : Decidable (Writable interp rec) :=
  inferInstanceAs (Decidable (_ ∧ _))

section

variable {interp : Interp} {text : Str}

theorem str_eq_ok {i : Int}
    : str interp i = .ok text ↔ printable interp i = true ∧ text = Json.intText i := by
  unfold str
  split
  . next h => simp [h, eq_comm]
  . next h => simp [h]

theorem canonicalRecord_eq_ok {rec : Json}
    : canonicalRecord interp rec = .ok text ↔ Writable interp rec ∧ text = recordText rec := by
  unfold canonicalRecord Writable
  split
  . next h => simp [Nat.not_le.mpr h]
  . next h =>
    split
    . next hall => simp [Nat.not_lt.mp h, hall, eq_comm]
    . next hall => simp [hall]

theorem commitText_eq_ok {rec : Json} {salt : Str}
    : commitText interp rec salt = .ok text ↔ Writable interp rec ∧ text = encCommit rec salt := by
  simp only [commitText, Except.bind_eq_ok, canonicalRecord_eq_ok, Except.pure_eq_ok]
  constructor
  . rintro ⟨_, ⟨hrec, rfl⟩, rfl⟩
    exact ⟨hrec, rfl⟩
  . rintro ⟨hrec, rfl⟩
    exact ⟨_, ⟨hrec, rfl⟩, rfl⟩

/--
A text that ends in two printed numbers.
-/
theorem strs_eq_ok {num den : Int} {f : Str → Str → Str}
    : (do return f (← str interp num) (← str interp den)) = Except.ok (ε := Error) text ↔
        printable interp num = true ∧ printable interp den = true ∧
          text = f (Json.intText num) (Json.intText den) := by
  simp only [Except.bind_eq_ok, str_eq_ok, Except.pure_eq_ok]
  constructor
  . rintro ⟨_, ⟨hnum, rfl⟩, _, ⟨hden, rfl⟩, rfl⟩
    exact ⟨hnum, hden, rfl⟩
  . rintro ⟨hnum, hden, rfl⟩
    exact ⟨_, ⟨hnum, rfl⟩, _, ⟨hden, rfl⟩, rfl⟩

theorem leafText_eq_ok {commit : Str} {num den : Int}
    : leafText interp commit num den = .ok text ↔
        printable interp num = true ∧ printable interp den = true ∧ text = encLeaf commit num den :=
  strs_eq_ok

theorem nodeText_eq_ok {left right : Str} {num den : Int}
    : nodeText interp left right num den = .ok text ↔
        printable interp num = true ∧ printable interp den = true ∧
          text = encNode left right num den :=
  strs_eq_ok

theorem bindText_eq_ok {treeRoot : Str} {n : Nat} {metricId asOf : Str} {num den : Int}
    : bindText interp treeRoot n metricId asOf num den = .ok text ↔
        printable interp num = true ∧ printable interp den = true ∧
          text = encBind treeRoot n metricId asOf num den :=
  strs_eq_ok

end

def encodeAll (s : Str) : Bytes := s.flatMap Utf8.encodePoint

theorem encodeAll_inj {s t : Str} (h : encodeAll s = encodeAll t) : s = t :=
  Utf8.flatMap_encodePoint_inj h

theorem enc_inj {ps qs : List Str} (h : enc ps = enc qs) : ps = qs := by
  have hfloat : ∀ ps : List Str, Json.All Json.NotFloat (.arr (ps.map .str)) := by
    intro ps
    rw [Json.all_arr]
    refine ⟨trivial, ?_⟩
    intro x hx
    rcases List.mem_map.mp hx with ⟨p, _, rfl⟩
    trivial
  have heq := Json.dumps_inj false (hfloat ps) (hfloat qs) (by simp) (by simp) h
  simp only [Json.arr.injEq] at heq
  exact List.map_injective_iff.mpr (fun a b hab => by simpa using hab) heq

theorem natText_inj {m n : Nat} (h : Json.natText m = Json.natText n) : m = n := by
  rw [← Json.natOfText_natText m, h, Json.natOfText_natText]

/--
What a leaf of the tree commits to.
-/
structure LeafData where
  commit : Str
  num : Int
  den : Int
  deriving DecidableEq

def total : HashTree LeafData → Int × Int
  | .leaf a => (a.num, a.den)
  | .node l r => ((total l).1 + (total r).1, (total l).2 + (total r).2)

/--
The sum tree as a scheme: the sums are the annotation of a node. The encoding of the fields makes
every digest a valid one.
-/
def scheme (sha3_256 : HashFn 32) : HashTree.Scheme LeafData (Int × Int) Bytes Str where
  hash raw := Hex.ofBytes (sha3_256 raw)
  leafMsg a := encodeAll (encLeaf a.commit a.num a.den)
  note l r := total (.node l r)
  nodeMsg sums l r := encodeAll (encNode l r sums.1 sums.2)
  valid _ := True
  valid_hash _ := trivial
  leafMsg_inj {a b} h := by
    have heq := enc_inj (encodeAll_inj h)
    simp only [List.cons.injEq, and_true, true_and] at heq
    cases a
    cases b
    simp only [LeafData.mk.injEq]
    exact ⟨heq.1, Json.intText_inj heq.2.1, Json.intText_inj heq.2.2⟩
  leafMsg_ne_nodeMsg a x d e h := by
    have heq := congrArg List.length (enc_inj (encodeAll_inj h))
    simp at heq
  nodeMsg_inj {x y a b c d} _ _ _ h := by
    have heq := enc_inj (encodeAll_inj h)
    simp only [List.cons.injEq, and_true, true_and] at heq
    exact ⟨heq.1, heq.2.1⟩

section

variable {interp : Interp} {sha3_256 : HashFn 32}

theorem h_eq_ok {s d : Str} (hd : h sha3_256 s = .ok d)
    : d = (scheme sha3_256).hash (encodeAll s) := by
  unfold h at hd
  split at hd
  . next raw hraw =>
    rw [← Except.ok.inj hd, Utf8.encode?_eq_some hraw]
    rfl
  . simp at hd

theorem encBind_inj {t t' : Str} {n : Nat} {metricId asOf : Str} {num den : Int}
    (heq : encBind t n metricId asOf num den = encBind t' n metricId asOf num den) : t = t' := by
  have heq := enc_inj heq
  simp only [List.cons.injEq] at heq
  exact heq.2.2.2.2.2.1

theorem encCommit_inj {rec rec' : Json} {salt salt' : Str}
    (heq : encCommit rec salt = encCommit rec' salt')
    : salt = salt' ∧ recordText rec = recordText rec' := by
  have heq := enc_inj heq
  simp only [List.cons.injEq, true_and, and_true] at heq
  exact heq

theorem leafSaltText_inj {masterSalt : Str} {i j : Nat}
    (heq : leafSaltText masterSalt i = leafSaltText masterSalt j) : i = j := by
  simp only [leafSaltText, List.append_assoc, List.append_cancel_left_eq] at heq
  exact natText_inj heq

/-!
### The tree of a commitment
-/

/--
The two fields of a tree's root node.
-/
def nodeOf (sha3_256 : HashFn 32) (t : HashTree LeafData) : Node where
  hash := (scheme sha3_256).digest t
  num := (total t).1
  den := (total t).2

def combined (sha3_256 : HashFn 32) (l r : Node) : Node where
  hash := (scheme sha3_256).hash (encodeAll (encNode l.hash r.hash (l.num + r.num) (l.den + r.den)))
  num := l.num + r.num
  den := l.den + r.den

theorem nodeOf_node (l r : HashTree LeafData)
    : nodeOf sha3_256 (.node l r) = combined sha3_256 (nodeOf sha3_256 l) (nodeOf sha3_256 r) := rfl

theorem combine_eq_ok {l r node : Node} (hnode : combine interp sha3_256 l r = .ok node)
    : node = combined sha3_256 l r := by
  rcases Except.bind_eq_ok.mp hnode with ⟨text, htext, hnode⟩
  rcases Except.bind_eq_ok.mp hnode with ⟨hash, hhash, hnode⟩
  rw [← Except.pure_eq_ok.mp hnode, h_eq_ok hhash, (nodeText_eq_ok.mp htext).2.2]
  rfl

theorem nextLevel_eq_ok {cur nxt : List Node} (hnxt : nextLevel interp sha3_256 cur = .ok nxt)
    : nxt = pairUp (combined sha3_256) cur := by
  fun_induction nextLevel interp sha3_256 cur generalizing nxt with
  | case1 l r rest ih =>
    rcases Except.bind_eq_ok.mp hnxt with ⟨node, hnode, hnxt⟩
    rcases Except.bind_eq_ok.mp hnxt with ⟨nodes, hnodes, hnxt⟩
    rw [← Except.pure_eq_ok.mp hnxt, combine_eq_ok hnode, ih hnodes]
    rfl
  | case2 rest hrest =>
    rw [← Except.ok.inj hnxt]
    rcases rest with _ | ⟨l, _ | ⟨r, rest⟩⟩
    . rfl
    . rfl
    . exact absurd rfl (hrest l r rest)

theorem levels_go_eq_ok {cur : List Node} {lvls : List (List Node)} (hne : cur ≠ [])
    (hlvls : levels.go interp sha3_256 cur = .ok lvls)
    : ∃ root, lvls.getLast? = some [root] ∧ top? (combined sha3_256) cur = some root := by
  fun_induction levels.go interp sha3_256 cur generalizing lvls with
  | case1 cur hlen e he => simp at hlvls
  | case2 cur hlen nxt hnxt ih =>
    rcases Except.map_eq_ok.mp hlvls with ⟨above, habove, rfl⟩
    have hne' : nxt ≠ [] := by
      rintro rfl
      have := nextLevel_length interp sha3_256 hnxt
      simp at this
      omega
    rcases ih hne' habove with ⟨root, hlast, htop⟩
    rw [nextLevel_eq_ok hnxt, top?_pairUp] at htop
    exact ⟨root, by simp [List.getLast?_cons, hlast], htop⟩
  | case3 cur hlen =>
    rw [← Except.ok.inj hlvls]
    match cur, hne with
    | [x], _ => exact ⟨x, by simp⟩
    | _ :: _ :: _, _ => simp at hlen

def Leaf.data (leaf : Leaf) : LeafData where
  commit := leaf.commit
  num := leaf.num
  den := leaf.den

/--
What `build_leaves` makes of the record at one position.
-/
structure LeafOf (sha3_256 : HashFn 32) (masterSalt : Str) (i : Nat) (rec : Json)
    (leaf : Leaf) where
  salt : Str
  salt_eq : leafSalt sha3_256 masterSalt i = .ok salt
  commit_eq : leaf.commit = (scheme sha3_256).hash (encodeAll (encCommit rec salt))
  hash_eq : leaf.hash = (scheme sha3_256).digest (.leaf leaf.data)

theorem LeafOf.toNode_eq {masterSalt : Str} {i : Nat} {rec : Json} {leaf : Leaf}
    (of : LeafOf sha3_256 masterSalt i rec leaf)
    : leaf.toNode = nodeOf sha3_256 (.leaf leaf.data) := by
  show (⟨leaf.hash, leaf.num, leaf.den⟩ : Node) = _
  rw [of.hash_eq]
  rfl

theorem leafNode_eq_ok {rec : Json} {salt : Str} {num den : Int} {leaf : Leaf}
    (hleaf : leafNode interp sha3_256 rec salt num den = .ok leaf)
    : leaf.num = num ∧ leaf.den = den ∧
        leaf.commit = (scheme sha3_256).hash (encodeAll (encCommit rec salt)) ∧
        leaf.hash = (scheme sha3_256).digest (.leaf leaf.data) := by
  rcases Except.bind_eq_ok.mp hleaf with ⟨commitText, hcommitText, hleaf⟩
  rcases Except.bind_eq_ok.mp hleaf with ⟨commit, hcommit, hleaf⟩
  rcases Except.bind_eq_ok.mp hleaf with ⟨text, htext, hleaf⟩
  rcases Except.bind_eq_ok.mp hleaf with ⟨hash, hhash, hleaf⟩
  rw [← Except.pure_eq_ok.mp hleaf]
  refine ⟨rfl, rfl, ?_, ?_⟩
  . rw [h_eq_ok hcommit, (commitText_eq_ok.mp hcommitText).2]
  . rw [h_eq_ok hhash, (leafText_eq_ok.mp htext).2.2]
    rfl

/--
How `build_leaves` comes to the leaf of the record at position `i`.
-/
structure Built (interp : Interp) (sha3_256 : HashFn 32) (masterSalt : Str) (spec : MetricSpec)
    (i : Nat)
    (rec : Json) (leaf : Leaf) : Prop where
  numOf_eq : spec.numOf rec = .ok leaf.num
  denOf_eq : spec.denOf rec = .ok leaf.den
  nonNegative : 0 ≤ leaf.num ∧ 0 ≤ leaf.den
  leafNode_eq : ∃ salt, leafSalt sha3_256 masterSalt i = .ok salt ∧
    leafNode interp sha3_256 rec salt leaf.num leaf.den = .ok leaf

theorem buildLeaves_go_built {masterSalt : Str} {spec : MetricSpec} {i : Nat} {records : List Json}
    {leaves : List Leaf}
    (hleaves : buildLeaves.go interp sha3_256 masterSalt spec i records = .ok leaves)
    : leaves.length = records.length ∧
        ∀ k leaf, leaves[k]? = some leaf →
          ∃ rec, records[k]? = some rec ∧
            Built interp sha3_256 masterSalt spec (i + k) rec leaf := by
  induction records generalizing i leaves with
  | nil =>
    rw [← Except.ok.inj hleaves]
    simp
  | cons rec records ih =>
    rcases Except.bind_eq_ok.mp hleaves with ⟨num, hnum, hleaves⟩
    rcases Except.bind_eq_ok.mp hleaves with ⟨den, hden, hleaves⟩
    split at hleaves
    . rcases Except.bind_eq_ok.mp hleaves with ⟨_, hthrow, _⟩
      simp [throw, throwThe, MonadExceptOf.throw] at hthrow
    . next hneg =>
      rcases Except.bind_eq_ok.mp hleaves with ⟨salt, hsalt, hleaves⟩
      rcases Except.bind_eq_ok.mp hleaves with ⟨leaf, hleaf, hleaves⟩
      rcases Except.bind_eq_ok.mp hleaves with ⟨rest, hrest, hleaves⟩
      rw [← Except.pure_eq_ok.mp hleaves]
      rcases ih hrest with ⟨hlen, hall⟩
      rcases leafNode_eq_ok hleaf with ⟨rfl, rfl, _, _⟩
      refine ⟨by simp [hlen], ?_⟩
      intro k leaf' hk
      cases k with
      | zero =>
        simp only [List.getElem?_cons_zero, Option.some.injEq] at hk
        subst hk
        exact ⟨rec, rfl, hnum, hden, by omega, salt, hsalt, hleaf⟩
      | succ k =>
        rw [List.getElem?_cons_succ] at hk
        rcases hall k leaf' hk with ⟨rec', hrec', hbuilt⟩
        refine ⟨rec', hrec', ?_⟩
        rw [show i + (k + 1) = i + 1 + k by omega]
        exact hbuilt

theorem Built.leafOf {masterSalt : Str} {spec : MetricSpec} {i : Nat} {rec : Json} {leaf : Leaf}
    (hbuilt : Built interp sha3_256 masterSalt spec i rec leaf)
    : Nonempty (LeafOf sha3_256 masterSalt i rec leaf) := by
  rcases hbuilt.leafNode_eq with ⟨salt, hsalt, hleaf⟩
  rcases leafNode_eq_ok hleaf with ⟨_, _, hcommit, hhash⟩
  exact ⟨salt, hsalt, hcommit, hhash⟩

theorem buildLeaves_go_eq_ok {masterSalt : Str} {spec : MetricSpec} {i : Nat}
    {records : List Json} {leaves : List Leaf}
    (hleaves : buildLeaves.go interp sha3_256 masterSalt spec i records = .ok leaves)
    : leaves.length = records.length ∧
        ∀ k leaf, leaves[k]? = some leaf →
          ∃ rec, records[k]? = some rec ∧
            Nonempty (LeafOf sha3_256 masterSalt (i + k) rec leaf) := by
  rcases buildLeaves_go_built hleaves with ⟨hlen, hall⟩
  refine ⟨hlen, fun k leaf hk => ?_⟩
  rcases hall k leaf hk with ⟨rec, hrec, hbuilt⟩
  exact ⟨rec, hrec, hbuilt.leafOf⟩

/--
A commitment: its leaves, and the tree over them that the published root binds.
-/
structure Committed (interp : Interp) (sha3_256 : HashFn 32) (records : List Json)
    (masterSalt : Str) (spec : MetricSpec) (c : Commitment) where
  leaves : List Leaf
  tree : HashTree LeafData
  leaves_eq : buildLeaves interp sha3_256 records masterSalt spec = .ok leaves
  tree_eq : top? .node ((leaves.map Leaf.data).map .leaf) = some tree
  rootHash_eq : c.rootHash = (scheme sha3_256).hash (encodeAll (encBind
    ((scheme sha3_256).digest tree) c.n c.metricId c.asOf c.numTotal c.denTotal))

theorem committed_of_commitLedger {records : List Json} {masterSalt : Str} {spec : MetricSpec}
    {asOf : Str} {c : Commitment}
    (hc : commitLedger interp sha3_256 records masterSalt spec asOf = .ok c)
    : Nonempty (Committed interp sha3_256 records masterSalt spec c) := by
  rcases Except.bind_eq_ok.mp hc with ⟨leaves, hleaves, hc⟩
  rcases Except.bind_eq_ok.mp hc with ⟨lvls, hlvls, hc⟩
  rcases Except.bind_eq_ok.mp hc with ⟨rootHash, hroot, hc⟩
  have hc := Except.pure_eq_ok.mp hc
  have hne : leaves.map Leaf.toNode ≠ [] := by
    intro hnil
    rw [levels, hnil] at hlvls
    simp at hlvls
  have hgo : levels.go interp sha3_256 (leaves.map Leaf.toNode) = .ok lvls := by
    rw [levels] at hlvls
    rwa [if_neg (by simpa [List.isEmpty_iff] using hne)] at hlvls
  rcases levels_go_eq_ok hne hgo with ⟨root, hlast, htop⟩
  -- the nodes of the lowest level are those of the leaves as trees
  have hnodes : leaves.map Leaf.toNode
      = ((leaves.map Leaf.data).map .leaf).map (nodeOf sha3_256) := by
    rw [List.map_map, List.map_map]
    apply List.map_congr_left
    intro leaf hleaf
    rcases List.mem_iff_getElem?.mp hleaf with ⟨k, hk⟩
    rcases (buildLeaves_go_eq_ok hleaves).2 k leaf hk with ⟨_, _, ⟨of⟩⟩
    exact of.toNode_eq
  rw [hnodes, ← map_top? .node (nodeOf sha3_256) (combined sha3_256) nodeOf_node,
    Option.map_eq_some_iff] at htop
  rcases htop with ⟨t, ht, rfl⟩
  have hlastD : lvls.getLastD [] = [nodeOf sha3_256 t] := by
    rw [List.getLastD_eq_getLast?, hlast]
    rfl
  rw [hlastD] at hc hroot
  rcases Except.bind_eq_ok.mp hroot with ⟨text, htext, hroot⟩
  refine ⟨leaves, t, hleaves, ht, ?_⟩
  rw [← hc, h_eq_ok hroot, (bindText_eq_ok.mp htext).2.2]
  rfl

/-!
### Openings
-/

/--
Which child the climber is: a sibling on the right makes it the left one.
-/
def PathStep.childSide (step : PathStep) : Side :=
  if step.side = txt "right" then .left else .right

/--
The sides of an opening, from the root down to the leaf.
-/
def sidesOf (path : List PathStep) : List Side := (path.map PathStep.childSide).reverse

def stepsOf (num den : Int) : List PathStep → List (HashTree.Step (Int × Int) Str)
  | [] => []
  | step :: path =>
    ⟨step.childSide, (num + step.num, den + step.den), step.hash⟩ ::
      stepsOf (num + step.num) (den + step.den) path

theorem rootPath_stepsOf (num den : Int) (path : List PathStep)
    : HashTree.rootPath (stepsOf num den path) = sidesOf path := by
  induction path generalizing num den with
  | nil => rfl
  | cons step path ih => simp [stepsOf, ih, sidesOf]

theorem climb_eq_ok {cur top : Node} {path : List PathStep}
    (htop : climb interp sha3_256 cur path = .ok top)
    : top.hash = (scheme sha3_256).climb cur.hash (stepsOf cur.num cur.den path) := by
  induction path generalizing cur with
  | nil =>
    rw [← Except.ok.inj htop]
    rfl
  | cons step path ih =>
    rcases Except.bind_eq_ok.mp htop with ⟨next, hnext, htop⟩
    rw [ih htop]
    unfold stepUp at hnext
    split at hnext
    . next hside =>
      rcases Except.bind_eq_ok.mp hnext with ⟨text, htext, hnext⟩
      rcases Except.bind_eq_ok.mp hnext with ⟨hash, hhash, hnext⟩
      rw [← Except.pure_eq_ok.mp hnext, h_eq_ok hhash, (nodeText_eq_ok.mp htext).2.2]
      simp [stepsOf, HashTree.Scheme.climb, HashTree.Scheme.stepMsg, PathStep.childSide, hside,
        scheme]
    . next hside =>
      rcases Except.bind_eq_ok.mp hnext with ⟨text, htext, hnext⟩
      rcases Except.bind_eq_ok.mp hnext with ⟨hash, hhash, hnext⟩
      rw [← Except.pure_eq_ok.mp hnext, h_eq_ok hhash, (nodeText_eq_ok.mp htext).2.2]
      simp [stepsOf, HashTree.Scheme.climb, HashTree.Scheme.stepMsg, PathStep.childSide, hside,
        scheme, Int.add_comm]

section

variable (interp : Interp) (sha3_256 : HashFn 32)

/--
Every message that `commit_ledger` hashes.
-/
def commitQueries (records : List Json) (masterSalt : Str) (spec : MetricSpec) (c : Commitment)
    : List Bytes :=
  let S := scheme sha3_256
  match buildLeaves interp sha3_256 records masterSalt spec with
  | .error _ => []
  | .ok leaves =>
    match top? .node ((leaves.map Leaf.data).map .leaf) with
    | none => []
    | some t =>
      (List.range records.length).map (fun i => encodeAll (leafSaltText masterSalt i)) ++
      records.zipIdx.map (fun (rec, i) =>
        encodeAll (encCommit rec (S.hash (encodeAll (leafSaltText masterSalt i))))) ++
      S.msgs t ++
      [encodeAll (encBind (S.digest t) c.n c.metricId c.asOf c.numTotal c.denTotal)]

/--
Every message that `verify_open` hashes for one opening.
-/
def openQueries (c : Commitment) (o : Opening) : List Bytes :=
  let S := scheme sha3_256
  let commit := S.hash (encodeAll (encCommit o.record o.salt))
  let leaf := HashTree.leaf ⟨commit, o.num, o.den⟩
  let steps := stepsOf o.num o.den o.path
  encodeAll (encCommit o.record o.salt) ::
    (S.leafMsg ⟨commit, o.num, o.den⟩ :: S.climbMsgs (S.digest leaf) steps ++
    [encodeAll (encBind (S.climb (S.digest leaf) steps) c.n c.metricId c.asOf c.numTotal
      c.denTotal)])

/--
What a challenge at index `i` asks for: the record at this position, with its salt.
-/
def OpensAt (records : List Json) (masterSalt : Str) (i : Int) (o : Opening) : Prop :=
  ∃ k : Nat, (k : Int) = i ∧ ∃ rec, records[k]? = some rec ∧
    recordText o.record = recordText rec ∧
    leafSalt sha3_256 masterSalt k = .ok o.salt

end

theorem collides_of_scheme {msgs : List Bytes} (hcol : Collides (scheme sha3_256).hash msgs)
    : Collides sha3_256 msgs := by
  rcases hcol with ⟨a, ha, b, hb, hne, heq⟩
  exact ⟨a, ha, b, hb, hne, Hex.ofBytes_inj heq⟩

theorem encBind_mem_openQueries (sha3_256 : HashFn 32) (c : Commitment) (o : Opening)
    : encodeAll (encBind ((scheme sha3_256).climb
        ((scheme sha3_256).digest (.leaf ⟨(scheme sha3_256).hash (encodeAll
          (encCommit o.record o.salt)), o.num, o.den⟩)) (stepsOf o.num o.den o.path))
        c.n c.metricId c.asOf c.numTotal c.denTotal) ∈ openQueries sha3_256 c o := by
  simp [openQueries]

section

variable {records : List Json} {masterSalt : Str} {spec : MetricSpec} {c : Commitment}
  {leaves : List Leaf} {t : HashTree LeafData}
  (hleaves : buildLeaves interp sha3_256 records masterSalt spec = .ok leaves)
  (ht : top? .node ((leaves.map Leaf.data).map .leaf) = some t)

include hleaves ht

theorem encBind_mem_commitQueries
    : encodeAll (encBind ((scheme sha3_256).digest t) c.n c.metricId c.asOf c.numTotal
        c.denTotal) ∈ commitQueries interp sha3_256 records masterSalt spec c := by
  simp only [commitQueries, hleaves, ht]
  simp

theorem msgs_subset_commitQueries
    : (scheme sha3_256).msgs t ⊆ commitQueries interp sha3_256 records masterSalt spec c := by
  intro m hm
  simp only [commitQueries, hleaves, ht, List.mem_append]
  exact Or.inl (Or.inr hm)

theorem leafSaltText_mem_commitQueries {i : Nat} (hi : i < records.length)
    : encodeAll (leafSaltText masterSalt i)
        ∈ commitQueries interp sha3_256 records masterSalt spec c := by
  simp only [commitQueries, hleaves, ht, List.mem_append, List.mem_map, List.mem_range]
  exact Or.inl (Or.inl (Or.inl ⟨i, hi, rfl⟩))

theorem encCommit_mem_commitQueries {i : Nat} {rec : Json} {salt : Str}
    (hrec : records[i]? = some rec) (hsalt : leafSalt sha3_256 masterSalt i = .ok salt)
    : encodeAll (encCommit rec salt) ∈ commitQueries interp sha3_256 records masterSalt spec c := by
  simp only [commitQueries, hleaves, ht, List.mem_append, List.mem_map]
  refine Or.inl (Or.inl (Or.inr ⟨(rec, i), ?_, ?_⟩))
  . rwa [List.mem_zipIdx_iff_getElem?]
  . rw [h_eq_ok hsalt]

end

/--
What a good report says about the opening: it hashes up to the committed root.
-/
theorem climb_of_verifyOpening {c : Commitment} {spec : MetricSpec} {o : Opening}
    {report : OpenReport} (hreport : verifyOpening interp sha3_256 c spec o = .ok report)
    (hok : report.ok = true)
    : report.index = o.index ∧
        (scheme sha3_256).hash (encodeAll (encBind ((scheme sha3_256).climb
          ((scheme sha3_256).digest (.leaf ⟨(scheme sha3_256).hash (encodeAll
            (encCommit o.record o.salt)), o.num, o.den⟩)) (stepsOf o.num o.den o.path))
          c.n c.metricId c.asOf c.numTotal c.denTotal)) = c.rootHash := by
  rcases Except.bind_eq_ok.mp hreport with ⟨num, _, hreport⟩
  rcases Except.bind_eq_ok.mp hreport with ⟨den, _, hreport⟩
  rcases Except.bind_eq_ok.mp hreport with ⟨leaf, hleaf, hreport⟩
  rcases Except.bind_eq_ok.mp hreport with ⟨top, htop, hreport⟩
  rcases Except.bind_eq_ok.mp hreport with ⟨bound, hbound, hreport⟩
  rw [← Except.pure_eq_ok.mp hreport] at hok ⊢
  simp only [Bool.and_eq_true, beq_iff_eq] at hok
  rcases leafNode_eq_ok hleaf with ⟨hnum, hden, hcommit, hhash⟩
  refine ⟨rfl, ?_⟩
  rcases Except.bind_eq_ok.mp hbound with ⟨text, htext, hbound⟩
  rw [← hok.1.1.2, h_eq_ok hbound, (bindText_eq_ok.mp htext).2.2,
    climb_eq_ok htop, hhash, Leaf.data, hcommit, hnum, hden]

/--
A good opening opens the record at the position that the sides of its path lead to, or it comes with
a collision.
-/
theorem opensAt_position {records : List Json} {masterSalt : Str} {spec : MetricSpec} {asOf : Str}
    {c : Commitment} (hc : commitLedger interp sha3_256 records masterSalt spec asOf = .ok c)
    {o : Opening} {report : OpenReport}
    (hreport : verifyOpening interp sha3_256 c spec o = .ok report)
    (hok : report.ok = true)
    : (∃ q : Nat, HashTree.position records.length (sidesOf o.path) = some q ∧
          OpensAt sha3_256 records masterSalt q o) ∨
        Collides sha3_256
          (commitQueries interp sha3_256 records masterSalt spec c ++
            openQueries sha3_256 c o) := by
  rcases committed_of_commitLedger hc with ⟨⟨leaves, t, hleaves, ht, hroot⟩⟩
  rcases climb_of_verifyOpening hreport hok with ⟨_, hclimb⟩
  rcases buildLeaves_go_eq_ok hleaves with ⟨hlen, hall⟩
  have hqueries : ∀ m, m ∈ commitQueries interp sha3_256 records masterSalt spec c →
      m ∈ commitQueries interp sha3_256 records masterSalt spec c ++ openQueries sha3_256 c o :=
    fun m hm => List.mem_append_left _ hm
  have hbind := Collides.eq_or (f := (scheme sha3_256).hash)
    (List.mem_append_right (commitQueries interp sha3_256 records masterSalt spec c)
      (encBind_mem_openQueries sha3_256 c o))
    (hqueries _ (encBind_mem_commitQueries hleaves ht)) (hclimb.trans hroot)
  rcases hbind with hbind | hcol
  . have hclimb := encBind_inj (encodeAll_inj hbind)
    rcases HashTree.Scheme.climb_leaf_sound (scheme sha3_256) t _ _ hclimb with hat | hcol
    . rw [rootPath_stepsOf] at hat
      rcases HashTree.position_of_at?_leaf ht hat with ⟨q, hpos, hq⟩
      rw [List.length_map, hlen] at hpos
      rw [List.getElem?_map, Option.map_eq_some_iff] at hq
      rcases hq with ⟨leaf, hleaf, hdata⟩
      rcases hall q leaf hleaf with ⟨rec, hrec, ⟨of⟩⟩
      rw [Nat.zero_add] at of
      have hcommit : (scheme sha3_256).hash (encodeAll (encCommit o.record o.salt))
          = (scheme sha3_256).hash (encodeAll (encCommit rec of.salt)) := by
        rw [← of.commit_eq]
        exact (congrArg LeafData.commit hdata).symm
      rcases Collides.eq_or (List.mem_append_right _ (by simp [openQueries]))
        (hqueries _ (encCommit_mem_commitQueries hleaves ht hrec of.salt_eq)) hcommit
        with htext | hcol
      . rcases encCommit_inj (encodeAll_inj htext) with ⟨hsalt, hcanonical⟩
        exact Or.inl ⟨q, hpos, q, rfl, rec, hrec, hcanonical, hsalt ▸ of.salt_eq⟩
      . exact Or.inr (collides_of_scheme hcol)
    . refine Or.inr (collides_of_scheme (hcol.mono ?_))
      intro m hm
      rw [List.mem_append] at hm ⊢
      rcases hm with hm | hm
      . exact Or.inr (by simp only [openQueries, List.mem_cons, List.mem_append] at hm ⊢; tauto)
      . exact Or.inl (msgs_subset_commitQueries hleaves ht hm)
  . exact Or.inr (collides_of_scheme hcol)

theorem verifyOpening_of_verifyOpen {c : Commitment} {spec : MetricSpec} {o : Opening}
    {result : OpenResult} {report : OpenReport}
    (hresult : verifyOpen interp sha3_256 c spec [o] = .ok result)
    (hreport : report ∈ result.leaves)
    : verifyOpening interp sha3_256 c spec o = .ok report := by
  simp only [verifyOpen, List.isEmpty_cons, Bool.false_eq_true, ↓reduceIte, List.mapM_cons,
    List.mapM_nil] at hresult
  rcases Except.bind_eq_ok.mp hresult with ⟨leaves, hleaves, hresult⟩
  rcases Except.bind_eq_ok.mp hleaves with ⟨report', hreport', hleaves⟩
  rw [← Except.pure_eq_ok.mp hresult, ← Except.pure_eq_ok.mp hleaves, List.mem_singleton] at hreport
  rw [hreport, hreport']

/--
A good report is about the record at its index exactly if this is where the sides of the path lead
to: nothing else ties the index of an opening to its leaf.
-/
theorem verifyOpen_opensAt_iff (records : List Json) (masterSalt : Str) (spec : MetricSpec)
    (asOf : Str) (c : Commitment)
    (hc : commitLedger interp sha3_256 records masterSalt spec asOf = .ok c) (o : Opening)
    (result : OpenResult) (hresult : verifyOpen interp sha3_256 c spec [o] = .ok result)
    (report : OpenReport) (hreport : report ∈ result.leaves) (hok : report.ok = true)
    : (OpensAt sha3_256 records masterSalt report.index o ↔
          ∃ q : Nat, HashTree.position records.length (sidesOf o.path) = some q ∧
            report.index = q) ∨
        Collides sha3_256
          (commitQueries interp sha3_256 records masterSalt spec c ++
            openQueries sha3_256 c o) := by
  have hopening := verifyOpening_of_verifyOpen hresult hreport
  rcases opensAt_position hc hopening hok with ⟨q, hpos, hopens⟩ | hcol
  . by_cases hindex : report.index = q
    . refine Or.inl ⟨fun _ => ⟨q, hpos, hindex⟩, fun _ => ?_⟩
      rw [hindex]
      exact hopens
    . by_cases hother : OpensAt sha3_256 records masterSalt report.index o
      . -- one salt for two positions
        rcases committed_of_commitLedger hc with ⟨⟨leaves, t, hleaves, ht, _⟩⟩
        rcases hother with ⟨k, hk, rec, hrec, _, hsalt⟩
        rcases hopens with ⟨q', hq', rec', hrec', _, hsalt'⟩
        have hq' : q' = q := by exact_mod_cast hq'
        subst hq'
        have hne : k ≠ q' := by
          rintro rfl
          exact hindex hk.symm
        have hlt := (List.getElem?_eq_some_iff.mp hrec).1
        have hlt' := (List.getElem?_eq_some_iff.mp hrec').1
        refine Or.inr (collides_of_scheme (Collides.of_mem
          (List.mem_append_left _ (leafSaltText_mem_commitQueries hleaves ht hlt))
          (List.mem_append_left _ (leafSaltText_mem_commitQueries hleaves ht hlt')) ?_ ?_))
        . intro heq
          exact hne (leafSaltText_inj (encodeAll_inj heq))
        . rw [← h_eq_ok hsalt, ← h_eq_ok hsalt']
      . refine Or.inl ⟨fun h => absurd h hother, ?_⟩
        rintro ⟨q', hpos', hq'⟩
        rw [hpos] at hpos'
        rw [Option.some.inj hpos'] at hindex
        exact absurd hq' hindex
  . exact Or.inr hcol

end

/-!
Two records, and the opening of the second one under the index of the first.
-/

def exampleRecords : List Json := [.obj [(txt "id", .int 1)], .obj [(txt "id", .int 2)]]

def cpython : Interp := ⟨1000, 1000, some 4300⟩

def exampleSpec : MetricSpec where
  metricId := txt "M"
  numOf _ := .ok 0
  denOf _ := .ok 1

def exampleCommitment : Commitment where
  rootHash := txt "361bdac86b3087c9c24600e71d54e398ce17c5b2b4e49a13329c4867a559c3a3"
  numTotal := 0
  denTotal := 2
  n := 2
  metricId := txt "M"
  asOf := txt "t"
  treeRoot := txt "a68762c005393c7f32a66b94b27f75933de0c21f3794a9d424ab8169bd1450af"
  specVersion := specVersion
  numLeDen := true

def honestOpening : Opening where
  index := 1
  record := .obj [(txt "id", .int 2)]
  salt := txt "c9f14e21e4e8913793acd96351fcb61aa8fc81574d5fbd0f4d7974a71f1cfd35"
  num := 0
  den := 1
  path := [⟨txt "ec946a708b7e826da13d265f8da7269949b4a5bb5fec8b2483e25d49c580a5c9", 0, 1,
    txt "left"⟩]

def forgedOpening : Opening := { honestOpening with index := 0 }

theorem commitLedger_exampleRecords
    : commitLedger cpython sha3_256 exampleRecords (txt "s") exampleSpec (txt "t")
        = .ok exampleCommitment := by
  simp only [exampleCommitment, txt_ofList]
  decide +kernel

theorem verifyOpen_exampleCommitment
    : verifyOpen cpython sha3_256 exampleCommitment exampleSpec [forgedOpening]
        = .ok ⟨true, [⟨0, true, true, true, true, true⟩], none⟩ ∧
      verifyOpen cpython sha3_256 exampleCommitment exampleSpec [honestOpening]
        = .ok ⟨true, [⟨1, true, true, true, true, true⟩], none⟩ := by
  simp only [exampleCommitment, forgedOpening, honestOpening, txt_ofList]
  decide +kernel

/--
The second record answers a challenge for the first one.
-/
theorem forged_index_accepted
    : commitLedger cpython sha3_256 exampleRecords (txt "s") exampleSpec (txt "t")
        = .ok exampleCommitment ∧
      verifyOpen cpython sha3_256 exampleCommitment exampleSpec [forgedOpening]
        = .ok ⟨true, [⟨0, true, true, true, true, true⟩], none⟩ ∧
      ¬(OpensAt sha3_256 exampleRecords (txt "s") 0 forgedOpening ∨
        Collides sha3_256 (commitQueries cpython sha3_256 exampleRecords (txt "s") exampleSpec
          exampleCommitment ++ openQueries sha3_256 exampleCommitment forgedOpening)) := by
  refine ⟨commitLedger_exampleRecords, verifyOpen_exampleCommitment.1, ?_⟩
  rintro (⟨k, hk, rec, hrec, hcanonical, _⟩ | hcol)
  . have hk : k = 0 := by exact_mod_cast hk
    subst hk
    simp only [exampleRecords, List.getElem?_cons_zero, Option.some.injEq] at hrec
    subst hrec
    exact absurd hcanonical (by decide +kernel)
  . have hdedup := hcol.mono (fun _ hm => List.mem_dedup.mpr hm)
    exact Collides.not_of_nodup_map (by decide +kernel) hdedup

theorem verifyOpen_opensAt_iff_honestOpening
    : (OpensAt sha3_256 exampleRecords (txt "s") 1 honestOpening ↔
          ∃ q : Nat, HashTree.position exampleRecords.length (sidesOf honestOpening.path) = some q ∧
            (1 : Int) = q) ∨
        Collides sha3_256 (commitQueries cpython sha3_256 exampleRecords (txt "s") exampleSpec
          exampleCommitment ++ openQueries sha3_256 exampleCommitment honestOpening) :=
  verifyOpen_opensAt_iff exampleRecords (txt "s") exampleSpec (txt "t") exampleCommitment
    commitLedger_exampleRecords honestOpening ⟨true, [⟨1, true, true, true, true, true⟩], none⟩
    verifyOpen_exampleCommitment.2 ⟨1, true, true, true, true, true⟩ (List.mem_singleton.mpr rfl)
    rfl

end Cldma
end CryptoValid
