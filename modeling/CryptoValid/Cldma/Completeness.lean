import CryptoValid.Cldma.Binding
import CryptoValid.Lib.Digits
import CryptoValid.Lib.Json.Printed
import Mathlib.Algebra.Order.BigOperators.Group.List

/-!
This module contains what an honest prover can rely on: a ledger whose contributions are not
negative has a commitment with the right sums, and both the regulator's check and every selective
opening of it succeed. A promoted node has no sibling, so the paths differ in length.
-/

namespace CryptoValid
namespace Cldma

open Python (Interp PrintableNode printable)

section

variable {interp : Interp} {sha3_256 : HashFn 32}

/-!
### One level up
-/

theorem combine_of_nextLevel {cur nxt : List Node}
    (hnxt : nextLevel interp sha3_256 cur = .ok nxt) (k : Nat) {l r : Node}
    (hl : cur[2 * k]? = some l) (hr : cur[2 * k + 1]? = some r)
    : ∃ parent, combine interp sha3_256 l r = .ok parent := by
  induction k generalizing cur nxt with
  | zero =>
    rcases cur with _ | ⟨a, _ | ⟨b, rest⟩⟩
    . simp at hl
    . simp at hr
    . rcases Except.bind_eq_ok.mp hnxt with ⟨parent, hparent, _⟩
      rw [← Option.some.inj hl, ← Option.some.inj hr]
      exact ⟨parent, hparent⟩
  | succ k ih =>
    rcases cur with _ | ⟨a, _ | ⟨b, rest⟩⟩
    . simp at hl
    . simp at hl
    . rcases Except.bind_eq_ok.mp hnxt with ⟨parent, _, hnxt⟩
      rcases Except.bind_eq_ok.mp hnxt with ⟨above, habove, _⟩
      exact ih habove (by simpa [Nat.mul_add] using hl) (by simpa [Nat.mul_add] using hr)

theorem nextLevel_pair {cur nxt : List Node} (hnxt : nextLevel interp sha3_256 cur = .ok nxt)
    (k : Nat) {l r : Node} (hl : cur[2 * k]? = some l) (hr : cur[2 * k + 1]? = some r)
    : ∃ parent, combine interp sha3_256 l r = .ok parent ∧ nxt[k]? = some parent := by
  rcases combine_of_nextLevel hnxt k hl hr with ⟨parent, hparent⟩
  refine ⟨parent, hparent, ?_⟩
  rw [nextLevel_eq_ok hnxt, combine_eq_ok hparent]
  exact Levels.getElem?_pairUp_pair _ cur k hl hr

theorem nextLevel_last {cur nxt : List Node} (hnxt : nextLevel interp sha3_256 cur = .ok nxt)
    (k : Nat)
    (hlen : cur.length = 2 * k + 1) : nxt[k]? = cur[2 * k]? := by
  rw [nextLevel_eq_ok hnxt]
  exact Levels.getElem?_pairUp_last _ cur k hlen

/--
A climber takes its sibling along, if it has one, and goes on from the node above.
-/
theorem climb_siblings_cons {cur nxt : List Node} (hnxt : nextLevel interp sha3_256 cur = .ok nxt)
    {i : Nat} {node : Node} (hnode : cur[i]? = some node)
    : ∃ parent, nxt[i / 2]? = some parent ∧
        ∀ above, climb interp sha3_256 node (inclusionPath.siblings (cur :: above) i)
          = climb interp sha3_256 parent (inclusionPath.siblings above (i / 2)) := by
  rcases Nat.mod_two_eq_zero_or_one i with heven | hodd
  . have hi : 2 * (i / 2) = i := by omega
    cases hsib : cur[i + 1]? with
    | none =>
      have hlen : cur.length = 2 * (i / 2) + 1 := by
        have hlt := (List.getElem?_eq_some_iff.mp hnode).1
        have hle := List.getElem?_eq_none_iff.mp hsib
        omega
      refine ⟨node, ?_, fun above => ?_⟩
      . rw [nextLevel_last hnxt _ hlen, hi, hnode]
      . simp [inclusionPath.siblings, heven, hsib]
    | some sib =>
      rcases nextLevel_pair hnxt (i / 2) (l := node) (r := sib) (by rwa [hi]) (by rwa [hi])
        with ⟨parent, hparent, hget⟩
      refine ⟨parent, hget, fun above => ?_⟩
      have hstep : stepUp interp sha3_256 node ⟨sib.hash, sib.num, sib.den, txt "right"⟩
          = .ok parent := hparent
      simp [inclusionPath.siblings, heven, hsib, climb, hstep, Except.ok_bind]
  . have hi : 2 * (i / 2) + 1 = i := by omega
    have hlt := (List.getElem?_eq_some_iff.mp hnode).1
    have hsib : cur[i - 1]? = some cur[i - 1] := List.getElem?_eq_getElem (by omega)
    have hi' : 2 * (i / 2) = i - 1 := by omega
    rcases nextLevel_pair hnxt (i / 2) (l := cur[i - 1]) (r := node) (by rw [hi', hsib])
      (by rwa [hi]) with ⟨parent, hparent, hget⟩
    refine ⟨parent, hget, fun above => ?_⟩
    have hstep : stepUp interp sha3_256 node
        ⟨cur[i - 1].hash, cur[i - 1].num, cur[i - 1].den, txt "left"⟩ = .ok parent := hparent
    simp [inclusionPath.siblings, hodd, hsib, climb, hstep, Except.ok_bind]

theorem climb_siblings {cur : List Node} {lvls : List (List Node)}
    (hlvls : levels.go interp sha3_256 cur = .ok lvls) {i : Nat} {node : Node}
    (hnode : cur[i]? = some node)
    {root : Node} (hroot : lvls.getLast? = some [root])
    : climb interp sha3_256 node (inclusionPath.siblings lvls.dropLast i) = .ok root := by
  fun_induction levels.go interp sha3_256 cur generalizing lvls i node with
  | case1 cur hlen e he => simp at hlvls
  | case2 cur hlen nxt hnxt ih =>
    rcases Except.map_eq_ok.mp hlvls with ⟨above, habove, rfl⟩
    rcases climb_siblings_cons hnxt hnode with ⟨parent, hparent, hclimb⟩
    have hne : nxt ≠ [] := by
      rintro rfl
      simp at hparent
    rcases levels_go_eq_ok hne habove with ⟨_, hlast, _⟩
    have hne' : above ≠ [] := by
      rintro rfl
      simp at hlast
    rw [List.dropLast_cons_of_ne_nil hne', hclimb]
    refine ih habove hparent ?_
    rw [List.getLast?_cons_of_ne_nil hne'] at hroot
    exact hroot
  | case3 cur hlen =>
    rw [← Except.ok.inj hlvls] at hroot ⊢
    simp only [List.getLast?_singleton, Option.some.injEq] at hroot
    rw [hroot] at hnode
    cases i with
    | zero =>
      rw [List.getElem?_cons_zero, Option.some.injEq] at hnode
      rw [← hnode]
      rfl
    | succ i => simp at hnode

/-!
### The levels
-/

theorem nextLevel_forall {P : Node → Prop}
    (hP : ∀ l r parent, combine interp sha3_256 l r = .ok parent → P l → P r → P parent)
    {cur nxt : List Node} (hnxt : nextLevel interp sha3_256 cur = .ok nxt)
    (hcur : ∀ node ∈ cur, P node) : ∀ node ∈ nxt, P node := by
  fun_induction nextLevel interp sha3_256 cur generalizing nxt with
  | case1 l r rest ih =>
    rcases Except.bind_eq_ok.mp hnxt with ⟨parent, hparent, hnxt⟩
    rcases Except.bind_eq_ok.mp hnxt with ⟨above, habove, hnxt⟩
    rw [← Except.pure_eq_ok.mp hnxt]
    simp only [List.forall_mem_cons] at hcur ⊢
    exact ⟨hP l r parent hparent hcur.1 hcur.2.1, ih habove hcur.2.2⟩
  | case2 rest hrest =>
    rw [← Except.ok.inj hnxt]
    exact hcur

/--
What combining preserves holds of every node of every level.
-/
theorem levels_go_forall {P : Node → Prop}
    (hP : ∀ l r parent, combine interp sha3_256 l r = .ok parent → P l → P r → P parent)
    {cur : List Node} {lvls : List (List Node)} (hlvls : levels.go interp sha3_256 cur = .ok lvls)
    (hcur : ∀ node ∈ cur, P node) : ∀ lvl ∈ lvls, ∀ node ∈ lvl, P node := by
  fun_induction levels.go interp sha3_256 cur generalizing lvls with
  | case1 cur hlen e he => simp at hlvls
  | case2 cur hlen nxt hnxt ih =>
    rcases Except.map_eq_ok.mp hlvls with ⟨above, habove, rfl⟩
    exact List.forall_mem_cons.mpr ⟨hcur, ih habove (nextLevel_forall hP hnxt hcur)⟩
  | case3 cur hlen =>
    rw [← Except.ok.inj hlvls]
    simpa using hcur

theorem nextLevel_sum {f : Node → Int}
    (hf : ∀ l r parent, combine interp sha3_256 l r = .ok parent → f parent = f l + f r)
    {cur nxt : List Node} (hnxt : nextLevel interp sha3_256 cur = .ok nxt)
    : (nxt.map f).sum = (cur.map f).sum := by
  fun_induction nextLevel interp sha3_256 cur generalizing nxt with
  | case1 l r rest ih =>
    rcases Except.bind_eq_ok.mp hnxt with ⟨parent, hparent, hnxt⟩
    rcases Except.bind_eq_ok.mp hnxt with ⟨above, habove, hnxt⟩
    rw [← Except.pure_eq_ok.mp hnxt]
    simp only [List.map_cons, List.sum_cons, hf l r parent hparent, ih habove]
    omega
  | case2 rest hrest => rw [← Except.ok.inj hnxt]

/--
A sum that combining adds up is the same on every level.
-/
theorem levels_go_sum {f : Node → Int}
    (hf : ∀ l r parent, combine interp sha3_256 l r = .ok parent → f parent = f l + f r)
    {cur : List Node} {lvls : List (List Node)} (hlvls : levels.go interp sha3_256 cur = .ok lvls)
    {root : Node} (hroot : lvls.getLast? = some [root]) : f root = (cur.map f).sum := by
  fun_induction levels.go interp sha3_256 cur generalizing lvls with
  | case1 cur hlen e he => simp at hlvls
  | case2 cur hlen nxt hnxt ih =>
    rcases Except.map_eq_ok.mp hlvls with ⟨above, habove, rfl⟩
    cases above with
    | nil =>
      simp only [List.getLast?_singleton, Option.some.injEq] at hroot
      rw [hroot] at hlen
      simp at hlen
    | cons lvl above =>
      rw [List.getLast?_cons_cons] at hroot
      rw [ih habove hroot, nextLevel_sum hf hnxt]
  | case3 cur hlen =>
    rw [← Except.ok.inj hlvls] at hroot
    simp only [List.getLast?_singleton, Option.some.injEq] at hroot
    simp [hroot]

theorem combine_num {l r parent : Node} (hparent : combine interp sha3_256 l r = .ok parent)
    : parent.num = l.num + r.num := by
  rw [combine_eq_ok hparent]
  rfl

theorem combine_den {l r parent : Node} (hparent : combine interp sha3_256 l r = .ok parent)
    : parent.den = l.den + r.den := by
  rw [combine_eq_ok hparent]
  rfl

/--
The sums of a node are not negative.
-/
def Node.NonNegative (node : Node) : Prop := 0 ≤ node.num ∧ 0 ≤ node.den

theorem combine_nonNegative (l r parent : Node) (hparent : combine interp sha3_256 l r = .ok parent)
    (hl : l.NonNegative) (hr : r.NonNegative) : parent.NonNegative := by
  rw [Node.NonNegative, combine_num hparent, combine_den hparent]
  exact ⟨Int.add_nonneg hl.1 hr.1, Int.add_nonneg hl.2 hr.2⟩

/--
The hash of a node is printed, and its sums are not negative.
-/
structure Node.Sound (node : Node) : Prop where
  hash : Str.Scalar node.hash
  nonNegative : node.NonNegative

theorem combine_sound (l r parent : Node) (hparent : combine interp sha3_256 l r = .ok parent)
    (hl : l.Sound) (hr : r.Sound) : parent.Sound := by
  refine ⟨?_, combine_nonNegative l r parent hparent hl.nonNegative hr.nonNegative⟩
  rw [combine_eq_ok hparent]
  exact Hex.scalar_ofBytes _

theorem siblings_forall {P : Node → Prop} (lvls : List (List Node)) (i : Nat)
    (hP : ∀ lvl ∈ lvls, ∀ node ∈ lvl, P node)
    : ∀ step ∈ inclusionPath.siblings lvls i, P ⟨step.hash, step.num, step.den⟩ := by
  induction lvls generalizing i with
  | nil => simp [inclusionPath.siblings]
  | cons lvl above ih =>
    rw [List.forall_mem_cons] at hP
    have htail := ih (i / 2) hP.2
    unfold inclusionPath.siblings
    split
    split
    . next node hnode =>
      rw [List.forall_mem_cons]
      exact ⟨hP.1 node (List.mem_of_getElem? hnode), htail⟩
    . exact htail

/-!
### Leaves
-/

theorem buildLeaves_sound {records : List Json} {masterSalt : Str} {spec : MetricSpec}
    {leaves : List Leaf}
    (hleaves : buildLeaves interp sha3_256 records masterSalt spec = .ok leaves)
    : ∀ node ∈ leaves.map Leaf.toNode, node.Sound := by
  intro node hnode
  rcases List.mem_map.mp hnode with ⟨leaf, hleaf, rfl⟩
  rcases List.mem_iff_getElem?.mp hleaf with ⟨k, hk⟩
  rcases (buildLeaves_go_built hleaves).2 k leaf hk with ⟨_, _, hbuilt⟩
  rcases hbuilt.leafOf with ⟨of⟩
  refine ⟨?_, hbuilt.nonNegative⟩
  rw [of.toNode_eq]
  exact Hex.scalar_ofBytes _

/--
A field of the leaves that the metric computes is what the metric makes of the records.
-/
theorem map_of_buildLeaves {records : List Json} {masterSalt : Str} {spec : MetricSpec}
    {leaves : List Leaf}
    (hleaves : buildLeaves interp sha3_256 records masterSalt spec = .ok leaves)
    {f : Json → Except Error Int} {g : Leaf → Int} {values : List Int}
    (hvalues : records.mapM f = .ok values)
    (hf : ∀ i rec leaf, Built interp sha3_256 masterSalt spec i rec leaf → f rec = .ok (g leaf))
    : leaves.map g = values := by
  rcases buildLeaves_go_built hleaves with ⟨hlen, hall⟩
  have hvalues := Except.mapM_eq_ok.mp hvalues
  refine List.ext_getElem (by simp [hlen, hvalues.length_eq]) ?_
  intro k hk hk'
  rw [List.length_map] at hk
  rcases hall k _ (List.getElem?_eq_getElem hk) with ⟨rec, hrec, hbuilt⟩
  rcases List.getElem?_eq_some_iff.mp hrec with ⟨hlt, rfl⟩
  have hvalue := hvalues.get hlt hk'
  rw [List.get_eq_getElem, hf _ _ _ hbuilt, Except.ok.injEq] at hvalue
  rw [List.getElem_map, hvalue]
  rfl

theorem nums_of_buildLeaves {records : List Json} {masterSalt : Str} {spec : MetricSpec}
    {leaves : List Leaf}
    (hleaves : buildLeaves interp sha3_256 records masterSalt spec = .ok leaves)
    {nums : List Int} (hnums : records.mapM spec.numOf = .ok nums)
    : (leaves.map Leaf.toNode).map Node.num = nums := by
  rw [List.map_map]
  exact map_of_buildLeaves hleaves hnums fun _ _ _ hbuilt => hbuilt.numOf_eq

theorem dens_of_buildLeaves {records : List Json} {masterSalt : Str} {spec : MetricSpec}
    {leaves : List Leaf}
    (hleaves : buildLeaves interp sha3_256 records masterSalt spec = .ok leaves)
    {dens : List Int} (hdens : records.mapM spec.denOf = .ok dens)
    : (leaves.map Leaf.toNode).map Node.den = dens := by
  rw [List.map_map]
  exact map_of_buildLeaves hleaves hdens fun _ _ _ hbuilt => hbuilt.denOf_eq

/-!
### Commitments
-/

/--
What `commit_ledger` has built when it returns.
-/
structure Built.Ledger (interp : Interp) (sha3_256 : HashFn 32) (records : List Json)
    (masterSalt : Str) (spec : MetricSpec) (asOf : Str) (c : Commitment) where
  leaves : List Leaf
  lvls : List (List Node)
  root : Node
  leaves_eq : buildLeaves interp sha3_256 records masterSalt spec = .ok leaves
  lvls_eq : levels.go interp sha3_256 (leaves.map Leaf.toNode) = .ok lvls
  root_eq : lvls.getLast? = some [root]
  bind_eq : bindMeta interp sha3_256 root.hash records.length spec.metricId asOf root.num root.den
    = .ok c.rootHash
  numTotal_eq : c.numTotal = root.num
  denTotal_eq : c.denTotal = root.den
  n_eq : c.n = records.length
  metricId_eq : c.metricId = spec.metricId
  asOf_eq : c.asOf = asOf

theorem levels_eq_ok {leaves : List Node} {lvls : List (List Node)}
    (hlvls : levels interp sha3_256 leaves = .ok lvls)
    : levels.go interp sha3_256 leaves = .ok lvls ∧ ∃ root, lvls.getLast? = some [root] := by
  unfold levels at hlvls
  split at hlvls
  . simp at hlvls
  . next hne =>
    rcases levels_go_eq_ok (by simpa using hne) hlvls with ⟨root, hroot, _⟩
    exact ⟨hlvls, root, hroot⟩

theorem ledger_of_commitLedger {records : List Json} {masterSalt : Str} {spec : MetricSpec}
    {asOf : Str} {c : Commitment}
    (hc : commitLedger interp sha3_256 records masterSalt spec asOf = .ok c)
    : Nonempty (Built.Ledger interp sha3_256 records masterSalt spec asOf c) := by
  rcases Except.bind_eq_ok.mp hc with ⟨leaves, hleaves, hc⟩
  rcases Except.bind_eq_ok.mp hc with ⟨lvls, hlvls, hc⟩
  rcases Except.bind_eq_ok.mp hc with ⟨rootHash, hbind, hc⟩
  rcases levels_eq_ok hlvls with ⟨hgo, root, hroot⟩
  have hlast : (lvls.getLastD []).headD ⟨[], 0, 0⟩ = root := by
    rw [List.getLastD_eq_getLast?, hroot]
    rfl
  rw [hlast] at hbind hc
  rw [← Except.pure_eq_ok.mp hc]
  exact ⟨leaves, lvls, root, hleaves, hgo, hroot, hbind, rfl, rfl, rfl, rfl, rfl⟩

namespace Built.Ledger

variable {records : List Json} {masterSalt : Str} {spec : MetricSpec} {asOf : Str} {c : Commitment}

theorem leaf_at (built : Built.Ledger interp sha3_256 records masterSalt spec asOf c) {i : Nat}
    (hi : i < records.length)
    : ∃ rec leaf, records[i]? = some rec ∧ built.leaves[i]? = some leaf ∧
        Built interp sha3_256 masterSalt spec i rec leaf := by
  rcases buildLeaves_go_built built.leaves_eq with ⟨hlen, hall⟩
  have hleaf : built.leaves[i]? = some built.leaves[i] := List.getElem?_eq_getElem (by omega)
  rcases hall i _ hleaf with ⟨rec, hrec, hbuilt⟩
  rw [Nat.zero_add] at hbuilt
  exact ⟨rec, _, hrec, hleaf, hbuilt⟩

/--
The sums at the root are the sums of what the metric makes of the records.
-/
theorem sums (built : Built.Ledger interp sha3_256 records masterSalt spec asOf c)
    {nums dens : List Int} (hnums : records.mapM spec.numOf = .ok nums)
    (hdens : records.mapM spec.denOf = .ok dens)
    : c.numTotal = nums.sum ∧ c.denTotal = dens.sum := by
  have hnum := levels_go_sum (fun _ _ _ => combine_num) built.lvls_eq built.root_eq
  have hden := levels_go_sum (fun _ _ _ => combine_den) built.lvls_eq built.root_eq
  rw [nums_of_buildLeaves built.leaves_eq hnums] at hnum
  rw [dens_of_buildLeaves built.leaves_eq hdens] at hden
  rw [built.numTotal_eq, built.denTotal_eq]
  exact ⟨hnum, hden⟩

theorem root_sound (built : Built.Ledger interp sha3_256 records masterSalt spec asOf c)
    : built.root.Sound :=
  levels_go_forall combine_sound built.lvls_eq (buildLeaves_sound built.leaves_eq) [built.root]
    (List.mem_of_getLast? built.root_eq) built.root (List.mem_singleton.mpr rfl)

theorem inclusionPath_eq (built : Built.Ledger interp sha3_256 records masterSalt spec asOf c)
    (i : Nat)
    : inclusionPath interp sha3_256 records masterSalt spec i
        = .ok (inclusionPath.siblings built.lvls.dropLast i) := by
  have hlvls : levels interp sha3_256 (built.leaves.map Leaf.toNode) = .ok built.lvls := by
    unfold levels
    rw [if_neg, built.lvls_eq]
    intro hempty
    have hgo := built.lvls_eq
    rw [List.isEmpty_iff.mp hempty] at hgo
    unfold levels.go at hgo
    have hroot := built.root_eq
    rw [← Except.ok.inj hgo] at hroot
    simp at hroot
  unfold inclusionPath
  rw [built.leaves_eq, Except.ok_bind, hlvls, Except.ok_bind]
  rfl

/--
The opening of a record that the ledger has is reported as good.
-/
theorem opening_ok (built : Built.Ledger interp sha3_256 records masterSalt spec asOf c) {i : Nat}
    (hi : i < records.length)
    : ∃ o report, openLeaves interp sha3_256 records masterSalt spec [i] = .ok [o] ∧
        verifyOpening interp sha3_256 c spec o = .ok report ∧ report.ok = true := by
  rcases built.leaf_at hi with ⟨rec, leaf, hrec, hleaf, hbuilt⟩
  rcases hbuilt.leafNode_eq with ⟨salt, hsalt, hnode⟩
  let path := inclusionPath.siblings built.lvls.dropLast i
  have hclimb : climb interp sha3_256 leaf.toNode path = .ok built.root :=
    climb_siblings built.lvls_eq (by rw [List.getElem?_map, hleaf]; rfl) built.root_eq
  have hpath : ∀ step ∈ path, (⟨step.hash, step.num, step.den⟩ : Node).NonNegative :=
    siblings_forall _ i fun lvl hlvl node hnode =>
      (levels_go_forall combine_sound built.lvls_eq (buildLeaves_sound built.leaves_eq) lvl
        (List.mem_of_mem_dropLast hlvl) node hnode).nonNegative
  refine ⟨⟨i, rec, salt, leaf.num, leaf.den, path⟩, ⟨i, true, true, true, true, true⟩, ?_, ?_, rfl⟩
  . refine Except.mapM_eq_ok.mpr (List.Forall₂.cons ?_ List.Forall₂.nil)
    simp only [hrec, hsalt, Except.ok_bind, hbuilt.numOf_eq, hbuilt.denOf_eq,
      built.inclusionPath_eq i]
    rfl
  . have hbind : bindMeta interp sha3_256 built.root.hash c.n c.metricId c.asOf c.numTotal
        c.denTotal = .ok c.rootHash := by
      rw [built.n_eq, built.metricId_eq, built.asOf_eq, built.numTotal_eq, built.denTotal_eq]
      exact built.bind_eq
    have hall : (path.all fun s => decide (0 ≤ s.num) && decide (0 ≤ s.den)) = true := by
      rw [List.all_eq_true]
      intro step hstep
      simpa [Node.NonNegative] using hpath step hstep
    unfold verifyOpening
    simp only [hbuilt.numOf_eq, hbuilt.denOf_eq, hnode, hclimb, hbind, Except.ok_bind]
    simp [hbuilt.nonNegative, hall, built.numTotal_eq, built.denTotal_eq, pure, Except.pure]

theorem openings_ok (built : Built.Ledger interp sha3_256 records masterSalt spec asOf c)
    {indices : List Nat} (hindices : ∀ i ∈ indices, i < records.length)
    : ∃ opened reports, openLeaves interp sha3_256 records masterSalt spec indices = .ok opened ∧
        opened.mapM (verifyOpening interp sha3_256 c spec) = .ok reports ∧
        opened.length = indices.length ∧ reports.all OpenReport.ok = true := by
  induction indices with
  | nil => exact ⟨[], [], rfl, rfl, rfl, rfl⟩
  | cons i indices ih =>
    rw [List.forall_mem_cons] at hindices
    rcases built.opening_ok hindices.1 with ⟨o, report, hopen, hverify, hok⟩
    rcases ih hindices.2 with ⟨opened, reports, hopened, hreports, hlen, hall⟩
    refine ⟨o :: opened, report :: reports, ?_, ?_, by simp [hlen], by simp [hok, hall]⟩
    . have hhead := Except.mapM_eq_ok.mp hopen
      rw [List.forall₂_cons] at hhead
      exact Except.mapM_eq_ok.mpr (List.Forall₂.cons hhead.1 (Except.mapM_eq_ok.mp hopened))
    . exact Except.mapM_eq_ok.mpr (List.Forall₂.cons hverify (Except.mapM_eq_ok.mp hreports))

end Built.Ledger

end

section

variable {interp : Interp} (sha3_256 : HashFn 32)

/-!
### Which ledgers have a commitment
-/

/--
The texts that are hashed can be written and have an encoding.
-/
def Encodable (interp : Interp) (records : List Json) (masterSalt : Str) (spec : MetricSpec)
    (asOf : Str) : Prop :=
  (∀ rec ∈ records, Writable interp rec ∧ Str.Scalar (recordText rec)) ∧ Str.Scalar masterSalt ∧
    Str.Scalar spec.metricId ∧ Str.Scalar asOf

instance (records : List Json) (masterSalt : Str) (spec : MetricSpec) (asOf : Str)
    : Decidable (Encodable interp records masterSalt spec asOf) :=
  inferInstanceAs (Decidable (_ ∧ _))

theorem exists_h {s : Str} : (∃ d, h sha3_256 s = .ok d) ↔ Str.Scalar s := by
  unfold h Utf8.encode?
  split
  . next raw hraw =>
    rw [Option.ite_none_right_eq_some] at hraw
    simp [hraw.1]
  . next hraw =>
    rw [ite_eq_right_iff] at hraw
    simpa using fun hs => absurd (hraw hs) (by simp)

theorem scalar_of_h {s d : Str} (hd : h sha3_256 s = .ok d) : Str.Scalar d := by
  rw [h_eq_ok hd]
  exact Hex.scalar_ofBytes _

theorem scalar_intText (i : Int) : Str.Scalar (Json.intText i) :=
  Json.printable_scalar (Json.printable_intText i)

theorem scalar_natText (n : Nat) : Str.Scalar (Json.natText n) := scalar_intText n

theorem scalar_enc {parts : List Str} : Str.Scalar (enc parts) ↔ ∀ p ∈ parts, Str.Scalar p := by
  have htail : ∀ ps : List Str,
      Str.Scalar (Json.dumpsTail false (ps.map .str)) ↔ ∀ p ∈ ps, Str.Scalar p := by
    intro ps
    induction ps with
    | nil => simp [Json.dumpsTail, Str.scalar_nil]
    | cons p ps ih =>
      rw [List.map_cons, Json.dumpsTail, Str.scalar_cons, Str.scalar_append, ih, Json.dumps,
        Json.scalar_stringText_iff, List.forall_mem_cons]
      simp only [and_iff_right_iff_imp]
      exact fun _ => by decide
  cases parts with
  | nil => simpa [enc, Json.dumps] using ⟨by decide, by decide, Str.scalar_nil⟩
  | cons p ps =>
    rw [enc, List.map_cons, Json.dumps, Str.scalar_cons, Str.scalar_append, Str.scalar_append,
      htail, Json.dumps, Json.scalar_stringText_iff, List.forall_mem_cons]
    have hbrackets : Str.Scalar [0x5d] ∧ (0x5b : CodePoint).isSurrogate = false := by decide
    tauto

theorem scalar_encCommit {rec : Json} {salt : Str}
    : Str.Scalar (encCommit rec salt) ↔ Str.Scalar salt ∧ Str.Scalar (recordText rec) := by
  have htag : Str.Scalar (txt "commit") := by decide
  simp [encCommit, scalar_enc, htag]

theorem scalar_encLeaf {commit : Str} {num den : Int}
    : Str.Scalar (encLeaf commit num den) ↔ Str.Scalar commit := by
  have htag : Str.Scalar (txt "L") := by decide
  simp [encLeaf, scalar_enc, scalar_intText, htag]

theorem scalar_encNode {left right : Str} {num den : Int}
    : Str.Scalar (encNode left right num den) ↔ Str.Scalar left ∧ Str.Scalar right := by
  have htag : Str.Scalar (txt "N") := by decide
  simp [encNode, scalar_enc, scalar_intText, htag]

theorem scalar_encBind {treeRoot : Str} {n : Nat} {metricId asOf : Str} {num den : Int}
    : Str.Scalar (encBind treeRoot n metricId asOf num den) ↔
        Str.Scalar metricId ∧ Str.Scalar asOf ∧ Str.Scalar treeRoot := by
  have htags : Str.Scalar (txt "CLDMA") ∧ Str.Scalar specVersion := by decide
  simp [encBind, scalar_enc, scalar_intText, scalar_natText, htags]

theorem exists_leafSalt {masterSalt : Str} {i : Nat}
    : (∃ salt, leafSalt sha3_256 masterSalt i = .ok salt) ↔ Str.Scalar masterSalt := by
  have hmark : Str.Scalar (txt "|leaf|") := by decide
  rw [leafSalt, exists_h]
  simp [leafSaltText, scalar_natText, hmark]

/--
A record has a commitment exactly if it can be written and encoded.
-/
theorem exists_commit {rec : Json} {salt : Str} (hsalt : Str.Scalar salt)
    : (∃ commit, (commitText interp rec salt >>= h sha3_256) = .ok commit) ↔
        Writable interp rec ∧ Str.Scalar (recordText rec) := by
  constructor
  . rintro ⟨commit, hcommit⟩
    rcases Except.bind_eq_ok.mp hcommit with ⟨text, htext, hcommit⟩
    rcases commitText_eq_ok.mp htext with ⟨hrec, rfl⟩
    exact ⟨hrec, (scalar_encCommit.mp ((exists_h sha3_256).mp ⟨commit, hcommit⟩)).2⟩
  . rintro ⟨hrec, hscalar⟩
    rw [commitText_eq_ok.mpr ⟨hrec, rfl⟩, Except.ok_bind]
    exact (exists_h sha3_256).mpr (scalar_encCommit.mpr ⟨hsalt, hscalar⟩)

theorem exists_leafNode {rec : Json} {salt : Str} {num den : Int} (hsalt : Str.Scalar salt)
    : (∃ leaf, leafNode interp sha3_256 rec salt num den = .ok leaf) ↔
        (Writable interp rec ∧ Str.Scalar (recordText rec)) ∧
          printable interp num = true ∧ printable interp den = true := by
  rw [← exists_commit sha3_256 hsalt]
  constructor
  . rintro ⟨leaf, hleaf⟩
    rcases Except.bind_eq_ok.mp hleaf with ⟨text, htext, hleaf⟩
    rcases Except.bind_eq_ok.mp hleaf with ⟨commit, hcommit, hleaf⟩
    rcases Except.bind_eq_ok.mp hleaf with ⟨text', htext', _⟩
    rcases leafText_eq_ok.mp htext' with ⟨hnum, hden, _⟩
    exact ⟨⟨commit, Except.bind_eq_ok.mpr ⟨text, htext, hcommit⟩⟩, hnum, hden⟩
  . rintro ⟨⟨commit, hcommit⟩, hnum, hden⟩
    rcases Except.bind_eq_ok.mp hcommit with ⟨text, htext, hcommit⟩
    have hleafText : Str.Scalar (encLeaf commit num den) :=
      scalar_encLeaf.mpr (scalar_of_h sha3_256 hcommit)
    rcases (exists_h sha3_256).mpr hleafText with ⟨hash, hhash⟩
    refine ⟨⟨⟨hash, num, den⟩, commit⟩, ?_⟩
    rw [leafNode, htext, Except.ok_bind, hcommit, Except.ok_bind,
      leafText_eq_ok.mpr ⟨hnum, hden, rfl⟩, Except.ok_bind, hhash]
    rfl

theorem exists_combine {l r : Node} (hl : Str.Scalar l.hash) (hr : Str.Scalar r.hash)
    (hnum : printable interp (l.num + r.num) = true)
    (hden : printable interp (l.den + r.den) = true)
    : ∃ parent, combine interp sha3_256 l r = .ok parent := by
  rcases (exists_h sha3_256).mpr (scalar_encNode.mpr ⟨hl, hr⟩) with ⟨hash, hhash⟩
  refine ⟨⟨hash, l.num + r.num, l.den + r.den⟩, ?_⟩
  rw [combine, nodeText_eq_ok.mpr ⟨hnum, hden, rfl⟩, Except.ok_bind, hhash]
  rfl

theorem exists_bindMeta {treeRoot : Str} {n : Nat} {metricId asOf : Str} {num den : Int}
    (hroot : Str.Scalar treeRoot)
    : (∃ d, bindMeta interp sha3_256 treeRoot n metricId asOf num den = .ok d) ↔
        Str.Scalar metricId ∧ Str.Scalar asOf ∧
          printable interp num = true ∧ printable interp den = true := by
  constructor
  . rintro ⟨d, hd⟩
    rcases Except.bind_eq_ok.mp hd with ⟨text, htext, hd⟩
    rcases bindText_eq_ok.mp htext with ⟨hnum, hden, rfl⟩
    rcases scalar_encBind.mp ((exists_h sha3_256).mp ⟨d, hd⟩) with ⟨hmetricId, hasOf, _⟩
    exact ⟨hmetricId, hasOf, hnum, hden⟩
  . rintro ⟨hmetricId, hasOf, hnum, hden⟩
    rw [bindMeta, bindText_eq_ok.mpr ⟨hnum, hden, rfl⟩, Except.ok_bind]
    exact (exists_h sha3_256).mpr (scalar_encBind.mpr ⟨hmetricId, hasOf, hroot⟩)

/--
A number that is not greater has no more digits.
-/
theorem printable_mono {i j : Int} (hi : 0 ≤ i) (hij : i ≤ j) (hj : printable interp j = true)
    : printable interp i = true := by
  unfold printable at *
  cases hlimit : interp.maxStrDigits with
  | none => rfl
  | some limit =>
    simp only [hlimit, Option.all_some, decide_eq_true_eq] at hj ⊢
    exact le_trans (Json.length_natText_mono (by omega)) hj

/--
The sums of neighbours are printed where the sums of all are.
-/
theorem exists_nextLevel (cur : List Node) (hcur : ∀ node ∈ cur, node.Sound)
    (hnum : printable interp (cur.map Node.num).sum = true)
    (hden : printable interp (cur.map Node.den).sum = true)
    : ∃ nxt, nextLevel interp sha3_256 cur = .ok nxt := by
  fun_induction nextLevel interp sha3_256 cur with
  | case1 l r rest ih =>
    simp only [List.forall_mem_cons] at hcur
    rcases hcur with ⟨hl, hr, hrest⟩
    have hnums : 0 ≤ (rest.map Node.num).sum :=
      List.sum_nonneg (by simpa using fun node hnode => (hrest node hnode).nonNegative.1)
    have hdens : 0 ≤ (rest.map Node.den).sum :=
      List.sum_nonneg (by simpa using fun node hnode => (hrest node hnode).nonNegative.2)
    simp only [List.map_cons, List.sum_cons] at hnum hden
    rcases hl.nonNegative with ⟨hlnum, hlden⟩
    rcases hr.nonNegative with ⟨hrnum, hrden⟩
    rcases exists_combine sha3_256 hl.hash hr.hash
      (printable_mono (by omega) (by omega) hnum) (printable_mono (by omega) (by omega) hden)
      with ⟨parent, hparent⟩
    rcases ih hrest (printable_mono (by omega) (by omega) hnum)
      (printable_mono (by omega) (by omega) hden) with ⟨above, habove⟩
    rw [hparent, Except.ok_bind, habove]
    exact ⟨_, rfl⟩
  | case2 rest hrest => exact ⟨rest, rfl⟩

theorem exists_levels_go (cur : List Node) (hcur : ∀ node ∈ cur, node.Sound)
    (hnum : printable interp (cur.map Node.num).sum = true)
    (hden : printable interp (cur.map Node.den).sum = true)
    : ∃ lvls, levels.go interp sha3_256 cur = .ok lvls := by
  fun_induction levels.go interp sha3_256 cur with
  | case1 cur hlen e he =>
    rcases exists_nextLevel sha3_256 cur hcur hnum hden with ⟨nxt, hnxt⟩
    rw [hnxt] at he
    simp at he
  | case2 cur hlen nxt hnxt ih =>
    rcases ih (nextLevel_forall combine_sound hnxt hcur)
      (by rwa [nextLevel_sum (fun _ _ _ => combine_num) hnxt])
      (by rwa [nextLevel_sum (fun _ _ _ => combine_den) hnxt]) with ⟨above, habove⟩
    exact ⟨cur :: above, by rw [habove]; rfl⟩
  | case3 cur hlen => exact ⟨[cur], rfl⟩

theorem exists_buildLeaves_go {masterSalt : Str} {spec : MetricSpec} {nums dens : List Int}
    (records : List Json) (i : Nat) (hsalt : Str.Scalar masterSalt)
    (hrecords : ∀ rec ∈ records, Writable interp rec ∧ Str.Scalar (recordText rec))
    (hnums : List.Forall₂ (fun rec num => spec.numOf rec = .ok num) records nums)
    (hdens : List.Forall₂ (fun rec den => spec.denOf rec = .ok den) records dens)
    (hnum : ∀ num ∈ nums, 0 ≤ num ∧ printable interp num = true)
    (hden : ∀ den ∈ dens, 0 ≤ den ∧ printable interp den = true)
    : ∃ leaves, buildLeaves.go interp sha3_256 masterSalt spec i records = .ok leaves := by
  induction hnums generalizing i dens with
  | nil => exact ⟨[], rfl⟩
  | @cons rec num records nums hrecNum hnums ih =>
    rcases List.forall₂_cons_left_iff.mp hdens with ⟨den, dens', hrecDen, hdens', rfl⟩
    rw [List.forall_mem_cons] at hrecords hnum hden
    rcases (exists_leafSalt sha3_256).mpr hsalt with ⟨salt, hsaltEq⟩
    rcases (exists_leafNode sha3_256 (scalar_of_h sha3_256 hsaltEq)).mpr
      ⟨hrecords.1, hnum.1.2, hden.1.2⟩ with ⟨leaf, hleaf⟩
    rcases ih (i + 1) hrecords.2 hdens' hnum.2 hden.2 with ⟨leaves, hleaves⟩
    refine ⟨leaf :: leaves, ?_⟩
    unfold buildLeaves.go
    rw [hrecNum, Except.ok_bind, hrecDen, Except.ok_bind, if_neg (by omega), hsaltEq]
    simp only [Except.ok_bind, hleaf, hleaves]
    rfl

/--
A commitment has written and encoded every text of its ledger.
-/
theorem encodable_of_commitLedger {records : List Json} {masterSalt : Str} {spec : MetricSpec}
    {asOf : Str} {nums dens : List Int} {c : Commitment} (hne : records ≠ [])
    (hnums : records.mapM spec.numOf = .ok nums) (hdens : records.mapM spec.denOf = .ok dens)
    (hc : commitLedger interp sha3_256 records masterSalt spec asOf = .ok c)
    : Encodable interp records masterSalt spec asOf ∧
        printable interp nums.sum = true ∧ printable interp dens.sum = true := by
  rcases ledger_of_commitLedger hc with ⟨built⟩
  rcases built.sums hnums hdens with ⟨hnum, hden⟩
  -- the texts that are bound to the root: the metric, the date and the two sums
  rcases (exists_bindMeta sha3_256 built.root_sound.hash).mp ⟨_, built.bind_eq⟩
    with ⟨hmetricId, hasOf, hnumTotal, hdenTotal⟩
  rw [← hnum, ← hden, built.numTotal_eq, built.denTotal_eq]
  refine ⟨⟨?_, ?_, hmetricId, hasOf⟩, hnumTotal, hdenTotal⟩
  . intro rec hrec
    rcases List.mem_iff_getElem?.mp hrec with ⟨i, hi⟩
    rcases built.leaf_at (List.getElem?_eq_some_iff.mp hi).1 with ⟨rec', leaf, hrec', _, hbuilt⟩
    rw [hi, Option.some.injEq] at hrec'
    subst hrec'
    rcases hbuilt.leafNode_eq with ⟨salt, hsalt, hleaf⟩
    exact ((exists_leafNode sha3_256 (scalar_of_h sha3_256 hsalt)).mp ⟨leaf, hleaf⟩).1
  -- the master salt is hashed with every record, and there is one
  . rcases built.leaf_at (List.length_pos_iff.mpr hne) with ⟨_, _, _, _, hbuilt⟩
    rcases hbuilt.leafNode_eq with ⟨salt, hsalt, _⟩
    exact (exists_leafSalt sha3_256).mp ⟨salt, hsalt⟩

theorem exists_leaves {records : List Json} {masterSalt : Str} {spec : MetricSpec}
    {nums dens : List Int} (hsalt : Str.Scalar masterSalt)
    (hrecords : ∀ rec ∈ records, Writable interp rec ∧ Str.Scalar (recordText rec))
    (hnums : records.mapM spec.numOf = .ok nums) (hdens : records.mapM spec.denOf = .ok dens)
    (hnonneg : (∀ num ∈ nums, 0 ≤ num) ∧ ∀ den ∈ dens, 0 ≤ den)
    (hnum : printable interp nums.sum = true) (hden : printable interp dens.sum = true)
    : ∃ leaves, buildLeaves interp sha3_256 records masterSalt spec = .ok leaves := by
  -- no contribution has more digits than the sum that it is part of
  have hprintable : ∀ {values : List Int}, (∀ x ∈ values, 0 ≤ x) →
      printable interp values.sum = true → ∀ x ∈ values, 0 ≤ x ∧ printable interp x = true :=
    fun hpos hsum x hx =>
      ⟨hpos x hx, printable_mono (hpos x hx) (List.single_le_sum hpos x hx) hsum⟩
  exact exists_buildLeaves_go sha3_256 records 0 hsalt hrecords (Except.mapM_eq_ok.mp hnums)
    (Except.mapM_eq_ok.mp hdens) (hprintable hnonneg.1 hnum) (hprintable hnonneg.2 hden)

/--
Leaves have levels above them up to one root, whose sums are theirs.
-/
theorem exists_root {leaves : List Node} (hne : leaves ≠ [])
    (hsound : ∀ node ∈ leaves, node.Sound)
    (hnum : printable interp (leaves.map Node.num).sum = true)
    (hden : printable interp (leaves.map Node.den).sum = true)
    : ∃ lvls root, levels interp sha3_256 leaves = .ok lvls ∧ lvls.getLast? = some [root] ∧
        root.Sound ∧ root.num = (leaves.map Node.num).sum ∧
        root.den = (leaves.map Node.den).sum := by
  rcases exists_levels_go sha3_256 _ hsound hnum hden with ⟨lvls, hlvls⟩
  have hlevels : levels interp sha3_256 leaves = .ok lvls := by
    rw [levels, List.isEmpty_eq_false_iff.mpr hne]
    exact hlvls
  rcases (levels_eq_ok hlevels).2 with ⟨root, hroot⟩
  refine ⟨lvls, root, hlevels, hroot, ?_, levels_go_sum (fun _ _ _ => combine_num) hlvls hroot,
    levels_go_sum (fun _ _ _ => combine_den) hlvls hroot⟩
  exact levels_go_forall combine_sound hlvls hsound [root] (List.mem_of_getLast? hroot) root
    (List.mem_singleton.mpr rfl)

/--
A ledger with contributions that are not negative has a commitment exactly if its texts can be
written and encoded and the sums can be written.
-/
theorem exists_commitLedger {records : List Json} {masterSalt : Str} {spec : MetricSpec}
    {asOf : Str} {nums dens : List Int} (hne : records ≠ [])
    (hnums : records.mapM spec.numOf = .ok nums) (hdens : records.mapM spec.denOf = .ok dens)
    (hnonneg : (∀ num ∈ nums, 0 ≤ num) ∧ ∀ den ∈ dens, 0 ≤ den)
    : (∃ c, commitLedger interp sha3_256 records masterSalt spec asOf = .ok c) ↔
        Encodable interp records masterSalt spec asOf ∧
          printable interp nums.sum = true ∧ printable interp dens.sum = true := by
  refine ⟨fun ⟨_, hc⟩ => encodable_of_commitLedger sha3_256 hne hnums hdens hc, ?_⟩
  rintro ⟨⟨hrecords, hsalt, hmetricId, hasOf⟩, hnum, hden⟩
  rcases exists_leaves sha3_256 hsalt hrecords hnums hdens hnonneg hnum hden with ⟨leaves, hleaves⟩
  have hleafNums := nums_of_buildLeaves hleaves hnums
  have hleafDens := dens_of_buildLeaves hleaves hdens
  have hleaves_ne : leaves.map Leaf.toNode ≠ [] := by
    rw [← List.length_pos_iff, List.length_map, (buildLeaves_go_built hleaves).1]
    exact List.length_pos_iff.mpr hne
  rcases exists_root sha3_256 hleaves_ne (buildLeaves_sound hleaves) (by rwa [hleafNums])
    (by rwa [hleafDens]) with ⟨lvls, root, hlevels, hroot, hrootSound, hnumTotal, hdenTotal⟩
  rw [← hleafNums, ← hnumTotal] at hnum
  rw [← hleafDens, ← hdenTotal] at hden
  rcases (exists_bindMeta sha3_256 (n := records.length) hrootSound.hash).mpr
    ⟨hmetricId, hasOf, hnum, hden⟩ with ⟨rootHash, hrootHash⟩
  have hlast : (lvls.getLastD []).headD ⟨[], 0, 0⟩ = root := by
    rw [List.getLastD_eq_getLast?, hroot]
    rfl
  rw [commitLedger, hleaves, Except.ok_bind, hlevels, Except.ok_bind]
  simp only [hlast, hrootHash, Except.ok_bind]
  exact ⟨_, rfl⟩

end

/--
A ledger with contributions that are not negative has a commitment exactly if what is hashed can be
written and encoded. The sums of the commitment are those of the contributions, the complete ledger
matches it, and so does every opening of records of the ledger.
-/
theorem commitLedger_complete (interp : Interp) (sha3_256 : HashFn 32) (records : List Json)
    (masterSalt : Str) (spec : MetricSpec) (asOf : Str) (nums dens : List Int) (hne : records ≠ [])
    (hnums : records.mapM spec.numOf = .ok nums) (hdens : records.mapM spec.denOf = .ok dens)
    (hnonneg : (∀ num ∈ nums, 0 ≤ num) ∧ ∀ den ∈ dens, 0 ≤ den)
    : ((∃ c, commitLedger interp sha3_256 records masterSalt spec asOf = .ok c) ↔
          Encodable interp records masterSalt spec asOf ∧
            printable interp nums.sum = true ∧ printable interp dens.sum = true) ∧
        ∀ c, commitLedger interp sha3_256 records masterSalt spec asOf = .ok c →
          c.numTotal = nums.sum ∧ c.denTotal = dens.sum ∧
          (∃ report, verifyFull interp sha3_256 records masterSalt spec c none = .ok report ∧
            report.ok = true) ∧
          ∀ indices : List Nat, indices ≠ [] → (∀ i ∈ indices, i < records.length) →
            ∃ opened result,
              openLeaves interp sha3_256 records masterSalt spec indices = .ok opened ∧
              verifyOpen interp sha3_256 c spec opened = .ok result ∧ result.allOk = true := by
  refine ⟨exists_commitLedger sha3_256 hne hnums hdens hnonneg, ?_⟩
  intro c hc
  rcases ledger_of_commitLedger hc with ⟨built⟩
  rcases built.sums hnums hdens with ⟨hnum, hden⟩
  refine ⟨hnum, hden, ?_, ?_⟩
  . unfold verifyFull
    rw [built.asOf_eq, hc, Except.ok_bind]
    exact ⟨_, rfl, by simp⟩
  . intro indices hindices hlt
    rcases built.openings_ok hlt with ⟨opened, reports, hopened, hreports, hlen, hall⟩
    have hempty : opened.isEmpty = false := by
      cases opened with
      | nil => exact absurd (List.length_eq_zero_iff.mp hlen.symm) hindices
      | cons o opened => rfl
    refine ⟨opened, ⟨true, reports, none⟩, hopened, ?_, rfl⟩
    unfold verifyOpen
    simp only [hempty, Bool.false_eq_true, ↓reduceIte, hreports, Except.ok_bind, hall]
    rfl

/--
Three records, the last one is promoted.
-/
def oddRecords : List Json := exampleRecords ++ [.obj [(txt "id", .int 3)]]

theorem commitLedger_complete_oddRecords
    : oddRecords.mapM exampleSpec.denOf = .ok [1, 1, 1] ∧
      ((∃ c, commitLedger cpython sha3_256 oddRecords (txt "s") exampleSpec (txt "t") = .ok c) ↔
        Encodable cpython oddRecords (txt "s") exampleSpec (txt "t") ∧
          printable cpython [(0 : Int), 0, 0].sum = true ∧
          printable cpython [(1 : Int), 1, 1].sum = true) ∧
      (Encodable cpython oddRecords (txt "s") exampleSpec (txt "t") ∧
        printable cpython [(1 : Int), 1, 1].sum = true) ∧
      ∀ c, commitLedger cpython sha3_256 oddRecords (txt "s") exampleSpec (txt "t") = .ok c →
        c.numTotal = [(0 : Int), 0, 0].sum ∧ c.denTotal = [(1 : Int), 1, 1].sum ∧
        (∃ report,
          verifyFull cpython sha3_256 oddRecords (txt "s") exampleSpec c none = .ok report ∧
          report.ok = true) ∧
        ∀ indices : List Nat, indices ≠ [] → (∀ i ∈ indices, i < oddRecords.length) →
          ∃ opened result,
            openLeaves cpython sha3_256 oddRecords (txt "s") exampleSpec indices = .ok opened ∧
            verifyOpen cpython sha3_256 c exampleSpec opened = .ok result ∧
            result.allOk = true := by
  have hcomplete := commitLedger_complete cpython sha3_256 oddRecords (txt "s") exampleSpec
    (txt "t") [0, 0, 0] [1, 1, 1] (by decide) rfl rfl (by decide)
  exact ⟨rfl, hcomplete.1, by decide +kernel, hcomplete.2⟩

/--
A record with a surrogate in it has no UTF-8, and no commitment.
-/
def surrogateRecords : List Json := [.obj [(txt "id", .str [0xd800])]]

theorem commitLedger_surrogateRecords
    : surrogateRecords.mapM exampleSpec.numOf = .ok [0] ∧
      surrogateRecords.mapM exampleSpec.denOf = .ok [1] ∧
      ¬∃ c, commitLedger cpython sha3_256 surrogateRecords (txt "s") exampleSpec (txt "t")
        = .ok c := by
  refine ⟨rfl, rfl, ?_⟩
  have hnums : surrogateRecords.mapM exampleSpec.numOf = .ok [0] := rfl
  have hdens : surrogateRecords.mapM exampleSpec.denOf = .ok [1] := rfl
  rw [exists_commitLedger sha3_256 (by decide) hnums hdens (by decide)]
  decide +kernel

end Cldma
end CryptoValid
