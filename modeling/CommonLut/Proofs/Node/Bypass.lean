import CommonLut.Proofs.Document.Profiles
import CommonLut.Proofs.Node.Chain

/-!
# Bypassed nodes

A bypassed node could as well not be there. Pruning deletes every bypassed node with all that is
inside it, in groups and in the lists of resolved references too. A container sees of each node that
is left what it saw before, so that no adapter comes or goes, and every group that is left has the
pruned chain.

Main definitions: `Node.prune`, `ProcessList.prune`, `Node.keptGroups`.
Main statements: `Node.actives_pruneAll`, `Node.evalGroup_pruneAll`, `Node.chainFrom_pruneAll`,
`ProcessList.process_prune`.
-/

namespace CommonLut

namespace Node

/-! ## §1 Pruning -/

mutual
/-- The node without the bypassed nodes inside it. -/
def prune : Node → Node
  | operation c op => operation c op
  | group c nodes => group c (pruneAll nodes)
  | reference c target => reference c target
  | resolved c target header nodes => resolved c target header (pruneAll nodes)
termination_by structural n => n

/-- The nodes without the bypassed ones, at whatever depth. -/
def pruneAll : List Node → List Node
  | [] => []
  | n :: ns => if n.isBypassed then pruneAll ns else n.prune :: pruneAll ns
termination_by structural ns => ns
end

@[simp]
theorem common_prune (n : Node) : n.prune.common = n.common := by
  cases n <;> rfl

@[simp]
theorem kind_prune (n : Node) : n.prune.kind = n.kind := by
  cases n <;> rfl

@[simp]
theorem isBypassed_prune (n : Node) : n.prune.isBypassed = n.isBypassed := by
  rw [isBypassed, isBypassed, common_prune]

@[simp]
theorem input_prune (n : Node) : n.prune.input = n.input := by
  rw [input, input, kind_prune, common_prune]

@[simp]
theorem output_prune (n : Node) : n.prune.output = n.output := by
  rw [output, output, kind_prune, common_prune]

theorem inner_prune (n : Node) : n.prune.inner = pruneAll n.inner := by
  cases n <;> rfl

theorem pruneAll_cons (n : Node) (ns : List Node) :
    pruneAll (n :: ns) = if n.isBypassed then pruneAll ns else n.prune :: pruneAll ns := rfl

/-- What is left are the active nodes. -/
theorem pruneAll_eq_map (ns : List Node) : pruneAll ns = (actives ns).map prune := by
  induction ns with
  | nil => rfl
  | cons n ns ih =>
    rw [pruneAll_cons, actives_cons, ih]
    cases n.isBypassed <;> rfl

theorem actives_pruneAll (ns : List Node) : actives (pruneAll ns) = pruneAll ns := by
  refine List.filter_eq_self.mpr fun m hm => ?_
  rw [pruneAll_eq_map] at hm
  obtain ⟨n, hn, rfl⟩ := List.mem_map.mp hm
  have hactive := (List.mem_filter.mp hn).2
  rwa [isBypassed_prune]

mutual
/-- No node inside a pruned one is bypassed. -/
theorem within_inner_prune : ∀ n m : Node, m.Within n.prune.inner → m.isBypassed = false
  | .operation _ _ => forall_within_nil
  | .group _ nodes => within_pruneAll nodes
  | .reference _ _ => forall_within_nil
  | .resolved _ _ _ nodes => within_pruneAll nodes
termination_by structural n => n

theorem within_pruneAll : ∀ (ns : List Node) (m : Node),
    m.Within (pruneAll ns) → m.isBypassed = false
  | [] => forall_within_nil
  | n :: ns => by
    have hn := within_inner_prune n
    have hns := within_pruneAll ns
    rw [pruneAll_cons]
    cases hbypass : n.isBypassed with
    | true => exact hns
    | false => exact forall_within_cons.mpr ⟨⟨(isBypassed_prune n).trans hbypass, hn⟩, hns⟩
termination_by structural ns => ns
end

/-! ## §2 Evaluation -/

mutual
theorem eval_prune : ∀ (n : Node) (p : Pixel Float32), n.prune.eval p = n.eval p
  | .operation _ _, _ => rfl
  | .group _ nodes, p => evalGroup_pruneAll nodes none p
  | .reference _ _, _ => rfl
  | .resolved _ _ _ nodes, p => evalActive_pruneAll nodes p
termination_by structural n => n

theorem evalActive_pruneAll : ∀ (ns : List Node) (p : Pixel Float32),
    evalActive (pruneAll ns) p = evalActive ns p
  | [], _ => rfl
  | n :: ns, p => by
    have hn := eval_prune n p
    have hns := evalActive_pruneAll ns
    rw [pruneAll_cons, evalActive]
    cases hbypass : n.isBypassed with
    | true => exact hns p
    | false => simp only [Bool.false_eq_true, if_false, evalActive, isBypassed_prune, hbypass, hn, hns]
termination_by structural ns => ns

/-- The depth that a group carries past a bypassed node is the one it carries without it. -/
theorem evalGroup_pruneAll : ∀ (ns : List Node) (previous : Option BitDepth) (p : Pixel Float32),
    evalGroup previous (pruneAll ns) p = evalGroup previous ns p
  | [], _, _ => rfl
  | n :: ns, previous, p => by
    have hn := eval_prune n (adapt previous n.input p)
    have hns := evalGroup_pruneAll ns
    rw [pruneAll_cons, evalGroup]
    cases hbypass : n.isBypassed with
    | true =>
      -- A bypassed node leaves the depth that is carried as it is.
      exact hns previous p
    | false =>
      simp only [Bool.false_eq_true, if_false, evalGroup, isBypassed_prune, hbypass, input_prune,
        output_prune, hn, hns]
termination_by structural ns => ns
end

/-! ## §3 Groups that are left -/

/-- The chain of a pruned group is the pruned chain. -/
theorem chainFrom_pruneAll (ns : List Node) (previous : Option BitDepth) :
    chainFrom previous (pruneAll ns) = (chainFrom previous ns).map prune := by
  induction ns generalizing previous with
  | nil => rfl
  | cons n ns ih =>
    rw [pruneAll_cons]
    cases hbypass : n.isBypassed with
    | true => rw [if_pos rfl, ih, chainFrom_of_bypassed hbypass]
    | false =>
      -- The node takes the depth that it took, so the same adapter stands before it.
      have hinserted : (inserted previous n).map prune = inserted previous n.prune := by
        unfold inserted
        rw [input_prune]
        split
        · split <;> rfl
        · rfl
      rw [if_neg (by decide), chainFrom_of_active ((isBypassed_prune n).trans hbypass), ih,
        chainFrom_of_active hbypass, List.map_append, List.map_cons, hinserted, output_prune]

/-- The depths along the evaluation chain of a group. -/
def chainDepths (g : Node) : List (BitDepth × BitDepth) :=
  (chain g.inner).map fun n => (n.input, n.output)

theorem chainDepths_prune (g : Node) : g.prune.chainDepths = g.chainDepths := by
  rw [chainDepths, inner_prune, chain, chainFrom_pruneAll, List.map_map, chainDepths, chain]
  refine List.map_congr_left fun n _ => ?_
  rw [Function.comp_apply, input_prune, output_prune]

mutual
/-- The groups in a node, at any depth, that are neither bypassed nor inside a bypassed node of
it. -/
def keptGroups : Node → List Node
  | operation _ _ | reference _ _ => []
  | group c nodes => group c nodes :: keptGroupsAll nodes
  | resolved _ _ _ nodes => keptGroupsAll nodes
termination_by structural n => n

@[inherit_doc keptGroups]
def keptGroupsAll : List Node → List Node
  | [] => []
  | n :: ns => if n.isBypassed then keptGroupsAll ns else n.keptGroups ++ keptGroupsAll ns
termination_by structural ns => ns
end

mutual
theorem groups_prune : ∀ n : Node, n.prune.groups = n.keptGroups.map prune
  | .operation _ _ => rfl
  | .group c nodes => by
    have hnodes := groupsAll_pruneAll nodes
    rw [prune, groups, keptGroups, List.map_cons, hnodes, prune]
  | .reference _ _ => rfl
  | .resolved _ _ _ nodes => groupsAll_pruneAll nodes
termination_by structural n => n

/-- The groups that are left are the pruned ones of those that are not bypassed. -/
theorem groupsAll_pruneAll : ∀ ns : List Node,
    groupsAll (pruneAll ns) = (keptGroupsAll ns).map prune
  | [] => rfl
  | n :: ns => by
    have hn := groups_prune n
    have hns := groupsAll_pruneAll ns
    rw [pruneAll_cons, keptGroupsAll]
    cases n.isBypassed with
    | true => exact hns
    | false =>
      rw [if_neg (by decide), if_neg (by decide), groupsAll, hn, hns, List.map_append]
termination_by structural ns => ns
end

end Node

/-! ## §4 Lists -/

namespace ProcessList

/-- The list without its bypassed nodes, at whatever depth they are. -/
def prune (l : ProcessList) : ProcessList := { l with nodes := Node.pruneAll l.nodes }

theorem active_prune (l : ProcessList) : l.prune.active = l.active.map Node.prune :=
  (Node.actives_pruneAll l.nodes).trans (Node.pruneAll_eq_map l.nodes)

theorem evalPixel_prune (l : ProcessList) : l.prune.evalPixel = l.evalPixel :=
  funext (Node.evalActive_pruneAll l.nodes)

theorem input_prune (l : ProcessList) : l.prune.input = l.input := by
  rw [input, input, active_prune, List.head?_map, Option.map_map]
  exact congrArg (fun f => (l.active.head?.map f).getD .float32) (funext Node.input_prune)

theorem output_prune (l : ProcessList) : l.prune.output = l.output := by
  rw [output, output, active_prune, List.getLast?_map, Option.map_map]
  exact congrArg (fun f => (l.active.getLast?.map f).getD .float32) (funext Node.output_prune)

/-- Without its bypassed nodes, at whatever depth, a list gives the same values and declares the same
depths. The groups that are left are those that were not bypassed, in order, and the depths along
the evaluation chain of each are what they were. -/
theorem process_prune (l : ProcessList) :
    (∀ n : Node, n.Within l.prune.nodes → n.isBypassed = false) ∧
    (∀ stride values, l.prune.process stride values = l.process stride values) ∧
    l.prune.input = l.input ∧ l.prune.output = l.output ∧
    Node.groupsAll l.prune.nodes = (Node.keptGroupsAll l.nodes).map Node.prune ∧
    (Node.groupsAll l.prune.nodes).map Node.chainDepths =
      (Node.keptGroupsAll l.nodes).map Node.chainDepths := by
  have hgroups := Node.groupsAll_pruneAll l.nodes
  refine ⟨Node.within_pruneAll l.nodes, fun stride values => ?_, l.input_prune, l.output_prune,
    hgroups, ?_⟩
  · rw [process_eq_mapPixels, evalPixel_prune, ← process_eq_mapPixels]
  · show (Node.groupsAll (Node.pruneAll l.nodes)).map Node.chainDepths = _
    rw [hgroups, List.map_map]
    exact List.map_congr_left fun g _ => g.chainDepths_prune

/-- Bypassed nodes at the top, in the list of a reference and between the children of a group. -/
def bypassingList : ProcessList :=
  { header := { id := "bypassing" }
    nodes := [
      .operation { bypass := some true, input := .uint16 } (.range {}),
      .resolved {} { path := "inner.clf" } { id := "inner" } [
        .group { bypass := some true } [.adapter .uint8 .uint16],
        .group {} [.adapter .uint8 .uint10, .group { bypass := some true } [],
          .adapter .uint12 .float32]]] }

/-- The children that become neighbours already had an adapter between them. -/
theorem process_prune_bypassing :
    (∀ n : Node, n.Within [.adapter .uint8 .uint10, .adapter .uint12 .float32] →
      n.isBypassed = false) ∧
    bypassingList.prune.process 3 [0.0, 128.0, 255.0] =
      bypassingList.process 3 [0.0, 128.0, 255.0] ∧
    (Node.groupsAll bypassingList.prune.nodes).map Node.chainDepths =
      [[(.uint8, .uint10), (.uint10, .uint12), (.uint12, .float32)]] := by
  obtain ⟨hactive, hprocess, -, -, -, hdepths⟩ := process_prune bypassingList
  refine ⟨fun n hn => hactive n ?_, hprocess 3 [0.0, 128.0, 255.0], hdepths⟩
  exact .inside List.mem_cons_self (.inside List.mem_cons_self hn)

end ProcessList

end CommonLut
