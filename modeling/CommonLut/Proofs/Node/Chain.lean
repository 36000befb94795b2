import CommonLut.Proofs.Node.Buffers
import CommonLut.Proofs.Node.Inlining

/-!
# Evaluation chains

A group runs its active children and converts between neighbours whose depths disagree. Its
evaluation chain spells this out as one sequence of nodes. Read as links, which tell children from
adapters, the chain is fixed by the active children alone: each of them stands in it once, in order,
with an adapter between two neighbours exactly when they disagree.

Main definitions: `Node.ChainLink`, `Node.between`, `Node.links`.
Main statements: `Node.evalGroup_eq_foldl`, `Node.chainFrom_eq_links`, `Node.isChain_links`,
`Node.eval_group_eq_foldl_chain`.
-/

namespace CommonLut.Node

/-! ## §1 Links -/

/-- A node of an evaluation chain: a child of the group, or an adapter that was inserted. -/
inductive ChainLink where
  | child (n : Node)
  | adapter (source destination : BitDepth)

/-- The node in the chain. -/
def ChainLink.node : ChainLink → Node
  | child n => n
  | adapter source destination => Node.adapter source destination

/-- The child that the link is, if it was not inserted. -/
def ChainLink.child? : ChainLink → Option Node
  | child n => some n
  | adapter _ _ => none

/-- What stands between two neighbours: an adapter if their depths disagree. -/
def between (n m : Node) : List ChainLink :=
  if n.output = m.input then [] else [.adapter n.output m.input]

/-- The links of a group whose active children are given. -/
def links : List Node → List ChainLink
  | [] => []
  | [n] => [.child n]
  | n :: m :: ns => .child n :: between n m ++ links (m :: ns)

theorem filterMap_child?_between (n m : Node) : (between n m).filterMap ChainLink.child? = [] := by
  unfold between
  split <;> rfl

/-- Without the adapters the children are left, in order. -/
theorem filterMap_child?_links : ∀ ns : List Node, (links ns).filterMap ChainLink.child? = ns
  | [] => rfl
  | [_] => rfl
  | n :: m :: ns => by
    have ih := filterMap_child?_links (m :: ns)
    rw [links, List.filterMap_append, List.filterMap_cons, filterMap_child?_between, ih]
    rfl

/-- The links before and after two neighbours do not depend on each other. -/
theorem links_append (n m : Node) (ns : List Node) :
    ∀ before : List Node, links (before ++ n :: m :: ns) =
      links (before ++ [n]) ++ between n m ++ links (m :: ns)
  | [] => rfl
  | [b] => by simp [links]
  | b :: b' :: before => by
    have ih := links_append n m ns (b' :: before)
    simp only [List.cons_append, links] at ih ⊢
    rw [ih]
    simp only [List.append_assoc]

/-! ## §2 Depths -/

theorem input_adapter (source destination : BitDepth) :
    (Node.adapter source destination).input = source := rfl

theorem output_adapter (source destination : BitDepth) :
    (Node.adapter source destination).output = destination := rfl

/-- Along the links every node gives the depth that the next one takes. -/
theorem isChain_links : ∀ ns : List Node,
    ((links ns).map ChainLink.node).IsChain fun n m => n.output = m.input
  | [] => .nil
  | [n] => .singleton n
  | n :: m :: ns => by
    have ih := isChain_links (m :: ns)
    -- What follows starts with the neighbour, whether or not another one comes after it.
    obtain ⟨rest, hrest⟩ : ∃ rest, (links (m :: ns)).map ChainLink.node = m :: rest := by
      cases ns <;> exact ⟨_, rfl⟩
    rw [links, List.map_append, hrest, List.map_cons]
    rw [hrest] at ih
    unfold between
    split
    · next hagree => exact .cons_cons hagree ih
    · -- The adapter takes what the node gives and gives what its neighbour takes.
      have htakes := input_adapter n.output m.input
      have hgives := output_adapter n.output m.input
      exact .cons_cons htakes.symm (.cons_cons hgives ih)

/-! ## §3 Chains -/

/-- The adapter that a chain inserts before a node. -/
def inserted (previous : Option BitDepth) (n : Node) : List Node :=
  match previous with
  | some depth => if depth = n.input then [] else [Node.adapter depth n.input]
  | none => []

theorem chainFrom_of_bypassed {n : Node} (h : n.isBypassed = true) (previous : Option BitDepth)
    (ns : List Node) : chainFrom previous (n :: ns) = chainFrom previous ns := by
  simp only [chainFrom, h, if_true]

theorem chainFrom_of_active {n : Node} (h : n.isBypassed = false) (previous : Option BitDepth)
    (ns : List Node) :
    chainFrom previous (n :: ns) = inserted previous n ++ n :: chainFrom (some n.output) ns := by
  simp only [chainFrom, h, Bool.false_eq_true, if_false]
  rfl

/-- What is inserted does what the group does before the node. -/
theorem foldl_inserted (previous : Option BitDepth) (n : Node) (p : Pixel Float32) :
    (inserted previous n).foldl (fun p m => m.eval p) p = adapt previous n.input p := by
  cases previous with
  | none => rfl
  | some depth =>
    unfold inserted adapt
    dsimp only
    split <;> rfl

/-- A group folds its chain over the pixel, at whatever depth the pixel is. -/
theorem evalGroup_eq_foldl (ns : List Node) (previous : Option BitDepth) (p : Pixel Float32) :
    evalGroup previous ns p = (chainFrom previous ns).foldl (fun p m => m.eval p) p := by
  induction ns generalizing previous p with
  | nil => rfl
  | cons n ns ih =>
    rw [evalGroup]
    cases hbypass : n.isBypassed with
    | true => rw [chainFrom_of_bypassed hbypass, ← ih, if_pos rfl]
    | false =>
      rw [chainFrom_of_active hbypass, List.foldl_append, foldl_inserted, List.foldl_cons, ← ih,
        if_neg (by decide)]

/-- The chain of a group is that of its active children, after an adapter for the first of them. -/
theorem chainFrom_eq_links (ns : List Node) (previous : Option BitDepth) :
    chainFrom previous ns =
      (actives ns).head?.toList.flatMap (inserted previous) ++
        (links (actives ns)).map ChainLink.node := by
  induction ns generalizing previous with
  | nil => rfl
  | cons n ns ih =>
    rw [actives_cons]
    cases hbypass : n.isBypassed with
    | true =>
      rw [chainFrom_of_bypassed hbypass, if_pos rfl]
      exact ih previous
    | false =>
      rw [chainFrom_of_active hbypass, if_neg (by decide), ih]
      -- The depth that is carried on is compared with the next active child, if there is one.
      cases actives ns with
      | nil => simp [links, ChainLink.node]
      | cons m ms =>
        have hbetween : (between n m).map ChainLink.node = inserted (some n.output) m := by
          unfold between inserted
          dsimp only
          split <;> rfl
        simp [links, ChainLink.node, hbetween]

theorem chain_eq_links (ns : List Node) :
    chain ns = (links (actives ns)).map ChainLink.node := by
  rw [chain, chainFrom_eq_links]
  cases actives ns <;> rfl

/-- The node that is skipped does not count as a neighbour. -/
example :
    chain [.adapter .uint8 .uint10, .operation { bypass := some true } (.range {}),
      .adapter .uint12 .float32] =
    [.adapter .uint8 .uint10, .adapter .uint10 .uint12, .adapter .uint12 .float32] := rfl

/-! ## §4 Groups -/

/-- An adapter takes the code values of one depth to those of the other. -/
theorem eval_adapter (source destination : BitDepth) (p : Pixel Float32) :
    (Node.adapter source destination).eval p =
      p.mapColor fun _ x => destination.denormalize (source.normalize x) := by
  have hnarrow : ∀ x : Float32, (narrow (widen x : Float) : Float32) = x :=
    Binary.Machine.narrow_widen
  have h := Range.apply_unbounded source destination p
  simp only [hnarrow] at h
  exact h

/-- Without an adapter in its chain a group runs its active children. -/
theorem chain_of_isChain {ns : List Node}
    (h : (actives ns).IsChain fun n m => n.output = m.input) : chain ns = actives ns := by
  -- Where all neighbours agree no link is an adapter.
  have hlinks : ∀ ms : List Node, (ms.IsChain fun n m => n.output = m.input) →
      (links ms).map ChainLink.node = ms := by
    intro ms hms
    induction hms with
    | nil => rfl
    | singleton n => rfl
    | cons_cons hagree _ ih =>
      rw [links, between, if_pos hagree, List.cons_append, List.map_cons, List.nil_append, ih]
      rfl
  rw [chain_eq_links, hlinks _ h]

theorem evalActive_eq_foldl (ns : List Node) (p : Pixel Float32) :
    evalActive ns p = (actives ns).foldl (fun p n => n.eval p) p := by
  rw [evalActive_eq_runSteps, runSteps, List.foldl_map]
  rfl

/-- A group folds its evaluation chain over each pixel. In the chain every node gives the depth that
the next one takes; without the adapters it is the active children in order; and between two
neighbours of these there is an adapter exactly when they disagree, which converts each colour
channel through its normalized value. A group whose active neighbours agree is a list of the same
nodes. -/
theorem eval_group_eq_foldl_chain (c : NodeCommon) (nodes : List Node) :
    (∀ p, (group c nodes).eval p = (chain nodes).foldl (fun p n => n.eval p) p) ∧
    ((chain nodes).IsChain fun n m => n.output = m.input) ∧
    chain nodes = (links (actives nodes)).map ChainLink.node ∧
    (links (actives nodes)).filterMap ChainLink.child? = actives nodes ∧
    (∀ before n m after, actives nodes = before ++ n :: m :: after →
      links (actives nodes) = links (before ++ [n]) ++ between n m ++ links (m :: after)) ∧
    (∀ source destination p, (Node.adapter source destination).eval p =
      p.mapColor fun _ x => destination.denormalize (source.normalize x)) ∧
    (((actives nodes).IsChain fun n m => n.output = m.input) → ∀ header stride values,
      (group c nodes).process stride values =
        ({ header, nodes } : ProcessList).process stride values) := by
  have hfold : ∀ p, (group c nodes).eval p = (chain nodes).foldl (fun p n => n.eval p) p :=
    evalGroup_eq_foldl nodes none
  refine ⟨hfold, ?_, chain_eq_links nodes, filterMap_child?_links _, ?_, eval_adapter, ?_⟩
  · rw [chain_eq_links]
    exact isChain_links _
  · intro before n m after hactives
    rw [hactives]
    exact links_append n m after before
  · intro hagree header stride values
    have heval : (group c nodes).eval = ({ header, nodes } : ProcessList).evalPixel := by
      funext p
      rw [hfold, chain_of_isChain hagree, ← evalActive_eq_foldl]
      rfl
    rw [ProcessList.process_eq_mapPixels, ← heval, process]

/-- Two children that agree across one of another depth, which is skipped. -/
def agreeingNodes : List Node :=
  [.adapter .uint8 .uint10, .operation { input := .uint16, bypass := some true } (.range {}),
    .adapter .uint10 .float16]

theorem eval_group_eq_foldl_chain_agreeing :
    ((actives agreeingNodes).IsChain fun n m => n.output = m.input) ∧
    (group {} agreeingNodes).process 3 [0.0, 128.0, 255.0, 64.0] =
      ({ header := { id := "agreeing" }, nodes := agreeingNodes } : ProcessList).process 3
        [0.0, 128.0, 255.0, 64.0] := by
  have hagree : (actives agreeingNodes).IsChain fun n m => n.output = m.input :=
    .cons_cons rfl (.singleton _)
  obtain ⟨-, -, -, -, -, -, hlist⟩ := eval_group_eq_foldl_chain {} agreeingNodes
  exact ⟨hagree, hlist hagree { id := "agreeing" } 3 [0.0, 128.0, 255.0, 64.0]⟩

end CommonLut.Node
