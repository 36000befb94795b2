import Mathlib.Data.List.Forall2
import CommonLut.Proofs.Node.Reading

/-!
# Nodes read back

`Node.DescribedBy` is where writing and reading meet: it holds of a node and an element with the
attributes and children of the node, whether the element was written as it is or changed afterwards.
From every element that describes a node, the node is read with its references looked up again,
which is `Node.relink`, and its own arrays reread, which is `Node.reread`. Looking up again changes
nothing where the lookup gives what it gave before. Rereading leaves a node that is `Node.Alike`: it
has the same common part, is written in the same way and evaluates every pixel to the same result.

Main definitions: `Node.Alike`, `Node.relink`, `Node.reread`, `Node.DescribedBy`.
Main statements: `Node.relink_of_linkedBy`, `Node.read_described`, `Node.alike_reread`.
-/

namespace CommonLut

namespace Node

/-! ## §1 Nodes that are alike -/

mutual
/-- The targets of the references in a node, those inside resolved references included. -/
def references : Node → List Target
  | operation _ _ => []
  | group _ nodes => referencesAll nodes
  | reference _ t => [t]
  | resolved _ t _ nodes => t :: referencesAll nodes
termination_by structural n => n

@[inherit_doc references]
def referencesAll : List Node → List Target
  | [] => []
  | n :: ns => n.references ++ referencesAll ns
termination_by structural ns => ns
end

/-- Nodes that nothing tells apart but their sample patterns. -/
structure Alike (n n' : Node) : Prop where
  common : n'.common = n.common
  kind : n'.kind = n.kind
  write : n'.write false = n.write false
  eval : n'.eval = n.eval
  references : n'.references = n.references
  groups : n'.groups.map Node.eval = n.groups.map Node.eval

theorem Alike.refl (n : Node) : n.Alike n := ⟨rfl, rfl, rfl, rfl, rfl, rfl⟩

section

variable {n n' : Node} (h : n.Alike n')

include h

theorem Alike.isBypassed : n'.isBypassed = n.isBypassed := by
  rw [Node.isBypassed, Node.isBypassed, h.common]

theorem Alike.input : n'.input = n.input := by
  rw [Node.input, Node.input, h.kind, h.common]

theorem Alike.output : n'.output = n.output := by
  rw [Node.output, Node.output, h.kind, h.common]

end

/-- Lists of nodes that are alike one by one. -/
abbrev AlikeAll (ns ns' : List Node) : Prop := List.Forall₂ Alike ns ns'

theorem AlikeAll.refl (ns : List Node) : AlikeAll ns ns :=
  List.forall₂_same.mpr fun n _ => Alike.refl n

section

variable {ns ns' : List Node} (h : AlikeAll ns ns')

include h

theorem AlikeAll.writeAll : Node.writeAll false ns' = Node.writeAll false ns := by
  induction h with
  | nil => rfl
  | cons hn _ ih => rw [Node.writeAll, Node.writeAll, hn.write, ih]

theorem AlikeAll.referencesAll : Node.referencesAll ns' = Node.referencesAll ns := by
  induction h with
  | nil => rfl
  | cons hn _ ih => rw [Node.referencesAll, Node.referencesAll, hn.references, ih]

theorem AlikeAll.groupsAll :
    (Node.groupsAll ns').map Node.eval = (Node.groupsAll ns).map Node.eval := by
  induction h with
  | nil => rfl
  | cons hn _ ih =>
    rw [Node.groupsAll, Node.groupsAll, List.map_append, List.map_append, hn.groups, ih]

theorem AlikeAll.forall_isBypassed :
    (∀ n ∈ ns', n.isBypassed = true) ↔ ∀ n ∈ ns, n.isBypassed = true := by
  induction h with
  | nil => rfl
  | cons hn _ ih => rw [List.forall_mem_cons, List.forall_mem_cons, hn.isBypassed, ih]

theorem AlikeAll.evalGroup (previous : Option BitDepth) (pixel : Pixel Float32) :
    Node.evalGroup previous ns' pixel = Node.evalGroup previous ns pixel := by
  induction h generalizing previous pixel with
  | nil => rfl
  | cons hn _ ih =>
    rw [Node.evalGroup, Node.evalGroup, hn.isBypassed, hn.input, hn.output, hn.eval, ih, ih]

/-- The same buffers come out of lists that are alike. -/
theorem AlikeAll.process (header header' : ListHeader) (stride : Nat) (values : List Float32) :
    ProcessList.process { header := header', nodes := ns' } stride values =
      ProcessList.process { header, nodes := ns } stride values := by
  unfold ProcessList.process ProcessList.active
  dsimp only
  -- A node is run on what the nodes before it have left.
  induction h generalizing values with
  | nil => rfl
  | cons hn _ ih =>
    rw [List.filter_cons, List.filter_cons, hn.isBypassed]
    split
    · rw [List.foldl_cons, List.foldl_cons, Node.process, Node.process, hn.eval, ih]
    · exact ih values

end

theorem alike_operation (c : NodeCommon) {op op' : Operation} (h : op.Alike op') :
    Alike (.operation c op) (.operation c op') where
  common := rfl
  kind := h.kind
  write := by rw [Node.write, Node.write, h.write]
  eval := by
    funext pixel
    rw [Node.eval, Node.eval, h.apply]
  references := rfl
  groups := rfl

theorem eval_group_of_alike {c c' : NodeCommon} {ns ns' : List Node} (h : AlikeAll ns ns') :
    eval (.group c' ns') = eval (.group c ns) := by
  funext pixel
  rw [eval, eval, h.evalGroup]

theorem alike_group (c : NodeCommon) {ns ns' : List Node} (h : AlikeAll ns ns') :
    Alike (.group c ns) (.group c ns') where
  common := rfl
  kind := rfl
  write := by rw [Node.write, Node.write, h.writeAll]
  eval := eval_group_of_alike h
  references := h.referencesAll
  groups := by
    rw [groups, groups, List.map_cons, List.map_cons, h.groupsAll, eval_group_of_alike h]

/-! ## §2 References looked up again -/

section

variable (link : Link)

mutual
/-- A node with its references, those inside resolved references apart, as a lookup has them. -/
def relink : Node → Node
  | operation c op => operation c op
  | group c nodes => group c (relinkAll nodes)
  | reference c t | resolved c t _ _ => ofTarget c t ((link t).toOption.join)
termination_by structural n => n

@[inherit_doc relink]
def relinkAll : List Node → List Node
  | [] => []
  | n :: ns => n.relink :: relinkAll ns
termination_by structural ns => ns
end

mutual
/-- No lookup of such a reference fails. -/
def Answered : Node → Prop
  | operation _ _ => True
  | group _ nodes => AnsweredAll nodes
  | reference _ t | resolved _ t _ _ => ∃ list?, link t = .ok list?
termination_by structural n => n

@[inherit_doc Answered]
def AnsweredAll : List Node → Prop
  | [] => True
  | n :: ns => n.Answered ∧ AnsweredAll ns
termination_by structural ns => ns
end

end

section

variable {link : Link}

theorem relinkAll_eq (ns : List Node) : relinkAll link ns = ns.map (relink link) := by
  induction ns with
  | nil => rfl
  | cons n ns ih => rw [relinkAll, ih, List.map_cons]

theorem relinkAll_append (ns ms : List Node) :
    relinkAll link (ns ++ ms) = relinkAll link ns ++ relinkAll link ms := by
  simp only [relinkAll_eq, List.map_append]

theorem answeredAll_iff {ns : List Node} :
    AnsweredAll link ns ↔ ∀ n ∈ ns, n.Answered link := by
  induction ns with
  | nil => simp [AnsweredAll]
  | cons n ns ih => simp [AnsweredAll, ih]

@[simp]
theorem common_relink (n : Node) : (n.relink link).common = n.common := by
  cases n with
  | operation c op => rfl
  | group c nodes => rfl
  | reference c t => rw [relink]; cases (link t).toOption.join <;> rfl
  | resolved c t header nodes => rw [relink]; cases (link t).toOption.join <;> rfl

@[simp]
theorem kind_relink (n : Node) : (n.relink link).kind = n.kind := by
  cases n with
  | operation c op => rfl
  | group c nodes => rfl
  | reference c t => rw [relink]; cases (link t).toOption.join <;> rfl
  | resolved c t header nodes => rw [relink]; cases (link t).toOption.join <;> rfl

@[simp]
theorem isBypassed_relink (n : Node) : (n.relink link).isBypassed = n.isBypassed := by
  rw [isBypassed, isBypassed, common_relink]

mutual
/-- A node whose references are as the lookup has them stays as it is. -/
theorem relink_of_linkedBy : ∀ n : Node, n.LinkedBy link → n.Answered link ∧ n.relink link = n
  | .operation _ _, _ => ⟨trivial, rfl⟩
  | .group c nodes, h => by
    obtain ⟨hanswered, hrelink⟩ := relinkAll_of_linkedBy nodes h
    exact ⟨hanswered, by rw [relink, hrelink]⟩
  | .reference c t, h => by
    have ht : link t = .ok none := h
    exact ⟨⟨none, ht⟩, by rw [relink, ht]; rfl⟩
  | .resolved c t header nodes, h => by
    have ht : link t = .ok (some { header, nodes }) := h
    exact ⟨⟨_, ht⟩, by rw [relink, ht]; rfl⟩
termination_by structural n => n

@[inherit_doc relink_of_linkedBy]
theorem relinkAll_of_linkedBy : ∀ ns : List Node, LinkedByAll link ns →
    AnsweredAll link ns ∧ relinkAll link ns = ns
  | [], _ => ⟨trivial, rfl⟩
  | n :: ns, h => by
    obtain ⟨hanswered, hrelink⟩ := relink_of_linkedBy n h.1
    obtain ⟨hrest, hrelinks⟩ := relinkAll_of_linkedBy ns h.2
    exact ⟨⟨hanswered, hrest⟩, by rw [relinkAll, hrelink, hrelinks]⟩
termination_by structural ns => ns
end

end

/-! ## §3 Arrays reread -/

mutual
/-- A node with its operations as they are after they have been written and read. Lists of resolved
references are not written, so they stay. -/
def reread : Node → Node
  | operation c op => operation c op.reread
  | group c nodes => group c (rereadAll nodes)
  | reference c t => reference c t
  | resolved c t header nodes => resolved c t header nodes
termination_by structural n => n

@[inherit_doc reread]
def rereadAll : List Node → List Node
  | [] => []
  | n :: ns => n.reread :: rereadAll ns
termination_by structural ns => ns
end

theorem reread_ofTarget (c : NodeCommon) (t : Target) (list? : Option ProcessList) :
    (ofTarget c t list?).reread = ofTarget c t list? := by
  cases list? <;> rfl

/-! ## §4 Elements that describe nodes -/

mutual
/-- An element has the attributes and children of a node. Of a resolved reference it has those of
the reference. -/
def DescribedBy : Node → Element → Prop
  | operation c op, e =>
    e.name = op.kind.elementName ∧
      (op.kind ≠ .colorCorrection →
        c.Spelled op.kind.ownAttributes op.writeParams.1 e.attributes) ∧
      e.children = c.writeChildren ++ op.writeParams.2
  | group c nodes, e =>
    e.name = NodeKind.group.elementName ∧
      c.Spelled NodeKind.group.ownAttributes [] e.attributes ∧
      ∃ inside, e.children = c.writeChildren ++ inside ∧ DescribedByAll nodes inside
  | reference c t, e | resolved c t _ _, e =>
    e.name = NodeKind.reference.elementName ∧
      c.Spelled NodeKind.reference.ownAttributes (Target.schema.writeAttributes t) e.attributes ∧
      e.children = c.writeChildren
termination_by structural n => n

@[inherit_doc DescribedBy]
def DescribedByAll : List Node → List Element → Prop
  | [], [] => True
  | n :: ns, e :: es => n.DescribedBy e ∧ DescribedByAll ns es
  | _, _ => False
termination_by structural ns => ns
end

theorem describedByAll_iff {ns : List Node} {es : List Element} :
    DescribedByAll ns es ↔ List.Forall₂ DescribedBy ns es := by
  induction ns generalizing es with
  | nil => cases es <;> simp [DescribedByAll]
  | cons n ns ih => cases es <;> simp [DescribedByAll, ih]

/-! ## §5 Reading an element that describes a node -/

section

variable {link : Link} {options : ReadOptions} {selfContained : Bool}

theorem exists_readNode_of_read {e : Element} {kind : NodeKind} (hname : e.name = kind.elementName)
    (h : ∃ result, Node.read link options e = .ok result) :
    ∃ n, kind.readNode link options e = .ok n := by
  have hkind : NodeKind.ofElementName? e.name = some kind := by
    rw [hname, NodeKind.ofElementName?_elementName]
  obtain ⟨result, hresult⟩ := h
  rcases read_eq_ok hresult with ⟨hnone, -⟩ | ⟨kind', n, hsome, -, hread, -⟩
  · rw [hkind] at hnone
    cases hnone
  · rw [hkind] at hsome
    cases hsome
    exact ⟨n, hread⟩

theorem read_of_readNode {e : Element} {kind : NodeKind} (hname : e.name = kind.elementName)
    (haccepted : kind.require options = .ok ()) {n : Node}
    (h : kind.readNode link options e = .ok n) : Node.read link options e = .ok (some n) := by
  have hkind : NodeKind.ofElementName? e.name = some kind := by
    rw [hname, NodeKind.ofElementName?_elementName]
  rw [read_eq_of_kind hkind]
  exact bind_eq_ok.mpr ⟨(), haccepted, bind_eq_ok.mpr ⟨n, h, rfl⟩⟩

/-- A reference is read with whatever the lookup gives for its target. -/
theorem read_reference {e : Element} (hname : e.name = NodeKind.reference.elementName)
    (haccepted : NodeKind.reference.require options = .ok ()) {c : NodeCommon} {t : Target}
    (hread : Target.schema.read options e = .ok (c, t)) {list? : Option ProcessList}
    (ht : link t = .ok list?) :
    Node.read link options e = .ok (some (Node.ofTarget c t list?)) :=
  read_of_readNode hname haccepted
    (bind_eq_ok.mpr ⟨(c, t), hread, bind_eq_ok.mpr ⟨list?, ht, rfl⟩⟩)

theorem readTarget_described {c : NodeCommon} {t : Target} (hc : c.ReadableAs options .reference)
    {e : Element} (hattributes : c.Spelled NodeKind.reference.ownAttributes
      (Target.schema.writeAttributes t) e.attributes) (hchildren : e.children = c.writeChildren) :
    Target.schema.read options e.trimmed = .ok (c, t) := by
  refine Schema.read_written Target.orderly hc.common (Target.readsBack options c.output t)
    hattributes ?_
  rw [hchildren]
  exact (List.append_nil _).symm

theorem readReference_described {c : NodeCommon} {t : Target} (hc : c.ReadableAs options .reference)
    {list? : Option ProcessList} (ht : link t = .ok list?) {e : Element}
    (hname : e.name = NodeKind.reference.elementName)
    (hattributes : c.Spelled NodeKind.reference.ownAttributes (Target.schema.writeAttributes t)
      e.attributes) (hchildren : e.children = c.writeChildren) :
    Node.read link options e.trimmed = .ok (some (Node.ofTarget c t list?)) :=
  read_reference (by rwa [Element.name_trimmed]) hc.accepted
    (readTarget_described hc hattributes hchildren) ht

/-- Children that are all nodes are the nodes of a group. -/
theorem readInside_of_nodes {es : List Element} {ns : List Node}
    (h : List.Forall₂ (fun e n => Node.read link options e = .ok (some n)) es ns) (c : NodeCommon) :
    readInside link options c es = .ok (c, ns) := by
  induction h with
  | nil => rfl
  | @cons e n es ns hread _ ih =>
    rw [readInside, hread]
    exact bind_eq_ok.mpr ⟨some n, rfl, bind_eq_ok.mpr ⟨(c, ns), ih, rfl⟩⟩

/-- A group is read with its common part and its nodes. -/
theorem read_group {e : Element} (hname : e.name = NodeKind.group.elementName)
    (haccepted : NodeKind.group.require options = .ok ()) {c₀ c : NodeCommon}
    (hattributes : NodeCommon.readAttributes e [] = .ok c₀) {ns : List Node}
    (hinside : readInside link options c₀ e.children = .ok (c, ns)) :
    Node.read link options e = .ok (some (.group c ns)) :=
  read_of_readNode hname haccepted
    (bind_eq_ok.mpr ⟨c₀, hattributes, bind_eq_ok.mpr ⟨(c, ns), hinside, rfl⟩⟩)

/-- The common children of a group come before its nodes. -/
theorem readInside_common {children rest : List Element} {c c' : NodeCommon}
    (hnames : ∀ child ∈ children, NodeKind.ofElementName? child.name = none)
    (h : children.foldlM (NodeCommon.readChild options) c = .ok c') :
    readInside link options c (children ++ rest) = readInside link options c' rest := by
  induction children generalizing c with
  | nil =>
    cases h
    rfl
  | cons child children ih =>
    rw [List.foldlM_cons] at h
    obtain ⟨next, hnext, hrest⟩ := bind_eq_ok.mp h
    rw [List.cons_append, readInside, read_eq_none (hnames child List.mem_cons_self)]
    show (c.readChild options child >>= fun common =>
      readInside link options common (children ++ rest)) = _
    rw [hnext]
    exact ih (fun child' hchild => hnames child' (List.mem_cons_of_mem child hchild)) hrest

mutual
/-- A node is read from its description, its references looked up and its arrays reread. -/
theorem read_described : ∀ (n : Node) (e : Element), n.Readable options selfContained →
    n.Answered link → n.DescribedBy e →
      Node.read link options e.trimmed = .ok (some (n.relink link).reread)
  | .operation c op, e, hn, _, he => by
    obtain ⟨hc, hop⟩ := hn
    obtain ⟨hname, hattributes, hchildren⟩ := he
    exact read_of_readNode (by rwa [Element.name_trimmed]) hc.accepted
      (op.readNode_written link hc hop hattributes hchildren)
  | .group c nodes, e, hn, hanswered, he => by
    obtain ⟨hc, hnodes⟩ := hn
    obtain ⟨hname, hattributes, inside, hchildren, hinside⟩ := he
    have hread := readAll_described nodes inside hnodes hanswered hinside
    have hspelled : c.Spelled NodeKind.group.ownAttributes [] e.trimmed.attributes := by
      rwa [Element.attributes_trimmed]
    -- The children of the common part come first and have the names of no kind.
    have hnames : ∀ child ∈ c.writeChildren.map Element.trimmed,
        NodeKind.ofElementName? child.name = none := by
      intro child hchild
      obtain ⟨child, hmem, rfl⟩ := List.mem_map.mp hchild
      rw [Element.name_trimmed]
      exact NodeCommon.leaves_writeChildren hc.common rfl rfl child hmem
    refine read_group (by rwa [Element.name_trimmed]) hc.accepted
      (NodeCommon.readAttributes_spelled hspelled) ?_
    rw [Element.children_trimmed, hchildren, List.map_append,
      readInside_common hnames (NodeCommon.readChild_writeChildren hc.common)]
    exact readInside_of_nodes (List.forall₂_map_left_iff.mpr hread) c
  | .reference c t, e, hn, hanswered, he => by
    obtain ⟨list?, ht⟩ := hanswered
    rw [relink, ht, readReference_described hn ht he.1 he.2.1 he.2.2]
    exact congrArg (fun n => Except.ok (some n)) (reread_ofTarget c t list?).symm
  | .resolved c t header nodes, e, hn, hanswered, he => by
    obtain ⟨list?, ht⟩ := hanswered
    rw [relink, ht, readReference_described hn.1 ht he.1 he.2.1 he.2.2]
    exact congrArg (fun n => Except.ok (some n)) (reread_ofTarget c t list?).symm
termination_by structural n => n

/-- The same of a list of nodes. -/
theorem readAll_described : ∀ (ns : List Node) (es : List Element),
    ReadableAll options selfContained ns → AnsweredAll link ns → DescribedByAll ns es →
      List.Forall₂ (fun e n => Node.read link options e.trimmed = .ok (some n)) es
        (rereadAll (relinkAll link ns))
  | [], [], _, _, _ => .nil
  | n :: ns, e :: es, hns, hanswered, hes =>
    .cons (read_described n e hns.1 hanswered.1 hes.1)
      (readAll_described ns es hns.2 hanswered.2 hes.2)
termination_by structural ns => ns
end

mutual
/-- Rereading a node leaves a node that is like it, whatever its references were looked up as. -/
theorem alike_reread : ∀ n : Node, n.Readable options selfContained →
    (n.relink link).Alike (n.relink link).reread
  | .operation c _, hn => alike_operation c (Operation.alike_reread hn.2)
  | .group c nodes, hn => alike_group c (alikeAll_reread nodes hn.2)
  | .reference c t, _ => by
    rw [relink, reread_ofTarget]
    exact .refl _
  | .resolved c t header nodes, _ => by
    rw [relink, reread_ofTarget]
    exact .refl _
termination_by structural n => n

/-- The same of a list of nodes. -/
theorem alikeAll_reread : ∀ ns : List Node, ReadableAll options selfContained ns →
    AlikeAll (relinkAll link ns) (rereadAll (relinkAll link ns))
  | [], _ => .nil
  | n :: ns, hns => .cons (alike_reread n hns.1) (alikeAll_reread ns hns.2)
termination_by structural ns => ns
end

theorem answered_of_readReference {c : NodeCommon} {t : Target}
    (hc : c.ReadableAs options .reference) {e : Element}
    (hname : e.name = NodeKind.reference.elementName)
    (hattributes : c.Spelled NodeKind.reference.ownAttributes (Target.schema.writeAttributes t)
      e.attributes) (hchildren : e.children = c.writeChildren)
    (h : ∃ result, Node.read link options e.trimmed = .ok result) :
    ∃ list?, link t = .ok list? := by
  obtain ⟨n, hnode⟩ := exists_readNode_of_read (by rwa [Element.name_trimmed]) h
  obtain ⟨⟨c', t'⟩, hread, hlookup⟩ := bind_eq_ok.mp hnode
  obtain ⟨list?, ht, -⟩ := bind_eq_ok.mp hlookup
  rw [readTarget_described hc hattributes hchildren] at hread
  cases hread
  exact ⟨list?, ht⟩

mutual
/-- A description is read only where the lookups of the references are answered. -/
theorem answered_of_read : ∀ (n : Node) (e : Element), n.Readable options selfContained →
    n.DescribedBy e → (∃ result, Node.read link options e.trimmed = .ok result) → n.Answered link
  | .operation _ _, _, _, _, _ => trivial
  | .group c nodes, e, hn, he, h => by
    obtain ⟨hname, -, inside, hchildren, hinside⟩ := he
    obtain ⟨n', hnode⟩ := exists_readNode_of_read (by rwa [Element.name_trimmed]) h
    obtain ⟨c₀, c', nodes', -, hread, -⟩ := exists_of_readNode_group hnode
    -- Every child was read, those that are written for the nodes among them.
    have hall := exists_read_of_readInside hread
    rw [Element.children_trimmed, hchildren, List.map_append] at hall
    exact answeredAll_of_read nodes inside hn.2 hinside fun child hchild =>
      hall child.trimmed (List.mem_append_right _ (List.mem_map_of_mem hchild))
  | .reference c t, e, hn, he, h => answered_of_readReference hn he.1 he.2.1 he.2.2 h
  | .resolved c t header nodes, e, hn, he, h => answered_of_readReference hn.1 he.1 he.2.1 he.2.2 h
termination_by structural n => n

@[inherit_doc answered_of_read]
theorem answeredAll_of_read : ∀ (ns : List Node) (es : List Element),
    ReadableAll options selfContained ns → DescribedByAll ns es →
      (∀ e ∈ es, ∃ result, Node.read link options e.trimmed = .ok result) → AnsweredAll link ns
  | [], [], _, _, _ => trivial
  | n :: ns, e :: es, hns, hes, h => by
    obtain ⟨he, hrest⟩ := List.forall_mem_cons.mp h
    exact ⟨answered_of_read n e hns.1 hes.1 he, answeredAll_of_read ns es hns.2 hes.2 hrest⟩
termination_by structural ns => ns
end

end

end Node

end CommonLut
