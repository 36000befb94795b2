import CommonLut.Proofs.Node.Kinds

/-!
# Nodes as they are read

What is known of a node that was read from an element, down to the nodes of groups and, if they are
going to be written too, to those of resolved references. A second predicate says that the targets
of references are what the lookup gives.

Main definitions: `Node.Readable`, `Node.LinkedBy`, `Node.LooksUpReadable`.
Main statements: `Node.readable_of_read`, `Node.linkedBy_of_read`.
-/

namespace CommonLut

/-! ## §1 Targets of references -/

namespace Target

theorem orderly : schema.Orderly := by
  have hpath : IsName "path" := by decide
  have hbase : IsName "basePath" := by decide
  have hnone : ∀ options (t : Target) (child : Element),
      schema.readChild options t child = .ok none ↔ child.name ∉ [] :=
    fun _ _ _ => iff_of_true rfl List.not_mem_nil
  refine Schema.orderly_of_names [] hnone List.not_mem_nil List.not_mem_nil
    (fun t => ⟨by decide, by simp [schema, hpath, hbase], by decide, ?_⟩)
    fun t child hchild => absurd hchild List.not_mem_nil
  cases h : t.basePath <;> simp [schema, h]

theorem readsBack (options : ReadOptions) (depth : BitDepth) (t : Target) :
    schema.ReadsBack options depth t t t t where
  attributes e he := by
    have hpath : e.attribute? "path" = some t.path := by
      rw [he "path" (by decide)]
      simp [schema]
    have hbase : e.attribute? "basePath" = t.basePath := by
      rw [he "basePath" (by decide)]
      cases h : t.basePath <;> simp [schema, h]
    refine bind_eq_ok.mpr ⟨_, Element.requiredAttribute_of_some hpath, ?_⟩
    rw [hbase]
    rfl
  children _ := rfl
  check _ := rfl

end Target

/-- A reference is read by looking up the target that its attributes give. -/
theorem exists_of_readReference {link : Link} {options : ReadOptions} {e : Element} {n : Node}
    (h : readReference link options e = .ok n) :
    ∃ c t list?, Target.schema.read options e = .ok (c, t) ∧ link t = .ok list? ∧
      n = Node.ofTarget c t list? := by
  obtain ⟨⟨c, t⟩, hread, h⟩ := bind_eq_ok.mp h
  obtain ⟨list?, hlink, h⟩ := bind_eq_ok.mp h
  cases h
  exact ⟨c, t, list?, hread, hlink, rfl⟩

theorem readReference_spec {link : Link} {options : ReadOptions} {e : Element} (he : e.Parsed)
    {n : Node} (h : readReference link options e = .ok n) :
    ∃ c t list?, link t = .ok list? ∧ n = Node.ofTarget c t list? ∧
      c.Readable options (Target.schema.Leaves options) Target.schema.ownAttributes := by
  obtain ⟨c, t, list?, hread, hlink, rfl⟩ := exists_of_readReference h
  obtain ⟨hc, -⟩ := Target.schema.read_spec (I := fun _ => True) Target.orderly
    (fun _ _ _ => trivial) (fun _ _ _ _ _ => trivial) he hread
  exact ⟨c, t, list?, hlink, rfl, hc⟩

namespace Node

/-! ## §2 Predicates -/

mutual
/-- A node as it is read from an element. `selfContained` says whether the nodes of resolved
references count, as they do when they are written in place of the reference. -/
def Readable (options : ReadOptions) (selfContained : Bool) : Node → Prop
  | operation c op => c.ReadableAs options op.kind ∧ op.Readable options c.output
  | group c nodes => c.ReadableAs options .group ∧ ReadableAll options selfContained nodes
  | reference c _ => c.ReadableAs options .reference
  | resolved c _ _ nodes =>
    c.ReadableAs options .reference ∧
      (selfContained = true → ReadableAll options selfContained nodes)
termination_by structural n => n

@[inherit_doc Readable]
def ReadableAll (options : ReadOptions) (selfContained : Bool) : List Node → Prop
  | [] => True
  | n :: ns => n.Readable options selfContained ∧ ReadableAll options selfContained ns
termination_by structural ns => ns
end

mutual
/-- The references of a node, those inside resolved references apart, are as a lookup has them. -/
def LinkedBy (link : Link) : Node → Prop
  | operation _ _ => True
  | group _ nodes => LinkedByAll link nodes
  | reference _ t => link t = .ok none
  | resolved _ t header nodes => link t = .ok (some { header, nodes })
termination_by structural n => n

@[inherit_doc LinkedBy]
def LinkedByAll (link : Link) : List Node → Prop
  | [] => True
  | n :: ns => n.LinkedBy link ∧ LinkedByAll link ns
termination_by structural ns => ns
end

theorem readableAll_iff {options : ReadOptions} {selfContained : Bool} {ns : List Node} :
    ReadableAll options selfContained ns ↔ ∀ n ∈ ns, n.Readable options selfContained := by
  induction ns with
  | nil => simp [ReadableAll]
  | cons n ns ih => simp [ReadableAll, ih]

theorem linkedByAll_iff {link : Link} {ns : List Node} :
    LinkedByAll link ns ↔ ∀ n ∈ ns, n.LinkedBy link := by
  induction ns with
  | nil => simp [LinkedByAll]
  | cons n ns ih => simp [LinkedByAll, ih]

/-- What is known of every node, whatever its kind. -/
theorem Readable.common {options : ReadOptions} {selfContained : Bool} {n : Node}
    (h : n.Readable options selfContained) : n.common.ReadableAs options n.kind := by
  cases n with
  | operation c op => exact h.1
  | group c nodes => exact h.1
  | reference c t => exact h
  | resolved c t header nodes => exact h.1

mutual
/-- The groups in a node at any depth, those in the lists of resolved references included. -/
def groups : Node → List Node
  | operation _ _ | reference _ _ => []
  | group c nodes => group c nodes :: groupsAll nodes
  | resolved _ _ _ nodes => groupsAll nodes
termination_by structural n => n

@[inherit_doc groups]
def groupsAll : List Node → List Node
  | [] => []
  | n :: ns => n.groups ++ groupsAll ns
termination_by structural ns => ns
end

mutual
theorem exists_of_mem_groups : ∀ n : Node, ∀ g ∈ n.groups, ∃ c nodes, g = .group c nodes
  | .operation _ _, _, hg => absurd hg List.not_mem_nil
  | .reference _ _, _, hg => absurd hg List.not_mem_nil
  | .group c nodes, g, hg => by
    have hnodes := exists_of_mem_groupsAll nodes g
    rcases List.mem_cons.mp hg with heq | hg
    · exact ⟨c, nodes, heq⟩
    · exact hnodes hg
  | .resolved _ _ _ nodes, g, hg => exists_of_mem_groupsAll nodes g hg
termination_by structural n => n

theorem exists_of_mem_groupsAll : ∀ ns : List Node, ∀ g ∈ groupsAll ns, ∃ c nodes, g = .group c nodes
  | [], _, hg => absurd hg List.not_mem_nil
  | n :: ns, g, hg => by
    rcases List.mem_append.mp hg with hg | hg
    · exact exists_of_mem_groups n g hg
    · exact exists_of_mem_groupsAll ns g hg
termination_by structural ns => ns
end

/-- A group does what the nodes in it do. -/
theorem map_eval_groupsAll (ns : List Node) :
    (groupsAll ns).map eval = ((groupsAll ns).map inner).map (evalGroup none) := by
  rw [List.map_map]
  refine List.map_congr_left fun g hg => ?_
  obtain ⟨c, nodes, rfl⟩ := exists_of_mem_groupsAll ns g hg
  rfl

/-- Groups correspond one by one if what they do corresponds. -/
theorem forall₂_of_eval {R : Node → Node → Prop} {f : Node → Pixel Float32 → Pixel Float32}
    (h : ∀ c c' ns ns', eval (.group c' ns') = f (.group c ns) → R (.group c ns) (.group c' ns'))
    {gs gs' : List Node} (hgs : ∀ g ∈ gs, ∃ c ns, g = .group c ns)
    (hgs' : ∀ g ∈ gs', ∃ c ns, g = .group c ns) (heval : gs'.map eval = gs.map f) :
    List.Forall₂ R gs gs' := by
  induction gs generalizing gs' with
  | nil =>
    rw [List.map_nil, List.map_eq_nil_iff] at heval
    rw [heval]
    exact .nil
  | cons g gs ih =>
    cases gs' with
    | nil => cases heval
    | cons g' gs' =>
      obtain ⟨hhead, htail⟩ := List.cons.inj heval
      rw [List.forall_mem_cons] at hgs hgs'
      obtain ⟨⟨c, ns, rfl⟩, hgs⟩ := hgs
      obtain ⟨⟨c', ns', rfl⟩, hgs'⟩ := hgs'
      exact .cons (h c c' ns ns' hhead) (ih hgs hgs' htail)

theorem groupsAll_append (ns ms : List Node) :
    groupsAll (ns ++ ms) = groupsAll ns ++ groupsAll ms := by
  induction ns with
  | nil => rfl
  | cons n ns ih => rw [List.cons_append, groupsAll, groupsAll, ih, List.append_assoc]

/-! ## §3 Reading -/

theorem exists_of_readNode_group {link : Link} {options : ReadOptions} {e : Element} {n : Node}
    (h : NodeKind.group.readNode link options e = .ok n) :
    ∃ c₀ c nodes, NodeCommon.readAttributes e [] = .ok c₀ ∧
      readInside link options c₀ e.children = .ok (c, nodes) ∧ n = .group c nodes := by
  obtain ⟨c₀, hattributes, h⟩ := bind_eq_ok.mp h
  obtain ⟨⟨c, nodes⟩, hinside, h⟩ := bind_eq_ok.mp h
  cases h
  exact ⟨c₀, c, nodes, hattributes, hinside, rfl⟩

/-- Neither a group nor a reference is read as an operation. -/
theorem single_of_readNode {kind : NodeKind} {link : Link} {options : ReadOptions} {e : Element}
    {c : NodeCommon} {op : Operation} (h : kind.readNode link options e = .ok (.operation c op)) :
    kind ≠ .group ∧ kind ≠ .reference := by
  constructor
  · rintro rfl
    obtain ⟨c₀, c, nodes, -, -, hnode⟩ := exists_of_readNode_group h
    cases hnode
  · rintro rfl
    obtain ⟨c, t, list?, -, -, hnode⟩ := exists_of_readReference h
    cases list? <;> cases hnode

/-- The first child of a group is a node, or it goes to the common part. -/
theorem readInside_cons {link : Link} {options : ReadOptions} {c c' : NodeCommon}
    {child : Element} {rest : List Element} {nodes : List Node}
    (h : readInside link options c (child :: rest) = .ok (c', nodes)) :
    (∃ n ns, Node.read link options child = .ok (some n) ∧
        readInside link options c rest = .ok (c', ns) ∧ nodes = n :: ns) ∨
      ∃ next, Node.read link options child = .ok none ∧ c.readChild options child = .ok next ∧
        readInside link options next rest = .ok (c', nodes) := by
  rw [readInside] at h
  obtain ⟨result, hresult, h⟩ := bind_eq_ok.mp h
  cases result with
  | some n =>
    obtain ⟨⟨c'', ns⟩, hrest, h⟩ := bind_eq_ok.mp h
    cases h
    exact .inl ⟨n, ns, hresult, hrest, rfl⟩
  | none =>
    obtain ⟨next, hnext, h⟩ := bind_eq_ok.mp h
    exact .inr ⟨next, hresult, hnext, h⟩

/-- The children of a group that is read are read one by one, as nodes or as none. -/
theorem exists_read_of_readInside {link : Link} {options : ReadOptions} {es : List Element}
    {c c' : NodeCommon} {nodes : List Node} (h : readInside link options c es = .ok (c', nodes)) :
    ∀ e ∈ es, ∃ result, Node.read link options e = .ok result := by
  induction es generalizing c nodes with
  | nil => exact fun e he => absurd he List.not_mem_nil
  | cons e es ih =>
    rcases readInside_cons h with ⟨n, ns, hread, hinside, -⟩ | ⟨next, hnone, -, hinside⟩
    · exact List.forall_mem_cons.mpr ⟨⟨some n, hread⟩, ih hinside⟩
    · exact List.forall_mem_cons.mpr ⟨⟨none, hnone⟩, ih hinside⟩

/-- An element that is not read as a node has the name of no kind. -/
theorem ofElementName?_of_read_none {link : Link} {options : ReadOptions} {e : Element}
    (h : Node.read link options e = .ok none) : NodeKind.ofElementName? e.name = none := by
  rcases read_eq_ok h with ⟨hname, -⟩ | ⟨kind, n, -, -, -, hsome⟩
  · exact hname
  · cases hsome

/-- The lists that a lookup gives are as they are read, where their nodes count. -/
def LooksUpReadable (options : ReadOptions) (selfContained : Bool) (link : Link) : Prop :=
  selfContained = true → ∀ t list, link t = .ok (some list) →
    ReadableAll options selfContained list.nodes

section

variable {link : Link} {options : ReadOptions} {selfContained : Bool}

mutual
/-- A node that is read is readable, if the lists are that the lookup gives. -/
theorem readable_of_read (hlink : LooksUpReadable options selfContained link) :
    ∀ (e : Element) (n : Node), e.Parsed → Node.read link options e = .ok (some n) →
      n.Readable options selfContained
  | ⟨name, attributes, text, children⟩, n, he, h => by
    rcases read_eq_ok h with ⟨-, hnone⟩ | ⟨kind, n', -, hrequire, hread, hsome⟩
    · cases hnone
    cases hsome
    -- Groups need the recursion and references the lookup; the other kinds need neither.
    by_cases hgroup : kind = .group
    · subst hgroup
      obtain ⟨c₀, c, nodes, hattributes, hinside, rfl⟩ := exists_of_readNode_group hread
      have hchildren := (Element.parsed_iff.mp he).2.2.2
      obtain ⟨hc, hnodes⟩ := readableAll_of_readInside hlink children c₀ c nodes hchildren
        (NodeCommon.readable_of_readAttributes he hattributes) hinside
      exact ⟨⟨hrequire, hc, nofun⟩, hnodes⟩
    by_cases hreference : kind = .reference
    · subst hreference
      obtain ⟨c, t, list?, ht, rfl, hc⟩ := readReference_spec he hread
      cases list? with
      | none => exact ⟨hrequire, hc, nofun⟩
      | some list => exact ⟨⟨hrequire, hc, nofun⟩, fun hself => hlink hself t list ht⟩
    obtain ⟨c, op, rfl, rfl, hc, hop⟩ :=
      NodeKind.readNode_operation hgroup hreference hrequire he hread
    exact ⟨hc, hop⟩
termination_by structural e => e

/-- The same of the children of a group. -/
theorem readableAll_of_readInside (hlink : LooksUpReadable options selfContained link) :
    ∀ (es : List Element) (c c' : NodeCommon) (nodes : List Node), (∀ e ∈ es, e.Parsed) →
    c.Readable options (NodeKind.group.Leaves options) NodeKind.group.ownAttributes →
    readInside link options c es = .ok (c', nodes) →
      c'.Readable options (NodeKind.group.Leaves options) NodeKind.group.ownAttributes ∧
        ReadableAll options selfContained nodes
  | [], c, c', nodes, _, hc, h => by
    cases h
    exact ⟨hc, trivial⟩
  | e :: es, c, c', nodes, hes, hc, h => by
    have he := hes e List.mem_cons_self
    have hrest : ∀ e' ∈ es, e'.Parsed := fun e' he' => hes e' (List.mem_cons_of_mem e he')
    rcases readInside_cons h with ⟨n, ns, hread, hinside, rfl⟩ | ⟨next, hnone, hnext, hinside⟩
    · obtain ⟨hc', hns⟩ := readableAll_of_readInside hlink es c c' ns hrest hc hinside
      exact ⟨hc', readable_of_read hlink e n he hread, hns⟩
    · exact readableAll_of_readInside hlink es next c' nodes hrest
        (NodeCommon.readable_of_readChild hc he (ofElementName?_of_read_none hnone) hnext) hinside
termination_by structural es => es
end

end

section

variable {link : Link} {options : ReadOptions}

mutual
/-- The references of a node that is read are as the lookup has them. -/
theorem linkedBy_of_read : ∀ (e : Element) (n : Node), e.Parsed →
    Node.read link options e = .ok (some n) → n.LinkedBy link
  | ⟨name, attributes, text, children⟩, n, he, h => by
    rcases read_eq_ok h with ⟨-, hnone⟩ | ⟨kind, n', -, hrequire, hread, hsome⟩
    · cases hnone
    cases hsome
    by_cases hgroup : kind = .group
    · subst hgroup
      obtain ⟨c₀, c, nodes, -, hinside, rfl⟩ := exists_of_readNode_group hread
      exact linkedByAll_of_readInside children c₀ c nodes (Element.parsed_iff.mp he).2.2.2 hinside
    by_cases hreference : kind = .reference
    · subst hreference
      obtain ⟨c, t, list?, ht, rfl, -⟩ := readReference_spec he hread
      cases list? with
      | none => exact ht
      | some list => exact ht
    obtain ⟨c, op, rfl, -, -, -⟩ :=
      NodeKind.readNode_operation hgroup hreference hrequire he hread
    trivial
termination_by structural e => e

/-- The same of the children of a group. -/
theorem linkedByAll_of_readInside : ∀ (es : List Element) (c c' : NodeCommon) (nodes : List Node),
    (∀ e ∈ es, e.Parsed) → readInside link options c es = .ok (c', nodes) → LinkedByAll link nodes
  | [], c, c', nodes, _, h => by
    cases h
    trivial
  | e :: es, c, c', nodes, hes, h => by
    have hrest : ∀ e' ∈ es, e'.Parsed := fun e' he' => hes e' (List.mem_cons_of_mem e he')
    rcases readInside_cons h with ⟨n, ns, hread, hinside, rfl⟩ | ⟨next, -, -, hinside⟩
    · exact ⟨linkedBy_of_read e n (hes e List.mem_cons_self) hread,
        linkedByAll_of_readInside es c c' ns hrest hinside⟩
    · exact linkedByAll_of_readInside es next c' nodes hrest hinside
termination_by structural es => es
end

end

end Node

end CommonLut
