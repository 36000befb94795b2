import CommonLut.Proofs.Node.Flatten
import CommonLut.Proofs.Node.Lookups

/-!
# What was looked up for nodes

A node that was read shows which targets were looked up for it and what was found: these are the
targets that its element refers to. In place of a resolved reference, self-contained writing looks
up what was looked up for its nodes.

Main definitions: `Node.lookups`, `Node.inlinedLookups`.
Main statements: `Node.linkedByAll_iff_lookups`, `Node.lookupsAll_flattenAll`,
`Node.refersTo_iff_lookups`.
-/

namespace CommonLut

/-! ## §1 Lookups of nodes -/

namespace Node

mutual
/-- The targets that were looked up for a node or in a group, with what was found. -/
def lookups : Node → List (Target × Option ProcessList)
  | operation _ _ => []
  | group _ nodes => lookupsAll nodes
  | reference _ t => [(t, none)]
  | resolved _ t header nodes => [(t, some { header, nodes })]
termination_by structural n => n

@[inherit_doc lookups]
def lookupsAll : List Node → List (Target × Option ProcessList)
  | [] => []
  | n :: ns => n.lookups ++ lookupsAll ns
termination_by structural ns => ns
end

theorem lookupsAll_eq (ns : List Node) : lookupsAll ns = ns.flatMap lookups := by
  induction ns with
  | nil => rfl
  | cons n ns ih => rw [lookupsAll, ih, List.flatMap_cons]

theorem lookups_ofTarget (c : NodeCommon) (t : Target) (list? : Option ProcessList) :
    (ofTarget c t list?).lookups = [(t, list?)] := by
  cases list? <;> rfl

theorem lookups_asBypassed (n : Node) : n.asBypassed.lookups = n.lookups := by
  unfold asBypassed
  split
  · rfl
  · cases n <;> rfl

mutual
theorem lookups_reread : ∀ n : Node, n.reread.lookups = n.lookups
  | .operation _ _ => rfl
  | .group _ nodes => lookupsAll_rereadAll nodes
  | .reference _ _ => rfl
  | .resolved _ _ _ _ => rfl
termination_by structural n => n

theorem lookupsAll_rereadAll : ∀ ns : List Node, lookupsAll (rereadAll ns) = lookupsAll ns
  | [] => rfl
  | n :: ns => by rw [rereadAll, lookupsAll, lookups_reread n, lookupsAll_rereadAll ns, lookupsAll]
termination_by structural ns => ns
end

mutual
/-- When references are looked up again, their targets stay. -/
theorem lookups_relink (link : Link) : ∀ n : Node,
    (n.relink link).lookups = n.lookups.map fun x => (x.1, (link x.1).toOption.join)
  | .operation _ _ => rfl
  | .group _ nodes => lookupsAll_relinkAll link nodes
  | .reference c t => by
    rw [relink, lookups_ofTarget]
    rfl
  | .resolved c t _ _ => by
    rw [relink, lookups_ofTarget]
    rfl
termination_by structural n => n

theorem lookupsAll_relinkAll (link : Link) : ∀ ns : List Node,
    lookupsAll (relinkAll link ns) =
      (lookupsAll ns).map fun x => (x.1, (link x.1).toOption.join)
  | [] => rfl
  | n :: ns => by
    rw [relinkAll, lookupsAll, lookups_relink link n, lookupsAll_relinkAll link ns, lookupsAll,
      List.map_append]
termination_by structural ns => ns
end

mutual
theorem answered_iff_lookups {link : Link} : ∀ n : Node,
    n.Answered link ↔ ∀ x ∈ n.lookups, ∃ list?, link x.1 = .ok list?
  | .operation _ _ => iff_of_true trivial (fun x hx => absurd hx List.not_mem_nil)
  | .group _ nodes => answeredAll_iff_lookups nodes
  | .reference c t => by
    rw [lookups, List.forall_mem_singleton]
    rfl
  | .resolved c t header nodes => by
    rw [lookups, List.forall_mem_singleton]
    rfl
termination_by structural n => n

theorem answeredAll_iff_lookups {link : Link} : ∀ ns : List Node,
    AnsweredAll link ns ↔ ∀ x ∈ lookupsAll ns, ∃ list?, link x.1 = .ok list?
  | [] => iff_of_true trivial (fun x hx => absurd hx List.not_mem_nil)
  | n :: ns => by
    rw [AnsweredAll, lookupsAll, List.forall_mem_append, answered_iff_lookups n,
      answeredAll_iff_lookups ns]
termination_by structural ns => ns
end

mutual
/-- References are as a lookup has them if it gives what was found. -/
theorem linkedBy_iff_lookups {link : Link} : ∀ n : Node,
    n.LinkedBy link ↔ ∀ x ∈ n.lookups, link x.1 = .ok x.2
  | .operation _ _ => iff_of_true trivial (fun x hx => absurd hx List.not_mem_nil)
  | .group _ nodes => linkedByAll_iff_lookups nodes
  | .reference c t => by
    rw [lookups, List.forall_mem_singleton]
    rfl
  | .resolved c t header nodes => by
    rw [lookups, List.forall_mem_singleton]
    rfl
termination_by structural n => n

theorem linkedByAll_iff_lookups {link : Link} : ∀ ns : List Node,
    LinkedByAll link ns ↔ ∀ x ∈ lookupsAll ns, link x.1 = .ok x.2
  | [] => iff_of_true trivial (fun x hx => absurd hx List.not_mem_nil)
  | n :: ns => by
    rw [LinkedByAll, lookupsAll, List.forall_mem_append, linkedBy_iff_lookups n,
      linkedByAll_iff_lookups ns]
termination_by structural ns => ns
end

/-! ## §2 Flattened nodes -/

/-- What is looked up in place of a reference when it is written self-contained. -/
def inlinedLookups : Target × Option ProcessList → List (Target × Option ProcessList)
  | (t, none) => [(t, none)]
  | (_, some list) => lookupsAll (flattenAll true list.nodes)

mutual
theorem lookups_flatten : ∀ n : Node,
    lookupsAll (n.flatten true) = n.lookups.flatMap inlinedLookups
  | .operation _ _ => rfl
  | .group c nodes => by
    have hnodes := lookupsAll_flattenAll nodes
    rw [flatten, lookupsAll, lookupsAll, List.append_nil, lookups, lookups, hnodes]
  | .reference _ _ => rfl
  | .resolved c t header nodes => by
    rw [lookups, List.flatMap_singleton, inlinedLookups, flatten, if_pos rfl]
    dsimp only
    split
    · rw [lookupsAll_eq, lookupsAll_eq, List.flatMap_map]
      exact congrArg (fun f => (flattenAll true nodes).flatMap f) (funext lookups_asBypassed)
    · rfl
termination_by structural n => n

/-- The references of the nodes in place of a reference are looked up instead of it. -/
theorem lookupsAll_flattenAll : ∀ ns : List Node,
    lookupsAll (flattenAll true ns) = (lookupsAll ns).flatMap inlinedLookups
  | [] => rfl
  | n :: ns => by
    rw [flattenAll, lookupsAll_eq, List.flatMap_append, ← lookupsAll_eq, ← lookupsAll_eq,
      lookups_flatten n, lookupsAll_flattenAll ns, lookupsAll, List.flatMap_append]
termination_by structural ns => ns
end

/-! ## §3 Nodes that are read -/

section

variable {link : Link} {options : ReadOptions} {t : Target}

/-- The nodes of a group are those that its children are read as. -/
theorem mem_readInside_iff {es : List Element} {c c' : NodeCommon} {nodes : List Node}
    (h : readInside link options c es = .ok (c', nodes)) (n : Node) :
    n ∈ nodes ↔ ∃ e ∈ es, Node.read link options e = .ok (some n) := by
  induction es generalizing c nodes with
  | nil =>
    cases h
    simp
  | cons e es ih =>
    rcases readInside_cons h with ⟨m, ns, hread, hinside, rfl⟩ | ⟨next, hnone, -, hinside⟩
    · simp [hread, ih hinside, eq_comm]
    · simp [hnone, ih hinside]

/-- What was looked up for a node is what the lookup gives, for targets of the element. -/
theorem link_of_mem_lookups {e : Element} {n : Node}
    (h : Node.read link options e = .ok (some n)) :
    ∀ x ∈ n.lookups, link x.1 = .ok x.2 ∧ e.RefersTo x.1 := by
  induction e using Element.induction generalizing n with
  | h e ih =>
    rcases read_eq_ok h with ⟨-, hnone⟩ | ⟨kind, n', hkind, -, hread, hsome⟩
    · cases hnone
    cases hsome
    have hname := NodeKind.name_of_ofElementName? hkind
    by_cases hgroup : kind = .group
    · subst hgroup
      obtain ⟨c₀, c, nodes, -, hinside, rfl⟩ := exists_of_readNode_group hread
      intro x hx
      rw [lookups, lookupsAll_eq] at hx
      obtain ⟨m, hm, hx⟩ := List.mem_flatMap.mp hx
      obtain ⟨child, hchild, hm⟩ := (mem_readInside_iff hinside m).mp hm
      obtain ⟨hlink, hrefers⟩ := ih child hchild hm x hx
      exact ⟨hlink, .group hname hchild hrefers⟩
    by_cases hreference : kind = .reference
    · subst hreference
      obtain ⟨c, t, list?, htarget, hlist, rfl⟩ := exists_of_readReference hread
      rw [lookups_ofTarget]
      exact List.forall_mem_singleton.mpr ⟨hlist, e.refersTo_of_read hname htarget⟩
    obtain ⟨c, op, rfl⟩ := exists_operation_of_readNode hgroup hreference hread
    exact fun x hx => absurd hx List.not_mem_nil

/-- An element that refers to targets is read as a node. -/
theorem read_ne_none {e : Element} (ht : e.RefersTo t) : Node.read link options e ≠ .ok none := by
  intro hnone
  have hname := ofElementName?_of_read_none hnone
  cases ht with
  | reference he _ =>
    rw [he, NodeKind.ofElementName?_elementName] at hname
    cases hname
  | group he _ _ =>
    rw [he, NodeKind.ofElementName?_elementName] at hname
    cases hname

theorem readNode_of_read {e : Element} {kind : NodeKind} (hname : e.name = kind.elementName)
    {n : Node} (h : Node.read link options e = .ok (some n)) :
    kind.readNode link options e = .ok n := by
  rcases read_eq_ok h with ⟨-, hnone⟩ | ⟨kind', n', hkind, -, hread, hsome⟩
  · cases hnone
  · rw [hname, NodeKind.ofElementName?_elementName] at hkind
    cases hkind
    cases hsome
    exact hread

/-- The targets that an element refers to are those that were looked up for its node. -/
theorem refersTo_iff_lookups {e : Element} {n : Node}
    (h : Node.read link options e = .ok (some n)) :
    e.RefersTo t ↔ ∃ list?, (t, list?) ∈ n.lookups := by
  constructor
  · intro ht
    induction ht generalizing n with
    | @reference e path hname hpath =>
      obtain ⟨c, t, list?, htarget, -, rfl⟩ := exists_of_readReference (readNode_of_read hname h)
      refine ⟨list?, ?_⟩
      rw [lookups_ofTarget, List.mem_singleton]
      -- The attributes of a reference leave no choice of the target.
      cases e.refersTo_of_read hname htarget with
      | reference _ hpath' =>
        cases hpath.symm.trans hpath'
        rfl
      | group hgroup _ _ =>
        rw [hname, NodeKind.elementName_inj] at hgroup
        cases hgroup
    | @group e child t hname hchild ht ih =>
      obtain ⟨c₀, c, nodes, -, hinside, rfl⟩ := exists_of_readNode_group (readNode_of_read hname h)
      obtain ⟨result, hresult⟩ := exists_read_of_readInside hinside child hchild
      cases result with
      | none => exact absurd hresult (read_ne_none ht)
      | some m =>
        obtain ⟨list?, hx⟩ := ih hresult
        refine ⟨list?, ?_⟩
        rw [lookups, lookupsAll_eq]
        exact List.mem_flatMap.mpr
          ⟨m, (mem_readInside_iff hinside m).mpr ⟨child, hchild, hresult⟩, hx⟩
  · rintro ⟨list?, hx⟩
    exact (link_of_mem_lookups h _ hx).2

end

end Node

end CommonLut
