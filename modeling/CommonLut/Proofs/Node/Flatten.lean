import CommonLut.Proofs.Node.ReadBack

/-!
# Flattening

Writing a list with its references replaced by their nodes is writing a flattened list as it is, but
for the way in which bypass flags are set. So the elements that are written for a node describe the
nodes that flattening puts in its place, and what is read back is like those.

Main definitions: `Node.asBypassed`, `Node.flatten`.
Main statements: `Node.describedByAll_write`, `Node.writable_write`, `Node.readBack_writeAll`.
-/

namespace CommonLut

namespace NodeKind

theorem disjoint (kind : NodeKind) :
    ∀ key ∈ kind.ownAttributes, key ∉ NodeCommon.ownAttributes := by
  cases kind <;> decide

theorem isName_elementName (kind : NodeKind) : IsName kind.elementName := by
  cases kind <;> decide

end NodeKind

/-- The bypass flag does not matter to what is known of a common part. -/
theorem NodeCommon.ReadableAs.withBypass {options : ReadOptions} {kind : NodeKind} {c : NodeCommon}
    (h : c.ReadableAs options kind) (hkind : kind ≠ .colorCorrection) (bypass : Option Bool) :
    NodeCommon.ReadableAs options kind { c with bypass } where
  accepted := h.accepted
  common := ⟨h.common.elements, h.common.values, h.common.accepted, h.common.extra,
    h.common.distinct⟩
  bare := fun hcorrection => absurd hcorrection hkind

namespace Node

/-! ## §1 Definitions -/

/-- The node as it is read from its element with the bypass flag set: a colour correction takes no
notice of the flag. -/
def asBypassed (n : Node) : Node :=
  if n.kind = .colorCorrection then n else n.withCommon { n.common with bypass := some true }

mutual
/-- The nodes whose elements are written in place of a node. -/
def flatten (selfContained : Bool) : Node → List Node
  | operation c op => [operation c op]
  | group c nodes => [group c (flattenAll selfContained nodes)]
  | reference c t => [reference c t]
  | resolved c t header nodes =>
    if selfContained then
      let inlined := flattenAll selfContained nodes
      if c.bypass.getD false then inlined.map asBypassed else inlined
    else [resolved c t header nodes]
termination_by structural n => n

@[inherit_doc flatten]
def flattenAll (selfContained : Bool) : List Node → List Node
  | [] => []
  | n :: ns => n.flatten selfContained ++ flattenAll selfContained ns
termination_by structural ns => ns
end

theorem flatten_of_bypassed {c : NodeCommon} (h : c.bypass = some true) (t : Target)
    (header : ListHeader) (ns : List Node) :
    flatten true (.resolved c t header ns) = (flattenAll true ns).map asBypassed := by
  rw [flatten, h]
  rfl

theorem flattenAll_append (selfContained : Bool) (ns ms : List Node) :
    flattenAll selfContained (ns ++ ms) =
      flattenAll selfContained ns ++ flattenAll selfContained ms := by
  induction ns with
  | nil => rfl
  | cons n ns ih => rw [List.cons_append, flattenAll, flattenAll, ih, List.append_assoc]

theorem writeAll_append (selfContained : Bool) (ns ms : List Node) :
    writeAll selfContained (ns ++ ms) = writeAll selfContained ns ++ writeAll selfContained ms := by
  induction ns with
  | nil => rfl
  | cons n ns ih => rw [List.cons_append, writeAll, writeAll, ih, List.append_assoc]

mutual
/-- Nothing is replaced when references are kept. -/
theorem flatten_false : ∀ n : Node, n.flatten false = [n]
  | .operation _ _ => rfl
  | .group c nodes => by rw [flatten, flattenAll_false nodes]
  | .reference _ _ => rfl
  | .resolved _ _ _ _ => rfl
termination_by structural n => n

theorem flattenAll_false : ∀ ns : List Node, flattenAll false ns = ns
  | [] => rfl
  | n :: ns => by rw [flattenAll, flatten_false n, flattenAll_false ns, List.singleton_append]
termination_by structural ns => ns
end

/-! ## §2 The bypass flag -/

theorem asBypassed_of_ne {n : Node} (h : n.kind ≠ .colorCorrection) :
    n.asBypassed = n.withCommon { n.common with bypass := some true } := if_neg h

theorem readable_asBypassed {options : ReadOptions} {selfContained : Bool} {n : Node}
    (hn : n.Readable options selfContained) : n.asBypassed.Readable options selfContained := by
  by_cases hkind : n.kind = .colorCorrection
  · rwa [asBypassed, if_pos hkind]
  rw [asBypassed_of_ne hkind]
  have hc := hn.common.withBypass hkind (some true)
  cases n with
  | operation c op => exact ⟨hc, hn.2⟩
  | group c nodes => exact ⟨hc, hn.2⟩
  | reference c t => exact hc
  | resolved c t header nodes => exact ⟨hc, hn.2⟩

theorem describedBy_bypassed {n : Node} {e : Element} (h : n.DescribedBy e) :
    n.asBypassed.DescribedBy e.bypassed := by
  by_cases hkind : n.kind = .colorCorrection
  · rw [asBypassed, if_pos hkind]
    cases n with
    | operation c op => exact ⟨h.1, fun hop => absurd hkind hop, h.2.2⟩
    | group c nodes => cases hkind
    | reference c t => cases hkind
    | resolved c t header nodes => cases hkind
  rw [asBypassed_of_ne hkind]
  cases n with
  | operation c op =>
    exact ⟨h.1, fun hop => (h.2.1 hop).bypassed op.kind.disjoint, h.2.2⟩
  | group c nodes => exact ⟨h.1, h.2.1.bypassed NodeKind.group.disjoint, h.2.2⟩
  | reference c t => exact ⟨h.1, h.2.1.bypassed NodeKind.reference.disjoint, h.2.2⟩
  | resolved c t header nodes => exact ⟨h.1, h.2.1.bypassed NodeKind.reference.disjoint, h.2.2⟩

theorem writable_bypassed {e : Element} (h : e.Writable) : e.bypassed.Writable := by
  have hbypass : IsName "bypass" := by decide
  obtain ⟨hname, ⟨hnames, hnodup⟩, hchildren⟩ := Element.writable_iff.mp h
  refine Element.writable_iff.mpr ⟨hname, ⟨fun a ha => ?_, ?_⟩, hchildren⟩
  · rcases List.mem_append.mp ha with ha | ha
    · exact hnames a (List.mem_filter.mp ha).1
    · rw [List.mem_singleton.mp ha]
      exact hbypass
  · rw [Element.bypassed, List.map_append]
    refine List.nodup_append.mpr ⟨hnodup.sublist (List.filter_sublist.map Prod.fst), by simp, ?_⟩
    intro key hkey other hother heq
    obtain ⟨a, ha, rfl⟩ := List.mem_map.mp hkey
    have hne : a.1 ≠ "bypass" := by simpa using (List.mem_filter.mp ha).2
    exact hne (heq.trans (by simpa using hother))

/-! ## §3 The nodes inside groups -/

section

variable {link : Link}

theorem groups_relink_asBypassed (n : Node) :
    (n.asBypassed.relink link).groups.map inner = (n.relink link).groups.map inner := by
  unfold asBypassed
  split
  · rfl
  · cases n with
    | operation c op => rfl
    | group c nodes => rfl
    | reference c t => simp only [withCommon, relink]; cases (link t).toOption.join <;> rfl
    | resolved c t header nodes =>
      simp only [withCommon, relink]
      cases (link t).toOption.join <;> rfl

theorem groupsAll_relink_asBypassed (ns : List Node) :
    (groupsAll (relinkAll link (ns.map asBypassed))).map inner =
      (groupsAll (relinkAll link ns)).map inner := by
  induction ns with
  | nil => rfl
  | cons n ns ih =>
    rw [List.map_cons, relinkAll, relinkAll, groupsAll, groupsAll, List.map_append,
      List.map_append, ih, groups_relink_asBypassed]

variable (link)

mutual
/-- Flattening keeps every group and flattens what is inside. There are more groups afterwards only
in the lists that a new lookup finds. -/
theorem groups_flatten : ∀ n : Node,
    (n.groups.map fun g => relinkAll link (flattenAll true g.inner)).Sublist
      ((groupsAll (relinkAll link (n.flatten true))).map inner)
  | .operation _ _ => .slnil
  | .reference _ _ => List.nil_sublist _
  | .group c nodes => by
    have hnodes := groups_flattenAll nodes
    rw [flatten, relinkAll, relinkAll, relink, groupsAll, groupsAll, List.append_nil, groups,
      groups, List.map_cons, List.map_cons]
    exact hnodes.cons_cons _
  | .resolved c t header nodes => by
    have hnodes := groups_flattenAll nodes
    rw [flatten, groups]
    cases c.bypass.getD false with
    | false => exact hnodes
    | true =>
      -- The flag is set on the nodes in place of the reference, not on those inside their groups.
      show List.Sublist _
        ((groupsAll (relinkAll link ((flattenAll true nodes).map asBypassed))).map inner)
      rw [groupsAll_relink_asBypassed]
      exact hnodes
termination_by structural n => n

@[inherit_doc groups_flatten]
theorem groups_flattenAll : ∀ ns : List Node,
    ((groupsAll ns).map fun g => relinkAll link (flattenAll true g.inner)).Sublist
      ((groupsAll (relinkAll link (flattenAll true ns))).map inner)
  | [] => .slnil
  | n :: ns => by
    rw [flattenAll, relinkAll_append, groupsAll_append, groupsAll, List.map_append,
      List.map_append]
    exact (groups_flatten n).append (groups_flattenAll ns)
termination_by structural ns => ns
end

end

/-! ## §4 Written elements -/

section

variable {options : ReadOptions} {kind : NodeKind} {c : NodeCommon}
  {own : List (String × String)} {payload : List Element}

theorem spelled_element (hc : c.ReadableAs options kind)
    (hown : NodeCommon.Separate kind.ownAttributes own) :
    c.Spelled kind.ownAttributes own (c.element kind own payload).attributes :=
  NodeCommon.spelled_written hc.common hown

theorem writable_element (hc : c.ReadableAs options kind)
    (hown : NodeCommon.Separate kind.ownAttributes own)
    (hpayload : ∀ child ∈ payload, child.Writable) : (c.element kind own payload).Writable := by
  refine Element.writable_iff.mpr ⟨kind.isName_elementName,
    NodeCommon.writable_attributes hc.common hown, fun child hchild => ?_⟩
  rcases List.mem_append.mp hchild with hchild | hchild
  · exact NodeCommon.writable_writeChildren hc.common child hchild
  · exact hpayload child hchild

end

theorem separate_nil : NodeCommon.Separate [] [] :=
  ⟨by simp, by simp, List.nodup_nil, List.Sublist.refl _⟩

section

variable {options : ReadOptions} {selfContained : Bool}

theorem describedBy_writeOperation {c : NodeCommon} {op : Operation}
    (hc : c.ReadableAs options op.kind) : DescribedBy (.operation c op) (op.write c) := by
  rw [Operation.write_eq]
  by_cases hkind : op.kind = .colorCorrection
  · rw [if_pos hkind]
    exact ⟨rfl, fun hop => absurd hkind hop, rfl⟩
  · rw [if_neg hkind]
    exact ⟨rfl, fun _ => spelled_element hc (Operation.separate_writeParams hkind), rfl⟩

theorem writable_writeOperation {c : NodeCommon} {op : Operation}
    (hc : c.ReadableAs options op.kind) : (op.write c).Writable := by
  rw [Operation.write_eq]
  by_cases hkind : op.kind = .colorCorrection
  · rw [if_pos hkind]
    refine Element.writable_iff.mpr ⟨NodeKind.isName_elementName _, by simp,
      fun child hchild => ?_⟩
    rcases List.mem_append.mp hchild with hchild | hchild
    · exact NodeCommon.writable_writeChildren hc.common child hchild
    · exact op.writable_writeParams child hchild
  · rw [if_neg hkind]
    exact writable_element hc (Operation.separate_writeParams hkind) op.writable_writeParams

mutual
/-- The elements that are written for a node describe the nodes in its place. -/
theorem describedByAll_write : ∀ n : Node, n.Readable options selfContained →
    List.Forall₂ DescribedBy (n.flatten selfContained) (n.write selfContained)
  | .operation c op, hn => .cons (describedBy_writeOperation hn.1) .nil
  | .group c nodes, hn => by
    refine .cons ⟨rfl, spelled_element hn.1 separate_nil, _, rfl, ?_⟩ .nil
    exact describedByAll_iff.mpr (describedByAll_writeAll nodes hn.2)
  | .reference c t, hn =>
    .cons ⟨rfl, spelled_element hn (Target.orderly.separate t), List.append_nil _⟩ .nil
  | .resolved c t header nodes, hn => by
    have hinlined := fun hself => describedByAll_writeAll nodes (hn.2 hself)
    rw [flatten, Node.write]
    cases selfContained with
    | false =>
      exact .cons ⟨rfl, spelled_element hn.1 (Target.orderly.separate t), List.append_nil _⟩ .nil
    | true =>
      -- A bypass is set on the nodes and on their elements alike.
      cases c.bypass.getD false with
      | false => exact hinlined rfl
      | true =>
        exact List.forall₂_map_left_iff.mpr (List.forall₂_map_right_iff.mpr
          ((hinlined rfl).imp fun _ _ h => describedBy_bypassed h))
termination_by structural n => n

/-- The same of a list of nodes. -/
theorem describedByAll_writeAll : ∀ ns : List Node, ReadableAll options selfContained ns →
    List.Forall₂ DescribedBy (flattenAll selfContained ns) (writeAll selfContained ns)
  | [], _ => .nil
  | n :: ns, hns =>
    List.rel_append (describedByAll_write n hns.1) (describedByAll_writeAll ns hns.2)
termination_by structural ns => ns
end

mutual
/-- The nodes in place of a readable node are readable. -/
theorem readable_flatten : ∀ n : Node, n.Readable options selfContained →
    ∀ m ∈ n.flatten selfContained, m.Readable options selfContained
  | .operation c op, hn, m, hm => by
    rw [List.mem_singleton.mp hm]
    exact hn
  | .group c nodes, hn, m, hm => by
    rw [List.mem_singleton.mp hm]
    exact ⟨hn.1, readableAll_iff.mpr (readable_flattenAll nodes hn.2)⟩
  | .reference c t, hn, m, hm => by
    rw [List.mem_singleton.mp hm]
    exact hn
  | .resolved c t header nodes, hn, m, hm => by
    have hinlined := fun hself => readable_flattenAll nodes (hn.2 hself)
    rw [flatten] at hm
    cases selfContained with
    | false =>
      rw [List.mem_singleton.mp hm]
      exact hn
    | true =>
      -- What takes the place of a bypassed reference is bypassed too.
      cases hbypass : c.bypass.getD false with
      | false =>
        rw [hbypass] at hm
        exact hinlined rfl m hm
      | true =>
        rw [hbypass] at hm
        obtain ⟨m, hmem, rfl⟩ := List.mem_map.mp hm
        exact readable_asBypassed (hinlined rfl m hmem)
termination_by structural n => n

/-- The same of a list of nodes. -/
theorem readable_flattenAll : ∀ ns : List Node, ReadableAll options selfContained ns →
    ∀ m ∈ flattenAll selfContained ns, m.Readable options selfContained
  | [], _, m, hm => absurd hm List.not_mem_nil
  | n :: ns, hns, m, hm => by
    rcases List.mem_append.mp hm with hm | hm
    · exact readable_flatten n hns.1 m hm
    · exact readable_flattenAll ns hns.2 m hm
termination_by structural ns => ns
end

mutual
/-- The elements that are written for a readable node can be parsed again. -/
theorem writable_write : ∀ n : Node, n.Readable options selfContained →
    ∀ e ∈ n.write selfContained, e.Writable
  | .operation c op, hn, e, he => by
    rw [List.mem_singleton.mp he]
    exact writable_writeOperation hn.1
  | .group c nodes, hn, e, he => by
    rw [List.mem_singleton.mp he]
    exact writable_element hn.1 separate_nil (writable_writeAll nodes hn.2)
  | .reference c t, hn, e, he => by
    rw [List.mem_singleton.mp he]
    exact writable_element hn (Target.orderly.separate t) (by simp)
  | .resolved c t header nodes, hn, e, he => by
    have hinlined := fun hself => writable_writeAll nodes (hn.2 hself)
    rw [Node.write] at he
    cases selfContained with
    | false =>
      rw [List.mem_singleton.mp he]
      exact writable_element hn.1 (Target.orderly.separate t) (by simp)
    | true =>
      -- The bypass of the reference is set on each element in its place.
      cases hbypass : c.bypass.getD false with
      | false =>
        rw [hbypass] at he
        exact hinlined rfl e he
      | true =>
        rw [hbypass] at he
        obtain ⟨e, hmem, rfl⟩ := List.mem_map.mp he
        exact writable_bypassed (hinlined rfl e hmem)
termination_by structural n => n

/-- The same of a list of nodes. -/
theorem writable_writeAll : ∀ ns : List Node, ReadableAll options selfContained ns →
    ∀ e ∈ writeAll selfContained ns, e.Writable
  | [], _, e, he => absurd he List.not_mem_nil
  | n :: ns, hns, e, he => by
    rcases List.mem_append.mp he with he | he
    · exact writable_write n hns.1 e he
    · exact writable_writeAll ns hns.2 e he
termination_by structural ns => ns
end

/-! ## §5 Reading back -/

/-- What is written for a node is read back as nodes that are like those in its place. -/
theorem readBack_write {link : Link} {n : Node} (hn : n.Readable options selfContained)
    (hanswered : AnsweredAll link (n.flatten selfContained)) :
    ∃ ns', List.Forall₂ (fun e m => Node.read link options e.trimmed = .ok (some m))
        (n.write selfContained) ns' ∧
      AlikeAll (relinkAll link (n.flatten selfContained)) ns' := by
  have hflat := readableAll_iff.mpr (readable_flatten n hn)
  exact ⟨_, readAll_described _ _ hflat hanswered
    (describedByAll_iff.mpr (describedByAll_write n hn)), alikeAll_reread _ hflat⟩

/-- Written nodes are read back as the flattened ones, their references looked up and their arrays
reread. -/
theorem readAll_writeAll {link : Link} {ns : List Node}
    (hns : ReadableAll options selfContained ns)
    (hanswered : AnsweredAll link (flattenAll selfContained ns)) :
    List.Forall₂ (fun e n => Node.read link options e.trimmed = .ok (some n))
      (writeAll selfContained ns) (rereadAll (relinkAll link (flattenAll selfContained ns))) :=
  readAll_described _ _ (readableAll_iff.mpr (readable_flattenAll ns hns)) hanswered
    (describedByAll_iff.mpr (describedByAll_writeAll ns hns))

/-- Written nodes are read back as nodes that are like the flattened ones. -/
theorem readBack_writeAll {link : Link} {ns : List Node}
    (hns : ReadableAll options selfContained ns)
    (hanswered : AnsweredAll link (flattenAll selfContained ns)) :
    ∃ ns', List.Forall₂ (fun e n => Node.read link options e.trimmed = .ok (some n))
        (writeAll selfContained ns) ns' ∧
      AlikeAll (relinkAll link (flattenAll selfContained ns)) ns' :=
  ⟨_, readAll_writeAll hns hanswered,
    alikeAll_reread _ (readableAll_iff.mpr (readable_flattenAll ns hns))⟩

/-- Written nodes are read back only where the lookups of the references in them are answered. -/
theorem answeredAll_of_readBack {link : Link} {ns : List Node}
    (hns : ReadableAll options selfContained ns)
    (h : ∀ e ∈ writeAll selfContained ns, ∃ result, Node.read link options e.trimmed = .ok result) :
    AnsweredAll link (flattenAll selfContained ns) :=
  answeredAll_of_read _ _ (readableAll_iff.mpr (readable_flattenAll ns hns))
    (describedByAll_iff.mpr (describedByAll_writeAll ns hns)) h

end

end Node

end CommonLut
