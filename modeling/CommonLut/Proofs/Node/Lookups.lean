import CommonLut.Proofs.Node.Profiles
import CommonLut.Proofs.Node.Reading
import CommonLut.Proofs.Operator.Errors

/-!
# Lookups made while nodes are read

An element refers to targets by itself, if it is a reference, or by the elements in it, if it is a
group. These are the targets that reading it looks up, and no others. So an error is a fault of the
document or one that a lookup of such a target ends with, and two runs whose lookups stay together
stay together themselves.

Main definitions: `Element.RefersTo`, `Node.Embeds`.
Main statements: `Node.read_induction`, `Node.link_of_embeds`, `Node.failsWith_read`,
`Node.tracks_read`.
-/

namespace CommonLut

/-! ## §1 Targets of an element -/

namespace Element

mutual
/-- What holds of an element when it holds of its children holds of every element. -/
theorem induction {motive : Element → Prop}
    (h : ∀ e, (∀ child ∈ e.children, motive child) → motive e) : ∀ e : Element, motive e
  | ⟨_, _, _, children⟩ => h _ (inductionAll h children)
termination_by structural e => e

@[inherit_doc induction]
theorem inductionAll {motive : Element → Prop}
    (h : ∀ e, (∀ child ∈ e.children, motive child) → motive e) :
    ∀ es : List Element, ∀ e ∈ es, motive e
  | [], _, he => absurd he List.not_mem_nil
  | e :: es, e', he' => by
    have hhead := induction h e
    have htail := inductionAll h es
    rcases List.mem_cons.mp he' with heq | hmem
    · rw [heq]
      exact hhead
    · exact htail e' hmem
termination_by structural es => es
end

/-- An element is a reference to a target, or a group with such a reference at some depth. -/
inductive RefersTo : Element → Target → Prop
  | reference {e : Element} {path : String} (hname : e.name = NodeKind.reference.elementName)
      (hpath : e.attribute? "path" = some path) :
      RefersTo e { path, basePath := e.attribute? "basePath" }
  | group {e child : Element} {t : Target} (hname : e.name = NodeKind.group.elementName)
      (hchild : child ∈ e.children) (h : RefersTo child t) : RefersTo e t

end Element

/-- The name of an element that is read as a node of a kind. -/
theorem NodeKind.name_of_ofElementName? {name : String} {kind : NodeKind}
    (h : ofElementName? name = some kind) : name = kind.elementName := by
  have hfound := List.find?_some h
  exact (beq_iff_eq.mp hfound).symm

/-- The target of a reference is what its attributes say. -/
theorem Element.refersTo_of_read {options : ReadOptions} {e : Element} {c : NodeCommon} {t : Target}
    (hname : e.name = NodeKind.reference.elementName)
    (h : Target.schema.read options e = .ok (c, t)) : e.RefersTo t := by
  have hstart : ∀ t, Target.schema.readAttributes options e = .ok t → e.RefersTo t := by
    intro t ht
    obtain ⟨path, hpath, ht⟩ := bind_eq_ok.mp ht
    cases ht
    unfold Element.requiredAttribute at hpath
    split at hpath
    · next value hvalue =>
      cases hpath
      exact .reference hname hvalue
    · cases hpath
  -- No child of a reference belongs to its target, so the children keep it.
  obtain ⟨-, t', hrefers, hfinish⟩ := Schema.read_invariant (J := fun _ => True) (I := e.RefersTo)
    (fun _ _ => trivial) hstart (fun _ _ _ _ h => by cases h) (fun _ _ _ _ _ => trivial) h
  cases hfinish
  exact hrefers

/-! ## §2 Nodes that are read -/

namespace Node

section

variable {link : Link} {options : ReadOptions}

/-- The nodes of a group are read from its children. -/
theorem exists_of_mem_readInside {es : List Element} {c c' : NodeCommon} {nodes : List Node}
    (h : readInside link options c es = .ok (c', nodes)) :
    ∀ n ∈ nodes, ∃ e ∈ es, Node.read link options e = .ok (some n) := by
  induction es generalizing c nodes with
  | nil =>
    cases h
    exact fun n hn => absurd hn List.not_mem_nil
  | cons e es ih =>
    rcases readInside_cons h with ⟨n, ns, hread, hinside, rfl⟩ | ⟨next, -, -, hinside⟩
    · refine List.forall_mem_cons.mpr ⟨⟨e, List.mem_cons_self, hread⟩, fun m hm => ?_⟩
      obtain ⟨e', he', hread'⟩ := ih hinside m hm
      exact ⟨e', List.mem_cons_of_mem e he', hread'⟩
    · intro m hm
      obtain ⟨e', he', hread'⟩ := ih hinside m hm
      exact ⟨e', List.mem_cons_of_mem e he', hread'⟩

/-- An element of a kind with a single operation is read as one. -/
theorem exists_operation_of_readNode {kind : NodeKind} (hgroup : kind ≠ .group)
    (hreference : kind ≠ .reference) {e : Element} {n : Node}
    (h : kind.readNode link options e = .ok n) : ∃ c op, n = .operation c op := by
  cases kind with
  | group => exact absurd rfl hgroup
  | reference => exact absurd rfl hreference
  | _ =>
    obtain ⟨⟨c, p⟩, -, h⟩ := bind_eq_ok.mp h
    cases h
    exact ⟨c, _, rfl⟩

/-- What holds of operations and references as they are read, and of a group when it holds of the
nodes in it, holds of every node that is read. -/
theorem read_induction {motive : Node → Prop}
    (operation : ∀ (kind : NodeKind) e c op, kind.require options = .ok () →
      kind.readNode link options e = .ok (.operation c op) → motive (.operation c op))
    (reference : ∀ e c t list?, NodeKind.reference.require options = .ok () →
      Target.schema.read options e = .ok (c, t) → link t = .ok list? → motive (ofTarget c t list?))
    (group : ∀ e c₀ c nodes, NodeKind.group.require options = .ok () →
      NodeCommon.readAttributes e [] = .ok c₀ →
      readInside link options c₀ e.children = .ok (c, nodes) → (∀ n ∈ nodes, motive n) →
      motive (.group c nodes)) {e : Element} {n : Node}
    (h : Node.read link options e = .ok (some n)) : motive n := by
  induction e using Element.induction generalizing n with
  | h e ih =>
    rcases read_eq_ok h with ⟨-, hnone⟩ | ⟨kind, n', hname, hrequire, hread, hsome⟩
    · cases hnone
    cases hsome
    -- Groups alone have elements of nodes inside, to which the induction goes on.
    by_cases hgroup : kind = .group
    · subst hgroup
      obtain ⟨c₀, c, nodes, hattributes, hinside, rfl⟩ := exists_of_readNode_group hread
      refine group e c₀ c nodes hrequire hattributes hinside fun m hm => ?_
      obtain ⟨child, hchild, hm⟩ := exists_of_mem_readInside hinside m hm
      exact ih child hchild hm
    by_cases hreference : kind = .reference
    · subst hreference
      obtain ⟨c, t, list?, htarget, hlist, rfl⟩ := exists_of_readReference hread
      exact reference e c t list? hrequire htarget hlist
    obtain ⟨c, op, rfl⟩ := exists_operation_of_readNode hgroup hreference hread
    exact operation kind e c op hrequire hread

end

/-- Among some nodes, or in a group among them, is a reference that is resolved to a list. -/
inductive Embeds (t : Target) (list : ProcessList) : List Node → Prop
  | here {ns : List Node} {c : NodeCommon} (h : .resolved c t list.header list.nodes ∈ ns) :
      Embeds t list ns
  | inside {ns nodes : List Node} {c : NodeCommon} (hgroup : .group c nodes ∈ ns)
      (h : Embeds t list nodes) : Embeds t list ns

theorem Embeds.exists_mem {t : Target} {list : ProcessList} {ns : List Node}
    (h : Embeds t list ns) : ∃ n ∈ ns, Embeds t list [n] := by
  cases h with
  | here h => exact ⟨_, h, .here List.mem_cons_self⟩
  | inside hgroup h => exact ⟨_, hgroup, .inside List.mem_cons_self h⟩

theorem Embeds.of_singleton {t : Target} {list : ProcessList} {n : Node} (h : Embeds t list [n]) :
    (∃ c, n = .resolved c t list.header list.nodes) ∨
      ∃ c nodes, n = .group c nodes ∧ Embeds t list nodes := by
  cases h with
  | here h => exact .inl ⟨_, (List.mem_singleton.mp h).symm⟩
  | inside hgroup h => exact .inr ⟨_, _, (List.mem_singleton.mp hgroup).symm, h⟩

/-- Every list that is embedded in a node is what the lookup gave for the target. -/
theorem link_of_embeds {link : Link} {options : ReadOptions} {e : Element} {n : Node}
    (h : Node.read link options e = .ok (some n)) {t : Target} {list : ProcessList}
    (hlist : Embeds t list [n]) : link t = .ok (some list) := by
  refine read_induction (motive := fun n => Embeds t list [n] → link t = .ok (some list))
    ?operation ?reference ?group h hlist
  case operation =>
    rintro kind e c op - - hlist
    rcases hlist.of_singleton with ⟨c, heq⟩ | ⟨c, nodes, heq, -⟩ <;> cases heq
  case reference =>
    -- Nothing inside a list that was looked up counts, so it is this list itself.
    rintro e c t' list? - - hlink hlist
    obtain ⟨header, nodes⟩ := list
    rcases hlist.of_singleton with ⟨c, heq⟩ | ⟨c, nodes, heq, -⟩
    · rcases list? with - | ⟨header', nodes'⟩
      · cases heq
      · cases heq
        exact hlink
    · cases list? <;> cases heq
  case group =>
    rintro e c₀ c nodes - - - ih hlist
    rcases hlist.of_singleton with ⟨c, heq⟩ | ⟨c, nodes, heq, hinside⟩
    · cases heq
    · cases heq
      obtain ⟨m, hm, hlist⟩ := hinside.exists_mem
      exact ih m hm hlist

/-! ## §3 Errors of reading -/

section

variable {link : Link} {options : ReadOptions} {errors : Error → Prop}

theorem local_readNode {kind : NodeKind} (hgroup : kind ≠ .group) (hreference : kind ≠ .reference)
    (e : Element) : FailsWith Error.Local (kind.readNode link options e) := by
  cases kind with
  | group => exact absurd rfl hgroup
  | reference => exact absurd rfl hreference
  | matrix => exact Matrix.failsLocally.readOperation .matrix options e
  | range => exact Range.failsLocally.readOperation .range options e
  | cdl => exact Cdl.failsLocally.readOperation .cdl options e
  | lut1D => exact Lut1D.failsLocally.readOperation .lut1D options e
  | lut3D => exact Lut3D.failsLocally.readOperation .lut3D options e
  | log => exact LogCurve.failsLocally.readOperation .log options e
  | gamma => exact GammaCurve.failsLocally.readOperation .gamma options e
  | exposureContrast =>
    exact ExposureContrast.failsLocally.readOperation .exposureContrast options e
  | colorCorrection =>
    exact (Cdl.failsLocally.readChildren options e {} Cdl.identity).bind fun _ _ => .ok _

theorem local_require (kind : NodeKind) : FailsWith Error.Local (kind.require options) := by
  unfold NodeKind.require
  split
  · exact options.local_require _ _
  · exact .ok ()

/-- The children of a group fail as they do one by one. -/
theorem failsWith_readInside (hlocal : ∀ e, e.Local → errors e) {es : List Element}
    (h : ∀ e ∈ es, FailsWith errors (Node.read link options e)) (c : NodeCommon) :
    FailsWith errors (readInside link options c es) := by
  induction es generalizing c with
  | nil => exact .ok _
  | cons e es ih =>
    have hrest := ih fun e' he' => h e' (List.mem_cons_of_mem e he')
    rw [readInside]
    refine (h e List.mem_cons_self).bind fun result _ => ?_
    cases result with
    | some n => exact (hrest c).bind fun _ _ => .ok _
    | none => exact ((c.local_readChild options e).mono hlocal).bind fun next _ => hrest next

/-- Reading a node ends with a fault of the element or with an error of looking up one of its
targets. -/
theorem failsWith_read (hlocal : ∀ e, e.Local → errors e) (e : Element)
    (hlink : ∀ t, e.RefersTo t → FailsWith errors (link t)) :
    FailsWith errors (Node.read link options e) := by
  induction e using Element.induction with
  | h e ih =>
    cases hkind : NodeKind.ofElementName? e.name with
    | none =>
      rw [read_eq_none hkind]
      exact .ok none
    | some kind =>
      have hname := NodeKind.name_of_ofElementName? hkind
      rw [read_eq_of_kind hkind]
      refine ((local_require kind).mono hlocal).bind fun _ _ => ?_
      refine FailsWith.bind ?_ fun n _ => .ok (some n)
      by_cases hgroup : kind = .group
      · subst hgroup
        -- What a child of a group refers to, the group refers to.
        have hchildren : ∀ child ∈ e.children, FailsWith errors (Node.read link options child) :=
          fun child hchild => ih child hchild fun t ht => hlink t (.group hname hchild ht)
        refine ((NodeCommon.local_readAttributes e []).mono hlocal).bind fun c _ => ?_
        exact (failsWith_readInside hlocal hchildren c).bind fun _ _ => .ok _
      by_cases hreference : kind = .reference
      · subst hreference
        refine ((Target.failsLocally.read options e).mono hlocal).bind fun ⟨c, t⟩ hread => ?_
        exact (hlink t (e.refersTo_of_read hname hread)).bind fun _ _ => .ok _
      exact (local_readNode hgroup hreference e).mono hlocal

end

/-! ## §4 Two runs compared -/

section

variable {stops : Error → Prop} {link link' : Link} {options options' : ReadOptions}
  {R : Node → Node → Prop}

/-- The children of a group keep two runs together if they do so one by one. -/
theorem tracks_readInside (hoptions : options.TrackedBy stops options') {es : List Element}
    (h : ∀ e ∈ es,
      Tracks stops (Option.Rel R) (Node.read link options e) (Node.read link' options' e))
    (c : NodeCommon) :
    Tracks stops (fun r r' => r.1 = r'.1 ∧ List.Forall₂ R r.2 r'.2)
      (readInside link options c es) (readInside link' options' c es) := by
  induction es generalizing c with
  | nil => exact .ok ⟨rfl, .nil⟩
  | cons e es ih =>
    have hrest := ih fun e' he' => h e' (List.mem_cons_of_mem e he')
    rw [readInside, readInside]
    refine (h e List.mem_cons_self).bind fun result result' _ hresult => ?_
    cases hresult with
    | some hn =>
      refine (hrest c).bind fun r r' _ hr => ?_
      exact .ok ⟨hr.1, .cons hn hr.2⟩
    | none => exact (NodeCommon.tracks_readChild hoptions c e).bind_eq fun next => hrest next

/-- Two runs over an element stay together as long as the lookups of its targets do. The relation of
the nodes has to hold of equal operations, and of groups of related nodes. -/
theorem tracks_read (hoptions : options.TrackedBy stops options')
    (hoperation : ∀ c op, R (.operation c op) (.operation c op))
    (hgroup : ∀ c ns ns', List.Forall₂ R ns ns' → R (.group c ns) (.group c ns')) (e : Element)
    (hlink : ∀ t, e.RefersTo t → ∀ c,
      Tracks stops (fun list? list?' => R (ofTarget c t list?) (ofTarget c t list?')) (link t)
        (link' t)) :
    Tracks stops (Option.Rel R) (Node.read link options e) (Node.read link' options' e) := by
  induction e using Element.induction with
  | h e ih =>
    cases hkind : NodeKind.ofElementName? e.name with
    | none =>
      rw [read_eq_none hkind, read_eq_none hkind]
      exact .ok .none
    | some kind =>
      have hname := NodeKind.name_of_ofElementName? hkind
      rw [read_eq_of_kind hkind, read_eq_of_kind hkind]
      refine (NodeKind.tracks_require hoptions kind).bind_eq fun _ => ?_
      suffices hnode : Tracks stops R (kind.readNode link options e) (kind.readNode link' options' e)
        from hnode.bind fun n n' _ hn => .ok (.some hn)
      by_cases hkindGroup : kind = .group
      · subst hkindGroup
        -- What a child of a group refers to, the group refers to.
        have hchildren : ∀ child ∈ e.children, Tracks stops (Option.Rel R)
            (Node.read link options child) (Node.read link' options' child) :=
          fun child hchild => ih child hchild fun t ht => hlink t (.group hname hchild ht)
        refine (Tracks.refl (NodeCommon.readAttributes e [])).bind_eq fun c => ?_
        refine (tracks_readInside hoptions hchildren c).bind fun r r' _ hr => ?_
        obtain ⟨c, ns⟩ := r
        obtain ⟨c', ns'⟩ := r'
        obtain ⟨rfl, hns⟩ := hr
        exact .ok (hgroup c ns ns' hns)
      by_cases hkindReference : kind = .reference
      · subst hkindReference
        have htarget : Target.schema.TrackedBy stops options options' :=
          Schema.trackedBy_of_fixed (fun _ => rfl) fun _ _ => rfl
        refine (Schema.tracks_read hoptions htarget e).bind fun ⟨c, t⟩ r' hread heq => ?_
        subst heq
        refine (hlink t (e.refersTo_of_read hname hread) c).bind fun list? list?' _ hlist => ?_
        exact .ok hlist
      -- Of the other kinds both runs read the very same operation.
      refine (NodeKind.tracks_readNode hoptions hkindGroup hkindReference link link' e).mono
        fun n n' hread heq => ?_
      obtain ⟨c, op, rfl⟩ := exists_operation_of_readNode hkindGroup hkindReference hread
      subst heq
      exact hoperation c op

end

end Node

end CommonLut
