import CommonLut.Proofs.Node.Flatten

/-!
# Process lists read back

The header of a list is read back as it was, and its nodes as nodes that are like the flattened
ones.

Main definitions: `ListHeader.Readable`, `ProcessList.Readable`.
Main statements: `ProcessList.readable_of_read`, `ProcessList.read_written`,
`ProcessList.writable_write`.
-/

namespace CommonLut

open ProcessList (ownAttributes metadataNames)

/-! ## §1 What reading gives -/

/-- A header as it is read from a root element. -/
structure ListHeader.Readable (h : ListHeader) : Prop where
  elements : ∀ d ∈ h.elements, metadataNames.contains d.name = true ∧ d.Parsed
  values : ∀ v ∈ h.values, (NodeKind.ofElementName? v.1 = none ∧
    metadataNames.contains v.1 = false) ∧ IsName v.1 ∧ Text.trim v.2 = v.2
  extra : ∀ a ∈ h.extra, a.1 ∉ ownAttributes ∧ IsName a.1
  distinct : (h.extra.map Prod.fst).Nodup

/-- A list as it is read from a root element, with the nodes of its references or without. -/
structure ProcessList.Readable (options : ReadOptions) (selfContained : Bool) (l : ProcessList) :
    Prop where
  header : l.header.Readable
  nodes : Node.ReadableAll options selfContained l.nodes

theorem ofElementName?_of_metadata {name : String} (h : metadataNames.contains name = true) :
    NodeKind.ofElementName? name = none := by
  have hall : ∀ name ∈ metadataNames, NodeKind.ofElementName? name = none := by decide
  exact hall name (List.contains_iff_mem.mp h)

namespace ProcessList

section

variable {link : Link} {options : ReadOptions} {selfContained : Bool}

/-- A child is a node, a part of the header, or skipped. -/
theorem readChild_eq_ok {l l' : ProcessList} {child : Element}
    (h : readChild link options l child = .ok l') :
    (∃ n, Node.read link options child = .ok (some n) ∧ l' = { l with nodes := l.nodes ++ [n] }) ∨
      NodeKind.ofElementName? child.name = none ∧
        ((metadataNames.contains child.name = true ∧
          l' = { l with header.elements := l.header.elements ++ [child] }) ∨
        (metadataNames.contains child.name = false ∧
          l' = { l with header.values := l.header.values ++ [(child.name, child.text)] }) ∨
        l' = l) := by
  obtain ⟨result, hread, h⟩ := bind_eq_ok.mp h
  cases result with
  | some n =>
    cases h
    exact .inl ⟨n, hread, rfl⟩
  | none =>
    refine .inr ⟨Node.ofElementName?_of_read_none hread, ?_⟩
    dsimp only at h
    split at h
    · next hmetadata =>
      cases h
      exact .inl ⟨hmetadata, rfl⟩
    · next hmetadata =>
      split at h
      · cases h
        exact .inr (.inl ⟨by simpa using hmetadata, rfl⟩)
      · cases h
        exact .inr (.inr rfl)

theorem readable_of_readChild (hlink : Node.LooksUpReadable options selfContained link)
    {l l' : ProcessList} (hl : l.Readable options selfContained) {child : Element}
    (hchild : child.Parsed) (h : readChild link options l child = .ok l') :
    l'.Readable options selfContained := by
  obtain ⟨hname, -, htext, -⟩ := Element.parsed_iff.mp hchild
  rcases readChild_eq_ok h with ⟨n, hread, rfl⟩ | ⟨hkind, ⟨hmetadata, rfl⟩ |
    ⟨hmetadata, rfl⟩ | rfl⟩
  · refine ⟨hl.header, Node.readableAll_iff.mpr (List.forall_mem_append.mpr
      ⟨Node.readableAll_iff.mp hl.nodes, List.forall_mem_singleton.mpr ?_⟩)⟩
    exact Node.readable_of_read hlink child n hchild hread
  · exact ⟨{ hl.header with
      elements := List.forall_mem_append.mpr
        ⟨hl.header.elements, List.forall_mem_singleton.mpr ⟨hmetadata, hchild⟩⟩ }, hl.nodes⟩
  · exact ⟨{ hl.header with
      values := List.forall_mem_append.mpr ⟨hl.header.values,
        List.forall_mem_singleton.mpr ⟨⟨hkind, hmetadata⟩, hname, htext⟩⟩ }, hl.nodes⟩
  · exact hl

theorem linkedBy_of_readChild {l l' : ProcessList} (hl : Node.LinkedByAll link l.nodes)
    {child : Element} (hchild : child.Parsed) (h : readChild link options l child = .ok l') :
    Node.LinkedByAll link l'.nodes := by
  rcases readChild_eq_ok h with ⟨n, hread, rfl⟩ | ⟨-, ⟨-, rfl⟩ | ⟨-, rfl⟩ | rfl⟩
  · refine Node.linkedByAll_iff.mpr (List.forall_mem_append.mpr
      ⟨Node.linkedByAll_iff.mp hl, List.forall_mem_singleton.mpr ?_⟩)
    exact Node.linkedBy_of_read child n hchild hread
  · exact hl
  · exact hl
  · exact hl

/-- The header that the attributes of a root element give. -/
def attributesHeader (e : Element) (id : String) : ListHeader :=
  { id
    name := e.attribute? "name"
    inverseOf := e.attribute? "inverseOf"
    version := e.attribute? "compCLFversion"
    extra := e.attributes.filter fun a => !ownAttributes.contains a.1 }

theorem read_eq_ok {e : Element} {l : ProcessList} :
    read link options e = .ok l ↔
      e.name = "ProcessList" ∧ ∃ id, e.requiredAttribute "id" = .ok id ∧
        e.children.foldlM (readChild link options) { header := attributesHeader e id } = .ok l := by
  unfold read
  constructor
  · intro h
    split at h
    · cases h
    · next hname =>
      obtain ⟨id, hid, h⟩ := bind_eq_ok.mp h
      exact ⟨Decidable.not_not.mp hname, id, hid, h⟩
  · rintro ⟨hname, id, hid, h⟩
    rw [if_neg (not_not_intro hname)]
    exact bind_eq_ok.mpr ⟨id, hid, h⟩

/-- The children of a root element are read one by one, as nodes or as none. -/
theorem exists_read_of_read {e : Element} {l : ProcessList} (h : read link options e = .ok l) :
    ∀ child ∈ e.children, ∃ result, Node.read link options child = .ok result := by
  obtain ⟨-, id, -, hfold⟩ := read_eq_ok.mp h
  intro child hchild
  obtain ⟨before, after, hstep⟩ := exists_of_foldlM_ok hfold child hchild
  obtain ⟨result, hresult, -⟩ := bind_eq_ok.mp hstep
  exact ⟨result, hresult⟩

theorem readable_of_read (hlink : Node.LooksUpReadable options selfContained link) {e : Element}
    (he : e.Parsed) {l : ProcessList} (h : read link options e = .ok l) :
    l.Readable options selfContained := by
  obtain ⟨-, ⟨hnames, hnodup⟩, -, hchildren⟩ := Element.parsed_iff.mp he
  obtain ⟨-, id, -, hfold⟩ := read_eq_ok.mp h
  -- The attributes without a field of their own are kept, with the names that they had.
  have hheader : (attributesHeader e id).Readable := by
    refine ⟨by simp [attributesHeader], by simp [attributesHeader], fun a ha => ?_,
      hnodup.sublist (List.filter_sublist.map Prod.fst)⟩
    obtain ⟨hmem, hunknown⟩ := List.mem_filter.mp ha
    exact ⟨by simpa using hunknown, hnames a hmem⟩
  have hstart : Readable options selfContained { header := attributesHeader e id } :=
    ⟨hheader, show Node.ReadableAll options selfContained [] from trivial⟩
  exact foldlM_invariant (fun l l' child hchild hl hread =>
    readable_of_readChild hlink hl (hchildren child hchild) hread) hstart hfold

theorem linkedBy_of_read {e : Element} (he : e.Parsed) {l : ProcessList}
    (h : read link options e = .ok l) : Node.LinkedByAll link l.nodes := by
  obtain ⟨-, -, -, hchildren⟩ := Element.parsed_iff.mp he
  obtain ⟨-, id, -, hfold⟩ := read_eq_ok.mp h
  exact foldlM_invariant (P := fun l : ProcessList => Node.LinkedByAll link l.nodes)
    (fun l l' child hchild hl hread => linkedBy_of_readChild hl (hchildren child hchild) hread)
    (show Node.LinkedByAll link [] from trivial) hfold

end

end ProcessList

/-! ## §2 The header read back -/

namespace ListHeader

variable {h : ListHeader}

/-- A header as far as attributes give it. -/
def bare (h : ListHeader) : ListHeader :=
  { h with
    elements := []
    values := [] }

/-- The attributes with names of their own. -/
def knownAttributes (h : ListHeader) : List (String × String) :=
  ("id", h.id) :: NodeCommon.optionalAttribute "name" h.name ++
    NodeCommon.optionalAttribute "inverseOf" h.inverseOf ++
    NodeCommon.optionalAttribute "compCLFversion" h.version

theorem writeAttributes_eq (h : ListHeader) : h.writeAttributes = h.knownAttributes ++ h.extra :=
  rfl

theorem keys_knownAttributes (h : ListHeader) :
    (h.knownAttributes.map Prod.fst).Sublist ownAttributes := by
  obtain ⟨id, name, inverseOf, version, extra, elements, values⟩ := h
  cases name <;> cases inverseOf <;> cases version <;>
    simp [knownAttributes, NodeCommon.optionalAttribute, ownAttributes]

theorem lookupKey_writeAttributes (hh : h.Readable) {key : String} (hkey : key ∈ ownAttributes) :
    lookupKey h.writeAttributes key = lookupKey h.knownAttributes key := by
  have hextra : lookupKey h.extra key = none := lookupKey_eq_none fun a ha heq =>
    (hh.extra a ha).1 (heq ▸ hkey)
  rw [writeAttributes_eq, lookupKey_append, hextra, Option.or_none]

theorem attributesHeader_written (hh : h.Readable) {e : Element}
    (he : e.attributes = h.writeAttributes) : ProcessList.attributesHeader e h.id = h.bare := by
  have hname : e.attribute? "name" = h.name := by
    rw [Element.attribute?_eq, he, lookupKey_writeAttributes hh (by decide)]
    simp [knownAttributes]
  have hinverse : e.attribute? "inverseOf" = h.inverseOf := by
    rw [Element.attribute?_eq, he, lookupKey_writeAttributes hh (by decide)]
    simp [knownAttributes]
  have hversion : e.attribute? "compCLFversion" = h.version := by
    rw [Element.attribute?_eq, he, lookupKey_writeAttributes hh (by decide)]
    simp [knownAttributes]
  -- The filter takes the known attributes out again and leaves all the others in.
  have hextra : (e.attributes.filter fun a => !ownAttributes.contains a.1) = h.extra := by
    have hknown : (h.knownAttributes.filter fun a => !ownAttributes.contains a.1) = [] :=
      List.filter_eq_nil_iff.mpr fun a ha hunknown => by
        have hmem : a.1 ∈ ownAttributes :=
          (keys_knownAttributes h).subset (List.mem_map_of_mem (f := Prod.fst) ha)
        simp [hmem] at hunknown
    have hkept : (h.extra.filter fun a => !ownAttributes.contains a.1) = h.extra :=
      List.filter_eq_self.mpr fun a ha => by simpa using (hh.extra a ha).1
    rw [he, writeAttributes_eq, List.filter_append, hknown, hkept]
    rfl
  rw [ProcessList.attributesHeader, hname, hinverse, hversion, hextra]
  rfl

theorem writable_attributes (hh : h.Readable) :
    (∀ a ∈ h.writeAttributes, IsName a.1) ∧ (h.writeAttributes.map Prod.fst).Nodup := by
  have hnames : ∀ key ∈ ownAttributes, IsName key := by decide
  rw [writeAttributes_eq]
  constructor
  · intro a ha
    rcases List.mem_append.mp ha with ha | ha
    · exact hnames a.1 ((keys_knownAttributes h).subset (List.mem_map_of_mem ha))
    · exact (hh.extra a ha).2
  · rw [List.map_append]
    refine List.nodup_append.mpr ⟨List.Nodup.sublist (keys_knownAttributes h) (by decide),
      hh.distinct, fun key hkey other hother heq => ?_⟩
    obtain ⟨a, ha, rfl⟩ := List.mem_map.mp hother
    exact (hh.extra a ha).1 (heq ▸ (keys_knownAttributes h).subset hkey)

end ListHeader

/-! ## §3 Lists read back -/

namespace ProcessList

section

variable {link : Link} {options : ReadOptions} {selfContained : Bool}

theorem readChild_elements {ds : List Element}
    (hds : ∀ d ∈ ds, metadataNames.contains d.name = true ∧ d.Parsed) (l : ProcessList) :
    (ds.map Element.trimmed).foldlM (readChild link options) l =
      .ok { l with header.elements := l.header.elements ++ ds } := by
  induction ds generalizing l with
  | nil => simp [pure, Except.pure]
  | cons d ds ih =>
    obtain ⟨hmetadata, hparsed⟩ := hds d List.mem_cons_self
    have hread : readChild link options l d.trimmed =
        .ok { l with header.elements := l.header.elements ++ [d] } := by
      rw [hparsed.texts, readChild, Node.read_eq_none (ofElementName?_of_metadata hmetadata)]
      exact if_pos hmetadata
    rw [List.map_cons, List.foldlM_cons, hread]
    refine (ih (fun d' hd' => hds d' (List.mem_cons_of_mem d hd')) _).trans ?_
    simp

theorem readChild_values {vs : List (String × String)}
    (hvs : ∀ v ∈ vs, (NodeKind.ofElementName? v.1 = none ∧
      metadataNames.contains v.1 = false) ∧ IsName v.1 ∧ Text.trim v.2 = v.2) (l : ProcessList) :
    ((vs.map fun v => Element.leaf v.1 v.2).map Element.trimmed).foldlM (readChild link options) l =
      .ok { l with header.values := l.header.values ++ vs } := by
  induction vs generalizing l with
  | nil => simp [pure, Except.pure]
  | cons v vs ih =>
    obtain ⟨⟨hkind, hmetadata⟩, -, htext⟩ := hvs v List.mem_cons_self
    have hread : readChild link options l (Element.leaf v.1 v.2).trimmed =
        .ok { l with header.values := l.header.values ++ [v] } := by
      rw [Element.trimmed_leaf, htext, readChild,
        Node.read_eq_none (by rwa [Element.name_leaf])]
      exact if_neg (by rw [Element.name_leaf, hmetadata]; exact Bool.false_ne_true)
    rw [List.map_cons, List.map_cons, List.foldlM_cons, hread]
    refine (ih (fun v' hv' => hvs v' (List.mem_cons_of_mem v hv')) _).trans ?_
    simp

theorem readChild_nodes {es : List Element} {ns : List Node}
    (h : List.Forall₂ (fun e n => Node.read link options e = .ok (some n)) es ns)
    (l : ProcessList) :
    es.foldlM (readChild link options) l = .ok { l with nodes := l.nodes ++ ns } := by
  induction h generalizing l with
  | nil => simp [pure, Except.pure]
  | @cons e n es ns hread _ ih =>
    have hnext : readChild link options l e = .ok { l with nodes := l.nodes ++ [n] } := by
      rw [readChild, hread]
      rfl
    rw [List.foldlM_cons, hnext]
    refine (ih _).trans ?_
    simp

/-- The list of a root element whose children are all nodes. -/
theorem read_of_nodes {e : Element} (hname : e.name = "ProcessList") {id : String}
    (hid : e.requiredAttribute "id" = .ok id) {ns : List Node}
    (hnodes : List.Forall₂ (fun c n => Node.read link options c = .ok (some n)) e.children ns) :
    read link options e = .ok { header := attributesHeader e id, nodes := ns } :=
  read_eq_ok.mpr ⟨hname, id, hid, readChild_nodes hnodes _⟩

/-- A written list is read back with its header and with the nodes of its elements. -/
theorem read_written {l : ProcessList} (hl : l.Readable options selfContained) {ns : List Node}
    (hnodes : List.Forall₂ (fun e n => Node.read link options e.trimmed = .ok (some n))
      (Node.writeAll selfContained l.nodes) ns) :
    read link options (l.write selfContained).trimmed =
      .ok { header := l.header, nodes := ns } := by
  have hattributes : (l.write selfContained).trimmed.attributes = l.header.writeAttributes :=
    Element.attributes_trimmed _
  have hid : (l.write selfContained).trimmed.requiredAttribute "id" = .ok l.header.id := by
    refine Element.requiredAttribute_of_some ?_
    rw [Element.attribute?_eq, hattributes]
    exact lookupKey_cons _ _ _
  refine read_eq_ok.mpr ⟨Element.name_trimmed _, l.header.id, hid, ?_⟩
  rw [ListHeader.attributesHeader_written hl.header hattributes, Element.children_trimmed,
    ProcessList.write, List.map_append, List.map_append, List.append_assoc,
    foldlM_append_of_ok (readChild_elements hl.header.elements _),
    foldlM_append_of_ok (readChild_values hl.header.values _),
    readChild_nodes (List.forall₂_map_left_iff.mpr hnodes)]
  simp [ListHeader.bare]

/-- The root element of a list can be parsed again. -/
theorem writable_write {l : ProcessList} (hl : l.Readable options selfContained) :
    (l.write selfContained).Writable := by
  have hname : IsName "ProcessList" := by decide
  refine Element.writable_iff.mpr ⟨hname, ListHeader.writable_attributes hl.header,
    fun child hchild => ?_⟩
  simp only [ProcessList.write, List.mem_append, List.mem_map] at hchild
  rcases hchild with (hchild | ⟨v, hv, rfl⟩) | hchild
  · exact (hl.header.elements child hchild).2.toWritable
  · exact Element.writable_leaf (hl.header.values v hv).2.1 _
  · exact Node.writable_writeAll l.nodes hl.nodes child hchild

end

end ProcessList

end CommonLut
