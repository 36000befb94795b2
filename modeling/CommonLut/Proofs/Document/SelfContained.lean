import CommonLut.Proofs.Document.Bytes
import CommonLut.Proofs.Node.Buffers
import CommonLut.Proofs.Node.Inlining

/-!
# Self-contained documents

A list is written with the nodes of its references in their place and read back. Where all
references are active and have nothing but lists above them, the document holds no reference and its
list evaluates as before. A bypassed reference stays inactive unless a colour correction is among
its nodes, which takes no notice of a bypass flag. A group keeps what it does where the nodes that
are put into it need the same conversions as the references did, as they do if the references
declare the depths of their nodes.

Main definitions: `Element.HoldsReference`, `ProcessList.ReadIn`.
Main statements: `ProcessList.ofBytes_selfContained`, `ProcessList.ofBytes_bypassed_reference`,
`ProcessList.ofBytes_selfContained_groups`.
-/

namespace CommonLut

/-! ## §1 Documents without references -/

namespace Element

mutual
/-- Whether an element is a reference or a group with one somewhere in it. -/
def HoldsReference : Element → Prop
  | ⟨name, _, _, children⟩ =>
    name = NodeKind.reference.elementName ∨
      name = NodeKind.group.elementName ∧ HoldsReferenceAny children
termination_by structural e => e

/-- Whether one of the elements holds a reference. -/
def HoldsReferenceAny : List Element → Prop
  | [] => False
  | e :: es => e.HoldsReference ∨ HoldsReferenceAny es
termination_by structural es => es
end

theorem holdsReferenceAny_iff {es : List Element} :
    HoldsReferenceAny es ↔ ∃ e ∈ es, e.HoldsReference := by
  induction es with
  | nil => simp [HoldsReferenceAny]
  | cons e es ih => simp [HoldsReferenceAny, ih]

theorem holdsReference_iff {e : Element} :
    e.HoldsReference ↔ e.name = NodeKind.reference.elementName ∨
      e.name = NodeKind.group.elementName ∧ ∃ c ∈ e.children, c.HoldsReference := by
  cases e
  rw [HoldsReference, holdsReferenceAny_iff]

/-- An element that names no kind of node is no reference and no group. -/
theorem not_holdsReference_of_name {e : Element} (h : NodeKind.ofElementName? e.name = none) :
    ¬ e.HoldsReference := by
  rw [holdsReference_iff]
  rintro (hname | ⟨hname, -⟩) <;>
  · rw [hname, NodeKind.ofElementName?_elementName] at h
    cases h

mutual
theorem holdsReference_trimmed : ∀ e : Element, e.trimmed.HoldsReference ↔ e.HoldsReference
  | ⟨name, attributes, text, children⟩ => by
    rw [trimmed, HoldsReference, HoldsReference, holdsReferenceAny_trimmedAll children]
termination_by structural e => e

theorem holdsReferenceAny_trimmedAll :
    ∀ es : List Element, HoldsReferenceAny (trimmedAll es) ↔ HoldsReferenceAny es
  | [] => Iff.rfl
  | e :: es => by
    rw [trimmedAll, HoldsReferenceAny, HoldsReferenceAny, holdsReference_trimmed e,
      holdsReferenceAny_trimmedAll es]
termination_by structural es => es
end

end Element

namespace Node

section

variable {options : ReadOptions} {selfContained : Bool}

mutual
/-- No reference is in an element that describes a node without references. -/
theorem not_holdsReference_of_described : ∀ (n : Node) (e : Element),
    n.Readable options selfContained → n.references = [] → n.DescribedBy e → ¬ e.HoldsReference
  | .operation c op, e, _, _, he => by
    have hkind : op.kind ≠ .reference ∧ op.kind ≠ .group := by
      cases op <;> exact ⟨nofun, nofun⟩
    rw [Element.holdsReference_iff, he.1, NodeKind.elementName_inj, NodeKind.elementName_inj]
    exact fun h => h.elim hkind.1 fun h => hkind.2 h.1
  | .group c nodes, e, hn, hreferences, he => by
    obtain ⟨hc, hnodes⟩ := hn
    obtain ⟨hname, -, inside, hchildren, hinside⟩ := he
    have hnone := not_holdsReference_of_describedAll nodes inside hnodes hreferences hinside
    rw [Element.holdsReference_iff, hname, hchildren]
    rintro (h | ⟨-, child, hchild, h⟩)
    · exact absurd h (by decide)
    -- Children of a group are those of its common part, which are leaves, and its nodes.
    rcases List.mem_append.mp hchild with hchild | hchild
    · have hleaf := NodeCommon.leaves_writeChildren hc.common rfl rfl child hchild
      exact Element.not_holdsReference_of_name hleaf h
    · exact hnone child hchild h
  | .reference _ _, _, _, h, _ => absurd h (List.cons_ne_nil _ _)
  | .resolved _ _ _ _, _, _, h, _ => absurd h (List.cons_ne_nil _ _)
termination_by structural n => n

@[inherit_doc not_holdsReference_of_described]
theorem not_holdsReference_of_describedAll : ∀ (ns : List Node) (es : List Element),
    ReadableAll options selfContained ns → referencesAll ns = [] → DescribedByAll ns es →
      ∀ e ∈ es, ¬ e.HoldsReference
  | [], [], _, _, _, e, he => absurd he List.not_mem_nil
  | n :: ns, d :: es, hns, hreferences, hes, e, he => by
    obtain ⟨hn, hrest⟩ := List.append_eq_nil_iff.mp hreferences
    have hd := not_holdsReference_of_described n d hns.1 hn hes.1
    rcases List.mem_cons.mp he with heq | he
    · rw [heq]
      exact hd
    · exact not_holdsReference_of_describedAll ns es hns.2 hrest hes.2 e he
termination_by structural ns => ns
end

end

end Node

namespace ProcessList

/-- What is written for a list holds no reference if flattening leaves none. -/
theorem not_holdsReference_write {options : ReadOptions} {l : ProcessList}
    (hl : l.Readable options true) (h : Node.referencesAll (Node.flattenAll true l.nodes) = []) :
    ∀ e ∈ (l.write true).trimmed.children, ¬ e.HoldsReference := by
  intro e he
  rw [Element.children_trimmed] at he
  obtain ⟨e, hmem, rfl⟩ := List.mem_map.mp he
  rw [Element.holdsReference_trimmed]
  simp only [ProcessList.write, List.mem_append, List.mem_map] at hmem
  rcases hmem with (hmem | ⟨v, hv, rfl⟩) | hmem
  · exact Element.not_holdsReference_of_name
      (ofElementName?_of_metadata (hl.header.elements e hmem).1)
  · exact Element.not_holdsReference_of_name (hl.header.values v hv).1.1
  · exact Node.not_holdsReference_of_describedAll _ _
      (Node.readableAll_iff.mpr (Node.readable_flattenAll l.nodes hl.nodes)) h
      (Node.describedByAll_iff.mpr (Node.describedByAll_writeAll l.nodes hl.nodes)) e hmem

/-! ## §2 Active references -/

/-- A list as it is read from a document, in whatever nesting of references. -/
def ReadIn (store : Store) (options : ReadOptions) (bytes : ByteArray) (l : ProcessList) : Prop :=
  ∃ levels chain directory,
    readBytes (resolveTarget store options levels chain directory) options bytes = .ok l

theorem readIn_of_ofBytes {store : Store} {options : ReadOptions} {bytes : ByteArray}
    {l : ProcessList} (h : ofBytes store options bytes = .ok l) : ReadIn store options bytes l :=
  ⟨_, _, _, h⟩

theorem readIn_of_load {store : Store} {options : ReadOptions} {path : String} {l : ProcessList}
    (h : load store options path = .ok l) :
    ∃ location bytes, store.read location = .ok bytes ∧ ReadIn store options bytes l := by
  obtain ⟨location, -, h⟩ := bind_eq_ok.mp h
  obtain ⟨bytes, hbytes, h⟩ := bind_eq_ok.mp h
  refine ⟨location, bytes, ?_, _, _, _, h⟩
  cases hread : store.read location with
  | ok content =>
    rw [hread] at hbytes
    cases hbytes
    rfl
  | error fault =>
    rw [hread] at hbytes
    cases hbytes

section

variable {store : Store} {options : ReadOptions} {bytes : ByteArray} {l : ProcessList}

theorem ReadIn.readable (h : ReadIn store options bytes l) (hnames : ProperNames bytes)
    (hstore : store.ProperNames) : l.Readable options true := by
  obtain ⟨levels, chain, directory, hread⟩ := h
  exact readable_of_readBytes
    (looksUpReadable_resolveTarget (fun _ => hstore) levels chain directory) hnames hread

/-- The list that is read back evaluates as before if flattening keeps what the nodes do and a new
lookup changes no active node. -/
theorem process_of_flattened {link : Link} {ns : List Node}
    (halike : Node.AlikeAll (Node.relinkAll link (Node.flattenAll true l.nodes)) ns)
    (hkeeps : Node.KeepsEvalAll l.nodes)
    (hlinked : ∀ n ∈ Node.flattenAll true l.nodes, n.isBypassed = false → n.LinkedBy link)
    (stride : Nat) (values : List Float32) :
    process { header := l.header, nodes := ns } stride values = l.process stride values := by
  -- Reading back, flattening and looking up again are undone one after the other.
  have hrelink := fun p => Node.evalActive_relink (fun n hn hactive =>
    (Node.relink_of_linkedBy n (hlinked n hn hactive)).2) p
  have hflatten := fun p => Node.evalActive_flattenAll (Node.evalActive_flatten_of_mem l.nodes hkeeps) p
  rw [halike.process l.header l.header, process_eq_mapPixels, process_eq_mapPixels]
  congr 1
  funext p
  exact (hrelink p).trans (hflatten p)

/-- A list whose references are all active, with nothing but lists above them, is written as a
document without references. Read back from anywhere, it evaluates as before. -/
theorem ofBytes_selfContained (hnames : ProperNames bytes) (hstore : store.ProperNames)
    (h : ReadIn store options bytes l) (hinlinable : Node.InlinableAll l.nodes) (other : Store) :
    ∃ root l', rootElement (l.toBytes { selfContained := true }) = .ok root ∧
      (∀ e ∈ root.children, ¬ e.HoldsReference) ∧
      ofBytes other options (l.toBytes { selfContained := true }) = .ok l' ∧
      ∀ stride values, l'.process stride values = l.process stride values := by
  have hl := h.readable hnames hstore
  obtain ⟨hreferences, hkeeps⟩ := Node.flattenAll_of_inlinable l.nodes hinlinable
  have hlinked := Node.linkedByAll_of_referenceless (freeLink other options) _ hreferences
  obtain ⟨ns, hread, halike⟩ := readBytes_toBytes hl (Node.relinkAll_of_linkedBy _ hlinked).1
  exact ⟨_, _, rootElement_toBytes (writable_write hl), not_holdsReference_write hl hreferences,
    hread, process_of_flattened halike hkeeps fun n hn _ => Node.linkedByAll_iff.mp hlinked n hn⟩

end

/-- A store with one file in the directory of the document. -/
def besideFile (file : Element) : Store :=
  { workingDirectory := [], entries := [(["target.clf"], .file file.toBytes)] }

theorem properNames_besideFile {file : Element} (hfile : file.Writable) :
    (besideFile file).ProperNames := by
  intro location bytes h
  cases List.mem_singleton.mp (Store.mem_entries_of_read h)
  exact properNames_toBytes hfile

/-- A reference to the file is resolved to the list in it. -/
theorem freeLink_besideFile {file : Element} (hfile : file.Writable) {profile : Profile}
    {list : ProcessList} (h : ∀ link, read link { profile } file.trimmed = .ok list) :
    freeLink (besideFile file) { profile } { path := "target.clf" } = .ok (some list) := by
  have hcanonical : (besideFile file).canonical "target.clf" = .ok ["target.clf"] := rfl
  refine resolveTarget_of_file hcanonical rfl rfl ?_
  exact readBytes_eq_ok.mpr ⟨_, rootElement_toBytes hfile, h _⟩

/-- The element of a range without bounds. -/
def converting (input output : String) : Element :=
  { name := "Range", attributes := [("inBitDepth", input), ("outBitDepth", output)] }

/-- The element of a node on single floats. -/
def nodeElement (name : String) (children : List Element) : Element :=
  { converting "32f" "32f" with name, children }

/-- The element of a reference to the file beside the document. -/
def referring (output : String) (more : List (String × String)) : Element :=
  { name := "Reference"
    attributes := [("inBitDepth", "32f"), ("outBitDepth", output), ("path", "target.clf")] ++ more }

/-- A root element with nodes. -/
def rooted (nodes : List Element) : Element :=
  { name := "ProcessList", attributes := [("id", "sample")], children := nodes }

/-- A root element with nothing but a reference to the file beside the document. -/
def referringRoot : Element := rooted [referring "32f" []]

theorem parsed_referringRoot : referringRoot.Parsed := ⟨by decide, rfl⟩

theorem ofBytes_rooted {store : Store} {options : ReadOptions} {es : List Element}
    (hes : (rooted es).Parsed) {ns : List Node}
    (h : List.Forall₂ (fun e n => Node.read (freeLink store options) options e = .ok (some n))
      es ns) :
    ofBytes store options (rooted es).toBytes =
      .ok { header := { id := "sample" }, nodes := ns } := by
  refine ofBytes_toBytes_of_read hes.toWritable ?_
  rw [hes.texts]
  exact read_of_nodes rfl rfl h

theorem readIn_rooted {store : Store} {options : ReadOptions} {es : List Element}
    (hes : (rooted es).Parsed) {ns : List Node}
    (h : List.Forall₂ (fun e n => Node.read (freeLink store options) options e = .ok (some n))
      es ns) :
    ReadIn store options (rooted es).toBytes { header := { id := "sample" }, nodes := ns } :=
  readIn_of_ofBytes (ofBytes_rooted hes h)

/-- The file beside the document is read, under every profile that accepts references, as the list
of the reference to it. -/
theorem ofBytes_referringRoot {file : Element} (hfile : file.Writable) (profile : Profile)
    (haccepted : profile.accepts .autodesk = true) (list : ProcessList)
    (h : ∀ link, read link { profile } file.trimmed = .ok list) :
    ofBytes (besideFile file) { profile } referringRoot.toBytes =
      .ok { header := { id := "sample" }
            nodes := [.resolved {} { path := "target.clf" } list.header list.nodes] } := by
  have hrequire : NodeKind.reference.require { profile } = .ok () := if_pos haccepted
  exact ofBytes_rooted parsed_referringRoot
    (.cons (Node.read_reference rfl hrequire rfl (freeLink_besideFile hfile h)) .nil)

/-- The file of a list that leaves code values of ten bits. -/
def tenBitFile : Element := rooted [converting "32f" "10i"]

/-- The list in the file. -/
def tenBitList : ProcessList :=
  { header := { id := "sample" }, nodes := [.operation { output := .uint10 } (.range {})] }

theorem writable_tenBitFile : tenBitFile.Writable := by decide

theorem freeLink_tenBitFile :
    freeLink (besideFile tenBitFile) {} { path := "target.clf" } = .ok (some tenBitList) :=
  freeLink_besideFile writable_tenBitFile fun _ => rfl

theorem ofBytes_selfContained_tenBit :
    ∃ l root l', ReadIn (besideFile tenBitFile) {}
        (rooted [referring "32f" [], converting "10i" "32f"]).toBytes l ∧
      rootElement (l.toBytes { selfContained := true }) = .ok root ∧
      (∀ e ∈ root.children, ¬ e.HoldsReference) ∧
      ofBytes { workingDirectory := [] } {} (l.toBytes { selfContained := true }) = .ok l' ∧
      ∀ stride values, l'.process stride values = l.process stride values := by
  have hroot : (rooted [referring "32f" [], converting "10i" "32f"]).Parsed := ⟨by decide, rfl⟩
  have hread := readIn_rooted hroot
    (.cons (Node.read_reference rfl rfl rfl freeLink_tenBitFile) (.cons rfl .nil))
  obtain ⟨root, l', h⟩ := ofBytes_selfContained (properNames_toBytes hroot.toWritable)
    (properNames_besideFile writable_tenBitFile) hread ⟨⟨rfl, trivial, trivial⟩, trivial, trivial⟩
    { workingDirectory := [] }
  exact ⟨_, root, l', hread, h⟩

section

variable {store : Store} {options : ReadOptions} {bytes : ByteArray} {l : ProcessList}

/-! ## §3 Bypassed references -/

/-- The list is read back part by part: the nodes before a node, those in its place, and the nodes
after it. -/
theorem ofBytes_selfContained_parts (hl : l.Readable options true) {before after : List Node}
    {n : Node} (hnodes : l.nodes = before ++ n :: after) (other : Store)
    (hanswered : Node.AnsweredAll (freeLink other options) (Node.flattenAll true l.nodes)) :
    ∃ before' inlined after', ofBytes other options (l.toBytes { selfContained := true }) =
        .ok { header := l.header, nodes := before' ++ inlined ++ after' } ∧
      List.Forall₂ (fun e m => Node.read (freeLink other options) options e.trimmed = .ok (some m))
        (n.write true) inlined ∧
      Node.AlikeAll (Node.relinkAll (freeLink other options) (n.flatten true)) inlined ∧
      Node.AlikeAll (Node.relinkAll (freeLink other options) (Node.flattenAll true l.nodes))
        (before' ++ inlined ++ after') := by
  have hflatten : Node.flattenAll true l.nodes =
      Node.flattenAll true before ++ n.flatten true ++ Node.flattenAll true after := by
    rw [hnodes, Node.flattenAll_append, Node.flattenAll, List.append_assoc]
  have hwrite : Node.writeAll true l.nodes =
      Node.writeAll true before ++ n.write true ++ Node.writeAll true after := by
    rw [hnodes, Node.writeAll_append, Node.writeAll, List.append_assoc]
  have hreadable := Node.readableAll_iff.mp hl.nodes
  rw [hnodes] at hreadable
  simp only [List.forall_mem_append, List.forall_mem_cons] at hreadable
  obtain ⟨hbefore, hn, hafter⟩ := hreadable
  have hall := Node.answeredAll_iff.mp hanswered
  rw [hflatten] at hall
  simp only [List.forall_mem_append] at hall
  obtain ⟨⟨hall₁, hall₂⟩, hall₃⟩ := hall
  -- Each of the three parts is read back by itself.
  obtain ⟨before', hread₁, halike₁⟩ := Node.readBack_writeAll (Node.readableAll_iff.mpr hbefore)
    (Node.answeredAll_iff.mpr hall₁)
  obtain ⟨inlined, hread₂, halike₂⟩ := Node.readBack_write hn (Node.answeredAll_iff.mpr hall₂)
  obtain ⟨after', hread₃, halike₃⟩ := Node.readBack_writeAll (Node.readableAll_iff.mpr hafter)
    (Node.answeredAll_iff.mpr hall₃)
  refine ⟨before', inlined, after', ?_, hread₂, halike₂, ?_⟩
  · refine readBytes_eq_ok.mpr ⟨_, rootElement_toBytes (writable_write hl), read_written hl ?_⟩
    rw [hwrite]
    exact List.rel_append (List.rel_append hread₁ hread₂) hread₃
  · rw [hflatten, Node.relinkAll_append, Node.relinkAll_append]
    exact List.rel_append (List.rel_append halike₁ halike₂) halike₃

/-- The nodes that are written in place of a bypassed reference are read back, where the document
can be read at all, as bypassed nodes just when no colour correction is among them. Then the list
evaluates as before, as far as the other nodes keep what they do. -/
theorem ofBytes_bypassed_reference (hnames : ProperNames bytes) (hstore : store.ProperNames)
    (h : ReadIn store options bytes l) {before after ns : List Node} {c : NodeCommon} {t : Target}
    {header : ListHeader} (hnodes : l.nodes = before ++ .resolved c t header ns :: after)
    (hbypass : c.bypass = some true) (other : Store) :
    ((∃ l', ofBytes other options (l.toBytes { selfContained := true }) = .ok l') ↔
      Node.AnsweredAll (freeLink other options) (Node.flattenAll true l.nodes)) ∧
    ∀ l', ofBytes other options (l.toBytes { selfContained := true }) = .ok l' →
      ∃ before' inlined after',
        l' = { header := l.header, nodes := before' ++ inlined ++ after' } ∧
        List.Forall₂ (fun e m => Node.read (freeLink other options) options e.trimmed = .ok (some m))
          (Node.write true (.resolved c t header ns)) inlined ∧
        ((∀ m ∈ inlined, m.isBypassed = true) ↔
          ∀ m ∈ Node.flattenAll true ns, m.kind ≠ .colorCorrection) ∧
        ((∀ m ∈ Node.flattenAll true ns, m.kind ≠ .colorCorrection) →
          Node.KeepsEvalAll before → Node.KeepsEvalAll after →
          (∀ m ∈ Node.flattenAll true before ++ Node.flattenAll true after,
            m.isBypassed = false → m.LinkedBy (freeLink other options)) →
          ∀ stride values, l'.process stride values = l.process stride values) := by
  have hl := h.readable hnames hstore
  refine ⟨exists_readBytes_toBytes_iff hl, fun l' hback => ?_⟩
  obtain ⟨before', inlined, after', hparts, hread, halike, hall⟩ := ofBytes_selfContained_parts hl
    hnodes other ((exists_readBytes_toBytes_iff hl).mp ⟨l', hback⟩)
  cases hback.symm.trans hparts
  rw [Node.flatten_of_bypassed hbypass] at halike
  have hreadable : ∀ m ∈ Node.flattenAll true ns, m.Readable options true := by
    have hn := Node.readableAll_iff.mp hl.nodes (.resolved c t header ns) (by simp [hnodes])
    exact Node.readable_flattenAll ns (hn.2 rfl)
  refine ⟨before', inlined, after', rfl, hread, ?_, fun hnone hbefore hafter hlinked => ?_⟩
  · rw [halike.forall_isBypassed]
    simp only [Node.relinkAll_eq, List.forall_mem_map, Node.isBypassed_relink]
    exact forall₂_congr fun m hm => Node.isBypassed_asBypassed_iff (hreadable m hm)
  · refine process_of_flattened hall ?_ fun m hm hactive => ?_
    · have hinlined : Node.KeepsEval (.resolved c t header ns) :=
        ⟨fun _ => hnone, fun hactive => by rw [hbypass] at hactive; cases hactive⟩
      rw [hnodes, Node.keepsEvalAll_iff, List.forall_mem_append, List.forall_mem_cons]
      exact ⟨Node.keepsEvalAll_iff.mp hbefore, hinlined, Node.keepsEvalAll_iff.mp hafter⟩
    · rw [hnodes, Node.flattenAll_append, Node.flattenAll, Node.flatten_of_bypassed hbypass] at hm
      simp only [List.mem_append, List.mem_map] at hm hlinked
      rcases hm with hm | ⟨m, hmem, rfl⟩ | hm
      · exact hlinked m (.inl hm) hactive
      · -- What is inlined is bypassed, so it never has to stay linked.
        rw [Node.isBypassed_asBypassed (hnone m hmem)] at hactive
        cases hactive
      · exact hlinked m (.inr hm) hactive

end

/-- A document that skips the file beside it. -/
def skippingRoot : Element :=
  rooted [referring "32f" [("bypass", "true")], converting "8i" "32f"]

/-- What such a document holds. -/
def skippingList : ProcessList :=
  { header := { id := "sample" }
    nodes :=
      [.resolved { bypass := some true } { path := "target.clf" } tenBitList.header tenBitList.nodes,
       .operation { input := .uint8 } (.range {})] }

theorem ofBytes_bypassed_reference_tenBit :
    ∃ before inlined after, ofBytes { workingDirectory := [] } {}
        (skippingList.toBytes { selfContained := true }) =
          .ok { header := skippingList.header, nodes := before ++ inlined ++ after } ∧
      inlined ≠ [] ∧ (∀ m ∈ inlined, m.isBypassed = true) ∧
      ∀ stride values, process { header := skippingList.header, nodes := before ++ inlined ++ after }
        stride values = skippingList.process stride values := by
  have hroot : skippingRoot.Parsed := ⟨by decide, rfl⟩
  have hread : ReadIn (besideFile tenBitFile) {} skippingRoot.toBytes skippingList :=
    readIn_rooted hroot
      (.cons (Node.read_reference rfl rfl rfl freeLink_tenBitFile) (.cons rfl .nil))
  have hnodes : skippingList.nodes = [] ++ .resolved { bypass := some true }
      { path := "target.clf" } tenBitList.header tenBitList.nodes ::
        [.operation { input := .uint8 } (.range {})] := rfl
  have hnone : ∀ m ∈ Node.flattenAll true tenBitList.nodes, m.kind ≠ .colorCorrection := by
    simp [tenBitList, Node.flattenAll, Node.flatten, Node.kind, Operation.kind]
  have hlinked : Node.LinkedByAll (freeLink { workingDirectory := [] } {})
      [.operation { input := .uint8 } (.range {})] := ⟨trivial, trivial⟩
  obtain ⟨hreadable, hresult⟩ := ofBytes_bypassed_reference (properNames_toBytes hroot.toWritable)
    (properNames_besideFile writable_tenBitFile) hread hnodes rfl { workingDirectory := [] }
  obtain ⟨l', hback⟩ := hreadable.mpr ⟨trivial, trivial, trivial⟩
  obtain ⟨before, inlined, after, rfl, hwritten, hbypassed, hprocess⟩ := hresult l' hback
  refine ⟨before, inlined, after, hback, ?_, hbypassed.mpr hnone, hprocess hnone trivial
    ⟨trivial, trivial⟩ fun m hm _ => Node.linkedByAll_iff.mp hlinked m hm⟩
  rintro rfl
  cases hwritten

/-- The file of a list that corrects colours. -/
def correctingFile : Element :=
  let sop : Element :=
    { name := "SOPNode"
      children := [.leaf "Slope" "0.5 0.5 0.5", .leaf "Offset" "0 0 0", .leaf "Power" "1 1 1"] }
  rooted [{ name := "ColorCorrection", children := [sop] }]

/-- The list in the file. -/
def correctingList : ProcessList :=
  { header := { id := "sample" }
    nodes := [.operation {} (.colorCorrection { Cdl.identity with slope := (0.5, 0.5, 0.5) })] }

/-- A colour correction in place of a bypassed reference is active when it is read back. -/
theorem exists_active_of_bypassed_reference :
    ∃ l, ReadIn (besideFile correctingFile) {}
        (rooted [referring "32f" [("bypass", "true")]]).toBytes l ∧
      (∀ m ∈ l.nodes, m.isBypassed = true) ∧
      ∃ l', ofBytes (besideFile correctingFile) {} (l.toBytes { selfContained := true }) = .ok l' ∧
        ∃ m ∈ l'.nodes, m.isBypassed = false := by
  have hroot : (rooted [referring "32f" [("bypass", "true")]]).Parsed := ⟨by decide, rfl⟩
  have hfile : freeLink (besideFile correctingFile) {} { path := "target.clf" } =
      .ok (some correctingList) := freeLink_besideFile (by decide) fun _ => rfl
  have hread := readIn_rooted hroot (.cons (Node.read_reference rfl rfl rfl hfile) .nil)
  refine ⟨_, hread, by simp [Node.ofTarget, Node.isBypassed, Node.common], correctingList, ?_,
    _, List.mem_singleton_self _, rfl⟩
  exact ofBytes_toBytes_of_read (by decide) rfl

section

variable {store : Store} {options : ReadOptions} {bytes : ByteArray} {l : ProcessList}

/-! ## §4 Groups -/

/-- A self-contained document is read back, if it can be read at all, with the groups of the list,
at any depth and in their order. Each does the steps of its flattened nodes, and what it did before
if these convert as the nodes with the references do; they do if every reference declares the depths
of its nodes and these pass them on. -/
theorem ofBytes_selfContained_groups (hnames : ProperNames bytes) (hstore : store.ProperNames)
    (h : ReadIn store options bytes l) (other : Store) :
    ((∃ l', ofBytes other options (l.toBytes { selfContained := true }) = .ok l') ↔
      Node.AnsweredAll (freeLink other options) (Node.flattenAll true l.nodes)) ∧
    ∀ l', ofBytes other options (l.toBytes { selfContained := true }) = .ok l' →
      ∃ gs, gs.Sublist (Node.groupsAll l'.nodes) ∧
        List.Forall₂ (Node.FlattenedTo (freeLink other options)) (Node.groupsAll l.nodes) gs := by
  have hl := h.readable hnames hstore
  refine ⟨exists_readBytes_toBytes_iff hl, fun l' hback => ?_⟩
  obtain ⟨ns, hread, halike⟩ :=
    readBytes_toBytes hl ((exists_readBytes_toBytes_iff hl).mp ⟨l', hback⟩)
  cases hback.symm.trans hread
  -- A reference that is found only now brings groups of its own, so the groups of the list are a
  -- part of those that are read back.
  have hgroups := (Node.groups_flattenAll (freeLink other options) l.nodes).map
    (Node.evalGroup none)
  rw [← Node.map_eval_groupsAll, ← halike.groupsAll, List.map_map] at hgroups
  obtain ⟨gs, hsublist, heval⟩ := List.sublist_map_iff.mp hgroups
  refine ⟨gs, hsublist, Node.forall₂_of_eval (fun _ _ _ _ heval =>
    Node.flattenedTo_of_eval (congrFun heval)) (Node.exists_of_mem_groupsAll l.nodes)
    (fun g hg => Node.exists_of_mem_groupsAll ns g (hsublist.subset hg)) heval.symm⟩

end

/-- A document with a group: a reference to the file, said to leave a depth, before a range. -/
def groupedRoot (depth : BitDepth) : Element :=
  rooted [{ name := "Group"
            attributes := [("inBitDepth", "32f"), ("outBitDepth", "32f")]
            children := [referring depth.token [], converting depth.token "32f"] }]

/-- The group in such a document. -/
def tenBitGroup (depth : BitDepth) : Node :=
  .group {}
    [.resolved { output := depth } { path := "target.clf" } tenBitList.header tenBitList.nodes,
     .operation { input := depth } (.range {})]

theorem readIn_groupedRoot {depth : BitDepth} (hroot : (groupedRoot depth).Parsed)
    (hreference : Target.schema.read {} (referring depth.token []) =
      .ok ({ output := depth }, { path := "target.clf" }))
    (hrange : Node.read (freeLink (besideFile tenBitFile) {}) {} (converting depth.token "32f") =
      .ok (some (.operation { input := depth } (.range {})))) :
    ReadIn (besideFile tenBitFile) {} (groupedRoot depth).toBytes
      { header := { id := "sample" }, nodes := [tenBitGroup depth] } :=
  readIn_rooted hroot (.cons (Node.read_group rfl rfl rfl (Node.readInside_of_nodes
    (.cons (Node.read_reference rfl rfl hreference freeLink_tenBitFile) (.cons hrange .nil)) _))
    .nil)

theorem ofBytes_selfContained_groups_tenBit :
    ∃ l l' g', ReadIn (besideFile tenBitFile) {} (groupedRoot .uint10).toBytes l ∧
      ofBytes { workingDirectory := [] } {} (l.toBytes { selfContained := true }) = .ok l' ∧
      Node.groupsAll l.nodes = [tenBitGroup .uint10] ∧ g' ∈ Node.groupsAll l'.nodes ∧
      ∀ p, g'.eval p = (tenBitGroup .uint10).eval p := by
  have hroot : (groupedRoot .uint10).Parsed := ⟨by decide, rfl⟩
  have hread := readIn_groupedRoot hroot rfl rfl
  obtain ⟨hreadable, hresult⟩ := ofBytes_selfContained_groups
    (properNames_toBytes hroot.toWritable) (properNames_besideFile writable_tenBitFile) hread
    { workingDirectory := [] }
  obtain ⟨l', hback⟩ := hreadable.mpr ⟨⟨trivial, trivial, trivial⟩, trivial⟩
  obtain ⟨gs, hsublist, hgroups⟩ := hresult l' hback
  obtain ⟨g', rest, hg, -, rfl⟩ := List.forall₂_cons_left_iff.mp hgroups
  have hkeeps : Node.KeepsEvalAll (tenBitGroup .uint10).inner :=
    ⟨⟨nofun, fun _ => ⟨trivial, trivial⟩⟩, trivial, trivial⟩
  have hlinked : Node.LinkedByAll (freeLink { workingDirectory := [] } {})
      (Node.flattenAll true (tenBitGroup .uint10).inner) := ⟨trivial, trivial, trivial⟩
  -- The reference leaves the depth that the range in its file leaves, and nothing else is one.
  have hseamless : Node.SeamlessAll (tenBitGroup .uint10).inner := by
    refine List.forall_mem_cons.mpr ⟨fun _ _ => Node.seamless_of_same rfl rfl, ?_⟩
    exact List.forall_mem_singleton.mpr nofun
  exact ⟨_, l', g', hread, hback, rfl, hsublist.subset List.mem_cons_self,
    hg.seamless (fun n hn _ => Node.linkedByAll_iff.mp hlinked n hn) hkeeps hseamless⟩

/-- The nodes of a reference leave another depth than the reference says, and the group that is read
back converts between them and the next node. -/
theorem exists_group_changed :
    ∃ l l' g', ReadIn (besideFile tenBitFile) {} (groupedRoot .float32).toBytes l ∧
      ofBytes (besideFile tenBitFile) {} (l.toBytes { selfContained := true }) = .ok l' ∧
      Node.groupsAll l.nodes = [tenBitGroup .float32] ∧ Node.groupsAll l'.nodes = [g'] ∧
      g'.eval [1.0] ≠ (tenBitGroup .float32).eval [1.0] := by
  have hroot : (groupedRoot .float32).Parsed := ⟨by decide, rfl⟩
  have hread := readIn_groupedRoot hroot rfl rfl
  let g' : Node :=
    .group {} [.operation { output := .uint10 } (.range {}), .operation {} (.range {})]
  have hchanged : g'.eval [1.0] ≠ (tenBitGroup .float32).eval [1.0] := by decide +kernel
  exact ⟨_, { header := { id := "sample" }, nodes := [g'] }, g', hread,
    ofBytes_toBytes_of_read (by decide) rfl, rfl, rfl, hchanged⟩

end ProcessList

end CommonLut
