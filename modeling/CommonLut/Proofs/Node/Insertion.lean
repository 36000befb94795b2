import CommonLut.Proofs.Markup.Insertion
import CommonLut.Proofs.Node.Reading

/-!
# Elements that nothing reads

A list, a group, a node, and the parts of a colour decision list are read child by child, and a
child has to have one of a few names to be read. A plain child of another name may be kept for its
text. So an element that has a name of no use where it stands, and an attribute or a child, leaves
everything as it is, whatever it contains.

Main definitions: `NodeKind.claimedAt?`, `ProcessList.claimedAt?`, `NodeKind.ReadsAlike`.
Main statements: `NodeKind.readNode_splices`, `Node.read_of_grows`, `ProcessList.read_of_grows`.
-/

namespace CommonLut

open Element (Splices Grows)

/-! ## §1 Names -/

/-- The names of the children that every node may have. -/
def NodeCommon.childNames : List String := ["Description", "DynamicParameter"]

/-- The names of the children that are read in a part of a colour decision list. -/
def Cdl.partNames? (part : String) : Option (List String) :=
  match part with
  | "SOPNode" => some ["Slope", "Offset", "Power"]
  | "SatNode" | "SATNode" => some ["Saturation"]
  | _ => none

namespace NodeKind

/-- The names of the children that a kind has a use for. -/
def childNames : NodeKind → List String
  | matrix => ["Array"]
  | range => ["minInValue", "maxInValue", "minOutValue", "maxOutValue"]
  | cdl | colorCorrection => ["SOPNode", "SatNode", "SATNode"]
  | lut1D | lut3D => ["IndexMap", "Array"]
  | log => ["LogParams"]
  | gamma => ["GammaParams"]
  | group => all.map elementName
  | exposureContrast => ["ECParams"]
  | reference => []

/-- The names of the children that are read at a path inside a node of a kind, if the element there
is a node or a part of one. -/
def claimedAt? : List String → NodeKind → Option (List String)
  | [], kind => some (kind.childNames ++ NodeCommon.childNames)
  | name :: path, group => (ofElementName? name).bind (claimedAt? path)
  | [part], cdl | [part], colorCorrection => Cdl.partNames? part
  | _, _ => none

theorem ofElementName?_eq_none {name : String} :
    ofElementName? name = none ↔ name ∉ all.map elementName := by
  simp [ofElementName?]

/-- A kind leaves children of all other names. -/
theorem leaves_of_not_mem {kind : NodeKind} {name : String} (h : name ∉ kind.childNames)
    (options : ReadOptions) : kind.Leaves options name := by
  cases kind with
  | matrix => exact Schema.leaves_of_not_mem Matrix.readChild_eq_none h options
  | range => exact Schema.leaves_of_not_mem Range.readChild_eq_none h options
  | cdl => exact Schema.leaves_of_not_mem Cdl.readChild_eq_none h options
  | lut1D => exact Schema.leaves_of_not_mem Lut1D.readChild_eq_none h options
  | lut3D => exact Schema.leaves_of_not_mem Lut3D.readChild_eq_none h options
  | colorCorrection => exact Schema.leaves_of_not_mem Cdl.readChild_eq_none h options
  | log => exact Schema.leaves_of_not_mem LogCurve.readChild_eq_none h options
  | gamma => exact Schema.leaves_of_not_mem GammaCurve.readChild_eq_none h options
  | group => exact ofElementName?_eq_none.mpr h
  | exposureContrast =>
    exact Schema.leaves_of_not_mem ExposureContrast.readChild_eq_none h options
  | reference => exact fun _ _ _ => rfl

end NodeKind

/-- The names of the children that are read at a path inside a list, if the element there is the
list, a node or a part of one. -/
def ProcessList.claimedAt? : List String → Option (List String)
  | [] => some (NodeKind.all.map NodeKind.elementName ++ metadataNames)
  | name :: path => (NodeKind.ofElementName? name).bind (NodeKind.claimedAt? path)

/-! ## §2 Nodes -/

namespace Schema

variable {α : Type}

/-- Beside its children, a schema reads the name and the attributes of an element. -/
def AttributesOnly (s : Schema α) : Prop :=
  ∀ options (e : Element) text children,
    s.readAttributes options { e with text, children } = s.readAttributes options e

/-- Elements are read like others among the children. -/
def ReadsAlike (s : Schema α) (options : ReadOptions) (xs ys : List Element) : Prop :=
  ∀ state, ys.foldlM (s.step options) state = xs.foldlM (s.step options) state

end Schema

/-- Elements are read like others among the children of a node. -/
def NodeKind.ReadsAlike (link : Link) (options : ReadOptions) (xs ys : List Element) :
    NodeKind → Prop
  | matrix => Matrix.schema.ReadsAlike options xs ys
  | range => Range.schema.ReadsAlike options xs ys
  | cdl | colorCorrection => Cdl.schema.ReadsAlike options xs ys
  | lut1D => Lut1D.schema.ReadsAlike options xs ys
  | lut3D => Lut3D.schema.ReadsAlike options xs ys
  | log => LogCurve.schema.ReadsAlike options xs ys
  | gamma => GammaCurve.schema.ReadsAlike options xs ys
  | exposureContrast => ExposureContrast.schema.ReadsAlike options xs ys
  | reference => Target.schema.ReadsAlike options xs ys
  | group => ∀ common rest, Node.readInside link options common (ys ++ rest) =
      Node.readInside link options common (xs ++ rest)

section

variable {link : Link} {options : ReadOptions} {xs ys : List Element} {e e' u : Element}

theorem NodeCommon.readAttributes_splices (h : Splices xs ys e e') (kindAttributes : List String) :
    readAttributes e' kindAttributes = readAttributes e kindAttributes := by
  obtain ⟨text, children, rfl⟩ := h.exists_eq
  rfl

namespace Schema

variable {α : Type} {s : Schema α}

theorem readChildren_splices (h : Splices xs ys e e') (halike : s.ReadsAlike options xs ys)
    (common : NodeCommon) (params : α) :
    s.readChildren options e' common params = s.readChildren options e common params := by
  rw [readChildren, h.foldlM halike, h.name]
  rfl

theorem read_splices (hs : s.AttributesOnly) (h : Splices xs ys e e')
    (halike : s.ReadsAlike options xs ys) : s.read options e' = s.read options e := by
  have hattributes : s.readAttributes options e' = s.readAttributes options e := by
    obtain ⟨text, children, rfl⟩ := h.exists_eq
    exact hs options e text children
  simp only [read, NodeCommon.readAttributes_splices h, hattributes,
    readChildren_splices h halike]

theorem readOperation_splices (hs : s.AttributesOnly) (h : Splices xs ys e e')
    (halike : s.ReadsAlike options xs ys) (build : α → Operation) :
    s.readOperation build options e' = s.readOperation build options e := by
  rw [readOperation, read_splices hs h halike]
  rfl

end Schema

theorem Node.readInside_append
    (h : ∀ common rest, readInside link options common (ys ++ rest) =
      readInside link options common (xs ++ rest)) (before after : List Element)
    (common : NodeCommon) :
    readInside link options common (before ++ ys ++ after) =
      readInside link options common (before ++ xs ++ after) := by
  induction before generalizing common with
  | nil => exact h common after
  | cons child before ih => simp only [List.cons_append, readInside, ih]

/-- A node is read as it was when some of its children are replaced by others that are read like
them. -/
theorem NodeKind.readNode_splices {kind : NodeKind} (h : Splices xs ys e e')
    (halike : kind.ReadsAlike link options xs ys) :
    kind.readNode link options e' = kind.readNode link options e := by
  cases kind with
  | matrix => exact Schema.readOperation_splices (fun _ _ _ _ => rfl) h halike _
  | range => exact Schema.readOperation_splices (fun _ _ _ _ => rfl) h halike _
  | cdl => exact Schema.readOperation_splices (fun _ _ _ _ => rfl) h halike _
  | lut1D => exact Schema.readOperation_splices (fun _ _ _ _ => rfl) h halike _
  | lut3D => exact Schema.readOperation_splices (fun _ _ _ _ => rfl) h halike _
  | log => exact Schema.readOperation_splices (fun _ _ _ _ => rfl) h halike _
  | gamma => exact Schema.readOperation_splices (fun _ _ _ _ => rfl) h halike _
  | exposureContrast => exact Schema.readOperation_splices (fun _ _ _ _ => rfl) h halike _
  | reference =>
    have hread := Schema.read_splices (s := Target.schema) (fun _ _ _ _ => rfl) h halike
    simp only [readNode, readReference, hread]
  | colorCorrection =>
    -- Its attributes are not read at all.
    have hread := Schema.readChildren_splices h halike
    simp only [readNode, readColorCorrection, hread]
  | group =>
    obtain ⟨before, after, hbefore, hafter⟩ := h.children
    simp only [readNode, NodeCommon.readAttributes_splices h, hbefore, hafter,
      Node.readInside_append halike]

theorem Node.read_splices {kind : NodeKind} (hkind : NodeKind.ofElementName? e.name = some kind)
    (h : Splices xs ys e e') (halike : kind.ReadsAlike link options xs ys) :
    Node.read link options e' = Node.read link options e := by
  have hkind' : NodeKind.ofElementName? e'.name = some kind := by rw [h.name, hkind]
  rw [Node.read_eq_of_kind hkind, Node.read_eq_of_kind hkind', NodeKind.readNode_splices h halike]

/-! ## §3 Elements that are not read -/

theorem NodeCommon.readChild_of_not_mem (c : NodeCommon) (hname : u.name ∉ childNames)
    (hu : u.isPlain = false) : c.readChild options u = .ok c := by
  simp only [childNames, List.mem_cons, List.not_mem_nil, or_false, not_or] at hname
  rw [readChild, if_neg hname.1, if_neg hname.2, hu]
  split <;> rfl

theorem Schema.readsAlike_nil {α : Type} {s : Schema α} (hleaves : s.Leaves options u.name)
    (hname : u.name ∉ NodeCommon.childNames) (hu : u.isPlain = false) :
    s.ReadsAlike options [] [u] := by
  intro state
  have hstep : s.step options state u = .ok state :=
    step_eq_ok.mpr (.inr ⟨state.1, hleaves state.2 u rfl,
      state.1.readChild_of_not_mem hname hu, rfl⟩)
  rw [List.foldlM_cons, hstep]
  rfl

/-- An element that a kind has no use for is read like none. -/
theorem NodeKind.readsAlike_nil {kind : NodeKind}
    (hname : u.name ∉ kind.childNames ++ NodeCommon.childNames) (hu : u.isPlain = false) :
    kind.ReadsAlike link options [] [u] := by
  rw [List.mem_append, not_or] at hname
  obtain ⟨hkind, hcommon⟩ := hname
  have hleaves := leaves_of_not_mem hkind options
  cases kind with
  | group =>
    intro common rest
    have hnone : Node.read link options u = .ok none := Node.read_eq_none hleaves
    have hskip : common.readChild options u = .ok common :=
      common.readChild_of_not_mem hcommon hu
    rw [List.singleton_append, Node.readInside, hnone]
    show (common.readChild options u >>= fun c => Node.readInside link options c rest) = _
    rw [hskip]
    rfl
  | _ => exact Schema.readsAlike_nil hleaves hcommon hu

/-! ## §4 Parts of a colour decision list -/

namespace Cdl

theorem readSop_of_not_mem (h : Splices [] [u] e e') (hu : u.name ∉ ["Slope", "Offset", "Power"])
    (c : Cdl Float) : c.readSop e' = c.readSop e := by
  refine h.foldlM (fun c => ?_) c
  simp only [List.mem_cons, List.not_mem_nil, or_false, not_or] at hu
  obtain ⟨hslope, hoffset, hpower⟩ := hu
  rw [List.foldlM_cons]
  split
  · next heq => exact absurd heq hslope
  · next heq => exact absurd heq hoffset
  · next heq => exact absurd heq hpower
  · rfl

theorem readSaturation_of_not_mem (h : Splices [] [u] e e') (hu : u.name ∉ ["Saturation"])
    (c : Cdl Float) : c.readSaturation e' = c.readSaturation e := by
  obtain ⟨before, after, hbefore, hafter⟩ := h.children
  have hne : (u.name == "Saturation") = false := by simpa using hu
  have hchild : e'.child? "Saturation" = e.child? "Saturation" := by
    simp [Element.child?, hbefore, hafter, hne]
  rw [readSaturation, readSaturation, hchild]

theorem partNames?_eq_some {part : String} {names : List String} (h : partNames? part = some names) :
    part = "SOPNode" ∧ names = ["Slope", "Offset", "Power"] ∨
      (part = "SatNode" ∨ part = "SATNode") ∧ names = ["Saturation"] := by
  unfold partNames? at h
  split at h
  · cases h
    exact .inl ⟨rfl, rfl⟩
  · cases h
    exact .inr ⟨.inl rfl, rfl⟩
  · cases h
    exact .inr ⟨.inr rfl, rfl⟩
  · cases h

/-- A part is read as it was after an element of another name is inserted in it. -/
theorem readChild_of_not_mem {names : List String} (hnames : partNames? e.name = some names)
    (hu : u.name ∉ names) (h : Splices [] [u] e e') (c : Cdl Float) :
    schema.readChild options c e' = schema.readChild options c e := by
  unfold schema
  dsimp only
  rw [h.name]
  rcases partNames?_eq_some hnames with ⟨hpart, rfl⟩ | ⟨hpart | hpart, rfl⟩
  · rw [hpart, readSop_of_not_mem h hu]
    rfl
  · rw [hpart, readSaturation_of_not_mem h hu]
    rfl
  · rw [hpart, readSaturation_of_not_mem h hu]
    rfl

theorem readsAlike_part {names : List String} (hnames : partNames? e.name = some names)
    (hu : u.name ∉ names) (h : Splices [] [u] e e') : schema.ReadsAlike options [e] [e'] := by
  have hread : ∀ c, schema.readChild options c e' = schema.readChild options c e :=
    readChild_of_not_mem hnames hu h
  -- A part always belongs to the schema, so nothing of it gets into the common part.
  have hpart : ∀ c, schema.readChild options c e ≠ .ok none := by
    intro c hnone
    rw [readChild_eq_none] at hnone
    rcases partNames?_eq_some hnames with ⟨hpart, -⟩ | ⟨hpart | hpart, -⟩ <;> simp [hpart] at hnone
  intro state
  simp only [List.foldlM_cons, List.foldlM_nil, Schema.step, hread]
  cases hchild : schema.readChild options state.2 e with
  | error fault => rfl
  | ok taken =>
    cases taken with
    | none => exact absurd hchild (hpart state.2)
    | some c => rfl

end Cdl

/-! ## §5 Nodes and lists -/

/-- A child that names a kind is read as a node or not at all. -/
theorem Node.read_ne_ok_none {kind : NodeKind} (hkind : NodeKind.ofElementName? e.name = some kind) :
    Node.read link options e ≠ .ok none := by
  intro hnone
  rcases Node.read_eq_ok hnone with ⟨hname, -⟩ | ⟨_, _, -, -, -, hsome⟩
  · cases hkind.symm.trans hname
  · cases hsome

/-- Children of a group that name a kind are read alike if the nodes are. -/
theorem Node.readsAlike_child {kind : NodeKind}
    (hkind : NodeKind.ofElementName? e.name = some kind)
    (h : Node.read link options e' = Node.read link options e) :
    NodeKind.group.ReadsAlike link options [e] [e'] := by
  intro common rest
  simp only [List.singleton_append, readInside, h]
  cases hread : Node.read link options e with
  | error fault => rfl
  | ok result =>
    cases result with
    | none => exact absurd hread (read_ne_ok_none hkind)
    | some n => rfl

/-- A node is read as it was after an element is inserted that has no use where it stands, in the
node itself, in a part of it, or in a node at whatever depth inside a group. -/
theorem Node.read_of_grows {path : List String} (h : Grows u path e e') {kind : NodeKind}
    (hkind : NodeKind.ofElementName? e.name = some kind) {names : List String}
    (hnames : kind.claimedAt? path = some names) (hname : u.name ∉ names)
    (hu : u.isPlain = false) : Node.read link options e' = Node.read link options e := by
  induction h generalizing kind with
  | here h =>
    cases hnames
    exact read_splices hkind h (NodeKind.readsAlike_nil hname hu)
  | @inside path c c' e e' hc h ih =>
    refine read_splices hkind h ?_
    unfold NodeKind.claimedAt? at hnames
    split at hnames
    · next heq => cases heq
    · -- in a group
      next heq =>
      cases heq
      obtain ⟨kind', hkind', hnames⟩ := Option.bind_eq_some_iff.mp hnames
      exact readsAlike_child hkind' (ih hkind' hnames)
    · next heq =>
      cases heq
      cases hc with
      | here hc => exact Cdl.readsAlike_part hnames hname hc
    · next heq =>
      cases heq
      cases hc with
      | here hc => exact Cdl.readsAlike_part hnames hname hc
    · cases hnames

namespace ProcessList

/-- A list skips an element that is no node, has no name of the list, and is not plain. -/
theorem readChild_of_not_mem
    (hname : u.name ∉ NodeKind.all.map NodeKind.elementName ++ metadataNames)
    (hu : u.isPlain = false) (l : ProcessList) : readChild link options l u = .ok l := by
  rw [List.mem_append, not_or] at hname
  obtain ⟨hkind, hmetadata⟩ := hname
  have hnone : Node.read link options u = .ok none :=
    Node.read_eq_none (NodeKind.ofElementName?_eq_none.mpr hkind)
  have hcontains : metadataNames.contains u.name = false := by simpa using hmetadata
  rw [readChild, hnone]
  simp only [hcontains, hu]
  rfl

theorem read_splices (h : Splices xs ys e e')
    (hstep : ∀ l, ys.foldlM (readChild link options) l = xs.foldlM (readChild link options) l) :
    read link options e' = read link options e := by
  have hchildren := h.foldlM hstep
  obtain ⟨text, children, rfl⟩ := h.exists_eq
  dsimp only at hchildren
  unfold read
  dsimp only
  simp only [hchildren]
  rfl

/-- A list is read as it was, or fails in the same way, after an element is inserted that has no use
where it stands, whatever the element contains. -/
theorem read_of_grows {path : List String} (h : Grows u path e e') {names : List String}
    (hnames : claimedAt? path = some names) (hname : u.name ∉ names) (hu : u.isPlain = false) :
    read link options e' = read link options e := by
  cases h with
  | here h =>
    cases hnames
    refine read_splices h fun l => ?_
    rw [List.foldlM_cons, readChild_of_not_mem hname hu]
    rfl
  | @inside path c c' e e' hc h =>
    obtain ⟨kind, hkind, hnames⟩ := Option.bind_eq_some_iff.mp hnames
    -- Something is claimed inside the child, so it is of a kind and does not join the header.
    have hnode : Node.read link options c' = Node.read link options c :=
      Node.read_of_grows hc hkind hnames hname hu
    refine read_splices h fun l => ?_
    simp only [List.foldlM_cons, List.foldlM_nil, readChild, hnode]
    cases hread : Node.read link options c with
    | error fault => rfl
    | ok result =>
      cases result with
      | none => exact absurd hread (Node.read_ne_ok_none hkind)
      | some n => rfl

end ProcessList

end

end CommonLut
