import CommonLut.Proofs.Node.Lookups

/-!
# Features of the extensions

A node may use features that belong to an extension: by its kind, by a part that it carries, or by
the way its samples are spelled. Each of them is checked where it is read, in the kind, the
attributes or a child. What has been read so far is admitted by the profile, and every step of
reading keeps this, so a node that is read uses no feature that the profile refuses.

Main definitions: `Node.Uses`, `Node.Admitted`.
Main statements: `Node.admitted_of_read`, `Node.Admitted.accepts_of_uses`.
-/

namespace CommonLut

/-! ## §1 Features -/

namespace Operation

/-- The array of samples in an operation. -/
def samples? : Operation → Option (SampleArray Double)
  | matrix m => some m.array
  | lut1D l => some l.array
  | lut3D l => some l.array
  | _ => none

/-- The index maps of an operation. -/
def indexMaps : Operation → List (IndexMap Float)
  | lut1D l => l.indexMaps
  | lut3D l => l.indexMaps
  | _ => []

/-- Whether an operation is a one-dimensional table over the half floats. -/
def halfDomain : Operation → Bool
  | lut1D l => l.halfDomain
  | _ => false

/-- Whether an operation is a one-dimensional table of half patterns. -/
def rawHalfs : Operation → Bool
  | lut1D l => l.rawHalfs
  | _ => false

end Operation

/-- A node by itself uses a feature of an extension; the nodes inside it do not count. -/
inductive Node.Uses : Extension → Node → Prop
  | reference {n : Node} (h : n.kind = .reference) : Uses .autodesk n
  | exposureContrast {n : Node} (h : n.kind = .exposureContrast) : Uses .autodesk n
  | dynamicParameter {n : Node} (h : n.common.dynamicParams ≠ []) : Uses .autodesk n
  | indexMap {c : NodeCommon} {op : Operation} (h : op.indexMaps ≠ []) :
      Uses .autodesk (.operation c op)
  | halfDomain {c : NodeCommon} {op : Operation} (h : op.halfDomain = true) :
      Uses .autodesk (.operation c op)
  | rawHalfs {c : NodeCommon} {op : Operation} (h : op.rawHalfs = true) :
      Uses .autodesk (.operation c op)
  | group {n : Node} (h : n.kind = .group) : Uses .duikerResearch n
  | colorCorrection {n : Node} (h : n.kind = .colorCorrection) : Uses .duikerResearch n
  | log {n : Node} (h : n.kind = .log) : Uses .duikerResearch n
  | gamma {n : Node} (h : n.kind = .gamma) : Uses .duikerResearch n
  | encoding {c : NodeCommon} {op : Operation} {a : SampleArray Double}
      (hsamples : op.samples? = some a) (h : a.encoding ≠ .text) :
      Uses .duikerResearch (.operation c op)
  /-- A tabulated index map is an array too. -/
  | tableEncoding {c : NodeCommon} {op : Operation} {m : IndexMap Float} {table : SampleArray Float}
      (hmem : m ∈ op.indexMaps) (htable : m.cache = some table) (h : table.encoding ≠ .text) :
      Uses .duikerResearch (.operation c op)

variable {options : ReadOptions}

/-! ## §2 Checks -/

theorem ReadOptions.accepts_of_require {x : Extension} {feature : String}
    (h : options.require x feature = .ok ()) : options.profile.accepts x = true := by
  unfold require at h
  split at h
  · assumption
  · cases h

theorem NodeKind.accepts_of_require {kind : NodeKind} {x : Extension}
    (hextension : kind.extension? = some x) (h : kind.require options = .ok ()) :
    options.profile.accepts x = true := by
  unfold NodeKind.require at h
  rw [hextension] at h
  exact ReadOptions.accepts_of_require h

theorem SampleArray.accepts_of_read {layout : ArrayLayout} {rawHalfs : Bool} {e : Element}
    {a : SampleArray Double} (h : read options layout rawHalfs e = .ok a)
    (hencoding : a.encoding ≠ .text) : options.profile.accepts .duikerResearch = true := by
  unfold read at h
  obtain ⟨text, -, h⟩ := bind_eq_ok.mp h
  obtain ⟨dims, -, h⟩ := bind_eq_ok.mp h
  obtain ⟨encoding, hread, h⟩ := bind_eq_ok.mp h
  obtain ⟨values, -, h⟩ := bind_eq_ok.mp h
  obtain ⟨rfl, -⟩ := check_eq_ok.mp (mapError_eq_ok.mp h)
  exact ReadOptions.accepts_of_require (readEncoding_spec hread hencoding)

/-- The table of an index map holds plain numbers. -/
theorem IndexMap.Readable.encoding_cache {m : IndexMap Float} (h : m.Readable options)
    {table : SampleArray Float} (htable : m.cache = some table) : table.encoding = .text := by
  rw [h.tabulated] at htable
  split at htable
  · cases htable
    rfl
  · cases htable

/-! ## §3 Parts of a node -/

/-- The parts of a common part that need an extension are admitted by the profile. -/
def NodeCommon.Admitted (options : ReadOptions) (c : NodeCommon) : Prop :=
  c.dynamicParams ≠ [] → options.profile.accepts .autodesk = true

/-- The parts of an operation that need an extension are admitted by the profile. -/
structure Operation.Admitted (options : ReadOptions) (op : Operation) : Prop where
  samples : ∀ a, op.samples? = some a → a.encoding ≠ .text →
    options.profile.accepts .duikerResearch = true
  indexMaps : ∀ m ∈ op.indexMaps, m.Readable options
  halfDomain : op.halfDomain = true → options.profile.accepts .autodesk = true
  rawHalfs : op.rawHalfs = true → options.profile.accepts .autodesk = true

/-- The kind of a node and its parts are admitted by the profile. -/
structure Node.Admitted (options : ReadOptions) (n : Node) : Prop where
  kind : n.kind.require options = .ok ()
  common : n.common.Admitted options
  operation : ∀ c op, n = .operation c op → op.Admitted options

/-- A node that is admitted uses no feature that the profile refuses. -/
theorem Node.Admitted.accepts_of_uses {n : Node} (hn : n.Admitted options) {x : Extension}
    (h : n.Uses x) : options.profile.accepts x = true := by
  -- A feature that is a kind of node is checked before anything else of the node is read.
  have hkind : ∀ {kind : NodeKind}, n.kind = kind → kind.extension? = some x →
      options.profile.accepts x = true := by
    rintro _ rfl hextension
    exact NodeKind.accepts_of_require hextension hn.kind
  cases h with
  | reference h => exact hkind h rfl
  | exposureContrast h => exact hkind h rfl
  | dynamicParameter h => exact hn.common h
  | indexMap h =>
    obtain ⟨m, hm⟩ := List.exists_mem_of_ne_nil _ h
    exact ReadOptions.accepts_of_require ((hn.operation _ _ rfl).indexMaps m hm).accepted
  | halfDomain h => exact (hn.operation _ _ rfl).halfDomain h
  | rawHalfs h => exact (hn.operation _ _ rfl).rawHalfs h
  | group h => exact hkind h rfl
  | colorCorrection h => exact hkind h rfl
  | log h => exact hkind h rfl
  | gamma h => exact hkind h rfl
  | encoding hsamples h => exact (hn.operation _ _ rfl).samples _ hsamples h
  | tableEncoding hmem htable h =>
    exact absurd (((hn.operation _ _ rfl).indexMaps _ hmem).encoding_cache htable) h

/-! ## §4 Reading keeps what is admitted -/

namespace NodeCommon

theorem admitted_of_readAttributes {e : Element} {kindAttributes : List String} {c : NodeCommon}
    (h : readAttributes e kindAttributes = .ok c) : c.Admitted options := by
  have hnone : c.dynamicParams = [] := (congrArg dynamicParams (of_readAttributes h).1).symm
  exact fun hsome => absurd hnone hsome

theorem admitted_of_readChild {c c' : NodeCommon} {child : Element} (hc : c.Admitted options)
    (h : c.readChild options child = .ok c') : c'.Admitted options := by
  obtain ⟨-, rfl⟩ | ⟨-, hrequire, -⟩ | ⟨-, x, -, -, rfl⟩ | rfl := readChild_cases h
  · exact hc
  · exact fun _ => ReadOptions.accepts_of_require hrequire
  · exact hc
  · exact hc

end NodeCommon

/-- An operation with an array is admitted as soon as the array and the index maps are. -/
theorem Operation.admitted_of_samples {op : Operation} {a : SampleArray Double}
    (hsamples : op.samples? = some a)
    (ha : a.encoding ≠ .text → options.profile.accepts .duikerResearch = true)
    (hmaps : ∀ m ∈ op.indexMaps, m.Readable options)
    (hhalfDomain : op.halfDomain = true → options.profile.accepts .autodesk = true)
    (hrawHalfs : op.rawHalfs = true → options.profile.accepts .autodesk = true) :
    op.Admitted options where
  samples a' ha' := by
    cases hsamples.symm.trans ha'
    exact ha
  indexMaps := hmaps
  halfDomain := hhalfDomain
  rawHalfs := hrawHalfs

/-- Before its children are read, an operation has the empty array and no index map. -/
theorem Operation.admitted_of_empty {op : Operation} (hsamples : op.samples? = some {})
    (hmaps : op.indexMaps = [])
    (hhalfDomain : op.halfDomain = true → options.profile.accepts .autodesk = true)
    (hrawHalfs : op.rawHalfs = true → options.profile.accepts .autodesk = true) :
    op.Admitted options := by
  refine admitted_of_samples hsamples (fun hencoding => absurd rfl hencoding) (fun m hm => ?_)
    hhalfDomain hrawHalfs
  rw [hmaps] at hm
  exact absurd hm List.not_mem_nil

namespace Matrix

variable {m m' : Matrix Double}

theorem admitted_of_readAttributes {e : Element} (h : schema.readAttributes options e = .ok m) :
    Operation.Admitted options (.matrix m) := by
  cases h
  exact Operation.admitted_of_empty rfl rfl nofun nofun

theorem admitted_of_readChild {child : Element}
    (h : schema.readChild options m child = .ok (some m')) :
    Operation.Admitted options (.matrix m') := by
  obtain ⟨a, ha, rfl⟩ := exists_of_readChild h
  exact Operation.admitted_of_samples rfl (SampleArray.accepts_of_read ha)
    (fun m hm => absurd hm List.not_mem_nil) nofun nofun

theorem admitted_of_finish {name : String} {depth : BitDepth}
    (hm : Operation.Admitted options (.matrix m)) (h : schema.finish name depth m = .ok m') :
    Operation.Admitted options (.matrix m') := by
  obtain ⟨rfl, -⟩ := of_finish h
  exact hm

end Matrix

namespace Lut1D

variable {l l' : Lut1D}

theorem admitted_of_readAttributes {e : Element} (h : schema.readAttributes options e = .ok l) :
    Operation.Admitted options (.lut1D l) := by
  obtain ⟨⟨harray, hmaps⟩, hhalfDomain, hrawHalfs⟩ := of_readAttributes h
  -- The flags were checked when they were found to be set.
  exact Operation.admitted_of_empty (congrArg some harray) hmaps
    (fun hset => ReadOptions.accepts_of_require (hhalfDomain hset))
    (fun hset => ReadOptions.accepts_of_require (hrawHalfs hset))

theorem admitted_of_readChild {child : Element} (hl : Operation.Admitted options (.lut1D l))
    (h : schema.readChild options l child = .ok (some l')) :
    Operation.Admitted options (.lut1D l') := by
  obtain ⟨m, hm, rfl⟩ | ⟨a, ha, rfl⟩ := readChild_cases h
  · exact ⟨hl.samples, IndexMap.readable_append hl.indexMaps hm, hl.halfDomain, hl.rawHalfs⟩
  · exact Operation.admitted_of_samples rfl (SampleArray.accepts_of_read ha) hl.indexMaps
      hl.halfDomain hl.rawHalfs

theorem admitted_of_finish {name : String} {depth : BitDepth}
    (hl : Operation.Admitted options (.lut1D l)) (h : schema.finish name depth l = .ok l') :
    Operation.Admitted options (.lut1D l') := by
  obtain ⟨-, -, rfl⟩ := of_finish h
  exact Operation.admitted_of_samples rfl (hl.samples l.array rfl) hl.indexMaps hl.halfDomain
    hl.rawHalfs

end Lut1D

namespace Lut3D

variable {l l' : Lut3D}

theorem admitted_of_readAttributes {e : Element} (h : schema.readAttributes options e = .ok l) :
    Operation.Admitted options (.lut3D l) := by
  obtain ⟨harray, hmaps⟩ := of_readAttributes h
  exact Operation.admitted_of_empty (congrArg some harray) hmaps nofun nofun

theorem admitted_of_readChild {child : Element} (hl : Operation.Admitted options (.lut3D l))
    (h : schema.readChild options l child = .ok (some l')) :
    Operation.Admitted options (.lut3D l') := by
  obtain ⟨m, hm, rfl⟩ | ⟨a, ha, rfl⟩ := readChild_cases h
  · exact ⟨hl.samples, IndexMap.readable_append hl.indexMaps hm, nofun, nofun⟩
  · exact Operation.admitted_of_samples rfl (SampleArray.accepts_of_read ha) hl.indexMaps nofun
      nofun

theorem admitted_of_finish {name : String} {depth : BitDepth}
    (hl : Operation.Admitted options (.lut3D l)) (h : schema.finish name depth l = .ok l') :
    Operation.Admitted options (.lut3D l') := by
  obtain ⟨-, -, rfl⟩ := of_finish h
  exact Operation.admitted_of_samples rfl (hl.samples l.array rfl) hl.indexMaps nofun nofun

end Lut3D

/-! ## §5 Nodes -/

/-- Only operations with an array have parts that need an extension. -/
theorem Operation.admitted_of_kind {op : Operation}
    (h : op.kind ∉ [NodeKind.matrix, NodeKind.lut1D, NodeKind.lut3D]) : op.Admitted options := by
  cases op with
  | matrix | lut1D | lut3D => simp [kind] at h
  | _ => exact ⟨nofun, fun m hm => absurd hm List.not_mem_nil, nofun, nofun⟩

namespace Schema

variable {α : Type} {s : Schema α} {build : α → Operation} {e : Element} {c : NodeCommon}
  {op : Operation}

/-- The common part and the operation of a node are admitted if each step of the schema keeps the
operation so. -/
theorem admitted_of_readOperation
    (hstart : ∀ p, s.readAttributes options e = .ok p → (build p).Admitted options)
    (hchild : ∀ p child p', (build p).Admitted options →
      s.readChild options p child = .ok (some p') → (build p').Admitted options)
    (hfinish : ∀ name depth p p', (build p).Admitted options →
      s.finish name depth p = .ok p' → (build p').Admitted options)
    (h : s.readOperation build options e = .ok (.operation c op)) :
    c.Admitted options ∧ op.Admitted options := by
  obtain ⟨⟨c, p⟩, hread, hnode⟩ := bind_eq_ok.mp h
  cases hnode
  obtain ⟨hc, p₁, hp₁, hp⟩ := read_invariant
    (fun c hc => NodeCommon.admitted_of_readAttributes hc) hstart hchild
    (fun c child c' hc hc' => NodeCommon.admitted_of_readChild hc hc') hread
  exact ⟨hc, hfinish _ _ p₁ p hp₁ hp⟩

theorem admitted_of_kind (build : α → Operation)
    (hbuild : ∀ p, (build p).kind ∉ [NodeKind.matrix, NodeKind.lut1D, NodeKind.lut3D])
    (h : s.readOperation build options e = .ok (.operation c op)) :
    c.Admitted options ∧ op.Admitted options :=
  admitted_of_readOperation (fun p _ => Operation.admitted_of_kind (hbuild p))
    (fun _ _ p _ _ => Operation.admitted_of_kind (hbuild p))
    (fun _ _ _ p _ _ => Operation.admitted_of_kind (hbuild p)) h

end Schema

/-- The kind of an element is the kind of the node that is read from it. -/
theorem NodeKind.kind_of_readNode {kind : NodeKind} {link : Link} {e : Element} {n : Node}
    (h : kind.readNode link options e = .ok n) : n.kind = kind := by
  cases kind with
  | group =>
    obtain ⟨c₀, c, nodes, -, -, rfl⟩ := Node.exists_of_readNode_group h
    rfl
  | reference =>
    obtain ⟨c, t, list?, -, -, rfl⟩ := exists_of_readReference h
    cases list? <;> rfl
  | _ =>
    obtain ⟨⟨c, p⟩, -, h⟩ := bind_eq_ok.mp h
    cases h
    rfl

theorem NodeKind.admitted_of_readNode {kind : NodeKind} {link : Link} {e : Element}
    {c : NodeCommon} {op : Operation} (h : kind.readNode link options e = .ok (.operation c op)) :
    c.Admitted options ∧ op.Admitted options := by
  obtain ⟨hgroup, hreference⟩ := Node.single_of_readNode h
  cases kind with
  | group => exact absurd rfl hgroup
  | reference => exact absurd rfl hreference
  | matrix =>
    exact Schema.admitted_of_readOperation (fun _ hp => Matrix.admitted_of_readAttributes hp)
      (fun _ _ _ _ hp => Matrix.admitted_of_readChild hp)
      (fun _ _ _ _ hp hp' => Matrix.admitted_of_finish hp hp') h
  | lut1D =>
    exact Schema.admitted_of_readOperation (fun _ hp => Lut1D.admitted_of_readAttributes hp)
      (fun _ _ _ hp hp' => Lut1D.admitted_of_readChild hp hp')
      (fun _ _ _ _ hp hp' => Lut1D.admitted_of_finish hp hp') h
  | lut3D =>
    exact Schema.admitted_of_readOperation (fun _ hp => Lut3D.admitted_of_readAttributes hp)
      (fun _ _ _ hp hp' => Lut3D.admitted_of_readChild hp hp')
      (fun _ _ _ _ hp hp' => Lut3D.admitted_of_finish hp hp') h
  | colorCorrection =>
    obtain ⟨⟨c, p⟩, hread, hnode⟩ := bind_eq_ok.mp h
    cases hnode
    -- Its attributes are not read at all, so the common part starts out empty.
    obtain ⟨hc, -⟩ := Schema.readChildren_invariant (I := fun _ => True)
      (J := NodeCommon.Admitted options) (fun _ _ _ _ _ => trivial)
      (fun c child c' hc hc' => NodeCommon.admitted_of_readChild hc hc')
      (fun hne => absurd rfl hne) trivial hread
    exact ⟨hc, Operation.admitted_of_kind (by simp [Operation.kind])⟩
  | range => exact Schema.admitted_of_kind .range (by simp [Operation.kind]) h
  | cdl => exact Schema.admitted_of_kind .cdl (by simp [Operation.kind]) h
  | log => exact Schema.admitted_of_kind .log (by simp [Operation.kind]) h
  | gamma => exact Schema.admitted_of_kind .gamma (by simp [Operation.kind]) h
  | exposureContrast =>
    exact Schema.admitted_of_kind .exposureContrast (by simp [Operation.kind]) h

/-- The children of a group keep its common part admitted. -/
theorem Node.admitted_of_readInside {link : Link} {es : List Element} {c c' : NodeCommon}
    {nodes : List Node} (hc : c.Admitted options)
    (h : readInside link options c es = .ok (c', nodes)) : c'.Admitted options := by
  induction es generalizing c nodes with
  | nil =>
    cases h
    exact hc
  | cons e es ih =>
    rcases readInside_cons h with ⟨n, ns, -, hinside, rfl⟩ | ⟨next, -, hnext, hinside⟩
    · exact ih hc hinside
    · exact ih (NodeCommon.admitted_of_readChild hc hnext) hinside

/-- A node that is read is admitted, whatever its kind. -/
theorem Node.admitted_of_read {link : Link} {e : Element} {n : Node}
    (h : Node.read link options e = .ok (some n)) : n.Admitted options := by
  refine read_induction (motive := Node.Admitted options) ?operation ?reference ?group h
  case operation =>
    intro kind e c op hrequire hread
    obtain ⟨hc, hop⟩ := NodeKind.admitted_of_readNode hread
    have hkind : op.kind = kind := NodeKind.kind_of_readNode hread
    rw [← hkind] at hrequire
    refine ⟨hrequire, hc, fun c' op' heq => ?_⟩
    cases heq
    exact hop
  case reference =>
    intro e c t list? hrequire htarget _
    obtain ⟨hc, -⟩ := Schema.read_invariant (I := fun _ => True)
      (fun c hc => NodeCommon.admitted_of_readAttributes hc) (fun _ _ => trivial)
      (fun _ _ _ _ _ => trivial) (fun c child c' hc hc' => NodeCommon.admitted_of_readChild hc hc')
      htarget
    cases list? with
    | none => exact ⟨hrequire, hc, fun _ _ heq => nomatch heq⟩
    | some list => exact ⟨hrequire, hc, fun _ _ heq => nomatch heq⟩
  case group =>
    intro e c₀ c nodes hrequire hattributes hinside _
    exact ⟨hrequire, admitted_of_readInside (NodeCommon.admitted_of_readAttributes hattributes)
      hinside, fun _ _ heq => nomatch heq⟩

end CommonLut
