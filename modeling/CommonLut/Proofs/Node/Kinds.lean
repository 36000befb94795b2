import CommonLut.Node.Evaluate
import CommonLut.Proofs.Operator.Curves
import CommonLut.Proofs.Operator.Tables

/-!
# The kinds of nodes read and read back

A node is read by its kind, the same way for every kind that is a single operation: by its schema.
The operation that is read back from a written element differs from the one that was written only in
its array, whose samples may have lost bits in their encoding. It is written and evaluated in the
same way.

Main definitions: `NodeKind.ownAttributes`, `NodeKind.Leaves`, `NodeKind.readNode`,
`Operation.Readable`, `Operation.Alike`, `Operation.reread`.
Main statements: `NodeKind.readNode_operation`, `Operation.readNode_written`.
-/

namespace CommonLut

/-! ## §1 Dispatch on the kind -/

namespace NodeKind

/-- The attributes that belong to a kind. -/
def ownAttributes : NodeKind → List String
  | matrix => Matrix.schema.ownAttributes
  | range => Range.schema.ownAttributes
  | cdl => Cdl.schema.ownAttributes
  | lut1D => Lut1D.schema.ownAttributes
  | lut3D => Lut3D.schema.ownAttributes
  | colorCorrection => []
  | log => LogCurve.schema.ownAttributes
  | gamma => GammaCurve.schema.ownAttributes
  | group => []
  | exposureContrast => ExposureContrast.schema.ownAttributes
  | reference => Target.schema.ownAttributes

/-- A kind has no use for children of a name. -/
def Leaves (options : ReadOptions) : NodeKind → String → Prop
  | matrix => Matrix.schema.Leaves options
  | range => Range.schema.Leaves options
  | cdl | colorCorrection => Cdl.schema.Leaves options
  | lut1D => Lut1D.schema.Leaves options
  | lut3D => Lut3D.schema.Leaves options
  | log => LogCurve.schema.Leaves options
  | gamma => GammaCurve.schema.Leaves options
  | group => fun name => ofElementName? name = none
  | exposureContrast => ExposureContrast.schema.Leaves options
  | reference => Target.schema.Leaves options

/-- The node of an element that is known to be of a kind. -/
def readNode (link : Link) (options : ReadOptions) (kind : NodeKind) (e : Element) :
    Except Error Node :=
  match kind with
  | matrix => Matrix.schema.readOperation .matrix options e
  | range => Range.schema.readOperation .range options e
  | cdl => Cdl.schema.readOperation .cdl options e
  | lut1D => Lut1D.schema.readOperation .lut1D options e
  | lut3D => Lut3D.schema.readOperation .lut3D options e
  | log => LogCurve.schema.readOperation .log options e
  | gamma => GammaCurve.schema.readOperation .gamma options e
  | exposureContrast => ExposureContrast.schema.readOperation .exposureContrast options e
  | colorCorrection => readColorCorrection options e
  | reference => readReference link options e
  | group => do
    let common ← NodeCommon.readAttributes e []
    let (common, nodes) ← Node.readInside link options common e.children
    pure (.group common nodes)

theorem ofElementName?_elementName (kind : NodeKind) :
    ofElementName? kind.elementName = some kind := by
  cases kind <;> rfl

theorem elementName_inj {kind kind' : NodeKind} :
    kind.elementName = kind'.elementName ↔ kind = kind' := by
  refine ⟨fun h => ?_, congrArg elementName⟩
  have hsome := congrArg ofElementName? h
  rwa [ofElementName?_elementName, ofElementName?_elementName, Option.some_inj] at hsome

end NodeKind

theorem Node.read_eq_none {link : Link} {options : ReadOptions} {e : Element}
    (h : NodeKind.ofElementName? e.name = none) : Node.read link options e = .ok none := by
  cases e
  rw [Node.read, h]

theorem Node.read_eq_of_kind {link : Link} {options : ReadOptions} {e : Element} {kind : NodeKind}
    (h : NodeKind.ofElementName? e.name = some kind) :
    Node.read link options e = do
      kind.require options
      return some (← kind.readNode link options e) := by
  cases e
  rw [Node.read, h]
  cases kind with
  -- Groups are read where the recursion is, so only here the two sides are not the same term.
  | group => simp only [NodeKind.readNode, bind_assoc, pure_bind]
  | _ => rfl

/-- What is read is nothing when the name is of no kind, and a node of the kind otherwise. -/
theorem Node.read_eq_ok {link : Link} {options : ReadOptions} {e : Element} {result : Option Node}
    (h : Node.read link options e = .ok result) :
    (NodeKind.ofElementName? e.name = none ∧ result = none) ∨
      ∃ kind n, NodeKind.ofElementName? e.name = some kind ∧ kind.require options = .ok () ∧
        kind.readNode link options e = .ok n ∧ result = some n := by
  cases hkind : NodeKind.ofElementName? e.name with
  | none =>
    rw [Node.read_eq_none hkind] at h
    cases h
    exact .inl ⟨rfl, rfl⟩
  | some kind =>
    rw [Node.read_eq_of_kind hkind] at h
    obtain ⟨⟨⟩, hrequire, h⟩ := bind_eq_ok.mp h
    obtain ⟨n, hn, h⟩ := bind_eq_ok.mp h
    cases h
    exact .inr ⟨kind, n, rfl, hrequire, hn, rfl⟩

/-! ## §2 Operations as they are read -/

/-- An operation as it is read from an element, for nodes of an output depth. -/
def Operation.Readable (options : ReadOptions) (output : BitDepth) : Operation → Prop
  | .matrix m => m.Readable options
  | .lut1D l => l.Readable options output
  | .lut3D l => l.Readable options output
  | .colorCorrection c => c.style = .fwd
  | _ => True

/-- A common part as nodes of an accepted kind have it. Of a colour correction nothing but children
is read. -/
structure NodeCommon.ReadableAs (options : ReadOptions) (kind : NodeKind) (c : NodeCommon) :
    Prop where
  accepted : kind.require options = .ok ()
  common : c.Readable options (kind.Leaves options) kind.ownAttributes
  bare : kind = .colorCorrection → c.bare = {}

section

variable {α : Type} {s : Schema α} {options : ReadOptions} {I : α → Prop} {build : α → Operation}

theorem Schema.readOperation_spec (hs : s.Orderly)
    (hstart : ∀ e p, s.readAttributes options e = .ok p → I p)
    (hstep : ∀ p child p', I p → s.readChild options p child = .ok (some p') → I p') {e : Element}
    (he : e.Parsed) {n : Node} (h : s.readOperation build options e = .ok n) :
    ∃ c p, n = .operation c (build p) ∧
      c.Readable options (s.Leaves options) s.ownAttributes ∧
        ∃ p₁, I p₁ ∧ s.finish e.name c.output p₁ = .ok p := by
  obtain ⟨⟨c, p⟩, hread, h⟩ := bind_eq_ok.mp h
  cases h
  obtain ⟨hc, hfinish⟩ := s.read_spec hs hstart hstep he hread
  exact ⟨c, p, rfl, hc, hfinish⟩

/-- Where nothing has to be known about the parameters. -/
theorem Schema.readOperation_common (hs : s.Orderly) {e : Element} (he : e.Parsed) {n : Node}
    (h : s.readOperation build options e = .ok n) :
    ∃ c p, n = .operation c (build p) ∧
      c.Readable options (s.Leaves options) s.ownAttributes := by
  obtain ⟨c, p, hn, hc, -⟩ := s.readOperation_spec (I := fun _ => True) hs (fun _ _ _ => trivial)
    (fun _ _ _ _ _ => trivial) he h
  exact ⟨c, p, hn, hc⟩

end

theorem readColorCorrection_spec {options : ReadOptions} {e : Element} (he : e.Parsed) {n : Node}
    (h : readColorCorrection options e = .ok n) :
    ∃ c p, n = .operation c (.colorCorrection p) ∧
      c.Readable options (Cdl.schema.Leaves options) [] ∧ c.bare = {} ∧ p.style = .fwd := by
  obtain ⟨⟨c, p⟩, hread, h⟩ := bind_eq_ok.mp h
  cases h
  obtain ⟨hc, hbare, p₁, hstyle, hfinish⟩ :=
    Cdl.schema.readChildren_spec (I := fun p => p.style = .fwd) Cdl.orderly
      (fun p child p' hp hchild => (Cdl.style_of_readChild hchild).trans hp) he
      NodeCommon.readable_default rfl hread
  cases hfinish
  exact ⟨c, p, rfl, hc, hbare, hstyle⟩

/-- An element of a kind with a single operation is read as such an operation. -/
theorem NodeKind.readNode_operation {link : Link} {options : ReadOptions} {kind : NodeKind}
    (hgroup : kind ≠ .group) (hreference : kind ≠ .reference)
    (haccepted : kind.require options = .ok ()) {e : Element} (he : e.Parsed) {n : Node}
    (h : kind.readNode link options e = .ok n) :
    ∃ c op, n = .operation c op ∧ op.kind = kind ∧ c.ReadableAs options kind ∧
      op.Readable options c.output := by
  -- Operations with arrays are pending until the check that follows the children.
  cases kind with
  | group => exact absurd rfl hgroup
  | reference => exact absurd rfl hreference
  | matrix =>
    obtain ⟨c, m, rfl, hc, m₁, hm₁, hfinish⟩ :=
      Matrix.schema.readOperation_spec (I := fun m => m.array.Pending options .matrix false)
        Matrix.orderly (fun e m hm => by cases hm; exact .inl rfl)
        (fun m child m' _ hm => Matrix.pending_of_readChild hm) he h
    exact ⟨c, .matrix m, rfl, rfl, ⟨haccepted, hc, nofun⟩, Matrix.readable_of_finish hm₁ hfinish⟩
  | lut1D =>
    obtain ⟨c, l, rfl, hc, l₁, hl₁, hfinish⟩ :=
      Lut1D.schema.readOperation_spec (I := fun l => l.Pending options) Lut1D.orderly
        (fun e l hl => Lut1D.pending_of_readAttributes hl)
        (fun l child l' hl hl' => Lut1D.pending_of_readChild hl hl') he h
    exact ⟨c, .lut1D l, rfl, rfl, ⟨haccepted, hc, nofun⟩, Lut1D.readable_of_finish hl₁ hfinish⟩
  | lut3D =>
    obtain ⟨c, l, rfl, hc, l₁, hl₁, hfinish⟩ :=
      Lut3D.schema.readOperation_spec (I := fun l => l.Pending options) Lut3D.orderly
        (fun e l hl => Lut3D.pending_of_readAttributes hl)
        (fun l child l' hl hl' => Lut3D.pending_of_readChild hl hl') he h
    exact ⟨c, .lut3D l, rfl, rfl, ⟨haccepted, hc, nofun⟩, Lut3D.readable_of_finish hl₁ hfinish⟩
  | colorCorrection =>
    obtain ⟨c, p, rfl, hc, hbare, hstyle⟩ := readColorCorrection_spec he h
    exact ⟨c, .colorCorrection p, rfl, rfl, ⟨haccepted, hc, fun _ => hbare⟩, hstyle⟩
  | range =>
    obtain ⟨c, r, rfl, hc⟩ := Range.schema.readOperation_common Range.orderly he h
    exact ⟨c, .range r, rfl, rfl, ⟨haccepted, hc, nofun⟩, trivial⟩
  | cdl =>
    obtain ⟨c, p, rfl, hc⟩ := Cdl.schema.readOperation_common Cdl.orderly he h
    exact ⟨c, .cdl p, rfl, rfl, ⟨haccepted, hc, nofun⟩, trivial⟩
  | log =>
    obtain ⟨c, p, rfl, hc⟩ := LogCurve.schema.readOperation_common LogCurve.orderly he h
    exact ⟨c, .log p, rfl, rfl, ⟨haccepted, hc, nofun⟩, trivial⟩
  | gamma =>
    obtain ⟨c, p, rfl, hc⟩ := GammaCurve.schema.readOperation_common GammaCurve.orderly he h
    exact ⟨c, .gamma p, rfl, rfl, ⟨haccepted, hc, nofun⟩, trivial⟩
  | exposureContrast =>
    obtain ⟨c, p, rfl, hc⟩ :=
      ExposureContrast.schema.readOperation_common ExposureContrast.orderly he h
    exact ⟨c, .exposureContrast p, rfl, rfl, ⟨haccepted, hc, nofun⟩, trivial⟩

/-! ## §3 Operations read back -/

namespace Operation

/-- Operations that are written and evaluated in the same way. -/
structure Alike (op op' : Operation) : Prop where
  kind : op'.kind = op.kind
  params : op'.writeParams = op.writeParams
  apply : op'.apply = op.apply

theorem Alike.refl (op : Operation) : op.Alike op := ⟨rfl, rfl, rfl⟩

/-- A colour correction is written without attributes, every other operation with them. -/
theorem write_eq (c : NodeCommon) (op : Operation) :
    op.write c =
      if op.kind = .colorCorrection then
        { name := op.kind.elementName, children := c.writeChildren ++ op.writeParams.2 }
      else c.element op.kind op.writeParams.1 op.writeParams.2 := by
  cases op <;> rfl

theorem Alike.write {op op' : Operation} (h : op.Alike op') (c : NodeCommon) :
    op'.write c = op.write c := by
  rw [write_eq, write_eq, h.kind, h.params]

theorem alike_matrix (m : Matrix Double) : Alike (.matrix m) (.matrix m.reread) := by
  refine ⟨rfl, Prod.ext rfl (Matrix.writeChildren_reread m), ?_⟩
  funext input output pixel
  exact congrFun (Matrix.apply_reread m) pixel

theorem alike_lut1D {options : ReadOptions} {output : BitDepth} {l : Lut1D}
    (hl : l.Readable options output) : Alike (.lut1D l) (.lut1D l.reread) := by
  refine ⟨rfl, Prod.ext rfl (Lut1D.writeChildren_reread hl), ?_⟩
  funext input output pixel
  exact congrFun (congrFun (Lut1D.apply_reread l) input) pixel

theorem alike_lut3D (l : Lut3D) : Alike (.lut3D l) (.lut3D l.reread) := by
  refine ⟨rfl, Prod.ext rfl (Lut3D.writeChildren_reread l), ?_⟩
  funext input output pixel
  exact congrFun (congrFun (Lut3D.apply_reread l) input) pixel

/-- An operation as it is after it has been written and read: only arrays may change. -/
def reread : Operation → Operation
  | matrix m => matrix m.reread
  | lut1D l => lut1D l.reread
  | lut3D l => lut3D l.reread
  | op => op

theorem alike_reread {options : ReadOptions} {output : BitDepth} {op : Operation}
    (hop : op.Readable options output) : op.Alike op.reread := by
  cases op with
  | matrix m => exact alike_matrix m
  | lut1D l => exact alike_lut1D hop
  | lut3D l => exact alike_lut3D l
  | range | cdl | colorCorrection | log | gamma | exposureContrast => exact .refl _

/-- The attributes of an operation's parameters belong to its kind. -/
theorem separate_writeParams {op : Operation} (hkind : op.kind ≠ .colorCorrection) :
    NodeCommon.Separate op.kind.ownAttributes op.writeParams.1 := by
  cases op with
  | matrix m => exact Matrix.orderly.separate m
  | range r => exact Range.orderly.separate r
  | cdl c => exact Cdl.orderly.separate c
  | colorCorrection c => exact absurd rfl hkind
  | lut1D l => exact Lut1D.orderly.separate l
  | lut3D l => exact Lut3D.orderly.separate l
  | log c => exact LogCurve.orderly.separate c
  | gamma c => exact GammaCurve.orderly.separate c
  | exposureContrast c => exact ExposureContrast.orderly.separate c

theorem writable_writeParams (op : Operation) : ∀ child ∈ op.writeParams.2, child.Writable := by
  cases op with
  | matrix m => exact Matrix.orderly.writable m
  | range r => exact Range.orderly.writable r
  | cdl c => exact Cdl.orderly.writable c
  | colorCorrection c => exact Cdl.orderly.writable c
  | lut1D l => exact Lut1D.orderly.writable l
  | lut3D l => exact Lut3D.orderly.writable l
  | log c => exact LogCurve.orderly.writable c
  | gamma c => exact GammaCurve.orderly.writable c
  | exposureContrast c => exact ExposureContrast.orderly.writable c

/-- An element with the attributes and children of an operation is read as the operation that
rereading it gives. The attributes of a colour correction do not count. -/
theorem readNode_written (link : Link) {options : ReadOptions} {c : NodeCommon} {op : Operation}
    (hc : c.ReadableAs options op.kind) (hop : op.Readable options c.output) {e : Element}
    (hattributes : op.kind ≠ .colorCorrection →
      c.Spelled op.kind.ownAttributes op.writeParams.1 e.attributes)
    (hchildren : e.children = c.writeChildren ++ op.writeParams.2) :
    op.kind.readNode link options e.trimmed = .ok (.operation c op.reread) := by
  have hcommon := hc.common
  cases op with
  | matrix m =>
    exact bind_eq_ok.mpr ⟨_, Schema.read_written Matrix.orderly
      hcommon (Matrix.readsBack c.output hop) (hattributes nofun) hchildren, rfl⟩
  | lut1D l =>
    exact bind_eq_ok.mpr ⟨_, Schema.read_written Lut1D.orderly
      hcommon (Lut1D.readsBack hop) (hattributes nofun) hchildren, rfl⟩
  | lut3D l =>
    exact bind_eq_ok.mpr ⟨_, Schema.read_written Lut3D.orderly
      hcommon (Lut3D.readsBack hop) (hattributes nofun) hchildren, rfl⟩
  | range r =>
    exact bind_eq_ok.mpr ⟨_, Schema.read_written Range.orderly hcommon
      (Range.readsBack options c.output r) (hattributes nofun) hchildren, rfl⟩
  | cdl p =>
    exact bind_eq_ok.mpr ⟨_, Schema.read_written Cdl.orderly hcommon
      (Cdl.readsBack options c.output p) (hattributes nofun) hchildren, rfl⟩
  | log p =>
    exact bind_eq_ok.mpr ⟨_, Schema.read_written LogCurve.orderly hcommon
      (LogCurve.readsBack options c.output p) (hattributes nofun) hchildren, rfl⟩
  | gamma p =>
    exact bind_eq_ok.mpr ⟨_, Schema.read_written GammaCurve.orderly hcommon
      (GammaCurve.readsBack options c.output p) (hattributes nofun) hchildren, rfl⟩
  | exposureContrast p =>
    exact bind_eq_ok.mpr ⟨_, Schema.read_written ExposureContrast.orderly hcommon
      (ExposureContrast.readsBack options c.output p) (hattributes nofun) hchildren, rfl⟩
  | colorCorrection p =>
    -- Its attributes are not read, so both parts start from their defaults.
    have hbare : c.bare = {} := hc.bare rfl
    have hstart : ({ Cdl.identity with style := p.style } : Cdl Float) = Cdl.identity := by
      rw [show p.style = CdlStyle.fwd from hop]
      rfl
    have hread := Schema.readChildren_written Cdl.orderly hcommon
      (Cdl.readsBack options c.output p) hchildren
    rw [hbare, hstart] at hread
    exact bind_eq_ok.mpr ⟨_, hread, rfl⟩

end Operation

end CommonLut
