import CommonLut.Proofs.Binary.Comparison
import CommonLut.Proofs.Document.Bytes

/-!
# Colour corrections

Containers see a colour correction as a node on single floats, and its element says nothing of
style, depths and flags: whatever they were, the node that is read back runs the clamping forward
list at single floats and is active. The node in memory still evaluates with the style and the
depths that it holds, so it agrees with its element where the style is the forward one and the
depths are floats.

Main definitions: `Cdl.clampedForward`, `NodeCommon.Keepable`, `NodeCommon.childrenOnly`.
Main statements: `Node.ofElement_colorCorrection_spec`, `Node.colorCorrection_readBack`.
-/

namespace CommonLut

open Binary (single double Datum)

/-! ## §1 The clamping forward list -/

/-- What stands above zero has no sign. -/
theorem Binary.Datum.sign_of_place {d : Datum} (h : (Datum.finite false 0 0).place < d.place) :
    (∃ m e, d = .finite false m e) ∨ d = .infinite false ∨ ∃ s p, d = .nan s p := by
  cases d with
  | nan s p => exact .inr (.inr ⟨s, p, rfl⟩)
  | infinite s =>
    cases s with
    | false => exact .inr (.inl rfl)
    | true => exact absurd h not_lt_bot
  | finite s m e =>
    cases s with
    | false => exact .inl ⟨m, e, rfl⟩
    | true =>
      have hvalue : (Datum.finite false 0 0).value < (Datum.finite true m e).value :=
        WithTop.coe_lt_coe.mp (WithBot.coe_lt_coe.mp h)
      have hnonneg : (0 : ℚ) ≤ m * 2 ^ e := by positivity
      simp only [Datum.value, Binary.signed, Nat.cast_zero, zero_mul, Bool.false_eq_true, if_false,
        if_true] at hvalue
      linarith

/-- A positive double is narrowed to a pattern without a sign. -/
theorem Binary.Machine.toBits_narrow_lt {x : Float} (hx : 0.0 < x) :
    (Machine.narrow x).toBits.toNat < single.signBit := by
  obtain ⟨hzero, hnumber⟩ := isNaN_of_lt hx
  have hplace := (lt_iff_place hzero hnumber).mp hx
  have hzero' : place 0.0 = (Datum.finite false 0 0).place := by
    have hdecode : double.decode (0.0 : Float).toBits.toNat = .finite false 0 (-1074) := by decide
    rw [place, hdecode]
    simp [Datum.place, Datum.value, signed]
  rw [hzero', place] at hplace
  -- Magnitudes are rounded without their sign, and to no more than the infinity.
  obtain ⟨n, hn, hconvert⟩ : ∃ n ≤ single.infinityBits,
      double.convert single x.toBits.toNat = single.withSign false n := by
    rw [Format.convert]
    rcases Datum.sign_of_place hplace with ⟨m, e, h⟩ | h | ⟨s, p, h⟩
    · rw [h]
      exact single.exists_nearest_eq false m 1 e
    · rw [h]
      exact ⟨_, le_rfl, rfl⟩
    · exact absurd h ((unpacked_double x).number hnumber s p)
  have hlt : n < single.signBit := hn.trans_lt single.infinityBits_lt_signBit
  have hnat : (UInt32.ofNat n).toNat = n := UInt32.toNat_ofNat_of_lt' (hlt.trans (by decide))
  have hbits := Single.toBits_ofBits (b := UInt32.ofNat n) (by
    rw [hnat]
    exact Format.decode_withSign_ne_nan false hn)
  rw [Machine.narrow, hconvert]
  show (Float32.ofBits (UInt32.ofNat n)).toBits.toNat < _
  rw [hbits, hnat]
  exact hlt

/-- Clamping leaves no sign. -/
theorem Scalar.toBits_narrow_unitClamp_lt (x : Float) :
    (narrow (unitClamp x) : Float32).toBits.toNat < single.signBit := by
  show (Binary.Machine.narrow (atMost 1.0 (atLeast 0.0 x))).toBits.toNat < _
  unfold atMost atLeast
  split
  · split
    · exact Binary.Machine.toBits_narrow_lt (by assumption)
    · decide +kernel
  · decide +kernel

namespace Cdl

/-- A decision list with the forward style. -/
def clamping (c : Cdl Float) : Cdl Float := { c with style := .fwd }

/-- Slope, offset, power and saturation forward, with clamping, on single floats; a pixel with fewer
than three channels stays as it is. -/
def clampedForward (c : Cdl Float) (pixel : Pixel Float32) : Pixel Float32 :=
  pixel.mapTriple fun p => (c.clamping.forward (p.map widen)).map narrow

/-- With the forward style and float depths a list is applied as the clamping forward one. -/
theorem apply_eq_clampedForward {c : Cdl Float} (hstyle : c.style = .fwd) {input output : BitDepth}
    (hinput : input.isFloat = true) (houtput : output.isFloat = true) :
    c.apply input output = c.clampedForward := by
  have hclamping : c.clamping = c := by rw [clamping, ← hstyle]
  have hnormalize : ∀ x : Float32, input.normalize x = x := fun x => if_pos hinput
  have hdenormalize : ∀ x : Float32, output.denormalize x = x := fun x => if_pos houtput
  have hgrade : c.grade = c.forward := by
    funext p
    rw [grade, hstyle]
    rfl
  funext pixel
  simp only [apply, clampedForward, hclamping, hnormalize, hdenormalize, hgrade]

/-- The colours that the clamping forward list gives have no signs. -/
theorem toBits_clampedForward_lt (c : Cdl Float) (r g b : Float32) (rest : Pixel Float32) :
    ∃ r' g' b', c.clampedForward (r :: g :: b :: rest) = r' :: g' :: b' :: rest ∧
      ∀ x ∈ [r', g', b'], x.toBits.toNat < single.signBit := by
  refine ⟨_, _, _, rfl, fun x hx => ?_⟩
  simp only [List.mem_cons, List.not_mem_nil, or_false] at hx
  rcases hx with rfl | rfl | rfl
  · exact Scalar.toBits_narrow_unitClamp_lt _
  · exact Scalar.toBits_narrow_unitClamp_lt _
  · exact Scalar.toBits_narrow_unitClamp_lt _

theorem apply_clamping (c : Cdl Float) : c.clamping.apply .float32 .float32 = c.clampedForward :=
  apply_eq_clampedForward (c := c.clamping) rfl rfl rfl

end Cdl

/-! ## §2 What the element says -/

/-- A text that starts and ends with words is not trimmed. -/
theorem Text.trim_between {s t : String} (hs : IsWord s) (ht : IsWord t) (middle : String) :
    trim (s ++ middle ++ t) = s ++ middle ++ t := by
  -- At each end the first character is one of a word, so nothing is dropped.
  have hends : ∀ {w : String}, IsWord w → ∀ (before : List Char) (after : List Char),
      (w.toList ++ after).dropWhile isBlank = w.toList ++ after ∧
        (w.toList.reverse ++ before).dropWhile isBlank = w.toList.reverse ++ before := by
    intro w hw before after
    have hne : w.toList ≠ [] := fun h => hw.1 (String.toList_eq_nil_iff.mp h)
    obtain ⟨c, cs, hc⟩ := List.exists_cons_of_ne_nil hne
    obtain ⟨d, ds, hd⟩ := List.exists_cons_of_ne_nil (mt List.reverse_eq_nil_iff.mp hne)
    have hfirst : isBlank c = false := hw.2 c (by simp [hc])
    have hlast : isBlank d = false := hw.2 d (List.mem_reverse.mp (by simp [hd]))
    rw [hd, hc]
    simp [hfirst, hlast]
  refine String.toList_inj.mp ?_
  rw [toList_trim, String.toList_append, String.toList_append, trimChars, List.append_assoc,
    (hends hs [] _).1, ← List.append_assoc, List.reverse_append, (hends ht _ []).2,
    ← List.reverse_append, List.reverse_reverse]

namespace Cdl

variable {options : ReadOptions}

theorem trimmed_tripleElement (name : String) (p : Triple Float) :
    (tripleElement name p).trimmed = tripleElement name p := by
  obtain ⟨x, y, z⟩ := p
  have htext : " ".intercalate ([x, y, z].map Text.format64) =
      Text.format64 x ++ (" " ++ Text.format64 y ++ " ") ++ Text.format64 z := by
    show Text.format64 x ++ " " ++ Text.format64 y ++ " " ++ Text.format64 z = _
    simp only [String.append_assoc]
  rw [tripleElement, Element.trimmed_leaf, htext,
    Text.trim_between (Text.isWord_format64 x) (Text.isWord_format64 z)]

theorem trimmed_withChildren {name : String} {children : List Element}
    (hchildren : ∀ child ∈ children, child.trimmed = child) :
    ((Element.leaf name "").withChildren children).trimmed =
      (Element.leaf name "").withChildren children := by
  have hmap : children.map Element.trimmed = children :=
    (List.map_congr_left hchildren).trans (List.map_id' children)
  rw [Element.trimmed_eq]
  simp only [Element.withChildren, Element.leaf, List.nil_append, hmap, Text.trim_empty]

theorem trimmed_sopElement (c : Cdl Float) : (sopElement c).trimmed = sopElement c :=
  trimmed_withChildren (by simp [trimmed_tripleElement])

theorem trimmed_saturationElement (c : Cdl Float) :
    (saturationElement c).trimmed = saturationElement c :=
  trimmed_withChildren (by simp [Text.trim_word (Text.isWord_format64 c.saturation)])

theorem map_trimmed_writeChildren (c : Cdl Float) :
    (schema.writeChildren c).map Element.trimmed = schema.writeChildren c := by
  rw [writeChildren_eq, List.map_cons, List.map_cons, List.map_nil, trimmed_sopElement,
    trimmed_saturationElement]

/-- The written parameters replace all that were read before, and the style is none of them. -/
theorem foldlM_writeChildren (options : ReadOptions) (common : NodeCommon) {start : Cdl Float}
    (hstart : start.style = .fwd) (c : Cdl Float) :
    (schema.writeChildren c).foldlM (schema.step options) (common, start) =
      .ok (common, c.clamping) := by
  have hwritten := children_written options (c := c.clamping) hstart common
  rw [map_trimmed_writeChildren] at hwritten
  exact hwritten

end Cdl

namespace NodeCommon

/-- What an element without attributes says of the common part. -/
def childrenOnly (c : NodeCommon) : NodeCommon :=
  { elements := c.elements, values := c.values, dynamicParams := c.dynamicParams }

/-- The texts of the descriptions trimmed. -/
def trimmed (c : NodeCommon) : NodeCommon := { c with elements := c.elements.map Element.trimmed }

/-- The children of the common part are read as what they are. -/
structure Keepable (options : ReadOptions) (c : NodeCommon) : Prop where
  elements : ∀ d ∈ c.elements, d.name = "Description"
  values : ∀ v ∈ c.values,
    v.1 ∉ ["Description", "DynamicParameter", "SOPNode", "SatNode", "SATNode"]
  accepted : c.dynamicParams ≠ [] → options.require .autodesk "DynamicParameter" = .ok ()

variable {options : ReadOptions} {c : NodeCommon}

theorem Keepable.trimmed (hc : Keepable options c) : Keepable options c.trimmed := by
  refine ⟨fun d hd => ?_, hc.values, hc.accepted⟩
  obtain ⟨d', hd', rfl⟩ := List.mem_map.mp hd
  rw [Element.name_trimmed]
  exact hc.elements d' hd'

/-- Only descriptions have texts with blanks. -/
theorem writeChildren_trimmed (c : NodeCommon) :
    c.trimmed.writeChildren = c.writeChildren.map Element.trimmed := by
  have hvalues : c.values.map (Element.trimmed ∘ fun v => Element.leaf v.1 (Text.format64 v.2)) =
      c.values.map fun v => Element.leaf v.1 (Text.format64 v.2) := by
    refine List.map_congr_left fun v _ => ?_
    rw [Function.comp_apply, Element.trimmed_leaf, Text.trim_word (Text.isWord_format64 v.2)]
  have hparams : c.dynamicParams.map (Element.trimmed ∘ fun p =>
      (Element.leaf "DynamicParameter" "").withAttribute "param" p) =
      c.dynamicParams.map fun p =>
        (Element.leaf "DynamicParameter" "").withAttribute "param" p := by
    refine List.map_congr_left fun p _ => ?_
    rw [Function.comp_apply, Element.trimmed_eq]
    rfl
  simp only [writeChildren, NodeCommon.trimmed, List.map_append, List.map_map, hvalues, hparams]

theorem readChild_descriptions (c : NodeCommon) {ds : List Element}
    (hds : ∀ d ∈ ds, d.name = "Description") :
    ds.foldlM (readChild options) c = .ok { c with elements := c.elements ++ ds } := by
  induction ds generalizing c with
  | nil => simp [pure, Except.pure]
  | cons d ds ih =>
    have hread : c.readChild options d = .ok { c with elements := c.elements ++ [d] } :=
      if_pos (hds d List.mem_cons_self)
    rw [List.foldlM_cons, hread]
    refine (ih _ fun d' hd' => hds d' (List.mem_cons_of_mem d hd')).trans ?_
    simp

theorem Keepable.readChild_writeChildren (hc : Keepable options c) :
    c.writeChildren.foldlM (readChild options) {} = .ok c.childrenOnly := by
  have hvalues : ∀ v ∈ c.values, v.1 ≠ "Description" ∧ v.1 ≠ "DynamicParameter" := by
    intro v hv
    have hname := hc.values v hv
    simp only [List.mem_cons, not_or] at hname
    exact ⟨hname.1, hname.2.1⟩
  have htrimmed : (c.values.map fun v => Element.leaf v.1 (Text.format64 v.2)) ++
      (c.dynamicParams.map fun p => (Element.leaf "DynamicParameter" "").withAttribute "param" p) =
      ((c.values.map fun v => Element.leaf v.1 (Text.format64 v.2)).map Element.trimmed) ++
      ((c.dynamicParams.map fun p =>
        (Element.leaf "DynamicParameter" "").withAttribute "param" p).map Element.trimmed) := by
    have hchildren := writeChildren_trimmed { c with elements := [] }
    simpa [writeChildren, NodeCommon.trimmed] using hchildren
  rw [writeChildren, List.append_assoc, htrimmed,
    foldlM_append_of_ok (readChild_descriptions {} hc.elements),
    foldlM_append_of_ok (readChild_values _ hvalues), readChild_dynamicParams _ hc.accepted]
  simp [childrenOnly]

/-- A decision list has no use for the children of the common part. -/
theorem Keepable.leaves (hc : Keepable options c) :
    ∀ child ∈ c.writeChildren, Cdl.schema.Leaves options child.name := by
  have hleaves : ∀ {name : String}, name ∉ ["SOPNode", "SatNode", "SATNode"] →
      Cdl.schema.Leaves options name := fun hname =>
    Schema.leaves_of_not_mem Cdl.readChild_eq_none hname options
  intro child hchild
  simp only [writeChildren, List.mem_append, List.mem_map] at hchild
  rcases hchild with (hchild | ⟨v, hv, rfl⟩) | ⟨p, -, rfl⟩
  · rw [hc.elements child hchild]
    exact hleaves (by decide)
  · exact hleaves fun hname => hc.values v hv
      (List.mem_cons_of_mem _ (List.mem_cons_of_mem _ hname))
  · have hparameter : "DynamicParameter" ∉ ["SOPNode", "SatNode", "SATNode"] := by decide
    exact hleaves hparameter

end NodeCommon

/-! ## §3 The node that is read back -/

section

variable {store : Store} {options : ReadOptions} {c : NodeCommon} {p : Cdl Float}

theorem Operation.write_colorCorrection (c : NodeCommon) (p : Cdl Float) :
    (Operation.colorCorrection p).write c =
      { name := "ColorCorrection", children := c.writeChildren ++ Cdl.schema.writeChildren p } :=
  rfl

theorem Operation.trimmed_write_colorCorrection (c : NodeCommon) (p : Cdl Float) :
    ((Operation.colorCorrection p).write c).trimmed =
      (Operation.colorCorrection p).write c.trimmed := by
  rw [Element.trimmed_eq]
  simp only [Operation.write_colorCorrection, List.map_append, Cdl.map_trimmed_writeChildren,
    NodeCommon.writeChildren_trimmed, Text.trim_empty]

/-- The children of the common part are read from the defaults; they touch neither the style nor
what attributes would have given. -/
theorem Cdl.forward_of_children {children : List Element} {common : NodeCommon} {start : Cdl Float}
    (h : children.foldlM (schema.step options) ({}, identity) = .ok (common, start)) :
    common.bare = {} ∧ start.style = .fwd := by
  refine foldlM_invariant (P := fun state : NodeCommon × Cdl Float =>
    state.1.bare = {} ∧ state.2.style = .fwd) ?_ ⟨rfl, rfl⟩ h
  rintro state state' child - ⟨hbare, hstyle⟩ hstep
  rcases Schema.step_eq_ok.mp hstep with ⟨q, htaken, rfl⟩ | ⟨c, -, hread, rfl⟩
  · exact ⟨hbare, (style_of_readChild htaken).trans hstyle⟩
  · exact ⟨(NodeCommon.bare_of_readChild hread).trans hbare, hstyle⟩

/-- A written colour correction is read if its common children are, as a clamping forward one. -/
theorem readColorCorrection_write {n : Node} :
    readColorCorrection options ((Operation.colorCorrection p).write c) = .ok n ↔
      ∃ common start,
        c.writeChildren.foldlM (Cdl.schema.step options) ({}, Cdl.identity) = .ok (common, start) ∧
        n = .operation common (.colorCorrection p.clamping) := by
  unfold readColorCorrection Schema.readChildren
  rw [Operation.write_colorCorrection]
  constructor
  · intro h
    obtain ⟨⟨common, params⟩, hread, h⟩ := bind_eq_ok.mp h
    cases h
    obtain ⟨⟨common', params'⟩, hfold, hread⟩ := bind_eq_ok.mp hread
    cases hread
    -- Whatever the common children made of the parameters, the written ones replace.
    rw [List.foldlM_append] at hfold
    obtain ⟨⟨common'', start⟩, hcommon, hpayload⟩ := bind_eq_ok.mp hfold
    obtain ⟨-, hstyle⟩ := Cdl.forward_of_children hcommon
    rw [Cdl.foldlM_writeChildren options common'' hstyle p] at hpayload
    cases hpayload
    exact ⟨common, start, hcommon, rfl⟩
  · rintro ⟨common, start, hcommon, rfl⟩
    obtain ⟨-, hstyle⟩ := Cdl.forward_of_children hcommon
    refine bind_eq_ok.mpr
      ⟨(common, p.clamping), bind_eq_ok.mpr ⟨(common, p.clamping), ?_, rfl⟩, rfl⟩
    rw [foldlM_append_of_ok hcommon, Cdl.foldlM_writeChildren options common hstyle p]

namespace Node

theorem read_colorCorrection (link : Link) (options : ReadOptions) (c : NodeCommon)
    (p : Cdl Float) :
    Node.read link options ((Operation.colorCorrection p).write c) = do
      NodeKind.colorCorrection.require options
      return some (← readColorCorrection options ((Operation.colorCorrection p).write c)) :=
  read_eq_of_kind rfl

/-- Whatever a written colour correction is read back as, by whatever options: the node is active,
and it runs the clamping forward list. -/
theorem ofElement_colorCorrection_spec {n : Node}
    (h : Node.ofElement store options ((Operation.colorCorrection p).write c) = .ok (some n)) :
    n.eval = p.clampedForward ∧ n.isBypassed = false := by
  rw [ofElement, read_colorCorrection] at h
  obtain ⟨⟨⟩, -, h⟩ := bind_eq_ok.mp h
  obtain ⟨n', hread, h⟩ := bind_eq_ok.mp h
  cases h
  obtain ⟨common, start, hcommon, rfl⟩ := readColorCorrection_write.mp hread
  obtain ⟨hbare, -⟩ := Cdl.forward_of_children hcommon
  have hinput : common.input = .float32 := congrArg NodeCommon.input hbare
  have houtput : common.output = .float32 := congrArg NodeCommon.output hbare
  have hbypass : common.bypass = none := congrArg NodeCommon.bypass hbare
  constructor
  · funext pixel
    rw [eval, hinput, houtput]
    exact congrFun p.apply_clamping pixel
  · exact congrArg (fun bypass => bypass.getD false) hbypass

theorem read_write_colorCorrection (link : Link)
    (haccepted : NodeKind.colorCorrection.require options = .ok ()) (hc : c.Keepable options) :
    Node.read link options ((Operation.colorCorrection p).write c) =
      .ok (some (.operation c.childrenOnly (.colorCorrection p.clamping))) := by
  have hcommon := Schema.foldlM_step_of_leaves hc.leaves Cdl.identity hc.readChild_writeChildren
  rw [read_colorCorrection]
  exact bind_eq_ok.mpr ⟨(), haccepted, bind_eq_ok.mpr
    ⟨_, readColorCorrection_write.mpr ⟨_, _, hcommon, rfl⟩, rfl⟩⟩

end Node

/-! ## §4 Documents -/

/-- The elements and names of the common part can be parsed again. -/
structure NodeCommon.WritableChildren (c : NodeCommon) : Prop where
  elements : ∀ d ∈ c.elements, d.Writable
  values : ∀ v ∈ c.values, IsName v.1

theorem Operation.writable_colorCorrection (hc : c.WritableChildren) (p : Cdl Float) :
    ((Operation.colorCorrection p).write c).Writable := by
  have hname : IsName "ColorCorrection" := by decide
  have hparameter : IsName "DynamicParameter" := by decide
  have hparam : IsName "param" := by decide
  rw [Operation.write_colorCorrection]
  refine Element.writable_iff.mpr ⟨hname, by simp, fun child hchild => ?_⟩
  rcases List.mem_append.mp hchild with hchild | hchild
  · simp only [NodeCommon.writeChildren, List.mem_append, List.mem_map] at hchild
    rcases hchild with (hchild | ⟨v, hv, rfl⟩) | ⟨q, -, rfl⟩
    · exact hc.elements child hchild
    · exact Element.writable_leaf (hc.values v hv) _
    · exact ((Element.keysWithin_leaf "DynamicParameter" "").withAttribute "param" q).writable
        hparameter (by simpa using hparam) (by decide) fun c hc => absurd hc List.not_mem_nil
  · exact Cdl.orderly.writable p child hchild

/-- A list with a colour correction and nothing else. -/
def ProcessList.ofColorCorrection (id : String) (c : NodeCommon) (p : Cdl Float) : ProcessList :=
  { header := { id }, nodes := [.operation c (.colorCorrection p)] }

/-- Its element. -/
def Element.colorCorrectionList (id : String) (c : NodeCommon) (p : Cdl Float) : Element :=
  { name := "ProcessList", attributes := [("id", id)],
    children := [(Operation.colorCorrection p).write c] }

theorem Element.writable_colorCorrectionList (id : String) (hc : c.WritableChildren)
    (p : Cdl Float) : (colorCorrectionList id c p).Writable := by
  have hname : IsName "ProcessList" := by decide
  have hid : IsName "id" := by decide
  refine Element.writable_iff.mpr ⟨hname, ?_, ?_⟩
  · simpa [colorCorrectionList] using hid
  · simpa [colorCorrectionList] using Operation.writable_colorCorrection hc p

namespace ProcessList

theorem read_colorCorrectionList (link : Link) (id : String)
    (haccepted : NodeKind.colorCorrection.require options = .ok ()) (hc : c.Keepable options) :
    read link options (Element.colorCorrectionList id c p).trimmed =
      .ok { header := { id },
            nodes := [.operation c.trimmed.childrenOnly (.colorCorrection p.clamping)] } := by
  have hid : (Element.colorCorrectionList id c p).trimmed.requiredAttribute "id" = .ok id := by
    refine Element.requiredAttribute_of_some ?_
    rw [Element.attribute?_trimmed]
    rfl
  refine read_of_nodes (Element.name_trimmed _) hid ?_
  rw [Element.children_trimmed, Element.colorCorrectionList, List.map_singleton,
    Operation.trimmed_write_colorCorrection]
  exact .cons (Node.read_write_colorCorrection _ haccepted hc.trimmed) .nil

/-- The document of a list is the same element, whether it is written self-contained or not, and
compressed or not. -/
theorem ofBytes_ofColorCorrection (store : Store) (id : String)
    (haccepted : NodeKind.colorCorrection.require options = .ok ()) (hc : c.Keepable options)
    (hwritable : c.WritableChildren) (w : WriteOptions) :
    ofBytes store options ((ofColorCorrection id c p).toBytes w) =
      .ok { header := { id },
            nodes := [.operation c.trimmed.childrenOnly (.colorCorrection p.clamping)] } := by
  obtain ⟨selfContained, gzip⟩ := w
  have hbytes : (ofColorCorrection id c p).toBytes { selfContained } =
      (Element.colorCorrectionList id c p).toBytes := rfl
  rw [ofBytes, readBytes, rootElement_gzip, hbytes]
  exact ofBytes_toBytes_of_read (Element.writable_colorCorrectionList id hwritable p)
    (read_colorCorrectionList _ id haccepted hc)

end ProcessList

/-- A colour correction in memory, as its containers see it, and as it is read back. In memory it is
evaluated with the style and the depths that it holds, which is the clamping forward list if the
style is the forward one and the depths are floats. Its element and its document are read back as a
node that runs the clamping forward list at single floats whatever they were, and that is active
whether the node was bypassed or not. -/
theorem Node.colorCorrection_readBack (store : Store) (id : String)
    (haccepted : NodeKind.colorCorrection.require options = .ok ()) (hc : c.Keepable options)
    (hwritable : c.WritableChildren) :
    (Node.operation c (.colorCorrection p)).input = .float32 ∧
    (Node.operation c (.colorCorrection p)).output = .float32 ∧
    (Node.operation c (.colorCorrection p)).eval = p.apply c.input c.output ∧
    (p.style = .fwd → c.input.isFloat = true → c.output.isFloat = true →
      (Node.operation c (.colorCorrection p)).eval = p.clampedForward) ∧
    (∀ selfContained, ∃ e n, (Node.operation c (.colorCorrection p)).write selfContained = [e] ∧
      Node.ofElement store options e = .ok (some n) ∧
      n = .operation c.childrenOnly (.colorCorrection p.clamping) ∧
      n.eval = p.clampedForward ∧ n.isBypassed = false) ∧
    ∀ w, ∃ n, ProcessList.ofBytes store options ((ProcessList.ofColorCorrection id c p).toBytes w) =
        .ok { header := { id }, nodes := [n] } ∧
      n = .operation c.trimmed.childrenOnly (.colorCorrection p.clamping) ∧
      n.eval = p.clampedForward ∧ n.isBypassed = false := by
  have hread := Node.read_write_colorCorrection (p := p) (freeLink store options) haccepted hc
  have hread' := Node.read_write_colorCorrection (p := p) (freeLink store options) haccepted
    hc.trimmed
  have heval : (Node.operation c (.colorCorrection p)).eval = p.apply c.input c.output := by
    funext pixel
    rw [Node.eval]
    rfl
  refine ⟨rfl, rfl, heval, fun hstyle hinput houtput => ?_, fun selfContained => ?_, fun w => ?_⟩
  · rw [heval, Cdl.apply_eq_clampedForward hstyle hinput houtput]
  · exact ⟨_, _, by rw [Node.write], hread, rfl, Node.ofElement_colorCorrection_spec hread⟩
  · exact ⟨_, ProcessList.ofBytes_ofColorCorrection store id haccepted hc hwritable w, rfl,
      Node.ofElement_colorCorrection_spec hread'⟩

end

/-- A bypassed node for pixels of ten bits, with a description to be trimmed. -/
def NodeCommon.bypassedTenBit : NodeCommon :=
  { id := some "grade", input := .uint10, bypass := some true
    elements := [.leaf "Description" " warm "], values := [("Level", 2.0)] }

/-- A decision list that runs backwards and does not clamp. -/
def Cdl.unclampedReverse : Cdl Float :=
  { Cdl.identity with offset := (0.5, 0.0, -0.5), style := .revNoClamp }

theorem Node.colorCorrection_readBack_reverse :
    NodeKind.colorCorrection.require {} = .ok () ∧ NodeCommon.bypassedTenBit.Keepable {} ∧
      NodeCommon.bypassedTenBit.WritableChildren ∧
      ∃ e n, (Node.operation .bypassedTenBit (.colorCorrection .unclampedReverse)).write false =
          [e] ∧
        Node.ofElement { workingDirectory := [] } {} e = .ok (some n) ∧
        n.eval = Cdl.unclampedReverse.clampedForward ∧ n.isBypassed = false := by
  have haccepted : NodeKind.colorCorrection.require {} = .ok () := rfl
  have hc : NodeCommon.bypassedTenBit.Keepable {} :=
    ⟨by decide, by simp [NodeCommon.bypassedTenBit], nofun⟩
  have hdescription : IsName "Description" := by decide
  have hlevel : IsName "Level" := by decide
  have hwritable : NodeCommon.bypassedTenBit.WritableChildren := by
    constructor
    · simpa [NodeCommon.bypassedTenBit] using Element.writable_leaf hdescription _
    · simpa [NodeCommon.bypassedTenBit] using hlevel
  obtain ⟨-, -, -, -, hwrite, -⟩ := Node.colorCorrection_readBack (p := .unclampedReverse)
    { workingDirectory := [] } "list" haccepted hc hwritable
  obtain ⟨e, n, he, hread, -, hmeaning⟩ := hwrite false
  exact ⟨haccepted, hc, hwritable, e, n, he, hread, hmeaning⟩

/-- The identity without clamping. -/
def Cdl.unclampedIdentity : Cdl Float := { Cdl.identity with style := .fwdNoClamp }

/-- A style that does not clamp lets a negative colour through, and a bypassed node is skipped;
neither is in the element. -/
theorem Node.exists_unlike_readBack :
    ∃ (c : NodeCommon) (p : Cdl Float) (pixel : Pixel Float32),
      (Node.operation c (.colorCorrection p)).eval pixel = pixel ∧ p.clampedForward pixel ≠ pixel ∧
      (Node.operation c (.colorCorrection p)).isBypassed = true ∧
      ∃ n, Node.ofElement { workingDirectory := [] } {} ((Operation.colorCorrection p).write c) =
          .ok (some n) ∧
        n.eval pixel ≠ pixel ∧ n.isBypassed = false := by
  have hchanged : Cdl.unclampedIdentity.clampedForward [-1.0, -1.0, -1.0] ≠ [-1.0, -1.0, -1.0] := by
    obtain ⟨r, g, b, heq, hsigns⟩ :=
      Cdl.unclampedIdentity.toBits_clampedForward_lt (-1.0) (-1.0) (-1.0) []
    have hsign : single.signBit ≤ (-1.0 : Float32).toBits.toNat := by decide +kernel
    -- What has been clamped has lost its sign.
    intro h
    rw [heq] at h
    cases h
    exact (hsigns _ List.mem_cons_self).not_ge hsign
  have hc : NodeCommon.Keepable {} { bypass := some true } := ⟨nofun, nofun, nofun⟩
  have hread := Node.read_write_colorCorrection (p := .unclampedIdentity)
    (freeLink { workingDirectory := [] } {}) rfl hc
  obtain ⟨heval, hactive⟩ := Node.ofElement_colorCorrection_spec hread
  refine ⟨{ bypass := some true }, .unclampedIdentity, [-1.0, -1.0, -1.0], ?_, hchanged, rfl, _,
    hread, ?_, hactive⟩
  · decide +kernel
  · rw [heval]
    exact hchanged

end CommonLut
