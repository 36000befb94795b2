import CommonLut.Proofs.Node.Schema

/-!
# Decision lists, ranges and exposure read back

The parameters of these nodes are numbers and a style. Each number is written so that it is read as
the same number, and each style by its first spelling.

Main statements: `Cdl.orderly`, `Cdl.readsBack`, `Range.orderly`, `Range.readsBack`,
`ExposureContrast.orderly`, `ExposureContrast.readsBack`.
-/

namespace CommonLut

open NodeCommon (Separate)

/-- Attributes of kinds with nothing but a style. -/
theorem separate_style {own : List (String × String)}
    (h : (own.map Prod.fst).Sublist ["style"]) : Separate ["style"] own := by
  have hname : IsName "style" := by decide
  exact ⟨by decide, by simpa using hname, by decide, h⟩

/-! ## §1 Decision lists -/

namespace Cdl

theorem read_token (style : CdlStyle) : CdlStyle.read style.token = .ok style := by
  cases style <;> rfl

theorem readChild_eq_none (options : ReadOptions) (c : Cdl Float) (child : Element) :
    schema.readChild options c child = .ok none ↔
      child.name ∉ ["SOPNode", "SatNode", "SATNode"] := by
  unfold schema
  dsimp only
  split
  · next h => exact iff_of_false bind_some_ne_none (by simp [h])
  · next h => exact iff_of_false bind_some_ne_none (by simp [h])
  · next h => exact iff_of_false bind_some_ne_none (by simp [h])
  · next h₁ h₂ h₃ => exact iff_of_true rfl (by simpa using ⟨h₁, h₂, h₃⟩)

theorem tripleText_tripleElement (name : String) (p : Triple Float) :
    (tripleElement name p).trimmed.tripleText = .ok p := by
  obtain ⟨x, y, z⟩ := p
  refine Element.tripleText_format64 ?_
  rw [tripleElement, Element.trimmed_leaf, Element.text_leaf, Text.words_trim]
  refine Text.words_intercalate fun w hw => ?_
  obtain ⟨v, -, rfl⟩ := List.mem_map.mp hw
  exact Text.isWord_format64 v

/-- The element of slope, offset and power. -/
def sopElement (c : Cdl Float) : Element :=
  (Element.leaf "SOPNode" "").withChildren
    [tripleElement "Slope" c.slope, tripleElement "Offset" c.offset, tripleElement "Power" c.power]

/-- The element of the saturation. -/
def saturationElement (c : Cdl Float) : Element :=
  (Element.leaf "SatNode" "").withChildren
    [Element.leaf "Saturation" (Text.format64 c.saturation)]

theorem writeChildren_eq (c : Cdl Float) :
    schema.writeChildren c = [sopElement c, saturationElement c] := rfl

theorem orderly : schema.Orderly := by
  refine Schema.orderly_of_names _ readChild_eq_none (by decide) (by decide)
    (fun c => separate_style (List.Sublist.refl _)) ?_
  have hsop : IsName "SOPNode" := by decide
  have hslope : IsName "Slope" := by decide
  have hoffset : IsName "Offset" := by decide
  have hpower : IsName "Power" := by decide
  have hsat : IsName "SatNode" := by decide
  have hsaturation : IsName "Saturation" := by decide
  intro c child hchild
  simp only [writeChildren_eq, List.mem_cons, List.not_mem_nil, or_false] at hchild
  rcases hchild with rfl | rfl
  · refine Element.writable_iff.mpr ⟨hsop, by simp [sopElement, Element.leaf,
      Element.withChildren], fun part hpart => ?_⟩
    simp only [sopElement, Element.leaf, Element.withChildren, List.nil_append, List.mem_cons,
      List.not_mem_nil, or_false] at hpart
    rcases hpart with rfl | rfl | rfl
    · exact Element.writable_leaf hslope _
    · exact Element.writable_leaf hoffset _
    · exact Element.writable_leaf hpower _
  · refine Element.writable_iff.mpr ⟨hsat, by simp [saturationElement, Element.leaf,
      Element.withChildren], fun part hpart => ?_⟩
    simp only [saturationElement, Element.leaf, Element.withChildren, List.nil_append,
      List.mem_singleton] at hpart
    rw [hpart]
    exact Element.writable_leaf hsaturation _

/-- Slope, offset and power replace those that were there. -/
theorem readSop_written (start c : Cdl Float) :
    start.readSop (sopElement c).trimmed =
      .ok { start with slope := c.slope, offset := c.offset, power := c.power } := by
  have hname : ∀ name p, (tripleElement name p).trimmed.name = name := fun _ _ => by
    rw [Element.name_trimmed, tripleElement, Element.name_leaf]
  rw [readSop, Element.children_trimmed]
  simp only [sopElement, Element.leaf, Element.withChildren, List.nil_append, List.map_cons,
    List.map_nil, List.foldlM_cons, List.foldlM_nil, hname, tripleText_tripleElement]
  rfl

theorem readSaturation_written (start c : Cdl Float) :
    start.readSaturation (saturationElement c).trimmed =
      .ok { start with saturation := c.saturation } := by
  have hchild : (saturationElement c).trimmed.child? "Saturation" =
      some (Element.leaf "Saturation" (Text.format64 c.saturation)) := by
    rw [Element.child?, Element.children_trimmed]
    simp [saturationElement, Element.withChildren, Element.leaf,
      Text.trim_word (Text.isWord_format64 c.saturation), Element.trimmed_eq]
  unfold readSaturation
  rw [hchild]
  simp only [Element.numberText_format64 (Element.text_leaf "Saturation" _)]
  rfl

theorem readChild_sopElement (options : ReadOptions) (start c : Cdl Float) :
    schema.readChild options start (sopElement c).trimmed =
      .ok (some { start with slope := c.slope, offset := c.offset, power := c.power }) := by
  have hname : (sopElement c).trimmed.name = "SOPNode" := Element.name_trimmed _
  simp only [schema, hname, readSop_written]
  rfl

theorem readChild_saturationElement (options : ReadOptions) (start c : Cdl Float) :
    schema.readChild options start (saturationElement c).trimmed =
      .ok (some { start with saturation := c.saturation }) := by
  have hname : (saturationElement c).trimmed.name = "SatNode" := Element.name_trimmed _
  simp only [schema, hname, readSaturation_written]
  rfl

/-- The written children give all parameters but the style. -/
theorem children_written (options : ReadOptions) {start c : Cdl Float}
    (hstyle : start.style = c.style) (common : NodeCommon) :
    ((schema.writeChildren c).map Element.trimmed).foldlM (schema.step options) (common, start) =
      .ok (common, c) := by
  have hsaturation := readChild_saturationElement options
    { start with slope := c.slope, offset := c.offset, power := c.power } c
  rw [hstyle] at hsaturation
  -- The two elements give all fields but the style between them.
  rw [writeChildren_eq, List.map_cons, List.map_cons, List.map_nil]
  refine Schema.foldlM_step_cons (readChild_sopElement options start c) ?_
  rw [hstyle]
  exact Schema.foldlM_step_cons hsaturation rfl

theorem readsBack (options : ReadOptions) (depth : BitDepth) (c : Cdl Float) :
    schema.ReadsBack options depth c { identity with style := c.style } c c where
  attributes e he := by
    have hstyle : e.attribute? "style" = (some c.style).map CdlStyle.token :=
      he "style" (by decide)
    refine bind_eq_ok.mpr ⟨_, Schema.readToken?_token read_token hstyle, ?_⟩
    rfl
  children common := by
    have hstyle : ({ identity with style := c.style } : Cdl Float).style = c.style := rfl
    exact children_written options hstyle common
  check _ := rfl

theorem style_of_readSop {c c' : Cdl Float} {e : Element} (h : c.readSop e = .ok c') :
    c'.style = c.style := by
  refine foldlM_invariant (P := fun r : Cdl Float => r.style = c.style) ?_ rfl h
  intro r r' part _ hr hpart
  split at hpart
  · obtain ⟨v, -, hpart⟩ := bind_eq_ok.mp hpart
    cases hpart
    exact hr
  · obtain ⟨v, -, hpart⟩ := bind_eq_ok.mp hpart
    cases hpart
    exact hr
  · obtain ⟨v, -, hpart⟩ := bind_eq_ok.mp hpart
    cases hpart
    exact hr
  · cases hpart
    exact hr

theorem style_of_readSaturation {c c' : Cdl Float} {e : Element}
    (h : c.readSaturation e = .ok c') : c'.style = c.style := by
  unfold readSaturation at h
  split at h
  · obtain ⟨v, -, h⟩ := bind_eq_ok.mp h
    cases h
    rfl
  · cases h
    rfl

/-- Children say nothing about the style. -/
theorem style_of_readChild {options : ReadOptions} {c c' : Cdl Float} {child : Element}
    (h : schema.readChild options c child = .ok (some c')) : c'.style = c.style := by
  unfold schema at h
  dsimp only at h
  split at h
  · obtain ⟨r, hr, h⟩ := bind_eq_ok.mp h
    cases h
    exact style_of_readSop hr
  · obtain ⟨r, hr, h⟩ := bind_eq_ok.mp h
    cases h
    exact style_of_readSaturation hr
  · obtain ⟨r, hr, h⟩ := bind_eq_ok.mp h
    cases h
    exact style_of_readSaturation hr
  · cases h

end Cdl

/-! ## §2 Ranges -/

namespace Range

theorem read_token (style : RangeStyle) : RangeStyle.read style.token = .ok style := by
  cases style <;> rfl

theorem readChild_eq_none (options : ReadOptions) (r : Range Float) (child : Element) :
    schema.readChild options r child = .ok none ↔
      child.name ∉ ["minInValue", "maxInValue", "minOutValue", "maxOutValue"] := by
  unfold schema
  dsimp only
  split
  · next h => exact iff_of_false bind_some_ne_none (by simp [h])
  · next h => exact iff_of_false bind_some_ne_none (by simp [h])
  · next h => exact iff_of_false bind_some_ne_none (by simp [h])
  · next h => exact iff_of_false bind_some_ne_none (by simp [h])
  · next h₁ h₂ h₃ h₄ => exact iff_of_true rfl (by simpa using ⟨h₁, h₂, h₃, h₄⟩)

theorem writable_boundElement {name : String} (hname : IsName name) (x : Option Float) :
    ∀ child ∈ boundElement name x, child.Writable := by
  cases x with
  | none => simp [boundElement]
  | some x =>
    simp only [boundElement, List.mem_singleton, forall_eq]
    exact Element.writable_leaf hname _

theorem writeChildren_eq (r : Range Float) :
    schema.writeChildren r =
      boundElement "minInValue" r.minIn ++ boundElement "maxInValue" r.maxIn ++
        boundElement "minOutValue" r.minOut ++ boundElement "maxOutValue" r.maxOut := rfl

theorem orderly : schema.Orderly := by
  refine Schema.orderly_of_names _ readChild_eq_none (by decide) (by decide)
    (fun r => separate_style ?_) ?_
  · cases h : r.style <;> simp [schema, h]
  · intro r child hchild
    rw [writeChildren_eq, List.mem_append, List.mem_append, List.mem_append] at hchild
    rcases hchild with ((hchild | hchild) | hchild) | hchild
    · exact writable_boundElement (by decide) _ child hchild
    · exact writable_boundElement (by decide) _ child hchild
    · exact writable_boundElement (by decide) _ child hchild
    · exact writable_boundElement (by decide) _ child hchild

/-- A bound that is written is set, one that is not stays as it is. -/
theorem foldlM_boundElement {options : ReadOptions} {name : String} {x : Option Float}
    {before after : Range Float} (hnone : x = none → after = before)
    (hsome : ∀ v child, x = some v → child.name = name → child.numberText = .ok v →
      schema.readChild options before child = .ok (some after)) (common : NodeCommon) :
    ((boundElement name x).map Element.trimmed).foldlM (schema.step options) (common, before) =
      .ok (common, after) := by
  cases x with
  | none =>
    rw [hnone rfl]
    rfl
  | some x =>
    have htext : (Element.leaf name (Text.format64 x)).trimmed.numberText = .ok x := by
      refine Element.numberText_format64 ?_
      rw [Element.trimmed_leaf, Element.text_leaf, Text.trim_word (Text.isWord_format64 x)]
    have hname : (Element.leaf name (Text.format64 x)).trimmed.name = name := by
      rw [Element.name_trimmed, Element.name_leaf]
    exact Schema.foldlM_step_cons (hsome x _ rfl hname htext) rfl

theorem readsBack (options : ReadOptions) (depth : BitDepth) (r : Range Float) :
    schema.ReadsBack options depth r { style := r.style } r r where
  attributes e he := by
    have hstyle : e.attribute? "style" = r.style.map RangeStyle.token := by
      rw [he "style" (by decide)]
      cases h : r.style <;> simp [schema, h]
    exact bind_eq_ok.mpr ⟨_, Schema.readToken?_token read_token hstyle, rfl⟩
  children common := by
    obtain ⟨minIn, maxIn, minOut, maxOut, style⟩ := r
    -- The bounds are read one after the other, each into what those before it have given.
    have h₁ : ((boundElement "minInValue" minIn).map Element.trimmed).foldlM
        (schema.step options) (common, { style }) = .ok (common, { style, minIn }) :=
      foldlM_boundElement (fun h => by rw [h])
        (fun v child hx hname hv => by simp only [schema, hname, hv, hx]; rfl) common
    have h₂ : ((boundElement "maxInValue" maxIn).map Element.trimmed).foldlM
        (schema.step options) (common, { style, minIn }) =
          .ok (common, { style, minIn, maxIn }) :=
      foldlM_boundElement (fun h => by rw [h])
        (fun v child hx hname hv => by simp only [schema, hname, hv, hx]; rfl) common
    have h₃ : ((boundElement "minOutValue" minOut).map Element.trimmed).foldlM
        (schema.step options) (common, { style, minIn, maxIn }) =
          .ok (common, { style, minIn, maxIn, minOut }) :=
      foldlM_boundElement (fun h => by rw [h])
        (fun v child hx hname hv => by simp only [schema, hname, hv, hx]; rfl) common
    have h₄ : ((boundElement "maxOutValue" maxOut).map Element.trimmed).foldlM
        (schema.step options) (common, { style, minIn, maxIn, minOut }) =
          .ok (common, { style, minIn, maxIn, minOut, maxOut }) :=
      foldlM_boundElement (fun h => by rw [h])
        (fun v child hx hname hv => by simp only [schema, hname, hv, hx]; rfl) common
    rw [writeChildren_eq, List.map_append, List.map_append, List.map_append, List.append_assoc,
      List.append_assoc, foldlM_append_of_ok h₁, foldlM_append_of_ok h₂, foldlM_append_of_ok h₃, h₄]
  check _ := rfl

end Range

/-! ## §3 Exposure and contrast -/

namespace ExposureContrast

theorem read_token (style : ExposureStyle) : ExposureStyle.read style.token = .ok style := by
  cases style <;> rfl

theorem readChild_eq_none (options : ReadOptions) (c : ExposureContrast Float) (child : Element) :
    schema.readChild options c child = .ok none ↔ child.name ∉ ["ECParams"] := by
  unfold schema
  dsimp only
  split
  · next h =>
    refine iff_of_false (fun hnone => ?_) (by simp [h])
    obtain ⟨exposure, -, hnone⟩ := bind_eq_ok.mp hnone
    obtain ⟨contrast, -, hnone⟩ := bind_eq_ok.mp hnone
    exact bind_some_ne_none hnone
  · next h => exact iff_of_true rfl (by simpa using h)

/-- The element of exposure, contrast and pivot. -/
def paramsElement (c : ExposureContrast Float) : Element :=
  (((Element.leaf "ECParams" "").withAttribute "exposure"
    (Text.format64 c.exposure)).withAttribute "contrast"
    (Text.format64 c.contrast)).withAttribute "pivot" (Text.format64 c.pivot)

theorem orderly : schema.Orderly := by
  refine Schema.orderly_of_names _ readChild_eq_none (by decide) (by decide)
    (fun c => separate_style (List.Sublist.refl _)) ?_
  have hparams : IsName "ECParams" := by decide
  have hexposure : IsName "exposure" := by decide
  have hcontrast : IsName "contrast" := by decide
  have hpivot : IsName "pivot" := by decide
  intro c child hchild
  rw [show schema.writeChildren c = [paramsElement c] from rfl, List.mem_singleton] at hchild
  rw [hchild]
  exact ((((Element.keysWithin_leaf "ECParams" "").withAttribute "exposure" _).withAttribute
    "contrast" _).withAttribute "pivot" _).writable hparams
      (by simp [hexposure, hcontrast, hpivot]) (by decide) (fun c hc => absurd hc List.not_mem_nil)

theorem readChild_paramsElement (options : ReadOptions) (start c : ExposureContrast Float) :
    schema.readChild options start (paramsElement c).trimmed =
      .ok (some { start with
        exposure := c.exposure
        contrast := c.contrast
        pivot := c.pivot }) := by
  have hname : (paramsElement c).trimmed.name = "ECParams" := Element.name_trimmed _
  have hexposure : (paramsElement c).trimmed.numberAttribute "exposure" = .ok (some c.exposure) :=
    Element.numberAttribute_format64 (by simp [paramsElement])
  have hcontrast : (paramsElement c).trimmed.numberAttribute "contrast" = .ok (some c.contrast) :=
    Element.numberAttribute_format64 (by simp [paramsElement])
  have hpivot : (paramsElement c).trimmed.numberAttribute "pivot" = .ok (some c.pivot) :=
    Element.numberAttribute_format64 (by simp [paramsElement])
  simp only [schema, hname, if_true, hexposure, hcontrast, hpivot]
  rfl

theorem readsBack (options : ReadOptions) (depth : BitDepth) (c : ExposureContrast Float) :
    schema.ReadsBack options depth c (neutral c.style) c c where
  attributes e he := by
    have hstyle : e.attribute? "style" = some c.style.token := he "style" (by decide)
    exact bind_eq_ok.mpr ⟨_, Element.requiredAttribute_of_some hstyle,
      bind_eq_ok.mpr ⟨_, read_token c.style, rfl⟩⟩
  children common := by
    rw [show schema.writeChildren c = [paramsElement c] from rfl, List.map_cons, List.map_nil]
    exact Schema.foldlM_step_cons (readChild_paramsElement options _ c) rfl
  check _ := rfl

end ExposureContrast

end CommonLut
