import CommonLut.Operator.Cdl
import CommonLut.Operator.ExposureContrast
import CommonLut.Operator.GammaCurve
import CommonLut.Operator.LogCurve
import CommonLut.Operator.Lut1D
import CommonLut.Operator.Lut3D
import CommonLut.Operator.Matrix
import CommonLut.Operator.Range
import CommonLut.Node.Read
import CommonLut.Proofs.Runs

/-!
# Errors in a node

Whatever is wrong with an element, reading it never reports a fault of following references: a cycle
and a nesting that is too deep are found by the lookup of targets and by nothing else. This holds of
the access to attributes and texts, of arrays and index maps, and so of every kind of node.

Main definitions: `Error.Local`, `Schema.FailsLocally`.
Main statements: `Schema.FailsLocally.read`, and `failsLocally` of each kind.
-/

namespace CommonLut

/-- An error of a document itself, not of the way in which its references lead. -/
def Error.Local : Error → Prop
  | .circularReference _ | .referenceDepth _ => False
  | _ => True

open Error (Local)

/-! ## §1 Attributes and texts -/

theorem ReadOptions.local_require (options : ReadOptions) (x : Extension) (feature : String) :
    FailsWith Local (options.require x feature) := by
  unfold ReadOptions.require
  split
  · exact .ok ()
  · exact .error trivial

namespace Element

theorem local_requiredAttribute (e : Element) (key : String) :
    FailsWith Local (e.requiredAttribute key) := by
  unfold requiredAttribute
  split
  · exact .ok _
  · exact .error trivial

theorem local_numberAttribute (e : Element) (key : String) :
    FailsWith Local (e.numberAttribute key) := by
  unfold numberAttribute
  split
  · exact .ok _
  · split
    · exact .ok _
    · exact .error trivial

theorem local_flagAttribute (e : Element) (key : String) : FailsWith Local (e.flagAttribute key) := by
  unfold flagAttribute
  split
  · exact .ok _
  · dsimp only
    split
    · exact .ok _
    · split
      · exact .ok _
      · exact .error trivial

theorem local_numberText (e : Element) : FailsWith Local e.numberText := by
  unfold numberText
  split
  · exact .ok _
  · exact .error trivial

theorem local_tripleText (e : Element) : FailsWith Local e.tripleText := by
  have hnumbers : FailsWith Local e.numbersText := by
    refine FailsWith.mapM fun word _ => ?_
    split
    · exact .ok _
    · exact .error trivial
  refine hnumbers.bind fun xs _ => ?_
  split
  · exact .ok _
  · exact .error trivial

end Element

theorem local_readToken {α : Type} (subject : String) (spellings : List (String × α))
    (token : String) : FailsWith Local (readToken subject spellings token) := by
  unfold readToken
  split
  · exact .ok _
  · exact .error trivial

theorem local_readToken? {α : Type} {read : String → Except Error α}
    (hread : ∀ token, FailsWith Local (read token)) (e : Element) (key : String) :
    FailsWith Local (readToken? read e key) := by
  unfold readToken?
  split
  · exact .ok none
  · next token _ => exact (hread token).bind fun a _ => .ok (some a)

/-! ## §2 Arrays and index maps -/

theorem SampleArray.local_read (options : ReadOptions) (layout : ArrayLayout) (rawHalfs : Bool)
    (e : Element) : FailsWith Local (read options layout rawHalfs e) := by
  have hdimensions : ∀ text, FailsWith Local (readDimensions text) := by
    intro text
    unfold readDimensions
    split
    · exact .error trivial
    · exact .error trivial
    · exact .ok _
  have hencoding : FailsWith Local (readEncoding options e) := by
    unfold readEncoding
    split
    · exact .ok _
    · split
      · exact .error trivial
      · exact .ok _
      · exact (options.local_require _ _).bind fun _ _ => .ok _
  have hsample : ∀ encoding word, FailsWith Local (readSample rawHalfs encoding word) := by
    intro encoding word
    unfold readSample
    split
    · exact .ok _
    · exact .error trivial
  refine (e.local_requiredAttribute "dim").bind fun text _ => ?_
  refine (hdimensions text).bind fun dims _ => ?_
  refine hencoding.bind fun encoding _ => ?_
  refine (FailsWith.mapM fun word _ => hsample encoding word).bind fun values _ => ?_
  exact .mapError fun _ => trivial

theorem IndexMap.local_read (options : ReadOptions) (e : Element) :
    FailsWith Local (read options e) := by
  have hpoint : ∀ entry, FailsWith Local (readPoint entry) := by
    intro entry
    unfold readPoint
    dsimp only
    split
    · exact .error trivial
    · split
      · exact .ok _
      · exact .error trivial
  refine (options.local_require _ _).bind fun _ _ => ?_
  refine (e.local_requiredAttribute "dim").bind fun text _ => ?_
  split
  · exact .error trivial
  · refine (FailsWith.mapM fun entry _ => hpoint entry).bind fun points _ => ?_
    refine FailsWith.bind (.mapError fun _ => trivial) fun map _ => ?_
    exact .ok _

/-! ## §3 The common part -/

namespace NodeCommon

theorem local_readAttributes (e : Element) (kindAttributes : List String) :
    FailsWith Local (readAttributes e kindAttributes) := by
  have hdepth : ∀ key, FailsWith Local (readDepth e key) := by
    intro key
    refine (e.local_requiredAttribute key).bind fun token _ => ?_
    split
    · exact .ok _
    · exact .error trivial
  refine (hdepth "inBitDepth").bind fun input _ => ?_
  refine (hdepth "outBitDepth").bind fun output _ => ?_
  exact (e.local_flagAttribute "bypass").bind fun bypass _ => .ok _

theorem local_readChild (options : ReadOptions) (c : NodeCommon) (child : Element) :
    FailsWith Local (c.readChild options child) := by
  unfold readChild
  split
  · exact .ok _
  · split
    · refine (options.local_require _ _).bind fun _ _ => ?_
      exact (child.local_requiredAttribute "param").bind fun param _ => .ok _
    · split
      · exact .ok _
      · exact .ok _

end NodeCommon

/-! ## §4 Nodes by their schema -/

namespace Schema

variable {α : Type}

/-- Nothing in a schema reports a fault of following references. -/
structure FailsLocally (s : Schema α) : Prop where
  attributes : ∀ options e, FailsWith Local (s.readAttributes options e)
  child : ∀ options p child, FailsWith Local (s.readChild options p child)
  finish : ∀ name depth p, FailsWith Local (s.finish name depth p)

namespace FailsLocally

variable {s : Schema α} (h : s.FailsLocally)

include h

theorem readChildren (options : ReadOptions) (e : Element) (c : NodeCommon) (p : α) :
    FailsWith Local (s.readChildren options e c p) := by
  have hstep : ∀ state : NodeCommon × α, ∀ child ∈ e.children,
      FailsWith Local (s.step options state child) := by
    intro state child _
    refine (h.child options state.2 child).bind fun taken _ => ?_
    cases taken with
    | some p => exact .ok _
    | none => exact (state.1.local_readChild options child).bind fun c _ => .ok _
  refine (FailsWith.foldlM hstep (c, p)).bind fun state _ => ?_
  exact (h.finish e.name state.1.output state.2).bind fun p _ => .ok _

theorem read (options : ReadOptions) (e : Element) : FailsWith Local (s.read options e) := by
  refine (NodeCommon.local_readAttributes e s.ownAttributes).bind fun c _ => ?_
  refine (h.attributes options e).bind fun p _ => ?_
  exact h.readChildren options e c p

theorem readOperation (build : α → Operation) (options : ReadOptions) (e : Element) :
    FailsWith Local (s.readOperation build options e) :=
  (h.read options e).bind fun _ _ => .ok _

end FailsLocally

end Schema

/-! ## §5 The kinds of nodes -/

theorem Matrix.failsLocally : Matrix.schema.FailsLocally where
  attributes _ _ := .ok _
  child options m child := by
    unfold Matrix.schema
    dsimp only
    split
    · exact (SampleArray.local_read options _ _ child).bind fun a _ => .ok _
    · exact .ok none
  finish name _ m := by
    unfold Matrix.schema
    dsimp only
    split
    · exact .error trivial
    · exact .mapError fun _ => trivial

theorem Range.failsLocally : Range.schema.FailsLocally where
  attributes _ e := (local_readToken? (local_readToken _ _) e "style").bind fun _ _ => .ok _
  child _ r child := by
    unfold Range.schema
    dsimp only
    split
    · exact child.local_numberText.bind fun _ _ => .ok _
    · exact child.local_numberText.bind fun _ _ => .ok _
    · exact child.local_numberText.bind fun _ _ => .ok _
    · exact child.local_numberText.bind fun _ _ => .ok _
    · exact .ok none
  finish _ _ _ := .ok _

theorem Cdl.failsLocally : Cdl.schema.FailsLocally where
  attributes _ e := (local_readToken? (local_readToken _ _) e "style").bind fun _ _ => .ok _
  child _ c child := by
    have hsop : FailsWith Local (c.readSop child) := by
      refine FailsWith.foldlM (fun c grandchild _ => ?_) c
      split
      · exact grandchild.local_tripleText.bind fun _ _ => .ok _
      · exact grandchild.local_tripleText.bind fun _ _ => .ok _
      · exact grandchild.local_tripleText.bind fun _ _ => .ok _
      · exact .ok c
    have hsaturation : FailsWith Local (c.readSaturation child) := by
      unfold Cdl.readSaturation
      split
      · next grandchild _ => exact grandchild.local_numberText.bind fun _ _ => .ok _
      · exact .ok c
    unfold Cdl.schema
    dsimp only
    split
    · exact hsop.bind fun _ _ => .ok _
    · exact hsaturation.bind fun _ _ => .ok _
    · exact hsaturation.bind fun _ _ => .ok _
    · exact .ok none
  finish _ _ _ := .ok _

theorem Lut1D.failsLocally : Lut1D.schema.FailsLocally where
  attributes options e := by
    refine (local_readToken? (local_readToken _ _) e "interpolation").bind fun _ _ => ?_
    refine (e.local_flagAttribute "halfDomain").bind fun _ _ => ?_
    refine (e.local_flagAttribute "rawHalfs").bind fun _ _ => ?_
    exact .guarded (options.local_require _ _) (.guarded (options.local_require _ _) (.ok _))
  child options l child := by
    unfold Lut1D.schema
    dsimp only
    split
    · exact (IndexMap.local_read options child).bind fun _ _ => .ok _
    · exact (SampleArray.local_read options _ _ child).bind fun _ _ => .ok _
    · exact .ok none
  finish name _ l := by
    unfold Lut1D.schema
    dsimp only
    split
    · exact .error trivial
    · split
      · exact .error trivial
      · exact .ok _

theorem Lut3D.failsLocally : Lut3D.schema.FailsLocally where
  attributes _ e :=
    (local_readToken? (local_readToken _ _) e "interpolation").bind fun _ _ => .ok _
  child options l child := by
    unfold Lut3D.schema
    dsimp only
    split
    · exact (IndexMap.local_read options child).bind fun _ _ => .ok _
    · exact (SampleArray.local_read options _ _ child).bind fun _ _ => .ok _
    · exact .ok none
  finish name _ l := by
    unfold Lut3D.schema
    dsimp only
    split
    · exact .error trivial
    · split
      · exact .error trivial
      · exact .ok _

theorem LogCurve.failsLocally : LogCurve.schema.FailsLocally where
  attributes _ e := by
    refine (e.local_requiredAttribute "style").bind fun token _ => ?_
    exact (local_readToken _ _ token).bind fun _ _ => .ok _
  child _ c child := by
    have hparams : FailsWith Local (readParams child) := by
      refine (child.local_numberAttribute "gamma").bind fun _ _ => ?_
      refine (child.local_numberAttribute "refWhite").bind fun _ _ => ?_
      refine (child.local_numberAttribute "refBlack").bind fun _ _ => ?_
      refine (child.local_numberAttribute "highlight").bind fun _ _ => ?_
      refine (child.local_numberAttribute "shadow").bind fun _ _ => ?_
      exact (local_readToken? (local_readToken _ _) child "channel").bind fun _ _ => .ok _
    unfold LogCurve.schema
    dsimp only
    split
    · exact hparams.bind fun _ _ => .ok _
    · exact .ok none
  finish _ _ _ := .ok _

theorem GammaCurve.failsLocally : GammaCurve.schema.FailsLocally where
  attributes _ e := by
    refine (e.local_requiredAttribute "style").bind fun token _ => ?_
    exact (local_readToken _ _ token).bind fun _ _ => .ok _
  child _ c child := by
    have hparams : FailsWith Local (readParams child) := by
      refine (child.local_numberAttribute "gamma").bind fun gamma? _ => ?_
      cases gamma? with
      | none => exact .error trivial
      | some gamma =>
        refine (child.local_numberAttribute "offset").bind fun _ _ => ?_
        exact (local_readToken? (local_readToken _ _) child "channel").bind fun _ _ => .ok _
    unfold GammaCurve.schema
    dsimp only
    split
    · exact hparams.bind fun _ _ => .ok _
    · exact .ok none
  finish _ _ _ := .ok _

theorem ExposureContrast.failsLocally : ExposureContrast.schema.FailsLocally where
  attributes _ e := by
    refine (e.local_requiredAttribute "style").bind fun token _ => ?_
    exact (local_readToken _ _ token).bind fun _ _ => .ok _
  child _ c child := by
    unfold ExposureContrast.schema
    dsimp only
    split
    · refine (child.local_numberAttribute "exposure").bind fun _ _ => ?_
      refine (child.local_numberAttribute "contrast").bind fun _ _ => ?_
      exact (child.local_numberAttribute "pivot").bind fun _ _ => .ok _
    · exact .ok none
  finish _ _ _ := .ok _

theorem Target.failsLocally : Target.schema.FailsLocally where
  attributes _ e := (e.local_requiredAttribute "path").bind fun _ _ => .ok _
  child _ _ _ := .ok none
  finish _ _ _ := .ok _

end CommonLut
