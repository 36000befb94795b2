import CommonLut.Proofs.Node.Kinds
import CommonLut.Proofs.Runs

/-!
# Nodes read under two profiles

The options take part in reading a node in two places only: where a feature is required, and where
an index map is tabulated. So two runs that tabulate alike stay together until a feature is required
that the first run refuses and the second one accepts.

Main definitions: `ReadOptions.TrackedBy`, `Schema.TrackedBy`.
Main statement: `NodeKind.tracks_readNode`.
-/

namespace CommonLut

variable {stops : Error → Prop} {options options' : ReadOptions}

/-! ## §1 Options -/

/-- Where some options fail to accept a feature that others accept, they stop with an error out of a
class; in all else that reading depends on they agree. -/
structure ReadOptions.TrackedBy (stops : Error → Prop) (options options' : ReadOptions) : Prop where
  require : ∀ x feature, Tracks stops Eq (options.require x feature) (options'.require x feature)
  cacheIndexMaps : options.cacheIndexMaps = options'.cacheIndexMaps

theorem ReadOptions.TrackedBy.refl (options : ReadOptions) :
    options.TrackedBy stops options :=
  ⟨fun x feature => .refl (options.require x feature), rfl⟩

/-- Options that accept less stop with the refusal of what they do not accept. -/
theorem ReadOptions.tracks_require {x : Extension} {feature : String}
    (haccepts : options.profile.accepts x = true → options'.profile.accepts x = true)
    (hstops : options.profile.accepts x = false → options'.profile.accepts x = true →
      stops (.unsupported feature x)) :
    Tracks stops Eq (options.require x feature) (options'.require x feature) := by
  unfold require
  cases hfirst : options.profile.accepts x with
  | true =>
    rw [if_pos rfl, if_pos (haccepts hfirst)]
    exact .refl _
  | false =>
    rw [if_neg Bool.false_ne_true]
    cases hsecond : options'.profile.accepts x with
    | true => exact .stopped (hstops hfirst hsecond) _
    | false => exact .refl _

section

variable (h : options.TrackedBy stops options')

include h

/-! ## §2 Arrays and index maps -/

theorem SampleArray.tracks_read (layout : ArrayLayout) (rawHalfs : Bool) (e : Element) :
    Tracks stops Eq (read options layout rawHalfs e) (read options' layout rawHalfs e) := by
  have hencoding : Tracks stops Eq (readEncoding options e) (readEncoding options' e) := by
    unfold readEncoding
    split
    · exact .refl _
    · split
      · exact .refl _
      · exact .refl _
      · exact (h.require _ _).bind_eq fun _ => .refl _
  refine (Tracks.refl _).bind_eq fun text => ?_
  refine (Tracks.refl _).bind_eq fun dims => ?_
  exact hencoding.bind_eq fun encoding => .refl _

theorem IndexMap.tracks_read (e : Element) : Tracks stops Eq (read options e) (read options' e) := by
  unfold read
  rw [h.cacheIndexMaps]
  exact (h.require _ _).bind_eq fun _ => .refl _

theorem NodeCommon.tracks_readChild (c : NodeCommon) (child : Element) :
    Tracks stops Eq (c.readChild options child) (c.readChild options' child) := by
  unfold readChild
  split
  · exact .refl _
  · split
    · exact (h.require _ _).bind_eq fun _ => .refl _
    · exact .refl _

theorem NodeKind.tracks_require (kind : NodeKind) :
    Tracks stops Eq (kind.require options) (kind.require options') := by
  unfold NodeKind.require
  split
  · exact h.require _ _
  · exact .refl _

end

/-! ## §3 Nodes by their schema -/

namespace Schema

variable {α : Type}

/-- A schema keeps two runs together. -/
structure TrackedBy (stops : Error → Prop) (options options' : ReadOptions) (s : Schema α) :
    Prop where
  attributes : ∀ e, Tracks stops Eq (s.readAttributes options e) (s.readAttributes options' e)
  child : ∀ p child, Tracks stops Eq (s.readChild options p child) (s.readChild options' p child)

section

variable {s : Schema α} (h : options.TrackedBy stops options') (hs : s.TrackedBy stops options options')

include h hs

theorem tracks_readChildren (e : Element) (c : NodeCommon) (p : α) :
    Tracks stops Eq (s.readChildren options e c p) (s.readChildren options' e c p) := by
  -- The two runs start from equal states, and each step keeps them equal.
  have hstep : ∀ state state' : NodeCommon × α, ∀ child ∈ e.children, state = state' →
      Tracks stops Eq (s.step options state child) (s.step options' state' child) := by
    rintro state _ child _ rfl
    refine (hs.child state.2 child).bind_eq fun taken => ?_
    cases taken with
    | some p => exact .refl _
    | none => exact (NodeCommon.tracks_readChild h state.1 child).bind_eq fun _ => .refl _
  exact (Tracks.foldlM hstep rfl).bind_eq fun _ => .refl _

theorem tracks_read (e : Element) : Tracks stops Eq (s.read options e) (s.read options' e) := by
  refine (Tracks.refl _).bind_eq fun c => ?_
  exact (hs.attributes e).bind_eq fun p => tracks_readChildren h hs e c p

theorem tracks_readOperation (build : α → Operation) (e : Element) :
    Tracks stops Eq (s.readOperation build options e) (s.readOperation build options' e) :=
  (tracks_read h hs e).bind_eq fun _ => .refl _

end

/-- A schema that takes no notice of the options. -/
theorem trackedBy_of_fixed {s : Schema α}
    (hattributes : ∀ e, s.readAttributes options e = s.readAttributes options' e)
    (hchild : ∀ p child, s.readChild options p child = s.readChild options' p child) :
    s.TrackedBy stops options options' where
  attributes e := by
    rw [hattributes]
    exact .refl _
  child p child := by
    rw [hchild]
    exact .refl _

end Schema

/-! ## §4 The kinds of nodes -/

section

variable (h : options.TrackedBy stops options')

include h

theorem Matrix.trackedBy : Matrix.schema.TrackedBy stops options options' where
  attributes _ := .refl _
  child m child := by
    unfold Matrix.schema
    dsimp only
    split
    · exact (SampleArray.tracks_read h _ _ child).bind_eq fun _ => .refl _
    · exact .refl _

theorem Lut1D.trackedBy : Lut1D.schema.TrackedBy stops options options' where
  attributes e := by
    refine (Tracks.refl _).bind_eq fun interpolation => ?_
    refine (Tracks.refl _).bind_eq fun halfDomain => ?_
    refine (Tracks.refl _).bind_eq fun rawHalfs => ?_
    exact .guarded (h.require _ _) (.guarded (h.require _ _) (.refl _))
  child l child := by
    unfold Lut1D.schema
    dsimp only
    split
    · exact (IndexMap.tracks_read h child).bind_eq fun _ => .refl _
    · exact (SampleArray.tracks_read h _ _ child).bind_eq fun _ => .refl _
    · exact .refl _

theorem Lut3D.trackedBy : Lut3D.schema.TrackedBy stops options options' where
  attributes _ := .refl _
  child l child := by
    unfold Lut3D.schema
    dsimp only
    split
    · exact (IndexMap.tracks_read h child).bind_eq fun _ => .refl _
    · exact (SampleArray.tracks_read h _ _ child).bind_eq fun _ => .refl _
    · exact .refl _

/-- An element of a kind with a single operation is read alike until a run stops. -/
theorem NodeKind.tracks_readNode {kind : NodeKind} (hgroup : kind ≠ .group)
    (hreference : kind ≠ .reference) (link link' : Link) (e : Element) :
    Tracks stops Eq (kind.readNode link options e) (kind.readNode link' options' e) := by
  -- Only the schemas of the operations with arrays look at the options.
  have hfixed : ∀ {α : Type} {s : Schema α} (build : α → Operation),
      (∀ e, s.readAttributes options e = s.readAttributes options' e) →
      (∀ p child, s.readChild options p child = s.readChild options' p child) →
        Tracks stops Eq (s.readOperation build options e) (s.readOperation build options' e) :=
    fun build hattributes hchild =>
      Schema.tracks_readOperation h (Schema.trackedBy_of_fixed hattributes hchild) build e
  cases kind with
  | group => exact absurd rfl hgroup
  | reference => exact absurd rfl hreference
  | matrix => exact Schema.tracks_readOperation h (Matrix.trackedBy h) .matrix e
  | lut1D => exact Schema.tracks_readOperation h (Lut1D.trackedBy h) .lut1D e
  | lut3D => exact Schema.tracks_readOperation h (Lut3D.trackedBy h) .lut3D e
  | range => exact hfixed .range (fun _ => rfl) fun _ _ => rfl
  | cdl => exact hfixed .cdl (fun _ => rfl) fun _ _ => rfl
  | log => exact hfixed .log (fun _ => rfl) fun _ _ => rfl
  | gamma => exact hfixed .gamma (fun _ => rfl) fun _ _ => rfl
  | exposureContrast => exact hfixed .exposureContrast (fun _ => rfl) fun _ _ => rfl
  | colorCorrection =>
    have hcdl : Cdl.schema.TrackedBy stops options options' :=
      Schema.trackedBy_of_fixed (fun _ => rfl) fun _ _ => rfl
    exact (Schema.tracks_readChildren h hcdl e {} Cdl.identity).bind_eq fun _ => .refl _

end

end CommonLut
