import CommonLut.Proofs.Node.Common

/-!
# Reading by a schema

What holds of the parameters that the attributes give, and is kept by each child of the kind, holds
of the parameters before the final check. In the other direction, the attributes and children that a
schema writes are met in the same order when they are read: those of the common part first, which
the schema leaves alone, and then its own.

Main definitions: `Schema.Leaves`, `Schema.Orderly`, `Schema.ReadsBack`.
Main statements: `Schema.read_spec`, `Schema.read_written`.
-/

namespace CommonLut.Schema

variable {α : Type}

/-! ## §1 Children of other kinds -/

/-- A schema has no use for children of a name. -/
def Leaves (s : Schema α) (options : ReadOptions) (name : String) : Prop :=
  ∀ p child, child.name = name → s.readChild options p child = .ok none

/-- Whether a child belongs to the schema is decided by its name, the common children never do, and
what is written has proper names. -/
structure Orderly (s : Schema α) : Prop where
  separate : ∀ p, NodeCommon.Separate s.ownAttributes (s.writeAttributes p)
  byName : ∀ options p child, s.readChild options p child = .ok none →
    s.Leaves options child.name
  description : ∀ options, s.Leaves options "Description"
  dynamicParameter : ∀ options, s.Leaves options "DynamicParameter"
  writable : ∀ p, ∀ child ∈ s.writeChildren p, child.Writable

theorem leaves_of_not_mem {s : Schema α} {names : List String}
    (h : ∀ options p child, s.readChild options p child = .ok none ↔ child.name ∉ names)
    {name : String} (hname : name ∉ names) (options : ReadOptions) : s.Leaves options name :=
  fun p child hchild => (h options p child).mpr (hchild ▸ hname)

/-- A schema whose own children are those of some names. -/
theorem orderly_of_names {s : Schema α} (names : List String)
    (hnames : ∀ options p child, s.readChild options p child = .ok none ↔ child.name ∉ names)
    (hdescription : "Description" ∉ names) (hparameter : "DynamicParameter" ∉ names)
    (hseparate : ∀ p, NodeCommon.Separate s.ownAttributes (s.writeAttributes p))
    (hwritable : ∀ p, ∀ child ∈ s.writeChildren p, child.Writable) : s.Orderly where
  separate := hseparate
  byName options p child h := leaves_of_not_mem hnames ((hnames options p child).mp h) options
  description := leaves_of_not_mem hnames hdescription
  dynamicParameter := leaves_of_not_mem hnames hparameter
  writable := hwritable

/-- The children of one name are taken, and no others. -/
theorem taken_eq_none_iff {β : Type} {name : String} {child : Element} {x : Except Error β}
    {f : β → α} :
    (if child.name = name then x >>= fun b => pure (some (f b)) else .ok none) = .ok none ↔
      child.name ∉ [name] := by
  rw [List.mem_singleton]
  split
  · next h => exact iff_of_false bind_some_ne_none (not_not.mpr h)
  · next h => exact iff_of_true rfl h

theorem step_eq_ok {s : Schema α} {options : ReadOptions} {state state' : NodeCommon × α}
    {child : Element} :
    s.step options state child = .ok state' ↔
      (∃ p, s.readChild options state.2 child = .ok (some p) ∧ state' = (state.1, p)) ∨
        ∃ c, s.readChild options state.2 child = .ok none ∧
          state.1.readChild options child = .ok c ∧ state' = (c, state.2) := by
  unfold step
  rw [bind_eq_ok]
  constructor
  · rintro ⟨taken, htaken, h⟩
    cases taken with
    | some p =>
      cases h
      exact .inl ⟨p, htaken, rfl⟩
    | none =>
      obtain ⟨c, hc, h⟩ := bind_eq_ok.mp h
      cases h
      exact .inr ⟨c, htaken, hc, rfl⟩
  · rintro (⟨p, htaken, rfl⟩ | ⟨c, htaken, hc, rfl⟩)
    · exact ⟨_, htaken, rfl⟩
    · exact ⟨_, htaken, bind_eq_ok.mpr ⟨c, hc, rfl⟩⟩

/-- What a style or interpolation is written as is read as that again. -/
theorem readToken?_token {β : Type} {read : String → Except Error β} {token : β → String}
    (hread : ∀ b, read (token b) = .ok b) {e : Element} {key : String} {b : Option β}
    (h : e.attribute? key = b.map token) : readToken? read e key = .ok b := by
  unfold readToken?
  rw [h]
  cases b with
  | none => rfl
  | some b =>
    simp only [Option.map_some, hread]
    rfl

theorem step_of_taken {s : Schema α} {options : ReadOptions} {c : NodeCommon} {p p' : α}
    {child : Element} (h : s.readChild options p child = .ok (some p')) :
    s.step options (c, p) child = .ok (c, p') :=
  step_eq_ok.mpr (.inl ⟨p', h, rfl⟩)

theorem foldlM_step_cons {s : Schema α} {options : ReadOptions} {c : NodeCommon} {p p' : α}
    {child : Element} {children : List Element} {result : Except Error (NodeCommon × α)}
    (h : s.readChild options p child = .ok (some p'))
    (hrest : children.foldlM (s.step options) (c, p') = result) :
    (child :: children).foldlM (s.step options) (c, p) = result := by
  rw [List.foldlM_cons, step_of_taken h]
  exact hrest

/-- Children that are taken one by one, each as one more entry of a list. -/
theorem foldlM_step_entries {β : Type} {s : Schema α} {options : ReadOptions} {write : β → Element}
    (build : List β → α) {entries : List β}
    (h : ∀ before, ∀ b ∈ entries,
      s.readChild options (build before) (write b).trimmed = .ok (some (build (before ++ [b]))))
    (c : NodeCommon) (before : List β) :
    ((entries.map write).map Element.trimmed).foldlM (s.step options) (c, build before) =
      .ok (c, build (before ++ entries)) := by
  induction entries generalizing before with
  | nil =>
    rw [List.append_nil]
    rfl
  | cons b entries ih =>
    refine foldlM_step_cons (h before b List.mem_cons_self) ?_
    rw [List.append_cons before b entries]
    exact ih (fun before' b' hb' => h before' b' (List.mem_cons_of_mem b hb')) (before ++ [b])

/-! ## §2 What reading gives -/

section

variable {s : Schema α} {options : ReadOptions} {kindAttributes : List String} {I : α → Prop}

theorem readChildren_spec (hs : s.Orderly)
    (hstep : ∀ p child p', I p → s.readChild options p child = .ok (some p') → I p') {e : Element}
    (he : e.Parsed) {c₀ c : NodeCommon} {p₀ p : α}
    (hc : c₀.Readable options (s.Leaves options) kindAttributes) (hp : I p₀)
    (h : s.readChildren options e c₀ p₀ = .ok (c, p)) :
    c.Readable options (s.Leaves options) kindAttributes ∧ c.bare = c₀.bare ∧
      ∃ p₁, I p₁ ∧ s.finish e.name c.output p₁ = .ok p := by
  obtain ⟨⟨c₁, p₁⟩, hfold, h⟩ := bind_eq_ok.mp h
  obtain ⟨p', hfinish, h⟩ := bind_eq_ok.mp h
  cases h
  have hchildren := (Element.parsed_iff.mp he).2.2.2
  -- Which names are left alone does not depend on the parameters, so it holds at every step.
  have hinvariant : c.Readable options (s.Leaves options) kindAttributes ∧ c.bare = c₀.bare ∧
      I p₁ := by
    refine foldlM_invariant (P := fun state : NodeCommon × α =>
      state.1.Readable options (s.Leaves options) kindAttributes ∧ state.1.bare = c₀.bare ∧
        I state.2) ?_ ⟨hc, rfl, hp⟩ hfold
    rintro state state' child hchild ⟨hcommon, hbare, hparams⟩ hnext
    rcases step_eq_ok.mp hnext with ⟨p, htaken, rfl⟩ | ⟨c, hleft, hread, rfl⟩
    · exact ⟨hcommon, hbare, hstep _ child p hparams htaken⟩
    · exact ⟨NodeCommon.readable_of_readChild hcommon (hchildren child hchild)
        (hs.byName options _ child hleft) hread,
        (NodeCommon.bare_of_readChild hread).trans hbare, hparams⟩
  exact ⟨hinvariant.1, hinvariant.2.1, p₁, hinvariant.2.2, hfinish⟩

theorem read_spec (hs : s.Orderly)
    (hstart : ∀ e p, s.readAttributes options e = .ok p → I p)
    (hstep : ∀ p child p', I p → s.readChild options p child = .ok (some p') → I p') {e : Element}
    (he : e.Parsed) {c : NodeCommon} {p : α} (h : s.read options e = .ok (c, p)) :
    c.Readable options (s.Leaves options) s.ownAttributes ∧
      ∃ p₁, I p₁ ∧ s.finish e.name c.output p₁ = .ok p := by
  obtain ⟨c₀, hcommon, h⟩ := bind_eq_ok.mp h
  obtain ⟨p₀, hparams, h⟩ := bind_eq_ok.mp h
  obtain ⟨hc, -, hfinish⟩ := readChildren_spec hs hstep he
    (NodeCommon.readable_of_readAttributes he hcommon) (hstart e p₀ hparams) h
  exact ⟨hc, hfinish⟩

end

section

variable {s : Schema α} {options : ReadOptions} {I : α → Prop} {J : NodeCommon → Prop}

/-- What every child keeps of the parameters and of the common part holds before the final check. -/
theorem readChildren_invariant
    (hchild : ∀ p child p', I p → s.readChild options p child = .ok (some p') → I p')
    (hcommon : ∀ c child c', J c → c.readChild options child = .ok c' → J c') {e : Element}
    {c₀ c : NodeCommon} {p₀ p : α} (hc : J c₀) (hp : I p₀)
    (h : s.readChildren options e c₀ p₀ = .ok (c, p)) :
    J c ∧ ∃ p₁, I p₁ ∧ s.finish e.name c.output p₁ = .ok p := by
  obtain ⟨⟨c₁, p₁⟩, hfold, h⟩ := bind_eq_ok.mp h
  obtain ⟨p', hfinish, h⟩ := bind_eq_ok.mp h
  cases h
  have hinvariant : J c ∧ I p₁ := by
    refine foldlM_invariant (P := fun state : NodeCommon × α => J state.1 ∧ I state.2) ?_
      ⟨hc, hp⟩ hfold
    rintro state state' child - ⟨hc, hp⟩ hnext
    rcases step_eq_ok.mp hnext with ⟨p, htaken, rfl⟩ | ⟨c, -, hread, rfl⟩
    · exact ⟨hc, hchild _ child p hp htaken⟩
    · exact ⟨hcommon _ child c hc hread, hp⟩
  exact ⟨hinvariant.1, p₁, hinvariant.2, hfinish⟩

theorem read_invariant {e : Element}
    (hattributes : ∀ c, NodeCommon.readAttributes e s.ownAttributes = .ok c → J c)
    (hstart : ∀ p, s.readAttributes options e = .ok p → I p)
    (hchild : ∀ p child p', I p → s.readChild options p child = .ok (some p') → I p')
    (hcommon : ∀ c child c', J c → c.readChild options child = .ok c' → J c')
    {c : NodeCommon} {p : α} (h : s.read options e = .ok (c, p)) :
    J c ∧ ∃ p₁, I p₁ ∧ s.finish e.name c.output p₁ = .ok p := by
  obtain ⟨c₀, hc₀, h⟩ := bind_eq_ok.mp h
  obtain ⟨p₀, hp₀, h⟩ := bind_eq_ok.mp h
  exact readChildren_invariant hchild hcommon (hattributes c₀ hc₀) (hstart p₀ hp₀) h

end

/-! ## §3 Reading back -/

/-- Parameters `p` are written so that they are read as `p'`: the attributes give `start`, with the
children it becomes `taken`, and the check gives `p'`. -/
structure ReadsBack (s : Schema α) (options : ReadOptions) (depth : BitDepth)
    (p start taken p' : α) : Prop where
  attributes : ∀ e : Element,
    (∀ key ∈ s.ownAttributes, e.attribute? key = lookupKey (s.writeAttributes p) key) →
      s.readAttributes options e = .ok start
  children : ∀ c, ((s.writeChildren p).map Element.trimmed).foldlM (s.step options) (c, start) =
    .ok (c, taken)
  check : ∀ name, s.finish name depth taken = .ok p'

section

variable {s : Schema α} {options : ReadOptions} {kindAttributes : List String}

/-- Children that are left alone all go to the common part. -/
theorem foldlM_step_of_leaves {children : List Element}
    (hleaves : ∀ child ∈ children, s.Leaves options child.name) {c c' : NodeCommon} (p : α)
    (h : children.foldlM (NodeCommon.readChild options) c = .ok c') :
    children.foldlM (s.step options) (c, p) = .ok (c', p) := by
  induction children generalizing c with
  | nil =>
    cases h
    rfl
  | cons child children ih =>
    rw [List.foldlM_cons] at h
    obtain ⟨next, hnext, hrest⟩ := bind_eq_ok.mp h
    rw [List.foldlM_cons]
    refine bind_eq_ok.mpr ⟨(next, p), ?_, ?_⟩
    · exact step_eq_ok.mpr
        (.inr ⟨next, hleaves child List.mem_cons_self p child rfl, hnext, rfl⟩)
    · exact ih (fun child' hchild => hleaves child' (List.mem_cons_of_mem child hchild)) hrest

theorem readChildren_written (hs : s.Orderly) {c : NodeCommon}
    (hc : c.Readable options (s.Leaves options) kindAttributes) {p start taken p' : α}
    (hp : s.ReadsBack options c.output p start taken p') {e : Element}
    (hchildren : e.children = c.writeChildren ++ s.writeChildren p) :
    s.readChildren options e.trimmed c.bare start = .ok (c, p') := by
  -- The children of the common part come first, and the schema leaves them alone.
  have hcommon : (c.writeChildren.map Element.trimmed).foldlM (s.step options) (c.bare, start) =
      .ok (c, start) := by
    refine foldlM_step_of_leaves (fun child hchild => ?_) start
      (NodeCommon.readChild_writeChildren hc)
    obtain ⟨child, hmem, rfl⟩ := List.mem_map.mp hchild
    rw [Element.name_trimmed]
    exact NodeCommon.leaves_writeChildren hc (hs.description options)
      (hs.dynamicParameter options) child hmem
  refine bind_eq_ok.mpr ⟨(c, taken), ?_, bind_eq_ok.mpr ⟨p', hp.check _, rfl⟩⟩
  rw [Element.children_trimmed, hchildren, List.map_append, foldlM_append_of_ok hcommon]
  exact hp.children c

theorem read_written (hs : s.Orderly) {c : NodeCommon}
    (hc : c.Readable options (s.Leaves options) s.ownAttributes) {p start taken p' : α}
    (hp : s.ReadsBack options c.output p start taken p') {e : Element}
    (hattributes : c.Spelled s.ownAttributes (s.writeAttributes p) e.attributes)
    (hchildren : e.children = c.writeChildren ++ s.writeChildren p) :
    s.read options e.trimmed = .ok (c, p') := by
  have hspelled : c.Spelled s.ownAttributes (s.writeAttributes p) e.trimmed.attributes := by
    rwa [Element.attributes_trimmed]
  refine bind_eq_ok.mpr ⟨c.bare, NodeCommon.readAttributes_spelled hspelled,
    bind_eq_ok.mpr ⟨start, hp.attributes _ fun key hkey => ?_, ?_⟩⟩
  · exact hspelled.own key hkey
  · exact readChildren_written hs hc hp hchildren

end

end CommonLut.Schema
