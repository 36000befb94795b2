import CommonLut.Markup.Reader
import CommonLut.Proofs.Markup.Trees
import CommonLut.Proofs.Outcome

/-!
# Trees come out of the reader in normal form

A tag cannot give one attribute twice, and a text is trimmed when its element is closed. Both hold
of every element that the reader has completed, whatever document it reads.

Main definitions: `AttributeState.Fresh`, `Reader.State.Sound`.
Main statements: `Reader.step_sound`, `Element.parse_normal`.
-/

namespace CommonLut

/-! ## §1 Attribute lists -/

namespace AttributeState

/-- The keys read so far are distinct, and so is the one being read once it is complete. -/
def Fresh (s : AttributeState) : Prop :=
  (s.done.map Prod.fst).Nodup ∧
    match s.mode with
    | .gap | .key _ => True
    | .afterKey key | .afterEquals key | .value key _ _ => key ∉ s.done.map Prod.fst

theorem newKey?_fresh {s : AttributeState} {read : List Char} {key : String}
    (h : s.newKey? read = some key) : key ∉ s.done.map Prod.fst := by
  unfold newKey? at h
  dsimp only at h
  split at h
  · cases h
  · next hany =>
    cases h
    intro hmem
    obtain ⟨a, ha, hkey⟩ := List.mem_map.mp hmem
    exact hany (List.any_eq_true.mpr ⟨a, ha, by simp [hkey]⟩)

theorem step_fresh {s s' : AttributeState} {c : Char} (hs : s.Fresh) (h : s.step c = some s') :
    s'.Fresh := by
  obtain ⟨done, mode⟩ := s
  obtain ⟨hdone, hmode⟩ := hs
  unfold step at h
  -- Only the end of a value adds a key, and the key was new when it was read.
  cases mode with
  | gap =>
    dsimp only at h
    split at h <;> cases h <;> exact ⟨hdone, trivial⟩
  | key read =>
    dsimp only at h
    split at h
    · obtain ⟨key, hkey, rfl⟩ := Option.map_eq_some_iff.mp h
      exact ⟨hdone, newKey?_fresh hkey⟩
    · split at h
      · obtain ⟨key, hkey, rfl⟩ := Option.map_eq_some_iff.mp h
        exact ⟨hdone, newKey?_fresh hkey⟩
      · cases h
        exact ⟨hdone, trivial⟩
  | afterKey key =>
    dsimp only at h
    split at h
    · cases h
      exact ⟨hdone, hmode⟩
    · split at h
      · cases h
        exact ⟨hdone, hmode⟩
      · cases h
  | afterEquals key =>
    dsimp only at h
    split at h
    · cases h
      exact ⟨hdone, hmode⟩
    · split at h
      · cases h
        exact ⟨hdone, hmode⟩
      · cases h
  | value key quote read =>
    dsimp only at h
    split at h
    · obtain ⟨value, -, hvalue⟩ := Option.bind_eq_some_iff.mp h
      cases hvalue
      refine ⟨?_, trivial⟩
      rw [List.map_append, List.nodup_append]
      refine ⟨hdone, by simp, ?_⟩
      rintro a ha b hb rfl
      rw [List.map_singleton, List.mem_singleton] at hb
      subst hb
      exact hmode ha
    · cases h
      exact ⟨hdone, hmode⟩

theorem foldlM_fresh {text : List Char} {s s' : AttributeState} (hs : s.Fresh)
    (h : text.foldlM step s = some s') : s'.Fresh := by
  induction text generalizing s with
  | nil =>
    cases h
    exact hs
  | cons c text ih =>
    rw [List.foldlM_cons] at h
    obtain ⟨next, hnext, hrest⟩ := Option.bind_eq_some_iff.mp h
    exact ih (step_fresh hs hnext) hrest

end AttributeState

/-- A start tag gives an element with distinct keys and nothing inside. -/
theorem openTag?_spec {body : List Char} {e : Element} (h : openTag? body = some e) :
    (e.attributes.map Prod.fst).Nodup ∧ e.text = "" ∧ e.children = [] := by
  unfold openTag? at h
  obtain ⟨attributes, hattributes, he⟩ := Option.bind_eq_some_iff.mp h
  cases he
  obtain ⟨s, hs, hfinish⟩ := Option.bind_eq_some_iff.mp hattributes
  have hfresh := AttributeState.foldlM_fresh (s := {}) ⟨List.nodup_nil, trivial⟩ hs
  unfold AttributeState.finish? at hfinish
  split at hfinish
  · cases hfinish
    exact ⟨hfresh.1, rfl, rfl⟩
  · cases hfinish

/-! ## §2 The reader -/

namespace Reader

/-- An open element whose keys are distinct and whose children are normal. -/
def Frame.Sound (f : Frame) : Prop :=
  (f.element.attributes.map Prod.fst).Nodup ∧ ∀ c ∈ f.children, c.Normal

/-- Every element that is complete is normal. -/
def State.Sound (s : State) : Prop :=
  (∀ f ∈ s.stack, f.Sound) ∧ ∀ e ∈ s.root, e.Normal

theorem Frame.close_normal {f : Frame} (hf : f.Sound) : f.close.Normal := by
  rw [Element.normal_iff]
  refine ⟨hf.1, ?_, fun c hc => hf.2 c (List.mem_reverse.mp hc)⟩
  simp [Frame.close, Text.trim, Text.trimChars_trimChars]

theorem attach_sound {s s' : State} {e : Element} (hs : s.Sound) (he : e.Normal)
    (h : attach s e = .ok s') : s'.Sound := by
  obtain ⟨mode, stack, root⟩ := s
  obtain ⟨hstack, hroot⟩ := hs
  unfold attach at h
  cases stack with
  | cons f outer =>
    cases h
    refine ⟨fun g hg => ?_, hroot⟩
    rcases List.mem_cons.mp hg with rfl | hg
    · have hf := hstack f List.mem_cons_self
      refine ⟨hf.1, fun c hc => ?_⟩
      rcases List.mem_cons.mp hc with rfl | hc
      · exact he
      · exact hf.2 c hc
    · exact hstack g (List.mem_cons_of_mem f hg)
  | nil =>
    -- Outside all elements there is room for one root.
    cases root with
    | none =>
      cases h
      refine ⟨hstack, fun r hr => ?_⟩
      cases hr
      exact he
    | some r => cases h

theorem addData_sound {s s' : State} {data : Unit → Except MarkupFault (List Char)}
    (hs : s.Sound) (h : addData s data = .ok s') : s'.Sound := by
  obtain ⟨mode, stack, root⟩ := s
  obtain ⟨hstack, hroot⟩ := hs
  unfold addData at h
  cases stack with
  | nil =>
    cases h
    exact ⟨hstack, hroot⟩
  | cons f outer =>
    obtain ⟨chars, -, h⟩ := bind_eq_ok.mp h
    cases h
    refine ⟨fun g hg => ?_, hroot⟩
    rcases List.mem_cons.mp hg with rfl | hg
    · exact hstack f List.mem_cons_self
    · exact hstack g (List.mem_cons_of_mem f hg)

theorem demand_eq_ok {α : Type} {x : Option α} {a : α} : demand x = .ok a ↔ x = some a := by
  cases x <;> simp [demand, malformed]

theorem closeStartTag_sound {s s' : State} {run : List Glyph} (hs : s.Sound)
    (h : closeStartTag s run = .ok s') : s'.Sound := by
  have hopened : ∀ {body : List Glyph} {e : Element},
      demand ((Source.text? body.reverse).bind openTag?) = .ok e →
        (e.attributes.map Prod.fst).Nodup ∧ e.text = "" ∧ e.children = [] := by
    intro body e he
    obtain ⟨text, -, htag⟩ := Option.bind_eq_some_iff.mp (demand_eq_ok.mp he)
    exact openTag?_spec htag
  unfold closeStartTag at h
  -- An empty element is attached at once, any other one is opened.
  split at h
  · obtain ⟨e, he, h⟩ := bind_eq_ok.mp h
    obtain ⟨hkeys, htext, hchildren⟩ := hopened he
    refine attach_sound (s := { s with mode := .data }) hs ?_ h
    rw [Element.normal_iff, htext, hchildren]
    exact ⟨hkeys, rfl, fun c hc => absurd hc List.not_mem_nil⟩
  · obtain ⟨e, he, h⟩ := bind_eq_ok.mp h
    cases h
    refine ⟨fun f hf => ?_, hs.2⟩
    rcases List.mem_cons.mp hf with rfl | hf
    · exact ⟨(hopened he).1, fun c hc => absurd hc List.not_mem_nil⟩
    · exact hs.1 f hf

theorem closeEndTag_sound {s s' : State} {run : List Glyph} (hs : s.Sound)
    (h : closeEndTag s run = .ok s') : s'.Sound := by
  obtain ⟨mode, stack, root⟩ := s
  unfold closeEndTag at h
  cases stack with
  | nil => cases h
  | cons f outer =>
    obtain ⟨body, -, h⟩ := bind_eq_ok.mp h
    split at h
    · have houter : State.Sound { mode := .data, stack := outer, root } :=
        ⟨fun g hg => hs.1 g (List.mem_cons_of_mem f hg), hs.2⟩
      exact attach_sound houter (Frame.close_normal (hs.1 f List.mem_cons_self)) h
    · cases h

/-- What one more character can do to the state. -/
inductive Moves (s : State) : State → Prop
  | mode (m : Mode) : Moves s { s with mode := m }
  | data {s' : State} (m : Mode) {data : Unit → Except MarkupFault (List Char)}
      (h : addData { s with mode := m } data = .ok s') : Moves s s'
  | startTag {s' : State} {run : List Glyph} (h : closeStartTag s run = .ok s') : Moves s s'
  | endTag {s' : State} {run : List Glyph} (h : closeEndTag s run = .ok s') : Moves s s'

theorem Moves.of_startTag {s s' : State} {run : List Glyph} {quote : Option Char} {g : Glyph}
    (h : stepStartTag s run quote g = .ok s') : Moves s s' := by
  unfold stepStartTag at h
  split at h
  · exact .startTag h
  · cases h
    exact .mode _

theorem Moves.of_endTag {s s' : State} {run : List Glyph} {quote : Option Char} {g : Glyph}
    (h : stepEndTag s run quote g = .ok s') : Moves s s' := by
  unfold stepEndTag at h
  split at h
  · exact .endTag h
  · cases h
    exact .mode _

/-- One more character changes the mode alone, adds data, or completes a tag. -/
theorem moves_of_step {s s' : State} {g : Glyph} (h : step s g = .ok s') : Moves s s' := by
  have hmode : ∀ {m : Mode}, (.ok { s with mode := m } : Except MarkupFault State) = .ok s' →
      Moves s s' := by
    intro m h
    cases h
    exact .mode m
  unfold step at h
  cases hm : s.mode with
  | data =>
    rw [hm] at h
    dsimp only at h
    split at h
    · exact hmode h
    · exact hmode h
    · exact .data s.mode h
  | reference run =>
    rw [hm] at h
    dsimp only at h
    split at h
    · exact .data .data h
    · cases h
    · cases h
    · exact hmode h
  | markup =>
    rw [hm] at h
    dsimp only at h
    split at h
    · exact hmode h
    · exact hmode h
    · exact hmode h
    · exact .of_startTag h
  | startTag run quote =>
    rw [hm] at h
    exact .of_startTag h
  | endTag run quote =>
    rw [hm] at h
    exact .of_endTag h
  | cdata run =>
    rw [hm] at h
    dsimp only at h
    split at h
    · exact .data .data h
    · exact hmode h
  -- What stands in these modes is skipped, so only the mode keeps track of it.
  | cdataStart expected =>
    rw [hm] at h
    dsimp only at h
    split at h
    · cases h
    all_goals
      split at h
      · exact hmode h
      · cases h
  | docType run depth =>
    rw [hm] at h
    dsimp only at h
    split at h
    · split at h
      · exact hmode h
      · cases h
    all_goals exact hmode h
  | instruction run | declaration | commentStart | comment run =>
    rw [hm] at h
    dsimp only at h
    split at h <;> first | exact hmode h | cases h

/-- One more character leaves every complete element normal. -/
theorem step_sound {s s' : State} {g : Glyph} (hs : s.Sound) (h : step s g = .ok s') :
    s'.Sound := by
  -- A change of the mode alone changes no element.
  have hmode : ∀ m, State.Sound { s with mode := m } := fun _ => hs
  cases moves_of_step h with
  | mode m => exact hmode m
  | data m h => exact addData_sound (hmode m) h
  | startTag h => exact closeStartTag_sound hs h
  | endTag h => exact closeEndTag_sound hs h

end Reader

/-- Every document is read as a normal tree. -/
theorem Element.parse_normal {bytes : ByteArray} {e : Element} (h : Element.parse bytes = .ok e) :
    e.Normal := by
  unfold Element.parse at h
  split at h
  · next e' hread =>
    cases h
    obtain ⟨s, hrun, hfinish⟩ := bind_eq_ok.mp hread
    have hstart : Reader.State.Sound {} :=
      ⟨fun f hf => absurd hf List.not_mem_nil, fun e he => by cases he⟩
    have hsound := foldlM_invariant (fun s s' g _ => Reader.step_sound) hstart hrun
    unfold Reader.finish at hfinish
    split at hfinish
    · next hroot =>
      cases hfinish
      exact hsound.2 e hroot
    · cases hfinish
    · cases hfinish
    · cases hfinish
  · cases h

end CommonLut
