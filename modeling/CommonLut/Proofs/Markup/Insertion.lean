import CommonLut.Proofs.Markup.RoundTrip

/-!
# Elements inserted into documents

A piece of text that spells an element, put between two characters of the data inside an open
element, puts the element among the children of that one and leaves the rest of the tree as it is.
For the reader makes the same moves over the rest of the document: they depend on the names of the
open elements and not on what is in them.

Statements about two given trees need §1 only. The other sections are for documents that are edited
as texts: which element the text falls into, and that the rest of the document is still read at all,
follow from the moves of the reader.

Main definitions: `Element.Grows`, `Reader.State.Grows`, `Reader.Spells`.
Main statements: `Reader.follows_step`, `Element.parse_inserted`.
-/

namespace CommonLut

/-! ## §1 Trees -/

namespace Element

/-- An element with some of its children replaced by others. Its text does not matter. -/
structure Splices (xs ys : List Element) (e e' : Element) : Prop where
  name : e'.name = e.name
  attributes : e'.attributes = e.attributes
  children : ∃ before after, e.children = before ++ xs ++ after ∧
    e'.children = before ++ ys ++ after

/-- An element into which `u` is inserted. The path has the names of the elements around `u`, from a
child of the outer element inwards. -/
inductive Grows (u : Element) : List String → Element → Element → Prop
  | here {e e' : Element} (h : Splices [] [u] e e') : Grows u [] e e'
  | inside {path : List String} {c c' e e' : Element} (hc : Grows u path c c')
      (h : Splices [c] [c'] e e') : Grows u (c.name :: path) e e'

/-- Children that stand for others: `u` where there is none, or one into which `u` is inserted. -/
inductive Replaces (u : Element) : List String → List Element → List Element → Prop
  | none : Replaces u [] [] [u]
  | child {path : List String} {c c' : Element} (h : Grows u path c c') :
      Replaces u (c.name :: path) [c] [c']

theorem Replaces.grows {u : Element} {path : List String} {xs ys : List Element} {e e' : Element}
    (h : Replaces u path xs ys) (hs : Splices xs ys e e') : Grows u path e e' := by
  cases h with
  | none => exact .here hs
  | child h => exact .inside h hs

theorem Splices.whole {xs ys : List Element} {e e' : Element} (hname : e'.name = e.name)
    (hattributes : e'.attributes = e.attributes) (h : e.children = xs) (h' : e'.children = ys) :
    Splices xs ys e e' :=
  ⟨hname, hattributes, [], [], by simp [h], by simp [h']⟩

theorem Splices.exists_eq {xs ys : List Element} {e e' : Element} (h : Splices xs ys e e') :
    ∃ text children, e' = { e with text, children } := by
  obtain ⟨hname, hattributes, -⟩ := h
  cases e'
  cases hname
  cases hattributes
  exact ⟨_, _, rfl⟩

/-- Where children are read one after the other, it is enough that the replaced ones are read as the
others are. -/
theorem Splices.foldlM {σ : Type} {step : σ → Element → Except Error σ} {xs ys : List Element}
    {e e' : Element} (h : Splices xs ys e e')
    (hstep : ∀ s, ys.foldlM step s = xs.foldlM step s) (s : σ) :
    e'.children.foldlM step s = e.children.foldlM step s := by
  obtain ⟨before, after, hbefore, hafter⟩ := h.children
  simp only [hbefore, hafter, List.foldlM_append, hstep]

end Element

open Element (Splices Grows Replaces)

namespace Reader

/-! ## §2 States -/

/-- The names of the open elements, outermost first. -/
def openNames (stack : List Frame) : List String :=
  (stack.map fun f => f.element.name).reverse

/-- An open element with some of the children read so far replaced by others. -/
structure Frame.Splices (xs ys : List Element) (f f' : Frame) : Prop where
  element : f'.element = f.element
  children : ∃ newer older, f.children = newer ++ xs ++ older ∧ f'.children = newer ++ ys ++ older

/-- A state of the reader that has come by an insertion of `u`, and the state without it. The path
has the names of the elements around `u`, the root being the first. The insertion is in an open
element, or else the root is closed. -/
inductive State.Grows (u : Element) : List String → State → State → Prop
  | opened {mode : Mode} {root : Option Element} {f f' : Frame} {path : List String}
      {xs ys : List Element} (inner outer : List Frame) (hreplaces : Replaces u path xs ys)
      (h : f.Splices xs ys f') :
      State.Grows u (openNames (f :: outer) ++ path) ⟨mode, inner ++ f :: outer, root⟩
        ⟨mode, inner ++ f' :: outer, root⟩
  | closed {mode : Mode} {e e' : Element} {path : List String} (stack : List Frame)
      (h : Element.Grows u path e e') :
      State.Grows u (e.name :: path) ⟨mode, stack, some e⟩ ⟨mode, stack, some e'⟩

/-- Where the run without the insertion goes on, the other one goes on likewise. -/
def Follows (u : Element) (path : List String) (x x' : Except MarkupFault State) : Prop :=
  ∀ t, x = .ok t → ∃ t', x' = .ok t' ∧ State.Grows u path t t'

variable {u : Element} {path : List String} {s s' : State}

theorem Follows.error (e : MarkupFault) (x' : Except MarkupFault State) :
    Follows u path (.error e) x' :=
  fun _ h => nomatch h

theorem Follows.ok (h : State.Grows u path s s') : Follows u path (.ok s) (.ok s') := by
  intro t ht
  cases ht
  exact ⟨s', rfl, h⟩

namespace State.Grows

theorem mode_eq (h : State.Grows u path s s') : s'.mode = s.mode := by
  cases h <;> rfl

theorem withMode (h : State.Grows u path s s') (m : Mode) :
    State.Grows u path { s with mode := m } { s' with mode := m } := by
  cases h with
  | opened inner outer hreplaces h => exact .opened inner outer hreplaces h
  | closed stack h => exact .closed stack h

/-- A state whose innermost element is opened in both runs. -/
theorem push (h : State.Grows u path s s') (f : Frame) :
    State.Grows u path { s with stack := f :: s.stack } { s' with stack := f :: s'.stack } := by
  cases h with
  | opened inner outer hreplaces h => exact .opened (f :: inner) outer hreplaces h
  | closed stack h => exact .closed (f :: stack) h

end State.Grows

theorem follows_addData (h : State.Grows u path s s')
    (data : Unit → Except MarkupFault (List Char)) :
    Follows u path (addData s data) (addData s' data) := by
  cases h with
  | @opened mode root f f' path xs ys inner outer hreplaces h =>
    obtain ⟨helement, hchildren⟩ := h
    unfold addData
    cases data () with
    | error e =>
      cases inner <;> exact .error e _
    | ok chars =>
      cases inner with
      | nil =>
        have h' : Frame.Splices xs ys { f with text := chars.reverse ++ f.text }
            { f' with text := chars.reverse ++ f'.text } := ⟨helement, hchildren⟩
        exact .ok (.opened [] outer hreplaces h')
      | cons g inner => exact .ok (.opened (_ :: inner) outer hreplaces ⟨helement, hchildren⟩)
  | closed stack h =>
    unfold addData
    cases stack with
    | nil => exact .ok (.closed [] h)
    | cons f outer =>
      cases data () with
      | error e => exact .error e _
      | ok chars => exact .ok (.closed (_ :: outer) h)

/-- The same element is attached in both runs. -/
theorem follows_attach (h : State.Grows u path s s') (e : Element) :
    Follows u path (attach s e) (attach s' e) := by
  cases h with
  | @opened mode root f f' path xs ys inner outer hreplaces h =>
    cases inner with
    | nil =>
      obtain ⟨helement, newer, older, hchildren, hchildren'⟩ := h
      have h' : Frame.Splices xs ys { f with children := e :: f.children }
          { f' with children := e :: f'.children } :=
        ⟨helement, e :: newer, older, by simp [hchildren], by simp [hchildren']⟩
      exact .ok (.opened [] outer hreplaces h')
    | cons g inner => exact .ok (.opened (_ :: inner) outer hreplaces h)
  | closed stack h =>
    cases stack with
    | nil => exact .error _ _
    | cons f outer => exact .ok (.closed (_ :: outer) h)

theorem Frame.Splices.close {xs ys : List Element} {f f' : Frame} (h : f.Splices xs ys f')
    (hreplaces : Replaces u path xs ys) : Element.Grows u path f.close f'.close := by
  obtain ⟨helement, newer, older, hchildren, hchildren'⟩ := h
  have hname : f'.close.name = f.close.name := by simp [Frame.close, helement]
  have hattributes : f'.close.attributes = f.close.attributes := by simp [Frame.close, helement]
  refine hreplaces.grows ⟨hname, hattributes, older.reverse, newer.reverse, ?_⟩
  -- No more than one child is replaced by one, so neither is turned round.
  cases hreplaces with
  | none => simp [Frame.close, hchildren, hchildren']
  | child h => simp [Frame.close, hchildren, hchildren']

/-- The element with the insertion is attached where the other one is. -/
theorem follows_attach_close {mode : Mode} {outer : List Frame} {root : Option Element}
    {f f' : Frame} {xs ys : List Element} (hreplaces : Replaces u path xs ys)
    (h : f.Splices xs ys f') :
    Follows u (openNames (f :: outer) ++ path) (attach ⟨mode, outer, root⟩ f.close)
      (attach ⟨mode, outer, root⟩ f'.close) := by
  have hclose := h.close hreplaces
  cases outer with
  | nil =>
    cases root with
    | none => exact .ok (.closed [] hclose)
    | some e => exact .error _ _
  | cons g outer =>
    have hpath : openNames (f :: g :: outer) ++ path =
        openNames (g :: outer) ++ f.close.name :: path := by simp [openNames, Frame.close]
    have h' : Frame.Splices [f.close] [f'.close] { g with children := f.close :: g.children }
        { g with children := f'.close :: g.children } := ⟨rfl, [], g.children, rfl, rfl⟩
    rw [hpath]
    exact .ok (.opened [] outer (.child hclose) h')

theorem follows_closeStartTag (h : State.Grows u path s s') (run : List Glyph) :
    Follows u path (closeStartTag s run) (closeStartTag s' run) := by
  unfold closeStartTag
  split
  · cases demand _ with
    | error e => exact .error e _
    | ok e => exact follows_attach (h.withMode .data) e
  · cases demand _ with
    | error e => exact .error e _
    | ok e => exact .ok ((h.withMode .data).push { element := e })

theorem follows_closeEndTag (h : State.Grows u path s s') (run : List Glyph) :
    Follows u path (closeEndTag s run) (closeEndTag s' run) := by
  unfold closeEndTag
  cases h with
  | @opened mode root f f' path xs ys inner outer hreplaces h =>
    -- The tag closes the element that has grown, or one that was opened inside it since.
    cases inner with
    | nil =>
      dsimp only [List.nil_append]
      rw [h.element]
      cases demand _ with
      | error e => exact .error e _
      | ok body =>
        show Follows u _ (ite _ _ _) (ite _ _ _)
        split
        · exact follows_attach_close hreplaces h
        · exact .error _ _
    | cons g inner =>
      dsimp only [List.cons_append]
      cases demand _ with
      | error e => exact .error e _
      | ok body =>
        show Follows u _ (ite _ _ _) (ite _ _ _)
        split
        · exact follows_attach (.opened inner outer hreplaces h) g.close
        · exact .error _ _
  | closed stack h =>
    cases stack with
    | nil => exact .error _ _
    | cons g outer =>
      dsimp only
      cases demand _ with
      | error e => exact .error e _
      | ok body =>
        show Follows u _ (ite _ _ _) (ite _ _ _)
        split
        · exact follows_attach (.closed outer h) g.close
        · exact .error _ _

/-! ## §3 Runs -/

/-- What one more character makes of two states in the same mode. -/
inductive Together (s s' : State) : Except MarkupFault State → Except MarkupFault State → Prop
  | fault (e : MarkupFault) : Together s s' (.error e) (.error e)
  | mode (m : Mode) : Together s s' (.ok { s with mode := m }) (.ok { s' with mode := m })
  | data (m : Mode) (data : Unit → Except MarkupFault (List Char)) :
      Together s s' (addData { s with mode := m } data) (addData { s' with mode := m } data)
  | startTag (run : List Glyph) : Together s s' (closeStartTag s run) (closeStartTag s' run)
  | endTag (run : List Glyph) : Together s s' (closeEndTag s run) (closeEndTag s' run)

/-- Which move a character makes depends on the mode alone. -/
theorem together_step (hmode : s'.mode = s.mode) (g : Glyph) :
    Together s s' (step s g) (step s' g) := by
  obtain ⟨mode, stack, root⟩ := s
  obtain ⟨mode', stack', root'⟩ := s'
  cases hmode
  unfold step
  cases mode with
  | data =>
    dsimp only
    split
    · exact .mode _
    · exact .mode _
    · exact @Together.data ⟨.data, stack, root⟩ ⟨.data, stack', root'⟩ .data _
  | reference run =>
    dsimp only
    split
    · exact .data .data _
    · exact .fault _
    · exact .fault _
    · exact .mode _
  | markup =>
    dsimp only
    split
    · exact .mode _
    · exact .mode _
    · exact .mode _
    · unfold stepStartTag
      split
      · exact .startTag _
      · exact .mode _
  | startTag run quote =>
    dsimp only
    unfold stepStartTag
    split
    · exact .startTag _
    · exact .mode _
  | endTag run quote =>
    dsimp only
    unfold stepEndTag
    split
    · exact .endTag _
    · exact .mode _
  | cdata run =>
    dsimp only
    split
    · exact .data .data _
    · exact .mode _
  -- What stands in these modes is skipped, so only the mode keeps track of it.
  | cdataStart expected =>
    dsimp only
    split
    · exact .fault _
    all_goals
      split
      · exact .mode _
      · exact .fault _
  | docType run depth =>
    dsimp only
    split
    · split
      · exact .mode _
      · exact .fault _
    all_goals exact .mode _
  | instruction run | declaration | commentStart | comment run =>
    dsimp only
    split <;> first | exact .mode _ | exact .fault _

/-- One more character is read after the insertion as it is without it. -/
theorem follows_step (h : State.Grows u path s s') (g : Glyph) :
    Follows u path (step s g) (step s' g) := by
  have htogether := together_step h.mode_eq g
  generalize step s g = x, step s' g = x' at htogether
  cases htogether with
  | fault e => exact .error e _
  | mode m => exact .ok (h.withMode m)
  | data m data => exact follows_addData (h.withMode m) data
  | startTag run => exact follows_closeStartTag h run
  | endTag run => exact follows_closeEndTag h run

theorem follows_run (h : State.Grows u path s s') (text : List Glyph) :
    Follows u path (text.foldlM step s) (text.foldlM step s') := by
  induction text generalizing s s' with
  | nil => exact .ok h
  | cons g text ih =>
    intro t ht
    obtain ⟨next, hnext, hrest⟩ := bind_eq_ok.mp ht
    obtain ⟨next', hnext', hgrows⟩ := follows_step h g next hnext
    obtain ⟨t', ht', htgrows⟩ := ih hgrows t hrest
    exact ⟨t', bind_eq_ok.mpr ⟨next', hnext', ht'⟩, htgrows⟩

/-- A document that ends without the insertion ends with it. -/
theorem finish_of_grows (h : State.Grows u path s s') {e : Element} (hfinish : finish s = .ok e) :
    ∃ e' inside, finish s' = .ok e' ∧ path = e.name :: inside ∧ Element.Grows u inside e e' := by
  cases h with
  | @opened mode root f f' path xs ys inner outer hreplaces h =>
    unfold finish at hfinish
    cases mode <;> cases inner <;> cases hfinish
  | @closed mode r r' inside stack h =>
    cases stack with
    | nil =>
      cases mode with
      | data =>
        cases hfinish
        exact ⟨r', inside, rfl, rfl, h⟩
      | _ => cases hfinish
    | cons f outer =>
      unfold finish at hfinish
      cases mode <;> cases hfinish

/-- A piece of text puts an element among the children of the innermost open one, and perhaps some
characters into its text, and leads back to the data. -/
def Spells (text : List Glyph) (u : Element) : Prop :=
  ∀ s f outer, s.mode = .data → s.stack = f :: outer →
    ∃ data, text.foldlM step s =
      .ok { s with stack := { f with text := data, children := u :: f.children } :: outer }

/-- A written element spells itself, its texts trimmed: whatever can be written can be inserted. -/
theorem spells_render (depth : Nat) (glued : Bool) {e : Element} (hnames : e.NamesValid)
    (hkeys : e.DistinctKeys) : Spells ((e.render depth glued).toList.map some) e.trimmed := by
  intro s f outer hdata hstack
  refine ⟨(Element.lead depth glued).toList.reverse ++ f.text, ?_⟩
  show run s _ = _
  rw [run_render depth glued hdata hnames hkeys]
  simp [State.withData, hstack, attach]

end Reader

open Reader

theorem Element.parse_eq_ok {bytes : ByteArray} {e : Element} :
    Element.parse bytes = .ok e ↔
      ∃ s, (Source.ofBytes bytes).foldlM step {} = .ok s ∧ finish s = .ok e := by
  rw [← bind_eq_ok]
  unfold Element.parse
  split
  · next hread => simp [hread]
  · next hread => simp [hread]

/-- A document with an element spelled between two characters of the data inside an open element is
read as the tree with the element inserted there. -/
theorem Element.parse_inserted {front middle back : List Glyph} {bytes bytes' : ByteArray}
    (hbytes : Source.ofBytes bytes = front ++ back)
    (hbytes' : Source.ofBytes bytes' = front ++ middle ++ back) {s : State}
    (hfront : front.foldlM step {} = .ok s) (hdata : s.mode = .data) (hopen : s.stack ≠ [])
    {u : Element} (hmiddle : Spells middle u) {e : Element} (h : Element.parse bytes = .ok e) :
    ∃ e' path, Element.parse bytes' = .ok e' ∧ openNames s.stack = e.name :: path ∧
      Element.Grows u path e e' := by
  obtain ⟨f, outer, hstack⟩ := List.exists_cons_of_ne_nil hopen
  obtain ⟨data, hspelled⟩ := hmiddle s f outer hdata hstack
  obtain ⟨mode, stack, root⟩ := s
  cases hstack
  have hframe : Frame.Splices [] [u] f { f with text := data, children := u :: f.children } :=
    ⟨rfl, [], f.children, rfl, rfl⟩
  have hstart : State.Grows u (openNames (f :: outer) ++ []) ⟨mode, f :: outer, root⟩
      ⟨mode, { f with text := data, children := u :: f.children } :: outer, root⟩ :=
    .opened [] outer .none hframe
  rw [List.append_nil] at hstart
  obtain ⟨t, hread, hfinish⟩ := Element.parse_eq_ok.mp h
  rw [hbytes, foldlM_append_of_ok hfront] at hread
  -- The rest is read after the insertion as it was read without it.
  obtain ⟨t', hread', hgrows⟩ := follows_run hstart back t hread
  obtain ⟨e', path, hfinish', hpath, he⟩ := finish_of_grows hgrows hfinish
  refine ⟨e', path, Element.parse_eq_ok.mpr ⟨t', ?_, hfinish'⟩, hpath, he⟩
  rw [hbytes', List.append_assoc, foldlM_append_of_ok hfront, foldlM_append_of_ok hspelled]
  exact hread'

end CommonLut
