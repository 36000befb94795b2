import CommonLut.Proofs.Markup.Escape
import CommonLut.Proofs.Markup.Parse
import CommonLut.Proofs.Outcome

/-!
# Written trees read back

The reader is followed over the document of a tree, character by character: a tag opens or closes
an element, a text is added to the innermost open one, and the blanks before a tag are added to the
text of the element around it, from which they are trimmed when it is closed. So the tree that is
read is the one that was written, with its texts trimmed, and writing and reading are inverse on the
trees that the reader can give.

Main definition: `Reader.run`.
Main statements: `Reader.run_render`, `Element.parse_toBytes`, `Element.parse_toBytes_eq_self_iff`.
-/

namespace CommonLut

namespace Reader

/-! ## §1 Runs of characters -/

/-- The state after a run of characters. -/
def run (s : State) (text : List Char) : Except MarkupFault State :=
  (text.map some).foldlM step s

@[simp]
theorem run_nil (s : State) : run s [] = .ok s := rfl

theorem run_cons (s : State) (c : Char) (text : List Char) :
    run s (c :: text) = step s (some c) >>= fun s' => run s' text := rfl

theorem run_append (s : State) (text more : List Char) :
    run s (text ++ more) = run s text >>= fun s' => run s' more := by
  rw [run, List.map_append, List.foldlM_append]
  rfl

theorem run_append_of_ok {s s' : State} {text : List Char} (h : run s text = .ok s')
    (more : List Char) : run s (text ++ more) = run s' more := by
  rw [run_append, h]
  rfl

/-! ## §2 Character data -/

/-- The state with characters added to the innermost open element. -/
def State.withData (s : State) (chars : List Char) : State :=
  match s.stack with
  | [] => s
  | f :: outer => { s with stack := { f with text := chars.reverse ++ f.text } :: outer }

theorem addData_ok (s : State) (chars : List Char) :
    addData s (fun _ => .ok chars) = .ok (s.withData chars) := by
  unfold addData State.withData
  cases s.stack <;> rfl

@[simp]
theorem State.withData_nil (s : State) : s.withData [] = s := by
  unfold State.withData
  cases h : s.stack with
  | nil => rfl
  | cons f outer =>
    cases s
    simp_all

@[simp]
theorem State.mode_withData (s : State) (chars : List Char) :
    (s.withData chars).mode = s.mode := by
  unfold State.withData
  split <;> rfl

theorem State.withData_append (s : State) (chars more : List Char) :
    (s.withData chars).withData more = s.withData (chars ++ more) := by
  unfold State.withData
  cases h : s.stack with
  | nil => simp [h]
  | cons f outer => simp

/-- A plain character is added as it is. -/
theorem step_data {s : State} (hs : s.mode = .data) {c : Char} (hlt : c ≠ '<') (hamp : c ≠ '&') :
    step s (some c) = .ok (s.withData [c]) := by
  rw [← addData_ok]
  unfold step
  rw [hs]
  dsimp only
  split
  · next h => exact absurd (Option.some.inj h) hlt
  · next h => exact absurd (Option.some.inj h) hamp
  · rfl

/-- Blanks are added as they are. -/
theorem run_plain {s : State} (hs : s.mode = .data) {text : List Char}
    (htext : ∀ c ∈ text, c ≠ '<' ∧ c ≠ '&') : run s text = .ok (s.withData text) := by
  induction text generalizing s with
  | nil => simp
  | cons c text ih =>
    obtain ⟨hlt, hamp⟩ := htext c List.mem_cons_self
    rw [run_cons, step_data hs hlt hamp]
    have hmode : (s.withData [c]).mode = .data := by rw [State.mode_withData, hs]
    have h := ih hmode fun d hd => htext d (List.mem_cons_of_mem c hd)
    rw [State.withData_append] at h
    exact h

/-- The name of a reference is collected up to its end. -/
theorem run_reference {s : State} {read : List Glyph} (hs : s.mode = .reference read)
    {name : List Char} (hname : ∀ c ∈ name, c ∉ ['<', '&', ';']) :
    run s name = .ok { s with mode := .reference ((name.map some).reverse ++ read) } := by
  induction name generalizing s read with
  | nil =>
    cases s
    simp_all
  | cons c name ih =>
    have hc := hname c List.mem_cons_self
    simp only [List.mem_cons, List.not_mem_nil, or_false, not_or] at hc
    have hstep : step s (some c) = .ok { s with mode := .reference (some c :: read) } := by
      unfold step
      rw [hs]
      dsimp only
      split
      · next h => exact absurd (Option.some.inj h) hc.2.2
      · next h => exact absurd (Option.some.inj h) hc.1
      · next h => exact absurd (Option.some.inj h) hc.2.1
      · rfl
    rw [run_cons, hstep]
    have h := ih (s := { s with mode := .reference (some c :: read) }) rfl
      fun d hd => hname d (List.mem_cons_of_mem c hd)
    exact h.trans (by simp)

theorem text?_some (text : List Char) : Source.text? (text.map some) = some text := by
  induction text with
  | nil => rfl
  | cons c text ih =>
    rw [Source.text?, List.map_cons, List.mapM_cons]
    rw [Source.text?] at ih
    rw [ih]
    rfl

/-- A reference is resolved when it is complete. -/
theorem run_closeReference {s : State} (hs : s.mode = .data) {name : List Char}
    (hname : ∀ c ∈ name, c ∉ ['<', '&', ';']) :
    run s ('&' :: (name ++ [';'])) = closeReference s (name.map some).reverse := by
  have hopen : step s (some '&') = .ok { s with mode := .reference [] } := by
    unfold step
    rw [hs]
    rfl
  rw [run_cons, hopen]
  show run { s with mode := .reference [] } (name ++ [';']) = _
  rw [run_append_of_ok (run_reference rfl hname), run_cons, List.append_nil]
  show closeReference s (name.map some).reverse >>= _ = _
  cases closeReference s (name.map some).reverse <;> rfl

/-- What a reference stands for is added to the innermost open element. -/
theorem closeReference_of_some {s : State} (hs : s.mode = .data) {name : List Char} {c : Char}
    (hc : resolveEntity? (String.ofList name) = some c) :
    closeReference s (name.map some).reverse = .ok (s.withData [c]) := by
  have hdata : ({ s with mode := .data } : State) = s := by
    cases s
    simp_all
  rw [closeReference, List.reverse_reverse, text?_some, ← addData_ok, hdata]
  congr 1
  funext _
  refine bind_eq_ok.mpr ⟨name, rfl, ?_⟩
  dsimp only
  rw [hc]
  rfl

/-- An escaped character is added as itself. -/
theorem run_escapeChar {s : State} (hs : s.mode = .data) (c : Char) :
    run s (escapeChar c).toList = .ok (s.withData [c]) := by
  rcases escapeChar_cases c with ⟨name, hname, hesc⟩ | ⟨hplain, hesc⟩
  · obtain ⟨hentity, -, hchars⟩ := escapedChars_name hname
    -- The name of an entity has none of the characters that end or break its reference.
    have hread : ∀ d ∈ name.toList, d ∉ ['<', '&', ';'] := by
      intro d hd hmem
      refine hchars d hd ?_
      simp only [List.mem_cons, List.not_mem_nil, or_false] at hmem ⊢
      rcases hmem with h | h | h <;> simp [h]
    have hresolve : resolveEntity? (String.ofList name.toList) = some c := by
      simp [resolveEntity?, hentity]
    rw [hesc, String.toList_append, String.toList_append]
    show run s ('&' :: (name.toList ++ [';'])) = _
    rw [run_closeReference hs hread, closeReference_of_some hs hresolve]
  · have hlt : c ≠ '<' := fun h => hplain (by simp [h])
    have hamp : c ≠ '&' := fun h => hplain (by simp [h])
    rw [hesc, run_cons, step_data hs hlt hamp]
    rfl

/-- A written text is added as the text. -/
theorem run_escapedList {s : State} (hs : s.mode = .data) (text : List Char) :
    run s (escapedList text) = .ok (s.withData text) := by
  induction text generalizing s with
  | nil => simp [escapedList]
  | cons c text ih =>
    have hmode : (s.withData [c]).mode = .data := by rw [State.mode_withData, hs]
    rw [escapedList_cons, run_append_of_ok (run_escapeChar hs c), ih hmode,
      State.withData_append]
    rfl

/-! ## §3 Tags -/

/-- What stands between the brackets of a written tag. -/
def tagBody (name : String) (attributes : List (String × String)) : List Char :=
  name.toList ++ attributes.flatMap attributeChars

/-- Characters without quotes leave the quote that a tag stands in. -/
theorem foldl_quoteAfter_none {text : List Char} (htext : ∀ c ∈ text, c ≠ '"' ∧ c ≠ '\'') :
    text.foldl quoteAfter none = none := by
  induction text with
  | nil => rfl
  | cons c text ih =>
    obtain ⟨hdouble, hsingle⟩ := htext c List.mem_cons_self
    have hc : quoteAfter none c = none := by simp [quoteAfter, hdouble, hsingle]
    rw [List.foldl_cons, hc]
    exact ih fun d hd => htext d (List.mem_cons_of_mem c hd)

theorem foldl_quoteAfter_some {q : Char} {text : List Char} (htext : ∀ c ∈ text, c ≠ q) :
    text.foldl quoteAfter (some q) = some q := by
  induction text with
  | nil => rfl
  | cons c text ih =>
    have hc : quoteAfter (some q) c = some q := by
      simp [quoteAfter, htext c List.mem_cons_self]
    rw [List.foldl_cons, hc]
    exact ih fun d hd => htext d (List.mem_cons_of_mem c hd)

theorem name_quoteless {name : String} (hname : IsName name) :
    ∀ c ∈ name.toList, c ≠ '"' ∧ c ≠ '\'' := by
  intro c hc
  have hc' := hname.not_reserved c hc
  exact ⟨fun h => hc' (by rw [h]; decide), fun h => hc' (by rw [h]; decide)⟩

theorem foldl_quoteAfter_attribute {a : String × String} (ha : IsName a.1) :
    (attributeChars a).foldl quoteAfter none = none := by
  have hvalue : ∀ c ∈ escapedList a.2.toList, c ≠ '"' := by
    intro c hc h
    exact escape_chars _ c hc (by rw [h]; decide)
  have hblank : quoteAfter none ' ' = none := by decide
  have hequals : quoteAfter none '=' = none := by decide
  have hopen : quoteAfter none '"' = some '"' := by decide
  have hclose : quoteAfter (some '"') '"' = none := by decide
  simp only [attributeChars, List.foldl_cons, List.foldl_append, List.foldl_nil, hblank,
    foldl_quoteAfter_none (name_quoteless ha), hequals, hopen, foldl_quoteAfter_some hvalue, hclose]

/-- A written tag ends outside of quotes. -/
theorem foldl_quoteAfter_tagBody {name : String} {attributes : List (String × String)}
    (hname : IsName name) (hnames : ∀ a ∈ attributes, IsName a.1) :
    (tagBody name attributes).foldl quoteAfter none = none := by
  rw [tagBody, List.foldl_append, foldl_quoteAfter_none (name_quoteless hname)]
  induction attributes with
  | nil => rfl
  | cons a attributes ih =>
    rw [List.flatMap_cons, List.foldl_append,
      foldl_quoteAfter_attribute (hnames a List.mem_cons_self)]
    exact ih fun b hb => hnames b (List.mem_cons_of_mem a hb)

theorem tagBody_chars {name : String} {attributes : List (String × String)}
    (hname : IsName name) (hnames : ∀ a ∈ attributes, IsName a.1) :
    ∀ c ∈ tagBody name attributes, c ≠ '>' := by
  intro c hc h
  subst h
  rcases List.mem_append.mp hc with hc | hc
  · exact hname.not_reserved _ hc (by decide)
  · obtain ⟨a, ha, hc⟩ := List.mem_flatMap.mp hc
    simp only [attributeChars, List.mem_cons, List.mem_append, List.not_mem_nil, or_false] at hc
    rcases hc with hc | hc | hc | hc | hc | hc
    · exact absurd hc (by decide)
    · exact (hnames a ha).not_reserved _ hc (by decide)
    · exact absurd hc (by decide)
    · exact absurd hc (by decide)
    · exact escape_chars _ _ hc (by decide)
    · exact absurd hc (by decide)

/-- A written tag does not end with a slash. -/
theorem tagBody_last {name : String} (hname : IsName name) (attributes : List (String × String)) :
    ∃ init c, tagBody name attributes = init ++ [c] ∧ c ≠ '/' := by
  rcases List.eq_nil_or_concat attributes with rfl | ⟨before, a, rfl⟩
  · rcases List.eq_nil_or_concat name.toList with hnil | ⟨init, c, hlast⟩
    · exact absurd hnil hname.ne_nil
    · refine ⟨init, c, by simp [tagBody, hlast], fun h => ?_⟩
      exact hname.not_reserved c (by rw [hlast]; simp) (by rw [h]; decide)
  · refine ⟨name.toList ++ before.flatMap attributeChars ++
      ' ' :: (a.1.toList ++ '=' :: '"' :: escapedList a.2.toList), '"', ?_, by decide⟩
    simp [tagBody, attributeChars]

/-- The characters of a start tag are collected. -/
theorem run_startTag {s : State} {read : List Glyph} {q : Option Char}
    (hs : s.mode = .startTag read q) {text : List Char} (htext : ∀ c ∈ text, c ≠ '>') :
    run s text =
      .ok { s with mode := .startTag ((text.map some).reverse ++ read) (text.foldl quoteAfter q) } := by
  induction text generalizing s read q with
  | nil =>
    cases s
    simp_all
  | cons c text ih =>
    have hc : c ≠ '>' := htext c List.mem_cons_self
    have hstep : step s (some c) =
        .ok { s with mode := .startTag (some c :: read) (quoteAfter q c) } := by
      unfold step
      rw [hs]
      simp [stepStartTag, hc]
    rw [run_cons, hstep]
    have h := ih (s := { s with mode := .startTag (some c :: read) (quoteAfter q c) }) rfl
      fun d hd => htext d (List.mem_cons_of_mem c hd)
    exact h.trans (by simp)

/-- The characters of an end tag are collected. -/
theorem run_endTag {s : State} {read : List Glyph} (hs : s.mode = .endTag read none)
    {name : String} (hname : IsName name) :
    run s name.toList =
      .ok { s with mode := .endTag ((name.toList.map some).reverse ++ read) none } := by
  have hchars := hname.not_reserved
  have hquotes := name_quoteless hname
  generalize name.toList = text at hchars hquotes
  -- Of the name only the characters matter from here on, so the induction can take it apart.
  induction text generalizing s read with
  | nil =>
    cases s
    simp_all
  | cons c text ih =>
    have hc : c ≠ '>' := fun h => hchars c List.mem_cons_self (by rw [h]; decide)
    obtain ⟨hdouble, hsingle⟩ := hquotes c List.mem_cons_self
    have hstep : step s (some c) = .ok { s with mode := .endTag (some c :: read) none } := by
      unfold step
      rw [hs]
      simp [stepEndTag, hc, quoteAfter, hdouble, hsingle]
    rw [run_cons, hstep]
    have h := ih (s := { s with mode := .endTag (some c :: read) none }) rfl
      (fun d hd => hchars d (List.mem_cons_of_mem c hd))
      (fun d hd => hquotes d (List.mem_cons_of_mem c hd))
    exact h.trans (by simp)

/-- The run up to the bracket that closes a tag. -/
theorem run_tagBody {s : State} (hs : s.mode = .data) {name : String}
    {attributes : List (String × String)} (hname : IsName name)
    (hnames : ∀ a ∈ attributes, IsName a.1) :
    run s ('<' :: tagBody name attributes) =
      .ok { s with mode := .startTag ((tagBody name attributes).map some).reverse none } := by
  have hquote := foldl_quoteAfter_tagBody hname hnames
  have hchars := tagBody_chars hname hnames
  obtain ⟨first, rest, hfirst, hstart, -⟩ := id hname
  have hreserved := hname.not_reserved first (by rw [hfirst]; exact List.mem_cons_self)
  obtain ⟨more, hmore⟩ : ∃ more, tagBody name attributes = first :: more :=
    ⟨rest ++ attributes.flatMap attributeChars, by rw [tagBody, hfirst]; rfl⟩
  rw [hmore] at hquote hchars ⊢
  have hopen : step s (some '<') = .ok { s with mode := .markup } := by
    unfold step
    rw [hs]
    rfl
  -- The first character of a name does not begin any other markup.
  have hne : ∀ c ∈ reservedChars, first ≠ c := fun c hc h => hreserved (h ▸ hc)
  have hbegin : step { s with mode := .markup } (some first) =
      .ok { s with mode := .startTag [some first] (quoteAfter none first) } := by
    have hgt := hne '>' (by decide)
    unfold step
    dsimp only
    split
    · next h => exact absurd (Option.some.inj h) (hne '!' (by decide))
    · next h => exact absurd (Option.some.inj h) (hne '?' (by decide))
    · next h => exact absurd (Option.some.inj h) (hne '/' (by decide))
    · simp [stepStartTag, hgt]
  rw [run_cons, hopen]
  show run { s with mode := .markup } (first :: more) = _
  rw [run_cons, hbegin]
  show run { s with mode := .startTag [some first] (quoteAfter none first) } more = _
  rw [run_startTag rfl fun d hd => hchars d (List.mem_cons_of_mem first hd)]
  rw [List.foldl_cons] at hquote
  simp [hquote]

theorem text?_reverse (text : List Char) :
    (Source.text? ((text.map some).reverse).reverse) = some text := by
  rw [List.reverse_reverse, text?_some]

/-- A written start tag opens its element. -/
theorem run_open {s : State} (hs : s.mode = .data) {name : String}
    {attributes : List (String × String)} (hname : IsName name)
    (hnames : ∀ a ∈ attributes, IsName a.1) (hkeys : (attributes.map Prod.fst).Nodup) :
    run s ('<' :: (tagBody name attributes ++ ['>'])) =
      .ok { s with stack := { element := { name, attributes } } :: s.stack } := by
  have htag : openTag? (tagBody name attributes) = some { name, attributes } :=
    openTag?_body hname hnames hkeys
  obtain ⟨init, last, hlast, hslash⟩ := tagBody_last hname attributes
  have hclose : closeStartTag
      { s with mode := .startTag ((tagBody name attributes).map some).reverse none }
      ((tagBody name attributes).map some).reverse =
      .ok { s with stack := { element := { name, attributes } } :: s.stack } := by
    have hbody := text?_reverse (tagBody name attributes)
    have hrun : ((tagBody name attributes).map some).reverse =
        some last :: (init.map some).reverse := by simp [hlast]
    rw [hrun] at hbody ⊢
    -- A slash at the end would make it an empty element.
    unfold closeStartTag
    split
    · next h => exact absurd (Option.some.inj (List.cons.inj h).1) hslash
    · rw [hbody, Option.bind_some, htag, ← hs]
      rfl
  rw [← List.cons_append, run_append_of_ok (run_tagBody hs hname hnames), run_cons]
  show (stepStartTag _ _ none (some '>') >>= fun s' => run s' []) = _
  rw [stepStartTag, if_pos ⟨rfl, rfl⟩, hclose]
  rfl

/-- A written empty element is attached. -/
theorem run_empty {s : State} (hs : s.mode = .data) {name : String}
    {attributes : List (String × String)} (hname : IsName name)
    (hnames : ∀ a ∈ attributes, IsName a.1) (hkeys : (attributes.map Prod.fst).Nodup) :
    run s ('<' :: (tagBody name attributes ++ ['/', '>'])) = attach s { name, attributes } := by
  have htag : openTag? (tagBody name attributes) = some { name, attributes } :=
    openTag?_body hname hnames hkeys
  -- The slash is collected like any other character; only the end of the tag looks at it.
  have hslash : run s ('<' :: (tagBody name attributes ++ ['/'])) =
      .ok { s with
        mode := .startTag (some '/' :: ((tagBody name attributes).map some).reverse) none } := by
    rw [← List.cons_append, run_append_of_ok (run_tagBody hs hname hnames)]
    rfl
  have hclose : closeStartTag
      { s with mode := .startTag (some '/' :: ((tagBody name attributes).map some).reverse) none }
      (some '/' :: ((tagBody name attributes).map some).reverse) =
      attach s { name, attributes } := by
    have hdata : ({ s with mode := .data } : State) = s := by
      cases s
      simp_all
    simp only [closeStartTag]
    rw [text?_reverse, Option.bind_some, htag, hdata]
    rfl
  have hsplit : '<' :: (tagBody name attributes ++ ['/', '>']) =
      '<' :: (tagBody name attributes ++ ['/']) ++ ['>'] := by simp
  rw [hsplit, run_append_of_ok hslash, run_cons]
  show (stepStartTag _ _ none (some '>') >>= fun s' => run s' []) = _
  rw [stepStartTag, if_pos ⟨rfl, rfl⟩, hclose]
  cases attach s { name, attributes } <;> rfl

/-- A written end tag closes the element that it names. -/
theorem run_close {s : State} (hs : s.mode = .data) {f : Frame} {outer : List Frame}
    (hstack : s.stack = f :: outer) (hname : IsName f.element.name) :
    run s ('<' :: '/' :: (f.element.name.toList ++ ['>'])) =
      attach { s with stack := outer } f.close := by
  have hopen : step s (some '<') = .ok { s with mode := .markup } := by
    unfold step
    rw [hs]
    rfl
  -- A name has no blanks, so none is taken off its end.
  have hclosing : closingName f.element.name.toList = f.element.name.toList := by
    have hplain : ∀ c ∈ f.element.name.toList.reverse, isMarkupBlank c = false :=
      fun c hc => isMarkupBlank_false (hname.not_reserved c (List.mem_reverse.mp hc))
    rw [closingName, Text.dropWhile_of_none hplain, List.reverse_reverse]
    exact ite_self _
  rw [run_cons, hopen]
  show run { s with mode := .markup } ('/' :: (f.element.name.toList ++ ['>'])) = _
  rw [run_cons]
  show run { s with mode := .endTag [] none } (f.element.name.toList ++ ['>']) = _
  rw [run_append_of_ok (run_endTag rfl hname), run_cons]
  show (stepEndTag _ _ none (some '>') >>= fun s' => run s' []) = _
  rw [stepEndTag, if_pos ⟨rfl, rfl⟩, closeEndTag]
  simp only [hstack, List.append_nil, text?_reverse, demand]
  show (if closingName f.element.name.toList = f.element.name.toList then
    attach { s with mode := .data, stack := outer } f.close else malformed) >>= _ = _
  rw [if_pos hclosing, ← hs]
  cases attach { s with stack := outer } f.close <;> rfl

/-! ## §4 Trees -/

theorem lead_allBlank (depth : Nat) (glued : Bool) :
    Text.AllBlank (Element.lead depth glued).toList := by
  intro c hc
  unfold Element.lead at hc
  split at hc
  · cases hc
  · rw [String.toList_append] at hc
    rcases List.mem_append.mp hc with h | h
    · rw [List.mem_singleton.mp h]
      decide
    · rw [String.toList_ofList] at h
      rw [(List.mem_replicate.mp h).2]
      decide

/-- The blanks before a tag are added to the text around it. -/
theorem run_lead {s : State} (hs : s.mode = .data) (depth : Nat) (glued : Bool) :
    run s (Element.lead depth glued).toList =
      .ok (s.withData (Element.lead depth glued).toList) := by
  refine run_plain hs fun c hc => ?_
  have hblank := lead_allBlank depth glued c hc
  constructor <;> rintro rfl <;> revert hblank <;> decide

/-- A closed element has the trimmed text of what was written between its tags. -/
theorem close_eq_trimmed {name : String} {attributes : List (String × String)} {text : String}
    {children : List Element} {blanks : List Char} (hblanks : Text.AllBlank blanks) :
    Frame.close {
        element := { name, attributes }
        text := blanks ++ text.toList.reverse
        children := (Element.trimmedAll children).reverse } =
      Element.trimmed ⟨name, attributes, text, children⟩ := by
  rw [Element.trimmed, Frame.close]
  simp only [List.reverse_append, List.reverse_reverse, Text.trim,
    Text.trimChars_blanks_after hblanks.reverse]

mutual
/-- The document of a tree attaches the trimmed tree to the element around it. -/
theorem run_render (depth : Nat) (glued : Bool) :
    ∀ {e : Element} {s : State}, s.mode = .data → e.NamesValid → e.DistinctKeys →
      run s (e.render depth glued).toList =
        attach (s.withData (Element.lead depth glued).toList) e.trimmed
  | ⟨name, attributes, text, children⟩, s, hs, hnames, hkeys => by
    rw [Element.NamesValid] at hnames
    rw [Element.DistinctKeys] at hkeys
    obtain ⟨hname, hattributes, hchildren⟩ := hnames
    obtain ⟨hdistinct, hchildrenKeys⟩ := hkeys
    have hlead := run_lead hs depth glued
    have hs₁ : (s.withData (Element.lead depth glued).toList).mode = .data := by
      rw [State.mode_withData, hs]
    generalize s.withData (Element.lead depth glued).toList = s₁ at hlead hs₁
    rw [Element.render]
    split
    · -- Without text and children the element is written as one tag.
      next hempty =>
      rw [Bool.and_eq_true, List.isEmpty_iff, String.isEmpty_iff] at hempty
      obtain ⟨rfl, rfl⟩ := hempty
      have htag := run_empty hs₁ hname hattributes hdistinct
      simp only [String.toList_append, toList_renderAttributes, List.append_assoc]
      rw [run_append_of_ok hlead]
      simpa [tagBody, Element.trimmed, Element.trimmedAll] using htag
    · -- Otherwise the states are those after the start tag, the text, the children, the blanks
      -- before the end tag, and the end tag.
      let opened : State := { s₁ with stack := { element := { name, attributes } } :: s₁.stack }
      have hopen : run s₁ ('<' :: (tagBody name attributes ++ ['>'])) = .ok opened :=
        run_open hs₁ hname hattributes hdistinct
      have htext : run opened (escapedList text.toList) = .ok (opened.withData text.toList) :=
        run_escapedList (s := opened) hs₁ text.toList
      obtain ⟨blanks, hblanks, hinside⟩ := run_renderAll (depth + 1) (!text.isEmpty)
        (s := opened.withData text.toList) (by simp [opened, hs₁]) rfl hchildren hchildrenKeys
      let frame : Frame := {
        element := { name, attributes }
        text := blanks ++ text.toList.reverse
        children := (Element.trimmedAll children).reverse }
      let inside : State := { s₁ with stack := frame :: s₁.stack }
      have hinside' : run (opened.withData text.toList)
          (Element.renderAll (depth + 1) (!text.isEmpty) children).toList = .ok inside := by
        rw [hinside]
        simp [inside, frame, opened, State.withData]
      let closing := (Element.lead depth children.isEmpty).toList
      let full : Frame := { frame with text := closing.reverse ++ frame.text }
      let complete : State := { s₁ with stack := full :: s₁.stack }
      have hlead' : run inside closing = .ok complete := run_lead (s := inside) hs₁ _ _
      have hclose : run complete ('<' :: '/' :: (name.toList ++ ['>'])) = attach s₁ full.close :=
        @run_close complete hs₁ full s₁.stack rfl hname
      have hframe : full.close = Element.trimmed ⟨name, attributes, text, children⟩ := by
        have hall := (lead_allBlank depth children.isEmpty).reverse.append hblanks
        rw [← close_eq_trimmed hall, List.append_assoc]
      have hsplit : (Element.lead depth glued ++ "<" ++ name ++
          Element.renderAttributes attributes ++ ">" ++ escape text ++
          Element.renderAll (depth + 1) (!text.isEmpty) children ++
          Element.lead depth children.isEmpty ++ "</" ++ name ++ ">").toList =
          (Element.lead depth glued).toList ++ ('<' :: (tagBody name attributes ++ ['>']) ++
            (escapedList text.toList ++
              ((Element.renderAll (depth + 1) (!text.isEmpty) children).toList ++
                (closing ++ '<' :: '/' :: (name.toList ++ ['>']))))) := by
        simp [tagBody, toList_renderAttributes, toList_escape, closing]
      rw [hsplit, run_append_of_ok hlead, run_append_of_ok hopen, run_append_of_ok htext,
        run_append_of_ok hinside', run_append_of_ok hlead', hclose, hframe]

/-- The documents of several trees add the trimmed trees and blanks to the element around them. -/
theorem run_renderAll (depth : Nat) (glued : Bool) :
    ∀ {es : List Element} {s : State} {f : Frame} {outer : List Frame}, s.mode = .data →
      s.stack = f :: outer → Element.NamesValidAll es → Element.DistinctKeysAll es →
      ∃ blanks, Text.AllBlank blanks ∧ run s (Element.renderAll depth glued es).toList =
        .ok { s with stack := { f with
          text := blanks ++ f.text
          children := (Element.trimmedAll es).reverse ++ f.children } :: outer }
  | [], s, f, outer, hs, hstack, _, _ => by
    refine ⟨[], by simp [Text.AllBlank], ?_⟩
    cases s
    subst hstack
    rfl
  | e :: es, s, f, outer, hs, hstack, hnames, hkeys => by
    have hrender := run_render depth glued hs hnames.1 hkeys.1
    let lead := (Element.lead depth glued).toList
    -- The rest goes on from the state that has the blanks and the first tree.
    let next : State := { s with stack := { f with
      text := lead.reverse ++ f.text
      children := e.trimmed :: f.children } :: outer }
    have hnext : run s (e.render depth glued).toList = .ok next := by
      rw [hrender]
      simp [State.withData, hstack, attach, next, lead]
    obtain ⟨blanks, hblanks, hrest⟩ := run_renderAll depth false (s := next) hs rfl hnames.2 hkeys.2
    refine ⟨blanks ++ lead.reverse, hblanks.append (lead_allBlank depth glued).reverse, ?_⟩
    rw [Element.renderAll, String.toList_append, run_append_of_ok hnext, hrest]
    simp [next, Element.trimmedAll]
end

/-- The declaration at the head of a document leaves no trace. -/
theorem run_declaration : run {} Element.declaration.toList = .ok {} := by
  rfl

end Reader

/-! ## §5 Documents -/

/-- The characters of an encoded text. -/
theorem glyphs_toUTF8 (s : String) : Source.glyphs s.toUTF8 = s.toList.map some := by
  have hvalid : String.fromUTF8? s.toUTF8 = some s := by
    unfold String.fromUTF8?
    exact dif_pos s.isValidUTF8
  rw [Source.glyphs, hvalid]

theorem toText_head (e : Element) : ∃ rest, e.toText.toList = '<' :: rest := by
  refine ⟨(Element.declaration.toList.tail ++ (e.render 0 false).toList) ++ ['\n'], ?_⟩
  simp only [Element.toText, String.toList_append]
  rfl

theorem ofBytes_toBytes (e : Element) : Source.ofBytes e.toBytes = e.toText.toList.map some := by
  obtain ⟨rest, hrest⟩ := toText_head e
  rw [Source.ofBytes, Element.toBytes, glyphs_toUTF8, hrest]
  rfl

/-- The document of a tree is read as the tree with its texts trimmed. -/
theorem Element.parse_toBytes {e : Element} (hnames : e.NamesValid) (hkeys : e.DistinctKeys) :
    Element.parse e.toBytes = .ok e.trimmed := by
  have hrender := Reader.run_render 0 false (s := {}) rfl hnames hkeys
  have hroot : Reader.run {} (e.render 0 false).toList = .ok { root := some e.trimmed } := hrender
  have hrun : Reader.run {} e.toText.toList = .ok { root := some e.trimmed } := by
    rw [Element.toText, String.toList_append, String.toList_append, List.append_assoc,
      Reader.run_append_of_ok Reader.run_declaration, Reader.run_append_of_ok hroot]
    rfl
  rw [Element.parse, ofBytes_toBytes]
  rw [Reader.run] at hrun
  rw [hrun]
  rfl

/-- A tree of proper names is what its document reads back as exactly when it is normal, whatever
characters its texts and values hold. -/
theorem Element.parse_toBytes_eq_self_iff {e : Element} (hnames : e.NamesValid) :
    Element.parse e.toBytes = .ok e ↔ e.Normal := by
  constructor
  · -- Nothing but normal trees comes out of the reader.
    exact Element.parse_normal
  · intro h
    rw [Element.parse_toBytes hnames h.keys, h.texts]

/-- A tree with the characters of the markup in its texts and values, and with an element that has
both a text and children. -/
def Element.quoted : Element where
  name := "Räume"
  attributes := [("id", "\"<&amp;'>\r\n\t"), ("xml:lang", ""), ("b", " 漢 ")]
  text := "x ]]> y\r\n  & <z>"
  children := [.leaf "Description" "'a' \"b\"", { name := "Empty" }]

theorem Element.parse_toBytes_quoted :
    Element.quoted.NamesValid ∧ Element.quoted.Normal ∧
      Element.parse Element.quoted.toBytes = .ok Element.quoted := by
  have hnames : Element.quoted.NamesValid := by decide
  have hnormal : Element.quoted.Normal := ⟨by decide, rfl⟩
  exact ⟨hnames, hnormal, (Element.parse_toBytes_eq_self_iff hnames).mpr hnormal⟩

end CommonLut
