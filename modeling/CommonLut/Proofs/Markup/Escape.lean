import CommonLut.Markup.Printer
import CommonLut.Markup.Reader
import CommonLut.Proofs.Markup.Trees

/-!
# Escaped texts and attribute lists read back

The written form of a character stands for that character, in a text and in an attribute value, and
contains none of the characters that would end the text or the value.

Main statements: `unescape?_escape`, `escape_chars`, `openTag?_body`.
-/

namespace CommonLut

/-! ## §1 Escaped characters -/

/-- The characters that are written as references. -/
def escapedChars : List (Char × String) :=
  [('<', "lt"), ('>', "gt"), ('&', "amp"), ('\'', "apos"), ('"', "quot")]

/-- A character is written as a reference to its entity, or as itself if it means nothing else. -/
theorem escapeChar_cases (c : Char) :
    (∃ name, (c, name) ∈ escapedChars ∧ escapeChar c = "&" ++ name ++ ";") ∨
      (c ∉ ['<', '>', '&', '\'', '"'] ∧ (escapeChar c).toList = [c]) := by
  by_cases hc : c ∈ ['<', '>', '&', '\'', '"']
  · left
    simp only [List.mem_cons, List.not_mem_nil, or_false] at hc
    rcases hc with rfl | rfl | rfl | rfl | rfl
    · exact ⟨"lt", by decide, by decide⟩
    · exact ⟨"gt", by decide, by decide⟩
    · exact ⟨"amp", by decide, by decide⟩
    · exact ⟨"apos", by decide, by decide⟩
    · exact ⟨"quot", by decide, by decide⟩
  · right
    refine ⟨hc, ?_⟩
    simp only [List.mem_cons, List.not_mem_nil, or_false, not_or] at hc
    unfold escapeChar
    split
    · exact absurd rfl hc.1
    · exact absurd rfl hc.2.1
    · exact absurd rfl hc.2.2.1
    · exact absurd rfl hc.2.2.2.1
    · exact absurd rfl hc.2.2.2.2
    · simp

/-- The written form of a text, character by character. -/
def escapedList (s : List Char) : List Char := s.flatMap fun c => (escapeChar c).toList

theorem toList_escape (s : String) : (escape s).toList = escapedList s.toList := by
  simp [escape, escapedList, String.toList_join, List.flatMap_map]

@[simp]
theorem escapedList_cons (c : Char) (s : List Char) :
    escapedList (c :: s) = (escapeChar c).toList ++ escapedList s := rfl

/-- The name of an entity is spelled without the characters that end a reference. -/
theorem escapedChars_name {c : Char} {name : String} (h : (c, name) ∈ escapedChars) :
    predefinedEntity? name = some c ∧ resolveAttributeEntity? name.toList = some c ∧
      ∀ d ∈ name.toList, d ∉ ['<', '>', '&', '\'', '"', ';'] := by
  have hall : (escapedChars.all fun e => e.2.toList.all fun d =>
      !(['<', '>', '&', '\'', '"', ';'].contains d)) = true := rfl
  have hplain := List.all_eq_true.mp (List.all_eq_true.mp hall _ h)
  refine and_assoc.mp ⟨?_, fun d hd => by simpa using hplain d hd⟩
  simp only [escapedChars, List.mem_cons, Prod.mk.injEq, List.not_mem_nil, or_false] at h
  rcases h with ⟨rfl, rfl⟩ | ⟨rfl, rfl⟩ | ⟨rfl, rfl⟩ | ⟨rfl, rfl⟩ | ⟨rfl, rfl⟩ <;> exact ⟨rfl, rfl⟩

/-- A written text contains no angle bracket and no quote. -/
theorem escape_chars (s : List Char) : ∀ c ∈ escapedList s, c ∉ ['<', '>', '\'', '"'] := by
  intro c hc
  obtain ⟨d, -, hd⟩ := List.mem_flatMap.mp hc
  rcases escapeChar_cases d with ⟨name, hname, hesc⟩ | ⟨hplain, hesc⟩
  · obtain ⟨-, -, hchars⟩ := escapedChars_name hname
    rw [hesc, String.toList_append, String.toList_append] at hd
    rcases List.mem_append.mp hd with hd | hd
    · rcases List.mem_append.mp hd with hd | hd
      · rw [List.mem_singleton.mp hd]
        decide
      · intro hmem
        refine hchars c hd ?_
        simp only [List.mem_cons, List.not_mem_nil, or_false] at hmem ⊢
        rcases hmem with h | h | h | h <;> simp [h]
    · rw [List.mem_singleton.mp hd]
      decide
  · rw [hesc] at hd
    rw [List.mem_singleton.mp hd]
    intro hmem
    refine hplain ?_
    simp only [List.mem_cons, List.not_mem_nil, or_false] at hmem ⊢
    rcases hmem with h | h | h | h <;> simp [h]

/-! ## §2 Attribute values -/

/-- The characters of a reference are collected up to its end. -/
theorem unescape?_reference {name : List Char} (hname : ∀ c ∈ name, c ∉ ['&', ';'])
    (read rest : List Char) :
    unescape? (some read) (name ++ rest) = unescape? (some (name.reverse ++ read)) rest := by
  induction name generalizing read with
  | nil => rfl
  | cons c name ih =>
    have hc : c ∉ ['&', ';'] := hname c List.mem_cons_self
    simp only [List.mem_cons, List.not_mem_nil, or_false, not_or] at hc
    have hrest : ∀ d ∈ name, d ∉ ['&', ';'] := fun d hd => hname d (List.mem_cons_of_mem c hd)
    rw [List.cons_append, unescape?, if_neg hc.2, if_neg hc.1, ih hrest]
    simp

theorem unescape?_escapedList (s rest : List Char) :
    unescape? none (escapedList s ++ rest) = (unescape? none rest).map (s ++ ·) := by
  induction s with
  | nil =>
    cases h : unescape? none rest <;> simp [escapedList, h]
  | cons c s ih =>
    rw [escapedList_cons, List.append_assoc]
    rcases escapeChar_cases c with ⟨name, hname, hesc⟩ | ⟨hplain, hesc⟩
    · obtain ⟨-, hresolve, hchars⟩ := escapedChars_name hname
      -- The name of an entity does not end its reference early.
      have hread : ∀ d ∈ name.toList, d ∉ ['&', ';'] := by
        intro d hd hmem
        refine hchars d hd ?_
        simp only [List.mem_cons, List.not_mem_nil, or_false] at hmem ⊢
        rcases hmem with h | h <;> simp [h]
      rw [hesc, String.toList_append, String.toList_append]
      show unescape? none ('&' :: (name.toList ++ [';'] ++ (escapedList s ++ rest))) = _
      rw [List.append_assoc, List.singleton_append, unescape?, if_pos rfl,
        unescape?_reference hread, List.append_nil, unescape?, List.reverse_reverse, hresolve, ih]
      cases unescape? none rest <;> rfl
    · have hamp : c ≠ '&' := fun h => hplain (by simp [h])
      rw [hesc, List.singleton_append, unescape?]
      rw [if_neg hamp, ih]
      cases unescape? none rest <;> rfl

/-- A written value stands for the value. -/
theorem unescape?_escape (s : String) : unescape? none (escape s).toList = some s.toList := by
  have h := unescape?_escapedList s.toList []
  rw [List.append_nil] at h
  rw [toList_escape, h]
  simp [unescape?]

/-! ## §3 Attribute lists -/

namespace AttributeState

/-- The characters of a key are collected. -/
theorem foldlM_key {cs : List Char} (hcs : ∀ c ∈ cs, c ≠ '=' ∧ isMarkupBlank c = false)
    (done : List (String × String)) (read : List Char) :
    cs.foldlM step { done, mode := .key read } =
      some { done, mode := .key (cs.reverse ++ read) } := by
  induction cs generalizing read with
  | nil => rfl
  | cons c cs ih =>
    obtain ⟨heq, hblank⟩ := hcs c List.mem_cons_self
    have hrest : ∀ d ∈ cs, d ≠ '=' ∧ isMarkupBlank d = false :=
      fun d hd => hcs d (List.mem_cons_of_mem c hd)
    have hstep : step { done, mode := .key read } c = some { done, mode := .key (c :: read) } := by
      simp [step, heq, hblank]
    rw [List.foldlM_cons, hstep]
    exact (ih hrest (c :: read)).trans (by simp)

/-- The characters of a value are collected. -/
theorem foldlM_value {quote : Char} {cs : List Char} (hcs : ∀ c ∈ cs, c ≠ quote)
    (done : List (String × String)) (key : String) (read : List Char) :
    cs.foldlM step { done, mode := .value key quote read } =
      some { done, mode := .value key quote (cs.reverse ++ read) } := by
  induction cs generalizing read with
  | nil => rfl
  | cons c cs ih =>
    have hrest : ∀ d ∈ cs, d ≠ quote := fun d hd => hcs d (List.mem_cons_of_mem c hd)
    have hstep : step { done, mode := .value key quote read } c =
        some { done, mode := .value key quote (c :: read) } := by
      simp [step, hcs c List.mem_cons_self]
    rw [List.foldlM_cons, hstep]
    exact (ih hrest (c :: read)).trans (by simp)

end AttributeState

/-- The written form of one attribute. -/
def attributeChars (a : String × String) : List Char :=
  ' ' :: (a.1.toList ++ '=' :: '"' :: (escapedList a.2.toList ++ ['"']))

theorem toList_renderAttributes (attributes : List (String × String)) :
    (Element.renderAttributes attributes).toList = attributes.flatMap attributeChars := by
  simp only [Element.renderAttributes, String.toList_join, List.flatMap_map, String.toList_append,
    toList_escape]
  congr 1
  funext a
  simp [attributeChars]

theorem isMarkupBlank_false {c : Char} (hc : c ∉ reservedChars) : isMarkupBlank c = false := by
  simp only [reservedChars, List.mem_cons, List.not_mem_nil, or_false, not_or] at hc
  simp [isMarkupBlank, hc]

/-- A written attribute is read after those before it, unless one of them has its key. -/
theorem foldlM_attribute {a : String × String} (ha : IsName a.1) {done : List (String × String)}
    (hdone : a.1 ∉ done.map Prod.fst) :
    (attributeChars a).foldlM AttributeState.step { done, mode := .gap } =
      some { done := done ++ [a], mode := .gap } := by
  obtain ⟨key, value⟩ := a
  have hreserved := ha.not_reserved
  obtain ⟨first, rest, hkey, -, -⟩ := ha
  have hplain : ∀ c ∈ key.toList, c ≠ '=' ∧ isMarkupBlank c = false := by
    intro c hc
    have hc' := hreserved c hc
    exact ⟨fun h => hc' (by rw [h]; decide), isMarkupBlank_false hc'⟩
  have hfirst := (hplain first (by rw [hkey]; exact List.mem_cons_self)).2
  have hrest : ∀ c ∈ rest, c ≠ '=' ∧ isMarkupBlank c = false :=
    fun c hc => hplain c (by rw [hkey]; exact List.mem_cons_of_mem first hc)
  have hquote : ∀ c ∈ escapedList value.toList, c ≠ '"' := by
    intro c hc h
    exact escape_chars _ c hc (by rw [h]; decide)
  have hnew : (done.any fun b => b.1 == key) = false := by
    rw [List.any_eq_false]
    intro b hb h
    exact hdone (List.mem_map.mpr ⟨b, hb, eq_of_beq h⟩)
  have hunescape : unescape? none (escapedList value.toList) = some value.toList := by
    rw [← toList_escape, unescape?_escape]
  -- The states after the blank, the key, the equals sign, the quote, the value and the last quote.
  have hkeyText : String.ofList (first :: rest) = key := by
    rw [← hkey, String.ofList_toList]
  simp only [attributeChars, hkey, List.cons_append, List.foldlM_cons, List.foldlM_append]
  have hgap : AttributeState.step { done, mode := .gap } ' ' = some { done, mode := .gap } := rfl
  have hstart : AttributeState.step { done, mode := .gap } first =
      some { done, mode := .key [first] } := by
    simp [AttributeState.step, hfirst]
  have hequals : AttributeState.step { done, mode := .key (rest.reverse ++ [first]) } '=' =
      some { done, mode := .afterEquals key } := by
    simp [AttributeState.step, AttributeState.newKey?, hkeyText, hnew]
  have hopen : AttributeState.step { done, mode := .afterEquals key } '"' =
      some { done, mode := .value key '"' [] } := rfl
  have hclose : AttributeState.step
      { done, mode := .value key '"' ((escapedList value.toList).reverse ++ []) } '"' =
      some { done := done ++ [(key, value)], mode := .gap } := by
    simp [AttributeState.step, hunescape]
  simp only [hgap, hstart, Option.bind_eq_bind, Option.bind_some,
    AttributeState.foldlM_key hrest, hequals, hopen, AttributeState.foldlM_value hquote, hclose,
    List.foldlM_nil]
  rfl

theorem foldlM_attributes {attributes done : List (String × String)}
    (hnames : ∀ a ∈ attributes, IsName a.1)
    (hkeys : ((done ++ attributes).map Prod.fst).Nodup) :
    (attributes.flatMap attributeChars).foldlM AttributeState.step { done, mode := .gap } =
      some { done := done ++ attributes, mode := .gap } := by
  induction attributes generalizing done with
  | nil => simp
  | cons a attributes ih =>
    -- The keys are distinct as a whole, so none of those read before is this one.
    have hdone : a.1 ∉ done.map Prod.fst := by
      rw [List.map_append, List.map_cons, List.nodup_append] at hkeys
      exact fun h => hkeys.2.2 _ h _ List.mem_cons_self rfl
    have hrest : (((done ++ [a]) ++ attributes).map Prod.fst).Nodup := by
      rwa [List.append_assoc, List.singleton_append]
    rw [List.flatMap_cons, List.foldlM_append,
      foldlM_attribute (hnames a List.mem_cons_self) hdone]
    have h := ih (fun b hb => hnames b (List.mem_cons_of_mem a hb)) hrest
    rw [List.append_assoc, List.singleton_append] at h
    exact h

/-- What stands in a written tag is read as its name and attributes. -/
theorem openTag?_body {name : String} {attributes : List (String × String)} (hname : IsName name)
    (hnames : ∀ a ∈ attributes, IsName a.1) (hkeys : (attributes.map Prod.fst).Nodup) :
    openTag? (name.toList ++ attributes.flatMap attributeChars) =
      some { name, attributes } := by
  have hplain : ∀ c ∈ name.toList, (!isMarkupBlank c) = true := by
    intro c hc
    rw [isMarkupBlank_false (hname.not_reserved c hc)]
    rfl
  have hspan : (name.toList ++ attributes.flatMap attributeChars).span
      (fun c => !isMarkupBlank c) = (name.toList, attributes.flatMap attributeChars) := by
    refine Text.span_append hplain ?_
    cases attributes with
    | nil => simp
    | cons a attributes =>
      intro c hc
      cases hc
      decide
  have hattributes := @foldlM_attributes attributes [] hnames (by simpa using hkeys)
  unfold openTag?
  rw [hspan]
  simp only [hattributes]
  simp [AttributeState.finish?]

end CommonLut
