import CommonLut.Markup.Element
import CommonLut.Proofs.Text.Words

/-!
# Trees that a document can hold

Names follow the grammar of the markup. A tree is normal when no element has two attributes of one
name and every text is trimmed, which is how every tree comes out of the reader; writing a tree and
reading it again trims the texts of the tree and changes nothing else.

Main definitions: `IsName`, `Element.NamesValid`, `Element.DistinctKeys`, `Element.trimmed`,
`Element.Normal`.
-/

namespace CommonLut

/-! ## §1 Names -/

/-- The ranges of characters outside the basic letters that may start a name. -/
def nameStartRanges : List (Nat × Nat) :=
  [(0xC0, 0xD6), (0xD8, 0xF6), (0xF8, 0x2FF), (0x370, 0x37D), (0x37F, 0x1FFF), (0x200C, 0x200D),
    (0x2070, 0x218F), (0x2C00, 0x2FEF), (0x3001, 0xD7FF), (0xF900, 0xFDCF), (0xFDF0, 0xFFFD),
    (0x10000, 0xEFFFF)]

/-- Whether a character may start a name. -/
def isNameStart (c : Char) : Bool :=
  c == ':' || c == '_' || ('A' ≤ c && c ≤ 'Z') || ('a' ≤ c && c ≤ 'z') ||
    nameStartRanges.any fun r => r.1 ≤ c.toNat && c.toNat ≤ r.2

/-- Whether a character may stand in a name after the first one. -/
def isNameChar (c : Char) : Bool :=
  isNameStart c || c == '-' || c == '.' || ('0' ≤ c && c ≤ '9') || c.toNat == 0xB7 ||
    (0x300 ≤ c.toNat && c.toNat ≤ 0x36F) || (0x203F ≤ c.toNat && c.toNat ≤ 0x2040)

/-- A name of the markup. -/
def IsName (s : String) : Prop :=
  ∃ first rest, s.toList = first :: rest ∧ isNameStart first ∧ ∀ c ∈ rest, isNameChar c

theorem isName_iff {s : String} :
    IsName s ↔ (s.toList.head?.any isNameStart && s.toList.tail.all isNameChar) = true := by
  cases h : s.toList with
  | nil => simp [IsName, h]
  | cons first rest => simp [IsName, h]

instance (s : String) : Decidable (IsName s) := decidable_of_iff _ isName_iff.symm

/-- The characters that end a name or mean something else where a name is expected. -/
def reservedChars : List Char :=
  ['<', '>', '/', '=', '"', '\'', '&', ' ', '\t', '\r', '\n', '!', '?']

theorem IsName.chars {s : String} (h : IsName s) : ∀ c ∈ s.toList, isNameChar c := by
  obtain ⟨first, rest, hs, hfirst, hrest⟩ := h
  intro c hc
  rw [hs] at hc
  rcases List.mem_cons.mp hc with rfl | hc
  · simp [isNameChar, hfirst]
  · exact hrest c hc

theorem not_mem_reservedChars {c : Char} (hc : isNameChar c) : c ∉ reservedChars := by
  have hnone : reservedChars.any isNameChar = false := rfl
  intro hmem
  exact List.any_eq_false.mp hnone c hmem hc

/-- No reserved character stands in a name. -/
theorem IsName.not_reserved {s : String} (h : IsName s) : ∀ c ∈ s.toList, c ∉ reservedChars :=
  fun c hc => not_mem_reservedChars (h.chars c hc)

theorem IsName.ne_nil {s : String} (h : IsName s) : s.toList ≠ [] := by
  obtain ⟨first, rest, hs, -, -⟩ := h
  simp [hs]

/-! ## §2 Trees -/

namespace Element

mutual
/-- Whether the names of elements and attributes are names throughout a tree. -/
def NamesValid : Element → Prop
  | ⟨name, attributes, _, children⟩ =>
    IsName name ∧ (∀ a ∈ attributes, IsName a.1) ∧ NamesValidAll children
termination_by structural e => e

@[inherit_doc NamesValid]
def NamesValidAll : List Element → Prop
  | [] => True
  | e :: es => e.NamesValid ∧ NamesValidAll es
termination_by structural es => es
end

mutual
instance decidableNamesValid : (e : Element) → Decidable e.NamesValid
  | ⟨name, attributes, _, children⟩ =>
    haveI := decidableNamesValidAll children
    inferInstanceAs
      (Decidable (IsName name ∧ (∀ a ∈ attributes, IsName a.1) ∧ NamesValidAll children))
termination_by structural e => e

instance decidableNamesValidAll : (es : List Element) → Decidable (NamesValidAll es)
  | [] => inferInstanceAs (Decidable True)
  | e :: es =>
    haveI := decidableNamesValid e
    haveI := decidableNamesValidAll es
    inferInstanceAs (Decidable (e.NamesValid ∧ NamesValidAll es))
termination_by structural es => es
end

mutual
/-- Whether no element of a tree has two attributes of one name. -/
def DistinctKeys : Element → Prop
  | ⟨_, attributes, _, children⟩ =>
    (attributes.map Prod.fst).Nodup ∧ DistinctKeysAll children
termination_by structural e => e

@[inherit_doc DistinctKeys]
def DistinctKeysAll : List Element → Prop
  | [] => True
  | e :: es => e.DistinctKeys ∧ DistinctKeysAll es
termination_by structural es => es
end

mutual
instance decidableDistinctKeys : (e : Element) → Decidable e.DistinctKeys
  | ⟨_, attributes, _, children⟩ =>
    haveI := decidableDistinctKeysAll children
    inferInstanceAs (Decidable ((attributes.map Prod.fst).Nodup ∧ DistinctKeysAll children))
termination_by structural e => e

instance decidableDistinctKeysAll : (es : List Element) → Decidable (DistinctKeysAll es)
  | [] => inferInstanceAs (Decidable True)
  | e :: es =>
    haveI := decidableDistinctKeys e
    haveI := decidableDistinctKeysAll es
    inferInstanceAs (Decidable (e.DistinctKeys ∧ DistinctKeysAll es))
termination_by structural es => es
end

mutual
/-- A tree with every text trimmed. -/
def trimmed : Element → Element
  | ⟨name, attributes, text, children⟩ =>
    ⟨name, attributes, Text.trim text, trimmedAll children⟩
termination_by structural e => e

@[inherit_doc trimmed]
def trimmedAll : List Element → List Element
  | [] => []
  | e :: es => e.trimmed :: trimmedAll es
termination_by structural es => es
end

/-- A tree as it comes out of the reader. -/
structure Normal (e : Element) : Prop where
  keys : e.DistinctKeys
  texts : e.trimmed = e

/-! ## §3 Lists of trees -/

theorem namesValidAll_iff {es : List Element} : NamesValidAll es ↔ ∀ e ∈ es, e.NamesValid := by
  induction es with
  | nil => simp [NamesValidAll]
  | cons e es ih => simp [NamesValidAll, ih]

theorem distinctKeysAll_iff {es : List Element} :
    DistinctKeysAll es ↔ ∀ e ∈ es, e.DistinctKeys := by
  induction es with
  | nil => simp [DistinctKeysAll]
  | cons e es ih => simp [DistinctKeysAll, ih]

theorem trimmedAll_eq_map (es : List Element) : trimmedAll es = es.map trimmed := by
  induction es with
  | nil => rfl
  | cons e es ih => rw [trimmedAll, ih, List.map_cons]

theorem namesValid_iff {e : Element} :
    e.NamesValid ↔ IsName e.name ∧ (∀ a ∈ e.attributes, IsName a.1) ∧
      ∀ c ∈ e.children, c.NamesValid := by
  cases e
  rw [NamesValid, namesValidAll_iff]

theorem distinctKeys_iff {e : Element} :
    e.DistinctKeys ↔ (e.attributes.map Prod.fst).Nodup ∧ ∀ c ∈ e.children, c.DistinctKeys := by
  cases e
  rw [DistinctKeys, distinctKeysAll_iff]

theorem trimmed_eq (e : Element) :
    e.trimmed = { e with text := Text.trim e.text, children := e.children.map trimmed } := by
  cases e
  rw [trimmed, trimmedAll_eq_map]

@[simp]
theorem name_trimmed (e : Element) : e.trimmed.name = e.name := by rw [trimmed_eq]

@[simp]
theorem attributes_trimmed (e : Element) : e.trimmed.attributes = e.attributes := by
  rw [trimmed_eq]

@[simp]
theorem text_trimmed (e : Element) : e.trimmed.text = Text.trim e.text := by rw [trimmed_eq]

@[simp]
theorem children_trimmed (e : Element) : e.trimmed.children = e.children.map trimmed := by
  rw [trimmed_eq]

mutual
/-- Trimming keeps every name. -/
theorem namesValid_trimmed : ∀ e : Element, e.trimmed.NamesValid ↔ e.NamesValid
  | ⟨name, attributes, text, children⟩ => by
    rw [trimmed, NamesValid, NamesValid, namesValidAll_trimmedAll children]
termination_by structural e => e

@[inherit_doc namesValid_trimmed]
theorem namesValidAll_trimmedAll :
    ∀ es : List Element, NamesValidAll (trimmedAll es) ↔ NamesValidAll es
  | [] => Iff.rfl
  | e :: es => by
    rw [trimmedAll, NamesValidAll, NamesValidAll, namesValid_trimmed e,
      namesValidAll_trimmedAll es]
termination_by structural es => es
end

theorem map_trimmed_eq_self {es : List Element} :
    es.map trimmed = es ↔ ∀ e ∈ es, e.trimmed = e := by
  induction es with
  | nil => simp
  | cons e es ih => simp [ih]

/-- What a normal element is made of. -/
theorem normal_iff {e : Element} :
    e.Normal ↔ (e.attributes.map Prod.fst).Nodup ∧ Text.trim e.text = e.text ∧
      ∀ c ∈ e.children, c.Normal := by
  have htexts : e.trimmed = e ↔ Text.trim e.text = e.text ∧ ∀ c ∈ e.children, c.trimmed = c := by
    rw [trimmed_eq]
    cases e
    simp only [mk.injEq, true_and, map_trimmed_eq_self]
  constructor
  · rintro ⟨hkeys, h⟩
    obtain ⟨hattributes, hchildren⟩ := distinctKeys_iff.mp hkeys
    obtain ⟨htext, hall⟩ := htexts.mp h
    exact ⟨hattributes, htext, fun c hc => ⟨hchildren c hc, hall c hc⟩⟩
  · rintro ⟨hattributes, htext, hall⟩
    exact ⟨distinctKeys_iff.mpr ⟨hattributes, fun c hc => (hall c hc).keys⟩,
      htexts.mpr ⟨htext, fun c hc => (hall c hc).texts⟩⟩

end Element

end CommonLut
