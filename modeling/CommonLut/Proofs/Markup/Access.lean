import CommonLut.Proofs.Markup.Trees
import CommonLut.Proofs.Outcome
import CommonLut.Proofs.SampleEncoding

/-!
# Attributes and texts read back

An element that is built attribute by attribute gives each of them back, and numbers and flags that
are written into attributes and texts are read as they were. Trimming the texts of a tree changes
none of this.

Main statements: `Element.attribute?_withAttribute?`, `Element.numberAttribute_format64`,
`Element.numberText_format64`, `Element.tripleText_format64`.
-/

namespace CommonLut

/-! ## §1 Lookup in attributes -/

/-- The value of the first attribute with a name in a list. -/
def lookupKey (attributes : List (String × String)) (key : String) : Option String :=
  (attributes.find? fun a => a.1 == key).map Prod.snd

theorem Element.attribute?_eq (e : Element) (key : String) :
    e.attribute? key = lookupKey e.attributes key := rfl

@[simp]
theorem lookupKey_nil (key : String) : lookupKey [] key = none := rfl

@[simp]
theorem lookupKey_cons (a : String × String) (attributes : List (String × String)) (key : String) :
    lookupKey (a :: attributes) key =
      if a.1 = key then some a.2 else lookupKey attributes key := by
  unfold lookupKey
  by_cases h : a.1 = key <;> simp [h]

@[simp]
theorem lookupKey_append (attributes more : List (String × String)) (key : String) :
    lookupKey (attributes ++ more) key = (lookupKey attributes key).or (lookupKey more key) := by
  unfold lookupKey
  rw [List.find?_append]
  cases attributes.find? fun a => a.1 == key <;> simp

theorem lookupKey_eq_none {attributes : List (String × String)} {key : String}
    (h : ∀ a ∈ attributes, a.1 ≠ key) : lookupKey attributes key = none := by
  unfold lookupKey
  rw [List.find?_eq_none.mpr fun a ha => by simpa using h a ha]
  rfl

/-- Attributes of other names do not matter. -/
theorem lookupKey_filter {attributes : List (String × String)} {p : String × String → Bool}
    {key : String} (h : ∀ a ∈ attributes, a.1 = key → p a = true) :
    lookupKey (attributes.filter p) key = lookupKey attributes key := by
  induction attributes with
  | nil => rfl
  | cons a attributes ih =>
    have hrest := ih fun b hb => h b (List.mem_cons_of_mem a hb)
    by_cases hkey : a.1 = key
    · rw [List.filter_cons_of_pos (h a List.mem_cons_self hkey), lookupKey_cons, lookupKey_cons,
        if_pos hkey, if_pos hkey]
    · rw [lookupKey_cons, if_neg hkey, ← hrest, List.filter_cons]
      split
      · rw [lookupKey_cons, if_neg hkey]
      · rfl

namespace Element

/-! ## §2 Built elements -/

@[simp]
theorem name_leaf (name text : String) : (leaf name text).name = name := rfl

@[simp]
theorem text_leaf (name text : String) : (leaf name text).text = text := rfl

@[simp]
theorem trimmed_leaf (name text : String) :
    (leaf name text).trimmed = leaf name (Text.trim text) := by
  rw [trimmed_eq]
  rfl

@[simp]
theorem attribute?_leaf (name text key : String) : (leaf name text).attribute? key = none := rfl

@[simp]
theorem attribute?_withAttribute (e : Element) (key value other : String) :
    (e.withAttribute key value).attribute? other =
      (e.attribute? other).or (if key = other then some value else none) := by
  rw [attribute?_eq, withAttribute, lookupKey_append, lookupKey_cons, lookupKey_nil]
  rfl

@[simp]
theorem attribute?_withAttribute? (e : Element) (key : String) (value : Option String)
    (other : String) :
    (e.withAttribute? key value).attribute? other =
      (e.attribute? other).or (if key = other then value else none) := by
  cases value with
  | none => simp [withAttribute?]
  | some value => rw [withAttribute?, attribute?_withAttribute]

@[simp]
theorem attribute?_trimmed (e : Element) (key : String) :
    e.trimmed.attribute? key = e.attribute? key := by
  rw [attribute?_eq, attributes_trimmed, attribute?_eq]

@[simp]
theorem name_withAttribute (e : Element) (key value : String) :
    (e.withAttribute key value).name = e.name := rfl

@[simp]
theorem text_withAttribute (e : Element) (key value : String) :
    (e.withAttribute key value).text = e.text := rfl

@[simp]
theorem children_withAttribute (e : Element) (key value : String) :
    (e.withAttribute key value).children = e.children := rfl

@[simp]
theorem name_withAttribute? (e : Element) (key : String) (value : Option String) :
    (e.withAttribute? key value).name = e.name := by
  cases value <;> rfl

@[simp]
theorem text_withAttribute? (e : Element) (key : String) (value : Option String) :
    (e.withAttribute? key value).text = e.text := by
  cases value <;> rfl

@[simp]
theorem children_withAttribute? (e : Element) (key : String) (value : Option String) :
    (e.withAttribute? key value).children = e.children := by
  cases value <;> rfl

/-! ## §3 Elements that can be written -/

/-- An element that is parsed from its document as it is, but for the blanks around its texts. -/
structure Writable (e : Element) : Prop where
  names : e.NamesValid
  keys : e.DistinctKeys

theorem writable_iff {e : Element} :
    e.Writable ↔ IsName e.name ∧ ((∀ a ∈ e.attributes, IsName a.1) ∧
      (e.attributes.map Prod.fst).Nodup) ∧ ∀ c ∈ e.children, c.Writable := by
  constructor
  · rintro ⟨hnames, hkeys⟩
    obtain ⟨hname, hattributes, hchildren⟩ := namesValid_iff.mp hnames
    obtain ⟨hnodup, hall⟩ := distinctKeys_iff.mp hkeys
    exact ⟨hname, ⟨hattributes, hnodup⟩, fun c hc => ⟨hchildren c hc, hall c hc⟩⟩
  · rintro ⟨hname, ⟨hattributes, hnodup⟩, hall⟩
    exact ⟨namesValid_iff.mpr ⟨hname, hattributes, fun c hc => (hall c hc).names⟩,
      distinctKeys_iff.mpr ⟨hnodup, fun c hc => (hall c hc).keys⟩⟩

/-- An element as the reader of documents gives it, with proper names. -/
structure Parsed (e : Element) : Prop extends Writable e where
  texts : e.trimmed = e

theorem parsed_iff {e : Element} :
    e.Parsed ↔ IsName e.name ∧ ((∀ a ∈ e.attributes, IsName a.1) ∧
      (e.attributes.map Prod.fst).Nodup) ∧ Text.trim e.text = e.text ∧
      ∀ c ∈ e.children, c.Parsed := by
  constructor
  · rintro ⟨⟨hnames, hkeys⟩, htexts⟩
    obtain ⟨hname, hattributes, hchildren⟩ := writable_iff.mp ⟨hnames, hkeys⟩
    obtain ⟨-, htext, hall⟩ := normal_iff.mp ⟨hkeys, htexts⟩
    exact ⟨hname, hattributes, htext, fun c hc => ⟨hchildren c hc, (hall c hc).texts⟩⟩
  · rintro ⟨hname, hattributes, htext, hall⟩
    refine ⟨writable_iff.mpr ⟨hname, hattributes, fun c hc => (hall c hc).toWritable⟩, ?_⟩
    exact (normal_iff.mpr ⟨hattributes.2, htext, fun c hc => ⟨(hall c hc).keys,
      (hall c hc).texts⟩⟩).texts

/-- The attributes of an element have names out of a list, in the order of the list. -/
def KeysWithin (e : Element) (keys : List String) : Prop :=
  (e.attributes.map Prod.fst).Sublist keys

theorem keysWithin_leaf (name text : String) : (leaf name text).KeysWithin [] :=
  List.Sublist.refl []

theorem KeysWithin.withAttribute {e : Element} {keys : List String} (h : e.KeysWithin keys)
    (key value : String) : (e.withAttribute key value).KeysWithin (keys ++ [key]) := by
  rw [KeysWithin, Element.withAttribute, List.map_append]
  exact h.append (List.Sublist.refl [key])

theorem KeysWithin.withAttribute? {e : Element} {keys : List String} (h : e.KeysWithin keys)
    (key : String) (value : Option String) :
    (e.withAttribute? key value).KeysWithin (keys ++ [key]) := by
  cases value with
  | none => exact h.trans (List.sublist_append_left keys [key])
  | some value => exact h.withAttribute key value

theorem KeysWithin.writable {e : Element} {keys : List String} (h : e.KeysWithin keys)
    (hname : IsName e.name) (hkeys : ∀ k ∈ keys, IsName k) (hnodup : keys.Nodup)
    (hchildren : ∀ c ∈ e.children, c.Writable) : e.Writable :=
  writable_iff.mpr ⟨hname, ⟨fun a ha => hkeys a.1 (h.subset (List.mem_map_of_mem ha)),
    hnodup.sublist h⟩, hchildren⟩

theorem writable_leaf {name : String} (hname : IsName name) (text : String) :
    (leaf name text).Writable :=
  (keysWithin_leaf name text).writable hname (by simp) List.nodup_nil
    (fun c hc => absurd hc List.not_mem_nil)

instance (e : Element) : Decidable e.Writable :=
  decidable_of_iff (e.NamesValid ∧ e.DistinctKeys) ⟨fun h => ⟨h.1, h.2⟩, fun h => ⟨h.1, h.2⟩⟩

/-! ## §4 Numbers and flags -/

theorem requiredAttribute_of_some {e : Element} {key value : String}
    (h : e.attribute? key = some value) : e.requiredAttribute key = .ok value := by
  rw [requiredAttribute, h]

/-- A number in an attribute is read back. -/
theorem numberAttribute_format64 {e : Element} {key : String} {x : Option Float}
    (h : e.attribute? key = x.map Text.format64) : e.numberAttribute key = .ok x := by
  unfold numberAttribute
  rw [h]
  cases x with
  | none => rfl
  | some x => simp only [Option.map_some, number?_format64]

/-- A number that is the text of an element is read back. -/
theorem numberText_format64 {e : Element} {x : Float} (h : e.text = Text.format64 x) :
    e.numberText = .ok x := by
  unfold numberText
  rw [h, number?_format64]

/-- Numbers that are the words of a text are read back. -/
theorem numbersText_format64 {e : Element} {xs : List Float}
    (h : Text.words e.text = xs.map Text.format64) : e.numbersText = .ok xs := by
  unfold numbersText
  rw [h, List.mapM_map]
  refine (mapM_of_pure (g := id) fun x _ => ?_).trans (by rw [List.map_id]; rfl)
  rw [Function.comp_apply, number?_format64]
  rfl

theorem tripleText_format64 {e : Element} {x y z : Float}
    (h : Text.words e.text = [x, y, z].map Text.format64) : e.tripleText = .ok (x, y, z) := by
  unfold tripleText
  rw [numbersText_format64 h]
  rfl

end Element

end CommonLut
