import Mathlib
import CommonLut.Proofs.Markup.RoundTrip
import CommonLut.Proofs.Text.Digits

/-!
# References

A reference stands for one of five characters by name, or for any character but the null character
by number: a number sign, digits, and before hexadecimal digits the letter x. That is what attribute
values know. In the text of an element two kinds of numbers more are read, those with a plus sign
before the digits and zero; everything else is a fault there too.

Main definitions: `Text.Spells`, `Numbered`, `Reference`, `Lenient`.
Main statements: `Text.bareNatural?_eq_some_iff`, `resolveEntity?_eq_some_iff`,
`resolveAttributeEntity?_eq_some_iff`, `references_read`.
-/

namespace CommonLut

/-! ## §1 Numerals -/

namespace Text

/-- A character is the digit of a value, letters in either case. -/
def IsDigitOf (radix : Nat) (c : Char) (value : Nat) : Prop :=
  value < radix ∧ (c = value.digitChar ∨ c = value.digitChar.toUpper)

/-- Digits, at least one, spell the sum of their values by place. -/
def Spells (radix : Nat) (digits : List Char) (n : Nat) : Prop :=
  digits ≠ [] ∧ ∃ values : List Nat,
    List.Forall₂ (IsDigitOf radix) digits values ∧ n = Nat.ofDigits radix values.reverse

/-- A digit is a digit in every radix above its value. -/
theorem digitValue?_eq_some_iff_lt {radix : Nat} (hradix : radix ≤ 16) {c : Char} {value : Nat} :
    digitValue? radix c = some value ↔ digitValue? 16 c = some value ∧ value < radix := by
  simp only [digitValue?, Option.filter_eq_some_iff, decide_eq_true_eq]
  constructor
  · rintro ⟨hvalue, hlt⟩
    exact ⟨⟨hvalue, by omega⟩, hlt⟩
  · rintro ⟨⟨hvalue, -⟩, hlt⟩
    exact ⟨hvalue, hlt⟩

/-- No digit lies beyond the ASCII characters. -/
theorem toNat_lt_of_digitValue? {radix value : Nat} {c : Char}
    (h : digitValue? radix c = some value) : c.toNat < 128 := by
  by_contra hlarge
  have hbelow : ∀ d : Char, d.toNat < 128 → ¬ c ≤ d := by
    intro d hd hle
    have hle' : c.toNat ≤ d.toNat := hle
    omega
  have hdecimal := hbelow '9' (by decide)
  have hlower := hbelow 'z' (by decide)
  have hupper := hbelow 'Z' (by decide)
  simp [digitValue?, hdecimal, hlower, hupper] at h

theorem digitValue?_eq_some_iff {radix : Nat} (hradix : radix ≤ 16) {c : Char} {value : Nat} :
    digitValue? radix c = some value ↔ IsDigitOf radix c value := by
  have hread : ∀ n : Fin 128, ∀ v ∈ digitValue? 16 (Char.ofNat n.val),
      Char.ofNat n.val = v.digitChar ∨ Char.ofNat n.val = v.digitChar.toUpper := by decide
  have hupper : ∀ v : Fin 16, digitValue? 16 v.val.digitChar.toUpper = some v.val := by decide
  rw [digitValue?_eq_some_iff_lt hradix]
  constructor
  · rintro ⟨hvalue, hlt⟩
    have hchar := hread ⟨c.toNat, toNat_lt_of_digitValue? hvalue⟩ value
    rw [Char.ofNat_toNat] at hchar
    exact ⟨hlt, hchar hvalue⟩
  · rintro ⟨hlt, rfl | rfl⟩
    · exact ⟨digitValue?_digitChar (by decide) (by omega), hlt⟩
    · exact ⟨hupper ⟨value, by omega⟩, hlt⟩

/-- Read from the left, each digit moves what is before it up by one place. -/
theorem foldlM_digits_eq_some_iff {radix : Nat} (hradix : radix ≤ 16) {digits : List Char}
    {start n : Nat} :
    digits.foldlM (fun acc c => (digitValue? radix c).map (acc * radix + ·)) start = some n ↔
      ∃ values : List Nat, List.Forall₂ (IsDigitOf radix) digits values ∧
        n = start * radix ^ digits.length + Nat.ofDigits radix values.reverse := by
  induction digits generalizing start with
  | nil => simp [eq_comm]
  | cons c digits ih =>
    have hplaces : ∀ (value : Nat) (values : List Nat), values.length = digits.length →
        start * radix ^ (digits.length + 1) + Nat.ofDigits radix (value :: values).reverse =
          (start * radix + value) * radix ^ digits.length +
            Nat.ofDigits radix values.reverse := by
      intro value values hlength
      rw [List.reverse_cons, Nat.ofDigits_append, Nat.ofDigits_singleton, List.length_reverse,
        hlength]
      ring
    rw [List.foldlM_cons]
    constructor
    · intro h
      obtain ⟨next, hnext, hrest⟩ := Option.bind_eq_some_iff.mp h
      obtain ⟨value, hvalue, rfl⟩ := Option.map_eq_some_iff.mp hnext
      obtain ⟨values, hvalues, rfl⟩ := ih.mp hrest
      have hdigit := (digitValue?_eq_some_iff hradix).mp hvalue
      refine ⟨value :: values, List.Forall₂.cons hdigit hvalues, ?_⟩
      rw [List.length_cons, hplaces value values hvalues.length_eq.symm]
    · rintro ⟨_, hvalues, hn⟩
      cases hvalues with
      | cons hdigit hvalues =>
        rw [List.length_cons, hplaces _ _ hvalues.length_eq.symm] at hn
        rw [(digitValue?_eq_some_iff hradix).mpr hdigit]
        exact ih.mpr ⟨_, hvalues, hn⟩

/-- A number is read from the digits that spell it. -/
theorem bareNatural?_eq_some_iff {radix bound : Nat} (hradix : radix ≤ 16) {digits : List Char}
    {n : Nat} : bareNatural? radix bound digits = some n ↔ Spells radix digits n ∧ n < bound := by
  unfold bareNatural? Spells
  split
  · next hempty => simp [List.isEmpty_iff.mp hempty]
  · next hdigits =>
    have hne : digits ≠ [] := mt List.isEmpty_iff.mpr hdigits
    rw [Option.filter_eq_some_iff, decide_eq_true_eq, ofDigits?, foldlM_digits_eq_some_iff hradix]
    simp [hne]

/-- Nothing is spelled that begins with something else than a digit. -/
theorem not_spells_cons {radix : Nat} (hradix : radix ≤ 16) {c : Char}
    (hc : digitValue? radix c = none) {rest : List Char} {n : Nat} :
    ¬ Spells radix (c :: rest) n := by
  rintro ⟨-, _, hvalues, -⟩
  cases hvalues with
  | cons hdigit _ =>
    rw [(digitValue?_eq_some_iff hradix).mpr hdigit] at hc
    cases hc

/-- A sign is no digit. -/
theorem digitValue?_plus (radix : Nat) : digitValue? radix '+' = none := rfl

/-- A number is read without a sign or with a plus sign. -/
theorem natural?_eq_some_iff {radix bound : Nat} (hradix : radix ≤ 16) {text : List Char} {n : Nat} :
    natural? radix bound (String.ofList text) = some n ↔
      (Spells radix text n ∨ ∃ digits, text = '+' :: digits ∧ Spells radix digits n) ∧ n < bound := by
  rw [natural?, String.toList_ofList]
  split
  · next digits =>
    rw [bareNatural?_eq_some_iff hradix]
    simp [not_spells_cons hradix (digitValue?_plus radix)]
  · next hplain =>
    rw [bareNatural?_eq_some_iff hradix]
    have hunsigned : ∀ digits, text ≠ '+' :: digits := hplain
    simp [hunsigned]

end Text

/-! ## §2 What a reference stands for -/

/-- A character is given by its number, with a sign before the digits or without one. -/
inductive Numbered (sign : List Char) : List Char → Char → Prop
  | decimal {digits : List Char} {c : Char} (h : Text.Spells 10 digits c.toNat) :
      Numbered sign ('#' :: (sign ++ digits)) c
  | hexadecimal {digits : List Char} {c : Char} (h : Text.Spells 16 digits c.toNat) :
      Numbered sign ('#' :: 'x' :: (sign ++ digits)) c

/-- A reference stands for one of the five characters by its name, or for any character but the null
character by its number. -/
inductive Reference (name : List Char) (c : Char) : Prop
  | named (h : (c, String.ofList name) ∈ escapedChars)
  | numbered (h : Numbered [] name c) (hne : c ≠ '\x00')

/-- The numbers that are no references, but are read in texts. -/
inductive Lenient (name : List Char) (c : Char) : Prop
  | plus (h : Numbered ['+'] name c)
  | null (h : Numbered [] name c) (hnull : c = '\x00')

section

variable {sign text : List Char} {c : Char}

theorem numbered_iff : Numbered sign text c ↔
    ∃ digits, (text = '#' :: (sign ++ digits) ∧ Text.Spells 10 digits c.toNat) ∨
      (text = '#' :: 'x' :: (sign ++ digits) ∧ Text.Spells 16 digits c.toNat) := by
  constructor
  · rintro (h | h)
    · exact ⟨_, .inl ⟨rfl, h⟩⟩
    · exact ⟨_, .inr ⟨rfl, h⟩⟩
  · rintro ⟨digits, ⟨rfl, h⟩ | ⟨rfl, h⟩⟩
    · exact .decimal h
    · exact .hexadecimal h

/-- The letter of the hexadecimal digits is no decimal digit. -/
theorem numbered_hexadecimal_iff (hsign : 'x' ∉ sign) : Numbered sign ('#' :: 'x' :: text) c ↔
    ∃ digits, text = sign ++ digits ∧ Text.Spells 16 digits c.toNat := by
  have hdecimal : ∀ digits, 'x' :: text = sign ++ digits → ¬ Text.Spells 10 digits c.toNat := by
    intro digits hdigits
    cases sign with
    | nil =>
      rw [← List.nil_append digits, ← hdigits]
      exact Text.not_spells_cons (by decide) rfl
    | cons d sign =>
      cases hdigits
      exact absurd List.mem_cons_self hsign
  rw [numbered_iff]
  simp only [List.cons.injEq, true_and]
  constructor
  · rintro ⟨digits, ⟨hdigits, h⟩ | h⟩
    · exact absurd h (hdecimal digits hdigits)
    · exact ⟨digits, h⟩
  · rintro ⟨digits, h⟩
    exact ⟨digits, .inr h⟩

theorem numbered_decimal_iff (htext : ∀ rest, text ≠ 'x' :: rest) : Numbered sign ('#' :: text) c ↔
    ∃ digits, text = sign ++ digits ∧ Text.Spells 10 digits c.toNat := by
  rw [numbered_iff]
  simp [htext]

theorem not_numbered (htext : ∀ rest, text ≠ '#' :: rest) : ¬ Numbered sign text c := by
  rw [numbered_iff]
  simp [htext]

end

theorem charOfCode?_eq_some_iff {code : Nat} {c : Char} :
    charOfCode? code = some c ↔ code = c.toNat := by
  unfold charOfCode?
  constructor
  · intro h
    split at h
    · next hvalid =>
      cases h
      rw [Char.toNat_ofNat, if_pos hvalid]
    · cases h
  · rintro rfl
    have hvalid : c.toNat.isValidChar := c.valid
    rw [if_pos hvalid, Char.ofNat_toNat]

theorem toNat_eq_zero_iff {c : Char} : c.toNat = 0 ↔ c = '\x00' := by
  constructor
  · intro h
    rw [← Char.ofNat_toNat c, h]
  · rintro rfl
    rfl

theorem predefinedEntity?_eq_some_iff {name : String} {c : Char} :
    predefinedEntity? name = some c ↔ (c, name) ∈ escapedChars := by
  constructor
  · intro h
    unfold predefinedEntity? at h
    split_ifs at h <;> cases h <;> simp_all [escapedChars]
  · intro h
    exact (escapedChars_name h).1

/-- No name begins with a number sign. -/
theorem predefinedEntity?_number (text : List Char) :
    predefinedEntity? (String.ofList ('#' :: text)) = none := by
  have hnames : ∀ e ∈ escapedChars, e.2.toList.head? ≠ some '#' := by decide
  rw [Option.eq_none_iff_forall_ne_some]
  intro c hc
  apply hnames _ (predefinedEntity?_eq_some_iff.mp hc)
  simp

section

variable {radix : Nat} (hradix : radix ≤ 16) {text : List Char} {c : Char}

include hradix

/-- A number in a text, perhaps with a sign. -/
theorem number_eq_some_iff :
    (Text.natural? radix codeBound (String.ofList text)).bind charOfCode? = some c ↔
      Text.Spells radix text c.toNat ∨
        ∃ digits, text = '+' :: digits ∧ Text.Spells radix digits c.toNat := by
  have hbound : c.toNat < codeBound := c.val.toNat_lt
  simp only [Option.bind_eq_some_iff, charOfCode?_eq_some_iff, exists_eq_right,
    Text.natural?_eq_some_iff hradix, hbound, and_true]

/-- A number in an attribute value. -/
theorem bareNumber_eq_some_iff :
    (Text.bareNatural? radix codeBound text).bind resolveAttributeEntity?.nonzero? = some c ↔
      Text.Spells radix text c.toNat ∧ c ≠ '\x00' := by
  have hbound : c.toNat < codeBound := c.val.toNat_lt
  have hnonzero : ∀ code, resolveAttributeEntity?.nonzero? code = some c ↔
      code = c.toNat ∧ c ≠ '\x00' := by
    intro code
    unfold resolveAttributeEntity?.nonzero?
    split
    · next hzero =>
      constructor
      · nofun
      · rintro ⟨hc, hne⟩
        exact absurd (toNat_eq_zero_iff.mp (hc.symm.trans hzero)) hne
    · next hcode =>
      rw [charOfCode?_eq_some_iff, ne_eq, ← toNat_eq_zero_iff]
      grind
  simp only [Option.bind_eq_some_iff, hnonzero, Text.bareNatural?_eq_some_iff hradix]
  constructor
  · rintro ⟨_, ⟨h, -⟩, rfl, hne⟩
    exact ⟨h, hne⟩
  · rintro ⟨h, hne⟩
    exact ⟨_, ⟨h, hbound⟩, rfl, hne⟩

end

/-- In a text a number may have a plus sign. -/
theorem resolveEntity?_eq_some_iff {name : List Char} {c : Char} :
    resolveEntity? (String.ofList name) = some c ↔
      (c, String.ofList name) ∈ escapedChars ∨ Numbered [] name c ∨ Numbered ['+'] name c := by
  rw [← predefinedEntity?_eq_some_iff, resolveEntity?, String.toList_ofList]
  split
  · next text =>
    rw [predefinedEntity?_number, Option.none_or, number_eq_some_iff (by decide),
      numbered_hexadecimal_iff (by decide), numbered_hexadecimal_iff (by decide)]
    simp
  · next text htext =>
    rw [predefinedEntity?_number, Option.none_or, number_eq_some_iff (by decide),
      numbered_decimal_iff htext, numbered_decimal_iff htext]
    simp
  · next _ htext => simp [not_numbered htext]

/-- In an attribute value a number has no sign and is not zero. -/
theorem resolveAttributeEntity?_eq_some_iff {name : List Char} {c : Char} :
    resolveAttributeEntity? name = some c ↔ Reference name c := by
  have hreference : Reference name c ↔
      (c, String.ofList name) ∈ escapedChars ∨ Numbered [] name c ∧ c ≠ '\x00' := by
    constructor
    · rintro (h | ⟨h, hne⟩)
      · exact .inl h
      · exact .inr ⟨h, hne⟩
    · rintro (h | ⟨h, hne⟩)
      · exact .named h
      · exact .numbered h hne
  rw [hreference, ← predefinedEntity?_eq_some_iff]
  unfold resolveAttributeEntity?
  split
  · next text =>
    rw [predefinedEntity?_number, bareNumber_eq_some_iff (by decide),
      numbered_hexadecimal_iff (by decide)]
    simp
  · next text htext =>
    rw [predefinedEntity?_number, bareNumber_eq_some_iff (by decide), numbered_decimal_iff htext]
    simp
  · next _ htext => simp [not_numbered htext]

/-! ## §3 References in texts -/

/-- A text knows the references and the lenient numbers besides. -/
theorem resolveEntity?_eq_some_iff_reference {name : List Char} {c : Char} :
    resolveEntity? (String.ofList name) = some c ↔ Reference name c ∨ Lenient name c := by
  rw [resolveEntity?_eq_some_iff]
  constructor
  · rintro (h | h | h)
    · exact .inl (.named h)
    · by_cases hnull : c = '\x00'
      · exact .inr (.null h hnull)
      · exact .inl (.numbered h hnull)
    · exact .inr (.plus h)
  · rintro ((h | ⟨h, -⟩) | (h | ⟨h, -⟩))
    · exact .inl h
    · exact .inr (.inl h)
    · exact .inr (.inr h)
    · exact .inr (.inl h)

theorem Numbered.not_named {sign name : List Char} {c c' : Char} (h : Numbered sign name c) :
    (c', String.ofList name) ∉ escapedChars := by
  rw [← predefinedEntity?_eq_some_iff]
  cases h with
  | decimal _ | hexadecimal _ =>
    rw [predefinedEntity?_number]
    exact Option.some_ne_none _ ∘ Eq.symm

/-- A number is written with a sign or without one. -/
theorem Numbered.not_unsigned {name : List Char} {c c' : Char} (h : Numbered ['+'] name c) :
    ¬ Numbered [] name c' := by
  cases h with
  | decimal h =>
    rw [List.singleton_append, numbered_decimal_iff (by simp)]
    rintro ⟨_, rfl, hdigits⟩
    exact Text.not_spells_cons (by decide) (Text.digitValue?_plus 10) hdigits
  | hexadecimal h =>
    rw [List.singleton_append, numbered_hexadecimal_iff (by decide)]
    rintro ⟨_, rfl, hdigits⟩
    exact Text.not_spells_cons (by decide) (Text.digitValue?_plus 16) hdigits

theorem Lenient.not_reference {name : List Char} {c : Char} (h : Lenient name c) :
    ¬ Reference name c := by
  rintro (hnamed | ⟨hnumbered, hne⟩)
  · cases h with
    | plus h => exact h.not_named hnamed
    | null h _ => exact h.not_named hnamed
  · cases h with
    | plus h => exact h.not_unsigned hnumbered
    | null _ hnull => exact hne hnull

/-- A name that stands for nothing is a fault. -/
theorem Reader.closeReference_of_none {s : Reader.State} (hopen : s.stack ≠ []) {name : List Char}
    (hname : resolveEntity? (String.ofList name) = none) :
    Reader.closeReference s (name.map some).reverse =
      .error (.unknownEntity (String.ofList name)) := by
  obtain ⟨f, outer, hstack⟩ := List.exists_cons_of_ne_nil hopen
  rw [closeReference, List.reverse_reverse, text?_some, addData, hstack]
  simp only [demand, bind, Except.bind]
  rw [hname]

/-- What a reference in an attribute value stands for is what the markup says. In the text of an open
element the lenient numbers are read as well: the character of a reference or of such a number is
added to the text, and everything else is an error with the name in its report, whatever follows. So
texts and values agree on a name unless it is a lenient number. -/
theorem references_read (name : String) :
    (∀ c, resolveAttributeEntity? name.toList = some c ↔ Reference name.toList c) ∧
    (∀ c, resolveEntity? name = some c ↔ Reference name.toList c ∨ Lenient name.toList c) ∧
    (resolveEntity? name = resolveAttributeEntity? name.toList ↔ ∀ c, ¬ Lenient name.toList c) ∧
    ∀ {s : Reader.State}, s.mode = .data → s.stack ≠ [] →
      (∀ c ∈ name.toList, c ∉ ['<', '&', ';']) → ∀ rest,
        (∀ c, Reference name.toList c ∨ Lenient name.toList c →
          Reader.run s ('&' :: (name.toList ++ ';' :: rest)) =
            Reader.run (s.withData [c]) rest) ∧
        ((∀ c, ¬ (Reference name.toList c ∨ Lenient name.toList c)) →
          Reader.run s ('&' :: (name.toList ++ ';' :: rest)) = .error (.unknownEntity name)) := by
  have htext : ∀ c, resolveEntity? name = some c ↔
      Reference name.toList c ∨ Lenient name.toList c := by
    intro c
    rw [← resolveEntity?_eq_some_iff_reference, String.ofList_toList]
  refine ⟨fun c => resolveAttributeEntity?_eq_some_iff, htext, ?agree, ?read⟩
  case agree =>
    constructor
    · intro h c hc
      have hreference := resolveAttributeEntity?_eq_some_iff.mp (h ▸ (htext c).mpr (.inr hc))
      exact hc.not_reference hreference
    · intro h
      apply Option.ext
      intro c
      rw [htext, resolveAttributeEntity?_eq_some_iff, or_iff_left (h c)]
  case read =>
    intro s hs hopen hname rest
    -- The reference ends at its semicolon, and what comes after it waits for its outcome.
    have hclose : Reader.run s ('&' :: (name.toList ++ ';' :: rest)) =
        Reader.closeReference s (name.toList.map some).reverse >>= fun s' =>
          Reader.run s' rest := by
      rw [← Reader.run_closeReference hs hname, ← Reader.run_append]
      simp
    rw [hclose]
    constructor
    · intro c hc
      rw [← htext, ← String.ofList_toList (s := name)] at hc
      rw [Reader.closeReference_of_some hs hc]
      rfl
    · intro hnone
      have hname : resolveEntity? (String.ofList name.toList) = none := by
        rw [String.ofList_toList, Option.eq_none_iff_forall_ne_some]
        exact fun c hc => hnone c ((htext c).mp hc)
      rw [Reader.closeReference_of_none hopen hname, String.ofList_toList]
      rfl

/-- A number with a sign is read as its character, one of a surrogate is a fault. -/
theorem references_read_signed :
    let s : Reader.State := { stack := [{ element := { name := "e" } }] }
    s.mode = .data ∧ s.stack ≠ [] ∧ (∀ c ∈ "#+65".toList, c ∉ ['<', '&', ';']) ∧
    (∀ c ∈ "#xD800".toList, c ∉ ['<', '&', ';']) ∧ Lenient "#+65".toList 'A' ∧
    Reader.run s "&#+65;</e>".toList = Reader.run (s.withData ['A']) "</e>".toList ∧
    Reader.run s "&#xD800;</e>".toList = .error (.unknownEntity "#xD800") := by
  intro s
  have hmode : s.mode = .data := rfl
  have hopen : s.stack ≠ [] := List.cons_ne_nil _ _
  have hsigned : ∀ c ∈ "#+65".toList, c ∉ ['<', '&', ';'] := by simp
  have hsurrogate : ∀ c ∈ "#xD800".toList, c ∉ ['<', '&', ';'] := by simp
  obtain ⟨hvalue, htext, -, hread⟩ := references_read "#+65"
  obtain ⟨-, htext', -, hread'⟩ := references_read "#xD800"
  have hletter := (htext 'A').mp (by decide)
  have hlenient : Lenient "#+65".toList 'A' := by
    apply hletter.resolve_left
    rw [← hvalue]
    decide
  have hnothing : resolveEntity? "#xD800" = none := by decide
  refine ⟨hmode, hopen, hsigned, hsurrogate, hlenient, ?_, ?_⟩
  · exact (hread hmode hopen hsigned "</e>".toList).1 'A' hletter
  · apply (hread' hmode hopen hsurrogate "</e>".toList).2
    intro c hc
    rw [← htext', hnothing] at hc
    cases hc

/-- A text is read with a character in place of a number that no attribute value may have. -/
theorem exists_lenient_reference :
    (Element.parse "<e>&#+65;</e>".toUTF8 = .ok { name := "e", text := "A" } ∧
      ∀ c, ¬ Reference "#+65".toList c) ∧
    (Element.parse "<e>&#0;</e>".toUTF8 = .ok { name := "e", text := "\x00" } ∧
      ∀ c, ¬ Reference "#0".toList c) := by
  have hsigned : Source.ofBytes "<e>&#+65;</e>".toUTF8 = "<e>&#+65;</e>".toList.map some := by
    rw [Source.ofBytes, glyphs_toUTF8]
    rfl
  have hnull : Source.ofBytes "<e>&#0;</e>".toUTF8 = "<e>&#0;</e>".toList.map some := by
    rw [Source.ofBytes, glyphs_toUTF8]
    rfl
  refine ⟨⟨?_, fun c hc => ?_⟩, ?_, fun c hc => ?_⟩
  · rw [Element.parse, hsigned]
    rfl
  · cases resolveAttributeEntity?_eq_some_iff.mpr hc
  · rw [Element.parse, hnull]
    rfl
  · cases resolveAttributeEntity?_eq_some_iff.mpr hc

end CommonLut
