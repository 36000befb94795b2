import CommonLut.Proofs.Binary.Widening
import CommonLut.Proofs.Text.Digits
import CommonLut.Proofs.Text.Shortest
import CommonLut.Text.Numeral

/-!
# The shortest decimal reads back

A written value is a numeral whose digits and scale have exactly the value that was written, and
that value rounds to the pattern it was made from. So every pattern of a format survives being
written and read, except that what is no number loses sign and payload.

Main statements: `read?_positional`, `nearest?_shortest`, `isWord_shortest`.
-/

namespace CommonLut.Text

open Binary

/-! ## §1 Digits -/

theorem isDigit_iff (c : Char) : c.isDigit = true ↔ ∃ d < 10, c = Nat.digitChar d := by
  constructor
  · intro hc
    simp only [Char.isDigit, Bool.and_eq_true, decide_eq_true_eq] at hc
    have hlow : 48 ≤ c.toNat := hc.1
    have hhigh : c.toNat ≤ 57 := hc.2
    refine ⟨c.toNat - 48, by omega, ?_⟩
    have hall : ∀ k : Fin 10, Char.ofNat (48 + k.val) = Nat.digitChar k.val := by decide
    have h := hall ⟨c.toNat - 48, by omega⟩
    rw [← h]
    simp only
    rw [show 48 + (c.toNat - 48) = c.toNat by omega, Char.ofNat_toNat]
  · rintro ⟨d, hd, rfl⟩
    have hall : ∀ k : Fin 10, k.val.digitChar.isDigit := by decide
    exact hall ⟨d, hd⟩

theorem span_all_digits {ds : List Char} (hds : ∀ c ∈ ds, c.isDigit) :
    ds.span Char.isDigit = (ds, []) := by
  have h := span_append hds (show ∀ c ∈ ([] : List Char).head?, c.isDigit = false by simp)
  rwa [List.append_nil] at h

theorem isDigit_of_mem_toDigits {n : Nat} {c : Char} (hc : c ∈ Nat.toDigits 10 n) : c.isDigit :=
  Nat.isDigit_of_mem_toDigits (by decide) (by decide) hc

theorem isDigit_of_mem_zeros {k : Nat} {c : Char} (hc : c ∈ List.replicate k '0') : c.isDigit := by
  rw [(List.mem_replicate.mp hc).2]
  decide

/-- Zeros after the digits multiply the number. -/
theorem ofDigits?_append_zeros {s : List Char} {n : Nat} (hs : ofDigits? 10 s = some n) (k : Nat) :
    ofDigits? 10 (s ++ List.replicate k '0') = some (n * 10 ^ k) := by
  induction k with
  | zero => simpa using hs
  | succ k ih =>
    rw [List.replicate_succ', ← List.append_assoc, ofDigits?_append, ih]
    have hzero : digitValue? 10 '0' = some 0 := by decide
    simp [hzero, Nat.pow_succ, Nat.mul_assoc]

/-! ## §2 The grammar -/

namespace Numeral

theorem magnitude?_whole (s : Bool) {ds : List Char} {n : Nat} (hds : ∀ c ∈ ds, c.isDigit)
    (hn : ofDigits? 10 ds = some n) (hne : ds ≠ []) :
    magnitude? s ds = some (.finite s n 0) := by
  unfold magnitude?
  rw [span_all_digits hds]
  simp [hne, hn, exponent?]

theorem magnitude?_point (s : Bool) {whole fraction : List Char} {n : Nat}
    (hwhole : ∀ c ∈ whole, c.isDigit) (hfraction : ∀ c ∈ fraction, c.isDigit)
    (hn : ofDigits? 10 (whole ++ fraction) = some n) (hne : whole ≠ []) :
    magnitude? s (whole ++ '.' :: fraction) = some (.finite s n (-fraction.length)) := by
  have hpoint : ∀ c ∈ ('.' :: fraction).head?, c.isDigit = false := by
    rintro c hc
    cases hc
    decide
  unfold magnitude?
  rw [span_append hwhole hpoint]
  simp only [span_all_digits hfraction]
  simp [hne, hn, exponent?]

/-- What starts with a digit is no word. -/
theorem word?_digit (s : Bool) {c : Char} (hc : c.isDigit) (rest : List Char) :
    word? s (c :: rest) = none := by
  obtain ⟨d, hd, rfl⟩ := (isDigit_iff c).mp hc
  have hall : ∀ k : Fin 10, k.val.digitChar.toLower ≠ 'i' ∧ k.val.digitChar.toLower ≠ 'n' := by
    decide
  obtain ⟨hi, hn⟩ := hall ⟨d, hd⟩
  simp [word?, hi, hn]

theorem splitSign_digit {c : Char} (hc : c.isDigit) (rest : List Char) :
    splitSign (c :: rest) = (false, c :: rest) := by
  unfold splitSign
  split
  · next h =>
    cases h
    exact absurd hc (by decide)
  · next h =>
    cases h
    exact absurd hc (by decide)
  · rfl

/-- The characters of a sign. -/
def signChars (s : Bool) : List Char := if s then ['-'] else []

/-- A signed text that starts with a digit is read by its magnitude. -/
theorem read?_signed (s : Bool) {text : List Char} (hdigit : ∀ c ∈ text.head?, c.isDigit)
    (hne : text ≠ []) : read? (signChars s ++ text) = magnitude? s text := by
  cases text with
  | nil => exact absurd rfl hne
  | cons c rest =>
    have hc := hdigit c rfl
    have hsplit : splitSign (signChars s ++ c :: rest) = (s, c :: rest) := by
      cases s
      · exact splitSign_digit hc rest
      · rfl
    unfold read?
    rw [hsplit]
    simp only [word?_digit s hc, Option.none_or]

/-! ## §3 Positional texts -/

/-- Digits on their own, or with a point among them, after a sign. -/
theorem read?_whole (s : Bool) {ds : List Char} {n : Nat} (hds : ∀ c ∈ ds, c.isDigit)
    (hn : ofDigits? 10 ds = some n) (hne : ds ≠ []) :
    read? (signChars s ++ ds) = some (.finite s n 0) := by
  rw [read?_signed s (fun c hc => hds c (List.mem_of_mem_head? hc)) hne]
  exact magnitude?_whole s hds hn hne

@[inherit_doc read?_whole]
theorem read?_point (s : Bool) {whole fraction : List Char} {n : Nat}
    (hds : ∀ c ∈ whole ++ fraction, c.isDigit) (hn : ofDigits? 10 (whole ++ fraction) = some n)
    (hne : whole ≠ []) :
    read? (signChars s ++ (whole ++ '.' :: fraction)) = some (.finite s n (-fraction.length)) := by
  have hwhole : ∀ c ∈ whole, c.isDigit := fun c hc => hds c (List.mem_append_left fraction hc)
  rw [read?_signed s ?_ (by simp)]
  · exact magnitude?_point s hwhole (fun c hc => hds c (List.mem_append_right whole hc)) hn hne
  · intro c hc
    rw [List.head?_append_of_ne_nil _ hne] at hc
    exact hwhole c (List.mem_of_mem_head? hc)

/-- A positional text starts with a digit and reads as a numeral of the same value. -/
theorem read?_positional (s : Bool) (d : Nat) (place : ℤ) :
    ∃ n scale, read? (signChars s ++ (Shortest.positional d place).toList) =
        some (.finite s n scale) ∧ (n * 10 ^ scale : ℚ) = d * 10 ^ place := by
  have hdigits : ofDigits? 10 (Nat.toDigits 10 d) = some d :=
    ofDigits?_toDigits (by decide) (by decide) d
  unfold Shortest.positional
  dsimp only
  split
  · next hplace =>
    obtain ⟨k, rfl⟩ := Int.eq_ofNat_of_zero_le hplace
    rw [Int.toNat_natCast, String.toList_ofList]
    have hall : ∀ c ∈ Nat.toDigits 10 d ++ List.replicate k '0', c.isDigit := by
      intro c hc
      rcases List.mem_append.mp hc with h | h
      · exact isDigit_of_mem_toDigits h
      · exact isDigit_of_mem_zeros h
    have hne : Nat.toDigits 10 d ++ List.replicate k '0' ≠ [] := by
      simp [Nat.toDigits_ne_nil]
    refine ⟨d * 10 ^ k, 0, read?_whole s hall (ofDigits?_append_zeros hdigits k) hne, ?_⟩
    push_cast
    simp
  · next hplace =>
    obtain ⟨k, rfl⟩ : ∃ k : Nat, place = -(k : ℤ) := ⟨(-place).toNat, by omega⟩
    rw [neg_neg, Int.toNat_natCast, String.toList_ofList]
    -- The zeros in front make room for a digit before the point, whatever the place.
    generalize hpadded :
      List.replicate (k + 1 - (Nat.toDigits 10 d).length) '0' ++ Nat.toDigits 10 d = padded
    have hlength : k + 1 ≤ padded.length := by
      rw [← hpadded, List.length_append, List.length_replicate]
      omega
    have hall : ∀ c ∈ padded, c.isDigit := by
      intro c hc
      rw [← hpadded] at hc
      rcases List.mem_append.mp hc with h | h
      · exact isDigit_of_mem_zeros h
      · exact isDigit_of_mem_toDigits h
    have hvalue : ofDigits? 10 padded = some d := by
      rw [← hpadded, ofDigits?_zeros_append (by decide), hdigits]
    have hwhole : padded.take (padded.length - k) ≠ [] := by
      rw [Ne, List.take_eq_nil_iff]
      rintro (h | h)
      · omega
      · simp [h] at hlength
    have hfraction : (padded.drop (padded.length - k)).length = k := by
      rw [List.length_drop]
      omega
    refine ⟨d, -(k : ℤ), ?_, rfl⟩
    rw [read?_point s (by rwa [List.take_append_drop]) (by rwa [List.take_append_drop]) hwhole,
      hfraction]

/-! ## §4 Rounding -/

/-- The number of digits of a positive number tells its size. -/
theorem toDigits_size {n : Nat} (hn : 0 < n) :
    (10 : ℚ) ^ (((Nat.toDigits 10 n).length : ℤ) - 1) ≤ n ∧
      (n : ℚ) < 10 ^ ((Nat.toDigits 10 n).length : ℤ) := by
  have hpos : 0 < (Nat.toDigits 10 n).length := Nat.length_toDigits_pos
  constructor
  · obtain ⟨k, hk⟩ : ∃ k, (Nat.toDigits 10 n).length = k + 1 :=
      ⟨_, (Nat.succ_pred_eq_of_pos hpos).symm⟩
    have hle : 10 ^ k ≤ n := by
      rcases Nat.eq_zero_or_pos k with rfl | hkpos
      · exact hn
      · by_contra hlt
        have := (Nat.length_toDigits_le_iff (b := 10) (by decide) hkpos).mpr (not_le.mp hlt)
        omega
    rw [hk, Nat.cast_add, Nat.cast_one, add_sub_cancel_right, zpow_natCast]
    exact_mod_cast hle
  · rw [zpow_natCast]
    exact_mod_cast (Nat.length_toDigits_le_iff (by decide) hpos).mp (Nat.le_refl _)

section

variable {f : Format} {m : Nat} {e : ℤ} {v : ℚ}

/-- No value that rounds to a number of a format reaches the limit of the scales. -/
theorem lt_of_roundsTo (hc : f.Canonical m e) (hm : 0 < m) (h : f.RoundsTo m e v) :
    v < 10 ^ (400 : ℤ) := by
  obtain ⟨-, he, hm53, -⟩ := Shortest.canonical_bounds hc hm
  have hpow : (0 : ℚ) < 2 ^ e := by positivity
  have hm' : (m : ℚ) + 1 ≤ 2 ^ 53 := by exact_mod_cast hm53
  have he' : (2 : ℚ) ^ e ≤ 2 ^ (972 : ℤ) := zpow_le_zpow_right₀ (by norm_num) he
  have hbound : (2 : ℚ) ^ 53 * 2 ^ (972 : ℤ) < 10 ^ (400 : ℤ) := by
    have hnat : 2 ^ 53 * 2 ^ 972 < 10 ^ 400 := by decide +kernel
    exact_mod_cast hnat
  calc v ≤ (m + 1) * 2 ^ e := by linarith [h.high]
    _ ≤ 2 ^ 53 * 2 ^ (972 : ℤ) := by gcongr
    _ < 10 ^ (400 : ℤ) := hbound

/-- No value that rounds to a positive number of a format is below the limit of the scales. -/
theorem gt_of_roundsTo (hc : f.Canonical m e) (hm : 0 < m) (h : f.RoundsTo m e v) :
    10 ^ (-400 : ℤ) < v := by
  obtain ⟨he, -, -, -⟩ := Shortest.canonical_bounds hc hm
  have hpow : (0 : ℚ) < 2 ^ e := by positivity
  have hm' : (1 : ℚ) ≤ m := by exact_mod_cast hm
  have hgap := f.lowerGap_le m e
  have he' : (2 : ℚ) ^ (-1074 : ℤ) ≤ 2 ^ e := zpow_le_zpow_right₀ (by norm_num) he
  have hbound : (10 : ℚ) ^ (-400 : ℤ) < 2 ^ (-1074 : ℤ) / 2 := by
    have hnat : 2 ^ 1074 * 2 < 10 ^ 400 := by decide +kernel
    have hcast : (2 : ℚ) ^ (1074 : ℤ) * 2 < 10 ^ (400 : ℤ) := by exact_mod_cast hnat
    rw [zpow_neg, zpow_neg, div_eq_mul_inv, ← mul_inv]
    exact inv_strictAnti₀ (by positivity) hcast
  calc (10 : ℚ) ^ (-400 : ℤ) < 2 ^ (-1074 : ℤ) / 2 := hbound
    _ ≤ 2 ^ e / 2 := by gcongr
    _ ≤ v := by nlinarith [h.low]

/-- A numeral whose value rounds to a canonical form is read as its pattern. -/
theorem nearest_of_roundsTo (s : Bool) {n : Nat} {scale : ℤ} (hc : f.Canonical m e) (hm : 0 < m)
    (h : f.RoundsTo m e (n * 10 ^ scale)) :
    (Numeral.finite s n scale).nearest f = f.withSign s (f.finiteBits m e) := by
  have hten : (10 : ℚ) ≠ 0 := by norm_num
  have hone : (1 : ℚ) < 10 := by norm_num
  have hn : 0 < n := by
    rcases Nat.eq_zero_or_pos n with rfl | hn
    · have := h.pos hm
      simp at this
    · exact hn
  obtain ⟨hsize, hsize'⟩ := toDigits_size hn
  -- The value is far from the powers of ten at which the scale alone decides.
  have hlarge : (10 : ℚ) ^ ((Nat.toDigits 10 n).length - 1 + scale) < 10 ^ (400 : ℤ) := by
    rw [zpow_add₀ hten]
    calc (10 : ℚ) ^ (((Nat.toDigits 10 n).length : ℤ) - 1) * 10 ^ scale
        ≤ n * 10 ^ scale := by gcongr
      _ < 10 ^ (400 : ℤ) := lt_of_roundsTo hc hm h
  have hsmall : (10 : ℚ) ^ (-400 : ℤ) < 10 ^ ((Nat.toDigits 10 n).length + scale) := by
    rw [zpow_add₀ hten]
    calc (10 : ℚ) ^ (-400 : ℤ) < n * 10 ^ scale := gt_of_roundsTo hc hm h
      _ ≤ 10 ^ ((Nat.toDigits 10 n).length : ℤ) * 10 ^ scale := by gcongr
  have hlarge' := (zpow_lt_zpow_iff_right₀ hone).mp hlarge
  have hsmall' := (zpow_lt_zpow_iff_right₀ hone).mp hsmall
  have hinside : ¬(n = 0 ∨ scale + ((Nat.toDigits 10 n).length : ℤ) < -scaleLimit) := by
    simp only [scaleLimit]
    omega
  have hinside' : ¬scaleLimit < scale + ((Nat.toDigits 10 n).length : ℤ) := by
    simp only [scaleLimit]
    omega
  unfold Numeral.nearest
  simp only [if_neg hinside, if_neg hinside']
  apply Format.nearest_eq s (Nat.pow_pos (by decide)) hc hm
  have hvalue : ((n * Nat.pow 10 scale.toNat : Nat) : ℚ) / (Nat.pow 10 (-scale).toNat : Nat) *
      2 ^ (0 : ℤ) = n * 10 ^ scale := by
    have hzpow := zpow_mul_pow_toNat hten scale
    simp only [Nat.pow_eq]
    push_cast
    rw [← hzpow]
    field_simp
  rw [← hvalue] at h
  exact h

end

end Numeral

/-- A pattern of a number reads back from its shortest text. -/
theorem nearest?_shortest {f : Format} {bits : Nat} (hbits : bits < f.patternCount)
    (hnumber : ∀ s p, f.decode bits ≠ .nan s p) :
    nearest? f (shortest f (f.decode bits)) = some bits := by
  cases Format.shape hbits with
  | nan s hpos hr => exact absurd (Format.decode_withSign_nan s hpos hr) (hnumber _ _)
  | infinite s =>
    rw [Format.decode_withSign_infinity]
    cases s <;> cases f <;> decide
  | @finite s m e h =>
    rw [Format.decode_withSign_finiteBits s h]
    -- Zero has no leading digit to be found, so it is written out by itself.
    rcases Nat.eq_zero_or_pos m with rfl | hm
    · have he : e = f.leastExponent := by
        have := f.fieldUnit_pos
        have := h.leading
        omega
      subst he
      cases s <;> cases f <;> decide
    · obtain ⟨hd, hround⟩ := Shortest.digits_spec h hm
      obtain ⟨n, scale, hread, hvalue⟩ := Numeral.read?_positional s
        (Shortest.digits f m e).1 (Shortest.digits f m e).2
      have htext : (shortest f (.finite s m e)).toList = Numeral.signChars s ++
          (Shortest.positional (Shortest.digits f m e).1 (Shortest.digits f m e).2).toList := by
        unfold shortest
        simp only [if_neg hm.ne', Numeral.signChars]
        cases s <;> simp
      rw [nearest?, htext, hread, Option.map_some,
        Numeral.nearest_of_roundsTo s h hm (hvalue ▸ hround)]

/-- What is no number is written without sign and payload. -/
theorem nearest?_shortest_nan (f : Format) (s : Bool) (p : Nat) :
    nearest? f (shortest f (.nan s p)) = some (f.ofDatum (.nan false 0)) := by
  show nearest? f "NaN" = _
  cases f <;> decide

/-! ## §5 Words -/

/-- The characters of a written number. -/
def isNumberChar (c : Char) : Bool := c.isDigit || "-.infNa".toList.contains c

theorem positional_chars (d : Nat) (place : ℤ) :
    ∀ c ∈ (Shortest.positional d place).toList, isNumberChar c := by
  have hdigit : ∀ c : Char, c.isDigit → isNumberChar c := fun c hc => by simp [isNumberChar, hc]
  have hpadded : ∀ k, ∀ c ∈ List.replicate k '0' ++ Nat.toDigits 10 d, isNumberChar c := by
    intro k c hc
    rcases List.mem_append.mp hc with h | h
    · exact hdigit c (isDigit_of_mem_zeros h)
    · exact hdigit c (isDigit_of_mem_toDigits h)
  intro c hc
  unfold Shortest.positional at hc
  dsimp only at hc
  -- A number is written whole, or with digits on both sides of a point.
  split at hc
  · rw [String.toList_ofList] at hc
    rcases List.mem_append.mp hc with h | h
    · exact hdigit c (isDigit_of_mem_toDigits h)
    · exact hdigit c (isDigit_of_mem_zeros h)
  · rw [String.toList_ofList] at hc
    rcases List.mem_append.mp hc with h | h
    · exact hpadded _ c (List.mem_of_mem_take h)
    · rcases List.mem_cons.mp h with rfl | h
      · decide
      · exact hpadded _ c (List.mem_of_mem_drop h)

theorem shortest_chars (f : Format) (x : Datum) : ∀ c ∈ (shortest f x).toList, isNumberChar c := by
  cases x with
  | infinite s =>
    show ∀ c ∈ (if s then "-inf" else "inf").toList, isNumberChar c
    cases s <;> exact List.all_eq_true.mp rfl
  | nan s p =>
    show ∀ c ∈ "NaN".toList, isNumberChar c
    exact List.all_eq_true.mp rfl
  | finite s m e =>
    have hmagnitude : ∀ c ∈ (if m = 0 then "0" else Shortest.positional (Shortest.digits f m e).1
        (Shortest.digits f m e).2).toList, isNumberChar c := by
      split
      · exact List.all_eq_true.mp rfl
      · exact positional_chars _ _
    intro c hc
    unfold shortest at hc
    dsimp only at hc
    split at hc
    · rw [String.toList_append] at hc
      rcases List.mem_append.mp hc with h | h
      · rw [List.mem_singleton.mp h]
        decide
      · exact hmagnitude c h
    · exact hmagnitude c hc

theorem isNumberChar_plain {c : Char} (hc : isNumberChar c) : isBlank c = false ∧ c ≠ '@' := by
  rw [isNumberChar, Bool.or_eq_true] at hc
  rcases hc with hc | hc
  · obtain ⟨d, hd, rfl⟩ := (isDigit_iff c).mp hc
    have hall : ∀ k : Fin 10, isBlank k.val.digitChar = false ∧ k.val.digitChar ≠ '@' := by decide
    exact hall ⟨d, hd⟩
  · have hall : ("-.infNa".toList.all fun c => !isBlank c && c != '@') = true := rfl
    simpa using List.all_eq_true.mp hall c (List.contains_iff_mem.mp hc)

theorem positional_ne_nil (d : Nat) (place : ℤ) : (Shortest.positional d place).toList ≠ [] := by
  unfold Shortest.positional
  dsimp only
  split
  · simp [Nat.toDigits_ne_nil]
  · simp

/-- A written number is a word. -/
theorem isWord_shortest (f : Format) (x : Datum) : IsWord (shortest f x) := by
  refine ⟨?_, fun c hc => (isNumberChar_plain (shortest_chars f x c hc)).1⟩
  cases x with
  | infinite s =>
    show (if s then "-inf" else "inf") ≠ ""
    revert s
    decide
  | nan s p =>
    show "NaN" ≠ ""
    decide
  | finite s m e =>
    have hmagnitude : (if m = 0 then "0" else Shortest.positional (Shortest.digits f m e).1
        (Shortest.digits f m e).2) ≠ "" := by
      split
      · decide
      · intro h
        exact positional_ne_nil _ _ (congrArg String.toList h)
    unfold shortest
    dsimp only
    split
    · intro h
      have hlist := congrArg String.toList h
      simp at hlist
    · exact hmagnitude

end CommonLut.Text
