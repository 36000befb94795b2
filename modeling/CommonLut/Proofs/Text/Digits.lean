import CommonLut.Proofs.Text.Words
import CommonLut.Text.Digits

/-!
# Written whole numbers read back

The digits of a number in a radix up to sixteen, with any number of zeros before them, spell that
number, and they form a word: no sign and no blank stands among them.

Main statements: `ofDigits?_toDigits`, `natural?_decimal`, `natural?_hexadecimal`,
`isWord_decimal`, `isWord_hexadecimal`.
-/

namespace CommonLut.Text

/-! ## §1 Digits -/

theorem digitValue?_digitChar {radix d : Nat} (hradix : radix ≤ 16) (hd : d < radix) :
    digitValue? radix d.digitChar = some d := by
  have hd16 : d < 16 := Nat.lt_of_lt_of_le hd hradix
  have hvalue : ∀ e : Fin 16, ∀ r : Fin 17, e.val < r.val →
      digitValue? r.val e.val.digitChar = some e.val := by decide
  exact hvalue ⟨d, hd16⟩ ⟨radix, by omega⟩ hd

/-- A digit is neither a blank nor a sign. -/
theorem digitChar_plain {d : Nat} (hd : d < 16) :
    isBlank d.digitChar = false ∧ d.digitChar ≠ '+' := by
  have hplain : ∀ e : Fin 16, isBlank e.val.digitChar = false ∧ e.val.digitChar ≠ '+' := by decide
  exact hplain ⟨d, hd⟩

theorem ofDigits?_append (radix : Nat) (s t : List Char) :
    ofDigits? radix (s ++ t) =
      (ofDigits? radix s).bind fun n =>
        t.foldlM (fun acc c => (digitValue? radix c).map (acc * radix + ·)) n := by
  rw [ofDigits?, List.foldlM_append]
  rfl

/-- The digits of a number spell it. -/
theorem ofDigits?_toDigits {radix : Nat} (hone : 1 < radix) (hradix : radix ≤ 16) (n : Nat) :
    ofDigits? radix (Nat.toDigits radix n) = some n := by
  induction n using Nat.strongRecOn with
  | ind n ih =>
    rw [Nat.toDigits_eq_if hone]
    split
    case isTrue hn =>
      simp [ofDigits?, digitValue?_digitChar hradix hn]
    case isFalse hn =>
      have hdiv : n / radix < n := Nat.div_lt_self (by omega) hone
      have hmod : n % radix < radix := Nat.mod_lt n (by omega)
      rw [ofDigits?_append, ih _ hdiv, Option.bind_some]
      simp only [List.foldlM_cons, List.foldlM_nil, digitValue?_digitChar hradix hmod,
        Option.map_some, Nat.div_add_mod']
      rfl

/-- Zeros before the digits mean nothing. -/
theorem ofDigits?_zeros_append {radix : Nat} (hone : 1 < radix) (k : Nat) (s : List Char) :
    ofDigits? radix (List.replicate k '0' ++ s) = ofDigits? radix s := by
  have hzero : digitValue? radix '0' = some 0 := by
    simp [digitValue?, Option.filter_some, show 0 < radix by omega]
  induction k with
  | zero => rfl
  | succ k ih =>
    rw [← ih, List.replicate_succ, List.cons_append, ofDigits?, List.foldlM_cons, hzero]
    simp [ofDigits?]

/-- Every digit of a number is the digit of something below the radix. -/
theorem exists_digitChar_of_mem_toDigits {radix n : Nat} (hone : 1 < radix) {c : Char}
    (hc : c ∈ Nat.toDigits radix n) : ∃ d < radix, c = d.digitChar := by
  induction n using Nat.strongRecOn with
  | ind n ih =>
    rw [Nat.toDigits_eq_if hone] at hc
    split at hc
    case isTrue hn => exact ⟨n, hn, List.mem_singleton.mp hc⟩
    case isFalse hn =>
      rcases List.mem_append.mp hc with h | h
      · exact ih _ (Nat.div_lt_self (by omega) hone) h
      · exact ⟨n % radix, Nat.mod_lt n (by omega), List.mem_singleton.mp h⟩

theorem toDigits_plain {radix n : Nat} (hone : 1 < radix) (hradix : radix ≤ 16) {c : Char}
    (hc : c ∈ Nat.toDigits radix n) : isBlank c = false ∧ c ≠ '+' := by
  obtain ⟨d, hd, rfl⟩ := exists_digitChar_of_mem_toDigits hone hc
  exact digitChar_plain (Nat.lt_of_lt_of_le hd hradix)

/-! ## §2 Whole texts -/

/-- A text without a plus sign is read by its digits alone. -/
theorem natural?_of_noPlus {radix bound : Nat} {s : String} (hs : ∀ c ∈ s.toList, c ≠ '+') :
    natural? radix bound s = bareNatural? radix bound s.toList := by
  unfold natural?
  split
  · next h => exact absurd rfl (hs '+' (by rw [h]; exact List.mem_cons_self))
  · rfl

theorem natural?_ofDigits {radix bound n : Nat} {digits : List Char}
    (hplain : ∀ c ∈ digits, c ≠ '+') (hne : digits ≠ [])
    (hdigits : ofDigits? radix digits = some n) (hn : n < bound) :
    natural? radix bound (String.ofList digits) = some n := by
  rw [natural?_of_noPlus (by simpa using hplain)]
  simp [bareNatural?, hne, hdigits, Option.filter_some, hn]

theorem natural?_decimal {bound n : Nat} (hn : n < bound) :
    natural? 10 bound (decimal n) = some n := by
  refine natural?_ofDigits (fun c hc => ?_) Nat.toDigits_ne_nil
    (ofDigits?_toDigits (by decide) (by decide) n) hn
  exact (toDigits_plain (by decide) (by decide) hc).2

theorem size?_decimal {n : Nat} (hn : n < sizeBound) : size? (decimal n) = some n :=
  natural?_decimal hn

theorem isWord_decimal (n : Nat) : IsWord (decimal n) := by
  refine ⟨?_, fun c hc => ?_⟩
  · intro h
    exact Nat.toDigits_ne_nil (String.ofList_inj.mp (h.trans String.ofList_nil.symm))
  · have hc' : c ∈ Nat.toDigits 10 n := by simpa [decimal] using hc
    exact (toDigits_plain (by decide) (by decide) hc').1

/-- The characters of a padded hexadecimal number. -/
theorem hexadecimal_plain {width n : Nat} {c : Char} (hc : c ∈ (hexadecimal width n).toList) :
    isBlank c = false ∧ c ≠ '+' := by
  rw [hexadecimal, String.toList_ofList] at hc
  rcases List.mem_append.mp hc with h | h
  · rw [(List.mem_replicate.mp h).2]
    decide
  · exact toDigits_plain (by decide) (by decide) h

theorem natural?_hexadecimal {bound width n : Nat} (hn : n < bound) :
    natural? 16 bound (hexadecimal width n) = some n := by
  refine natural?_ofDigits (fun c hc => ?_) (by simp) ?_ hn
  · have hc' : c ∈ (hexadecimal width n).toList := by rwa [hexadecimal, String.toList_ofList]
    exact (hexadecimal_plain hc').2
  · rw [ofDigits?_zeros_append (by decide), ofDigits?_toDigits (by decide) (by decide)]

theorem isWord_hexadecimal (width n : Nat) : IsWord (hexadecimal width n) := by
  refine ⟨?_, fun c hc => (hexadecimal_plain hc).1⟩
  intro h
  have hlist := congrArg String.toList h
  simp [hexadecimal] at hlist

end CommonLut.Text
