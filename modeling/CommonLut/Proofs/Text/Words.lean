import CommonLut.Text.Blank
import Mathlib.Data.List.TakeDrop

/-!
# Trimming and splitting undone

A text laid out with blanks gives back its words: blanks at the ends are trimmed away, and words put
side by side with blanks between them are found again by splitting. Rows that are each ended by a
line break are found again as the lines of a text.

Main definitions: `AllBlank`, `IsWord`, `lines`.
Main statements: `trimChars_blanks`, `trimChars_trimChars`, `words_trim`, `words_intercalate`,
`words_lines`, `lines_join`.
-/

namespace CommonLut.Text

/-! ## §1 Runs of blanks -/

/-- A run of blanks. -/
def AllBlank (s : List Char) : Prop := ∀ c ∈ s, isBlank c = true

theorem AllBlank.append {s t : List Char} (hs : AllBlank s) (ht : AllBlank t) :
    AllBlank (s ++ t) := by
  intro c hc
  rcases List.mem_append.mp hc with h | h
  · exact hs c h
  · exact ht c h

theorem AllBlank.reverse {s : List Char} (hs : AllBlank s) : AllBlank s.reverse :=
  fun c hc => hs c (List.mem_reverse.mp hc)

theorem allBlank_takeWhile (s : List Char) : AllBlank (s.takeWhile isBlank) :=
  fun _ hc => List.all_eq_true.mp List.all_takeWhile _ hc

theorem dropWhile_blank_append {s : List Char} (hs : AllBlank s) (t : List Char) :
    (s ++ t).dropWhile isBlank = t.dropWhile isBlank := by
  induction s with
  | nil => rfl
  | cons c s ih =>
    have hc : isBlank c = true := hs c List.mem_cons_self
    have hs' : AllBlank s := fun d hd => hs d (List.mem_cons_of_mem _ hd)
    simp only [List.cons_append, List.dropWhile_cons, hc, if_true]
    exact ih hs'

theorem dropWhile_eq_nil_of_allBlank {s : List Char} (hs : AllBlank s) :
    s.dropWhile isBlank = [] := by
  simpa using dropWhile_blank_append hs []

/-- What a text is between the blanks at its ends. -/
theorem eq_blanks_trimChars_blanks (s : List Char) :
    ∃ before after, AllBlank before ∧ AllBlank after ∧ s = before ++ trimChars s ++ after := by
  let rest := s.dropWhile isBlank
  refine ⟨s.takeWhile isBlank, (rest.reverse.takeWhile isBlank).reverse,
    allBlank_takeWhile s, (allBlank_takeWhile _).reverse, ?_⟩
  have hrest : trimChars s ++ (rest.reverse.takeWhile isBlank).reverse = rest := by
    rw [trimChars, ← List.reverse_append, List.takeWhile_append_dropWhile, List.reverse_reverse]
  rw [List.append_assoc, hrest, List.takeWhile_append_dropWhile]

/-- A run of characters of one kind before one of another kind is split off. -/
theorem span_append {p : Char → Bool} {s rest : List Char} (hs : ∀ c ∈ s, p c = true)
    (hrest : ∀ c ∈ rest.head?, p c = false) : (s ++ rest).span p = (s, rest) := by
  rw [List.span_eq_takeWhile_dropWhile, List.takeWhile_append_of_pos hs,
    List.dropWhile_append_of_pos hs]
  cases rest with
  | nil => simp
  | cons c rest => simp [hrest c rfl]

/-! ## §2 Trimming -/

/-- Blanks added at the ends are trimmed away again. -/
theorem trimChars_blanks {before after : List Char} (hb : AllBlank before) (ha : AllBlank after)
    (s : List Char) : trimChars (before ++ s ++ after) = trimChars s := by
  unfold trimChars
  rw [List.append_assoc, dropWhile_blank_append hb]
  by_cases hs : AllBlank s
  · -- then nothing but blanks is left
    rw [dropWhile_eq_nil_of_allBlank (hs.append ha), dropWhile_eq_nil_of_allBlank hs]
  · -- the first character that is not blank stands before the added blanks
    have hne : s.dropWhile isBlank ≠ [] := by
      intro h
      exact hs fun c hc => by
        have hall : s = s.takeWhile isBlank := by
          simpa [h] using (List.takeWhile_append_dropWhile (p := isBlank) (l := s)).symm
        exact allBlank_takeWhile s c (hall ▸ hc)
    have happ : (s ++ after).dropWhile isBlank = s.dropWhile isBlank ++ after := by
      rw [List.dropWhile_append, if_neg (by simpa using hne)]
    rw [happ, List.reverse_append, dropWhile_blank_append ha.reverse]

theorem trimChars_blanks_after {after : List Char} (ha : AllBlank after) (s : List Char) :
    trimChars (s ++ after) = trimChars s := by
  have hnil : AllBlank [] := by simp [AllBlank]
  simpa using trimChars_blanks hnil ha s

theorem trimChars_trimChars (s : List Char) : trimChars (trimChars s) = trimChars s := by
  obtain ⟨before, after, hb, ha, hs⟩ := eq_blanks_trimChars_blanks s
  calc trimChars (trimChars s)
      = trimChars (before ++ trimChars s ++ after) := (trimChars_blanks hb ha _).symm
    _ = trimChars s := by rw [← hs]

theorem dropWhile_of_none {p : Char → Bool} {s : List Char} (hs : ∀ c ∈ s, p c = false) :
    s.dropWhile p = s := by
  cases s with
  | nil => rfl
  | cons c s => simp [hs c List.mem_cons_self]

/-- A text without blanks is trimmed as it is. -/
theorem trimChars_of_noBlank {s : List Char} (hs : ∀ c ∈ s, isBlank c = false) :
    trimChars s = s := by
  rw [trimChars, dropWhile_of_none hs,
    dropWhile_of_none fun c hc => hs c (List.mem_reverse.mp hc), List.reverse_reverse]

@[simp]
theorem toList_trim (s : String) : (trim s).toList = trimChars s.toList := by
  simp [trim]

theorem trim_of_noBlank {s : String} (hs : ∀ c ∈ s.toList, isBlank c = false) : trim s = s := by
  rw [trim, trimChars_of_noBlank hs, String.ofList_toList]

@[simp]
theorem trim_empty : trim "" = "" := rfl

/-! ## §3 Words -/

/-- The words of a list of characters. -/
def wordsOf (s : List Char) : List (List Char) :=
  (s.splitOnP isBlank).filter fun w => !w.isEmpty

theorem words_eq (s : String) : words s = (wordsOf s.toList).map String.ofList := rfl

@[simp]
theorem wordsOf_nil : wordsOf [] = [] := rfl

/-- A blank ends the words before it. -/
theorem wordsOf_append_blank {c : Char} (hc : isBlank c = true) (s t : List Char) :
    wordsOf (s ++ c :: t) = wordsOf s ++ wordsOf t := by
  rw [wordsOf, List.splitOnP_append_cons s t hc, List.filter_append]
  rfl

theorem wordsOf_blanks_append {s : List Char} (hs : AllBlank s) (t : List Char) :
    wordsOf (s ++ t) = wordsOf t := by
  induction s with
  | nil => rfl
  | cons c s ih =>
    have hc : isBlank c = true := hs c List.mem_cons_self
    have hs' : AllBlank s := fun d hd => hs d (List.mem_cons_of_mem _ hd)
    have h := wordsOf_append_blank hc [] (s ++ t)
    simpa [ih hs'] using h

theorem wordsOf_append_blanks {s : List Char} (hs : AllBlank s) (t : List Char) :
    wordsOf (t ++ s) = wordsOf t := by
  cases s with
  | nil => simp
  | cons c s =>
    have hc : isBlank c = true := hs c List.mem_cons_self
    have hs' : AllBlank s := fun d hd => hs d (List.mem_cons_of_mem _ hd)
    have hnil : wordsOf s = [] := by simpa using wordsOf_blanks_append hs' []
    rw [wordsOf_append_blank hc, hnil, List.append_nil]

theorem wordsOf_trimChars (s : List Char) : wordsOf (trimChars s) = wordsOf s := by
  obtain ⟨before, after, hb, ha, hs⟩ := eq_blanks_trimChars_blanks s
  calc wordsOf (trimChars s)
      = wordsOf (before ++ trimChars s ++ after) := by
        rw [wordsOf_append_blanks ha, wordsOf_blanks_append hb]
    _ = wordsOf s := by rw [← hs]

/-- Trimming takes no word away. -/
theorem words_trim (s : String) : words (trim s) = words s := by
  simp only [words_eq, toList_trim, wordsOf_trimChars]

/-- Separators that agree on the characters of a text split it alike. -/
theorem fields_congr {p q : Char → Bool} {s : String} (h : ∀ c ∈ s.toList, p c = q c) :
    fields p s = fields q s := by
  have hsplit : ∀ cs : List Char, (∀ c ∈ cs, p c = q c) → cs.splitOnP p = cs.splitOnP q := by
    intro cs
    induction cs with
    | nil => intro _; rfl
    | cons c cs ih =>
      intro hcs
      rw [List.splitOnP_cons_eq_if_modifyHead, List.splitOnP_cons_eq_if_modifyHead,
        hcs c List.mem_cons_self, ih fun d hd => hcs d (List.mem_cons_of_mem c hd)]
  rw [fields, fields, hsplit _ h]

/-- What may be a word: it is not empty and has no blank. -/
def IsWord (w : String) : Prop := w ≠ "" ∧ ∀ c ∈ w.toList, isBlank c = false

theorem wordsOf_word {w : String} (hw : IsWord w) : wordsOf w.toList = [w.toList] := by
  have hne : w.toList ≠ [] := fun h => hw.1 (String.toList_inj.mp h)
  rw [wordsOf, List.splitOnP_eq_singleton hw.2]
  simp [hne]

theorem trim_word {w : String} (hw : IsWord w) : trim w = w := trim_of_noBlank hw.2

theorem words_word {w : String} (hw : IsWord w) : words w = [w] := by
  simp [words_eq, wordsOf_word hw]

/-- Texts put together with a blank between them have the words of all of them. -/
theorem words_intercalate_texts {c : Char} (hc : isBlank c = true) (ts : List String) :
    words ((String.singleton c).intercalate ts) = ts.flatMap words := by
  induction ts with
  | nil => rfl
  | cons t ts ih =>
    by_cases hts : ts = []
    · subst hts
      simp
    · rw [String.intercalate_cons_of_ne_nil hts, List.flatMap_cons, ← ih]
      simp only [words_eq, String.toList_append, String.toList_singleton, List.append_assoc,
        List.singleton_append, wordsOf_append_blank hc, List.map_append]

theorem flatMap_words {ws : List String} (hws : ∀ w ∈ ws, IsWord w) : ws.flatMap words = ws := by
  induction ws with
  | nil => rfl
  | cons w ws ih =>
    rw [List.flatMap_cons, words_word (hws w List.mem_cons_self),
      ih fun v hv => hws v (List.mem_cons_of_mem _ hv), List.singleton_append]

/-- Words put together with single spaces are the words of the whole. -/
theorem words_intercalate {ws : List String} (hws : ∀ w ∈ ws, IsWord w) :
    words (" ".intercalate ws) = ws := by
  have h := words_intercalate_texts (c := ' ') rfl ws
  rw [flatMap_words hws] at h
  exact h

/-- Words laid out in lines are the words of the whole, line by line. -/
theorem words_lines {rows : List (List String)} (hrows : ∀ row ∈ rows, ∀ w ∈ row, IsWord w) :
    words ("\n" ++ "\n".intercalate (rows.map (" ".intercalate ·)) ++ "\n") = rows.flatten := by
  -- Breaks between lines part words as spaces do, and those at the ends are skipped.
  have hlines := words_intercalate_texts (c := '\n') rfl (rows.map (" ".intercalate ·))
  have hflat : (rows.map (" ".intercalate ·)).flatMap words = rows.flatten := by
    induction rows with
    | nil => rfl
    | cons row rows ih =>
      rw [List.map_cons, List.flatMap_cons, List.flatten_cons,
        words_intercalate (hrows row List.mem_cons_self),
        ih (fun r hr => hrows r (List.mem_cons_of_mem _ hr))
          (words_intercalate_texts (c := '\n') rfl _)]
  rw [hflat] at hlines
  rw [← hlines]
  have hnl : AllBlank "\n".toList := by
    intro c hc
    rw [List.mem_singleton.mp hc]
    rfl
  simp only [words_eq, String.toList_append, wordsOf_append_blanks hnl, wordsOf_blanks_append hnl]
  rfl

/-! ## §4 Lines -/

/-- The texts that the line breaks of a text end, and what stands after the last one. -/
def lines (s : String) : List String :=
  (s.toList.splitOnP (· == '\n')).map String.ofList

/-- Rows that are each ended by a line break are found again as lines. -/
theorem lines_join {rows : List String} (hrows : ∀ row ∈ rows, ∀ c ∈ row.toList, c ≠ '\n') :
    lines (String.join (rows.map (· ++ "\n"))) = rows ++ [""] := by
  induction rows with
  | nil => rfl
  | cons row rows ih =>
    rw [List.forall_mem_cons] at hrows
    have hrow : row.toList.splitOnP (· == '\n') = [row.toList] :=
      List.splitOnP_eq_singleton fun c hc => beq_false_of_ne (hrows.1 c hc)
    have htext : (String.join ((row :: rows).map (· ++ "\n"))).toList =
        row.toList ++ '\n' :: (String.join (rows.map (· ++ "\n"))).toList := by
      rw [List.map_cons, String.join_cons, String.toList_append, String.toList_append]
      exact List.append_assoc _ _ _
    rw [lines, htext, List.splitOnP_append_cons (p := (· == '\n')) _ _ (beq_self_eq_true '\n'),
      hrow, List.singleton_append, List.map_cons, String.ofList_toList]
    exact congrArg (row :: ·) (ih hrows.2)

/-- Line breaks part the words of a text as other blanks do. -/
theorem words_join (rows : List String) :
    words (String.join (rows.map (· ++ "\n"))) = rows.flatMap words := by
  induction rows with
  | nil => rfl
  | cons row rows ih =>
    rw [List.flatMap_cons, ← ih, List.map_cons, String.join_cons]
    simp only [words_eq, String.toList_append, List.append_assoc, ← List.map_append]
    exact congrArg _ (wordsOf_append_blank (c := '\n') rfl _ _)

/-- The characters of texts put together are those of the texts and of what stands between them. -/
theorem forall_mem_intercalate {P : Char → Prop} {between : String} {ts : List String}
    (hbetween : ∀ c ∈ between.toList, P c) (hts : ∀ t ∈ ts, ∀ c ∈ t.toList, P c) :
    ∀ c ∈ (between.intercalate ts).toList, P c := by
  induction ts with
  | nil => simp
  | cons t ts ih =>
    rw [List.forall_mem_cons] at hts
    by_cases hrest : ts = []
    · subst hrest
      simpa using hts.1
    · rw [String.intercalate_cons_of_ne_nil hrest, String.toList_append, String.toList_append,
        List.forall_mem_append, List.forall_mem_append]
      exact ⟨⟨hts.1, hbetween⟩, ih hts.2⟩

end CommonLut.Text
