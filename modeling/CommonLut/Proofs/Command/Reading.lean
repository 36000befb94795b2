import CommonLut.Command.Run
import CommonLut.Proofs.Binary.Machine
import CommonLut.Proofs.Command.Values
import CommonLut.Proofs.Outcome
import CommonLut.Proofs.Text.Numeral

/-!
# Shown values read back

What the program shows is what it reads: the text of a buffer, given to it as values, is the same
buffer again, and each line of the text is one pixel. So what is shown of a list applied to values is
the result of the list on them, and neither a value nor the border between two pixels is lost where
the buffer is cut into chunks.

Main definitions: `Command.line`, `Command.pixels`.
Main statements: `Command.readValue_format32`, `Command.readValues_showValues`,
`Command.readValues_showValues_process`.
-/

namespace CommonLut

namespace Command

/-! ## §1 Values -/

/-- A value reads back from its text, whether it is a number or not. -/
theorem readValue_format32 (x : Float32) : readValue (Text.format32 x) = .ok x := by
  have hread : Text.float32? (Text.format32 x) = some x := by
    unfold Text.float32? Text.format32
    by_cases hx : ∃ s p, Binary.single.decode x.toBits.toNat = .nan s p
    · obtain ⟨s, p, hx⟩ := hx
      have hbits : UInt32.ofNat (Binary.single.ofDatum (.nan false 0)) = x.toBits :=
        (Binary.Machine.Single.toBits_of_nan hx).symm
      rw [hx, Text.nearest?_shortest_nan, Option.map_some, hbits, Float32.ofBits_toBits]
    · have hnumber : ∀ s p, Binary.single.decode x.toBits.toNat ≠ .nan s p :=
        fun s p h => hx ⟨s, p, h⟩
      rw [Text.nearest?_shortest x.toBits.toNat_lt hnumber, Option.map_some, UInt32.ofNat_toNat,
        Float32.ofBits_toBits]
  rw [readValue, hread]

/-- In a text without commas the values are its words. -/
theorem readValues_eq_words {text : String} (htext : ∀ c ∈ text.toList, c ≠ ',') :
    readValues text = (Text.words text).mapM readValue := by
  rw [readValues, Text.words, Text.fields_congr (q := Text.isBlank)]
  intro c hc
  rw [beq_false_of_ne (htext c hc), Bool.false_or]

/-- The text of a pixel. -/
def line (pixel : Pixel Float32) : String := " ".intercalate (pixel.map Text.format32)

/-- No comma and no line break stands in the text of a pixel. -/
theorem line_plain (pixel : Pixel Float32) : ∀ c ∈ (line pixel).toList, c ≠ ',' ∧ c ≠ '\n' := by
  have hnumber : ∀ c, Text.isNumberChar c → c ≠ ',' ∧ c ≠ '\n' := by
    intro c hc
    constructor <;> (rintro rfl; revert hc; decide)
  refine Text.forall_mem_intercalate (by simp) fun word hword c hc => ?_
  obtain ⟨x, -, rfl⟩ := List.mem_map.mp hword
  exact hnumber c (Text.shortest_chars _ _ c hc)

theorem words_line (pixel : Pixel Float32) : Text.words (line pixel) = pixel.map Text.format32 := by
  refine Text.words_intercalate fun word hword => ?_
  obtain ⟨x, -, rfl⟩ := List.mem_map.mp hword
  exact Text.isWord_shortest _ _

/-- Where each text is read as what it was written for, so are all of them. -/
theorem mapM_read_map {α : Type} {write : α → String} {read : String → Except Failure α}
    (h : ∀ x, read (write x) = .ok x) (xs : List α) : (xs.map write).mapM read = .ok xs := by
  have hread : ∀ x ∈ xs, (read ∘ write) x = pure (id x) := fun x _ => h x
  rw [List.mapM_map, mapM_of_pure hread, List.map_id]
  rfl

theorem readValues_line (pixel : Pixel Float32) : readValues (line pixel) = .ok pixel := by
  rw [readValues_eq_words fun c hc => (line_plain pixel c hc).1, words_line,
    mapM_read_map readValue_format32]

/-! ## §2 Buffers -/

/-- The pixels of a buffer, which is a single one without a stride. -/
def pixels (stride : Nat) (buffer : List Float32) : List (Pixel Float32) :=
  if stride = 0 then [buffer] else chunks stride buffer

/-- A list evaluates each pixel of a buffer, and the pixels are where they were. -/
theorem pixels_process (l : ProcessList) (stride : Nat) (buffer : List Float32) :
    pixels stride (l.process stride buffer) = (pixels stride buffer).map l.evalPixel := by
  rw [l.process_eq_mapPixels]
  unfold pixels mapPixels
  split
  · rfl
  · next h => exact chunks_flatMap (Nat.pos_of_ne_zero h) (Node.length_evalActive l.nodes) buffer

/-- The lines of a buffer are its pixels. -/
theorem showValues_eq_lines (stride : Nat) {buffer : List Float32} (hne : buffer ≠ []) :
    showValues stride buffer =
      String.join (((pixels stride buffer).map line).map (· ++ "\n")) := by
  have hchunks : chunks (if stride = 0 then max buffer.length 1 else stride) buffer =
      pixels stride buffer := by
    unfold pixels
    split
    · have hpos : 0 < buffer.length := List.length_pos_iff.mpr hne
      rw [Nat.max_eq_left hpos, chunks_of_ne_nil hpos hne, List.take_length, List.drop_length,
        chunks_nil]
    · rfl
  unfold showValues
  dsimp only
  rw [hchunks, List.map_map]
  rfl

theorem flatten_pixels (stride : Nat) (buffer : List Float32) :
    (pixels stride buffer).flatten = buffer := by
  unfold pixels
  split
  · simp
  · next h => exact flatten_chunks (Nat.pos_of_ne_zero h) buffer

/-- A shown buffer is read as the values in it. -/
theorem readValues_showValues (stride : Nat) {buffer : List Float32} (hne : buffer ≠ []) :
    readValues (showValues stride buffer) = .ok buffer := by
  rw [showValues_eq_lines stride hne]
  have hcomma : ∀ c ∈ (String.join (((pixels stride buffer).map line).map (· ++ "\n"))).toList,
      c ≠ ',' := by
    intro c hc
    rw [String.toList_join, List.mem_flatMap] at hc
    obtain ⟨row, hrow, hc⟩ := hc
    rw [List.map_map, List.mem_map] at hrow
    obtain ⟨pixel, -, rfl⟩ := hrow
    rw [Function.comp_apply, String.toList_append, List.mem_append] at hc
    rcases hc with hc | hc
    · exact (line_plain pixel c hc).1
    · rw [List.mem_singleton.mp hc]
      decide
  have hwords : ((pixels stride buffer).map line).flatMap Text.words =
      buffer.map Text.format32 := by
    rw [List.flatMap_map, funext words_line, List.flatMap_def, ← List.map_flatten, flatten_pixels]
  rw [readValues_eq_words hcomma, Text.words_join, hwords, mapM_read_map readValue_format32]

/-- The lines of a shown buffer are read as its pixels, and nothing stands after the last one. -/
theorem mapM_lines_showValues (stride : Nat) {buffer : List Float32} (hne : buffer ≠ []) :
    (Text.lines (showValues stride buffer)).mapM readValues =
      .ok (pixels stride buffer ++ [[]]) := by
  have hlines : ∀ row ∈ (pixels stride buffer).map line, ∀ c ∈ row.toList, c ≠ '\n' := by
    intro row hrow c hc
    obtain ⟨pixel, -, rfl⟩ := List.mem_map.mp hrow
    exact (line_plain pixel c hc).2
  have hempty : [""] = [([] : Pixel Float32)].map line := rfl
  rw [showValues_eq_lines stride hne, Text.lines_join hlines, hempty, ← List.map_append,
    mapM_read_map readValues_line]

/-! ## §3 The command -/

/-- A chunk has a length unless a pixel has `2 ^ 52` channels or more. -/
theorem chunkLength?_eq_ite (stride : Nat) :
    chunkLength? stride = if stride < 2 ^ 52 then some (stride * pixelsPerChunk) else none := by
  have hsize : stride * pixelsPerChunk < Text.sizeBound ↔ stride < 2 ^ 52 := by
    simp only [pixelsPerChunk, Text.sizeBound]
    omega
  simp only [chunkLength?, Option.guard, hsize, decide_eq_true_eq]

/-- The chunks of a buffer are short enough unless a pixel has `2 ^ 52` channels or more. -/
theorem evaluate?_eq_ite (l : ProcessList) (stride : Nat) (values : List Float32) :
    evaluate? l stride values = if stride < 2 ^ 52 then some (l.process stride values) else none := by
  rcases Nat.eq_zero_or_pos stride with rfl | hpos
  · rfl
  · rw [evaluate?_eq_map l hpos, chunkLength?_eq_ite]
    split <;> rfl

/-- Where the list and the values are found and the values divide into pixels, the command shows what
it has evaluated. -/
theorem applyText_eq_ite {store : Store} {options : ReadOptions} {a : ApplyOptions}
    {l : ProcessList} {text : String} {values : List Float32}
    (hload : loadList store options a.list = .ok l) (hsource : sourceText store a = .ok text)
    (hread : readValues text = .ok values) (hpixels : a.stride = 0 ∨ a.stride ∣ values.length) :
    applyText store options a =
      if a.stride < 2 ^ 52 then .ok (showValues a.stride (l.process a.stride values))
      else .error .abort := by
  have hdivides : ¬ (0 < a.stride ∧ values.length % a.stride ≠ 0) := by
    rintro ⟨hpos, hmod⟩
    rcases hpixels with h | h
    · omega
    · exact hmod (Nat.mod_eq_zero_of_dvd h)
  unfold applyText
  rw [hload, hsource]
  simp only [Except.mapError, bind, Except.bind, hread, if_neg hdivides, evaluate?_eq_ite]
  by_cases hshort : a.stride < 2 ^ 52
  · simp only [if_pos hshort]
    rfl
  · simp only [if_neg hshort]
    rfl

/-- What is shown of a list applied to values that divide into pixels is read as the result of the
list on them, and its lines are read as the evaluated pixels, one on each line. The command shows
it unless a pixel has so many channels that the chunks are too long, and then the buffer has at
least as many values. -/
theorem readValues_showValues_process (l : ProcessList) {text : String} {values : List Float32}
    {stride : Nat} (hread : readValues text = .ok values) (hne : values ≠ [])
    (hpixels : stride = 0 ∨ stride ∣ values.length) :
    evaluate? l stride values =
        (if stride < 2 ^ 52 then some (l.process stride values) else none) ∧
      stride ≤ values.length ∧
      (∀ {store : Store} {options : ReadOptions} {a : ApplyOptions},
        loadList store options a.list = .ok l → sourceText store a = .ok text → a.stride = stride →
          applyText store options a =
            if stride < 2 ^ 52 then .ok (showValues stride (l.process stride values))
            else .error .abort) ∧
      readValues (showValues stride (l.process stride values)) = .ok (l.process stride values) ∧
      (Text.lines (showValues stride (l.process stride values))).mapM readValues =
        .ok ((pixels stride values).map l.evalPixel ++ [[]]) ∧
      ∀ pixel ∈ pixels stride values,
        pixel.length = if stride = 0 then values.length else stride := by
  have hlength : (l.process stride values).length = values.length := by
    rw [l.process_eq_mapPixels]
    exact length_mapPixels stride (Node.length_evalActive l.nodes) values
  have hresult : l.process stride values ≠ [] := by
    rw [← List.length_pos_iff, hlength]
    exact List.length_pos_iff.mpr hne
  refine ⟨evaluate?_eq_ite l stride values, ?_, ?_, readValues_showValues stride hresult, ?_, ?_⟩
  · rcases hpixels with rfl | h
    · exact Nat.zero_le _
    · exact Nat.le_of_dvd (List.length_pos_iff.mpr hne) h
  · rintro store options a hload hsource rfl
    exact applyText_eq_ite hload hsource hread hpixels
  · rw [mapM_lines_showValues stride hresult, pixels_process]
  · unfold pixels
    split
    · next h => exact fun pixel hpixel => congrArg _ (List.mem_singleton.mp hpixel)
    · next h =>
      exact length_of_mem_chunks (Nat.pos_of_ne_zero h) (hpixels.resolve_left h)

/-- Two pixels on two lines, with a comma, and with a value that is no number. -/
def mixedText : String := "0 128\n255, NaN"

/-- The values in the text. -/
def mixedValues : List Float32 := [0.0, 128.0, 255.0, Float32.ofBits 0x7fc00000]

/-- The values divide into pixels of two channels, whose evaluation converts between depths. -/
theorem readValues_showValues_process_mixed :
    readValues mixedText = .ok mixedValues ∧ mixedValues ≠ [] ∧ 2 ∣ mixedValues.length ∧
    evaluate? ProcessList.unevenList 2 mixedValues =
      some (ProcessList.unevenList.process 2 mixedValues) ∧
    readValues (showValues 2 (ProcessList.unevenList.process 2 mixedValues)) =
      .ok (ProcessList.unevenList.process 2 mixedValues) ∧
    (Text.lines (showValues 2 (ProcessList.unevenList.process 2 mixedValues))).mapM readValues =
      .ok ([[0.0, 128.0], [255.0, Float32.ofBits 0x7fc00000]].map
        ProcessList.unevenList.evalPixel ++ [[]]) := by
  have hread : readValues mixedText = .ok mixedValues := by decide +kernel
  have hne : mixedValues ≠ [] := List.cons_ne_nil _ _
  have hdvd : 2 ∣ mixedValues.length := ⟨2, rfl⟩
  have hchunks : pixels 2 mixedValues = [[0.0, 128.0], [255.0, Float32.ofBits 0x7fc00000]] := by
    simp [pixels, mixedValues, chunks, chunksOnto]
  obtain ⟨hevaluate, -, -, hback, hlines, -⟩ :=
    readValues_showValues_process ProcessList.unevenList hread hne (.inr hdvd)
  rw [hchunks] at hlines
  exact ⟨hread, hne, hdvd, hevaluate, hback, hlines⟩

end Command

end CommonLut
