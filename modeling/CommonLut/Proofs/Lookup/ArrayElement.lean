import CommonLut.Lookup.ArrayElement
import CommonLut.Proofs.Chunks
import CommonLut.Proofs.Outcome
import CommonLut.Proofs.SampleEncoding

/-!
# Arrays read back

An array that was read from an element is written so that it reads back: the dimensions and the
number of samples are the same, and every sample has the value that it had. A table of half patterns
loses the announcement of another encoding, which had no meaning for it.

Main definitions: `SampleArray.Readable`, `SampleArray.reread`.
Main statements: `SampleArray.readable_of_read`, `SampleArray.read_write`,
`SampleArray.write_reread`.
-/

namespace CommonLut.SampleArray

/-! ## §1 What reading gives -/

/-- The samples fill the dimensions, which multiply to a size. -/
structure Filled (a : SampleArray Double) : Prop where
  nonzero : ¬ a.dims.contains 0
  rows : ¬(a.columns = 0 ∨ a.size % a.columns ≠ 0)
  bounded : ¬ Text.sizeBound ≤ a.countedDims.foldl (· * ·) 1
  count : ¬ a.countedDims.foldl (· * ·) 1 ≠ a.size

theorem check_eq_ok {a b : SampleArray Double} : a.check = .ok b ↔ b = a ∧ a.Filled := by
  unfold check
  dsimp only
  constructor
  · intro h
    split at h
    · cases h
    · split at h
      · cases h
      · split at h
        · cases h
        · split at h
          · cases h
          · cases h
            exact ⟨rfl, by assumption, by assumption, by assumption, by assumption⟩
  · rintro ⟨rfl, h⟩
    rw [if_neg h.nonzero, if_neg h.rows, if_neg h.bounded, if_neg h.count]

/-- Dimensions, layout and number of samples are all that counts. -/
theorem Filled.congr {a b : SampleArray Double} (h : a.Filled) (hdims : b.dims = a.dims)
    (hlayout : b.layout = a.layout) (hsize : b.size = a.size) : b.Filled := by
  have hcolumns : b.columns = a.columns := by rw [columns, columns, hdims, hlayout]
  have hcounted : b.countedDims = a.countedDims := by
    rw [countedDims, countedDims, hdims, hlayout]
  obtain ⟨h₁, h₂, h₃, h₄⟩ := h
  rw [← hdims] at h₁
  rw [← hcolumns, ← hsize] at h₂
  rw [← hcounted] at h₃
  rw [← hcounted, ← hsize] at h₄
  exact ⟨h₁, h₂, h₃, h₄⟩

/-- An array as it is read from an element. -/
structure Readable (options : ReadOptions) (layout : ArrayLayout) (rawHalfs : Bool)
    (a : SampleArray Double) : Prop where
  dims_ne_nil : a.dims ≠ []
  dims_lt : ∀ d ∈ a.dims, d < Text.sizeBound
  layout_eq : a.layout = layout
  rawHalfs_eq : a.rawHalfs = rawHalfs
  filled : a.Filled
  accepted : a.rawHalfs = false → a.encoding ≠ .text →
    options.require .duikerResearch "floatEncoding" = .ok ()
  samples : ∀ x ∈ a.values.toList, ∃ word, readSample a.rawHalfs a.encoding word = .ok x

theorem readDimensions_spec {text : String} {dims : List Nat}
    (h : readDimensions text = .ok dims) : dims ≠ [] ∧ ∀ d ∈ dims, d < Text.sizeBound := by
  unfold readDimensions at h
  split at h
  · cases h
  · cases h
  · next hne hdims =>
    cases h
    refine ⟨fun hnil => hne hnil, fun d hd => ?_⟩
    obtain ⟨word, -, hword⟩ := exists_of_mapM_some hdims d hd
    exact SampleEncoding.natural?_lt hword

theorem readEncoding_spec {options : ReadOptions} {e : Element} {encoding : SampleEncoding}
    (h : readEncoding options e = .ok encoding) (hne : encoding ≠ .text) :
    options.require .duikerResearch "floatEncoding" = .ok () := by
  unfold readEncoding at h
  split at h
  · cases h
    exact absurd rfl hne
  · split at h
    · cases h
    · cases h
      exact absurd rfl hne
    · obtain ⟨u, hrequire, -⟩ := bind_eq_ok.mp h
      exact hrequire

theorem readable_of_read {options : ReadOptions} {layout : ArrayLayout} {rawHalfs : Bool}
    {e : Element} {a : SampleArray Double} (h : read options layout rawHalfs e = .ok a) :
    Readable options layout rawHalfs a := by
  unfold read at h
  obtain ⟨text, -, h⟩ := bind_eq_ok.mp h
  obtain ⟨dims, hdims, h⟩ := bind_eq_ok.mp h
  obtain ⟨encoding, hencoding, h⟩ := bind_eq_ok.mp h
  obtain ⟨values, hvalues, h⟩ := bind_eq_ok.mp h
  obtain ⟨rfl, hfilled⟩ := check_eq_ok.mp (mapError_eq_ok.mp h)
  obtain ⟨hne, hlt⟩ := readDimensions_spec hdims
  refine ⟨hne, hlt, rfl, rfl, hfilled, fun _ htext => readEncoding_spec hencoding htext,
    fun x hx => ?_⟩
  obtain ⟨word, -, hword⟩ := exists_of_mapM_ok hvalues x hx
  exact ⟨word, hword⟩

/-- Whether the samples are code values is not said by the element. -/
theorem integers_of_read {options : ReadOptions} {layout : ArrayLayout} {rawHalfs : Bool}
    {e : Element} {a : SampleArray Double} (h : read options layout rawHalfs e = .ok a) :
    a.integers = false := by
  unfold read at h
  obtain ⟨text, -, h⟩ := bind_eq_ok.mp h
  obtain ⟨dims, -, h⟩ := bind_eq_ok.mp h
  obtain ⟨encoding, -, h⟩ := bind_eq_ok.mp h
  obtain ⟨values, -, h⟩ := bind_eq_ok.mp h
  rw [(check_eq_ok.mp (mapError_eq_ok.mp h)).1]

/-! ## §2 Reading back -/

/-- An array as it is after it has been written and read: samples as they are spelled, and in a
table of half patterns no other encoding. -/
def reread (a : SampleArray Double) : SampleArray Double :=
  if a.rawHalfs then { a with encoding := .text }
  else { a with values := a.values.map a.encoding.respelled }

theorem readDimensions_decimal {dims : List Nat} (hne : dims ≠ [])
    (hlt : ∀ d ∈ dims, d < Text.sizeBound) :
    readDimensions (" ".intercalate (dims.map Text.decimal)) = .ok dims := by
  have hwords : Text.words (" ".intercalate (dims.map Text.decimal)) = dims.map Text.decimal := by
    refine Text.words_intercalate fun w hw => ?_
    obtain ⟨d, -, rfl⟩ := List.mem_map.mp hw
    exact Text.isWord_decimal d
  have hread : (dims.map Text.decimal).mapM Text.size? = some dims := by
    rw [List.mapM_map]
    have h : dims.mapM (Text.size? ∘ Text.decimal) = some (dims.map id) :=
      mapM_of_pure fun d hd => Text.size?_decimal (hlt d hd)
    rwa [List.map_id] at h
  unfold readDimensions
  rw [hwords, hread]
  cases dims with
  | nil => exact absurd rfl hne
  | cons d dims => rfl

theorem ofToken?_token (e : SampleEncoding) : SampleEncoding.ofToken? e.token = some e := by
  cases e <;> decide

/-- The encoding that a written array announces. -/
theorem readEncoding_announced {options : ReadOptions} {layout : ArrayLayout} {rawHalfs : Bool}
    {a : SampleArray Double} (ha : Readable options layout rawHalfs a) {e : Element}
    (he : e.attribute? "floatEncoding" =
      if a.rawHalfs then none else a.encoding.announcement?) :
    readEncoding options e = .ok a.reread.encoding := by
  unfold readEncoding
  rw [he, reread]
  cases hraw : a.rawHalfs with
  | true => rfl
  | false =>
    cases hencoding : a.encoding with
    | text => rfl
    | integer16 | integer32 | integer64 | hex16 | hex32 | hex64 =>
      have haccepted := ha.accepted hraw (by rw [hencoding]; decide)
      simp only [Bool.false_eq_true, if_false, SampleEncoding.announcement?, ofToken?_token,
        haccepted]
      rfl

/-- A sample that was read is spelled as a word that reads back. -/
theorem readSample_spell {a : SampleArray Double} {x : Double} {word : String}
    (h : readSample a.rawHalfs a.encoding word = .ok x) :
    readSample a.rawHalfs a.reread.encoding (a.spell x) =
      .ok (if a.rawHalfs then x else a.encoding.respelled x) := by
  -- Half patterns are spelled bit by bit whatever the encoding is.
  cases hraw : a.rawHalfs with
  | true =>
    simp only [readSample, hraw, if_true] at h
    have hx : SampleEncoding.decodeHalf? word = some x := by
      split at h
      · next y hy =>
        cases h
        exact hy
      · cases h
    simp only [readSample, spell, hraw, if_true, SampleEncoding.decodeHalf?_halfPattern hx]
  | false =>
    simp only [readSample, hraw, Bool.false_eq_true, if_false] at h
    have hx : a.encoding.decode? word = some x := by
      split at h
      · next y hy =>
        cases h
        exact hy
      · cases h
    simp only [readSample, spell, reread, hraw, Bool.false_eq_true, if_false,
      SampleEncoding.decode?_encode hx]

theorem isWord_spell (a : SampleArray Double) (x : Double) : Text.IsWord (a.spell x) := by
  unfold spell
  split
  · exact Text.isWord_decimal _
  · exact SampleEncoding.isWord_encode _ x

/-- The words of a written array are its samples in order. -/
theorem words_spellRows (a : SampleArray Double) :
    Text.words a.spellRows = a.values.toList.map a.spell := by
  have hsize : 0 < max a.columns 1 := by omega
  have hrows : Text.words ("\n" ++ "\n".intercalate
      (((chunks (max a.columns 1) a.values.toList).map (List.map a.spell)).map
        (" ".intercalate ·)) ++ "\n") =
      ((chunks (max a.columns 1) a.values.toList).map (List.map a.spell)).flatten := by
    refine Text.words_lines fun row hrow w hw => ?_
    obtain ⟨samples, -, rfl⟩ := List.mem_map.mp hrow
    obtain ⟨x, -, rfl⟩ := List.mem_map.mp hw
    exact isWord_spell a x
  rw [← List.map_flatten, flatten_chunks hsize, List.map_map] at hrows
  unfold spellRows
  dsimp only
  split
  · -- Without rows no lines are written.
    next hempty =>
    rw [List.isEmpty_iff, List.map_eq_nil_iff] at hempty
    have hvalues := flatten_chunks hsize a.values.toList
    rw [hempty, List.flatten_nil] at hvalues
    rw [← hvalues]
    rfl
  · exact hrows

@[simp]
theorem layout_reread (a : SampleArray Double) : a.reread.layout = a.layout := by
  unfold reread
  split <;> rfl

@[simp]
theorem dims_reread (a : SampleArray Double) : a.reread.dims = a.dims := by
  unfold reread
  split <;> rfl

@[simp]
theorem rawHalfs_reread (a : SampleArray Double) : a.reread.rawHalfs = a.rawHalfs := by
  unfold reread
  split <;> rfl

@[simp]
theorem integers_reread (a : SampleArray Double) : a.reread.integers = a.integers := by
  unfold reread
  split <;> rfl

@[simp]
theorem columns_reread (a : SampleArray Double) : a.reread.columns = a.columns := by
  rw [columns, columns, dims_reread, layout_reread]

@[simp]
theorem size_reread (a : SampleArray Double) : a.reread.size = a.size := by
  unfold reread size
  split <;> simp

theorem values_reread (a : SampleArray Double) :
    a.reread.values.toList =
      a.values.toList.map fun x => if a.rawHalfs then x else a.encoding.respelled x := by
  unfold reread
  split <;> simp

/-- A written array is read back. -/
theorem read_write {options : ReadOptions} {layout : ArrayLayout} {rawHalfs : Bool}
    {a : SampleArray Double} (ha : Readable options layout rawHalfs a) {e : Element}
    (hdim : e.attribute? "dim" = some (" ".intercalate (a.dims.map Text.decimal)))
    (hencoding : e.attribute? "floatEncoding" =
      if a.rawHalfs then none else a.encoding.announcement?)
    (htext : Text.words e.text = Text.words a.spellRows) :
    read options layout rawHalfs e = .ok { a.reread with integers := false } := by
  have hvalues : (a.values.toList.map a.spell).mapM
      (readSample rawHalfs a.reread.encoding) = .ok a.reread.values.toList := by
    rw [List.mapM_map, values_reread]
    refine mapM_of_pure fun x hx => ?_
    obtain ⟨word, hword⟩ := ha.samples x hx
    rw [← ha.rawHalfs_eq]
    exact readSample_spell hword
  -- Whether the samples are code values is not written; whoever reads the array sets it later.
  have harray : ({ a.reread with integers := false } : SampleArray Double) =
      { dims := a.dims, values := a.reread.values.toList.toArray, layout, rawHalfs,
        encoding := a.reread.encoding } := by
    rw [← ha.layout_eq, ← ha.rawHalfs_eq, Array.toArray_toList]
    unfold reread
    split <;> rfl
  have hfilled : Filled { a.reread with integers := false } :=
    ha.filled.congr (dims_reread a) (layout_reread a) (size_reread a)
  have hdims := readDimensions_decimal ha.dims_ne_nil ha.dims_lt
  rw [read, Element.requiredAttribute, hdim, bind_eq_ok]
  refine ⟨_, rfl, bind_eq_ok.mpr ⟨_, hdims, bind_eq_ok.mpr ⟨_, readEncoding_announced ha hencoding,
    bind_eq_ok.mpr ⟨a.reread.values.toList, ?_, ?_⟩⟩⟩⟩
  · rw [htext, words_spellRows, hvalues]
  · rw [← harray, mapError_eq_ok, check_eq_ok]
    exact ⟨rfl, hfilled⟩

/-- A written array that has been read is written in the same way again. -/
theorem spellRows_reread (a : SampleArray Double) : a.reread.spellRows = a.spellRows := by
  have hsize : 0 < max a.columns 1 := by omega
  have hspell : ∀ x, a.reread.spell (if a.rawHalfs then x else a.encoding.respelled x) =
      a.spell x := by
    intro x
    unfold spell
    rw [rawHalfs_reread]
    cases hraw : a.rawHalfs with
    | true => rfl
    | false => simp [reread, hraw, SampleEncoding.encode_respelled]
  unfold spellRows
  rw [columns_reread, values_reread, chunks_map hsize, List.map_map]
  simp only [Function.comp_def, List.map_map, hspell]

theorem write_reread (a : SampleArray Double) : a.reread.write = a.write := by
  have hannounced : (if a.reread.rawHalfs then none else a.reread.encoding.announcement?) =
      if a.rawHalfs then none else a.encoding.announcement? := by
    rw [rawHalfs_reread]
    cases hraw : a.rawHalfs <;> simp [reread, hraw]
  unfold write
  rw [hannounced, spellRows_reread, dims_reread]

end CommonLut.SampleArray
