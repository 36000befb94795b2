import CommonLut.Node.Edit
import CommonLut.Proofs.Lookup.SampleValues

/-!
# Arrays in another encoding

An encoding reads of every sample what it has rounded it to, and spells that in the same way. So an
array that is given an encoding is written like the array of the rounded samples, which is what is
read back. A table of half patterns has no encoding and keeps its samples.

Main definitions: `SampleArray.recoded`, `SampleArray.RecodedTo`.
Main statements: `SampleArray.recodedTo_recoded`, `SampleArray.Readable.recoded`,
`SampleArray.write_recoded`.
-/

namespace CommonLut

namespace SampleArray

/-- An array as it is read back after it has been written in an encoding. -/
def recoded (e : SampleEncoding) (a : SampleArray Double) : SampleArray Double :=
  if a.rawHalfs then { a with encoding := .text }
  else { a with values := a.values.map e.rounded, encoding := e }

section

variable (e : SampleEncoding) (a : SampleArray Double)

@[simp]
theorem dims_recoded : (a.recoded e).dims = a.dims := by
  unfold recoded
  split <;> rfl

@[simp]
theorem layout_recoded : (a.recoded e).layout = a.layout := by
  unfold recoded
  split <;> rfl

@[simp]
theorem integers_recoded : (a.recoded e).integers = a.integers := by
  unfold recoded
  split <;> rfl

@[simp]
theorem rawHalfs_recoded : (a.recoded e).rawHalfs = a.rawHalfs := by
  unfold recoded
  split <;> rfl

@[simp]
theorem columns_recoded : (a.recoded e).columns = a.columns := by
  rw [columns, columns, dims_recoded, layout_recoded]

@[simp]
theorem size_recoded : (a.recoded e).size = a.size := by
  unfold recoded size
  split <;> simp

theorem values_recoded :
    (a.recoded e).values.toList =
      a.values.toList.map fun x => if a.rawHalfs then x else e.rounded x := by
  unfold recoded
  split <;> simp

theorem encoding_recoded : (a.recoded e).encoding = if a.rawHalfs then .text else e := by
  unfold recoded
  split <;> rfl

/-- What comes back of an array that is written in an encoding: the same shape, and the samples as
the encoding reads what it has written. A table of half patterns keeps its samples instead. -/
structure RecodedTo (e : SampleEncoding) (a b : SampleArray Double) : Prop where
  dims : b.dims = a.dims
  layout : b.layout = a.layout
  integers : b.integers = a.integers
  rawHalfs : b.rawHalfs = a.rawHalfs
  encoding : a.rawHalfs = false → b.encoding = e
  samples : a.rawHalfs = false →
    List.Forall₂ (fun x y => e.decode? (e.encode x) = some y) a.values.toList b.values.toList
  halfs : a.rawHalfs = true → b.values = a.values

theorem recodedTo_recoded : RecodedTo e a (a.recoded e) where
  dims := dims_recoded e a
  layout := layout_recoded e a
  integers := integers_recoded e a
  rawHalfs := rawHalfs_recoded e a
  encoding hraw := by
    rw [encoding_recoded, hraw]
    rfl
  samples hraw := by
    rw [values_recoded, List.forall₂_map_right_iff, List.forall₂_same]
    intro x _
    rw [hraw]
    exact e.decode?_encode_rounded x
  halfs hraw := by rw [recoded, if_pos hraw]

/-- An array read back from one encoding does not change when it is written in it again. -/
theorem recoded_recoded : (a.recoded e).recoded e = a.recoded e := by
  cases hraw : a.rawHalfs with
  | true => simp [recoded, hraw]
  | false => simp [recoded, hraw, Function.comp_def, SampleEncoding.rounded_rounded]

/-- An array that is read back is read back as it is. -/
theorem reread_recoded : (a.recoded e).reread = a.recoded e := by
  cases hraw : a.rawHalfs with
  | true => simp [recoded, reread, hraw]
  | false => simp [recoded, reread, hraw, Function.comp_def, SampleEncoding.respelled_rounded]

/-- An array that is given an encoding is written as what is read back from that. -/
theorem write_recoded : (a.recoded e).write = (a.withEncoding e).write := by
  -- A sample and the sample that it is read back as are spelled by the same word.
  have hspell : ∀ x, (a.recoded e).spell (if a.rawHalfs then x else e.rounded x) =
      (a.withEncoding e).spell x := by
    intro x
    unfold spell
    rw [rawHalfs_recoded, encoding_recoded]
    cases hraw : a.rawHalfs with
    | true => simp [withEncoding, hraw]
    | false => simp [withEncoding, hraw, SampleEncoding.encode_rounded]
  have hannounced : (if (a.recoded e).rawHalfs then none
        else (a.recoded e).encoding.announcement?) =
      if a.rawHalfs then none else e.announcement? := by
    rw [rawHalfs_recoded, encoding_recoded]
    cases a.rawHalfs <;> rfl
  have hrows : (a.recoded e).spellRows = (a.withEncoding e).spellRows := by
    have hcolumns : (a.withEncoding e).columns = a.columns := rfl
    have hvalues : (a.withEncoding e).values = a.values := rfl
    unfold spellRows
    rw [columns_recoded, values_recoded, chunks_map (by omega), List.map_map, hcolumns, hvalues]
    simp only [Function.comp_def, List.map_map, hspell]
  unfold write
  rw [hannounced, hrows, dims_recoded]
  rfl

theorem sameValues_withEncoding : SameValues (a.withEncoding e) a := ⟨rfl, rfl, rfl⟩

variable {e}

theorem sameValues_recoded (he : e ∈ SampleEncoding.exact) : SameValues (a.recoded e) a := by
  refine ⟨dims_recoded e a, layout_recoded e a, ?_⟩
  rw [values_recoded, List.map_map]
  refine List.map_congr_left fun x _ => ?_
  simp only [Function.comp_apply]
  split
  · rfl
  · exact SampleEncoding.toFloat_rounded he x

end

/-- Where the encoding is accepted, the array that is read back could have been read. -/
theorem Readable.recoded {options : ReadOptions} {layout : ArrayLayout} {rawHalfs : Bool}
    {a : SampleArray Double} (ha : a.Readable options layout rawHalfs) {e : SampleEncoding}
    (he : e ≠ .text → options.require .duikerResearch "floatEncoding" = .ok ()) :
    (a.recoded e).Readable options layout rawHalfs where
  dims_ne_nil := by
    rw [dims_recoded]
    exact ha.dims_ne_nil
  dims_lt := by
    rw [dims_recoded]
    exact ha.dims_lt
  layout_eq := (layout_recoded e a).trans ha.layout_eq
  rawHalfs_eq := (rawHalfs_recoded e a).trans ha.rawHalfs_eq
  filled := ha.filled.congr (dims_recoded e a) (layout_recoded e a) (size_recoded e a)
  accepted hraw hencoding := by
    rw [rawHalfs_recoded] at hraw
    rw [encoding_recoded, hraw] at hencoding
    exact he hencoding
  samples x hx := by
    rw [values_recoded] at hx
    obtain ⟨y, hy, rfl⟩ := List.mem_map.mp hx
    rw [rawHalfs_recoded, encoding_recoded]
    cases hraw : a.rawHalfs with
    | true =>
      -- Half patterns are read in the same way whatever encoding is announced.
      obtain ⟨word, hword⟩ := ha.samples y hy
      rw [hraw] at hword
      simp only [readSample, if_true] at hword ⊢
      refine ⟨word, ?_⟩
      split at hword
      · exact hword
      · cases hword
    | false =>
      exact ⟨e.encode y, by simp [readSample, SampleEncoding.decode?_encode_rounded]⟩

end SampleArray

end CommonLut
