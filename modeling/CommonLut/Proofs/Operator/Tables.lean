import CommonLut.Operator.Lut1D
import CommonLut.Operator.Lut3D
import CommonLut.Operator.Matrix
import CommonLut.Proofs.Lookup.ArrayShape
import CommonLut.Proofs.Lookup.IndexMap
import CommonLut.Proofs.Lookup.SampleValues
import CommonLut.Proofs.Operator.Grades

/-!
# Matrices and lookup tables read back

The samples of an array may be spelled in an encoding that does not keep their patterns, so a node
with an array is not read back as it was: it is read back with the array that `SampleArray.reread`
gives, which is written in the same way and looked up with the same results.

Main definitions: `Matrix.Readable`, `Lut1D.Readable`, `Lut3D.Readable`, and the functions `reread`.
Main statements: `Matrix.readsBack`, `Lut1D.readsBack`, `Lut3D.readsBack`, and what `reread` leaves
unchanged.
-/

namespace CommonLut

/-! ## §1 Arrays in nodes -/

namespace SampleArray

/-- An array as it is before and after the child with it is read. -/
def Pending (options : ReadOptions) (layout : ArrayLayout) (rawHalfs : Bool)
    (a : SampleArray Double) : Prop :=
  a = {} ∨ a.Readable options layout rawHalfs ∧ a.integers = false

theorem pending_of_read {options : ReadOptions} {layout : ArrayLayout} {rawHalfs : Bool}
    {e : Element} {a : SampleArray Double} (h : read options layout rawHalfs e = .ok a) :
    Pending options layout rawHalfs a :=
  .inr ⟨readable_of_read h, integers_of_read h⟩

theorem Pending.readable {options : ReadOptions} {layout : ArrayLayout} {rawHalfs : Bool}
    {a : SampleArray Double} (h : Pending options layout rawHalfs a) (hsize : a.size ≠ 0) :
    a.Readable options layout rawHalfs ∧ a.integers = false := by
  rcases h with rfl | h
  · exact absurd rfl hsize
  · exact h

/-- The flag for code values does not matter to reading and writing. -/
theorem Readable.withIntegers {options : ReadOptions} {layout : ArrayLayout} {rawHalfs : Bool}
    {a : SampleArray Double} (h : a.Readable options layout rawHalfs) (integers : Bool) :
    Readable options layout rawHalfs { a with integers } :=
  ⟨h.dims_ne_nil, h.dims_lt, h.layout_eq, h.rawHalfs_eq, h.filled.congr rfl rfl rfl, h.accepted,
    h.samples⟩

theorem read_write_trimmed {options : ReadOptions} {layout : ArrayLayout} {rawHalfs : Bool}
    {a : SampleArray Double} (ha : a.Readable options layout rawHalfs) :
    read options layout rawHalfs a.write.trimmed = .ok { a.reread with integers := false } := by
  refine read_write ha (by simp [write]) (by simp [write]) ?_
  rw [Element.text_trimmed, Text.words_trim, write, Element.text_withAttribute?,
    Element.text_withAttribute, Element.text_leaf]

@[simp]
theorem name_write (a : SampleArray Double) : a.write.name = "Array" := by
  simp [write]

theorem writable_write (a : SampleArray Double) : a.write.Writable := by
  have hname : IsName "Array" := by decide
  have hdim : IsName "dim" := by decide
  have hencoding : IsName "floatEncoding" := by decide
  refine (((Element.keysWithin_leaf "Array" _).withAttribute "dim" _).withAttribute?
    "floatEncoding" _).writable (by simpa using hname) (by simp [hdim, hencoding]) (by decide) ?_
  simp [Element.leaf]

end SampleArray

/-- The children of a table, its index maps and then its array, are taken in this order by a schema
that takes children of both names. -/
theorem Schema.foldlM_table {α : Type} {s : Schema α} {options : ReadOptions} {rawHalfs : Bool}
    (build : List (IndexMap Float) → SampleArray Double → α)
    (hmap : ∀ before child m, child.name = "IndexMap" → IndexMap.read options child = .ok m →
      s.readChild options (build before {}) child = .ok (some (build (before ++ [m]) {})))
    (harray : ∀ maps child a, child.name = "Array" →
      SampleArray.read options .table rawHalfs child = .ok a →
        s.readChild options (build maps {}) child = .ok (some (build maps a)))
    {maps : List (IndexMap Float)} (hmaps : ∀ m ∈ maps, m.Readable options)
    {a : SampleArray Double} (ha : a.Readable options .table rawHalfs) (common : NodeCommon) :
    ((maps.map IndexMap.write ++ [a.write]).map Element.trimmed).foldlM (s.step options)
        (common, build [] {}) =
      .ok (common, build maps { a.reread with integers := false }) := by
  have hentries := foldlM_step_entries (fun maps => build maps {}) (fun before m hm =>
    hmap before m.write.trimmed m (Element.name_trimmed _) (IndexMap.read_write (hmaps m hm)))
    common []
  have hname : a.write.trimmed.name = "Array" := by simp
  rw [List.map_append, foldlM_append_of_ok hentries]
  exact foldlM_step_cons (harray maps _ _ hname (SampleArray.read_write_trimmed ha)) rfl

/-! ## §2 Matrices -/

namespace Matrix

theorem readChild_eq_none (options : ReadOptions) (m : Matrix Double) (child : Element) :
    schema.readChild options m child = .ok none ↔ child.name ∉ ["Array"] :=
  Schema.taken_eq_none_iff

theorem orderly : schema.Orderly := by
  refine Schema.orderly_of_names _ readChild_eq_none (by decide) (by decide)
    (fun m => ⟨by simp [schema], by simp [schema], by simp [schema], by simp [schema]⟩)
    fun m child hchild => ?_
  rw [show schema.writeChildren m = [m.array.write] from rfl, List.mem_singleton] at hchild
  rw [hchild]
  exact SampleArray.writable_write m.array

theorem check_eq_ok {m m' : Matrix Double} :
    m.check = .ok m' ↔ m' = m ∧ m.rows ≠ 0 ∧ ¬(m.columns ≠ m.rows ∧ m.columns ≠ m.rows + 1) := by
  unfold check
  constructor
  · intro h
    split at h
    · cases h
    · split at h
      · cases h
      · cases h
        exact ⟨rfl, by assumption, by assumption⟩
  · rintro ⟨rfl, hrows, hcolumns⟩
    rw [if_neg hrows, if_neg hcolumns]

/-- A matrix as it is read from an element. -/
structure Readable (options : ReadOptions) (m : Matrix Double) : Prop where
  array : m.array.Readable options .matrix false
  integers : m.array.integers = false
  size : m.array.size ≠ 0
  shape : m.check = .ok m

/-- A matrix that was read has the coefficients of all its rows. -/
theorem Readable.rows_mul_columns {options : ReadOptions} {m : Matrix Double}
    (h : m.Readable options) : m.rows * m.columns = m.array.size := by
  obtain ⟨hshape, -⟩ := SampleArray.filled_iff.mp h.array.filled
  rw [h.array.layout_eq] at hshape
  obtain ⟨r, c, rest, hdims, -, hcount⟩ := hshape
  unfold rows columns SampleArray.columns
  rw [h.array.layout_eq, hdims]
  exact hcount

/-- The only child that a matrix takes is its array. -/
theorem exists_of_readChild {options : ReadOptions} {m m' : Matrix Double} {child : Element}
    (h : schema.readChild options m child = .ok (some m')) :
    ∃ a, SampleArray.read options .matrix false child = .ok a ∧ m' = { array := a } := by
  unfold schema at h
  dsimp only at h
  split at h
  · obtain ⟨a, ha, h⟩ := bind_eq_ok.mp h
    cases h
    exact ⟨a, ha, rfl⟩
  · cases h

/-- The final check looks at the array and changes nothing. -/
theorem of_finish {name : String} {depth : BitDepth} {m m' : Matrix Double}
    (h : schema.finish name depth m = .ok m') :
    m' = m ∧ m.array.size ≠ 0 ∧ m.check = .ok m := by
  unfold schema at h
  dsimp only at h
  split at h
  · cases h
  · next hsize =>
    obtain ⟨rfl, hshape⟩ := check_eq_ok.mp (mapError_eq_ok.mp h)
    exact ⟨rfl, hsize, check_eq_ok.mpr ⟨rfl, hshape⟩⟩

theorem pending_of_readChild {options : ReadOptions} {m m' : Matrix Double} {child : Element}
    (h : schema.readChild options m child = .ok (some m')) :
    m'.array.Pending options .matrix false := by
  obtain ⟨a, ha, rfl⟩ := exists_of_readChild h
  exact SampleArray.pending_of_read ha

theorem readable_of_finish {options : ReadOptions} {name : String} {depth : BitDepth}
    {m m' : Matrix Double} (hm : m.array.Pending options .matrix false)
    (h : schema.finish name depth m = .ok m') : Readable options m' := by
  obtain ⟨rfl, hsize, hshape⟩ := of_finish h
  obtain ⟨harray, hintegers⟩ := hm.readable hsize
  exact ⟨harray, hintegers, hsize, hshape⟩

/-- A matrix as it is after it has been written and read. -/
def reread (m : Matrix Double) : Matrix Double := { array := m.array.reread }

theorem readsBack {options : ReadOptions} (depth : BitDepth) {m : Matrix Double}
    (hm : Readable options m) : schema.ReadsBack options depth m {} m.reread m.reread where
  attributes _ _ := rfl
  children common := by
    have hread := SampleArray.read_write_trimmed hm.array
    have hintegers : { m.array.reread with integers := false } = m.array.reread := by
      rw [← hm.integers, ← SampleArray.integers_reread]
    have htaken : schema.readChild options {} m.array.write.trimmed = .ok (some m.reread) := by
      simp only [schema, Element.name_trimmed, SampleArray.name_write, if_true, hread, hintegers]
      rfl
    exact Schema.foldlM_step_cons htaken rfl
  check name := by
    have hrows : m.reread.rows = m.rows := by rw [rows, rows, reread, SampleArray.dims_reread]
    have hcolumns : m.reread.columns = m.columns := SampleArray.columns_reread m.array
    have hshape : m.reread.check = .ok m.reread := by
      rw [check_eq_ok, hrows, hcolumns]
      exact ⟨rfl, (check_eq_ok.mp hm.shape).2⟩
    have hsize : m.reread.array.size ≠ 0 := by
      rw [reread, SampleArray.size_reread]
      exact hm.size
    unfold schema
    dsimp only
    rw [if_neg hsize, hshape]
    rfl

theorem writeChildren_reread (m : Matrix Double) :
    schema.writeChildren m.reread = schema.writeChildren m :=
  congrArg (fun e => [e]) (SampleArray.write_reread m.array)

theorem apply_reread (m : Matrix Double) :
    (m.reread.apply : Pixel Float32 → Pixel Float32) = m.apply :=
  (SampleArray.sameValues_reread m.array).matrix_apply

end Matrix

/-! ## §3 One-dimensional tables -/

namespace Lut1D

theorem read_token (i : CurveInterpolation) : CurveInterpolation.read i.token = .ok i := by
  cases i <;> rfl

theorem readChild_eq_none (options : ReadOptions) (l : Lut1D) (child : Element) :
    schema.readChild options l child = .ok none ↔ child.name ∉ ["IndexMap", "Array"] := by
  unfold schema
  dsimp only
  split
  · next h => exact iff_of_false bind_some_ne_none (by simp [h])
  · next h => exact iff_of_false bind_some_ne_none (by simp [h])
  · next h₁ h₂ => exact iff_of_true rfl (by simpa using ⟨h₁, h₂⟩)

theorem orderly : schema.Orderly := by
  refine Schema.orderly_of_names _ readChild_eq_none (by decide) (by decide)
    (fun l => ⟨by decide, by decide, by decide, ?_⟩) fun l child hchild => ?_
  · cases hi : l.interpolation <;> cases hd : l.halfDomain <;> cases hr : l.rawHalfs <;>
      simp [schema, hi, hd, hr]
  · rw [show schema.writeChildren l = l.indexMaps.map IndexMap.write ++
      [SampleArray.write { l.array with rawHalfs := l.rawHalfs }] from rfl, List.mem_append,
      List.mem_singleton] at hchild
    rcases hchild with hchild | rfl
    · obtain ⟨m, -, rfl⟩ := List.mem_map.mp hchild
      exact IndexMap.writable_write m
    · exact SampleArray.writable_write _

/-- A table whose parts have been read from an element, but for the final check. -/
structure Pending (options : ReadOptions) (l : Lut1D) : Prop where
  array : l.array.Pending options .table l.rawHalfs
  indexMaps : ∀ m ∈ l.indexMaps, m.Readable options
  halfDomain : l.halfDomain = true → options.require .autodesk "halfDomain" = .ok ()
  rawHalfs : l.rawHalfs = true → options.require .autodesk "rawHalfs" = .ok ()

/-- A table as it is read from an element. -/
structure Readable (options : ReadOptions) (depth : BitDepth) (l : Lut1D) : Prop where
  array : l.array.Readable options .table l.rawHalfs
  integers : l.array.integers = (depth.isInteger && !l.rawHalfs)
  size : l.array.size ≠ 0
  shape : ¬(l.array.dims.length ≠ 2 ∨ ¬(l.array.columns = 1 ∨ l.array.columns = 3))
  indexMaps : ∀ m ∈ l.indexMaps, m.Readable options
  halfDomain : l.halfDomain = true → options.require .autodesk "halfDomain" = .ok ()
  rawHalfs : l.rawHalfs = true → options.require .autodesk "rawHalfs" = .ok ()

/-- Attributes give no array and no index map, and each flag that they set was checked. -/
theorem of_readAttributes {options : ReadOptions} {e : Element} {l : Lut1D}
    (h : schema.readAttributes options e = .ok l) :
    (l.array = {} ∧ l.indexMaps = []) ∧
      (l.halfDomain = true → options.require .autodesk "halfDomain" = .ok ()) ∧
      (l.rawHalfs = true → options.require .autodesk "rawHalfs" = .ok ()) := by
  obtain ⟨interpolation, -, h⟩ := bind_eq_ok.mp h
  obtain ⟨halfDomain, -, h⟩ := bind_eq_ok.mp h
  obtain ⟨rawHalfs, -, h⟩ := bind_eq_ok.mp h
  obtain ⟨hhalfDomain, h⟩ := guarded_eq_ok.mp h
  obtain ⟨hrawHalfs, h⟩ := guarded_eq_ok.mp h
  cases h
  exact ⟨⟨rfl, rfl⟩, hhalfDomain, hrawHalfs⟩

/-- A child that a table takes is one more index map or its array. -/
theorem readChild_cases {options : ReadOptions} {l l' : Lut1D} {child : Element}
    (h : schema.readChild options l child = .ok (some l')) :
    (∃ m, IndexMap.read options child = .ok m ∧ l' = { l with indexMaps := l.indexMaps ++ [m] }) ∨
    ∃ a, SampleArray.read options .table l.rawHalfs child = .ok a ∧ l' = { l with array := a } := by
  unfold schema at h
  dsimp only at h
  split at h
  · obtain ⟨m, hm, h⟩ := bind_eq_ok.mp h
    cases h
    exact .inl ⟨m, hm, rfl⟩
  · obtain ⟨a, ha, h⟩ := bind_eq_ok.mp h
    cases h
    exact .inr ⟨a, ha, rfl⟩
  · cases h

/-- The final check settles whether the samples are written as integers, and nothing else. -/
theorem of_finish {name : String} {depth : BitDepth} {l l' : Lut1D}
    (h : schema.finish name depth l = .ok l') :
    l.array.size ≠ 0 ∧ ¬(l.array.dims.length ≠ 2 ∨ ¬(l.array.columns = 1 ∨ l.array.columns = 3)) ∧
      l' = { l with array := { l.array with integers := depth.isInteger && !l.rawHalfs } } := by
  unfold schema at h
  dsimp only at h
  split at h
  · cases h
  · next hsize =>
    split at h
    · cases h
    · next hshape =>
      cases h
      exact ⟨hsize, hshape, rfl⟩

theorem pending_of_readAttributes {options : ReadOptions} {e : Element} {l : Lut1D}
    (h : schema.readAttributes options e = .ok l) : Pending options l := by
  obtain ⟨⟨harray, hmaps⟩, hhalfDomain, hrawHalfs⟩ := of_readAttributes h
  refine ⟨.inl harray, fun m hm => ?_, hhalfDomain, hrawHalfs⟩
  rw [hmaps] at hm
  exact absurd hm List.not_mem_nil

theorem pending_of_readChild {options : ReadOptions} {l l' : Lut1D} {child : Element}
    (hl : Pending options l) (h : schema.readChild options l child = .ok (some l')) :
    Pending options l' := by
  obtain ⟨m, hm, rfl⟩ | ⟨a, ha, rfl⟩ := readChild_cases h
  · exact { hl with indexMaps := IndexMap.readable_append hl.indexMaps hm }
  · exact { hl with array := SampleArray.pending_of_read ha }

theorem readable_of_finish {options : ReadOptions} {name : String} {depth : BitDepth}
    {l l' : Lut1D} (hl : Pending options l) (h : schema.finish name depth l = .ok l') :
    Readable options depth l' := by
  obtain ⟨hsize, hshape, rfl⟩ := of_finish h
  exact ⟨(hl.array.readable hsize).1.withIntegers _, rfl, hsize, hshape, hl.indexMaps,
    hl.halfDomain, hl.rawHalfs⟩

/-- A table as it is after it has been written and read. -/
def reread (l : Lut1D) : Lut1D := { l with array := l.array.reread }

theorem writeAttributes_eq (l : Lut1D) :
    schema.writeAttributes l =
      (l.interpolation.map fun s => ("interpolation", s.token)).toList ++
        (if l.halfDomain then [("halfDomain", "true")] else []) ++
        (if l.rawHalfs then [("rawHalfs", "true")] else []) := rfl

/-- A flag that is written only when it is set is read back. -/
theorem flagAttribute_written {e : Element} {key : String} {flag : Bool}
    (h : e.attribute? key = if flag then some "true" else none) :
    ∃ value, e.flagAttribute key = .ok value ∧ value.getD false = flag := by
  unfold Element.flagAttribute
  rw [h]
  cases flag with
  | false => exact ⟨none, rfl, rfl⟩
  | true => exact ⟨some true, rfl, rfl⟩

/-- The attributes give the interpolation and the flags back. -/
theorem readAttributes_written {options : ReadOptions} {depth : BitDepth} {l : Lut1D}
    (hl : Readable options depth l) {e : Element}
    (he : ∀ key ∈ schema.ownAttributes,
      e.attribute? key = lookupKey (schema.writeAttributes l) key) :
    schema.readAttributes options e = .ok { l with array := {}, indexMaps := [] } := by
  have hinterpolation : e.attribute? "interpolation" =
      l.interpolation.map CurveInterpolation.token := by
    rw [he "interpolation" (by decide), writeAttributes_eq]
    cases l.interpolation <;> cases l.halfDomain <;> cases l.rawHalfs <;> simp
  have hhalfDomain : e.attribute? "halfDomain" = if l.halfDomain then some "true" else none := by
    rw [he "halfDomain" (by decide), writeAttributes_eq]
    cases l.interpolation <;> cases l.halfDomain <;> cases l.rawHalfs <;> simp
  have hrawHalfs : e.attribute? "rawHalfs" = if l.rawHalfs then some "true" else none := by
    rw [he "rawHalfs" (by decide), writeAttributes_eq]
    cases l.interpolation <;> cases l.halfDomain <;> cases l.rawHalfs <;> simp
  obtain ⟨halfDomain, hhalfRead, hhalfEq⟩ := flagAttribute_written hhalfDomain
  obtain ⟨rawHalfs, hrawRead, hrawEq⟩ := flagAttribute_written hrawHalfs
  refine bind_eq_ok.mpr ⟨_, Schema.readToken?_token read_token hinterpolation,
    bind_eq_ok.mpr ⟨_, hhalfRead, bind_eq_ok.mpr ⟨_, hrawRead, ?_⟩⟩⟩
  -- A flag that is set was accepted when the table was read, so it is accepted again.
  refine guarded_eq_ok.mpr ⟨?_, guarded_eq_ok.mpr ⟨?_, ?_⟩⟩
  · rw [hhalfEq]
    exact hl.halfDomain
  · rw [hrawEq]
    exact hl.rawHalfs
  · rw [hhalfEq, hrawEq]
    rfl

/-- The children give the index maps back, in their order, and then the array. -/
theorem foldlM_written {options : ReadOptions} {depth : BitDepth} {l : Lut1D}
    (hl : Readable options depth l) (common : NodeCommon) :
    ((schema.writeChildren l).map Element.trimmed).foldlM (schema.step options)
        (common, { l with array := {}, indexMaps := [] }) =
      .ok (common, { l with array := { l.array.reread with integers := false } }) := by
  have harray : ({ l.array with rawHalfs := l.rawHalfs } : SampleArray Double) = l.array := by
    rw [← hl.array.rawHalfs_eq]
  show ((l.indexMaps.map IndexMap.write ++
    [SampleArray.write { l.array with rawHalfs := l.rawHalfs }]).map Element.trimmed).foldlM
      (schema.step options) _ = _
  rw [harray]
  refine Schema.foldlM_table (fun indexMaps array => { l with array, indexMaps }) ?_ ?_
    hl.indexMaps hl.array common
  · intro before child m hname hread
    simp only [schema, hname, hread]
    rfl
  · intro maps child a hname hread
    simp only [schema, hname, hread]
    rfl

theorem readsBack {options : ReadOptions} {depth : BitDepth} {l : Lut1D}
    (hl : Readable options depth l) :
    schema.ReadsBack options depth l { l with array := {}, indexMaps := [] }
      { l with array := { l.array.reread with integers := false } } l.reread where
  attributes _ he := readAttributes_written hl he
  children common := foldlM_written hl common
  check name := by
    have hsize : l.array.reread.size ≠ 0 := by
      rw [SampleArray.size_reread]
      exact hl.size
    have hshape : ¬(l.array.reread.dims.length ≠ 2 ∨
        ¬(l.array.reread.columns = 1 ∨ l.array.reread.columns = 3)) := by
      rw [SampleArray.dims_reread, SampleArray.columns_reread]
      exact hl.shape
    -- The check sets this flag again, and reading the array left it unset.
    have hintegers : { l.array.reread with integers := depth.isInteger && !l.rawHalfs } =
        l.array.reread := by
      rw [← hl.integers, ← SampleArray.integers_reread]
    unfold schema
    dsimp only
    refine (if_neg hsize).trans ((if_neg hshape).trans ?_)
    exact congrArg (fun a => Except.ok { l with array := a }) hintegers

theorem writeChildren_reread {options : ReadOptions} {depth : BitDepth} {l : Lut1D}
    (hl : Readable options depth l) : schema.writeChildren l.reread = schema.writeChildren l := by
  have harray : ({ l.array with rawHalfs := l.rawHalfs } : SampleArray Double) = l.array := by
    rw [← hl.array.rawHalfs_eq]
  have hreread : ({ l.array.reread with rawHalfs := l.rawHalfs } : SampleArray Double) =
      l.array.reread := by
    rw [← hl.array.rawHalfs_eq, ← SampleArray.rawHalfs_reread]
  show l.indexMaps.map IndexMap.write ++
    [SampleArray.write { l.array.reread with rawHalfs := l.rawHalfs }] = l.indexMaps.map
      IndexMap.write ++ [SampleArray.write { l.array with rawHalfs := l.rawHalfs }]
  rw [harray, hreread, SampleArray.write_reread]

/-- The lookup sees the values of the samples. -/
theorem apply_congr (l : Lut1D) {a : SampleArray Double} (h : a.SameValues l.array) :
    ({ l with array := a } : Lut1D).apply = l.apply := by
  have hlookup : ({ l with array := a } : Lut1D).lookup = l.lookup := by
    funext input channel x
    have hposition : ({ l with array := a } : Lut1D).position input channel x =
        l.position input channel x := by
      unfold position
      rw [show ({ l with array := a } : Lut1D).array.rows = l.array.rows from h.rows]
      rfl
    unfold lookup
    rw [hposition, h.cubic, h.halfInterpolated, h.linear]
  funext input pixel
  rw [apply, apply, hlookup]

theorem apply_reread (l : Lut1D) : l.reread.apply = l.apply :=
  l.apply_congr (SampleArray.sameValues_reread l.array)

end Lut1D

/-! ## §4 Three-dimensional tables -/

namespace Lut3D

theorem read_token (i : LatticeInterpolation) : LatticeInterpolation.read i.token = .ok i := by
  cases i <;> rfl

theorem readChild_eq_none (options : ReadOptions) (l : Lut3D) (child : Element) :
    schema.readChild options l child = .ok none ↔ child.name ∉ ["IndexMap", "Array"] := by
  unfold schema
  dsimp only
  split
  · next h => exact iff_of_false bind_some_ne_none (by simp [h])
  · next h => exact iff_of_false bind_some_ne_none (by simp [h])
  · next h₁ h₂ => exact iff_of_true rfl (by simpa using ⟨h₁, h₂⟩)

theorem writeChildren_eq (l : Lut3D) :
    schema.writeChildren l = l.indexMaps.map IndexMap.write ++ [l.array.write] := rfl

theorem orderly : schema.Orderly := by
  have hname : IsName "interpolation" := by decide
  refine Schema.orderly_of_names _ readChild_eq_none (by decide) (by decide)
    (fun l => ⟨by decide, by simpa [schema] using hname, by decide, ?_⟩) fun l child hchild => ?_
  · cases hi : l.interpolation <;> simp [schema, hi]
  · rw [writeChildren_eq, List.mem_append, List.mem_singleton] at hchild
    rcases hchild with hchild | rfl
    · obtain ⟨m, -, rfl⟩ := List.mem_map.mp hchild
      exact IndexMap.writable_write m
    · exact SampleArray.writable_write l.array

/-- A table whose parts have been read from an element, but for the final check. -/
structure Pending (options : ReadOptions) (l : Lut3D) : Prop where
  array : l.array.Pending options .table false
  indexMaps : ∀ m ∈ l.indexMaps, m.Readable options

/-- A table as it is read from an element. -/
structure Readable (options : ReadOptions) (depth : BitDepth) (l : Lut3D) : Prop where
  array : l.array.Readable options .table false
  integers : l.array.integers = depth.isInteger
  size : l.array.size ≠ 0
  shape : ¬(l.array.dims.length ≠ 4 ∨ l.array.dims[3]? ≠ some 3)
  indexMaps : ∀ m ∈ l.indexMaps, m.Readable options

/-- The attribute gives no array and no index map. -/
theorem of_readAttributes {options : ReadOptions} {e : Element} {l : Lut3D}
    (h : schema.readAttributes options e = .ok l) : l.array = {} ∧ l.indexMaps = [] := by
  obtain ⟨interpolation, -, h⟩ := bind_eq_ok.mp h
  cases h
  exact ⟨rfl, rfl⟩

/-- A child that a table takes is one more index map or its array. -/
theorem readChild_cases {options : ReadOptions} {l l' : Lut3D} {child : Element}
    (h : schema.readChild options l child = .ok (some l')) :
    (∃ m, IndexMap.read options child = .ok m ∧ l' = { l with indexMaps := l.indexMaps ++ [m] }) ∨
    ∃ a, SampleArray.read options .table false child = .ok a ∧ l' = { l with array := a } := by
  unfold schema at h
  dsimp only at h
  split at h
  · obtain ⟨m, hm, h⟩ := bind_eq_ok.mp h
    cases h
    exact .inl ⟨m, hm, rfl⟩
  · obtain ⟨a, ha, h⟩ := bind_eq_ok.mp h
    cases h
    exact .inr ⟨a, ha, rfl⟩
  · cases h

/-- The final check settles whether the samples are written as integers, and nothing else. -/
theorem of_finish {name : String} {depth : BitDepth} {l l' : Lut3D}
    (h : schema.finish name depth l = .ok l') :
    l.array.size ≠ 0 ∧ ¬(l.array.dims.length ≠ 4 ∨ l.array.dims[3]? ≠ some 3) ∧
      l' = { l with array := { l.array with integers := depth.isInteger } } := by
  unfold schema at h
  dsimp only at h
  split at h
  · cases h
  · next hsize =>
    split at h
    · cases h
    · next hshape =>
      cases h
      exact ⟨hsize, hshape, rfl⟩

theorem pending_of_readAttributes {options : ReadOptions} {e : Element} {l : Lut3D}
    (h : schema.readAttributes options e = .ok l) : Pending options l := by
  obtain ⟨harray, hmaps⟩ := of_readAttributes h
  refine ⟨.inl harray, fun m hm => ?_⟩
  rw [hmaps] at hm
  exact absurd hm List.not_mem_nil

theorem pending_of_readChild {options : ReadOptions} {l l' : Lut3D} {child : Element}
    (hl : Pending options l) (h : schema.readChild options l child = .ok (some l')) :
    Pending options l' := by
  obtain ⟨m, hm, rfl⟩ | ⟨a, ha, rfl⟩ := readChild_cases h
  · exact { hl with indexMaps := IndexMap.readable_append hl.indexMaps hm }
  · exact { hl with array := SampleArray.pending_of_read ha }

theorem readable_of_finish {options : ReadOptions} {name : String} {depth : BitDepth}
    {l l' : Lut3D} (hl : Pending options l) (h : schema.finish name depth l = .ok l') :
    Readable options depth l' := by
  obtain ⟨hsize, hshape, rfl⟩ := of_finish h
  exact ⟨(hl.array.readable hsize).1.withIntegers _, rfl, hsize, hshape, hl.indexMaps⟩

/-- A table as it is after it has been written and read. -/
def reread (l : Lut3D) : Lut3D := { l with array := l.array.reread }

theorem readsBack {options : ReadOptions} {depth : BitDepth} {l : Lut3D}
    (hl : Readable options depth l) :
    schema.ReadsBack options depth l { interpolation := l.interpolation }
      { l with array := { l.array.reread with integers := false } } l.reread where
  attributes e he := by
    have hinterpolation : e.attribute? "interpolation" =
        l.interpolation.map LatticeInterpolation.token := by
      rw [he "interpolation" (by decide)]
      cases h : l.interpolation <;> simp [schema, h]
    exact bind_eq_ok.mpr ⟨_, Schema.readToken?_token read_token hinterpolation, rfl⟩
  children common := by
    rw [writeChildren_eq]
    refine Schema.foldlM_table (fun indexMaps array => { l with array, indexMaps }) ?_ ?_
      hl.indexMaps hl.array common
    · intro before child m hname hread
      simp only [schema, hname, hread]
      rfl
    · intro maps child a hname hread
      simp only [schema, hname, hread]
      rfl
  check name := by
    have hsize : l.array.reread.size ≠ 0 := by
      rw [SampleArray.size_reread]
      exact hl.size
    have hshape : ¬(l.array.reread.dims.length ≠ 4 ∨ l.array.reread.dims[3]? ≠ some 3) := by
      rw [SampleArray.dims_reread]
      exact hl.shape
    have hintegers : { l.array.reread with integers := depth.isInteger } = l.array.reread := by
      rw [← hl.integers, ← SampleArray.integers_reread]
    unfold schema
    dsimp only
    refine (if_neg hsize).trans ((if_neg hshape).trans ?_)
    exact congrArg (fun a => Except.ok { l with array := a }) hintegers

theorem writeChildren_reread (l : Lut3D) :
    schema.writeChildren l.reread = schema.writeChildren l := by
  rw [writeChildren_eq, writeChildren_eq, reread, SampleArray.write_reread]

/-- The lookup sees the values of the samples. -/
theorem apply_congr (l : Lut3D) {a : SampleArray Double} (h : a.SameValues l.array) :
    ({ l with array := a } : Lut3D).apply = l.apply := by
  have hlookup : ({ l with array := a } : Lut3D).lookup = l.lookup := by
    funext p
    unfold lookup
    rw [h.trilinear, h.tetrahedral]
  have hposition : ({ l with array := a } : Lut3D).position = l.position := by
    funext input axis x
    unfold position
    rw [show ({ l with array := a } : Lut3D).array.dims = l.array.dims from h.dims]
    rfl
  funext input pixel
  rw [apply, apply, hlookup, hposition]

theorem apply_reread (l : Lut3D) : l.reread.apply = l.apply :=
  l.apply_congr (SampleArray.sameValues_reread l.array)

end Lut3D

end CommonLut
