import CommonLut.Proofs.Lookup.BreakpointSearch
import CommonLut.Proofs.Lookup.HalfDomain

/-!
# Index maps tabulated over the half values

A tabulated map reads a table with one row for each half pattern. At a half value the row is what
the search gives, so the table loses nothing there. Where the map is constant around a position, the
two rows that interpolation reads are the same, and the result is that constant. Positions so large
that their nearest half pattern is an infinity read the row of that infinity, which holds the
infinity itself.

Main statements: `IndexMap.apply_withCache_toFloat32`, `IndexMap.apply_withCache_clamped`.
-/

namespace CommonLut

open Binary Machine HalfDomain
open Scalar (placed_double)

/-! ## §1 The table -/

/-- A single column of values that are computed row by row. -/
theorem SampleArray.sample_column {f : Nat → Float} {n k : Nat} (hk : k < n) :
    ({ dims := [n, 1], values := ((List.range n).map f).toArray } : SampleArray Float).sample k 0 =
      narrow (f k) := by
  have hcolumns : ({ dims := [n, 1], values := ((List.range n).map f).toArray } :
      SampleArray Float).columns = 1 := rfl
  have hrows : ({ dims := [n, 1], values := ((List.range n).map f).toArray } :
      SampleArray Float).rows = n := by
    rw [rows, hcolumns, if_neg one_ne_zero, Nat.div_one, size, List.size_toArray, List.length_map,
      List.length_range]
  -- The row is in range, and of a single column every channel is the first.
  unfold sample clampRow channelColumn
  rw [hrows, hcolumns, if_neg (by omega), Int.toNat_natCast, Nat.min_eq_left (by omega),
    Nat.mul_one, Nat.sub_self, Nat.min_zero, Nat.add_zero, flat]
  simp [hk]

/-- Such a column is accepted as a table. -/
theorem SampleArray.table_column {f : Nat → Float} {n : Nat} (hn : 0 < n)
    (hbound : n < Text.sizeBound) :
    table [n, 1] ((List.range n).map f).toArray =
      .ok { dims := [n, 1], values := ((List.range n).map f).toArray } := by
  have hdims : [n, 1].contains 0 = false := by
    simp [hn.ne]
  have hsize : ((List.range n).map f).toArray.size = n := by
    rw [List.size_toArray, List.length_map, List.length_range]
  have hproduct : [n, 1].foldl (· * ·) 1 = n := by
    simp
  unfold table check
  simp only [countedDims, columns, size, hdims, hsize, hproduct, List.getLast?_cons_cons,
    List.getLast?_singleton, Option.getD_some, Nat.mod_one]
  rw [if_neg Bool.false_ne_true, if_neg (by omega), if_neg (by omega), if_neg (by omega)]

namespace IndexMap

variable {m : IndexMap Float}

/-- A row of the table holds what the search gives for its pattern. -/
theorem sample_withCache (h : UInt16) {table : SampleArray Float}
    (htable : m.withCache.cache = some table) :
    table.sample h.toNat 0 = m.search (Half.toFloat32 h) := by
  obtain rfl := Option.some.inj htable
  refine (SampleArray.sample_column h.toNat_lt).trans ((narrow_widen _).trans ?_)
  rw [UInt16.ofNat_toNat]

theorem exists_table (m : IndexMap Float) : ∃ table, m.withCache.cache = some table ∧
    SampleArray.table [65536, 1] table.values = .ok table :=
  ⟨_, rfl, SampleArray.table_column (by decide) (by decide)⟩

theorem apply_withCache {table : SampleArray Float} (htable : m.withCache.cache = some table)
    (x : Float32) : m.withCache.apply x = table.halfInterpolated x 0 := by
  rw [apply, htable]

/-! ## §2 At the half values -/

/-- What is no number reads the row of a pattern that is none either. -/
theorem halfInterpolated_of_isNaN {x : Float32} (hx : x.isNaN = true) {table : SampleArray Float}
    (htable : m.withCache.cache = some table) : table.halfInterpolated x 0 = m.search x := by
  have hrow := sample_withCache 31745 htable
  have hnan : (Half.toFloat32 31745).isNaN = true := by decide
  rw [Single.eq_of_isNaN hnan hx] at hrow
  rw [SampleArray.halfInterpolated, if_pos hx]
  exact hrow

/-- The table is one that arrays accept, and a tabulated map gives what the search gives at every
half value, finite or not, and for what is no number. -/
theorem apply_withCache_toFloat32 (m : IndexMap Float) :
    (∃ table, m.withCache.cache = some table ∧
      SampleArray.table [65536, 1] table.values = .ok table) ∧
    ∀ h : UInt16, m.withCache.apply (Half.toFloat32 h) = m.search (Half.toFloat32 h) := by
  obtain ⟨table, htable, haccepted⟩ := m.exists_table
  refine ⟨⟨table, htable, haccepted⟩, fun h => ?_⟩
  rw [apply_withCache htable]
  cases hnan : (Half.toFloat32 h).isNaN with
  | true => exact halfInterpolated_of_isNaN hnan htable
  | false => rw [table.halfInterpolated_toFloat32 0 hnan, sample_withCache h htable]

/-! ## §3 Where the map is constant -/

section
variable {first last : Float × Float} {x y : Float32}

theorem search_before (hfirst : m.points.head? = some first) (hlast : m.points.getLast? = some last)
    (hx : x.isFinite = true) (hxy : x ≤ y) (hy : y.isNaN = false) (h : widen y ≤ first.1) :
    m.search x = narrow first.2 := by
  have hnumber := Single.isNaN_of_isFinite hx
  refine search_of_interpolate hx (interpolate_before hfirst hlast ?_)
  exact placed_double.le_trans (isNaN_widen hnumber) (isNaN_widen hy) (isNaN_of_le h).2
    ((widen_le_iff hnumber hy).mpr hxy) h

theorem search_after (hfirst : m.points.head? = some first) (hlast : m.points.getLast? = some last)
    (hx : x.isFinite = true) (hyx : y ≤ x) (hy : y.isNaN = false) (hlow : first.1 < widen y)
    (hhigh : last.1 ≤ widen y) : m.search x = narrow last.2 := by
  have hnumber := Single.isNaN_of_isFinite hx
  have hwide := (widen_le_iff hy hnumber).mpr hyx
  obtain ⟨hfirstnumber, hynumber⟩ := isNaN_of_lt hlow
  refine search_of_interpolate hx (interpolate_after hfirst hlast ?_ ?_)
  · exact (placed_double.not_le (isNaN_widen hnumber) hfirstnumber).mpr
      (placed_double.lt_of_lt_of_le hfirstnumber hynumber (isNaN_widen hnumber) hlow hwide)
  · exact placed_double.le_trans (isNaN_of_le hhigh).1 hynumber (isNaN_widen hnumber) hhigh hwide

/-- Interpolation between rows that hold the same finite value gives that value. -/
theorem apply_withCache_beq {v : Float32} (hx : x.isFinite = true)
    (hbase : (Half.toFloat32 (Half.ofFloat32 x)).isFinite = true) (hv : v.isFinite = true)
    (hrow : m.search (Half.toFloat32 (Half.ofFloat32 x)) = v)
    (hnext : (Half.toFloat32 (Half.ofFloat32 x) == x) = false →
      (Half.toFloat32 (neighborOf x)).isFinite = true →
      m.search (Half.toFloat32 (neighborOf x)) = v) :
    (m.withCache.apply x == v) = true := by
  obtain ⟨table, htable, -⟩ := m.exists_table
  have hsame : (v == v) = true := (Single.beq_iff_value hv hv).mpr rfl
  rw [apply_withCache htable]
  cases heq : Half.toFloat32 (Half.ofFloat32 x) == x with
  | true =>
    rw [table.halfInterpolated_of_beq 0 hx hbase heq, sample_withCache _ htable, hrow]
    exact hsame
  | false =>
    rw [table.halfInterpolated_of_ne 0 hx hbase heq, sample_withCache _ htable,
      sample_withCache _ htable, hrow]
    rcases (between hx hbase heq).blends with hinf | ⟨hahead, hpos, hhalf, -⟩
    · -- Next to an infinity only the nearest row is read.
      rw [if_pos hinf]
      exact hsame
    · rw [if_neg (by rw [Single.isInf_of_isFinite hahead]; exact Bool.false_ne_true),
        hnext heq hahead]
      exact Single.blend_self hv (Single.isFinite_of_le isFinite_zero isFinite_half hpos hhalf)

/-- Beyond the half values the row of an infinity is read, which holds that infinity. -/
theorem apply_withCache_infinite {s : Bool} (hx : x.isFinite = true)
    (h : 65520 ≤ signed s (Single.value x)) :
    m.withCache.apply x = Half.toFloat32 (if s then 0xfc00 else 0x7c00) := by
  obtain ⟨table, htable, -⟩ := m.exists_table
  have hpattern := Half.ofFloat32_of_le_signed hx h
  have hbits : Half.ofFloat32 x = if s then 0xfc00 else 0x7c00 := by
    rw [← UInt16.toNat_inj, hpattern]
    cases s <;> rfl
  have hinfinite := Single.isInf_of_decode (Half.decode_toFloat32_infinity hpattern)
  rw [apply_withCache htable, table.halfInterpolated_of_isInf 0 hx hinfinite,
    sample_withCache _ htable, hbits]
  -- The search gives back what is not finite.
  cases s
  · exact if_neg (by decide)
  · exact if_neg (by decide)

/-- The nearest half value is on the same side of a half value as the position. -/
theorem le_base {h : UInt16} (hx : x.isFinite = true)
    (hbase : (Half.toFloat32 (Half.ofFloat32 x)).isFinite = true)
    (hh : (Half.toFloat32 h).isFinite = true) :
    (Half.toFloat32 h ≤ x → Half.toFloat32 h ≤ Half.toFloat32 (Half.ofFloat32 x)) ∧
      (x ≤ Half.toFloat32 h → Half.toFloat32 (Half.ofFloat32 x) ≤ Half.toFloat32 h) := by
  have hnumber := Single.isNaN_of_isFinite hh
  cases heq : Half.toFloat32 (Half.ofFloat32 x) == x with
  | true =>
    rw [Single.beq_iff_value hbase hx] at heq
    rw [Single.le_iff_value hh hx, Single.le_iff_value hh hbase, Single.le_iff_value hx hh,
      Single.le_iff_value hbase hh, heq]
    exact ⟨id, id⟩
  | false =>
    have hbrackets := (between hx hbase heq).brackets
    exact ⟨fun hle => (hbrackets.le_of_le hnumber hle).1,
      fun hle => (hbrackets.ge_of_ge hnumber hle).1⟩

theorem value_range : Single.value 65520.0 = 65520 ∧ Single.value (-65520.0) = -65520 := by
  have hdecode : single.decode (65520.0 : Float32).toBits.toNat = .finite false 16773120 (-8) := by
    decide
  have hdecode' : single.decode (-65520.0 : Float32).toBits.toNat = .finite true 16773120 (-8) := by
    decide
  rw [Single.value, Single.value, hdecode, hdecode']
  norm_num [Datum.value, signed]

/-- After the breakpoints, as far as half values go, the table gives the last output. -/
theorem apply_withCache_after {h : UInt16} (hfirst : m.points.head? = some first)
    (hlast : m.points.getLast? = some last) (hx : x.isFinite = true)
    (hh : (Half.toFloat32 h).isFinite = true) (hle : Half.toFloat32 h ≤ x)
    (hlow : first.1 < widen (Half.toFloat32 h)) (hhigh : last.1 ≤ widen (Half.toFloat32 h))
    (hv : (narrow last.2).isFinite = true) (hrange : Single.value x < 65520) :
    (m.withCache.apply x == narrow last.2) = true := by
  have hnumber := Single.isNaN_of_isFinite hh
  -- From below the position is bounded by a half value.
  have hbase : (Half.toFloat32 (Half.ofFloat32 x)).isFinite = true := by
    have hleast := (abs_lt.mp (Half.abs_value_toFloat32_lt hh)).1
    rw [Single.le_iff_value hh hx] at hle
    exact Half.isFinite_of_abs_lt hx (abs_lt.mpr ⟨hleast.trans_le hle, hrange⟩)
  refine apply_withCache_beq hx hbase hv ?_ fun hne hnext => ?_
  · exact search_after hfirst hlast hbase ((le_base hx hbase hh).1 hle) hnumber hlow hhigh
  · have hbrackets := (between hx hbase hne).brackets
    exact search_after hfirst hlast hnext (hbrackets.le_of_le hnumber hle).2 hnumber hlow hhigh

/-- Before the breakpoints it gives the first one. -/
theorem apply_withCache_before {h : UInt16} (hfirst : m.points.head? = some first)
    (hlast : m.points.getLast? = some last) (hx : x.isFinite = true)
    (hh : (Half.toFloat32 h).isFinite = true) (hle : x ≤ Half.toFloat32 h)
    (hlow : widen (Half.toFloat32 h) ≤ first.1) (hv : (narrow first.2).isFinite = true)
    (hrange : -65520 < Single.value x) : (m.withCache.apply x == narrow first.2) = true := by
  have hnumber := Single.isNaN_of_isFinite hh
  -- From above the position is bounded by a half value.
  have hbase : (Half.toFloat32 (Half.ofFloat32 x)).isFinite = true := by
    have hmost := (abs_lt.mp (Half.abs_value_toFloat32_lt hh)).2
    rw [Single.le_iff_value hx hh] at hle
    exact Half.isFinite_of_abs_lt hx (abs_lt.mpr ⟨hrange, hle.trans_lt hmost⟩)
  refine apply_withCache_beq hx hbase hv ?_ fun hne hnext => ?_
  · exact search_before hfirst hlast hbase ((le_base hx hbase hh).2 hle) hnumber hlow
  · have hbrackets := (between hx hbase hne).brackets
    exact search_before hfirst hlast hnext (hbrackets.ge_of_ge hnumber hle).2 hnumber hlow

/-- At and beyond a finite half value that is not inside the breakpoints, the search gives an end
output. The tabulated map gives it up to the position from which on the nearest half pattern is an
infinity, and that infinity from there on. A half value that equals both the first and the last
breakpoint counts as one before them. -/
theorem apply_withCache_clamped {h : UInt16} (hfirst : m.points.head? = some first)
    (hlast : m.points.getLast? = some last) (hx : x.isFinite = true)
    (hh : (Half.toFloat32 h).isFinite = true) :
    (Half.toFloat32 h ≤ x → first.1 < widen (Half.toFloat32 h) →
      last.1 ≤ widen (Half.toFloat32 h) → (narrow last.2).isFinite = true →
      m.search x = narrow last.2 ∧
        (x < 65520.0 → (m.withCache.apply x == narrow last.2) = true) ∧
        (65520.0 ≤ x → m.withCache.apply x = Half.toFloat32 0x7c00)) ∧
    (x ≤ Half.toFloat32 h → widen (Half.toFloat32 h) ≤ first.1 → (narrow first.2).isFinite = true →
      m.search x = narrow first.2 ∧
        (-65520.0 < x → (m.withCache.apply x == narrow first.2) = true) ∧
        (x ≤ -65520.0 → m.withCache.apply x = Half.toFloat32 0xfc00)) := by
  have hnumber := Single.isNaN_of_isFinite hh
  have hfinite : (65520.0 : Float32).isFinite = true := by decide
  have hfinite' : (-65520.0 : Float32).isFinite = true := by decide
  rw [Single.lt_iff_value hx hfinite, Single.le_iff_value hfinite hx,
    Single.lt_iff_value hfinite' hx, Single.le_iff_value hx hfinite', value_range.1, value_range.2]
  constructor
  · intro hle hlow hhigh hv
    refine ⟨search_after hfirst hlast hx hle hnumber hlow hhigh, fun hrange => ?_, fun hrange => ?_⟩
    · exact apply_withCache_after hfirst hlast hx hh hle hlow hhigh hv hrange
    · exact apply_withCache_infinite (s := false) hx hrange
  · intro hle hlow hv
    refine ⟨search_before hfirst hlast hx hle hnumber hlow, fun hrange => ?_, fun hrange => ?_⟩
    · exact apply_withCache_before hfirst hlast hx hh hle hlow hv hrange
    · exact apply_withCache_infinite (s := true) hx (le_neg.mpr hrange)

-- A ramp from 0 to 1, after its last breakpoint and before its first one.
theorem apply_withCache_clamped_ramp :
    let m : IndexMap Float := { dim := 2, points := [(0.0, 0.0), (1.0, 1.0)] }
    (m.search 2.5 = narrow 1.0 ∧ (m.withCache.apply 2.5 == narrow 1.0) = true ∧
        m.withCache.apply 65535.0 = Half.toFloat32 0x7c00) ∧
      (m.search (-2.5) = narrow 0.0 ∧ (m.withCache.apply (-2.5) == narrow 0.0) = true ∧
        m.withCache.apply (-65535.0) = Half.toFloat32 0xfc00) := by
  intro m
  obtain ⟨hafter, -⟩ := apply_withCache_clamped (m := m) (x := 2.5) (h := 0x4100) rfl rfl
    (by decide) (by decide)
  obtain ⟨hbeyond, -⟩ := apply_withCache_clamped (m := m) (x := 65535.0) (h := 0x4100) rfl rfl
    (by decide) (by decide)
  obtain ⟨-, hbefore⟩ := apply_withCache_clamped (m := m) (x := -2.5) (h := 0xc100) rfl rfl
    (by decide) (by decide)
  obtain ⟨-, hbeyond'⟩ := apply_withCache_clamped (m := m) (x := -65535.0) (h := 0xc100) rfl rfl
    (by decide) (by decide)
  obtain ⟨hsearch, hvalue, -⟩ := hafter (by decide) (by decide) (by decide) (by decide)
  obtain ⟨hsearch', hvalue', -⟩ := hbefore (by decide) (by decide) (by decide)
  obtain ⟨-, -, hinfinite⟩ := hbeyond (by decide) (by decide) (by decide) (by decide)
  obtain ⟨-, -, hinfinite'⟩ := hbeyond' (by decide) (by decide) (by decide)
  exact ⟨⟨hsearch, hvalue (by decide), hinfinite (by decide)⟩,
    ⟨hsearch', hvalue' (by decide), hinfinite' (by decide)⟩⟩

-- After the breakpoints the search stays at the last output. The table gives an infinity far from
-- them, and a blend with the first output right behind breakpoints that all coincide.
theorem exists_unclamped : ∃ ramp jump : IndexMap Float,
    (ramp.points.getLast? = some (1.0, 1.0) ∧ (1.0 : Float) ≤ widen (Half.toFloat32 0x7bff) ∧
      Half.toFloat32 0x7bff ≤ 65535.0 ∧ ramp.search 65535.0 = (1.0 : Float32) ∧
      (ramp.withCache.apply 65535.0 == 1.0) = false) ∧
    (jump.points.getLast? = some (1.0, 1.0) ∧ (1.0 : Float) ≤ widen (Half.toFloat32 0x3c00) ∧
      Half.toFloat32 0x3c00 ≤ 1.0001220703125 ∧ jump.search 1.0001220703125 = (1.0 : Float32) ∧
      (jump.withCache.apply 1.0001220703125 == 1.0) = false) := by
  refine ⟨{ dim := 2, points := [(0.0, 0.0), (1.0, 1.0)] },
    { dim := 2, points := [(1.0, 0.0), (1.0, 1.0)] },
    ⟨rfl, by decide, by decide, by decide, ?_⟩, ⟨rfl, by decide, by decide, by decide, ?_⟩⟩
  · have hvalue : 65520 ≤ signed false (Single.value 65535.0) := by
      have hfinite : (65535.0 : Float32).isFinite = true := by decide
      rw [signed, if_neg Bool.false_ne_true, ← value_range.1]
      exact (Single.le_iff_value (by decide) hfinite).mp (by decide)
    rw [apply_withCache_infinite (by decide) hvalue]
    decide
  · obtain ⟨table, htable, -⟩ :=
      exists_table { dim := 2, points := [((1.0 : Float), (0.0 : Float)), (1.0, 1.0)] }
    rw [apply_withCache htable, table.halfInterpolated_of_ne 0 (by decide) (by decide) (by decide),
      sample_withCache _ htable, sample_withCache _ htable]
    decide

end

end IndexMap

end CommonLut
