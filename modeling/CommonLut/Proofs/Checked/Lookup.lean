import Mathlib
import CommonLut.Lookup.IndexMap
import CommonLut.Lookup.Lattice
import CommonLut.Proofs.Binary.Magnitude

/-!
# Lookups with checked operations

The lookups once more, as a machine with sixty-four bits carries them out that stops where an index
or a slice is out of range and where the result of an integer operation does not fit. On tables that
fit into memory it never stops: indices are clamped before they are used, and the positions that
they are computed from are not larger than the table.

Main definitions: the operations of the namespace `Checked`, `SampleArray.sample?`,
`SampleArray.linear?`, `SampleArray.cubic?`, `SampleArray.halfInterpolated?`, `SampleArray.corner?`,
`SampleArray.trilinear?`, `SampleArray.tetrahedral?`, `IndexMap.applied?`.
Main statements: that each of these gives what the lookup without checks gives.
-/

namespace CommonLut

/-! ## §1 Checked operations -/

namespace Checked

/-- A size, if it fits. -/
def size? (n : Nat) : Option Nat := if n < Text.sizeBound then some n else none

/-- The difference of two sizes, if it is one. -/
def subSize? (m n : Nat) : Option Nat := if n ≤ m then some (m - n) else none

/-- A signed integer, if it fits. -/
def signed? (i : Int) : Option Int := if -2 ^ 63 ≤ i ∧ i < 2 ^ 63 then some i else none

/-- The signed integer with the bits of a size. -/
def toSigned (n : Nat) : Int := if n < 2 ^ 63 then n else n - 2 ^ 64

/-- An integer clamped to an interval, which has to be one. -/
def clamp? (low high i : Int) : Option Int :=
  if low ≤ high then some (max low (min i high)) else none

/-- An integer clamped to the indices below a size. -/
def clampIndex? (count : Nat) (i : Int) : Option Nat := do
  let last ← signed? (toSigned count - 1)
  return (← clamp? 0 last i).toNat

/-- The pattern after another one, if there is one. -/
def nextPattern? (bits : UInt16) : Option UInt16 :=
  if bits.toNat + 1 < 2 ^ 16 then some (bits + 1) else none

/-- The pattern before another one, if there is one. -/
def previousPattern? (bits : UInt16) : Option UInt16 :=
  if 0 < bits.toNat then some (bits - 1) else none

/-- The elements of a list from one index to another, if both are in range. -/
def slice? {α : Type} (start stop : Nat) (xs : List α) : Option (List α) :=
  if start ≤ stop ∧ stop ≤ xs.length then some ((xs.take stop).drop start) else none

theorem size?_eq {n : Nat} (h : n < Text.sizeBound) : size? n = some n := if_pos h

theorem subSize?_eq {m n : Nat} (h : n ≤ m) : subSize? m n = some (m - n) := if_pos h

theorem signed?_eq {i : Int} (h : -2 ^ 63 ≤ i) (h' : i < 2 ^ 63) : signed? i = some i :=
  if_pos ⟨h, h'⟩

theorem slice?_eq {α : Type} {start stop : Nat} {xs : List α} (h : start ≤ stop)
    (h' : stop ≤ xs.length) : slice? start stop xs = some ((xs.take stop).drop start) :=
  if_pos ⟨h, h'⟩

theorem clampIndex?_eq {count : Nat} (hpos : 0 < count) (hlt : count < 2 ^ 63) (i : Int) :
    clampIndex? count i = some (min i.toNat (count - 1)) := by
  have hsigned : toSigned count = count := if_pos hlt
  have hlast : signed? (toSigned count - 1) = some ((count : Int) - 1) := by
    rw [hsigned]
    exact signed?_eq (by omega) (by omega)
  have hclamp : clamp? 0 ((count : Int) - 1) i = some (max 0 (min i (count - 1))) :=
    if_pos (by omega)
  unfold clampIndex?
  rw [hlast, Option.bind_eq_bind, Option.bind_some, hclamp, Option.bind_some]
  congr 1
  omega

end Checked

open Checked Binary Machine Single HalfDomain

/-- One more than the largest number of samples that fits into memory, at eight bytes each. -/
def Checked.sampleBound : Nat := 2 ^ 60

/-! ## §2 Tables -/

namespace SampleArray

section

variable {ω : Type}

theorem rows_mul_columns_le (a : SampleArray ω) : a.rows * a.columns ≤ a.size := by
  unfold rows
  split
  · rw [Nat.zero_mul]
    exact Nat.zero_le _
  · exact Nat.div_mul_le_self _ _

theorem rows_le_size (a : SampleArray ω) : a.rows ≤ a.size := by
  unfold rows
  split
  · exact Nat.zero_le _
  · exact Nat.div_le_self _ _

/-- `SampleArray.channelColumn` with checks. -/
def channelColumn? (a : SampleArray ω) (channel : Nat) : Option Nat :=
  if a.columns = 1 then some 0 else (subSize? a.columns 1).map (min channel)

theorem channelColumn?_eq {a : SampleArray ω} (hcolumns : a.columns ≠ 0) (channel : Nat) :
    a.channelColumn? channel = some (a.channelColumn channel) := by
  unfold channelColumn? channelColumn
  split
  · next h => rw [h, Nat.sub_self, Nat.min_zero]
  · rw [subSize?_eq (Nat.pos_of_ne_zero hcolumns), Option.map_some]

/-- A row index is not larger than the number of rows. -/
theorem below_rowIndex {a : SampleArray ω} (ha : a.size < sampleBound) (position : Float32) :
    Below 61 (a.rowIndex position) := by
  have hrows : a.rows - 1 < 2 ^ 60 := by
    have := a.rows_le_size
    change a.size < 2 ^ 60 at ha
    omega
  have hlast : Below 61 (Scalar.ofNat (a.rows - 1)) := below_ofNat (by decide) hrows
  exact below_atMost (by decide) hlast (atLeast_zero _)

theorem toInt_rowIndex {a : SampleArray ω} (ha : a.size < sampleBound) (position : Float32) :
    0 ≤ Scalar.toInt (Scalar.floor (a.rowIndex position)) ∧
      Scalar.toInt (Scalar.floor (a.rowIndex position)) < 2 ^ 61 :=
  toInt_of_below (by decide) (by decide)
    (below_floor (by decide) (by decide) (below_rowIndex ha position))

end

variable {ω : Type} [Precision ω Float32]

/-- `SampleArray.flat` with checks. -/
def flat? (a : SampleArray ω) (i : Nat) : Option Float32 := a.values[i]?.map narrow

/-- `SampleArray.sample` with checks. -/
def sample? (a : SampleArray ω) (row : Int) (channel : Nat) : Option Float32 :=
  if a.rows = 0 then some 0.0
  else do
    let row ← clampIndex? a.rows row
    let column ← a.channelColumn? channel
    a.flat? (← size? ((← size? (row * a.columns)) + column))

/-- `SampleArray.linear` with checks. -/
def linear? (a : SampleArray ω) (position : Float32) (channel : Nat) : Option Float32 := do
  let index := a.rowIndex position
  let lower := Scalar.floor index
  let t := index - lower
  let x ← a.sample? (Scalar.toInt lower) channel
  if t == 0.0 then return x
  return Scalar.blend x (← a.sample? (← signed? (Scalar.toInt lower + 1)) channel) t

/-- `SampleArray.cubic` with checks. -/
def cubic? (a : SampleArray ω) (position : Float32) (channel : Nat) : Option Float32 :=
  if a.rows < 3 then a.linear? position channel
  else do
    let index := a.rowIndex position
    let lower := Scalar.floor index
    let i := Scalar.toInt lower
    return catmullRom (← a.sample? (← signed? (i - 1)) channel) (← a.sample? i channel)
      (← a.sample? (← signed? (i + 1)) channel) (← a.sample? (← signed? (i + 2)) channel)
      (index - lower)

variable {a : SampleArray ω}

theorem flat?_eq {i : Nat} (h : i < a.size) : a.flat? i = some (a.flat i) := by
  have hbound : i < a.values.size := h
  have hvalue : a.values[i]? = some a.values[i] := Array.getElem?_eq_getElem hbound
  unfold flat? flat
  rw [hvalue]
  rfl

theorem sample?_eq (ha : a.size < sampleBound) (row : Int) (channel : Nat) :
    a.sample? row channel = some (a.sample row channel) := by
  unfold sample? sample
  by_cases hrows : a.rows = 0
  · rw [if_pos hrows, if_pos hrows]
  · have hcolumns : a.columns ≠ 0 := by
      intro h
      exact hrows (if_pos h)
    have hsize : Text.sizeBound = 2 ^ 64 := rfl
    have hbound : sampleBound = 2 ^ 60 := rfl
    have hrow : clampIndex? a.rows row = some (a.clampRow row) :=
      clampIndex?_eq (Nat.pos_of_ne_zero hrows) (by have := a.rows_le_size; omega) row
    -- The last column of the last row is a sample, and no index is beyond it.
    have hindex : a.clampRow row * a.columns + a.channelColumn channel < a.size := by
      have hlast : (a.clampRow row + 1) * a.columns ≤ a.rows * a.columns :=
        Nat.mul_le_mul_right _ (by unfold clampRow; omega)
      have hle := a.rows_mul_columns_le
      have hchannel : a.channelColumn channel < a.columns := by unfold channelColumn; omega
      rw [Nat.add_mul, Nat.one_mul] at hlast
      omega
    rw [if_neg hrows, if_neg hrows, hrow, channelColumn?_eq hcolumns]
    simp only [Option.bind_eq_bind, Option.bind_some]
    rw [size?_eq (by omega), Option.bind_some, size?_eq (by omega), Option.bind_some,
      flat?_eq hindex]

theorem linear?_eq (ha : a.size < sampleBound) (position : Float32) (channel : Nat) :
    a.linear? position channel = some (a.linear position channel) := by
  obtain ⟨hlow, hhigh⟩ := toInt_rowIndex ha position
  unfold linear? linear
  dsimp only
  rw [sample?_eq ha, signed?_eq (by omega) (by omega)]
  simp only [Option.bind_eq_bind, Option.bind_some, sample?_eq ha, Option.pure_def]
  split <;> rfl

theorem cubic?_eq (ha : a.size < sampleBound) (position : Float32) (channel : Nat) :
    a.cubic? position channel = some (a.cubic position channel) := by
  obtain ⟨hlow, hhigh⟩ := toInt_rowIndex ha position
  unfold cubic? cubic
  split
  · exact linear?_eq ha position channel
  · dsimp only
    rw [signed?_eq (by omega) (by omega), signed?_eq (by omega) (by omega),
      signed?_eq (by omega) (by omega)]
    simp only [Option.bind_eq_bind, Option.bind_some, sample?_eq ha, Option.pure_def]

end SampleArray

/-! ## §3 Tables over the half floats -/

namespace HalfDomain

/-- `HalfDomain.neighbor` with checks. -/
def neighbor? (bits : UInt16) (base : Float32) (upwards : Bool) : Option UInt16 :=
  if bits &&& 0x7fff == 0 then some (if upwards then 0x0001 else 0x8001)
  else if upwards == decide (0.0 < base) then nextPattern? bits
  else previousPattern? bits

theorem neighbor?_eq {bits : UInt16} (hbits : bits.toNat ≤ 0xfc00) (base : Float32)
    (upwards : Bool) : neighbor? bits base upwards = some (neighbor bits base upwards) := by
  unfold neighbor? neighbor
  split
  · rfl
  · next hnonzero =>
    split
    · exact if_pos (by omega)
    · refine if_pos (Nat.pos_of_ne_zero fun hzero => hnonzero ?_)
      rw [show bits = 0 from UInt16.toNat_inj.mp hzero]
      rfl

end HalfDomain

namespace SampleArray

variable {ω : Type} [Precision ω Float32]

/-- `SampleArray.halfInterpolated` with checks. -/
def halfInterpolated? (a : SampleArray ω) (position : Float32) (channel : Nat) : Option Float32 :=
  if position.isNaN then a.sample? nanRow channel
  else if position.isInf then
    a.sample? (if 0.0 < position then positiveInfinityRow else negativeInfinityRow) channel
  else do
    let bits := Half.ofFloat32 position
    let base := Half.toFloat32 bits
    let exact ← a.sample? bits.toNat channel
    let residual := position - base
    if base.isInf || residual == 0.0 then return exact
    let next ← neighbor? bits base (decide (0.0 < residual))
    let ahead := Half.toFloat32 next
    if ahead.isInf then return exact
    return Scalar.blend exact (← a.sample? next.toNat channel) (residual / (ahead - base))

theorem halfInterpolated?_eq {a : SampleArray ω} (ha : a.size < sampleBound)
    (position : Float32) (channel : Nat) :
    a.halfInterpolated? position channel = some (a.halfInterpolated position channel) := by
  unfold halfInterpolated? halfInterpolated
  cases hnan : position.isNaN with
  | true => exact sample?_eq ha _ channel
  | false =>
    have hbits := Half.toNat_ofFloat32_le hnan
    simp only [Bool.false_eq_true, if_false, sample?_eq ha, neighbor?_eq hbits,
      Option.bind_eq_bind, Option.bind_some, Option.pure_def]
    split
    · rfl
    · split
      · rfl
      · split <;> rfl

/-! ## §4 Lattices -/

/-- The number of samples of a lattice. -/
def latticeSize? (nr ng nb : Nat) : Option Nat := do
  let plane ← size? (nr * ng)
  let points ← size? (plane * nb)
  size? (points * 3)

/-- The index of the first sample at a lattice point, each axis clamped. -/
def cornerIndex? (nr ng nb : Nat) (r g b : Int) : Option Nat := do
  let r ← clampIndex? nr r
  let g ← clampIndex? ng g
  let b ← clampIndex? nb b
  let line ← size? ((← size? (r * ng)) + g)
  let point ← size? ((← size? (line * nb)) + b)
  size? (point * 3)

/-- `SampleArray.corner` with checks. -/
def corner? (a : SampleArray ω) (r g b : Int) : Option (Triple Float32) :=
  let (nr, ng, nb) := a.axes
  if nr = 0 ∨ ng = 0 ∨ nb = 0 then some (0.0, 0.0, 0.0)
  else do
    if a.size < (← latticeSize? nr ng nb) then return (0.0, 0.0, 0.0)
    let i ← cornerIndex? nr ng nb r g b
    return (← a.flat? i, ← a.flat? (← size? (i + 1)), ← a.flat? (← size? (i + 2)))

/-- `SampleArray.trilinear` with checks. -/
def trilinear? (a : SampleArray ω) (p : Triple Float32) : Option (Triple Float32) := do
  let (nr, ng, nb) := a.axes
  let (r, fr) := cell nr p.1
  let (g, fg) := cell ng p.2.1
  let (b, fb) := cell nb p.2.2
  let edge (i j : Int) : Option (Triple Float32) := do
    let ri ← signed? (r + i)
    let gj ← signed? (g + j)
    return blendColors (← a.corner? ri gj b) (← a.corner? ri gj (← signed? (b + 1))) fb
  let face (i : Int) : Option (Triple Float32) := do
    return blendColors (← edge i 0) (← edge i 1) fg
  return blendColors (← face 0) (← face 1) fr

/-- `SampleArray.tetrahedral` with checks. -/
def tetrahedral? (a : SampleArray ω) (p : Triple Float32) : Option (Triple Float32) := do
  let (nr, ng, nb) := a.axes
  let (r, fr) := cell nr p.1
  let (g, fg) := cell ng p.2.1
  let (b, fb) := cell nb p.2.2
  let c (i j k : Int) : Option (Triple Float32) := do
    a.corner? (← signed? (r + i)) (← signed? (g + j)) (← signed? (b + k))
  let first ← c 0 0 0
  let last ← c 1 1 1
  if fg < fr then
    if fb < fg then return walk first (← c 1 0 0) (← c 1 1 0) last fr fg fb
    else if fb < fr then return walk first (← c 1 0 0) (← c 1 0 1) last fr fb fg
    else return walk first (← c 0 0 1) (← c 1 0 1) last fb fr fg
  else if fb < fg then
    if fb < fr then return walk first (← c 0 1 0) (← c 1 1 0) last fg fr fb
    else return walk first (← c 0 1 0) (← c 0 1 1) last fg fb fr
  else return walk first (← c 0 0 1) (← c 0 1 1) last fb fg fr

/-- The samples of an array are the points of a lattice, and fit into memory. -/
structure IsLattice {ω : Type} (a : SampleArray ω) : Prop where
  size_lt : a.size < sampleBound
  size_eq : a.axes.1 * a.axes.2.1 * a.axes.2.2 * 3 = a.size
  pos : 0 < a.axes.1 ∧ 0 < a.axes.2.1 ∧ 0 < a.axes.2.2

/-- The numbers of points on the axes multiply to a third of the samples. -/
theorem IsLattice.points_lt {ω : Type} {a : SampleArray ω} (ha : a.IsLattice) :
    a.axes.1 * a.axes.2.1 * a.axes.2.2 < 2 ^ 59 ∧ a.axes.1 * a.axes.2.1 < 2 ^ 59 ∧
      a.axes.1 < 2 ^ 59 ∧ a.axes.2.1 < 2 ^ 59 ∧ a.axes.2.2 < 2 ^ 59 := by
  obtain ⟨hlt, hsize, hr, hg, hb⟩ := ha
  have hproduct : a.axes.1 * a.axes.2.1 * a.axes.2.2 < 2 ^ 59 := by
    have hbound : sampleBound = 2 ^ 60 := rfl
    omega
  have hplane : a.axes.1 * a.axes.2.1 ≤ a.axes.1 * a.axes.2.1 * a.axes.2.2 :=
    Nat.le_mul_of_pos_right _ hb
  have hblue : a.axes.2.2 ≤ a.axes.1 * a.axes.2.1 * a.axes.2.2 :=
    Nat.le_mul_of_pos_left _ (Nat.mul_pos hr hg)
  have hred : a.axes.1 ≤ a.axes.1 * a.axes.2.1 := Nat.le_mul_of_pos_right _ hg
  have hgreen : a.axes.2.1 ≤ a.axes.1 * a.axes.2.1 := Nat.le_mul_of_pos_left _ hr
  omega

theorem clampIndex?_point {points : Nat} (hpos : 0 < points) (hlt : points < 2 ^ 59) (i : Int) :
    clampIndex? points i = some (clampPoint points i) :=
  clampIndex?_eq hpos (by omega) i

theorem clampPoint_lt {points : Nat} (hpos : 0 < points) (i : Int) :
    clampPoint points i < points := by
  unfold clampPoint
  omega

/-- An index in two dimensions is below the product of the dimensions. -/
theorem mul_add_lt {m n i j : Nat} (hi : i < m) (hj : j < n) : i * n + j < m * n := by
  have hrow : (i + 1) * n ≤ m * n := Nat.mul_le_mul_right n hi
  rw [Nat.add_mul, Nat.one_mul] at hrow
  omega

theorem toInt_cell {points : Nat} (hpoints : points < 2 ^ 59) (x : Float32) :
    0 ≤ (cell points x).1 ∧ (cell points x).1 < 2 ^ 62 := by
  have hlast : Below 60 (Scalar.ofNat (points - 1)) := below_ofNat (by decide) (by omega)
  have hplace : Below (1 + 60 + 1) (axisPlace points x) :=
    below_mul (by decide) (below_unitClamp x) hlast
  exact toInt_of_below (by decide) (by decide)
    (below_floor (by decide) (by decide) (hplace.mono (by decide)))

/-- The points of a cell have signed indices. -/
theorem signed?_cell {points : Nat} (hpoints : points < 2 ^ 59) (x : Float32) :
    ∃ i t, cell points x = (i, t) ∧ signed? (i + 0) = some (i + 0) ∧
      signed? (i + 1) = some (i + 1) := by
  obtain ⟨hlow, hhigh⟩ := toInt_cell hpoints x
  exact ⟨(cell points x).1, (cell points x).2, rfl, signed?_eq (by omega) (by omega),
    signed?_eq (by omega) (by omega)⟩

variable {a : SampleArray ω}

theorem latticeSize?_eq {nr ng nb : Nat} (hplane : nr * ng < 2 ^ 59)
    (hproduct : nr * ng * nb < 2 ^ 59) : latticeSize? nr ng nb = some (nr * ng * nb * 3) := by
  have hbound : Text.sizeBound = 2 ^ 64 := rfl
  unfold latticeSize?
  simp only [Option.bind_eq_bind]
  rw [size?_eq (by omega), Option.bind_some, size?_eq (by omega), Option.bind_some,
    size?_eq (by omega)]

theorem cornerIndex?_eq {nr ng nb : Nat} (hr : 0 < nr) (hg : 0 < ng) (hb : 0 < nb)
    (hproduct : nr * ng * nb < 2 ^ 59) (hplane : nr * ng < 2 ^ 59) (hred : nr < 2 ^ 59)
    (hgreen : ng < 2 ^ 59) (hblue : nb < 2 ^ 59) (r g b : Int) :
    cornerIndex? nr ng nb r g b =
        some (((clampPoint nr r * ng + clampPoint ng g) * nb + clampPoint nb b) * 3) ∧
      (clampPoint nr r * ng + clampPoint ng g) * nb + clampPoint nb b < nr * ng * nb := by
  have hline := mul_add_lt (clampPoint_lt hr r) (clampPoint_lt hg g)
  have hpoint := mul_add_lt hline (clampPoint_lt hb b)
  have hbound : Text.sizeBound = 2 ^ 64 := rfl
  refine ⟨?_, hpoint⟩
  unfold cornerIndex?
  simp only [clampIndex?_point hr hred, clampIndex?_point hg hgreen, clampIndex?_point hb hblue,
    Option.bind_eq_bind, Option.bind_some]
  rw [size?_eq (by omega), Option.bind_some, size?_eq (by omega), Option.bind_some,
    size?_eq (by omega), Option.bind_some, size?_eq (by omega), Option.bind_some,
    size?_eq (by omega)]

theorem corner?_eq (ha : a.IsLattice) (r g b : Int) : a.corner? r g b = some (a.corner r g b) := by
  obtain ⟨⟨nr, ng, nb⟩, haxes⟩ : ∃ axes, a.axes = axes := ⟨_, rfl⟩
  obtain ⟨hproduct, hplane, hred, hgreen, hblue⟩ := ha.points_lt
  obtain ⟨-, hsize, hr, hg, hb⟩ := ha
  rw [haxes] at hproduct hplane hred hgreen hblue hsize hr hg hb
  dsimp only at hproduct hplane hred hgreen hblue hsize hr hg hb
  obtain ⟨hindex, hlt⟩ :=
    cornerIndex?_eq hr hg hb hproduct hplane hred hgreen hblue r g b
  have hbound : Text.sizeBound = 2 ^ 64 := rfl
  unfold corner? corner
  simp only [haxes, latticeSize?_eq hplane hproduct, hindex, Option.bind_eq_bind, Option.bind_some]
  generalize (clampPoint nr r * ng + clampPoint ng g) * nb + clampPoint nb b = point at hlt ⊢
  rw [if_neg (by omega), if_neg (by omega), if_neg (by omega), flat?_eq (by omega),
    size?_eq (by omega), size?_eq (by omega)]
  simp only [Option.bind_some]
  rw [flat?_eq (by omega), flat?_eq (by omega)]
  rfl

-- The machine stops at a lattice with more points than it can count.
example : SampleArray.corner? (ω := Float) { dims := [2 ^ 40, 2 ^ 40, 1, 3] } 0 0 0 = none := rfl

theorem trilinear?_eq (ha : a.IsLattice) (p : Triple Float32) :
    a.trilinear? p = some (a.trilinear p) := by
  obtain ⟨⟨nr, ng, nb⟩, haxes⟩ : ∃ axes, a.axes = axes := ⟨_, rfl⟩
  obtain ⟨-, -, hred, hgreen, hblue⟩ := ha.points_lt
  rw [haxes] at hred hgreen hblue
  obtain ⟨r, fr, hr, hr₀, hr₁⟩ := signed?_cell hred p.1
  obtain ⟨g, fg, hg, hg₀, hg₁⟩ := signed?_cell hgreen p.2.1
  obtain ⟨b, fb, hb, -, hb₁⟩ := signed?_cell hblue p.2.2
  unfold trilinear? trilinear
  simp only [haxes, hr, hg, hb, hr₀, hr₁, hg₀, hg₁, hb₁, corner?_eq ha, Option.bind_eq_bind,
    Option.bind_some, Option.pure_def]

theorem tetrahedral?_eq (ha : a.IsLattice) (p : Triple Float32) :
    a.tetrahedral? p = some (a.tetrahedral p) := by
  obtain ⟨⟨nr, ng, nb⟩, haxes⟩ : ∃ axes, a.axes = axes := ⟨_, rfl⟩
  obtain ⟨-, -, hred, hgreen, hblue⟩ := ha.points_lt
  rw [haxes] at hred hgreen hblue
  obtain ⟨r, fr, hr, hr₀, hr₁⟩ := signed?_cell hred p.1
  obtain ⟨g, fg, hg, hg₀, hg₁⟩ := signed?_cell hgreen p.2.1
  obtain ⟨b, fb, hb, hb₀, hb₁⟩ := signed?_cell hblue p.2.2
  unfold tetrahedral? tetrahedral
  simp only [haxes, hr, hg, hb, hr₀, hr₁, hg₀, hg₁, hb₀, hb₁, corner?_eq ha, Option.bind_eq_bind,
    Option.bind_some, Option.pure_def]
  -- Both choose the tetrahedron by the same comparisons.
  split <;> split <;> try split
  all_goals rfl

end SampleArray

/-! ## §5 Index maps -/

namespace IndexMap

/-- The value between two of the breakpoints from an index on, the first such pair counting; `steps`
pairs are left. -/
def scan? (inputs outputs : List Float) (x : Float) : (steps i : Nat) → Option (Option Float)
  | 0, _ => some none
  | steps + 1, i => do
    let x₀ ← inputs[i]?
    let x₁ ← inputs[← size? (i + 1)]?
    if x₀ ≤ x ∧ x < x₁ then
      let y₀ ← outputs[i]?
      let y₁ ← outputs[i + 1]?
      return some (y₀ + (y₁ - y₀) * ((x - x₀) / (x₁ - x₀)))
    scan? inputs outputs x steps (i + 1)

/-- `IndexMap.search` with checks. -/
def search? (m : IndexMap Float) (x : Float32) : Option Float32 :=
  let inputs := m.points.map Prod.fst
  let outputs := m.points.map Prod.snd
  if !Scalar.isFinite x ∨ inputs.length = 0 then some x
  else do
    let last ← subSize? inputs.length 1
    if widen x ≤ (← inputs[0]?) then return narrow (← outputs[0]?)
    if (← inputs[last]?) ≤ widen x then return narrow (← outputs[last]?)
    match ← scan? inputs outputs (widen x) last 0 with
    | some y => return narrow y
    | none => return narrow (← outputs[last]?)

/-- `IndexMap.apply` with checks. -/
def applied? (m : IndexMap Float) (x : Float32) : Option Float32 :=
  match m.cache with
  | some table => table.halfInterpolated? x 0
  | none => m.search? x

/-- The breakpoints and the table of a map fit into memory. -/
structure Fits (m : IndexMap Float) : Prop where
  points : m.points.length < sampleBound
  cache : ∀ table, m.cache = some table → table.size < sampleBound

theorem scan?_eq {points : List (Float × Float)} (hpoints : points.length < sampleBound) (x : Float)
    {steps i : Nat} (h : i + steps + 1 = points.length) :
    scan? (points.map Prod.fst) (points.map Prod.snd) x steps i =
      some (between? x (points.drop i)) := by
  have hbound : sampleBound = 2 ^ 60 := rfl
  have hsize : Text.sizeBound = 2 ^ 64 := rfl
  -- Induction on the steps that are left; the points before `i` have been passed.
  induction steps generalizing i with
  | zero =>
    have hlast : points.drop i = [points[i]] := by
      rw [List.drop_eq_getElem_cons (by omega), List.drop_eq_nil_of_le (by omega)]
    rw [hlast]
    rfl
  | succ steps ih =>
    have hpair : points.drop i = points[i] :: points[i + 1] :: points.drop (i + 2) := by
      rw [List.drop_eq_getElem_cons (by omega), List.drop_eq_getElem_cons (by omega)]
    have hrest : points[i + 1] :: points.drop (i + 2) = points.drop (i + 1) :=
      (List.drop_eq_getElem_cons (by omega)).symm
    have hnext := ih (i := i + 1) (by omega)
    rw [hpair, between?, hrest, scan?, size?_eq (by omega)]
    simp only [List.getElem?_map, List.getElem?_eq_getElem (show i < points.length by omega),
      List.getElem?_eq_getElem (show i + 1 < points.length by omega), Option.map_some,
      Option.bind_eq_bind, Option.bind_some, Option.pure_def, hnext]
    split <;> rfl

theorem search?_eq {m : IndexMap Float} (hm : m.Fits) (x : Float32) :
    m.search? x = some (m.search x) := by
  unfold search? search
  dsimp only
  rw [List.length_map]
  by_cases hfinite : Scalar.isFinite x = true
  case neg => rw [if_pos (.inl (by simpa using hfinite)), if_neg hfinite]
  rw [if_pos hfinite]
  rcases hpoints : m.points with - | ⟨p, ps⟩
  case nil => rw [if_pos (.inr rfl)]; rfl
  -- The first and the last breakpoint are the same if there is only one.
  have hlast : (p :: ps)[ps.length]? = some ((p :: ps).getLast (List.cons_ne_nil p ps)) := by
    rw [List.getLast_eq_getElem, List.getElem?_eq_getElem]
    rfl
  have hshort : (p :: ps).length < sampleBound := hpoints ▸ hm.points
  have hscan := scan?_eq hshort (widen x)
    (show 0 + ps.length + 1 = _ by rw [List.length_cons]; omega)
  rw [if_neg (by simp [hfinite]), subSize?_eq (by simp), List.length_cons, Nat.add_sub_cancel,
    Option.bind_eq_bind, Option.bind_some, hscan, interpolate,
    List.getLast?_eq_some_getLast (List.cons_ne_nil p ps)]
  simp only [List.getElem?_map, hlast, List.head?_cons, List.getElem?_cons_zero, Option.map_some,
    Option.bind_eq_bind, Option.bind_some, Option.pure_def, List.drop_zero]
  split
  · rfl
  · split
    · rfl
    · cases between? (widen x) (p :: ps) <;> rfl

theorem applied?_eq {m : IndexMap Float} (hm : m.Fits) (x : Float32) :
    m.applied? x = some (m.apply x) := by
  unfold applied? apply
  cases hcache : m.cache with
  | none => exact search?_eq hm x
  | some table => exact SampleArray.halfInterpolated?_eq (hm.cache table hcache) x 0

end IndexMap
end CommonLut
