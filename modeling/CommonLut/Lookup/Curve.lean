import CommonLut.Lookup.SampleArray

/-!
# One-dimensional lookup

A table of rows is read at a normalized position between zero, the first row, and one, the last
row. Positions outside resolve to the end rows.

Main definitions: `SampleArray.sample`, `SampleArray.linear`, `SampleArray.cubic`.
-/

namespace CommonLut.SampleArray

variable {ω ν : Type} [Scalar ν] [Precision ω ν]

/-! ## §1 Single samples -/

/-- The sample at an index of the flat array. -/
@[specialize] def flat (a : SampleArray ω) (i : Nat) : ν :=
  (a.values[i]?).elim 0.0 narrow

/-- The row nearest to an index. -/
def clampRow (a : SampleArray ω) (row : Int) : Nat :=
  min row.toNat (a.rows - 1)

/-- The column of a channel: a single column serves every channel, and the last one serves the
channels after it. -/
def channelColumn (a : SampleArray ω) (channel : Nat) : Nat :=
  min channel (a.columns - 1)

/-- The sample in a row and channel, the row clamped to the table; zero for an empty table. -/
@[specialize] def sample (a : SampleArray ω) (row : Int) (channel : Nat) : ν :=
  if a.rows = 0 then 0.0
  else a.flat (a.clampRow row * a.columns + a.channelColumn channel)

/-! ## §2 Interpolation -/

/-- The row index of a normalized position, as a number. -/
@[specialize] def rowIndex (a : SampleArray ω) (position : ν) : ν :=
  let last : ν := Scalar.ofNat (a.rows - 1)
  Scalar.atMost last (Scalar.atLeast 0.0 (position * last))

/-- Linear interpolation between the two rows around a position. -/
@[specialize] def linear (a : SampleArray ω) (position : ν) (channel : Nat) : ν :=
  let index := a.rowIndex position
  let lower := Scalar.floor index
  let t := index - lower
  let x := a.sample (Scalar.toInt lower) channel
  if t == 0.0 then x else Scalar.blend x (a.sample (Scalar.toInt lower + 1) channel) t

/-- The Catmull-Rom cubic through `p1` and `p2`, whose slopes there are those of the chords to the
neighbours. -/
@[specialize] def catmullRom (p0 p1 p2 p3 t : ν) : ν :=
  let t2 := t * t
  let t3 := t2 * t
  0.5 * (2.0 * p1
    + (p2 - p0) * t
    + (2.0 * p0 - 5.0 * p1 + 4.0 * p2 - p3) * t2
    + (3.0 * p1 - p0 - 3.0 * p2 + p3) * t3)

/-- Cubic interpolation. The end rows stand for the rows beyond them, and a table of fewer than
three rows is interpolated linearly. -/
@[specialize] def cubic (a : SampleArray ω) (position : ν) (channel : Nat) : ν :=
  if a.rows < 3 then a.linear position channel
  else
    let index := a.rowIndex position
    let lower := Scalar.floor index
    let i := Scalar.toInt lower
    catmullRom (a.sample (i - 1) channel) (a.sample i channel) (a.sample (i + 1) channel)
      (a.sample (i + 2) channel) (index - lower)

end CommonLut.SampleArray
