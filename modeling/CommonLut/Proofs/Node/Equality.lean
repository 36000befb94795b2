import CommonLut.Node.Equality
import CommonLut.Proofs.Node.Features

/-!
# Equality of operations read back

Equality compares numbers as numbers, so a value with something in it that is no number differs from
itself. The table of an index map holds such a thing, for the half patterns that are no numbers. Of
an array that is read back, the encoding is compared as well, and a table of half patterns is
written without the one that was announced for it.

Main definitions: `Operation.numbers`, `Node.numbers`.
Main statements: `IndexMap.Readable.beq_self_iff`, `SampleArray.reread_beq_iff`,
`Operation.reread_beq_iff`.
-/

namespace CommonLut

/-! ## §1 Values that equal themselves -/

section

variable {α β : Type} [BEq α]

theorem beq_self_option {o : Option α} : (o == o) = true ↔ ∀ x ∈ o.toList, (x == x) = true := by
  cases o with
  | none => simp
  | some x => simp

/-- A list whose members are changed to equal ones equals the list itself. -/
theorem map_beq_iff {f : α → α} {l : List α} :
    (l.map f == l) = true ↔ ∀ x ∈ l, (f x == x) = true := by
  induction l with
  | nil => simp
  | cons x l ih => rw [List.map_cons, List.cons_beq_cons, Bool.and_eq_true, ih, List.forall_mem_cons]

theorem beq_self_list {l : List α} : (l == l) = true ↔ ∀ x ∈ l, (x == x) = true := by
  have h := map_beq_iff (f := id) (l := l)
  rwa [List.map_id] at h

theorem beq_self_prod [BEq β] {p : α × β} :
    (p == p) = true ↔ (p.1 == p.1) = true ∧ (p.2 == p.2) = true :=
  Bool.and_eq_true_iff

end

namespace Element

mutual
theorem equal_self : ∀ e : Element, e.equal e = true
  | ⟨name, attributes, text, children⟩ => by
    simp only [equal, BEq.rfl, Bool.true_and, equalAll_self children]
termination_by structural e => e

theorem equalAll_self : ∀ es : List Element, equalAll es es = true
  | [] => rfl
  | e :: es => by rw [equalAll, equal_self e, equalAll_self es, Bool.and_self]
termination_by structural es => es
end

instance : ReflBEq Element := ⟨equal_self _⟩

end Element

/-! ## §2 Arrays and index maps -/

/-- A machine number equals itself just if it is one. -/
theorem beq_self_float {x : Float} : (x == x) = true ↔ x.isNaN = false := by
  rw [Float.beq_self_iff, Float.isNaN_eq_decide_eq_nan, decide_eq_false_iff_not]

/-- The machine numbers that stand for no number come from all patterns that stand for none. -/
theorem Double.isNaN_toFloat {x : Double} (hx : x.IsNaN) : x.toFloat.isNaN = true := by
  have hsettled : x.toFloat = (⟨Binary.Machine.quietNaN⟩ : Double).toFloat := by
    rw [← x.toFloat_settled, Double.settled_of_nan hx]
  rw [hsettled]
  decide

theorem SampleEncoding.respelled_of_number (e : SampleEncoding) {x : Double}
    (hx : x.toFloat.isNaN = false) : e.respelled x = x := by
  have hnumber : ¬ x.IsNaN := fun h => by
    rw [Double.isNaN_toFloat h] at hx
    cases hx
  unfold respelled
  split
  · exact Double.settled_of_number hnumber
  · rfl

namespace SampleArray

/-- The samples as machine numbers. -/
def numbers (a : SampleArray Double) : List Float := a.values.toList.map Double.toFloat

theorem beq_iff {ω : Type} [BEq ω] {a b : SampleArray ω} :
    (a == b) = true ↔ a.dims = b.dims ∧ (a.values.toList == b.values.toList) = true ∧
      a.layout = b.layout ∧ a.integers = b.integers ∧ a.rawHalfs = b.rawHalfs ∧
      a.encoding = b.encoding := by
  obtain ⟨dims, values, layout, integers, rawHalfs, encoding⟩ := a
  obtain ⟨dims', values', layout', integers', rawHalfs', encoding'⟩ := b
  show instBEqSampleArray.beq _ _ = true ↔ _
  simp [instBEqSampleArray.beq]

theorem beq_self_iff {a : SampleArray Double} :
    (a == a) = true ↔ ∀ x ∈ a.numbers, x.isNaN = false := by
  simp only [beq_iff, beq_self_list, numbers, List.forall_mem_map, and_true, true_and]
  exact forall₂_congr fun _ _ => beq_self_float

/-- An array that is read back equals the one that was written if all samples are numbers, unless it
is a table of half patterns for which an encoding was announced. -/
theorem reread_beq_iff {a : SampleArray Double} :
    (a.reread == a) = true ↔ (∀ x ∈ a.numbers, x.isNaN = false) ∧
      (a.rawHalfs = true → a.encoding = .text) := by
  -- Respelling a sample changes no more than what is no number, which is unequal anyway.
  have hsample : ∀ x : Double,
      ((if a.rawHalfs then x else a.encoding.respelled x) == x) = true ↔
        x.toFloat.isNaN = false := by
    intro x
    rw [← beq_self_float]
    split
    · exact Iff.rfl
    · show ((a.encoding.respelled x).toFloat == x.toFloat) = true ↔ _
      rw [SampleEncoding.toFloat_respelled]
  have hencoding : a.reread.encoding = a.encoding ↔ (a.rawHalfs = true → a.encoding = .text) := by
    unfold reread
    split
    · next hraw => exact ⟨fun h _ => h.symm, fun h => (h hraw).symm⟩
    · next hraw => exact ⟨fun _ h => absurd h hraw, fun _ => rfl⟩
  rw [beq_iff, values_reread, map_beq_iff, dims_reread, layout_reread, integers_reread,
    rawHalfs_reread, hencoding]
  simp only [true_and, numbers, List.forall_mem_map, hsample]

/-- Under these conditions nothing at all changes, not even a pattern. -/
theorem reread_eq_self {a : SampleArray Double} (hnumbers : ∀ x ∈ a.numbers, x.isNaN = false)
    (hencoding : a.rawHalfs = true → a.encoding = .text) : a.reread = a := by
  unfold reread
  split
  · next hraw => rw [← hencoding hraw]
  · have hvalues : a.values.map a.encoding.respelled = a.values := by
      refine (Array.map_congr_left fun x hx => ?_).trans (Array.map_id a.values)
      have hx : x.toFloat.isNaN = false :=
        hnumbers _ (List.mem_map_of_mem (Array.mem_toList_iff.mpr hx))
      exact a.encoding.respelled_of_number hx
    rw [hvalues]

end SampleArray

namespace IndexMap

/-- The breakpoints, inputs and outputs alike. -/
def numbers (m : IndexMap Float) : List Float := m.points.flatMap fun p => [p.1, p.2]

theorem beq_self_iff {m : IndexMap Float} :
    (m == m) = true ↔ (∀ x ∈ m.numbers, x.isNaN = false) ∧ (m.cache == m.cache) = true := by
  obtain ⟨dim, points, cache⟩ := m
  have hpoints : (points == points) = true ↔
      ∀ x ∈ points.flatMap (fun p => [p.1, p.2]), x.isNaN = false := by
    rw [beq_self_list, List.forall_mem_flatMap]
    refine forall₂_congr fun p _ => ?_
    rw [beq_self_prod, beq_self_float, beq_self_float, List.forall_mem_cons,
      List.forall_mem_singleton]
  show instBEqIndexMap.beq _ _ = true ↔ _
  simp only [instBEqIndexMap.beq, BEq.rfl, Bool.true_and, Bool.and_eq_true, hpoints, numbers]

/-- A table over the half patterns differs from itself: what is no number stays so in it. -/
theorem withCache_ne_self (m : IndexMap Float) : (m.withCache == m.withCache) = false := by
  have hpattern : Scalar.isFinite (Binary.Half.toFloat32 (UInt16.ofNat 31745)) = false := by
    decide +kernel
  have hwiden : ((widen (Binary.Half.toFloat32 (UInt16.ofNat 31745)) : Float) ==
      widen (Binary.Half.toFloat32 (UInt16.ofNat 31745))) = false := by
    decide +kernel
  rw [← Bool.not_eq_true, beq_self_iff]
  rintro ⟨-, h⟩
  have htable := beq_self_option.mp h
  simp only [withCache, Option.toList_some, List.forall_mem_singleton, SampleArray.beq_iff,
    beq_self_list, List.forall_mem_map, List.mem_range] at htable
  have hentry := htable.2.1 31745 (by decide)
  rw [search, if_neg (by rw [hpattern]; exact Bool.false_ne_true), hwiden] at hentry
  cases hentry

/-- A map that is read equals itself if its breakpoints are numbers, and it is not tabulated. -/
theorem Readable.beq_self_iff {options : ReadOptions} {m : IndexMap Float}
    (hm : m.Readable options) :
    (m == m) = true ↔ (∀ x ∈ m.numbers, x.isNaN = false) ∧ options.cacheIndexMaps = false := by
  have htabulated := hm.tabulated
  cases hcache : options.cacheIndexMaps with
  | true =>
    rw [hcache, if_pos rfl] at htabulated
    refine iff_of_false ?_ fun h => Bool.noConfusion h.2
    rw [htabulated, withCache_ne_self]
    exact Bool.false_ne_true
  | false =>
    rw [hcache, if_neg Bool.false_ne_true] at htabulated
    have hnone : m.cache = none := congrArg cache htabulated
    rw [IndexMap.beq_self_iff, hnone]
    exact and_congr_right fun _ => iff_of_true rfl rfl

end IndexMap

/-! ## §3 Parameters -/

namespace Range

/-- The bounds that are given. -/
def numbers (r : Range Float) : List Float :=
  r.minIn.toList ++ r.maxIn.toList ++ r.minOut.toList ++ r.maxOut.toList

theorem beq_self_iff {r : Range Float} : (r == r) = true ↔ ∀ x ∈ r.numbers, x.isNaN = false := by
  obtain ⟨minIn, maxIn, minOut, maxOut, style⟩ := r
  show instBEqRange.beq _ _ = true ↔ _
  simp only [instBEqRange.beq, numbers, BEq.rfl, Bool.and_true, Bool.and_eq_true, beq_self_option,
    beq_self_float, List.forall_mem_append, and_assoc]

end Range

namespace Cdl

/-- The slopes, offsets and powers of the channels, and the saturation. -/
def numbers (c : Cdl Float) : List Float :=
  ([c.slope, c.offset, c.power].flatMap fun t => [t.1, t.2.1, t.2.2]) ++ [c.saturation]

theorem beq_self_iff {c : Cdl Float} : (c == c) = true ↔ ∀ x ∈ c.numbers, x.isNaN = false := by
  obtain ⟨slope, offset, power, saturation, style⟩ := c
  show instBEqCdl.beq _ _ = true ↔ _
  simp only [instBEqCdl.beq, numbers, BEq.rfl, Bool.and_true, Bool.and_eq_true, beq_self_prod,
    beq_self_float, List.forall_mem_append, List.forall_mem_flatMap, List.forall_mem_cons,
    List.not_mem_nil, IsEmpty.forall_iff, implies_true, and_true, and_assoc]

end Cdl

namespace LogCurve

/-- The parameters of a channel that are given. -/
def channelNumbers (p : DensityParams Float) : List Float :=
  p.gamma.toList ++ p.refWhite.toList ++ p.refBlack.toList ++ p.highlight.toList ++ p.shadow.toList

/-- The parameters of every channel. -/
def numbers (c : LogCurve Float) : List Float := c.params.flatMap channelNumbers

theorem beq_self_iff {c : LogCurve Float} :
    (c == c) = true ↔ ∀ x ∈ c.numbers, x.isNaN = false := by
  have hchannel : ∀ p : DensityParams Float,
      (p == p) = true ↔ ∀ x ∈ channelNumbers p, x.isNaN = false := by
    rintro ⟨gamma, refWhite, refBlack, highlight, shadow, channel⟩
    show instBEqDensityParams.beq _ _ = true ↔ _
    simp only [instBEqDensityParams.beq, channelNumbers, BEq.rfl, Bool.and_true, Bool.and_eq_true,
      beq_self_option, beq_self_float, List.forall_mem_append, and_assoc]
  obtain ⟨style, params⟩ := c
  show instBEqLogCurve.beq _ _ = true ↔ _
  simp only [instBEqLogCurve.beq, numbers, BEq.rfl, Bool.true_and, beq_self_list, hchannel,
    List.forall_mem_flatMap]

end LogCurve

namespace GammaCurve

/-- The exponent of a channel, and its offset if it is given. -/
def channelNumbers (p : GammaParams Float) : List Float := p.gamma :: p.offset.toList

/-- The parameters of every channel. -/
def numbers (c : GammaCurve Float) : List Float := c.params.flatMap channelNumbers

theorem beq_self_iff {c : GammaCurve Float} :
    (c == c) = true ↔ ∀ x ∈ c.numbers, x.isNaN = false := by
  have hchannel : ∀ p : GammaParams Float,
      (p == p) = true ↔ ∀ x ∈ channelNumbers p, x.isNaN = false := by
    rintro ⟨gamma, offset, channel⟩
    show instBEqGammaParams.beq _ _ = true ↔ _
    simp only [instBEqGammaParams.beq, channelNumbers, BEq.rfl, Bool.and_true, Bool.and_eq_true,
      beq_self_option, beq_self_float, List.forall_mem_cons]
  obtain ⟨style, params⟩ := c
  show instBEqGammaCurve.beq _ _ = true ↔ _
  simp only [instBEqGammaCurve.beq, numbers, BEq.rfl, Bool.true_and, beq_self_list, hchannel,
    List.forall_mem_flatMap]

end GammaCurve

namespace ExposureContrast

/-- All parameters. -/
def numbers (e : ExposureContrast Float) : List Float := [e.exposure, e.contrast, e.pivot]

theorem beq_self_iff {e : ExposureContrast Float} :
    (e == e) = true ↔ ∀ x ∈ e.numbers, x.isNaN = false := by
  obtain ⟨style, exposure, contrast, pivot⟩ := e
  show instBEqExposureContrast.beq _ _ = true ↔ _
  simp only [instBEqExposureContrast.beq, numbers, BEq.rfl, Bool.true_and, Bool.and_eq_true,
    beq_self_float, List.forall_mem_cons, List.not_mem_nil, IsEmpty.forall_iff, implies_true,
    and_true]

end ExposureContrast

/-! ## §4 Tables -/

section

variable {options : ReadOptions} {a : SampleArray Double}

/-- Index maps that are read equal themselves if their breakpoints are numbers and none of them is
tabulated. -/
theorem IndexMap.all_beq_self_iff {ms : List (IndexMap Float)} (hms : ∀ m ∈ ms, m.Readable options) :
    (ms == ms) = true ↔ (∀ x ∈ ms.flatMap IndexMap.numbers, x.isNaN = false) ∧
      (options.cacheIndexMaps = true → ms = []) := by
  rw [beq_self_list, List.forall_mem_flatMap]
  constructor
  · intro h
    refine ⟨fun m hm => ((hms m hm).beq_self_iff.mp (h m hm)).1, fun hcache => ?_⟩
    refine List.eq_nil_iff_forall_not_mem.mpr fun m hm => ?_
    rw [((hms m hm).beq_self_iff.mp (h m hm)).2] at hcache
    cases hcache
  · rintro ⟨hnumbers, hcache⟩ m hm
    refine (hms m hm).beq_self_iff.mpr ⟨hnumbers m hm, Bool.eq_false_iff.mpr fun h => ?_⟩
    rw [hcache h] at hm
    cases hm

/-- A table with another array equals it if the arrays do so and its index maps equal themselves. -/
theorem Lut1D.beq_iff {l : Lut1D} (hl : ∀ m ∈ l.indexMaps, m.Readable options) :
    (({ l with array := a } : Lut1D) == l) = true ↔ (a == l.array) = true ∧
      (∀ x ∈ l.indexMaps.flatMap IndexMap.numbers, x.isNaN = false) ∧
        (options.cacheIndexMaps = true → l.indexMaps = []) := by
  rw [← IndexMap.all_beq_self_iff hl]
  obtain ⟨array, indexMaps, interpolation, halfDomain, rawHalfs⟩ := l
  show instBEqLut1D.beq _ _ = true ↔ _
  simp only [instBEqLut1D.beq, BEq.rfl, Bool.and_true, Bool.and_eq_true]

theorem Lut3D.beq_iff {l : Lut3D} (hl : ∀ m ∈ l.indexMaps, m.Readable options) :
    (({ l with array := a } : Lut3D) == l) = true ↔ (a == l.array) = true ∧
      (∀ x ∈ l.indexMaps.flatMap IndexMap.numbers, x.isNaN = false) ∧
        (options.cacheIndexMaps = true → l.indexMaps = []) := by
  rw [← IndexMap.all_beq_self_iff hl]
  obtain ⟨array, indexMaps, interpolation⟩ := l
  show instBEqLut3D.beq _ _ = true ↔ _
  simp only [instBEqLut3D.beq, BEq.rfl, Bool.and_true, Bool.and_eq_true]

end

/-! ## §5 Operations -/

namespace Operation

/-- The numbers of an operation: parameters, samples and the breakpoints of index maps. -/
def numbers : Operation → List Float
  | matrix m => m.array.numbers
  | range r => r.numbers
  | cdl c | colorCorrection c => c.numbers
  | lut1D l => l.array.numbers ++ l.indexMaps.flatMap IndexMap.numbers
  | lut3D l => l.array.numbers ++ l.indexMaps.flatMap IndexMap.numbers
  | log c => c.numbers
  | gamma c => c.numbers
  | exposureContrast e => e.numbers

/-- No encoding that was announced is lost when the samples of an operation are written. -/
def KeepsEncoding (op : Operation) : Prop :=
  ∀ a, op.samples? = some a → a.rawHalfs = true → a.encoding = .text

variable {options : ReadOptions} {op : Operation}

/-- An operation equals itself if it holds nothing but numbers and none of its index maps is
tabulated. -/
theorem beq_self_iff (hop : ∀ m ∈ op.indexMaps, m.Readable options) :
    (op == op) = true ↔ (∀ x ∈ op.numbers, x.isNaN = false) ∧
      (options.cacheIndexMaps = true → op.indexMaps = []) := by
  -- Only the two kinds of tables have index maps.
  cases op with
  | matrix m => exact SampleArray.beq_self_iff.trans (and_iff_left fun _ => rfl).symm
  | range r => exact Range.beq_self_iff.trans (and_iff_left fun _ => rfl).symm
  | cdl c => exact Cdl.beq_self_iff.trans (and_iff_left fun _ => rfl).symm
  | colorCorrection c => exact Cdl.beq_self_iff.trans (and_iff_left fun _ => rfl).symm
  | log c => exact LogCurve.beq_self_iff.trans (and_iff_left fun _ => rfl).symm
  | gamma c => exact GammaCurve.beq_self_iff.trans (and_iff_left fun _ => rfl).symm
  | exposureContrast e => exact ExposureContrast.beq_self_iff.trans (and_iff_left fun _ => rfl).symm
  | lut1D l =>
    refine (Lut1D.beq_iff hop).trans ?_
    rw [SampleArray.beq_self_iff, numbers, List.forall_mem_append, and_assoc]
    rfl
  | lut3D l =>
    refine (Lut3D.beq_iff hop).trans ?_
    rw [SampleArray.beq_self_iff, numbers, List.forall_mem_append, and_assoc]
    rfl

/-- An operation that is read back equals the one that was written under the same conditions, if its
encoding is kept as well. -/
theorem reread_beq_iff (hop : ∀ m ∈ op.indexMaps, m.Readable options) :
    (op.reread == op) = true ↔ ((∀ x ∈ op.numbers, x.isNaN = false) ∧
      (options.cacheIndexMaps = true → op.indexMaps = [])) ∧ op.KeepsEncoding := by
  cases op with
  | matrix m =>
    refine SampleArray.reread_beq_iff.trans ?_
    simp only [KeepsEncoding, samples?, numbers, indexMaps, Option.some.injEq, forall_eq',
      implies_true, and_true]
  | lut1D l =>
    refine (Lut1D.beq_iff hop).trans ?_
    rw [SampleArray.reread_beq_iff]
    simp only [KeepsEncoding, samples?, numbers, indexMaps, List.forall_mem_append,
      Option.some.injEq, forall_eq']
    tauto
  | lut3D l =>
    refine (Lut3D.beq_iff hop).trans ?_
    rw [SampleArray.reread_beq_iff]
    simp only [KeepsEncoding, samples?, numbers, indexMaps, List.forall_mem_append,
      Option.some.injEq, forall_eq']
    tauto
  | range | cdl | colorCorrection | log | gamma | exposureContrast =>
    exact (beq_self_iff hop).trans (and_iff_left fun a ha => by cases ha).symm

/-- Under the conditions on its numbers and its encoding an operation is read back as it was,
tabulated index maps included. -/
theorem reread_eq_self {op : Operation} (hnumbers : ∀ x ∈ op.numbers, x.isNaN = false)
    (hencoding : op.KeepsEncoding) : op.reread = op := by
  cases op with
  | matrix m =>
    have harray := SampleArray.reread_eq_self hnumbers (hencoding m.array rfl)
    rw [reread, Matrix.reread, harray]
  | lut1D l =>
    have harray := SampleArray.reread_eq_self (List.forall_mem_append.mp hnumbers).1
      (hencoding l.array rfl)
    rw [reread, Lut1D.reread, harray]
  | lut3D l =>
    have harray := SampleArray.reread_eq_self (List.forall_mem_append.mp hnumbers).1
      (hencoding l.array rfl)
    rw [reread, Lut3D.reread, harray]
  | range | cdl | colorCorrection | log | gamma | exposureContrast => rfl

end Operation

end CommonLut
