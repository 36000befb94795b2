import CommonLut.Proofs.Exact
import CommonLut.Proofs.Binary.Underflow
import CommonLut.Lookup.IndexMap

/-!
# The search among breakpoints

Inside the breakpoints a value lies in exactly one segment, even where breakpoints coincide: a
segment without extent contains nothing. The search stops at that segment, and divides by a distance
that is positive, in machine arithmetic too. Read over the real numbers, the result lies between the
outputs at the two ends of the segment, and outputs that do not decrease make a function that does
not decrease.

What the search compares are numbers, with machine floats as with real ones, so that the part about
segments is stated once, for a type whose numbers have places in a linear order.

Main definitions: `IndexMap.Segment`, `IndexMap.along`.
Main statements: `IndexMap.exists_segment`, `IndexMap.between?_eq`, `IndexMap.monotone_search`,
`IndexMap.search_segments`.
-/

namespace CommonLut.IndexMap

open Binary
open Scalar (Placed placed_double)

/-! ## §1 Segments -/

/-- Members of a list in the order of their indices. -/
theorem rel_of_getElem? {α : Type} {R : α → α → Prop} {l : List α} (h : l.Pairwise R) {i j : Nat}
    {a b : α} (ha : l[i]? = some a) (hb : l[j]? = some b) (hij : i < j) : R a b := by
  obtain ⟨hi, rfl⟩ := List.getElem?_eq_some_iff.mp ha
  obtain ⟨hj, rfl⟩ := List.getElem?_eq_some_iff.mp hb
  exact List.pairwise_iff_getElem.mp h i j hi hj hij

section
variable {ω P : Type} [Scalar ω] [LinearOrder P]

/-- A value between the breakpoint at an index and the one after it. -/
structure Segment (points : List (ω × ω)) (x : ω) (i : Nat) (p q : ω × ω) : Prop where
  lower : points[i]? = some p
  upper : points[i + 1]? = some q
  le : p.1 ≤ x
  lt : x < q.1

/-- The value at `x` of the line through two breakpoints. -/
def along (p q : ω × ω) (x : ω) : ω := p.2 + (q.2 - p.2) * ((x - p.1) / (q.1 - p.1))

theorem Segment.cons {p q r : ω × ω} {points : List (ω × ω)} {x : ω} {i : Nat}
    (h : Segment points x i p q) : Segment (r :: points) x (i + 1) p q :=
  ⟨h.lower, h.upper, h.le, h.lt⟩

variable {IsNumber : ω → Prop} {place : ω → P} {points : List (ω × ω)} {first last : ω × ω} {x : ω}

/-- A value that is not below the first breakpoint but below the last one lies in a segment. -/
theorem exists_segment (hplace : Placed IsNumber place) (hpoints : ∀ p ∈ points, IsNumber p.1)
    (hx : IsNumber x) (hfirst : points.head? = some first) (hlast : points.getLast? = some last)
    (hle : first.1 ≤ x) (hlt : x < last.1) : ∃ i p q, Segment points x i p q := by
  induction points generalizing first with
  | nil => cases hfirst
  | cons p rest ih =>
    cases hfirst
    cases rest with
    | nil =>
      -- The only breakpoint is the first and the last one.
      obtain rfl : p = last := by simpa using hlast
      have hp := hpoints p List.mem_cons_self
      exact absurd hlt ((hplace.not_lt hx hp).mpr hle)
    | cons q rest =>
      have hq := hpoints q (List.mem_cons_of_mem _ List.mem_cons_self)
      by_cases hnext : x < q.1
      · exact ⟨0, p, q, rfl, rfl, hle, hnext⟩
      · rw [hplace.not_lt hx hq] at hnext
        obtain ⟨i, p', q', h⟩ := ih (fun p' hp' => hpoints p' (List.mem_cons_of_mem _ hp')) rfl
          (by simpa using hlast) hnext
        exact ⟨i + 1, p', q', h.cons⟩

theorem Segment.mem {p q : ω × ω} {i : Nat} (h : Segment points x i p q) :
    p ∈ points ∧ q ∈ points :=
  ⟨List.mem_of_getElem? h.lower, List.mem_of_getElem? h.upper⟩

/-- Segments do not overlap. -/
theorem Segment.index_unique (hplace : Placed IsNumber place)
    (hpoints : ∀ p ∈ points, IsNumber p.1) (hx : IsNumber x)
    (hordered : points.Pairwise fun p q => p.1 ≤ q.1) {i j : Nat} {p q p' q' : ω × ω}
    (h : Segment points x i p q) (h' : Segment points x j p' q') : i = j := by
  -- Of two segments, the later one would begin before the earlier one ends.
  have hless {i j : Nat} {p q p' q' : ω × ω} (h : Segment points x i p q)
      (h' : Segment points x j p' q') : ¬ i < j := by
    intro hij
    have hq := hpoints q h.mem.2
    have hp' := hpoints p' h'.mem.1
    have hends : place q.1 ≤ place p'.1 := by
      rcases (by omega : i + 1 = j ∨ i + 1 < j) with rfl | hlater
      · rw [Option.some_inj.mp (h.upper.symm.trans h'.lower)]
      · exact (hplace.le_iff hq hp').mp (rel_of_getElem? hordered h.upper h'.lower hlater)
    have hbegins := (hplace.le_iff hp' hx).mp h'.le
    have hbefore := (hplace.lt_iff hx hq).mp h.lt
    exact hbefore.not_ge (hends.trans hbegins)
  have hforward := hless h h'
  have hbackward := hless h' h
  omega

/-- The search stops at the segment of the value. -/
theorem between?_eq (hplace : Placed IsNumber place) (hpoints : ∀ p ∈ points, IsNumber p.1)
    (hx : IsNumber x) (hordered : points.Pairwise fun p q => p.1 ≤ q.1) {i : Nat} {p q : ω × ω}
    (h : Segment points x i p q) : between? x points = some (along p q x) := by
  induction points generalizing i with
  | nil => cases h.lower
  | cons r rest ih =>
    cases rest with
    | nil => cases h.upper
    | cons s rest =>
      cases i with
      | zero =>
        cases h.lower
        cases h.upper
        rw [between?, if_pos ⟨h.le, h.lt⟩]
        rfl
      | succ i =>
        have hrest : Segment (s :: rest) x i p q := ⟨h.lower, h.upper, h.le, h.lt⟩
        -- The value is not in the first segment, since it is in a later one.
        have hnot : ¬ (r.1 ≤ x ∧ x < s.1) := by
          rintro ⟨hle, hlt⟩
          have hzero : Segment (r :: s :: rest) x 0 r s := ⟨rfl, rfl, hle, hlt⟩
          have := hzero.index_unique hplace hpoints hx hordered h
          omega
        rw [between?, if_neg hnot]
        exact ih (fun p' hp' => hpoints p' (List.mem_cons_of_mem _ hp')) hordered.of_cons hrest

theorem exists_unique_segment (hplace : Placed IsNumber place)
    (hpoints : ∀ p ∈ points, IsNumber p.1) (hx : IsNumber x)
    (hordered : points.Pairwise fun p q => p.1 ≤ q.1) (hfirst : points.head? = some first)
    (hlast : points.getLast? = some last) (hle : first.1 ≤ x) (hlt : x < last.1) :
    ∃! i, ∃ p q, Segment points x i p q := by
  obtain ⟨i, p, q, h⟩ := exists_segment hplace hpoints hx hfirst hlast hle hlt
  refine ⟨i, ⟨p, q, h⟩, ?_⟩
  rintro j ⟨p', q', h'⟩
  exact h'.index_unique hplace hpoints hx hordered h

/-! ## §2 Evaluation -/

theorem interpolate_before (hfirst : points.head? = some first)
    (hlast : points.getLast? = some last) (h : x ≤ first.1) :
    interpolate points x = some first.2 := by
  rw [interpolate, hfirst, hlast]
  exact if_pos h

theorem interpolate_after (hfirst : points.head? = some first) (hlast : points.getLast? = some last)
    (h : ¬ x ≤ first.1) (h' : last.1 ≤ x) : interpolate points x = some last.2 := by
  rw [interpolate, hfirst, hlast]
  exact (if_neg h).trans (if_pos h')

theorem interpolate_inside (hfirst : points.head? = some first)
    (hlast : points.getLast? = some last) (h : ¬ x ≤ first.1) (h' : ¬ last.1 ≤ x) {v : ω}
    (hv : between? x points = some v) : interpolate points x = some v := by
  rw [interpolate, hfirst, hlast]
  refine (if_neg h).trans ((if_neg h').trans ?_)
  rw [hv, Option.getD_some]

theorem search_of_interpolate {ν : Type} [Scalar ν] [Precision ω ν] {m : IndexMap ω} {x : ν} {v : ω}
    (hx : Scalar.isFinite x = true) (hv : interpolate m.points (widen x) = some v) :
    m.search x = narrow v := by
  rw [search, if_pos hx, hv]
  rfl

/-- Inside breakpoints in order, the search stops at the one segment of the value. -/
theorem search_inside {ν : Type} [Scalar ν] [Precision ω ν] {m : IndexMap ω} {x : ν}
    (hplace : Placed IsNumber place) (hpoints : ∀ p ∈ m.points, IsNumber p.1)
    (hordered : (m.points.map Prod.fst).Pairwise (· ≤ ·)) (hfirst : m.points.head? = some first)
    (hlast : m.points.getLast? = some last) (hx : Scalar.isFinite x = true)
    (hnumber : IsNumber (widen x)) (hlow : first.1 < widen x) (hhigh : widen x < last.1) :
    (∃! i, ∃ p q, Segment m.points (widen x) i p q) ∧
      ∀ i p q, Segment m.points (widen x) i p q →
        between? (widen x) m.points = some (along p q (widen x)) ∧
          m.search x = narrow (along p q (widen x)) := by
  have hpairwise : m.points.Pairwise fun p q => p.1 ≤ q.1 := List.pairwise_map.mp hordered
  have hnumber₁ := hpoints first (List.mem_of_head? hfirst)
  have hnumber₂ := hpoints last (List.mem_of_getLast? hlast)
  refine ⟨exists_unique_segment hplace hpoints hnumber hpairwise hfirst hlast
    (hplace.le_of_lt hnumber₁ hnumber hlow) hhigh, fun i p q h => ?_⟩
  have hfound := between?_eq hplace hpoints hnumber hpairwise h
  exact ⟨hfound, search_of_interpolate hx (interpolate_inside hfirst hlast
    ((hplace.not_le hnumber hnumber₁).mpr hlow) ((hplace.not_le hnumber₂ hnumber).mpr hhigh)
    hfound)⟩

theorem Segment.ends_lt {p q : ω × ω} {i : Nat} (h : Segment points x i p q)
    (hplace : Placed IsNumber place) (hpoints : ∀ p ∈ points, IsNumber p.1) (hx : IsNumber x) :
    p.1 < q.1 := by
  obtain ⟨hp, hq⟩ := h.mem
  exact hplace.lt_of_le_of_lt (hpoints p hp) hx (hpoints q hq) h.le h.lt

end

/-! ## §3 Machine arithmetic -/

/-- The machine divides by a positive distance. -/
theorem Segment.zero_lt_sub {points : List (Float × Float)} {x : Float} {i : Nat}
    {p q : Float × Float} (h : Segment points x i p q)
    (hfinite : ∀ p ∈ points, p.1.isFinite = true) (hx : x.isNaN = false) : 0.0 < q.1 - p.1 := by
  obtain ⟨hp, hq⟩ := h.mem
  refine Machine.zero_lt_sub (hfinite p hp) (hfinite q hq) ?_
  exact h.ends_lt placed_double (fun p hp => Machine.isNaN_of_isFinite (hfinite p hp)) hx

/-! ## §4 Exact arithmetic -/

section Exact

open scoped Exact

theorem placed_real : Placed (fun _ : ℝ => True) id :=
  ⟨fun _ _ => Iff.rfl, fun _ _ => Iff.rfl⟩

variable {p q : ℝ × ℝ} {x y : ℝ}

theorem fraction_mem_unit (hle : p.1 ≤ x) (hlt : x < q.1) :
    (x - p.1) / (q.1 - p.1) ∈ Set.Icc (0 : ℝ) 1 := by
  have hpos : 0 < q.1 - p.1 := by linarith
  exact ⟨div_nonneg (by linarith) hpos.le, (div_le_one hpos).mpr (by linarith)⟩

theorem along_mem (hle : p.1 ≤ x) (hlt : x < q.1) : along p q x ∈ Set.uIcc p.2 q.2 := by
  obtain ⟨hzero, hone⟩ := fraction_mem_unit hle hlt
  unfold along
  generalize (x - p.1) / (q.1 - p.1) = t at hzero hone
  rcases le_total p.2 q.2 with h | h
  · rw [Set.uIcc_of_le h]
    constructor <;> nlinarith
  · rw [Set.uIcc_of_ge h]
    constructor <;> nlinarith

theorem along_mono (hpq : p.1 < q.1) (houtputs : p.2 ≤ q.2) (hxy : x ≤ y) :
    along p q x ≤ along p q y := by
  have hpos : 0 < q.1 - p.1 := by linarith
  have hfraction : (x - p.1) / (q.1 - p.1) ≤ (y - p.1) / (q.1 - p.1) := by gcongr
  unfold along
  gcongr

variable {m : IndexMap ℝ} {first last : ℝ × ℝ}

/-- Where a value can be: before the breakpoints, after them, or in a segment. -/
inductive Region (m : IndexMap ℝ) (first last : ℝ × ℝ) (x : ℝ) : Prop where
  | before (hx : x ≤ first.1) (hvalue : m.search x = first.2)
  | after (hx : first.1 < x) (hx' : last.1 ≤ x) (hvalue : m.search x = last.2)
  | inside (hx : first.1 < x) (i : Nat) (p q : ℝ × ℝ) (h : Segment m.points x i p q)
      (hvalue : m.search x = along p q x)

theorem region (hordered : (m.points.map Prod.fst).Pairwise (· ≤ ·))
    (hfirst : m.points.head? = some first) (hlast : m.points.getLast? = some last) (x : ℝ) :
    Region m first last x := by
  by_cases hbefore : x ≤ first.1
  · exact .before hbefore (search_of_interpolate rfl (interpolate_before hfirst hlast hbefore))
  · rw [not_le] at hbefore
    by_cases hafter : last.1 ≤ x
    · exact .after hbefore hafter (search_of_interpolate rfl
        (interpolate_after hfirst hlast hbefore.not_ge hafter))
    · obtain ⟨⟨i, ⟨p, q, h⟩, -⟩, hvalue⟩ := search_inside (m := m) (x := x) placed_real
        (fun _ _ => trivial) hordered hfirst hlast rfl trivial hbefore (not_le.mp hafter)
      exact .inside hbefore i p q h (hvalue i p q h).2

/-- Breakpoints in the order of their indices, which may be the same. -/
theorem le_of_getElem? {f : ℝ × ℝ → ℝ} {points : List (ℝ × ℝ)}
    (h : (points.map f).Pairwise (· ≤ ·)) {i j : Nat} (hp : points[i]? = some p)
    (hq : points[j]? = some q) (hij : i ≤ j) : f p ≤ f q := by
  rcases hij.eq_or_lt with rfl | hlt
  · rw [Option.some_inj.mp (hp.symm.trans hq)]
  · exact rel_of_getElem? (List.pairwise_map.mp h) hp hq hlt

theorem first_le {f : ℝ × ℝ → ℝ} {points : List (ℝ × ℝ)} (h : (points.map f).Pairwise (· ≤ ·))
    (hfirst : points.head? = some first) {i : Nat} (hp : points[i]? = some p) : f first ≤ f p :=
  le_of_getElem? h (List.head?_eq_getElem?.symm.trans hfirst) hp (Nat.zero_le i)

theorem le_last {f : ℝ × ℝ → ℝ} {points : List (ℝ × ℝ)} (h : (points.map f).Pairwise (· ≤ ·))
    (hlast : points.getLast? = some last) {i : Nat} (hp : points[i]? = some p) : f p ≤ f last := by
  obtain ⟨hi, -⟩ := List.getElem?_eq_some_iff.mp hp
  exact le_of_getElem? h hp (List.getLast?_eq_getElem?.symm.trans hlast) (by omega)

/-- Between outputs in order the value lies between the two ends of its segment. -/
theorem Segment.along_mem (houtputs : (m.points.map Prod.snd).Pairwise (· ≤ ·)) {i : Nat}
    (h : Segment m.points x i p q) : p.2 ≤ along p q x ∧ along p q x ≤ q.2 := by
  have hmem := IndexMap.along_mem h.le h.lt
  rwa [Set.uIcc_of_le (le_of_getElem? houtputs h.lower h.upper (Nat.le_succ i))] at hmem

/-- A larger value lies in the same segment or in a later one. -/
theorem Segment.along_le {p' q' : ℝ × ℝ} {i j : Nat} (h : Segment m.points x i p q)
    (h' : Segment m.points y j p' q') (hordered : (m.points.map Prod.fst).Pairwise (· ≤ ·))
    (houtputs : (m.points.map Prod.snd).Pairwise (· ≤ ·)) (hxy : x ≤ y) :
    along p q x ≤ along p' q' y := by
  rcases lt_trichotomy i j with hij | rfl | hij
  · have hends := le_of_getElem? houtputs h.upper h'.lower hij
    exact (h.along_mem houtputs).2.trans (hends.trans (h'.along_mem houtputs).1)
  · obtain rfl : p = p' := Option.some_inj.mp (h.lower.symm.trans h'.lower)
    obtain rfl : q = q' := Option.some_inj.mp (h.upper.symm.trans h'.upper)
    exact along_mono (h.le.trans_lt h.lt)
      (le_of_getElem? houtputs h.lower h.upper (Nat.le_succ i)) hxy
  · -- The larger value would be in the earlier segment.
    have hends := le_of_getElem? hordered h'.upper h.lower hij
    exact absurd (hends.trans (h.le.trans hxy)) h'.lt.not_ge

/-- Outputs that do not decrease make a function that does not decrease. -/
theorem monotone_search (hordered : (m.points.map Prod.fst).Pairwise (· ≤ ·))
    (houtputs : (m.points.map Prod.snd).Pairwise (· ≤ ·)) (hfirst : m.points.head? = some first)
    (hlast : m.points.getLast? = some last) : Monotone (m.search : ℝ → ℝ) := by
  intro x y hxy
  cases region hordered hfirst hlast x with
  | before hx hvalue =>
    rw [hvalue]
    cases region hordered hfirst hlast y with
    | before hy hvalue' => rw [hvalue']
    | after hy hy' hvalue' =>
      rw [hvalue']
      exact first_le houtputs hfirst (List.getLast?_eq_getElem?.symm.trans hlast)
    | inside hy j p' q' h' hvalue' =>
      rw [hvalue']
      exact (first_le houtputs hfirst h'.lower).trans (h'.along_mem houtputs).1
  | after hx hx' hvalue =>
    rw [hvalue]
    cases region hordered hfirst hlast y with
    | before hy hvalue' => exact absurd (hxy.trans hy) hx.not_ge
    | after hy hy' hvalue' => rw [hvalue']
    | inside hy j p' q' h' hvalue' =>
      -- A segment does not reach beyond the last breakpoint.
      have hend := le_last hordered hlast h'.upper
      exact absurd (hend.trans (hx'.trans hxy)) h'.lt.not_ge
  | inside hx i p q h hvalue =>
    rw [hvalue]
    cases region hordered hfirst hlast y with
    | before hy hvalue' => exact absurd (hxy.trans hy) hx.not_ge
    | after hy hy' hvalue' =>
      rw [hvalue']
      exact (h.along_mem houtputs).2.trans (le_last houtputs hlast h.upper)
    | inside hy j p' q' h' hvalue' =>
      rw [hvalue']
      exact h.along_le h' hordered houtputs hxy

/-! ## §5 The search -/

/-- Inside breakpoints in order, a value lies in exactly one segment, and there the search stops: it
divides by a distance that the machine computes as a positive one, and does not fall back on the
last output. In exact arithmetic the result lies between the outputs of the segment, and outputs in
order make a function that does not decrease anywhere. -/
theorem search_segments :
    (∀ (m : IndexMap Float) (first last : Float × Float) (x : Float32),
      (∀ p ∈ m.points, p.1.isFinite = true) → (m.points.map Prod.fst).Pairwise (· ≤ ·) →
      m.points.head? = some first → m.points.getLast? = some last → x.isFinite = true →
      first.1 < widen x → widen x < last.1 →
      (∃! i, ∃ p q, Segment m.points (widen x) i p q) ∧
        ∀ i p q, Segment m.points (widen x) i p q →
          0.0 < q.1 - p.1 ∧ between? (widen x) m.points = some (along p q (widen x)) ∧
            m.search x = narrow (along p q (widen x))) ∧
    ∀ (m : IndexMap ℝ) (first last : ℝ × ℝ), (m.points.map Prod.fst).Pairwise (· ≤ ·) →
      m.points.head? = some first → m.points.getLast? = some last →
      (∀ x : ℝ, first.1 < x → x < last.1 →
        (∃! i, ∃ p q, Segment m.points x i p q) ∧
          ∀ i p q, Segment m.points x i p q →
            0 < q.1 - p.1 ∧ m.search x = along p q x ∧ m.search x ∈ Set.uIcc p.2 q.2) ∧
        ((m.points.map Prod.snd).Pairwise (· ≤ ·) → Monotone (m.search : ℝ → ℝ)) := by
  constructor
  · intro m first last x hfinite hordered hfirst hlast hx hlow hhigh
    have hnumber := (Machine.isNaN_of_lt hlow).2
    have hpoints : ∀ p ∈ m.points, p.1.isNaN = false := fun p hp =>
      Machine.isNaN_of_isFinite (hfinite p hp)
    obtain ⟨hunique, hvalue⟩ :=
      search_inside placed_double hpoints hordered hfirst hlast hx hnumber hlow hhigh
    exact ⟨hunique, fun i p q h => ⟨h.zero_lt_sub hfinite hnumber, hvalue i p q h⟩⟩
  · intro m first last hordered hfirst hlast
    refine ⟨fun x hlow hhigh => ?_, fun houtputs =>
      monotone_search hordered houtputs hfirst hlast⟩
    obtain ⟨hunique, hvalue⟩ := search_inside (m := m) (x := x) placed_real (fun _ _ => trivial)
      hordered hfirst hlast rfl trivial hlow hhigh
    refine ⟨hunique, fun i p q h => ⟨?_, (hvalue i p q h).2, ?_⟩⟩
    · exact sub_pos.mpr (h.le.trans_lt h.lt)
    · rw [(hvalue i p q h).2]
      exact along_mem h.le h.lt

-- At a jump the value lies in the segment that begins there, not in the one without extent.
theorem search_segments_jump :
    let m : IndexMap Float :=
      { dim := 4, points := [(0.0, 0.0), (0.5, 1.0), (0.5, 2.0), (1.0, 2.0)] }
    let n : IndexMap ℝ := { dim := 4, points := [(0, 0), (1, 1), (1, 2), (2, 2)] }
    (Segment m.points (widen (0.5 : Float32)) 2 (0.5, 2.0) (1.0, 2.0) ∧ (0.0 : Float) < 1.0 - 0.5 ∧
        m.search (0.5 : Float32) = narrow (along (0.5, 2.0) (1.0, 2.0) (widen (0.5 : Float32)))) ∧
      (Segment n.points 1 2 (1, 2) (2, 2) ∧ n.search (1 : ℝ) ∈ Set.uIcc (2 : ℝ) 2) ∧
      Monotone (n.search : ℝ → ℝ) := by
  intro m n
  obtain ⟨hmachine, hexact⟩ := search_segments
  have hsegment : Segment m.points (widen (0.5 : Float32)) 2 (0.5, 2.0) (1.0, 2.0) :=
    ⟨rfl, rfl, by decide, by decide⟩
  have hsegment' : Segment n.points 1 2 (1, 2) (2, 2) := ⟨rfl, rfl, by norm_num, by norm_num⟩
  obtain ⟨-, hvalue⟩ := hmachine m (0.0, 0.0) (1.0, 2.0) 0.5 (by decide) (by decide) rfl rfl
    (by decide) (by decide) (by decide)
  obtain ⟨hinside, hmonotone⟩ := hexact n (0, 0) (2, 2) (by simp [n]) rfl rfl
  obtain ⟨hpos, -, hresult⟩ := hvalue _ _ _ hsegment
  obtain ⟨-, hvalue'⟩ := hinside 1 (by norm_num) (by norm_num)
  exact ⟨⟨hsegment, hpos, hresult⟩, ⟨hsegment', (hvalue' _ _ _ hsegment').2.2⟩,
    hmonotone (by simp [n])⟩

end Exact

end CommonLut.IndexMap
