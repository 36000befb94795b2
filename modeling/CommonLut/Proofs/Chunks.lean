import CommonLut.Chunks
import CommonLut.Node.Evaluate

/-!
# Chunks put together again

A list is the concatenation of its chunks. A function that keeps the length of each chunk can be
applied chunk by chunk and the result cut at the same places again, so that two passes over a buffer
are one pass with both functions.

A buffer cut between two chunks is worked on part by part.

Main statements: `flatten_chunks`, `chunks_append`, `mapPixels_comp`, `mapPixels_flatten`,
`length_mapPixels`.
-/

namespace CommonLut

variable {α : Type}

/-! ## §1 Chunks -/

/-- The chunks so far stand before those to come. -/
theorem chunksOnto_eq (done : List (List α)) (size : Nat) :
    ∀ xs : List α, chunksOnto done size xs = done.reverse ++ chunksOnto [] size xs
  | [] => by simp [chunksOnto]
  | x :: rest => by
    by_cases hsize : size = 0
    · simp [chunksOnto, hsize]
    · rw [chunksOnto, if_neg hsize, chunksOnto_eq, chunksOnto.eq_def [] size (x :: rest)]
      dsimp only
      rw [if_neg hsize, chunksOnto_eq [(x :: rest).take size]]
      simp
termination_by xs => xs.length
decreasing_by all_goals simp; omega

@[simp]
theorem chunks_nil (size : Nat) : chunks size ([] : List α) = [] := by
  simp [chunks, chunksOnto]

theorem chunks_of_ne_nil {size : Nat} (hsize : 0 < size) {xs : List α} (hxs : xs ≠ []) :
    chunks size xs = xs.take size :: chunks size (xs.drop size) := by
  cases xs with
  | nil => exact absurd rfl hxs
  | cons x rest =>
    rw [chunks, chunksOnto, if_neg (by omega), chunksOnto_eq]
    rfl

/-- Induction along the chunks of a list. -/
theorem chunks_induction {size : Nat} (hsize : 0 < size) {P : List α → Prop} (nil : P [])
    (step : ∀ xs, xs ≠ [] → P (xs.drop size) → P xs) : ∀ xs, P xs
  | [] => nil
  | x :: rest => step _ (List.cons_ne_nil x rest) (chunks_induction hsize nil step _)
termination_by xs => xs.length
decreasing_by simp; omega

/-- A list is the concatenation of its chunks. -/
theorem flatten_chunks {size : Nat} (hsize : 0 < size) (xs : List α) :
    (chunks size xs).flatten = xs := by
  induction xs using chunks_induction hsize with
  | nil => simp
  | step xs hxs ih =>
    rw [chunks_of_ne_nil hsize hxs, List.flatten_cons, ih, List.take_append_drop]

theorem length_le_of_mem_chunks {size : Nat} (hsize : 0 < size) (xs : List α) :
    ∀ c ∈ chunks size xs, c.length ≤ size := by
  induction xs using chunks_induction hsize with
  | nil => simp
  | step xs hxs ih =>
    rw [chunks_of_ne_nil hsize hxs, List.forall_mem_cons]
    exact ⟨List.length_take_le size xs, ih⟩

/-- Only the last chunk may be shorter than the others. -/
theorem length_of_mem_dropLast_chunks {size : Nat} (hsize : 0 < size) (xs : List α) :
    ∀ c ∈ (chunks size xs).dropLast, c.length = size := by
  induction xs using chunks_induction hsize with
  | nil => simp
  | step xs hxs ih =>
    rw [chunks_of_ne_nil hsize hxs]
    by_cases hrest : xs.drop size = []
    · simp [hrest]
    · have hlong : size ≤ xs.length := by
        have := mt List.drop_eq_nil_iff.mpr hrest
        omega
      have hne : chunks size (xs.drop size) ≠ [] := by simp [chunks_of_ne_nil hsize hrest]
      rw [List.dropLast_cons_of_ne_nil hne, List.forall_mem_cons]
      exact ⟨List.length_take_of_le hlong, ih⟩

/-- A list that ends with a whole chunk has no shorter one. -/
theorem length_of_mem_chunks {size : Nat} (hsize : 0 < size) {xs : List α}
    (hxs : size ∣ xs.length) : ∀ c ∈ chunks size xs, c.length = size := by
  induction xs using chunks_induction hsize with
  | nil => simp
  | step xs hne ih =>
    have hlong : size ≤ xs.length := Nat.le_of_dvd (List.length_pos_iff.mpr hne) hxs
    have hrest : size ∣ (xs.drop size).length := by
      rw [List.length_drop]
      exact Nat.dvd_sub hxs (Nat.dvd_refl size)
    rw [chunks_of_ne_nil hsize hne, List.forall_mem_cons]
    exact ⟨List.length_take_of_le hlong, ih hrest⟩

/-- A list that ends with a whole chunk has its own chunks, whatever follows it. -/
theorem chunks_append {size : Nat} (hsize : 0 < size) {xs : List α} (hxs : size ∣ xs.length)
    (ys : List α) : chunks size (xs ++ ys) = chunks size xs ++ chunks size ys := by
  induction xs using chunks_induction hsize with
  | nil => simp
  | step xs hne ih =>
    -- Its first chunk is whole, so nothing of what follows gets into it.
    have hlong : size ≤ xs.length := Nat.le_of_dvd (List.length_pos_iff.mpr hne) hxs
    have hrest : size ∣ (xs.drop size).length := by
      rw [List.length_drop]
      exact Nat.dvd_sub hxs (Nat.dvd_refl size)
    rw [chunks_of_ne_nil hsize (by simp [hne]), List.take_append_of_le_length hlong,
      List.drop_append_of_le_length hlong, ih hrest, ← List.cons_append,
      ← chunks_of_ne_nil hsize hne]

theorem chunks_map {β : Type} {size : Nat} (hsize : 0 < size) (f : α → β) (xs : List α) :
    chunks size (xs.map f) = (chunks size xs).map (List.map f) := by
  induction xs using chunks_induction hsize with
  | nil => simp
  | step xs hxs ih =>
    rw [chunks_of_ne_nil hsize (by simp [hxs]), chunks_of_ne_nil hsize hxs, List.map_cons, ← ih,
      List.map_take, List.map_drop]

/-- Chunks that have been replaced by others of the same length are found again. -/
theorem chunks_flatMap {size : Nat} (hsize : 0 < size) {f : List α → List α}
    (hf : ∀ c, (f c).length = c.length) (xs : List α) :
    chunks size ((chunks size xs).flatMap f) = (chunks size xs).map f := by
  induction xs using chunks_induction hsize with
  | nil => simp
  | step xs hxs ih =>
    have hne : f (xs.take size) ≠ [] := by
      rw [Ne, ← List.length_eq_zero_iff, hf, List.length_eq_zero_iff, List.take_eq_nil_iff]
      exact fun h => h.elim (by omega) hxs
    rw [chunks_of_ne_nil hsize hxs, List.flatMap_cons, List.map_cons,
      chunks_of_ne_nil hsize (by simp [hne])]
    by_cases hlong : size ≤ xs.length
    · have hlength : (f (xs.take size)).length = size := by rw [hf, List.length_take]; omega
      rw [List.take_left' hlength, List.drop_left' hlength, ih]
    · -- the last chunk, which may be shorter
      have hdrop : xs.drop size = [] := List.drop_eq_nil_iff.mpr (by omega)
      have hlength : (f (xs.take size)).length ≤ size := by rw [hf, List.length_take]; omega
      rw [hdrop, chunks_nil, List.flatMap_nil, List.append_nil, List.map_nil,
        List.take_of_length_le hlength, List.drop_of_length_le hlength, chunks_nil]

/-! ## §2 Buffers -/

/-- Two passes over a buffer are one. -/
theorem mapPixels_comp (stride : Nat) {f g : Pixel Float32 → Pixel Float32}
    (hf : ∀ p, (f p).length = p.length) (buffer : List Float32) :
    mapPixels stride g (mapPixels stride f buffer) = mapPixels stride (fun p => g (f p)) buffer := by
  unfold mapPixels
  by_cases hstride : stride = 0
  · simp [hstride]
  · simp only [if_neg hstride]
    rw [chunks_flatMap (Nat.pos_of_ne_zero hstride) hf, List.flatMap_map]

theorem mapPixels_id (stride : Nat) (buffer : List Float32) :
    mapPixels stride (fun p => p) buffer = buffer := by
  unfold mapPixels
  by_cases hstride : stride = 0
  · simp [hstride]
  · rw [if_neg hstride]
    exact List.flatMap_id.trans (flatten_chunks (Nat.pos_of_ne_zero hstride) buffer)

theorem length_mapPixels (stride : Nat) {f : Pixel Float32 → Pixel Float32}
    (hf : ∀ p, (f p).length = p.length) (buffer : List Float32) :
    (mapPixels stride f buffer).length = buffer.length := by
  unfold mapPixels
  by_cases hstride : stride = 0
  · rw [if_pos hstride, hf]
  · have hlengths : (fun c => (f c).length) = List.length := funext hf
    rw [if_neg hstride, List.length_flatMap, hlengths, ← List.length_flatten,
      flatten_chunks (Nat.pos_of_ne_zero hstride)]

/-- A pass over a buffer is a pass over its parts, when each part but the last ends with a whole
pixel. -/
theorem mapPixels_flatten {stride : Nat} (hstride : 0 < stride) (f : Pixel Float32 → Pixel Float32) :
    ∀ parts : List (List Float32), (∀ part ∈ parts.dropLast, stride ∣ part.length) →
      mapPixels stride f parts.flatten = parts.flatMap (mapPixels stride f)
  | [], _ => by simp [mapPixels, Nat.ne_of_gt hstride]
  | [part], _ => by simp
  | part :: next :: rest, hparts => by
    rw [List.dropLast_cons_of_ne_nil (List.cons_ne_nil next rest), List.forall_mem_cons] at hparts
    have ih := mapPixels_flatten hstride f (next :: rest) hparts.2
    rw [List.flatten_cons, List.flatMap_cons, ← ih]
    -- The first part ends with a whole pixel, so no pixel lies across the cut.
    unfold mapPixels
    rw [if_neg (by omega), if_neg (by omega), if_neg (by omega), chunks_append hstride hparts.1,
      List.flatMap_append]

end CommonLut
