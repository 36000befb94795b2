import CommonLut.Command.Values
import CommonLut.Proofs.Node.Buffers

/-!
# Buffers in parts

A list evaluates every pixel of a buffer on its own. So a buffer can be cut after any whole pixel
and its parts evaluated apart, which is what the command line does with its chunks.

Main statements: `ProcessList.process_flatten`, `Command.evaluate?_eq_map`,
`ProcessList.process_eq_flatMap`.
-/

namespace CommonLut

namespace ProcessList

/-- Parts of a buffer that are evaluated apart give what the buffer gives, when each part but the
last ends with a whole pixel. -/
theorem process_flatten (l : ProcessList) {stride : Nat} (hstride : 0 < stride)
    {parts : List (List Float32)} (hparts : ∀ part ∈ parts.dropLast, stride ∣ part.length) :
    l.process stride parts.flatten = parts.flatMap (l.process stride) := by
  have hpart : l.process stride = mapPixels stride l.evalPixel :=
    funext (l.process_eq_mapPixels stride)
  rw [hpart, mapPixels_flatten hstride l.evalPixel parts hparts]

end ProcessList

/-- The command line evaluates the values as one buffer, unless its chunks are too long. -/
theorem Command.evaluate?_eq_map (l : ProcessList) {stride : Nat} (hstride : 0 < stride)
    (values : List Float32) :
    evaluate? l stride values = (chunkLength? stride).map fun _ => l.process stride values := by
  unfold evaluate?
  rw [if_neg (Nat.ne_of_gt hstride)]
  refine Option.map_congr fun length hlength => ?_
  have hlength' : length = stride * pixelsPerChunk := by
    have h := Option.guard_eq_some_iff.mp hlength
    exact h.1.symm
  have hpos : 0 < length := hlength' ▸ Nat.mul_pos hstride (by decide)
  -- Every chunk but the last has the whole length, which is a number of whole pixels.
  have hparts : ∀ part ∈ (chunks length values).dropLast, stride ∣ part.length := by
    intro part hpart
    rw [length_of_mem_dropLast_chunks hpos values part hpart, hlength']
    exact Nat.dvd_mul_right stride pixelsPerChunk
  have h := l.process_flatten hstride hparts
  rw [flatten_chunks hpos] at h
  exact h.symm

namespace ProcessList

/-- A list that takes the whole buffer through one node before the next gives the pixels, the last
one possibly shorter, each after all nodes. A buffer that is cut between pixels gives what its parts
give, and the chunks of the command line are such parts. -/
theorem process_eq_flatMap (l : ProcessList) {stride : Nat} (hstride : 0 < stride)
    (values : List Float32) :
    l.process stride values = (chunks stride values).flatMap l.evalPixel ∧
    (∀ parts : List (List Float32), parts.flatten = values →
      (∀ part ∈ parts.dropLast, stride ∣ part.length) →
        l.process stride values = parts.flatMap (l.process stride)) ∧
    Command.evaluate? l stride values =
      (Command.chunkLength? stride).map fun _ => l.process stride values := by
  refine ⟨?_, fun parts hvalues hparts => ?_, Command.evaluate?_eq_map l hstride values⟩
  · rw [l.process_eq_mapPixels, mapPixels, if_neg (Nat.ne_of_gt hstride)]
  · rw [← hvalues]
    exact l.process_flatten hstride hparts

/-- A group that converts between its nodes, a node that is skipped, and two pixels and a half. -/
def unevenList : ProcessList :=
  { header := { id := "uneven" }
    nodes := [
      .group {} [.adapter .uint8 .uint10, .operation { bypass := some true } (.range {}),
        .adapter .float16 .uint12],
      .operation { bypass := some true } (.range { minIn := some 0.5, minOut := some 0.25 })] }

/-- Two pixels and a shorter one, cut after the first pixel. -/
def unevenParts : List (List Float32) := [[0.0, 128.0], [255.0, 64.0, 32.0]]

/-- The last pixel of the buffer is shorter than the others, and the last part too long for one. -/
theorem process_eq_flatMap_uneven :
    0 < 2 ∧ (∀ part ∈ unevenParts.dropLast, 2 ∣ part.length) ∧
    unevenList.process 2 unevenParts.flatten =
      [[0.0, 128.0], [255.0, 64.0], [32.0]].flatMap unevenList.evalPixel ∧
    unevenList.process 2 unevenParts.flatten =
      unevenParts.flatMap (unevenList.process 2) ∧
    Command.evaluate? unevenList 2 unevenParts.flatten =
      some (unevenList.process 2 unevenParts.flatten) := by
  have hparts : ∀ part ∈ unevenParts.dropLast, 2 ∣ part.length := by simp [unevenParts]
  have hchunks : chunks 2 unevenParts.flatten = [[0.0, 128.0], [255.0, 64.0], [32.0]] := by
    simp [unevenParts, chunks, chunksOnto]
  obtain ⟨hpixels, hsplit, hcommand⟩ :=
    unevenList.process_eq_flatMap Nat.zero_lt_two unevenParts.flatten
  rw [hchunks] at hpixels
  exact ⟨Nat.zero_lt_two, hparts, hpixels, hsplit unevenParts rfl hparts, hcommand⟩

end ProcessList

end CommonLut
