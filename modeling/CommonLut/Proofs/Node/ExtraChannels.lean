import CommonLut.Proofs.Document.Profiles
import CommonLut.Proofs.Node.Buffers

/-!
# Channels beyond the colour

Every operation limits itself to the colour, except a matrix, which changes as many channels as it
has rows. The channels behind those stay as they are: in a pixel, however the operations are nested
in groups and in the lists of references, and in a buffer, whose pixels have these channels at the
same places.

Main definitions: `Node.reach`.
Main statements: `Node.getElem?_eval`, `getElem?_mapPixels`, `Node.extraChannels_unchanged`.
-/

namespace CommonLut

/-! ## §1 Operations -/

namespace Pixel

variable {ν : Type}

theorem getElem?_mapColor (f : Nat → ν → ν) (p : Pixel ν) {k : Nat} (hk : 3 ≤ k) :
    (p.mapColor f)[k]? = p[k]? := by
  obtain ⟨j, rfl⟩ := Nat.exists_eq_add_of_le' hk
  unfold mapColor
  split <;> simp

theorem getElem?_mapTriple (f : Triple ν → Triple ν) (p : Pixel ν) {k : Nat} (hk : 3 ≤ k) :
    (p.mapTriple f)[k]? = p[k]? := by
  obtain ⟨j, rfl⟩ := Nat.exists_eq_add_of_le' hk
  unfold mapTriple
  split <;> simp

end Pixel

/-- A matrix writes the channels that it has rows for. -/
theorem Matrix.getElem?_apply_of_le {ω ν : Type} [Scalar ω] [Scalar ν] [Precision ω ν]
    (m : Matrix ω) (p : Pixel ν) {k : Nat} (hk : m.rows ≤ k) : (m.apply p)[k]? = p[k]? := by
  unfold apply
  dsimp only
  split
  · rfl
  · have hcount : min m.rows p.length ≤ k := (Nat.min_le_left _ _).trans hk
    rw [List.getElem?_append_right (by simpa using hcount)]
    simp [Nat.add_sub_cancel' hcount]

/-- The number of channels that an operation may change. -/
def Operation.reach : Operation → Nat
  | .matrix m => max 3 m.rows
  | _ => 3

theorem Operation.getElem?_apply (op : Operation) (input output : BitDepth) (p : Pixel Float32)
    {k : Nat} (hk : op.reach ≤ k) : (op.apply input output p)[k]? = p[k]? := by
  cases op with
  | matrix m => exact m.getElem?_apply_of_le p ((Nat.le_max_right 3 m.rows).trans hk)
  | range r => simp only [apply, Range.apply, Pixel.getElem?_mapColor _ _ hk]
  | cdl c => simp only [apply, Cdl.apply, Pixel.getElem?_mapTriple _ _ hk]
  | colorCorrection c => simp only [apply, Cdl.apply, Pixel.getElem?_mapTriple _ _ hk]
  | lut1D l => simp only [apply, Lut1D.apply, Pixel.getElem?_mapColor _ _ hk]
  | lut3D l => simp only [apply, Lut3D.apply, Pixel.getElem?_mapTriple _ _ hk]
  | log c => simp only [apply, LogCurve.apply, Pixel.getElem?_mapColor _ _ hk]
  | gamma c => simp only [apply, GammaCurve.apply, Pixel.getElem?_mapColor _ _ hk]
  | exposureContrast e => simp only [apply, ExposureContrast.apply, Pixel.getElem?_mapColor _ _ hk]

/-- The adapters of a group work on the colour. -/
theorem getElem?_adapt (previous : Option BitDepth) (next : BitDepth) (p : Pixel Float32) {k : Nat}
    (hk : 3 ≤ k) : (adapt previous next p)[k]? = p[k]? := by
  unfold adapt
  split
  · split
    · rfl
    · rw [Range.apply, Pixel.getElem?_mapColor _ _ hk]
  · rfl

/-! ## §2 Nested nodes -/

namespace Node

mutual
/-- The number of channels that a node may change: those of the colour, or as many as the largest
matrix in it has rows. -/
def reach : Node → Nat
  | .operation _ op => op.reach
  | .group _ nodes => reachAll nodes
  | .reference _ _ => 3
  | .resolved _ _ _ nodes => reachAll nodes
termination_by structural n => n

@[inherit_doc reach]
def reachAll : List Node → Nat
  | [] => 3
  | n :: ns => max n.reach (reachAll ns)
termination_by structural ns => ns
end

theorem three_le_reachAll (ns : List Node) : 3 ≤ reachAll ns := by
  induction ns with
  | nil => exact Nat.le_refl 3
  | cons n ns ih => exact ih.trans (Nat.le_max_right n.reach (reachAll ns))

mutual
/-- No node changes a channel that it does not reach. -/
theorem getElem?_eval : ∀ (n : Node) (p : Pixel Float32) {k : Nat}, n.reach ≤ k →
    (n.eval p)[k]? = p[k]?
  | .operation c op, p, _, hk => op.getElem?_apply c.input c.output p hk
  | .group _ nodes, p, _, hk => getElem?_evalGroup nodes none p hk
  | .reference _ _, _, _, _ => rfl
  | .resolved _ _ _ nodes, p, _, hk => getElem?_evalActive nodes p hk
termination_by structural n => n

theorem getElem?_evalActive : ∀ (ns : List Node) (p : Pixel Float32) {k : Nat},
    reachAll ns ≤ k → (evalActive ns p)[k]? = p[k]?
  | [], _, _, _ => rfl
  | n :: ns, p, _, hk => by
    obtain ⟨hn, hns⟩ := Nat.max_le.mp hk
    have hfirst := getElem?_eval n p hn
    rw [evalActive, getElem?_evalActive ns _ hns]
    split
    · rfl
    · exact hfirst
termination_by structural ns => ns

theorem getElem?_evalGroup : ∀ (ns : List Node) (previous : Option BitDepth) (p : Pixel Float32)
    {k : Nat}, reachAll ns ≤ k → (evalGroup previous ns p)[k]? = p[k]?
  | [], _, _, _, _ => rfl
  | n :: ns, previous, p, _, hk => by
    obtain ⟨hn, hns⟩ := Nat.max_le.mp hk
    have hcolour := (three_le_reachAll ns).trans hns
    have hfirst := getElem?_eval n (adapt previous n.input p) hn
    rw [evalGroup]
    split
    · exact getElem?_evalGroup ns previous p hns
    · rw [getElem?_evalGroup ns _ _ hns, hfirst, getElem?_adapt previous n.input p hcolour]
termination_by structural ns => ns
end

/-- The matrix of a node. -/
def matrix? : Node → Option (Matrix Double)
  | operation _ (.matrix m) => some m
  | _ => none

theorem not_within_nil (m : Node) : ¬ m.Within [] :=
  forall_within_nil (P := fun _ => False) m

mutual
/-- The reach of a node is the largest of three and the numbers of rows of the matrices in it. -/
theorem reach_le_iff : ∀ (n : Node) {k : Nat}, n.reach ≤ k ↔
    3 ≤ k ∧ ∀ m : Node, m.Within [n] → ∀ a ∈ m.matrix?, a.rows ≤ k
  | .operation c op, k => by
    rw [forall_within_cons]
    cases op with
    | matrix a =>
      have hreach : (operation c (.matrix a)).reach = max 3 a.rows := rfl
      simp [hreach, matrix?, inner, not_within_nil]
    | _ => simp [reach, Operation.reach, matrix?, inner, not_within_nil]
  | .group c nodes, k => by
    have hnodes := reachAll_le_iff nodes (k := k)
    rw [forall_within_cons]
    simp [reach, hnodes, matrix?, inner, not_within_nil]
  | .reference c target, k => by
    rw [forall_within_cons]
    simp [reach, matrix?, inner, not_within_nil]
  | .resolved c target header nodes, k => by
    have hnodes := reachAll_le_iff nodes (k := k)
    rw [forall_within_cons]
    simp [reach, hnodes, matrix?, inner, not_within_nil]
termination_by structural n => n

theorem reachAll_le_iff : ∀ (ns : List Node) {k : Nat}, reachAll ns ≤ k ↔
    3 ≤ k ∧ ∀ m : Node, m.Within ns → ∀ a ∈ m.matrix?, a.rows ≤ k
  | [], k => by simp [reachAll, not_within_nil]
  | n :: ns, k => by
    have hn := reach_le_iff n (k := k)
    have hns := reachAll_le_iff ns (k := k)
    rw [forall_within_cons] at hn
    rw [forall_within_cons, reachAll, Nat.max_le, hn, hns]
    constructor
    · rintro ⟨⟨hcolour, hfirst, -⟩, -, hrest⟩
      exact ⟨hcolour, hfirst, hrest⟩
    · rintro ⟨hcolour, hfirst, hrest⟩
      exact ⟨⟨hcolour, hfirst, forall_within_nil⟩, hcolour, hrest⟩
termination_by structural ns => ns
end

theorem three_le_reach (n : Node) : 3 ≤ n.reach :=
  (n.reach_le_iff.mp (Nat.le_refl n.reach)).1

end Node

/-! ## §3 Buffers -/

/-- A value of a buffer becomes the channel, at the same place, of what its pixel becomes. -/
theorem getElem?_mapPixels {stride : Nat} (hstride : 0 < stride) {f : Pixel Float32 → Pixel Float32}
    (hf : ∀ p, (f p).length = p.length) (buffer : List Float32) (i : Nat) :
    (mapPixels stride f buffer)[i]? =
      (f ((buffer.drop (i / stride * stride)).take stride))[i % stride]? := by
  unfold mapPixels
  rw [if_neg (Nat.ne_of_gt hstride)]
  induction buffer using chunks_induction hstride generalizing i with
  | nil =>
    have hempty : f [] = [] := List.length_eq_zero_iff.mp (hf [])
    simp [hempty]
  | step buffer hbuffer ih =>
    rw [chunks_of_ne_nil hstride hbuffer, List.flatMap_cons, List.getElem?_append]
    have hlength : (f (buffer.take stride)).length = min stride buffer.length := by
      rw [hf, List.length_take]
    by_cases hfirst : i < stride
    · -- the first pixel, which ends early if it is the last one too
      have hplace : i / stride * stride = 0 := by simp [Nat.div_eq_of_lt hfirst]
      rw [hplace, List.drop_zero, Nat.mod_eq_of_lt hfirst]
      split
      · rfl
      · next hlong =>
        have hend : buffer.length ≤ stride := by omega
        rw [List.drop_of_length_le hend, chunks_nil, List.flatMap_nil, List.getElem?_nil,
          List.getElem?_eq_none (not_lt.mp hlong)]
    · obtain ⟨j, rfl⟩ := Nat.exists_eq_add_of_le (not_lt.mp hfirst)
      have hplace : (stride + j) / stride * stride = stride + j / stride * stride := by
        rw [Nat.add_div_left j hstride, Nat.succ_mul, Nat.add_comm]
      rw [if_neg (by omega), Nat.add_mod_left, hplace, ← List.drop_drop]
      by_cases hlong : stride ≤ buffer.length
      · have hrest : stride + j - (f (buffer.take stride)).length = j := by omega
        rw [hrest]
        exact ih j
      · have hempty : f [] = [] := List.length_eq_zero_iff.mp (hf [])
        simp [List.drop_of_length_le (Nat.le_of_not_le hlong), hempty]

namespace Node

/-- The channels beyond the reach of a node, which is the largest of three and the numbers of rows of
the matrices in it, stay as they are: in a pixel of whatever length, and in every pixel of a buffer
if the stride is not smaller than the reach. The buffer keeps its length. -/
theorem extraChannels_unchanged (n : Node) :
    (∀ k, n.reach ≤ k ↔ 3 ≤ k ∧ ∀ m : Node, m.Within [n] → ∀ a ∈ m.matrix?, a.rows ≤ k) ∧
    (∀ k, n.reach ≤ k → ∀ p, (n.eval p)[k]? = p[k]?) ∧
    ∀ stride, n.reach ≤ stride → ∀ buffer,
      (n.process stride buffer).length = buffer.length ∧
      ∀ i, n.reach ≤ i % stride → (n.process stride buffer)[i]? = buffer[i]? := by
  refine ⟨fun k => n.reach_le_iff, fun k hk p => n.getElem?_eval p hk, ?_⟩
  intro stride hreach buffer
  have hstride : 0 < stride := by
    have hcolour := n.three_le_reach
    omega
  refine ⟨length_mapPixels stride n.length_eval buffer, fun i hi => ?_⟩
  have hplace : i / stride * stride + i % stride = i := Nat.div_add_mod' i stride
  have hinside : i % stride < stride := Nat.mod_lt i hstride
  calc (n.process stride buffer)[i]?
      = (n.eval ((buffer.drop (i / stride * stride)).take stride))[i % stride]? :=
        getElem?_mapPixels hstride n.length_eval buffer i
    _ = ((buffer.drop (i / stride * stride)).take stride)[i % stride]? := n.getElem?_eval _ hi
    _ = buffer[i]? := by rw [List.getElem?_take_of_lt hinside, List.getElem?_drop, hplace]

/-- A matrix on four channels, inside the list of a reference, inside a group. -/
def coverGroup : Node :=
  .group {} [.resolved {} { path := "cover.clf" } { id := "cover" }
    [.operation {} (.matrix
      { array := { dims := [4, 4], values := Array.replicate 16 ⟨0⟩, layout := .matrix } })]]

theorem extraChannels_unchanged_coverGroup :
    coverGroup.reach = 4 ∧
    ∀ buffer : List Float32, (coverGroup.process 5 buffer).length = buffer.length ∧
      (coverGroup.process 5 buffer)[4]? = buffer[4]? ∧
      (coverGroup.process 5 buffer)[9]? = buffer[9]? := by
  have hreach : coverGroup.reach = 4 := rfl
  refine ⟨hreach, fun buffer => ?_⟩
  obtain ⟨-, -, hbuffer⟩ := extraChannels_unchanged coverGroup
  obtain ⟨hlength, hvalues⟩ := hbuffer 5 (by simp [hreach]) buffer
  exact ⟨hlength, hvalues 4 (by simp [hreach]), hvalues 9 (by simp [hreach])⟩

end Node

end CommonLut
