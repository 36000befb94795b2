import CommonLut.Proofs.Chunks

/-!
# Evaluation of buffers

No node changes the number of channels. So a list that takes the whole buffer through one node
before the next gives what it gives pixel by pixel.

Main statements: `Node.length_eval`, `ProcessList.process_eq_mapPixels`.
-/

namespace CommonLut

/-! ## §1 Pixels keep their length -/

namespace Pixel

variable {ν : Type}

@[simp]
theorem length_mapColor (f : Nat → ν → ν) (p : Pixel ν) : (p.mapColor f).length = p.length := by
  unfold mapColor
  split <;> rfl

@[simp]
theorem length_mapTriple (f : Triple ν → Triple ν) (p : Pixel ν) :
    (p.mapTriple f).length = p.length := by
  unfold mapTriple
  split <;> rfl

end Pixel

theorem Matrix.length_apply {ω ν : Type} [Scalar ω] [Precision ω ν] (m : Matrix ω) (p : Pixel ν) :
    (m.apply p).length = p.length := by
  unfold apply
  dsimp only
  split
  · rfl
  · rw [List.length_append, List.length_map, List.length_range, List.length_drop]
    omega

theorem Operation.length_apply (op : Operation) (input output : BitDepth) (p : Pixel Float32) :
    (op.apply input output p).length = p.length := by
  cases op with
  | matrix m => exact m.length_apply p
  | range r => simp only [apply, Range.apply, Pixel.length_mapColor]
  | cdl c => simp only [apply, Cdl.apply, Pixel.length_mapTriple]
  | colorCorrection c => simp only [apply, Cdl.apply, Pixel.length_mapTriple]
  | lut1D l => simp only [apply, Lut1D.apply, Pixel.length_mapColor]
  | lut3D l => simp only [apply, Lut3D.apply, Pixel.length_mapTriple]
  | log c => simp only [apply, LogCurve.apply, Pixel.length_mapColor]
  | gamma c => simp only [apply, GammaCurve.apply, Pixel.length_mapColor]
  | exposureContrast e => simp only [apply, ExposureContrast.apply, Pixel.length_mapColor]

theorem length_adapt (previous : Option BitDepth) (next : BitDepth) (p : Pixel Float32) :
    (adapt previous next p).length = p.length := by
  unfold adapt
  split
  · split
    · rfl
    · rw [Range.apply, Pixel.length_mapColor]
  · rfl

namespace Node

mutual
theorem length_eval : ∀ (n : Node) (p : Pixel Float32), (n.eval p).length = p.length
  | .operation c op, p => op.length_apply c.input c.output p
  | .group _ nodes, p => length_evalGroup nodes none p
  | .reference _ _, _ => rfl
  | .resolved _ _ _ nodes, p => length_evalActive nodes p
termination_by structural n => n

theorem length_evalActive : ∀ (ns : List Node) (p : Pixel Float32),
    (evalActive ns p).length = p.length
  | [], _ => rfl
  | n :: ns, p => by
    have hn := length_eval n p
    rw [evalActive, length_evalActive ns]
    split
    · rfl
    · exact hn
termination_by structural ns => ns

theorem length_evalGroup : ∀ (ns : List Node) (previous : Option BitDepth) (p : Pixel Float32),
    (evalGroup previous ns p).length = p.length
  | [], _, _ => rfl
  | n :: ns, previous, p => by
    have hn := length_eval n (adapt previous n.input p)
    rw [evalGroup]
    split
    · exact length_evalGroup ns previous p
    · rw [length_evalGroup ns, hn, length_adapt]
termination_by structural ns => ns
end

end Node

/-! ## §2 Pixel by pixel -/

/-- A list takes each pixel of a buffer through all its active nodes. -/
theorem ProcessList.process_eq_mapPixels (l : ProcessList) (stride : Nat)
    (values : List Float32) : l.process stride values = mapPixels stride l.evalPixel values := by
  obtain ⟨header, nodes⟩ := l
  unfold process active evalPixel
  dsimp only
  -- Each node is moved from the outer loop over nodes into the inner one over pixels.
  induction nodes generalizing values with
  | nil => exact (mapPixels_id stride values).symm
  | cons n ns ih =>
    rw [List.filter_cons]
    cases hbypass : n.isBypassed with
    | true =>
      have hskip : Node.evalActive (n :: ns) = Node.evalActive ns := by
        funext p
        rw [Node.evalActive, hbypass]
        rfl
      rw [hskip]
      exact ih values
    | false =>
      have hrun : Node.evalActive (n :: ns) = fun p => Node.evalActive ns (n.eval p) := by
        funext p
        rw [Node.evalActive, hbypass]
        rfl
      rw [hrun, ← mapPixels_comp stride n.length_eval values]
      exact ih (n.process stride values)

end CommonLut
