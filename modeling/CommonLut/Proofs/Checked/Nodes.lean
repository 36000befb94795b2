import CommonLut.Node.Evaluate
import CommonLut.Proofs.Checked.Lookup
import CommonLut.Proofs.Document.Profiles

/-!
# Evaluation with checked operations

Evaluation once more, as a machine carries it out that stops where an index or a slice is out of
range, where the result of an integer operation does not fit, and where a buffer is to be cut into
pieces of size zero. It does not stop on nodes whose arrays have the shape that reading them checks.

Main definitions: `Matrix.applied?`, `Lut1D.applied?`, `Lut3D.applied?`, `Operation.applied?`,
`Node.eval?`, `ProcessList.process?`, `Operation.Sound`.
Main statements: `Operation.applied?_eq`, `Node.eval?_eq`, `ProcessList.process?_eq`.
-/

namespace CommonLut

open Checked

/-! ## §1 Pixels -/

namespace Pixel

variable {ν : Type}

/-- `Pixel.mapColor` with a function that may stop. -/
def mapColor? (f : Nat → ν → Option ν) (p : Pixel ν) : Option (Pixel ν) := do
  let color ← ((p.take 3).zipIdx).mapM fun (x, i) => f i x
  return color ++ p.drop 3

/-- `Pixel.mapTriple` with a function that may stop. -/
def mapTriple? (f : Triple ν → Option (Triple ν)) (p : Pixel ν) : Option (Pixel ν) :=
  if p.length < 3 then some p
  else do
    let (r, g, b) ← f (← p[0]?, ← p[1]?, ← p[2]?)
    let _ ← slice? 0 3 p
    return r :: g :: b :: p.drop 3

theorem mapColor?_eq {f : Nat → ν → Option ν} {g : Nat → ν → ν}
    (h : ∀ i x, f i x = some (g i x)) (p : Pixel ν) : p.mapColor? f = some (p.mapColor g) := by
  unfold mapColor? mapColor
  split <;> simp [h]

theorem mapTriple?_eq {f : Triple ν → Option (Triple ν)} {g : Triple ν → Triple ν}
    (h : ∀ c, f c = some (g c)) (p : Pixel ν) : p.mapTriple? f = some (p.mapTriple g) := by
  unfold mapTriple?
  split
  · next hshort =>
    match p with
    | [] | [_] | [_, _] => rfl
    | _ :: _ :: _ :: _ => simp at hshort; omega
  · next hlong =>
    match p with
    | [] | [_] | [_, _] => simp at hlong
    | r :: g :: b :: rest =>
      simp [h, mapTriple, slice?_eq]

end Pixel

/-! ## §2 Operations with arrays -/

namespace Matrix

/-- `Matrix.dot` with checks. -/
def dot? (rows : Nat) (coefficients channels : List Double) : Option Double :=
  let sum := ((coefficients.take rows).zipWith (· * ·) channels).foldl (· + ·) (-0.0)
  if rows < coefficients.length then (coefficients[rows]?).map (sum + ·) else some sum

/-- `Matrix.row` with checks. -/
def row? (m : Matrix Double) (i : Nat) : Option (List Double) := do
  let start ← size? (i * m.columns)
  let stop ← size? ((← size? (i + 1)) * m.columns)
  slice? start stop m.array.values.toList

/-- `Matrix.inputs` with checks. Up to four rows the channels go through a buffer of four. -/
def inputs? (m : Matrix Double) (pixel : Pixel Float32) : Option (List Double) :=
  if m.rows ≤ 4 then
    slice? 0 m.rows ((pixel.take 4).map widen ++ List.replicate (4 - pixel.length) 0.0)
  else some ((pixel.take m.rows).map widen)

/-- `Matrix.apply` with checks. -/
def applied? (m : Matrix Double) (pixel : Pixel Float32) : Option (Pixel Float32) :=
  let count := min m.rows pixel.length
  if count = 0 then some pixel
  else do
    if m.array.size < (← size? (m.rows * m.columns)) then return pixel
    let channels ← m.inputs? pixel
    let products ← (List.range count).mapM fun i => do dot? m.rows (← m.row? i) channels
    return products.map narrow ++ pixel.drop count

/-- The coefficients of a matrix are those of its rows, and fit into memory. -/
structure Sound (m : Matrix Double) : Prop where
  size_lt : m.array.size < sampleBound
  size_eq : m.rows * m.columns = m.array.size
  pos : 0 < m.columns

theorem dot?_eq (rows : Nat) (coefficients channels : List Double) :
    dot? rows coefficients channels = some (dot rows coefficients channels) := by
  unfold dot? dot
  dsimp only
  split
  · next h => rw [List.getElem?_eq_getElem h, Option.map_some]
  · next h => rw [List.getElem?_eq_none (by omega)]

theorem row?_eq {m : Matrix Double} (hm : m.Sound) {i : Nat} (hi : i < m.rows) :
    m.row? i = some (m.row i) := by
  have hbound : sampleBound = 2 ^ 60 := rfl
  have hsize : Text.sizeBound = 2 ^ 64 := rfl
  obtain ⟨hlt, heq, hpos⟩ := hm
  have hstop : (i + 1) * m.columns ≤ m.array.size := heq ▸ Nat.mul_le_mul_right _ hi
  have hnext : i + 1 ≤ (i + 1) * m.columns := Nat.le_mul_of_pos_right _ hpos
  have hstart : (i + 1) * m.columns = i * m.columns + m.columns := Nat.succ_mul _ _
  unfold row? row
  rw [size?_eq (by omega), size?_eq (by omega)]
  simp only [Option.bind_eq_bind, Option.bind_some]
  rw [size?_eq (by omega), Option.bind_some, slice?_eq (by omega) hstop, List.drop_take, hstart,
    Nat.add_sub_cancel_left]

theorem inputs?_eq (m : Matrix Double) (pixel : Pixel Float32) :
    m.inputs? pixel = some (m.inputs pixel) := by
  unfold inputs? inputs
  dsimp only
  split
  · next hrows =>
    rw [slice?_eq (Nat.zero_le _) (by simp; omega), List.drop_zero]
    congr 1
    -- The channels that a row needs stand at the front of the buffer, and zeros follow them.
    rw [List.take_append, ← List.map_take, List.take_take, Nat.min_eq_left hrows,
      List.take_replicate]
    simp only [List.length_map, List.length_take]
    congr 2
    omega
  · rfl

theorem applied?_eq {m : Matrix Double} (hm : m.Sound) (pixel : Pixel Float32) :
    m.applied? pixel = some (m.apply pixel) := by
  have hbound : sampleBound = 2 ^ 60 := rfl
  have hsize : Text.sizeBound = 2 ^ 64 := rfl
  obtain ⟨hlt, heq, -⟩ := id hm
  have hrows : ¬ m.array.size < m.rows * m.columns := by omega
  unfold applied? apply
  dsimp only
  rw [if_neg hrows]
  -- Without a row to evaluate the machine does not look at the samples at all.
  by_cases hcount : min m.rows pixel.length = 0
  · rw [if_pos hcount, hcount]
    rfl
  · have hproducts : ((List.range (min m.rows pixel.length)).mapM fun i =>
        (m.row? i).bind fun row => dot? m.rows row (m.inputs pixel)) =
          some ((List.range (min m.rows pixel.length)).map fun i =>
            dot m.rows (m.row i) (m.inputs pixel)) := by
      refine mapM_of_pure fun i hi => ?_
      rw [row?_eq hm (by have := List.mem_range.mp hi; omega), Option.bind_some, dot?_eq]
      rfl
    simp only [if_neg hcount, size?_eq (show m.rows * m.columns < Text.sizeBound by omega),
      if_neg hrows, inputs?_eq, Option.bind_eq_bind, Option.bind_some]
    rw [hproducts, Option.bind_some, List.map_map]
    rfl

end Matrix

namespace Lut1D

/-- `Lut1D.position` with checks. -/
def position? (l : Lut1D) (input : BitDepth) (channel : Nat) (x : Float32) : Option Float32 :=
  match l.indexMap? channel with
  | some m => (m.applied? x).map (· / Float32.ofNat (max (l.array.rows - 1) 1))
  | none => some (if l.halfDomain then x else input.normalize x)

/-- `Lut1D.lookup` with checks. -/
def lookup? (l : Lut1D) (input : BitDepth) (channel : Nat) (x : Float32) : Option Float32 := do
  let position ← l.position? input channel x
  if l.interpolation = some .cubic then l.array.cubic? position channel
  else if l.halfDomain then l.array.halfInterpolated? position channel
  else l.array.linear? position channel

/-- `Lut1D.apply` with checks. -/
def applied? (l : Lut1D) (input : BitDepth) (pixel : Pixel Float32) : Option (Pixel Float32) :=
  pixel.mapColor? (l.lookup? input)

/-- The samples and the index maps of a table fit into memory. -/
structure Sound (l : Lut1D) : Prop where
  size_lt : l.array.size < sampleBound
  indexMaps : ∀ m ∈ l.indexMaps, m.Fits

theorem mem_of_indexMap? {l : Lut1D} {channel : Nat} {m : IndexMap Float}
    (h : l.indexMap? channel = some m) : m ∈ l.indexMaps := by
  rcases Option.or_eq_some_iff.mp h with h | ⟨-, h⟩
  · exact List.mem_of_getElem? h
  · exact List.mem_of_getLast? h

theorem applied?_eq {l : Lut1D} (hl : l.Sound) (input : BitDepth) (pixel : Pixel Float32) :
    l.applied? input pixel = some (l.apply input pixel) := by
  refine Pixel.mapColor?_eq (fun channel x => ?_) pixel
  have hposition : l.position? input channel x = some (l.position input channel x) := by
    unfold position? position
    cases hmap : l.indexMap? channel with
    | none => rfl
    | some m =>
      dsimp only
      rw [IndexMap.applied?_eq (hl.indexMaps m (mem_of_indexMap? hmap)), Option.map_some]
  unfold lookup? lookup
  rw [hposition, Option.bind_eq_bind, Option.bind_some]
  dsimp only
  split
  · exact SampleArray.cubic?_eq hl.size_lt _ channel
  · split
    · exact SampleArray.halfInterpolated?_eq hl.size_lt _ channel
    · exact SampleArray.linear?_eq hl.size_lt _ channel

end Lut1D

namespace Lut3D

/-- `Lut3D.position` with checks. -/
def position? (l : Lut3D) (input : BitDepth) (axis : Nat) (x : Float32) : Option Float32 :=
  match l.indexMap? axis with
  | some m =>
    (m.applied? x).map (· / Float32.ofNat (max ((l.array.dims[axis]?.getD 2) - 1) 1))
  | none => some (input.normalize x)

/-- `Lut3D.lookup` with checks. -/
def lookup? (l : Lut3D) (p : Triple Float32) : Option (Triple Float32) :=
  match l.interpolation.getD .trilinear with
  | .trilinear => l.array.trilinear? p
  | .tetrahedral => l.array.tetrahedral? p

/-- `Lut3D.apply` with checks. -/
def applied? (l : Lut3D) (input : BitDepth) (pixel : Pixel Float32) : Option (Pixel Float32) :=
  pixel.mapTriple? fun (r, g, b) => do
    l.lookup? (← l.position? input 0 r, ← l.position? input 1 g, ← l.position? input 2 b)

/-- The samples of a table are those of a lattice, and they and the index maps fit into memory. -/
structure Sound (l : Lut3D) : Prop where
  lattice : l.array.IsLattice
  indexMaps : ∀ m ∈ l.indexMaps, m.Fits

theorem mem_of_indexMap? {l : Lut3D} {axis : Nat} {m : IndexMap Float}
    (h : l.indexMap? axis = some m) : m ∈ l.indexMaps := by
  unfold indexMap? at h
  split at h
  · next hsingle =>
    cases h
    rw [hsingle]
    exact List.mem_singleton_self m
  · exact List.mem_of_getElem? h

theorem applied?_eq {l : Lut3D} (hl : l.Sound) (input : BitDepth) (pixel : Pixel Float32) :
    l.applied? input pixel = some (l.apply input pixel) := by
  have hposition : ∀ axis x, l.position? input axis x = some (l.position input axis x) := by
    intro axis x
    unfold position? position
    cases hmap : l.indexMap? axis with
    | none => rfl
    | some m =>
      dsimp only
      rw [IndexMap.applied?_eq (hl.indexMaps m (mem_of_indexMap? hmap)), Option.map_some]
  refine Pixel.mapTriple?_eq (fun c => ?_) pixel
  simp only [hposition, Option.bind_eq_bind, Option.bind_some]
  unfold lookup? lookup
  cases l.interpolation.getD .trilinear with
  | trilinear => exact SampleArray.trilinear?_eq hl.lattice _
  | tetrahedral => exact SampleArray.tetrahedral?_eq hl.lattice _

end Lut3D

/-! ## §3 Nodes -/

namespace Operation

/-- `Operation.apply` with checks. Only operations with arrays compute indices; a decision list
takes its colour out of the pixel and puts it back. -/
def applied? (op : Operation) (input output : BitDepth) (pixel : Pixel Float32) :
    Option (Pixel Float32) :=
  match op with
  | .matrix m => m.applied? pixel
  | .lut1D l => l.applied? input pixel
  | .lut3D l => l.applied? input pixel
  | .cdl c | .colorCorrection c =>
    pixel.mapTriple? fun p =>
      some ((c.grade (p.map fun x => widen (input.normalize x))).map fun y =>
        output.denormalize (narrow y))
  | .range r => some (r.apply input output pixel)
  | .log c => some (c.apply input output pixel)
  | .gamma c => some (c.apply input output pixel)
  | .exposureContrast e => some (e.apply input output pixel)

/-- The arrays of an operation have the shape that it takes them to have, and fit into memory. -/
def Sound : Operation → Prop
  | .matrix m => m.Sound
  | .lut1D l => l.Sound
  | .lut3D l => l.Sound
  | _ => True

theorem applied?_eq {op : Operation} (hop : op.Sound) (input output : BitDepth)
    (pixel : Pixel Float32) :
    op.applied? input output pixel = some (op.apply input output pixel) := by
  cases op with
  | matrix m => exact Matrix.applied?_eq hop pixel
  | lut1D l => exact Lut1D.applied?_eq hop input pixel
  | lut3D l => exact Lut3D.applied?_eq hop input pixel
  | cdl c | colorCorrection c =>
    unfold applied? apply Cdl.apply
    exact Pixel.mapTriple?_eq (fun _ => rfl) pixel
  | range | log | gamma | exposureContrast => rfl

end Operation

namespace Node

mutual
/-- `Node.eval` with checks. -/
def eval? : Node → Pixel Float32 → Option (Pixel Float32)
  | .operation c op, pixel => op.applied? c.input c.output pixel
  | .group _ nodes, pixel => evalGroup? none nodes pixel
  | .reference _ _, pixel => some pixel
  | .resolved _ _ _ nodes, pixel => evalActive? nodes pixel
termination_by structural n => n

/-- `Node.evalActive` with checks. -/
def evalActive? : List Node → Pixel Float32 → Option (Pixel Float32)
  | [], pixel => some pixel
  | n :: ns, pixel =>
    if n.isBypassed then evalActive? ns pixel else do evalActive? ns (← n.eval? pixel)
termination_by structural ns => ns

/-- `Node.evalGroup` with checks. The adapters in between are ranges. -/
def evalGroup? (previous : Option BitDepth) : List Node → Pixel Float32 → Option (Pixel Float32)
  | [], pixel => some pixel
  | n :: ns, pixel =>
    if n.isBypassed then evalGroup? previous ns pixel
    else do evalGroup? (some n.output) ns (← n.eval? (adapt previous n.input pixel))
termination_by structural ns => ns
end

/-- The operation of a node, if it is one, is sound. -/
def Sound (n : Node) : Prop := ∀ c op, n = .operation c op → op.Sound

mutual
theorem eval?_eq : ∀ n : Node, n.Sound → (∀ m : Node, m.Within n.inner → m.Sound) →
    ∀ pixel, n.eval? pixel = some (n.eval pixel)
  | .operation c op, hn, _, pixel => Operation.applied?_eq (hn c op rfl) c.input c.output pixel
  | .group _ nodes, _, hinner, pixel => evalGroup?_eq nodes hinner none pixel
  | .reference _ _, _, _, _ => rfl
  | .resolved _ _ _ nodes, _, hinner, pixel => evalActive?_eq nodes hinner pixel
termination_by structural n => n

theorem evalActive?_eq : ∀ ns : List Node, (∀ m : Node, m.Within ns → m.Sound) →
    ∀ pixel, evalActive? ns pixel = some (evalActive ns pixel)
  | [], _, _ => rfl
  | n :: ns, hns, pixel => by
    obtain ⟨⟨hn, hinner⟩, hrest⟩ := forall_within_cons.mp hns
    have hfirst := eval?_eq n hn hinner pixel
    rw [evalActive?, evalActive, hfirst, Option.bind_eq_bind, Option.bind_some]
    split
    · exact evalActive?_eq ns hrest pixel
    · exact evalActive?_eq ns hrest _
termination_by structural ns => ns

theorem evalGroup?_eq : ∀ ns : List Node, (∀ m : Node, m.Within ns → m.Sound) →
    ∀ previous pixel, evalGroup? previous ns pixel = some (evalGroup previous ns pixel)
  | [], _, _, _ => rfl
  | n :: ns, hns, previous, pixel => by
    obtain ⟨⟨hn, hinner⟩, hrest⟩ := forall_within_cons.mp hns
    have hfirst := eval?_eq n hn hinner (adapt previous n.input pixel)
    rw [evalGroup?, evalGroup, hfirst, Option.bind_eq_bind, Option.bind_some]
    split
    · exact evalGroup?_eq ns hrest previous pixel
    · exact evalGroup?_eq ns hrest _ _
termination_by structural ns => ns
end

end Node

/-! ## §4 Buffers -/

/-- The chunks of a list, if their size is not zero. -/
def Checked.chunks? {α : Type} (size : Nat) (xs : List α) : Option (List (List α)) :=
  if size = 0 then none else some (chunks size xs)

/-- `mapPixels` with a function that may stop. -/
def mapPixels? (stride : Nat) (f : Pixel Float32 → Option (Pixel Float32)) (buffer : List Float32) :
    Option (List Float32) :=
  if stride = 0 then f buffer
  else do
    let pixels ← (← chunks? stride buffer).mapM f
    return pixels.flatten

/-- `ProcessList.process` with checks. -/
def ProcessList.process? (l : ProcessList) (stride : Nat) (buffer : List Float32) :
    Option (List Float32) :=
  l.active.foldlM (fun values n => mapPixels? stride n.eval? values) buffer

theorem mapPixels?_eq (stride : Nat) {f : Pixel Float32 → Option (Pixel Float32)}
    {g : Pixel Float32 → Pixel Float32} (h : ∀ p, f p = some (g p)) (buffer : List Float32) :
    mapPixels? stride f buffer = some (mapPixels stride g buffer) := by
  unfold mapPixels? mapPixels
  split
  · exact h buffer
  · next hstride =>
    have hpixels : (chunks stride buffer).mapM f = some ((chunks stride buffer).map g) :=
      mapM_of_pure fun p _ => h p
    rw [show chunks? stride buffer = some (chunks stride buffer) from if_neg hstride,
      Option.bind_eq_bind, Option.bind_some, hpixels, Option.bind_some, List.flatMap_def]
    rfl

theorem ProcessList.process?_eq {l : ProcessList} (hl : ∀ n : Node, n.Within l.nodes → n.Sound)
    (stride : Nat) (buffer : List Float32) :
    l.process? stride buffer = some (l.process stride buffer) := by
  have hactive : ∀ n ∈ l.active, ∀ p, n.eval? p = some (n.eval p) := by
    intro n hn
    have hmem : n ∈ l.nodes := (List.mem_filter.mp hn).1
    exact n.eval?_eq (hl n (.here hmem)) fun m hm => hl m (.inside hmem hm)
  unfold process? process
  generalize l.active = ns at hactive ⊢
  induction ns generalizing buffer with
  | nil => rfl
  | cons n ns ih =>
    obtain ⟨hn, hns⟩ := List.forall_mem_cons.mp hactive
    rw [List.foldlM_cons, mapPixels?_eq stride hn, Option.bind_eq_bind, Option.bind_some]
    exact ih _ hns

end CommonLut
