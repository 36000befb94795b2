import CommonLut.Chunks
import CommonLut.Node.Basic

/-!
# Evaluation

A list runs its active nodes one after the other. A group does the same and converts between the
depths of neighbours that disagree; a resolved reference runs its list; an unresolved one leaves
the pixel alone.

A buffer is cut into pixels of `stride` channels, the last one possibly shorter; with stride zero
the whole buffer is one pixel. A list takes the whole buffer through one node before the next.

Main definitions: `Operation.apply`, `Node.eval`, `Node.process`, `Node.chain`,
`ProcessList.evalPixel`, `ProcessList.process`.
-/

namespace CommonLut

/-! ## §1 Pixels -/

/-- The pixel after an operation between two depths. -/
def Operation.apply (op : Operation) (input output : BitDepth) (pixel : Pixel Float32) :
    Pixel Float32 :=
  match op with
  | .matrix m => m.apply pixel
  | .range r => r.apply input output pixel
  | .cdl c | .colorCorrection c => c.apply input output pixel
  | .lut1D l => l.apply input pixel
  | .lut3D l => l.apply input pixel
  | .log c => c.apply input output pixel
  | .gamma c => c.apply input output pixel
  | .exposureContrast e => e.apply input output pixel

/-- The node that only converts values of one depth to another. -/
def Node.adapter (source destination : BitDepth) : Node :=
  .operation { input := source, output := destination } (.range {})

/-- Converts a pixel to the depth that the next node of a group expects. -/
def adapt (previous : Option BitDepth) (next : BitDepth) (pixel : Pixel Float32) :
    Pixel Float32 :=
  match previous with
  | some depth =>
    if depth = next then pixel else ({} : Range Float).apply depth next pixel
  | none => pixel

mutual
/-- The pixel after a node. -/
def Node.eval : Node → Pixel Float32 → Pixel Float32
  | .operation c op, pixel => op.apply c.input c.output pixel
  | .group _ nodes, pixel => Node.evalGroup none nodes pixel
  | .reference _ _, pixel => pixel
  | .resolved _ _ _ nodes, pixel => Node.evalActive nodes pixel
termination_by structural n => n

/-- The pixel after the active nodes of a list. -/
def Node.evalActive : List Node → Pixel Float32 → Pixel Float32
  | [], pixel => pixel
  | n :: ns, pixel => Node.evalActive ns (if n.isBypassed then pixel else n.eval pixel)
termination_by structural ns => ns

/-- The pixel after the active nodes of a group, `previous` being the depth it has now. -/
def Node.evalGroup (previous : Option BitDepth) : List Node → Pixel Float32 → Pixel Float32
  | [], pixel => pixel
  | n :: ns, pixel =>
    if n.isBypassed then Node.evalGroup previous ns pixel
    else Node.evalGroup (some n.output) ns (n.eval (adapt previous n.input pixel))
termination_by structural ns => ns
end

/-- The active nodes of a group with the adapters that its evaluation inserts between them. -/
def Node.chainFrom (previous : Option BitDepth) : List Node → List Node
  | [] => []
  | n :: ns =>
    if n.isBypassed then Node.chainFrom previous ns
    else
      let between :=
        match previous with
        | some depth => if depth = n.input then [] else [Node.adapter depth n.input]
        | none => []
      between ++ n :: Node.chainFrom (some n.output) ns

/-- The evaluation chain of a group. -/
def Node.chain (nodes : List Node) : List Node := Node.chainFrom none nodes

/-! ## §2 Buffers -/

/-- A buffer taken pixel by pixel through a function. -/
def mapPixels (stride : Nat) (f : Pixel Float32 → Pixel Float32) (buffer : List Float32) :
    List Float32 :=
  if stride = 0 then f buffer else (chunks stride buffer).flatMap f

/-- The buffer after a node. -/
def Node.process (n : Node) (stride : Nat) (buffer : List Float32) : List Float32 :=
  mapPixels stride n.eval buffer

namespace ProcessList

/-- The pixel after a list. -/
def evalPixel (l : ProcessList) (pixel : Pixel Float32) : Pixel Float32 :=
  Node.evalActive l.nodes pixel

/-- The buffer after a list. -/
def process (l : ProcessList) (stride : Nat) (buffer : List Float32) : List Float32 :=
  l.active.foldl (fun values n => n.process stride values) buffer

end ProcessList

end CommonLut
