import CommonLut.Proofs.Lookup.Recoding
import CommonLut.Proofs.Node.Inlining

/-!
# Nodes in another encoding

Giving an encoding to nodes changes arrays and nothing else, in groups and in the lists of resolved
references too. Nodes that have been read are written as the nodes whose arrays are recoded, and
these could have been read.

Main definition: `Node.mapArrays`.
Main statements: `Node.withEncoding_eq_mapArrays`, `Node.evalActive_mapArrays`,
`Node.readableAll_recoded`, `Node.writeAll_recoded`.
-/

namespace CommonLut

variable {options : ReadOptions} {e : SampleEncoding}

/-! ## §1 Operations -/

namespace Operation

variable (f g : SampleArray Double → SampleArray Double)

@[simp]
theorem kind_modifyArray (op : Operation) : (op.modifyArray f).kind = op.kind := by
  cases op <;> rfl

theorem modifyArray_modifyArray (op : Operation) :
    (op.modifyArray f).modifyArray g = op.modifyArray fun a => g (f a) := by
  cases op <;> rfl

variable {f g}

/-- An operation looks at the values of samples only. -/
theorem apply_modifyArray (hf : ∀ a, (f a).SameValues a) (op : Operation) :
    (op.modifyArray f).apply = op.apply := by
  funext input output p
  cases op with
  | matrix m => exact congrFun (hf m.array).matrix_apply p
  | lut1D l => exact congrFun (congrFun (l.apply_congr (hf l.array)) input) p
  | lut3D l => exact congrFun (congrFun (l.apply_congr (hf l.array)) input) p
  | range | cdl | colorCorrection | log | gamma | exposureContrast => rfl

/-- An operation whose array is recoded could have been read. -/
theorem readable_recoded {output : BitDepth} {op : Operation} (hop : op.Readable options output)
    (he : e ≠ .text → options.require .duikerResearch "floatEncoding" = .ok ()) :
    (op.modifyArray (SampleArray.recoded e)).Readable options output := by
  -- Shape and flags do not depend on how the samples are spelled.
  cases op with
  | matrix m =>
    refine ⟨hop.array.recoded he, ?_, ?_, Matrix.check_eq_ok.mpr ⟨rfl, ?_⟩⟩
    · exact (SampleArray.integers_recoded e m.array).trans hop.integers
    · rw [SampleArray.size_recoded]
      exact hop.size
    · have hshape := (Matrix.check_eq_ok.mp hop.shape).2
      rw [Matrix.rows, Matrix.columns] at hshape ⊢
      rwa [SampleArray.dims_recoded, SampleArray.columns_recoded]
  | lut1D l =>
    refine ⟨hop.array.recoded he, ?_, ?_, ?_, hop.indexMaps, hop.halfDomain, hop.rawHalfs⟩
    · exact (SampleArray.integers_recoded e l.array).trans hop.integers
    · rw [SampleArray.size_recoded]
      exact hop.size
    · rw [SampleArray.dims_recoded, SampleArray.columns_recoded]
      exact hop.shape
  | lut3D l =>
    refine ⟨hop.array.recoded he, ?_, ?_, ?_, hop.indexMaps⟩
    · exact (SampleArray.integers_recoded e l.array).trans hop.integers
    · rw [SampleArray.size_recoded]
      exact hop.size
    · rw [SampleArray.dims_recoded]
      exact hop.shape
  | range | cdl | colorCorrection | log | gamma | exposureContrast => exact hop

/-- An operation that is given an encoding is written as what is read back from that. -/
theorem writeParams_recoded {output : BitDepth} {op : Operation}
    (hop : op.Readable options output) (e : SampleEncoding) :
    (op.modifyArray (SampleArray.recoded e)).writeParams =
      (op.modifyArray (SampleArray.withEncoding e)).writeParams := by
  cases op with
  | matrix m => exact Prod.ext rfl (congrArg (fun child => [child]) (m.array.write_recoded e))
  | lut1D l =>
    -- A table writes its array with its own flag for half patterns, which is that of the array.
    have hraw : l.array.rawHalfs = l.rawHalfs := hop.array.rawHalfs_eq
    have hrecoded : ({ l.array.recoded e with rawHalfs := l.rawHalfs } : SampleArray Double) =
        l.array.recoded e := by
      rw [← hraw, ← SampleArray.rawHalfs_recoded e l.array]
    have hencoded : ({ l.array.withEncoding e with rawHalfs := l.rawHalfs } : SampleArray Double) =
        l.array.withEncoding e := by
      rw [← hraw]
      rfl
    refine Prod.ext rfl (congrArg (fun child => l.indexMaps.map IndexMap.write ++ [child]) ?_)
    show SampleArray.write { l.array.recoded e with rawHalfs := l.rawHalfs } =
      SampleArray.write { l.array.withEncoding e with rawHalfs := l.rawHalfs }
    rw [hrecoded, hencoded, SampleArray.write_recoded]
  | lut3D l =>
    exact Prod.ext rfl (congrArg (fun child => l.indexMaps.map IndexMap.write ++ [child])
      (l.array.write_recoded e))
  | range | cdl | colorCorrection | log | gamma | exposureContrast => rfl

theorem write_recoded {output : BitDepth} {op : Operation} (hop : op.Readable options output)
    (e : SampleEncoding) (c : NodeCommon) :
    (op.modifyArray (SampleArray.recoded e)).write c =
      (op.modifyArray (SampleArray.withEncoding e)).write c := by
  rw [write_eq, write_eq, writeParams_recoded hop, kind_modifyArray, kind_modifyArray]

theorem reread_recoded (e : SampleEncoding) (op : Operation) :
    (op.modifyArray (SampleArray.recoded e)).reread =
      op.modifyArray (SampleArray.recoded e) := by
  cases op with
  | matrix m => exact congrArg (fun a => matrix { array := a }) (m.array.reread_recoded e)
  | lut1D l => exact congrArg (fun a => lut1D { l with array := a }) (l.array.reread_recoded e)
  | lut3D l => exact congrArg (fun a => lut3D { l with array := a }) (l.array.reread_recoded e)
  | range | cdl | colorCorrection | log | gamma | exposureContrast => rfl

end Operation

/-! ## §2 Nodes -/

namespace Node

section

variable (f g : SampleArray Double → SampleArray Double)

mutual
/-- Changes every array of a node, also in groups and resolved references. -/
def mapArrays : Node → Node
  | operation c op => operation c (op.modifyArray f)
  | group c nodes => group c (mapArraysAll nodes)
  | reference c target => reference c target
  | resolved c target header nodes => resolved c target header (mapArraysAll nodes)
termination_by structural n => n

@[inherit_doc mapArrays]
def mapArraysAll : List Node → List Node
  | [] => []
  | n :: ns => n.mapArrays :: mapArraysAll ns
termination_by structural ns => ns
end

@[simp]
theorem common_mapArrays (n : Node) : (n.mapArrays f).common = n.common := by
  cases n <;> rfl

@[simp]
theorem kind_mapArrays (n : Node) : (n.mapArrays f).kind = n.kind := by
  cases n with
  | operation c op => exact op.kind_modifyArray f
  | group | reference | resolved => rfl

@[simp]
theorem isBypassed_mapArrays (n : Node) : (n.mapArrays f).isBypassed = n.isBypassed := by
  rw [isBypassed, isBypassed, common_mapArrays]

@[simp]
theorem input_mapArrays (n : Node) : (n.mapArrays f).input = n.input := by
  rw [input, input, kind_mapArrays, common_mapArrays]

@[simp]
theorem output_mapArrays (n : Node) : (n.mapArrays f).output = n.output := by
  rw [output, output, kind_mapArrays, common_mapArrays]

mutual
theorem mapArrays_mapArrays : ∀ n : Node,
    (n.mapArrays f).mapArrays g = n.mapArrays fun a => g (f a)
  | .operation c op => congrArg (operation c) (op.modifyArray_modifyArray f g)
  | .group c nodes => congrArg (group c) (mapArraysAll_mapArraysAll nodes)
  | .reference _ _ => rfl
  | .resolved c t header nodes =>
    congrArg (resolved c t header) (mapArraysAll_mapArraysAll nodes)
termination_by structural n => n

theorem mapArraysAll_mapArraysAll : ∀ ns : List Node,
    mapArraysAll g (mapArraysAll f ns) = mapArraysAll (fun a => g (f a)) ns
  | [] => rfl
  | n :: ns => congrArg₂ List.cons (mapArrays_mapArrays n) (mapArraysAll_mapArraysAll ns)
termination_by structural ns => ns
end

mutual
theorem references_mapArrays : ∀ n : Node, (n.mapArrays f).references = n.references
  | .operation _ _ => rfl
  | .group _ nodes => referencesAll_mapArraysAll nodes
  | .reference _ _ => rfl
  | .resolved _ t _ nodes => congrArg (List.cons t) (referencesAll_mapArraysAll nodes)
termination_by structural n => n

theorem referencesAll_mapArraysAll : ∀ ns : List Node,
    referencesAll (mapArraysAll f ns) = referencesAll ns
  | [] => rfl
  | n :: ns => congrArg₂ (· ++ ·) (references_mapArrays n) (referencesAll_mapArraysAll ns)
termination_by structural ns => ns
end

end

mutual
/-- An encoding is given to every array. -/
theorem withEncoding_eq_mapArrays (e : SampleEncoding) : ∀ n : Node,
    n.withEncoding e = n.mapArrays (SampleArray.withEncoding e)
  | .operation _ _ => rfl
  | .group c nodes => congrArg (group c) (withEncodingAll_eq_mapArraysAll e nodes)
  | .reference _ _ => rfl
  | .resolved c t header nodes =>
    congrArg (resolved c t header) (withEncodingAll_eq_mapArraysAll e nodes)
termination_by structural n => n

theorem withEncodingAll_eq_mapArraysAll (e : SampleEncoding) : ∀ ns : List Node,
    withEncodingAll e ns = mapArraysAll (SampleArray.withEncoding e) ns
  | [] => rfl
  | n :: ns =>
    congrArg₂ List.cons (withEncoding_eq_mapArrays e n) (withEncodingAll_eq_mapArraysAll e ns)
termination_by structural ns => ns
end

/-! ## §3 Evaluation -/

section

variable {f : SampleArray Double → SampleArray Double}

mutual
theorem eval_mapArrays (hf : ∀ a, (f a).SameValues a) : ∀ (n : Node) (p : Pixel Float32),
    (n.mapArrays f).eval p = n.eval p
  | .operation c op, p => by rw [mapArrays, eval, Operation.apply_modifyArray hf, eval]
  | .group _ nodes, p => evalGroup_mapArrays hf nodes none p
  | .reference _ _, _ => rfl
  | .resolved _ _ _ nodes, p => evalActive_mapArrays hf nodes p
termination_by structural n => n

/-- Nodes whose samples keep their values are evaluated as before. -/
theorem evalActive_mapArrays (hf : ∀ a, (f a).SameValues a) : ∀ (ns : List Node)
    (p : Pixel Float32), evalActive (mapArraysAll f ns) p = evalActive ns p
  | [], _ => rfl
  | n :: ns, p => by
    have hn := eval_mapArrays hf n p
    rw [mapArraysAll, evalActive, evalActive_mapArrays hf ns, isBypassed_mapArrays, hn, evalActive]
termination_by structural ns => ns

theorem evalGroup_mapArrays (hf : ∀ a, (f a).SameValues a) : ∀ (ns : List Node)
    (previous : Option BitDepth) (p : Pixel Float32),
    evalGroup previous (mapArraysAll f ns) p = evalGroup previous ns p
  | [], _, _ => rfl
  | n :: ns, previous, p => by
    have hn := eval_mapArrays hf n (adapt previous n.input p)
    rw [mapArraysAll, evalGroup, evalGroup_mapArrays hf ns, evalGroup_mapArrays hf ns,
      isBypassed_mapArrays, input_mapArrays, output_mapArrays, hn, evalGroup]
termination_by structural ns => ns
end

end

/-! ## §4 Writing and reading back -/

section

variable {selfContained : Bool}

mutual
theorem readable_recoded (he : e ≠ .text → options.require .duikerResearch "floatEncoding" = .ok ()) :
    ∀ n : Node, n.Readable options selfContained →
      (n.mapArrays (SampleArray.recoded e)).Readable options selfContained
  | .operation c op, hn => by
    refine ⟨?_, Operation.readable_recoded hn.2 he⟩
    rw [Operation.kind_modifyArray]
    exact hn.1
  | .group _ nodes, hn => ⟨hn.1, readableAll_recoded he nodes hn.2⟩
  | .reference _ _, hn => hn
  | .resolved _ _ _ nodes, hn => ⟨hn.1, fun hself => readableAll_recoded he nodes (hn.2 hself)⟩
termination_by structural n => n

/-- Where the encoding is accepted, nodes with recoded arrays could have been read. -/
theorem readableAll_recoded
    (he : e ≠ .text → options.require .duikerResearch "floatEncoding" = .ok ()) :
    ∀ ns : List Node, ReadableAll options selfContained ns →
      ReadableAll options selfContained (mapArraysAll (SampleArray.recoded e) ns)
  | [], _ => trivial
  | n :: ns, hns => ⟨readable_recoded he n hns.1, readableAll_recoded he ns hns.2⟩
termination_by structural ns => ns
end

mutual
theorem write_recoded (e : SampleEncoding) : ∀ n : Node, n.Readable options selfContained →
    (n.mapArrays (SampleArray.recoded e)).write selfContained =
      (n.mapArrays (SampleArray.withEncoding e)).write selfContained
  | .operation c op, hn => by
    rw [mapArrays, mapArrays, write, write, Operation.write_recoded hn.2]
  | .group c nodes, hn => by
    rw [mapArrays, mapArrays, write, write, writeAll_recoded e nodes hn.2]
  | .reference _ _, _ => rfl
  | .resolved c t header nodes, hn => by
    rw [mapArrays, mapArrays, write, write]
    -- Without its nodes a resolved reference is written as the reference that it is.
    cases hself : selfContained with
    | false => rfl
    | true =>
      have hnodes := writeAll_recoded e nodes (hn.2 hself)
      rw [hself] at hnodes
      rw [hnodes]
termination_by structural n => n

/-- Nodes that are given an encoding are written as the nodes with recoded arrays. -/
theorem writeAll_recoded (e : SampleEncoding) : ∀ ns : List Node,
    ReadableAll options selfContained ns →
      writeAll selfContained (mapArraysAll (SampleArray.recoded e) ns) =
        writeAll selfContained (mapArraysAll (SampleArray.withEncoding e) ns)
  | [], _ => rfl
  | n :: ns, hns => by
    rw [mapArraysAll, mapArraysAll, writeAll, writeAll, write_recoded e n hns.1,
      writeAll_recoded e ns hns.2]
termination_by structural ns => ns
end

mutual
theorem reread_recoded (e : SampleEncoding) : ∀ n : Node,
    (n.mapArrays (SampleArray.recoded e)).reread = n.mapArrays (SampleArray.recoded e)
  | .operation c op => congrArg (operation c) (op.reread_recoded e)
  | .group c nodes => congrArg (group c) (rereadAll_recoded e nodes)
  | .reference _ _ => rfl
  | .resolved _ _ _ _ => rfl
termination_by structural n => n

/-- Recoded arrays are read back as they are. -/
theorem rereadAll_recoded (e : SampleEncoding) : ∀ ns : List Node,
    rereadAll (mapArraysAll (SampleArray.recoded e) ns) =
      mapArraysAll (SampleArray.recoded e) ns
  | [] => rfl
  | n :: ns => congrArg₂ List.cons (reread_recoded e n) (rereadAll_recoded e ns)
termination_by structural ns => ns
end

end

end Node

end CommonLut
