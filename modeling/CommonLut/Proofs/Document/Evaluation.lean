import CommonLut.Proofs.Checked.Nodes
import CommonLut.Proofs.Document.Equality

/-!
# Evaluation of lists that were read

What is checked when arrays are read is what their lookups rely on: the dimensions multiply to the
number of samples, a matrix has as many columns as rows or one more, a lattice has three axes and
three channels. With arrays that fit into memory, no list that is read makes a machine with
sixty-four bits stop, whatever buffer it is given.

Main definitions: `Operation.FitsMemory`, `ProcessList.FitsMemory`.
Main statements: `NodeKind.readable_of_readNode`, `ProcessList.process?_of_readIn`.
-/

namespace CommonLut

open Checked

/-! ## §1 Operations as they are read -/

namespace Schema

variable {α : Type} {s : Schema α} {options : ReadOptions} {I : α → Prop} {build : α → Operation}

/-- What the attributes and every child give the parameters holds before the final check. -/
theorem exists_of_readOperation (hstart : ∀ e p, s.readAttributes options e = .ok p → I p)
    (hchild : ∀ p child p', I p → s.readChild options p child = .ok (some p') → I p') {e : Element}
    {c : NodeCommon} {op : Operation} (h : s.readOperation build options e = .ok (.operation c op)) :
    ∃ p₁ p, I p₁ ∧ s.finish e.name c.output p₁ = .ok p ∧ op = build p := by
  obtain ⟨⟨c, p⟩, hread, hnode⟩ := bind_eq_ok.mp h
  cases hnode
  obtain ⟨-, p₁, hp₁, hfinish⟩ := read_invariant (J := fun _ => True) (fun _ _ => trivial)
    (hstart e) hchild (fun _ _ _ _ _ => trivial) hread
  exact ⟨p₁, p, hp₁, hfinish, rfl⟩

end Schema

variable {options : ReadOptions}

/-- An operation that is read has what the final check of its kind checks. Nothing is asked of the
markup that it is read from. -/
theorem NodeKind.readable_of_readNode {kind : NodeKind} {link : Link} {e : Element} {c : NodeCommon}
    {op : Operation} (h : kind.readNode link options e = .ok (.operation c op)) :
    op.Readable options c.output := by
  -- Of most operations nothing has to be known but their kind.
  have hplain : ∀ {α : Type} {s : Schema α} {build : α → Operation},
      s.readOperation build options e = .ok (.operation c op) → ∃ p, op = build p := by
    intro α s build hread
    obtain ⟨-, p, -, -, hop⟩ := Schema.exists_of_readOperation (I := fun _ => True)
      (fun _ _ _ => trivial) (fun _ _ _ _ _ => trivial) hread
    exact ⟨p, hop⟩
  obtain ⟨hgroup, hreference⟩ := Node.single_of_readNode h
  cases kind with
  | group => exact absurd rfl hgroup
  | reference => exact absurd rfl hreference
  | matrix =>
    obtain ⟨m₁, m, hm₁, hfinish, rfl⟩ :=
      Schema.exists_of_readOperation (I := fun m => m.array.Pending options .matrix false)
        (fun e m hm => by cases hm; exact .inl rfl)
        (fun m child m' _ hm => Matrix.pending_of_readChild hm) h
    exact Matrix.readable_of_finish hm₁ hfinish
  | lut1D =>
    obtain ⟨l₁, l, hl₁, hfinish, rfl⟩ :=
      Schema.exists_of_readOperation (I := fun l => l.Pending options)
        (fun e l hl => Lut1D.pending_of_readAttributes hl)
        (fun l child l' hl hl' => Lut1D.pending_of_readChild hl hl') h
    exact Lut1D.readable_of_finish hl₁ hfinish
  | lut3D =>
    obtain ⟨l₁, l, hl₁, hfinish, rfl⟩ :=
      Schema.exists_of_readOperation (I := fun l => l.Pending options)
        (fun e l hl => Lut3D.pending_of_readAttributes hl)
        (fun l child l' hl hl' => Lut3D.pending_of_readChild hl hl') h
    exact Lut3D.readable_of_finish hl₁ hfinish
  | colorCorrection =>
    obtain ⟨⟨c, p⟩, hread, hnode⟩ := bind_eq_ok.mp h
    cases hnode
    obtain ⟨-, p₁, hstyle, hfinish⟩ := Schema.readChildren_invariant
      (I := fun p => p.style = .fwd) (J := fun _ => True)
      (fun p child p' hp hchild => (Cdl.style_of_readChild hchild).trans hp)
      (fun _ _ _ _ _ => trivial) trivial rfl hread
    cases hfinish
    exact hstyle
  | range =>
    obtain ⟨r, rfl⟩ := hplain h
    trivial
  | cdl =>
    obtain ⟨p, rfl⟩ := hplain h
    trivial
  | log =>
    obtain ⟨p, rfl⟩ := hplain h
    trivial
  | gamma =>
    obtain ⟨p, rfl⟩ := hplain h
    trivial
  | exposureContrast =>
    obtain ⟨p, rfl⟩ := hplain h
    trivial

/-- An operation, wherever it is read, is as its kind reads it. -/
theorem Node.operationReadable_of_read {link : Link} {e : Element} {c : NodeCommon}
    {op : Operation} (h : Node.read link options e = .ok (some (.operation c op))) :
    op.Readable options c.output := by
  rcases read_eq_ok h with ⟨-, hnone⟩ | ⟨kind, n, -, -, hread, hsome⟩
  · cases hnone
  · cases hsome
    exact NodeKind.readable_of_readNode hread

/-! ## §2 Shapes -/

theorem Matrix.Readable.sound {m : Matrix Double} (hm : m.Readable options)
    (hsize : m.array.size < sampleBound) : m.Sound := by
  obtain ⟨-, hrows, hcolumns⟩ := check_eq_ok.mp hm.shape
  exact ⟨hsize, hm.rows_mul_columns, by omega⟩

theorem Lut3D.Readable.isLattice {l : Lut3D} {depth : BitDepth} (hl : l.Readable options depth)
    (hsize : l.array.size < sampleBound) : l.array.IsLattice := by
  have hcount := not_not.mp hl.array.filled.count
  have hnonzero := hl.array.filled.nonzero
  obtain ⟨hlength, hthree⟩ := not_or.mp hl.shape
  unfold SampleArray.countedDims at hcount
  rw [hl.array.layout_eq] at hcount
  obtain ⟨r, g, b, n, hdims⟩ := List.length_eq_four.mp (not_not.mp hlength)
  rw [hdims] at hcount hnonzero hthree
  obtain rfl : n = 3 := by simpa using hthree
  refine ⟨hsize, ?_, ?_⟩
  · simpa [SampleArray.axes, hdims] using hcount
  · simp only [SampleArray.axes, hdims]
    simp at hnonzero ⊢
    omega

/-- The index maps that are read from a document have at most the table over the half floats. -/
theorem IndexMap.Readable.fits {m : IndexMap Float} (hm : m.Readable options)
    (hpoints : m.points.length < sampleBound) : m.Fits := by
  refine ⟨hpoints, fun table htable => ?_⟩
  rw [hm.tabulated] at htable
  split at htable
  · cases htable
    show (((List.range 65536).map _).toArray).size < sampleBound
    rw [List.size_toArray, List.length_map, List.length_range]
    decide
  · cases htable

/-- The samples and the breakpoints of an operation fit into memory, at eight bytes each: no vector
has more than `2 ^ 63 - 1` bytes. -/
structure Operation.FitsMemory (op : Operation) : Prop where
  samples : ∀ a, op.samples? = some a → a.size < sampleBound
  points : ∀ m ∈ op.indexMaps, m.points.length < sampleBound

theorem Operation.Readable.sound {op : Operation} {depth : BitDepth}
    (hop : op.Readable options depth) (hfits : op.FitsMemory) : op.Sound := by
  cases op with
  | matrix m => exact Matrix.Readable.sound hop (hfits.samples m.array rfl)
  | lut1D l =>
    have hl : l.Readable options depth := hop
    exact ⟨hfits.samples l.array rfl, fun m hm => (hl.indexMaps m hm).fits (hfits.points m hm)⟩
  | lut3D l =>
    have hl : l.Readable options depth := hop
    exact ⟨hl.isLattice (hfits.samples l.array rfl),
      fun m hm => (hl.indexMaps m hm).fits (hfits.points m hm)⟩
  | range | cdl | colorCorrection | log | gamma | exposureContrast => trivial

/-! ## §3 Lists -/

namespace ProcessList

/-- All arrays and index maps in a list, at whatever depth, fit into memory. -/
def FitsMemory (l : ProcessList) : Prop :=
  ∀ n : Node, n.Within l.nodes → ∀ c op, n = .operation c op → op.FitsMemory

theorem length_process (l : ProcessList) (stride : Nat) (values : List Float32) :
    (l.process stride values).length = values.length := by
  rw [process_eq_mapPixels]
  exact length_mapPixels stride (Node.length_evalActive l.nodes) values

variable {store : Store} {bytes : ByteArray} {l : ProcessList}

theorem sound_of_readIn (h : ReadIn store options bytes l) (hfits : l.FitsMemory) :
    ∀ n : Node, n.Within l.nodes → n.Sound := by
  rintro n hn c op rfl
  obtain ⟨_, _, _, e, he⟩ := h.readFrom hn
  exact (Node.operationReadable_of_read he).sound (hfits _ hn c op rfl)

/-- A list that was accepted takes every buffer through its nodes without an index or a slice out of
range, an integer operation with a result that does not fit, or pieces of size zero. The result is
as long as the buffer. -/
theorem process?_of_accepted {path : String}
    (h : ofBytes store options bytes = .ok l ∨ load store options path = .ok l)
    (hfits : l.FitsMemory) (stride : Nat) (values : List Float32) :
    l.process? stride values = some (l.process stride values) ∧
      (l.process stride values).length = values.length := by
  refine ⟨process?_eq (fun n hn => ?_) stride values, l.length_process stride values⟩
  rcases h with h | h
  · exact sound_of_readIn (readIn_of_ofBytes h) hfits n hn
  · obtain ⟨_, _, -, hread⟩ := readIn_of_load h
    exact sound_of_readIn hread hfits n hn

/-- A table with a tabulated index map, and pixels that are short or hold no numbers. -/
theorem process?_of_accepted_mapped :
    ∃ l, ofBytes { workingDirectory := [] } { cacheIndexMaps := true } mappedTable.toBytes = .ok l ∧
      l.FitsMemory ∧
      l.process? 2 [Float32.ofBits 0x7fc00000, Float32.ofBits 0x7f800000, 0.5] =
        some (l.process 2 [Float32.ofBits 0x7fc00000, Float32.ofBits 0x7f800000, 0.5]) ∧
      (l.process 2 [Float32.ofBits 0x7fc00000, Float32.ofBits 0x7f800000, 0.5]).length = 3 := by
  have hroot : mappedTable.Writable := by decide
  have hread : ofBytes { workingDirectory := [] } { cacheIndexMaps := true }
      mappedTable.toBytes = .ok mappedList :=
    ofBytes_toBytes_of_read hroot rfl
  have hfits : mappedList.FitsMemory := by
    refine Node.forall_within_cons.mpr ⟨⟨fun c op hnode => ?_, Node.forall_within_nil⟩,
      Node.forall_within_nil⟩
    cases hnode
    have hbound : sampleBound = 2 ^ 60 := rfl
    refine ⟨fun a ha => ?_, List.forall_mem_singleton.mpr ?_⟩
    · cases ha
      show (1 : Nat) < sampleBound
      omega
    · show (1 : Nat) < sampleBound
      omega
  have haccepted : ofBytes { workingDirectory := [] } { cacheIndexMaps := true }
        mappedTable.toBytes = .ok mappedList ∨
      load { workingDirectory := [] } { cacheIndexMaps := true } "" = .ok mappedList :=
    .inl hread
  exact ⟨mappedList, hread, hfits, process?_of_accepted haccepted hfits 2 _⟩

end ProcessList

end CommonLut
