import CommonLut.Proofs.Document.Profiles
import CommonLut.Proofs.Node.Equality

/-!
# Lists that are read back equal

A list that is written and read again holds the same nodes, its own arrays reread and its references
looked up again. It is equal to the list that was written just if nothing in it differs from itself
and no encoding was announced for half patterns. Where all samples are numbers, it is even the same
list.

Main definitions: `Node.numbers`, `Node.Comparable`, `Node.operations`, `ProcessList.reread`.
Main statements: `Node.reread_equal_iff`, `ProcessList.ofBytes_toBytes_beq_iff`.
-/

namespace CommonLut

/-! ## §1 Common parts and headers -/

namespace NodeCommon

/-- The numbers among the children that belong to no kind. -/
def numbers (c : NodeCommon) : List Float := c.values.map Prod.snd

theorem beq_self_iff {c : NodeCommon} :
    (c == c) = true ↔ ∀ x ∈ c.numbers, x.isNaN = false := by
  have hvalues : (c.values == c.values) = true ↔ ∀ x ∈ c.numbers, x.isNaN = false := by
    rw [beq_self_list, numbers, List.forall_mem_map]
    refine forall₂_congr fun v _ => ?_
    rw [beq_self_prod, beq_self_float]
    exact and_iff_right BEq.rfl
  rw [← hvalues]
  obtain ⟨id, name, input, output, bypass, elements, values, dynamicParams, extra⟩ := c
  show instBEqNodeCommon.beq _ _ = true ↔ _
  simp only [instBEqNodeCommon.beq, BEq.rfl, Bool.and_true, Bool.true_and]

end NodeCommon

instance : ReflBEq ListHeader := ⟨fun {h} => by
  obtain ⟨id, name, inverseOf, version, extra, elements, values⟩ := h
  show instBEqListHeader.beq _ _ = true
  simp only [instBEqListHeader.beq, BEq.rfl, Bool.and_self]⟩

/-! ## §2 Nodes -/

namespace Node

/-- The numbers of a node by itself. -/
def numbers : Node → List Float
  | operation c op => c.numbers ++ op.numbers
  | group c _ | reference c _ | resolved c _ _ _ => c.numbers

/-- The index maps of a node by itself. -/
def indexMaps : Node → List (IndexMap Float)
  | operation _ op => op.indexMaps
  | _ => []

/-- A node by itself holds nothing but numbers, and no index map that is tabulated. -/
structure Comparable (options : ReadOptions) (n : Node) : Prop where
  numbers : ∀ x ∈ n.numbers, x.isNaN = false
  untabulated : options.cacheIndexMaps = true → n.indexMaps = []

mutual
/-- The operations in a node and in the nodes of groups. Lists of resolved references do not count.
-/
def operations : Node → List Operation
  | operation _ op => [op]
  | group _ nodes => operationsAll nodes
  | reference _ _ | resolved _ _ _ _ => []
termination_by structural n => n

@[inherit_doc operations]
def operationsAll : List Node → List Operation
  | [] => []
  | n :: ns => n.operations ++ operationsAll ns
termination_by structural ns => ns
end

section

variable {options : ReadOptions}

theorem comparable_operation {c : NodeCommon} {op : Operation} :
    (operation c op).Comparable options ↔ (c == c) = true ∧
      (∀ x ∈ op.numbers, x.isNaN = false) ∧ (options.cacheIndexMaps = true → op.indexMaps = []) := by
  rw [NodeCommon.beq_self_iff]
  constructor
  · rintro ⟨hnumbers, hmaps⟩
    obtain ⟨hc, hop⟩ := List.forall_mem_append.mp hnumbers
    exact ⟨hc, hop, hmaps⟩
  · rintro ⟨hc, hop, hmaps⟩
    exact ⟨List.forall_mem_append.mpr ⟨hc, hop⟩, hmaps⟩

/-- Of every other node only the common part counts. -/
theorem comparable_of_indexMaps {n : Node} (hnumbers : n.numbers = n.common.numbers)
    (hmaps : n.indexMaps = []) : n.Comparable options ↔ (n.common == n.common) = true := by
  rw [NodeCommon.beq_self_iff, ← hnumbers]
  exact ⟨fun h => h.numbers, fun h => ⟨h, fun _ => hmaps⟩⟩

mutual
/-- A node equals itself if it is comparable and so is everything inside it. -/
theorem equal_self_iff : ∀ n : Node, n.Admitted options →
    (∀ m : Node, m.Within n.inner → m.Admitted options) →
    (n.equal n = true ↔
      n.Comparable options ∧ ∀ m : Node, m.Within n.inner → m.Comparable options)
  | .operation c op, hn, _ => by
    rw [equal, Bool.and_eq_true, Operation.beq_self_iff (hn.operation c op rfl).indexMaps,
      comparable_operation]
    exact (and_iff_left forall_within_nil).symm
  | .group c nodes, _, hinner => by
    rw [equal, Bool.and_eq_true, equalAll_self_iff nodes hinner,
      comparable_of_indexMaps (n := .group c nodes) rfl rfl]
    rfl
  | .reference c t, _, _ => by
    rw [equal, Bool.and_eq_true, comparable_of_indexMaps (n := .reference c t) rfl rfl]
    exact (and_iff_left BEq.rfl).trans (and_iff_left forall_within_nil).symm
  | .resolved c t header nodes, _, hinner => by
    rw [equal, Bool.and_eq_true, equalAll_self_iff nodes hinner,
      comparable_of_indexMaps (n := .resolved c t header nodes) rfl rfl]
    simp only [BEq.rfl, Bool.and_true]
    rfl
termination_by structural n => n

@[inherit_doc equal_self_iff]
theorem equalAll_self_iff : ∀ ns : List Node, (∀ m : Node, m.Within ns → m.Admitted options) →
    (equalAll ns ns = true ↔ ∀ m : Node, m.Within ns → m.Comparable options)
  | [], _ => iff_of_true rfl forall_within_nil
  | n :: ns, hns => by
    obtain ⟨⟨hn, hinner⟩, hrest⟩ := forall_within_cons.mp hns
    rw [equalAll, Bool.and_eq_true, equal_self_iff n hn hinner, equalAll_self_iff ns hrest,
      forall_within_cons]
termination_by structural ns => ns
end

mutual
/-- A reread node equals the node if everything in it is comparable and the encodings are kept. -/
theorem reread_equal_iff : ∀ n : Node, n.Admitted options →
    (∀ m : Node, m.Within n.inner → m.Admitted options) →
    (n.reread.equal n = true ↔
      (n.Comparable options ∧ ∀ m : Node, m.Within n.inner → m.Comparable options) ∧
        ∀ op ∈ n.operations, op.KeepsEncoding)
  | .operation c op, hn, _ => by
    rw [reread, equal, Bool.and_eq_true,
      Operation.reread_beq_iff (hn.operation c op rfl).indexMaps, comparable_operation, operations,
      List.forall_mem_singleton, ← and_assoc]
    exact and_congr_left fun _ => (and_iff_left forall_within_nil).symm
  | .group c nodes, _, hinner => by
    rw [reread, equal, Bool.and_eq_true, reread_equalAll_iff nodes hinner,
      comparable_of_indexMaps (n := .group c nodes) rfl rfl, ← and_assoc]
    rfl
  -- References are not reread, so their lists have no encodings to keep.
  | .reference c t, hn, hinner => by
    rw [reread, equal_self_iff _ hn hinner]
    exact (and_iff_left fun op hop => absurd hop List.not_mem_nil).symm
  | .resolved c t header nodes, hn, hinner => by
    rw [reread, equal_self_iff _ hn hinner]
    exact (and_iff_left fun op hop => absurd hop List.not_mem_nil).symm
termination_by structural n => n

@[inherit_doc reread_equal_iff]
theorem reread_equalAll_iff : ∀ ns : List Node, (∀ m : Node, m.Within ns → m.Admitted options) →
    (equalAll (rereadAll ns) ns = true ↔
      (∀ m : Node, m.Within ns → m.Comparable options) ∧
        ∀ op ∈ operationsAll ns, op.KeepsEncoding)
  | [], _ => iff_of_true rfl ⟨forall_within_nil, fun op hop => absurd hop List.not_mem_nil⟩
  | n :: ns, hns => by
    obtain ⟨⟨hn, hinner⟩, hrest⟩ := forall_within_cons.mp hns
    rw [rereadAll, equalAll, Bool.and_eq_true, reread_equal_iff n hn hinner,
      reread_equalAll_iff ns hrest, forall_within_cons, operationsAll, List.forall_mem_append]
    exact and_and_and_comm
termination_by structural ns => ns
end

mutual
/-- Where all samples are numbers and the encodings are kept, rereading changes nothing. -/
theorem reread_eq_self : ∀ n : Node,
    (∀ op ∈ n.operations, (∀ x ∈ op.numbers, x.isNaN = false) ∧ op.KeepsEncoding) → n.reread = n
  | .operation c op, h => by
    obtain ⟨hnumbers, hencoding⟩ := List.forall_mem_singleton.mp h
    rw [reread, Operation.reread_eq_self hnumbers hencoding]
  | .group c nodes, h => by rw [reread, rereadAll_eq_self nodes h]
  | .reference _ _, _ => rfl
  | .resolved _ _ _ _, _ => rfl
termination_by structural n => n

@[inherit_doc reread_eq_self]
theorem rereadAll_eq_self : ∀ ns : List Node,
    (∀ op ∈ operationsAll ns, (∀ x ∈ op.numbers, x.isNaN = false) ∧ op.KeepsEncoding) →
      rereadAll ns = ns
  | [], _ => rfl
  | n :: ns, h => by
    obtain ⟨hn, hns⟩ := List.forall_mem_append.mp h
    rw [rereadAll, reread_eq_self n hn, rereadAll_eq_self ns hns]
termination_by structural ns => ns
end

end

end Node

/-! ## §3 Lists -/

namespace ProcessList

/-- A list as it is after it has been written with its references and read where they lead to the
same lists. -/
def reread (l : ProcessList) : ProcessList := { l with nodes := Node.rereadAll l.nodes }

section

variable {store : Store} {options : ReadOptions} {bytes : ByteArray} {l : ProcessList}

/-- Every node of a list that is read is admitted by the profile, at whatever depth. -/
theorem ReadIn.admitted (h : ReadIn store options bytes l) :
    ∀ n : Node, n.Within l.nodes → n.Admitted options := by
  intro n hn
  obtain ⟨_, _, _, e, he⟩ := h.readFrom hn
  exact Node.admitted_of_read he

/-- The list of a document is written as a document that is read back, with the arrays of its own
nodes reread. -/
theorem ofBytes_toBytes_reread (hnames : ProperNames bytes)
    (h : ofBytes store options bytes = .ok l) :
    ofBytes store options (l.toBytes {}) = .ok l.reread := by
  have hl : l.Readable options false := readable_of_readBytes nofun hnames h
  have hlinked : Node.LinkedByAll (freeLink store options) l.nodes := linkedBy_of_readBytes hnames h
  obtain ⟨hanswered, hrelink⟩ := Node.relinkAll_of_linkedBy l.nodes hlinked
  -- Nothing is flattened, and every reference leads where it led before.
  have hread := readBytes_toBytes_eq hl (by rwa [Node.flattenAll_false])
  rw [Node.flattenAll_false, hrelink] at hread
  exact hread

theorem reread_beq_iff (h : ReadIn store options bytes l) :
    (l.reread == l) = true ↔ (∀ n : Node, n.Within l.nodes → n.Comparable options) ∧
      ∀ op ∈ Node.operationsAll l.nodes, op.KeepsEncoding := by
  rw [← Node.reread_equalAll_iff l.nodes h.admitted]
  show (l.header == l.header && Node.equalAll (Node.rereadAll l.nodes) l.nodes) = true ↔ _
  rw [BEq.rfl, Bool.true_and]

/-- The list that is read back from what was written for a list equals it just if all its numbers
are numbers, no index map in it is tabulated and no encoding was announced for half patterns. Where
the samples of its own nodes are numbers and their encodings are kept, it is the very same list. -/
theorem ofBytes_toBytes_beq_iff (hnames : ProperNames bytes)
    (h : ofBytes store options bytes = .ok l) :
    ofBytes store options (l.toBytes {}) = .ok l.reread ∧
    ((l.reread == l) = true ↔
      (∀ n : Node, n.Within l.nodes → n.Comparable options) ∧
        ∀ op ∈ Node.operationsAll l.nodes, op.KeepsEncoding) ∧
    ((∀ op ∈ Node.operationsAll l.nodes,
      (∀ x ∈ op.numbers, x.isNaN = false) ∧ op.KeepsEncoding) → l.reread = l) := by
  refine ⟨ofBytes_toBytes_reread hnames h, reread_beq_iff (readIn_of_ofBytes h), fun hkept => ?_⟩
  rw [reread, Node.rereadAll_eq_self l.nodes hkept]

end

/-- A root element with a table. -/
def tabulating (attributes : List (String × String)) (children : List Element) : Element :=
  rooted [{ name := "LUT1D"
            attributes := [("inBitDepth", "32f"), ("outBitDepth", "32f")] ++ attributes
            children }]

/-- A list of one table. -/
def tabulated (l : Lut1D) : ProcessList :=
  { header := { id := "sample" }, nodes := [.operation {} (.lut1D l)] }

/-- A table of the half patterns of zero and one, with an encoding announced for them or without. -/
def halfTable (announced : List (String × String)) : Element :=
  tabulating [("rawHalfs", "true")]
    [{ name := "Array", attributes := ("dim", "2 1") :: announced, text := "0 15360" }]

/-- The list in such a document. -/
def halfList (encoding : SampleEncoding) : ProcessList :=
  tabulated
    { array :=
        { dims := [2, 1]
          values := #[SampleEncoding.ofPattern .half 0, SampleEncoding.ofPattern .half 15360]
          rawHalfs := true
          encoding }
      rawHalfs := true }

theorem numbers_halfList (encoding : SampleEncoding) :
    ∀ n : Node, n.Within (halfList encoding).nodes → ∀ x ∈ n.numbers, x.isNaN = false := by
  refine Node.forall_within_cons.mpr ⟨⟨?_, Node.forall_within_nil⟩, Node.forall_within_nil⟩
  show ∀ x ∈ [(SampleEncoding.ofPattern .half 0).toFloat,
    (SampleEncoding.ofPattern .half 15360).toFloat], x.isNaN = false
  decide +kernel

/-- Without an announced encoding the same list is read back, and it is equal. -/
theorem ofBytes_toBytes_beq_iff_halfTable :
    ∃ l, ofBytes { workingDirectory := [] } {} (halfTable []).toBytes = .ok l ∧
      ofBytes { workingDirectory := [] } {} (l.toBytes {}) = .ok l.reread ∧
      (l.reread == l) = true ∧ l.reread = l := by
  have hroot : (halfTable []).Writable := by decide
  have hread : ofBytes { workingDirectory := [] } {} (halfTable []).toBytes = .ok (halfList .text) :=
    ofBytes_toBytes_of_read hroot rfl
  obtain ⟨hback, hequal, hsame⟩ := ofBytes_toBytes_beq_iff (properNames_toBytes hroot) hread
  have hencoding : ∀ op ∈ Node.operationsAll (halfList .text).nodes, op.KeepsEncoding := by
    refine List.forall_mem_singleton.mpr fun a ha _ => ?_
    cases ha
    rfl
  have hnumbers := numbers_halfList .text
  refine ⟨_, hread, hback, hequal.mpr ⟨fun n hn => ⟨hnumbers n hn, nofun⟩, hencoding⟩, hsame ?_⟩
  refine fun op hop => ⟨?_, hencoding op hop⟩
  rw [List.mem_singleton.mp hop]
  exact hnumbers _ (.here List.mem_cons_self)

/-- A table with an index map. -/
def mappedTable : Element :=
  tabulating [] [{ name := "IndexMap", attributes := [("dim", "2")], text := "0@0" },
    { name := "Array", attributes := [("dim", "1 1")], text := "0" }]

/-- The list in this document, for a reader that tabulates index maps. -/
def mappedList : ProcessList :=
  let map : IndexMap Float := { dim := 2, points := [(0, 0)] }
  tabulated { array := { dims := [1, 1], values := #[⟨0⟩] }, indexMaps := [map.withCache] }

/-- An element with a name that no document should hold, but that is read from one. -/
def misnamed (name : String) : Element := rooted [.leaf name "t"]

/-- What is read from such a document. -/
def misnamedList : ProcessList := { header := { id := "sample", values := [("a/", "t")] } }

/-- The slash is part of the name where a blank follows it. -/
theorem rootElement_misnamed : rootElement (misnamed "a/ ").toBytes = .ok (misnamed "a/") := by
  rw [rootElement, if_neg (by simp [isCompressed_toBytes]), Element.parse, ofBytes_toBytes]
  rfl

/-- It ends the tag where none does. -/
theorem rootElement_misnamedList :
    rootElement (misnamedList.toBytes {}) = .error (.markup .malformed) := by
  show rootElement (misnamed "a/").toBytes = _
  rw [rootElement, if_neg (by simp [isCompressed_toBytes]), Element.parse, ofBytes_toBytes]
  rfl

/-- What is read is not always read back as an equal list, even if it holds nothing but numbers: not
with an encoding announced for half patterns, not with a tabulated index map, and not with a name
out of which the writer makes something else. -/
theorem exists_not_beq_of_toBytes :
    (∃ l l', ofBytes { workingDirectory := [] } {}
          (halfTable [("floatEncoding", "hex32bit")]).toBytes = .ok l ∧
        (∀ n : Node, n.Within l.nodes → ∀ x ∈ n.numbers, x.isNaN = false) ∧
        ofBytes { workingDirectory := [] } {} (l.toBytes {}) = .ok l' ∧ (l' == l) = false) ∧
      (∃ l l', ofBytes { workingDirectory := [] } { cacheIndexMaps := true }
          mappedTable.toBytes = .ok l ∧
        (∀ n : Node, n.Within l.nodes → ∀ x ∈ n.numbers, x.isNaN = false) ∧
        ofBytes { workingDirectory := [] } { cacheIndexMaps := true } (l.toBytes {}) = .ok l' ∧
        (l' == l) = false) ∧
      ∃ l, ofBytes { workingDirectory := [] } {} (misnamed "a/ ").toBytes = .ok l ∧
        l.nodes = [] ∧ ∀ l', ofBytes { workingDirectory := [] } {} (l.toBytes {}) ≠ .ok l' := by
  refine ⟨?encoding, ?tabulated, ?misnamed⟩
  case encoding =>
    have hroot : (halfTable [("floatEncoding", "hex32bit")]).Writable := by decide
    have hread : ofBytes { workingDirectory := [] } {}
        (halfTable [("floatEncoding", "hex32bit")]).toBytes = .ok (halfList .hex32) :=
      ofBytes_toBytes_of_read hroot rfl
    refine ⟨_, _, hread, numbers_halfList .hex32,
      ofBytes_toBytes_reread (properNames_toBytes hroot) hread, Bool.eq_false_iff.mpr fun h => ?_⟩
    have hencoding := ((reread_beq_iff (readIn_of_ofBytes hread)).mp h).2
    cases hencoding _ List.mem_cons_self _ rfl rfl
  case tabulated =>
    have hroot : mappedTable.Writable := by decide
    have hread : ofBytes { workingDirectory := [] } { cacheIndexMaps := true }
        mappedTable.toBytes = .ok mappedList :=
      ofBytes_toBytes_of_read hroot rfl
    refine ⟨_, _, hread, ?_, ofBytes_toBytes_reread (properNames_toBytes hroot) hread,
      Bool.eq_false_iff.mpr fun h => ?_⟩
    · refine Node.forall_within_cons.mpr ⟨⟨?_, Node.forall_within_nil⟩, Node.forall_within_nil⟩
      show ∀ x ∈ [Float.ofBits 0, 0, 0], x.isNaN = false
      decide
    · have hcomparable := ((reread_beq_iff (readIn_of_ofBytes hread)).mp h).1
      cases (hcomparable _ (.here List.mem_cons_self)).untabulated rfl
  case misnamed =>
    refine ⟨misnamedList, readBytes_eq_ok.mpr ⟨_, rootElement_misnamed, rfl⟩, rfl, fun l' hl' => ?_⟩
    obtain ⟨root, hroot, -⟩ := readBytes_eq_ok.mp hl'
    cases rootElement_misnamedList.symm.trans hroot

end ProcessList

end CommonLut
