import CommonLut.Proofs.Document.Saving
import CommonLut.Proofs.Node.Recoding

/-!
# Documents in another encoding

A list that is given an encoding holds the same nodes and evaluates as before. What is written for
it is read back with the samples as the encoding reads them, and that list is written as the same
bytes when it is given the encoding again.

Main definition: `ProcessList.mapArrays`.
Main statements: `ProcessList.process_mapArrays`, `ProcessList.toBytes_recoded`,
`ProcessList.ofBytes_toBytes_withEncoding`.
-/

namespace CommonLut

/-! ## §1 Nodes without references -/

namespace Node

mutual
theorem references_of_lookups : ∀ n : Node, n.lookups = [] → n.references = []
  | .operation _ _, _ => rfl
  | .group _ nodes, h => referencesAll_of_lookupsAll nodes h
  | .reference _ _, h => absurd h (List.cons_ne_nil _ _)
  | .resolved _ _ _ _, h => absurd h (List.cons_ne_nil _ _)
termination_by structural n => n

/-- Where nothing was looked up there is no reference. -/
theorem referencesAll_of_lookupsAll : ∀ ns : List Node, lookupsAll ns = [] → referencesAll ns = []
  | [], _ => rfl
  | n :: ns, h => by
    obtain ⟨hn, hns⟩ := List.append_eq_nil_iff.mp h
    rw [referencesAll, references_of_lookups n hn, referencesAll_of_lookupsAll ns hns]
    rfl
termination_by structural ns => ns
end

section

variable {options : ReadOptions} (selfContained : Bool)

mutual
theorem readable_of_referenceless : ∀ n : Node, n.references = [] → n.Readable options false →
    n.Readable options selfContained
  | .operation _ _, _, hn => hn
  | .group _ nodes, h, hn => ⟨hn.1, readableAll_of_referenceless nodes h hn.2⟩
  | .reference _ _, h, _ => absurd h (List.cons_ne_nil _ _)
  | .resolved _ _ _ _, h, _ => absurd h (List.cons_ne_nil _ _)
termination_by structural n => n

/-- Without references it makes no difference whether the lists of references count. -/
theorem readableAll_of_referenceless : ∀ ns : List Node, referencesAll ns = [] →
    ReadableAll options false ns → ReadableAll options selfContained ns
  | [], _, _ => trivial
  | n :: ns, h, hns => by
    obtain ⟨hn, hrest⟩ := List.append_eq_nil_iff.mp h
    exact ⟨readable_of_referenceless n hn hns.1, readableAll_of_referenceless ns hrest hns.2⟩
termination_by structural ns => ns
end

theorem flattenAll_eq_self {ns : List Node} (h : referencesAll ns = []) :
    flattenAll selfContained ns = ns := by
  cases selfContained with
  | false => exact flattenAll_false ns
  | true => exact flattenAll_of_flatten (flattenAll_of_referenceless ns h).1

end

end Node

/-! ## §2 Lists -/

namespace ProcessList

/-- Changes every array of a list. -/
def mapArrays (f : SampleArray Double → SampleArray Double) (l : ProcessList) : ProcessList :=
  { l with nodes := Node.mapArraysAll f l.nodes }

theorem withEncoding_eq_mapArrays (l : ProcessList) (e : SampleEncoding) :
    l.withEncoding e = l.mapArrays (SampleArray.withEncoding e) := by
  rw [withEncoding, Node.withEncodingAll_eq_mapArraysAll]
  rfl

/-- A list whose samples keep their values gives the same buffers. -/
theorem process_mapArrays {f : SampleArray Double → SampleArray Double}
    (hf : ∀ a, (f a).SameValues a) (l : ProcessList) (stride : Nat) (values : List Float32) :
    (l.mapArrays f).process stride values = l.process stride values := by
  have heval : (l.mapArrays f).evalPixel = l.evalPixel :=
    funext (Node.evalActive_mapArrays hf l.nodes)
  rw [process_eq_mapPixels, heval, ← process_eq_mapPixels]

section

variable {options : ReadOptions} {l : ProcessList} {e : SampleEncoding}

/-- Where the encoding is accepted, the list with recoded arrays could have been read. -/
theorem Readable.recoded {selfContained : Bool} (hl : l.Readable options selfContained)
    (he : e ≠ .text → options.require .duikerResearch "floatEncoding" = .ok ()) :
    (l.mapArrays (SampleArray.recoded e)).Readable options selfContained :=
  ⟨hl.header, Node.readableAll_recoded he l.nodes hl.nodes⟩

/-- A list that is given an encoding is written as the list with recoded arrays. -/
theorem toBytes_recoded {w : WriteOptions} (hl : l.Readable options w.selfContained)
    (e : SampleEncoding) :
    (l.mapArrays (SampleArray.recoded e)).toBytes w = (l.withEncoding e).toBytes w := by
  have hwrite : (l.mapArrays (SampleArray.recoded e)).write w.selfContained =
      (l.mapArrays (SampleArray.withEncoding e)).write w.selfContained := by
    rw [write, write, mapArrays, mapArrays, Node.writeAll_recoded e l.nodes hl.nodes]
  rw [withEncoding_eq_mapArrays, toBytes, toBytes, hwrite]

theorem mapArrays_recoded_recoded (l : ProcessList) (e : SampleEncoding) :
    (l.mapArrays (SampleArray.recoded e)).mapArrays (SampleArray.recoded e) =
      l.mapArrays (SampleArray.recoded e) := by
  rw [mapArrays, mapArrays, Node.mapArraysAll_mapArraysAll]
  simp only [SampleArray.recoded_recoded]

/-- Without references, recoded arrays are all that is changed by writing a list in an encoding and
reading it back, wherever it is read. -/
theorem ofBytes_toBytes_recoded (hreferences : Node.referencesAll l.nodes = []) {w : WriteOptions}
    (hl : l.Readable options w.selfContained)
    (he : e ≠ .text → options.require .duikerResearch "floatEncoding" = .ok ()) (store : Store) :
    ofBytes store options ((l.withEncoding e).toBytes w) =
      .ok (l.mapArrays (SampleArray.recoded e)) := by
  -- There is still no reference, so nothing is inlined on the way and nothing looked up.
  have hfree : Node.referencesAll (l.mapArrays (SampleArray.recoded e)).nodes = [] :=
    (Node.referencesAll_mapArraysAll _ l.nodes).trans hreferences
  have hlinked := Node.linkedByAll_of_referenceless (freeLink store options) _ hfree
  obtain ⟨hanswered, hrelink⟩ := Node.relinkAll_of_linkedBy _ hlinked
  have hflatten := Node.flattenAll_eq_self w.selfContained hfree
  have hreread := Node.rereadAll_recoded e l.nodes
  -- Compression does not matter, since the root element is the same.
  have hroot := rootElement_gzip (l.mapArrays (SampleArray.recoded e)) w.selfContained w.gzip
  have hread := readBytes_toBytes_eq (hl.recoded he) (by rwa [hflatten])
  rw [hflatten, hrelink, show (l.mapArrays (SampleArray.recoded e)).nodes =
    Node.mapArraysAll (SampleArray.recoded e) l.nodes from rfl, hreread] at hread
  rw [← toBytes_recoded hl, ofBytes, readBytes, hroot]
  exact hread

end

/-- Giving an encoding to the list of a document without references changes nothing but the
encodings of arrays. It is written as a document that is read back with the same nodes, their arrays
as the encoding reads what it has written, and once more gives the same bytes. With an encoding that
rounds no number, the samples are the same, but for patterns that are no numbers, and so is every
buffer. -/
theorem ofBytes_toBytes_withEncoding {store : Store} {bytes : ByteArray} {l : ProcessList}
    (hnames : ProperNames bytes) (hfree : ∀ t, ¬ DocumentRefersTo bytes t)
    (h : ofBytes store {} bytes = .ok l) (e : SampleEncoding) :
    l.withEncoding e = l.mapArrays (SampleArray.withEncoding e) ∧
    (∀ stride values, (l.withEncoding e).process stride values = l.process stride values) ∧
    (∀ store' w, ofBytes store' {} ((l.withEncoding e).toBytes w) =
      .ok (l.mapArrays (SampleArray.recoded e))) ∧
    (∀ a, SampleArray.RecodedTo e a (a.recoded e)) ∧
    (∀ w, ((l.mapArrays (SampleArray.recoded e)).withEncoding e).toBytes w =
      (l.withEncoding e).toBytes w) ∧
    (e ∈ [.text, .integer64, .hex64] →
      (∀ x, e.rounded x = x ∨ x.IsNaN ∧ (e.rounded x).IsNaN) ∧
      ∀ stride values, (l.mapArrays (SampleArray.recoded e)).process stride values =
        l.process stride values) := by
  -- A reference in the list would have been looked up.
  have hlookups : Node.lookupsAll l.nodes = [] := by
    refine List.eq_nil_iff_forall_not_mem.mpr fun x hx => hfree x.1 ?_
    exact (documentRefersTo_iff_lookups h).mpr ⟨x.2, hx⟩
  have hreferences := Node.referencesAll_of_lookupsAll l.nodes hlookups
  have hread : l.Readable {} false := readable_of_readBytes nofun hnames h
  have hl : ∀ w : WriteOptions, l.Readable {} w.selfContained := fun w =>
    ⟨hread.header, Node.readableAll_of_referenceless _ l.nodes hreferences hread.nodes⟩
  -- The options that are not restricted accept every encoding.
  have he : e ≠ .text → ({} : ReadOptions).require .duikerResearch "floatEncoding" = .ok () :=
    fun _ => rfl
  refine ⟨l.withEncoding_eq_mapArrays e, fun stride values => ?_, fun store' w =>
    ofBytes_toBytes_recoded hreferences (hl w) he store', SampleArray.recodedTo_recoded e,
    fun w => ?_, fun hexact => ⟨SampleEncoding.rounded_of_exact hexact,
      process_mapArrays (fun a => a.sameValues_recoded hexact) l⟩⟩
  · rw [withEncoding_eq_mapArrays]
    exact process_mapArrays (SampleArray.sameValues_withEncoding e) l stride values
  · rw [← toBytes_recoded ((hl w).recoded he), mapArrays_recoded_recoded, toBytes_recoded (hl w)]

/-- A group with a table of half patterns and one of single-precision patterns, of which the second
has more digits than sixteen bits hold. -/
def groupedTables : Element :=
  let table (attributes announced : List (String × String)) (samples : String) : Element :=
    { name := "LUT1D"
      attributes := [("inBitDepth", "32f"), ("outBitDepth", "32f")] ++ attributes
      children := [
        { name := "Array", attributes := ("dim", "2 1") :: announced, text := samples }] }
  rooted [{ name := "Group"
            attributes := [("inBitDepth", "32f"), ("outBitDepth", "32f")]
            children := [table [("rawHalfs", "true")] [] "0 15360",
              table [] [("floatEncoding", "hex32bit")] "0 45001000"] }]

/-- The list in this document. -/
def groupedList : ProcessList :=
  let halfs : SampleArray Double :=
    { dims := [2, 1]
      values := #[SampleEncoding.ofPattern .half 0, SampleEncoding.ofPattern .half 15360]
      rawHalfs := true }
  let singles : SampleArray Double :=
    { dims := [2, 1]
      values := #[SampleEncoding.ofPattern .single 0, SampleEncoding.ofPattern .single 0x45001000]
      encoding := .hex32 }
  { header := { id := "sample" }
    nodes := [.group {} [.operation {} (.lut1D { array := halfs, rawHalfs := true }),
      .operation {} (.lut1D { array := singles })]] }

/-- The half patterns are kept, the other table is given their width. -/
theorem ofBytes_toBytes_withEncoding_grouped :
    ProperNames groupedTables.toBytes ∧ (∀ t, ¬ DocumentRefersTo groupedTables.toBytes t) ∧
    ofBytes { workingDirectory := [] } {} groupedTables.toBytes = .ok groupedList ∧
    ofBytes { workingDirectory := [] } {} ((groupedList.withEncoding .hex16).toBytes {}) =
      .ok (groupedList.mapArrays (SampleArray.recoded .hex16)) ∧
    ((groupedList.mapArrays (SampleArray.recoded .hex16)).withEncoding .hex16).toBytes {} =
      (groupedList.withEncoding .hex16).toBytes {} := by
  have hroot : groupedTables.Writable := by decide
  have hnames := properNames_toBytes hroot
  have hread : ofBytes { workingDirectory := [] } {} groupedTables.toBytes = .ok groupedList :=
    ofBytes_toBytes_of_read hroot rfl
  -- A reference of the document would stand in the list.
  have hfree : ∀ t, ¬ DocumentRefersTo groupedTables.toBytes t := by
    intro t ht
    obtain ⟨list?, hx⟩ := (documentRefersTo_iff_lookups hread).mp ht
    cases hx
  obtain ⟨-, -, hback, -, hagain, -⟩ := ofBytes_toBytes_withEncoding hnames hfree hread .hex16
  exact ⟨hnames, hfree, hread, hback _ {}, hagain {}⟩

end ProcessList

end CommonLut
