import CommonLut.Document
import CommonLut.Proofs.Document.Lists
import CommonLut.Proofs.Gzip
import CommonLut.Proofs.Markup.Parse
import CommonLut.Proofs.Markup.RoundTrip

/-!
# Documents read back

The bytes of a written document are parsed to the element that was written, its texts trimmed. So
the list in them is the flattened list, the references that are left being looked up again.

Main definitions: `ProperNames`, `Store.ProperNames`.
Main statements: `looksUpReadable_resolveTarget`, `ProcessList.readBytes_toBytes`.
-/

namespace CommonLut

/-! ## §1 Proper names -/

/-- Every name of an element or attribute in a document is a name of the markup. -/
def ProperNames (bytes : ByteArray) : Prop :=
  ∀ root, ProcessList.rootElement bytes = .ok root → root.NamesValid

/-- The same of every file. -/
def Store.ProperNames (s : Store) : Prop :=
  ∀ location bytes, s.read location = .ok bytes → CommonLut.ProperNames bytes

namespace ProcessList

/-- A root element is a normal tree, whether the document is compressed or not. -/
theorem rootElement_normal {bytes : ByteArray} {root : Element}
    (h : rootElement bytes = .ok root) : root.Normal := by
  unfold rootElement at h
  split at h
  · split at h
    · exact Element.parse_normal h
    · cases h
  · exact Element.parse_normal h

theorem rootElement_parsed {bytes : ByteArray} (hnames : ProperNames bytes) {root : Element}
    (h : rootElement bytes = .ok root) : root.Parsed where
  names := hnames root h
  keys := (rootElement_normal h).keys
  texts := (rootElement_normal h).texts

theorem readBytes_eq_ok {link : Link} {options : ReadOptions} {bytes : ByteArray}
    {l : ProcessList} :
    readBytes link options bytes = .ok l ↔
      ∃ root, rootElement bytes = .ok root ∧ read link options root = .ok l :=
  bind_eq_ok

section

variable {link : Link} {options : ReadOptions} {selfContained : Bool} {bytes : ByteArray}
  {l : ProcessList}

theorem readable_of_readBytes (hlink : Node.LooksUpReadable options selfContained link)
    (hnames : ProperNames bytes) (h : readBytes link options bytes = .ok l) :
    l.Readable options selfContained := by
  obtain ⟨root, hroot, hread⟩ := readBytes_eq_ok.mp h
  exact readable_of_read hlink (rootElement_parsed hnames hroot) hread

theorem linkedBy_of_readBytes (hnames : ProperNames bytes)
    (h : readBytes link options bytes = .ok l) : Node.LinkedByAll link l.nodes := by
  obtain ⟨root, hroot, hread⟩ := readBytes_eq_ok.mp h
  exact linkedBy_of_read (rootElement_parsed hnames hroot) hread

end

end ProcessList

/-! ## §2 Lists that are looked up -/

/-- A file that can be read has an entry; what is there without one is a directory. -/
theorem Store.mem_entries_of_read {store : Store} {p : Location} {bytes : ByteArray}
    (h : store.read p = .ok bytes) : (p, .file bytes) ∈ store.entries := by
  unfold Store.read at h
  split at h
  · next content hentry =>
    cases h
    unfold Store.entry? at hentry
    split at hentry
    · next found hfound =>
      have hp := List.find?_some hfound
      rw [beq_iff_eq] at hp
      subst hp
      have hentry : found.2 = .file bytes := Option.some.inj hentry
      rw [← hentry]
      exact List.mem_of_find?_eq_some hfound
    · split at hentry <;> cases hentry
  · cases h
  · cases h

section

variable {store : Store} {options : ReadOptions}

theorem followTarget_eq_some {chain : List Location} {directory : Option String}
    {visit : Location → Except Error (Option ProcessList)} {t : Target} {list : ProcessList}
    (h : followTarget store chain directory visit t = .ok (some list)) :
    ∃ location, store.canonical (t.pathFrom directory) = .ok location ∧ location ∉ chain ∧
      visit location = .ok (some list) := by
  unfold followTarget at h
  split at h
  · cases h
  · next location hlocation =>
    split at h
    · cases h
    · next hnew => exact ⟨location, hlocation, fun hmem => hnew (List.contains_iff_mem.mpr hmem), h⟩

/-- A target that is found is the list in a file that is not being read, with one level less. -/
theorem resolveTarget_eq_some {levels : Nat} {chain : List Location} {directory : Option String}
    {t : Target} {list : ProcessList}
    (h : resolveTarget store options levels chain directory t = .ok (some list)) :
    ∃ inner location bytes, levels = inner + 1 ∧
      store.canonical (t.pathFrom directory) = .ok location ∧ location ∉ chain ∧
      store.read location = .ok bytes ∧
      ProcessList.readBytes (resolveTarget store options inner (chain ++ [location])
        (location.parent?.map Location.text)) options bytes = .ok list := by
  -- Without a level left nothing is read, and so no list is found.
  cases levels with
  | zero =>
    obtain ⟨location, -, -, hvisit⟩ := followTarget_eq_some h
    cases hvisit
  | succ inner =>
    obtain ⟨location, hlocation, hnew, hvisit⟩ := followTarget_eq_some h
    dsimp only at hvisit
    split at hvisit
    · cases hvisit
    · next bytes hbytes =>
      split at hvisit
      · next found hfound =>
        cases hvisit
        exact ⟨inner, location, bytes, rfl, hlocation, hnew, hbytes, hfound⟩
      · split at hvisit <;> cases hvisit

/-- A file that is there, is not being read and holds a list gives this list. -/
theorem resolveTarget_of_file {levels : Nat} {chain : List Location} {directory : Option String}
    {t : Target} {location : Location} {bytes : ByteArray} {list : ProcessList}
    (hcanonical : store.canonical (t.pathFrom directory) = .ok location)
    (hnew : chain.contains location = false) (hbytes : store.read location = .ok bytes)
    (hlist : ProcessList.readBytes (resolveTarget store options levels (chain ++ [location])
      (location.parent?.map Location.text)) options bytes = .ok list) :
    resolveTarget store options (levels + 1) chain directory t = .ok (some list) := by
  rw [resolveTarget, followTarget, hcanonical]
  dsimp only
  rw [hnew, hbytes]
  dsimp only
  rw [if_neg Bool.false_ne_true, hlist]

/-- Lists that are looked up are as they are read, however deep they are nested. -/
theorem looksUpReadable_resolveTarget {selfContained : Bool}
    (hstore : selfContained = true → store.ProperNames) (levels : Nat) (chain : List Location)
    (directory : Option String) :
    Node.LooksUpReadable options selfContained
      (resolveTarget store options levels chain directory) := by
  -- A file is read with one level less, a longer chain and from its own directory.
  induction levels generalizing chain directory with
  | zero =>
    intro _ t list h
    obtain ⟨inner, _, _, hlevels, -⟩ := resolveTarget_eq_some h
    cases hlevels
  | succ levels ih =>
    intro hself t list h
    obtain ⟨inner, location, bytes, hlevels, -, -, hbytes, hread⟩ := resolveTarget_eq_some h
    cases hlevels
    exact (ProcessList.readable_of_readBytes (ih _ _) (hstore hself location bytes hbytes)
      hread).nodes

end

/-! ## §3 Written documents -/

theorem isCompressed_toBytes (e : Element) : Gzip.isCompressed e.toBytes = false := by
  obtain ⟨rest, hrest⟩ : ∃ rest, e.toBytes.data.toList = '<'.toUInt8 :: rest := by
    rw [Element.toBytes, Element.toText, String.append_assoc, String.toUTF8_eq_toByteArray,
      String.toByteArray_append]
    exact ⟨_, rfl⟩
  have hfirst : e.toBytes.data[0]? = some '<'.toUInt8 := by
    rw [← Array.getElem?_toList, hrest]
    rfl
  rw [Gzip.isCompressed, hfirst]
  rfl

namespace ProcessList

/-- A compressed document has the root element of what was compressed. -/
theorem rootElement_compress {bytes : ByteArray} (hplain : Gzip.isCompressed bytes = false) :
    rootElement (Gzip.compress bytes) = rootElement bytes := by
  rw [rootElement, if_pos (Gzip.isCompressed_compress bytes), Gzip.decompress?_compress, rootElement,
    if_neg (by simp [hplain])]

/-- The root of a written document is the same, whether the document is compressed or not. -/
theorem rootElement_gzip (l : ProcessList) (selfContained gzip : Bool) :
    rootElement (l.toBytes { selfContained, gzip }) = rootElement (l.toBytes { selfContained }) := by
  cases gzip with
  | false => rfl
  | true => exact rootElement_compress (isCompressed_toBytes _)

/-- The root of a written document is the element that was written, its texts trimmed. -/
theorem rootElement_toBytes {e : Element} (he : e.Writable) :
    rootElement e.toBytes = .ok e.trimmed := by
  rw [rootElement, if_neg (by simp [isCompressed_toBytes]), Element.parse_toBytes he.names he.keys]

theorem properNames_toBytes {e : Element} (he : e.Writable) : ProperNames e.toBytes := by
  intro root hroot
  rw [rootElement_toBytes he] at hroot
  cases hroot
  exact e.namesValid_trimmed.mpr he.names

theorem ofBytes_toBytes_of_read {store : Store} {options : ReadOptions} {e : Element}
    (he : e.Writable) {l : ProcessList}
    (h : read (freeLink store options) options e.trimmed = .ok l) :
    ofBytes store options e.toBytes = .ok l :=
  readBytes_eq_ok.mpr ⟨e.trimmed, rootElement_toBytes he, h⟩

section

variable {link : Link} {options : ReadOptions} {selfContained : Bool} {l : ProcessList}

/-- A written list is read back with its header and the flattened nodes, their references looked up
and their arrays reread. -/
theorem readBytes_toBytes_eq (hl : l.Readable options selfContained)
    (hanswered : Node.AnsweredAll link (Node.flattenAll selfContained l.nodes)) :
    readBytes link options (l.toBytes { selfContained }) =
      .ok { header := l.header,
            nodes := Node.rereadAll (Node.relinkAll link (Node.flattenAll selfContained l.nodes)) } :=
  readBytes_eq_ok.mpr ⟨_, rootElement_toBytes (writable_write hl),
    read_written hl (Node.readAll_writeAll hl.nodes hanswered)⟩

/-- A written list is read back as a list with its header and nodes like the flattened ones. -/
theorem readBytes_toBytes (hl : l.Readable options selfContained)
    (hanswered : Node.AnsweredAll link (Node.flattenAll selfContained l.nodes)) :
    ∃ ns, readBytes link options (l.toBytes { selfContained }) =
        .ok { header := l.header, nodes := ns } ∧
      Node.AlikeAll (Node.relinkAll link (Node.flattenAll selfContained l.nodes)) ns :=
  ⟨_, readBytes_toBytes_eq hl hanswered, Node.alikeAll_reread _
    (Node.readableAll_iff.mpr (Node.readable_flattenAll l.nodes hl.nodes))⟩

/-- A written list is read back just where the lookups of the references in it are answered. -/
theorem exists_readBytes_toBytes_iff (hl : l.Readable options selfContained) :
    (∃ l', readBytes link options (l.toBytes { selfContained }) = .ok l') ↔
      Node.AnsweredAll link (Node.flattenAll selfContained l.nodes) := by
  constructor
  · rintro ⟨l', h⟩
    obtain ⟨root, hroot, hread⟩ := readBytes_eq_ok.mp h
    cases (rootElement_toBytes (writable_write hl)).symm.trans hroot
    -- Of the children of the root, those that are written for nodes come last.
    refine Node.answeredAll_of_readBack hl.nodes fun e he => ?_
    refine exists_read_of_read hread e.trimmed ?_
    rw [Element.children_trimmed]
    exact List.mem_map_of_mem (List.mem_append_right _ he)
  · intro hanswered
    obtain ⟨ns, hread, -⟩ := readBytes_toBytes hl hanswered
    exact ⟨_, hread⟩

end

/-! ## §4 Fixed points -/

theorem toBytes_of_alike (header : ListHeader) {ns ns' : List Node} (h : Node.AlikeAll ns ns') :
    toBytes { header, nodes := ns' } {} = toBytes { header, nodes := ns } {} := by
  have hwrite : write { header, nodes := ns' } false = write { header, nodes := ns } false := by
    rw [write, write, h.writeAll]
  show (write { header, nodes := ns' } false).toBytes = (write { header, nodes := ns } false).toBytes
  rw [hwrite]

/-- Writing and reading again changes nothing more: the list of a document is written as a document
whose list is written as the same bytes and takes every buffer to the same result. -/
theorem ofBytes_toBytes_stable {store : Store} {options : ReadOptions} {bytes : ByteArray}
    (hnames : ProperNames bytes) {l : ProcessList} (h : ofBytes store options bytes = .ok l) :
    ∃ l', ofBytes store options (l.toBytes {}) = .ok l' ∧ l'.toBytes {} = l.toBytes {} ∧
      ∀ stride values, l'.process stride values = l.process stride values := by
  have hl : l.Readable options false := readable_of_readBytes nofun hnames h
  have hlinked : Node.LinkedByAll (freeLink store options) l.nodes := linkedBy_of_readBytes hnames h
  obtain ⟨hanswered, hrelink⟩ := Node.relinkAll_of_linkedBy l.nodes hlinked
  obtain ⟨ns, hread, halike⟩ := readBytes_toBytes hl (by rwa [Node.flattenAll_false])
  -- Nothing was flattened, and every reference leads where it led before.
  rw [Node.flattenAll_false, hrelink] at halike
  exact ⟨_, hread, toBytes_of_alike l.header halike, fun stride values =>
    halike.process l.header l.header stride values⟩

/-- A document in spellings that the writer does not use, with a child that is skipped and a
reference to a file that is missing. -/
def looseRoot : Element :=
  let range : Element :=
    { name := "Range"
      attributes := [("style", "clamp"), ("outBitDepth", "32f"), ("inBitDepth", "10i")]
      children := [.leaf "minInValue" " 0.5 ", .leaf "minOutValue" "1e2", .leaf "minInValue" "0.25"] }
  let skipped : Element := { name := "Unknown", attributes := [("key", "value")] }
  let group : Element :=
    { name := "Group"
      attributes := [("bypass", "1"), ("inBitDepth", "10i"), ("outBitDepth", " 32f ")]
      children := [range, skipped, .leaf "Description" "A <group>"] }
  let reference : Element :=
    { name := "Reference"
      attributes := [("path", "missing.clf"), ("inBitDepth", "32f"), ("outBitDepth", "16f")] }
  { name := "ProcessList"
    attributes := [("id", "loose"), ("note", "kept")]
    children := [group, .leaf "Description" "A & B", reference] }

/-- What such a document holds. -/
def looseList : ProcessList :=
  let range : Range Float :=
    { minIn := some 0.25, minOut := some 100.0, style := some .clamp }
  { header :=
      { id := "loose", extra := [("note", "kept")], elements := [.leaf "Description" "A & B"] }
    nodes :=
      [.group { input := .uint10, bypass := some true, elements := [.leaf "Description" "A <group>"] }
        [.operation { input := .uint10 } (.range range)],
       .reference { output := .float16 } { path := "missing.clf" }] }

theorem ofBytes_toBytes_stable_loose :
    ∃ l l', ofBytes { workingDirectory := [] } {} looseRoot.toBytes = .ok l ∧
      ofBytes { workingDirectory := [] } {} (l.toBytes {}) = .ok l' ∧
      l'.toBytes {} = l.toBytes {} ∧ ∀ stride values, l'.process stride values = l.process stride values := by
  have hroot : looseRoot.Writable := by decide
  have hread : ofBytes { workingDirectory := [] } {} looseRoot.toBytes = .ok looseList :=
    ofBytes_toBytes_of_read hroot rfl
  obtain ⟨l', hl'⟩ := ofBytes_toBytes_stable (properNames_toBytes hroot) hread
  exact ⟨looseList, l', hread, hl'⟩

end ProcessList

end CommonLut
