import CommonLut.Proofs.Document.Lookups
import CommonLut.Proofs.Document.SelfContained
import CommonLut.Proofs.Node.Insertion
import CommonLut.Proofs.Store

/-!
# Documents with elements that nothing reads

Two documents whose trees are read alike can stand for each other: read on their own, and as files
that other documents refer to. So an element that has no use where it is inserted changes neither
the list of its own document nor that of a document which leads to it.

The insertion may be given by the two trees, or in the text of the document: there it is the reader
that decides which element the text falls into.

Main statements: `ProcessList.load_put_of_same`, `ProcessList.ofBytes_of_grows`,
`ProcessList.ofBytes_of_spells`.
-/

namespace CommonLut

open ProcessList

/-! ## §1 Files that are read alike -/

section

variable {store : Store} {l : Location} {bytes bytes' : ByteArray}

/-- A target is looked up as before after a file is replaced by another one that is read like it. -/
theorem resolveTarget_put_of_same (hread : store.read l = .ok bytes) (options : ReadOptions)
    (hsame : ∀ link, readBytes link options bytes' = readBytes link options bytes) (levels : Nat)
    (chain : List Location) (directory : Option String) :
    resolveTarget (store.put l (.file bytes')) options levels chain directory =
      resolveTarget store options levels chain directory := by
  -- Induction on the levels: lists inside a list are looked up from elsewhere, with one level less.
  induction levels generalizing chain directory with
  | zero =>
    funext t
    simp only [resolveTarget, followTarget, Store.canonical_put_of_read hread]
  | succ levels ih =>
    funext t
    rw [resolveTarget_succ, resolveTarget_succ]
    unfold followTarget
    rw [Store.canonical_put_of_read hread]
    split
    · rfl
    next x _ =>
    split
    · rfl
    simp only [ih]
    -- Only the replaced file is read from other bytes.
    by_cases hx : x = l
    · rw [hx, Store.read_put_self, hread]
      dsimp only
      rw [hsame]
    · rw [Store.read_put_of_ne _ hx]

namespace ProcessList

theorem ofBytes_put_of_same (hread : store.read l = .ok bytes) (options : ReadOptions)
    (hsame : ∀ link, readBytes link options bytes' = readBytes link options bytes)
    (document : ByteArray) :
    ofBytes (store.put l (.file bytes')) options document = ofBytes store options document := by
  unfold ofBytes freeLink
  rw [resolveTarget_put_of_same hread options hsame]

/-- Every file is loaded as before, the replaced one among them. -/
theorem load_put_of_same (hread : store.read l = .ok bytes) (options : ReadOptions)
    (hsame : ∀ link, readBytes link options bytes' = readBytes link options bytes)
    (path : String) :
    load (store.put l (.file bytes')) options path = load store options path := by
  unfold load
  rw [Store.canonical_put_of_read hread]
  refine congrArg _ (funext fun x => ?_)
  rw [resolveTarget_put_of_same hread options hsame]
  by_cases hx : x = l
  · rw [hx, Store.read_put_self, hread]
    exact hsame _
  · rw [Store.read_put_of_ne _ hx]

end ProcessList

end

/-! ## §2 Elements that are not read -/

namespace ProcessList

theorem readBytes_of_root {bytes : ByteArray} {e : Element} (h : rootElement bytes = .ok e)
    (link : Link) (options : ReadOptions) :
    readBytes link options bytes = read link options e := by
  rw [readBytes, h]
  rfl

theorem readBytes_of_grows {path names : List String} (hnames : claimedAt? path = some names)
    {u : Element} (hname : u.name ∉ names) (hu : u.isPlain = false) {e e' : Element}
    (h : Element.Grows u path e e') {bytes bytes' : ByteArray} (hroot : rootElement bytes = .ok e)
    (hroot' : rootElement bytes' = .ok e') (options : ReadOptions) (link : Link) :
    readBytes link options bytes' = readBytes link options bytes := by
  rw [readBytes_of_root hroot, readBytes_of_root hroot', read_of_grows h hnames hname hu]

/-- A document is read to the list that it was read to, or fails in the same way, after an element
is inserted among the children of the list, of a node, a group at any depth, or a part of a colour
decision list, if the element has a name of no use there, and an attribute or a child. What it
contains does not matter. The same holds where the document is a file, of that file and of all that
refer to it. -/
theorem ofBytes_of_grows {path names : List String} (hnames : claimedAt? path = some names)
    {u : Element} (hname : u.name ∉ names) (hu : u.isPlain = false) {e e' : Element}
    (h : Element.Grows u path e e') {bytes bytes' : ByteArray} (hroot : rootElement bytes = .ok e)
    (hroot' : rootElement bytes' = .ok e') (options : ReadOptions) (store : Store) :
    ofElement store options e' = ofElement store options e ∧
    ofBytes store options bytes' = ofBytes store options bytes ∧
    ∀ l, store.read l = .ok bytes →
      (∀ document, ofBytes (store.put l (.file bytes')) options document =
        ofBytes store options document) ∧
      ∀ file, load (store.put l (.file bytes')) options file = load store options file := by
  have hsame := readBytes_of_grows hnames hname hu h hroot hroot' options
  refine ⟨read_of_grows h hnames hname hu, hsame _, fun l hl => ?_⟩
  exact ⟨ofBytes_put_of_same hl options hsame, load_put_of_same hl options hsame⟩

/-- An element of no known name around one that names a kind. -/
def vendorElement : Element := { name := "Vendor", children := [converting "32f" "10i"] }

/-- A root element with a group around a colour decision list, which has one part. -/
def gradedRoot (part : Element) : Element :=
  rooted [nodeElement "Group" [nodeElement "ASC_CDL" [part]]]

/-- The list of such an element when the part is empty. -/
def gradedList : ProcessList where
  header := { id := "sample" }
  nodes := [.group {} [.operation {} (.cdl Cdl.identity)]]

theorem ofBytes_of_grows_vendor :
    claimedAt? ["Group", "ASC_CDL", "SOPNode"] = some ["Slope", "Offset", "Power"] ∧
    ∀ store,
      ofBytes store {} (gradedRoot { name := "SOPNode" }).toBytes = .ok gradedList ∧
      ofBytes store {} (gradedRoot { name := "SOPNode", children := [vendorElement] }).toBytes =
        .ok gradedList := by
  let part : Element := { name := "SOPNode" }
  let part' : Element := { name := "SOPNode", children := [vendorElement] }
  have hpart : Element.Grows vendorElement [] part part' := .here (.whole rfl rfl rfl rfl)
  have hlist : Element.Grows vendorElement ["SOPNode"] (nodeElement "ASC_CDL" [part])
      (nodeElement "ASC_CDL" [part']) := .inside hpart (.whole rfl rfl rfl rfl)
  have hgroup : Element.Grows vendorElement ["ASC_CDL", "SOPNode"]
      (nodeElement "Group" [nodeElement "ASC_CDL" [part]])
      (nodeElement "Group" [nodeElement "ASC_CDL" [part']]) :=
    .inside hlist (.whole rfl rfl rfl rfl)
  have hroot : Element.Grows vendorElement ["Group", "ASC_CDL", "SOPNode"] (gradedRoot part)
      (gradedRoot part') := .inside hgroup (.whole rfl rfl rfl rfl)
  have hbefore : (gradedRoot part).Writable := by decide
  have hafter : (gradedRoot part').Writable := by decide
  have hnames : claimedAt? ["Group", "ASC_CDL", "SOPNode"] =
      some ["Slope", "Offset", "Power"] := rfl
  refine ⟨hnames, fun store => ?_⟩
  have hread : ofBytes store {} (gradedRoot part).toBytes = .ok gradedList :=
    ofBytes_toBytes_of_read hbefore rfl
  obtain ⟨-, hsame, -⟩ := ofBytes_of_grows hnames (by decide) rfl hroot
    (rootElement_toBytes hbefore) (rootElement_toBytes hafter) {} store
  exact ⟨hread, hsame.trans hread⟩

/-- Where the text of such an element is put between two characters of the data inside an open
element, it is inserted among the children of that one: the document that comes about is read as the
one before. Nothing is said of the second document but its text: `Element.parse_inserted` shows that
it has a tree, which the tree of the first one has grown into. This stands beside
`ofBytes_of_grows`, which starts from two given trees; both rest on `readBytes_of_grows`. -/
theorem ofBytes_of_spells {front middle back : List Glyph} {bytes bytes' : ByteArray}
    (hplain : Gzip.isCompressed bytes = false) (hplain' : Gzip.isCompressed bytes' = false)
    (hbytes : Source.ofBytes bytes = front ++ back)
    (hbytes' : Source.ofBytes bytes' = front ++ middle ++ back) {s : Reader.State}
    (hfront : front.foldlM Reader.step {} = .ok s) (hdata : s.mode = .data) {root : String}
    {path names : List String} (hopen : Reader.openNames s.stack = root :: path)
    (hnames : claimedAt? path = some names) {u : Element} (hmiddle : Reader.Spells middle u)
    (hname : u.name ∉ names) (hu : u.isPlain = false) {store : Store} {options : ReadOptions}
    {l : ProcessList} (h : ofBytes store options bytes = .ok l) :
    ofBytes store options bytes' = .ok l := by
  have hstack : s.stack ≠ [] := by
    intro hnil
    rw [hnil] at hopen
    cases hopen
  -- Neither document is compressed, so the texts are what the bytes spell.
  have hroots : ∀ {content}, Gzip.isCompressed content = false →
      rootElement content = Element.parse content := by
    intro content hcontent
    simp [rootElement, hcontent]
  obtain ⟨e, hroot, -⟩ := readBytes_eq_ok.mp h
  rw [hroots hplain] at hroot
  obtain ⟨e', path', hroot', hopen', hgrows⟩ :=
    Element.parse_inserted hbytes hbytes' hfront hdata hstack hmiddle hroot
  cases hopen.symm.trans hopen'
  rw [← hroots hplain] at hroot
  rw [← hroots hplain'] at hroot'
  exact (readBytes_of_grows hnames hname hu hgrows hroot hroot' options _).trans h

end ProcessList

end CommonLut
