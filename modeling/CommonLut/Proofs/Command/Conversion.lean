import CommonLut.Command.Run
import CommonLut.Proofs.Document.Saving

/-!
# Converted documents

Converting loads a document and saves its list. The references that the new document is left with
lead where they led if their paths do, seen from its directory, and if none leads to it. Then the
program applies it to values as it applies the document that was converted.

Main statements: `Command.convert_eq_ok`, `Command.applyText_eq`, `ProcessList.load_save`.
-/

namespace CommonLut

/-! ## §1 Commands -/

namespace Command

section

variable {store after : Store} {options : ReadOptions}

/-- Without another encoding, converting is loading and saving. -/
theorem convert_eq_ok {c : ConvertOptions} (hplain : c.encoding = none) :
    convert store options c = .ok after ↔
      ∃ l, ProcessList.load store options c.input = .ok l ∧
        l.save store { selfContained := c.selfContained, gzip := c.gzip } c.output = .ok after := by
  unfold convert loadList
  rw [hplain]
  constructor
  · intro h
    obtain ⟨l, hload, h⟩ := bind_eq_ok.mp h
    obtain ⟨l', hl', h⟩ := bind_eq_ok.mp h
    cases hl'
    exact ⟨l, mapError_eq_ok.mp hload, mapError_eq_ok.mp h⟩
  · rintro ⟨l, hload, hsave⟩
    exact bind_eq_ok.mpr ⟨l, mapError_eq_ok.mpr hload,
      bind_eq_ok.mpr ⟨l, rfl, mapError_eq_ok.mpr hsave⟩⟩

theorem evaluate?_eq {l l' : ProcessList}
    (h : ∀ stride values, l'.process stride values = l.process stride values) (stride : Nat)
    (values : List Float32) : evaluate? l' stride values = evaluate? l stride values := by
  unfold evaluate?
  rw [h 0, funext (h stride)]

/-- Lists that evaluate alike are applied alike to values that are given alike. -/
theorem applyText_eq {path out : String} {l l' : ProcessList}
    (h : ProcessList.load store options path = .ok l)
    (h' : ProcessList.load after options out = .ok l')
    (hprocess : ∀ stride values, l'.process stride values = l.process stride values)
    {a : ApplyOptions} (hsource : sourceText after a = sourceText store a) :
    applyText after options { a with list := out } =
      applyText store options { a with list := path } := by
  have hsource' : sourceText after { a with list := out } =
      sourceText store { a with list := path } := hsource
  unfold applyText loadList
  dsimp only
  rw [h, h', hsource']
  simp only [Except.mapError, bind, Except.bind, evaluate?_eq hprocess]

end

end Command

/-! ## §2 Documents that are saved elsewhere -/

namespace ProcessList

section

variable {store after : Store} {options : ReadOptions} {wopts : WriteOptions} {path out : String}
  {p : Location} {bytes : ByteArray} {l : ProcessList}

/-- The references in a saved document are those that are left. One that does not lead to this
document leads where it led just if its path does from the new directory. If all references may be
moved, they are resolved to what they were resolved to, and the document is loaded as the flattened
list, which evaluates as before and is applied as before. -/
theorem load_save (hp : store.canonical path = .ok p) (hbytes : store.read p = .ok bytes)
    (hnames : ProperNames bytes) (hstore : wopts.selfContained = true → store.ProperNames)
    (hload : load store options path = .ok l) (hsave : l.save store wopts out = .ok after) :
    Command.convert store options
        { input := path, output := out, selfContained := wopts.selfContained, gzip := wopts.gzip } =
      .ok after ∧
    ∃ q, after.canonical out = .ok q ∧ after.read q = .ok (l.toBytes wopts) ∧
      (∀ t, DocumentRefersTo (l.toBytes wopts) t ↔
        ∃ origin list?, Leaves store wopts.selfContained p l.nodes origin t list?) ∧
      (∀ origin t list?, Leaves store wopts.selfContained p l.nodes origin t list? →
        (t.place? after q ≠ some q →
          (t.place? after q = t.place? store origin ↔ t.place? store q = t.place? store origin)) ∧
        (t.Rooted ∨ q.parent? = origin.parent? → t.place? store q = t.place? store origin) ∧
        (t.Movable store after origin q → fileLink after options q t = .ok list?)) ∧
      ((∀ origin t list?, Leaves store wopts.selfContained p l.nodes origin t list? →
          t.Movable store after origin q) →
        ∃ l', load after options out = .ok l' ∧
          l' = { header := l.header,
                 nodes := Node.rereadAll (Node.flattenAll wopts.selfContained l.nodes) } ∧
          ((wopts.selfContained = true → Node.KeepsEvalAll l.nodes) →
            (∀ stride values, l'.process stride values = l.process stride values) ∧
            ∀ a : Command.ApplyOptions, Command.sourceText after a = Command.sourceText store a →
              Command.applyText after options { a with list := out } =
                Command.applyText store options { a with list := path })) := by
  refine ⟨(Command.convert_eq_ok rfl).mpr ⟨l, hload, hsave⟩, ?_⟩
  -- What was read from the file is what was loaded.
  obtain ⟨p', bytes', hp', hbytes', hread⟩ := exists_readBytes_of_load hload nofun
  cases hp.symm.trans hp'
  cases hbytes.symm.trans hbytes'
  have hl : l.Readable options wopts.selfContained :=
    readable_of_readBytes (looksUpReadable_resolveTarget hstore _ _ _) hnames hread
  obtain ⟨q, rfl, hfree, hq⟩ := save_eq_ok hsave
  refine ⟨q, hq, Store.read_put_self, fun t => ?left, fun origin t list? hleaves =>
    ⟨fun hend => ?kept, Target.place?_eq_of_rooted, hleaves.lookup_of_movable hfree hread⟩,
    fun hmovable => ?loaded⟩
  case left =>
    rw [documentRefersTo_toBytes hl, exists_comm]
    exact exists_congr fun list? => lookups_flatten_iff_leaves hread
  case kept =>
    -- Writing the document changes no path that does not lead to it.
    have hput : t.place? (store.put q (.file (l.toBytes wopts))) q = t.place? store q :=
      Store.toOption_canonical_put hfree fun h => hend (Target.place?_eq_some.mpr h)
    rw [hput]
  case loaded =>
    have hlookups := lookups_of_movable hfree hread hmovable
    have hback := (load_eq_readBytes hq Store.read_put_self).trans
      (readBytes_toBytes_of_lookups hl hlookups)
    refine ⟨_, hback, rfl, fun hkeeps => ?_⟩
    have hprocess := process_rereadAll_flattenAll hl hlookups hkeeps
    exact ⟨hprocess, fun a hsource => Command.applyText_eq hload hback hprocess hsource⟩

end

/-- A reference to a path. -/
def referringTo (path : String) : Element :=
  { name := "Reference"
    attributes := [("inBitDepth", "32f"), ("outBitDepth", "32f"), ("path", path)] }

/-- Two directories, one of them with a document that refers to a path and the file beside it. -/
def twoDirectories (path : String) : Store :=
  { workingDirectory := []
    entries :=
      [(["a"], .directory), (["b"], .directory),
       (["a", "in.clf"], .file (rooted [referringTo path]).toBytes),
       (["a", "target.clf"], .file tenBitFile.toBytes)] }

/-- What the document holds if the path leads to the file. -/
def linkedList (path : String) : ProcessList :=
  { header := { id := "sample" }
    nodes := [.resolved {} { path } tenBitList.header tenBitList.nodes] }

theorem load_twoDirectories {path : String} (hroot : (rooted [referringTo path]).Parsed)
    (hread : Target.schema.read {} (referringTo path) = .ok ({}, { path }))
    (hplace : (twoDirectories path).canonical (({ path } : Target).seenFrom ["a", "in.clf"]) =
      .ok ["a", "target.clf"]) :
    load (twoDirectories path) {} "a/in.clf" = .ok (linkedList path) := by
  have hbytes : (twoDirectories path).read ["a", "in.clf"] =
      .ok (rooted [referringTo path]).toBytes := rfl
  have htarget : fileLink (twoDirectories path) {} ["a", "in.clf"] { path } =
      .ok (some tenBitList) :=
    resolveTarget_of_file hplace rfl rfl
      (readBytes_eq_ok.mpr ⟨_, rootElement_toBytes writable_tenBitFile, rfl⟩)
  refine (load_eq_readBytes rfl hbytes).trans ?_
  refine readBytes_eq_ok.mpr ⟨_, rootElement_toBytes hroot.toWritable, ?_⟩
  rw [hroot.texts]
  exact read_of_nodes rfl rfl (.cons (Node.read_reference rfl rfl hread htarget) .nil)

/-- The file refers to nothing, so references that lead to it may be moved. -/
theorem avoids_twoDirectories {path : String} {after : Store} {q : Location} :
    (twoDirectories path).Avoids after ["a", "target.clf"] q := by
  have hfile : (twoDirectories path).read ["a", "target.clf"] = .ok tenBitFile.toBytes := rfl
  have hnone : ∀ t, ¬ DocumentRefersTo tenBitFile.toBytes t := by
    rintro t ⟨root, hroot, e, he, ht⟩
    cases (rootElement_toBytes writable_tenBitFile).symm.trans hroot
    cases List.mem_singleton.mp he
    cases ht with
    | reference hname _ => exact absurd hname (by decide)
    | group hname _ _ => exact absurd hname (by decide)
  refine fun a ha bytes t hbytes ht => ?_
  rcases ha.cases_head with rfl | ⟨b, ⟨bytes', t', hbytes', ht', -⟩, -⟩
  · obtain rfl := Except.ok.inj (hfile.symm.trans hbytes)
    exact absurd ht (hnone t)
  · obtain rfl := Except.ok.inj (hfile.symm.trans hbytes')
    exact absurd ht' (hnone t')

/-- There is one reference in the list, and it comes from the document itself. -/
theorem leaves_linkedList {path : String} {store : Store} {p origin : Location} {t : Target}
    {list? : Option ProcessList}
    (h : Leaves store false p (linkedList path).nodes origin t list?) :
    t = { path } ∧ origin = p := by
  cases h with
  | unresolved hx => cases List.mem_singleton.mp hx
  | kept _ hx =>
    cases List.mem_singleton.mp hx
    exact ⟨rfl, rfl⟩
  | inlined hself => cases hself

/-- A reference that starts from the root is kept in another directory. -/
theorem load_save_rooted :
    ∃ after l', Command.convert (twoDirectories "/a/target.clf") {}
        { input := "a/in.clf", output := "b/out.clf", gzip := true } = .ok after ∧
      load after {} "b/out.clf" = .ok l' ∧
      ∀ stride values, l'.process stride values =
        (linkedList "/a/target.clf").process stride values := by
  have hroot : (rooted [referringTo "/a/target.clf"]).Parsed := ⟨by decide, rfl⟩
  have hload := load_twoDirectories hroot rfl rfl
  have hbytes : (twoDirectories "/a/target.clf").read ["a", "in.clf"] =
      .ok (rooted [referringTo "/a/target.clf"]).toBytes := rfl
  let after : Store := (twoDirectories "/a/target.clf").put ["b", "out.clf"]
    (.file ((linkedList "/a/target.clf").toBytes { gzip := true }))
  have hsave : (linkedList "/a/target.clf").save (twoDirectories "/a/target.clf") { gzip := true }
      "b/out.clf" = .ok after := rfl
  have hplace : Target.place? (twoDirectories "/a/target.clf") { path := "/a/target.clf" }
      ["a", "in.clf"] = some ["a", "target.clf"] := rfl
  have helsewhere : Target.place? after { path := "/a/target.clf" } ["b", "out.clf"] =
      some ["a", "target.clf"] := rfl
  have hmovable : ∀ origin t list?, Leaves (twoDirectories "/a/target.clf") false ["a", "in.clf"]
      (linkedList "/a/target.clf").nodes origin t list? →
        t.Movable (twoDirectories "/a/target.clf") after origin ["b", "out.clf"] := by
    intro origin t list? hleaves
    obtain ⟨rfl, rfl⟩ := leaves_linkedList hleaves
    refine ⟨Target.place?_eq_of_rooted (.inl (.inl rfl)), ?_, fun x hx => ?_⟩
    · rw [helsewhere]
      decide
    · cases hplace.symm.trans hx
      exact avoids_twoDirectories
  obtain ⟨hconvert, q, hq, -, -, -, hback⟩ := load_save rfl hbytes
    (properNames_toBytes hroot.toWritable) (fun h => absurd h Bool.false_ne_true) hload hsave
  have hout : after.canonical "b/out.clf" = .ok ["b", "out.clf"] := rfl
  cases hout.symm.trans hq
  obtain ⟨l', hl', -, hprocess⟩ := hback hmovable
  exact ⟨after, l', hconvert, hl', (hprocess fun h => absurd h Bool.false_ne_true).1⟩

/-- A document that refers to a document in another directory, which refers to a file that is not
there; but a file of the same name is beside the first document. -/
def nestedFiles : Store :=
  { workingDirectory := []
    entries :=
      [(["a"], .directory), (["a", "inner.clf"], .file (rooted [referringTo "target.clf"]).toBytes),
       (["in.clf"], .file (rooted [referringTo "a/inner.clf"]).toBytes),
       (["target.clf"], .file tenBitFile.toBytes)] }

/-- An unresolved reference. -/
def danglingList : ProcessList :=
  { header := { id := "sample" }, nodes := [.reference {} { path := "target.clf" }] }

/-- What the first document holds. -/
def nestedList : ProcessList :=
  { header := { id := "sample" }
    nodes := [.resolved {} { path := "a/inner.clf" } danglingList.header danglingList.nodes] }

theorem load_nestedFiles : load nestedFiles {} "in.clf" = .ok nestedList := by
  have hinner : (rooted [referringTo "target.clf"]).Writable := by decide
  have houter : (rooted [referringTo "a/inner.clf"]).Parsed := ⟨by decide, rfl⟩
  have hbytes : nestedFiles.read ["in.clf"] =
      .ok (rooted [referringTo "a/inner.clf"]).toBytes := rfl
  have hplace : nestedFiles.canonical
      (Target.seenFrom { path := "a/inner.clf" } ["in.clf"]) = .ok ["a", "inner.clf"] := rfl
  have hfile : nestedFiles.read ["a", "inner.clf"] =
      .ok (rooted [referringTo "target.clf"]).toBytes := rfl
  have htarget : fileLink nestedFiles {} ["in.clf"] { path := "a/inner.clf" } =
      .ok (some danglingList) :=
    resolveTarget_of_file hplace rfl hfile
      (readBytes_eq_ok.mpr ⟨_, rootElement_toBytes hinner, rfl⟩)
  refine (load_eq_readBytes rfl hbytes).trans ?_
  refine readBytes_eq_ok.mpr ⟨_, rootElement_toBytes houter.toWritable, ?_⟩
  rw [houter.texts]
  exact read_of_nodes rfl rfl (.cons (Node.read_reference rfl rfl rfl htarget) .nil)

/-- Saved to the other directory, the document has lost its file. -/
theorem load_moved :
    load ((twoDirectories "target.clf").put ["b", "out.clf"]
      (.file ((linkedList "target.clf").toBytes {}))) {} "b/out.clf" = .ok danglingList := by
  have hwritten : ((linkedList "target.clf").write false).Writable := by decide
  refine (load_eq_readBytes rfl Store.read_put_self).trans ?_
  exact readBytes_eq_ok.mpr ⟨_, rootElement_toBytes hwritten, rfl⟩

/-- Saved in place of the file, the document refers to itself. -/
theorem load_overwritten :
    load ((twoDirectories "target.clf").put ["a", "target.clf"]
        (.file ((linkedList "target.clf").toBytes {}))) {} "a/target.clf" =
      .error (.circularReference ["/a/target.clf", "/a/target.clf"]) := by
  have hwritten : ((linkedList "target.clf").write false).Writable := by decide
  have hroot : rootElement ((linkedList "target.clf").toBytes {}) =
      .ok ((linkedList "target.clf").write false).trimmed := rootElement_toBytes hwritten
  refine (load_eq_readBytes rfl Store.read_put_self).trans ?_
  rw [readBytes, hroot]
  rfl

/-- Saved self-contained, the inner document's reference finds the file beside the outer one. -/
theorem load_inlined :
    load (nestedFiles.put ["out.clf"] (.file (nestedList.toBytes { selfContained := true }))) {}
      "out.clf" = .ok (linkedList "target.clf") := by
  let after := nestedFiles.put ["out.clf"] (.file (nestedList.toBytes { selfContained := true }))
  have hwritten : (nestedList.write true).Writable := by decide
  have hroot : rootElement (nestedList.toBytes { selfContained := true }) =
      .ok (rooted [referringTo "target.clf"]) := rootElement_toBytes hwritten
  have hplace : after.canonical (Target.seenFrom { path := "target.clf" } ["out.clf"]) =
      .ok ["target.clf"] := rfl
  have hfile : after.read ["target.clf"] = .ok tenBitFile.toBytes := rfl
  have htarget : fileLink after {} ["out.clf"] { path := "target.clf" } = .ok (some tenBitList) :=
    resolveTarget_of_file hplace rfl hfile
      (readBytes_eq_ok.mpr ⟨_, rootElement_toBytes writable_tenBitFile, rfl⟩)
  refine (load_eq_readBytes rfl Store.read_put_self).trans ?_
  refine readBytes_eq_ok.mpr ⟨_, hroot, ?_⟩
  exact read_of_nodes rfl rfl (.cons (Node.read_reference rfl rfl rfl htarget) .nil)

/-- A reference to a file beside the document is lost in another directory, and one that is inlined
from another directory finds a file that it did not lead to. One that leads to the saved document
makes this unreadable, as a name does out of which the writer makes something else. -/
theorem exists_changed_of_save :
    (∃ l after, load (twoDirectories "target.clf") {} "a/in.clf" = .ok l ∧
      l.save (twoDirectories "target.clf") {} "b/out.clf" = .ok after ∧
      Target.place? (twoDirectories "target.clf") { path := "target.clf" } ["a", "in.clf"] =
        some ["a", "target.clf"] ∧
      Target.place? after { path := "target.clf" } ["b", "out.clf"] = none ∧
      ∃ l', load after {} "b/out.clf" = .ok l' ∧ l'.process 1 [1.0] ≠ l.process 1 [1.0]) ∧
    (∃ l after, load nestedFiles {} "in.clf" = .ok l ∧
      l.save nestedFiles { selfContained := true } "out.clf" = .ok after ∧
      Target.place? nestedFiles { path := "target.clf" } ["a", "inner.clf"] = none ∧
      Target.place? after { path := "target.clf" } ["out.clf"] = some ["target.clf"] ∧
      ∃ l', load after {} "out.clf" = .ok l' ∧ l'.process 1 [1.0] ≠ l.process 1 [1.0]) ∧
    (∃ l after, load (twoDirectories "target.clf") {} "a/in.clf" = .ok l ∧
      l.save (twoDirectories "target.clf") {} "a/target.clf" = .ok after ∧
      ∀ l', load after {} "a/target.clf" ≠ .ok l') ∧
    ∃ l after, load (besideFile (misnamed "a/ ")) {} "target.clf" = .ok l ∧
      l.save (besideFile (misnamed "a/ ")) {} "out.clf" = .ok after ∧
      ∀ l', load after {} "out.clf" ≠ .ok l' := by
  have hload : load (twoDirectories "target.clf") {} "a/in.clf" = .ok (linkedList "target.clf") :=
    load_twoDirectories ⟨by decide, rfl⟩ rfl rfl
  refine ⟨?moved, ?inlined, ?overwritten, ?misnamed⟩
  case moved =>
    have hchanged : danglingList.process 1 [1.0] ≠ (linkedList "target.clf").process 1 [1.0] := by
      decide +kernel
    exact ⟨_, _, hload, rfl, rfl, rfl, danglingList, load_moved, hchanged⟩
  case inlined =>
    have hchanged : (linkedList "target.clf").process 1 [1.0] ≠ nestedList.process 1 [1.0] := by
      decide +kernel
    exact ⟨_, _, load_nestedFiles, rfl, rfl, rfl, linkedList "target.clf", load_inlined, hchanged⟩
  case overwritten =>
    refine ⟨_, _, hload, rfl, fun l' hl' => ?_⟩
    cases load_overwritten.symm.trans hl'
  case misnamed =>
    have hfile : (besideFile (misnamed "a/ ")).read ["target.clf"] =
        .ok (misnamed "a/ ").toBytes := rfl
    have hread : load (besideFile (misnamed "a/ ")) {} "target.clf" = .ok misnamedList :=
      (load_eq_readBytes rfl hfile).trans (readBytes_eq_ok.mpr ⟨_, rootElement_misnamed, rfl⟩)
    refine ⟨misnamedList, _, hread, rfl, fun l' hl' => ?_⟩
    have hback := (load_eq_readBytes rfl Store.read_put_self).symm.trans hl'
    obtain ⟨root, hroot, -⟩ := readBytes_eq_ok.mp hback
    cases rootElement_misnamedList.symm.trans hroot

end ProcessList

end CommonLut
