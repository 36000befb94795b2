import CommonLut.Proofs.Document.Lookups
import CommonLut.Proofs.Document.SelfContained
import CommonLut.Proofs.Node.Features

/-!
# Documents read under a profile

A run that accepts less than another one, in extensions or in the nesting of references, goes the
same way until it refuses something. The refusal stops the documents that refer to the one it
happens in, so it comes to the surface however deep it lies. It never leaves a reference unresolved
that the other run resolves.

What is read under a profile uses no feature that the profile refuses, in whatever group or
referenced document: every node of a list was read from an element under the same options.

Main definitions: `ReadOptions.Refuses`, `Node.Within`.
Main statements: `ProcessList.ofBytes_relaxed`, `ProcessList.not_uses_of_readIn`.
-/

namespace CommonLut

/-! ## §1 Two profiles -/

namespace ReadOptions

/-- The errors of some options where others go on. -/
inductive Refuses (options options' : ReadOptions) : Error → Prop
  | feature {name : String} {x : Extension} (hrefused : options.profile.accepts x = false)
      (haccepted : options'.profile.accepts x = true) : Refuses options options' (.unsupported name x)
  | depth (h : options.maxReferenceDepth < options'.maxReferenceDepth) :
      Refuses options options' (.referenceDepth options.maxReferenceDepth)

/-- Options with a larger profile and a larger limit go at least as far. -/
theorem narrowerThan_relaxed {options : ReadOptions} {profile : Profile} {depth : Nat}
    (hprofile : ∀ x, options.profile.accepts x = true → profile.accepts x = true)
    (hdepth : options.maxReferenceDepth ≤ depth) :
    options.NarrowerThan { options with profile, maxReferenceDepth := depth }
      (options.Refuses { options with profile, maxReferenceDepth := depth })
      (depth - options.maxReferenceDepth) where
  require x _ := tracks_require (hprofile x) fun hrefused haccepted => .feature hrefused haccepted
  cacheIndexMaps := rfl
  basePath := rfl
  limit := (Nat.add_sub_of_le hdepth).symm
  depth hmore := .depth (Nat.lt_of_sub_pos hmore)
  propagates := by rintro _ (_ | _) <;> rfl

end ReadOptions

namespace ProcessList

section

variable {store : Store} {options : ReadOptions} {profile : Profile} {depth : Nat}

/-- Two runs of which the second accepts at least as much: a list of the first run is the list of
the second one, and where only the second one gives a list the first one has refused an extension
that the second one accepts, or the nesting. -/
theorem relaxed_of_tracks {r r' : Except Error ProcessList}
    (h : Tracks (options.Refuses { options with profile, maxReferenceDepth := depth }) Eq r r') :
    (∀ l, r = .ok l → r' = .ok l) ∧
    ∀ l, r' = .ok l → r = .ok l ∨
      (∃ name x, r = .error (.unsupported name x) ∧
        options.profile.accepts x = false ∧ profile.accepts x = true) ∨
      r = .error (.referenceDepth options.maxReferenceDepth) ∧
        options.maxReferenceDepth < depth := by
  constructor
  · intro l hl
    obtain ⟨_, hr', rfl⟩ := h.of_ok hl
    exact hr'
  · intro l hl
    obtain ⟨_, hr, rfl⟩ | ⟨e, hr, hrefusal⟩ := h.of_right_ok hl
    · exact .inl hr
    · cases hrefusal with
      | feature hrefused haccepted => exact .inr (.inl ⟨_, _, hr, hrefused, haccepted⟩)
      | depth hless => exact .inr (.inr ⟨hr, hless⟩)

/-- Accepting more extensions and a deeper nesting changes no list that is read. A document that is
only read with them is refused without them for one of the extensions or for the nesting. -/
theorem ofBytes_relaxed
    (hprofile : ∀ x, options.profile.accepts x = true → profile.accepts x = true)
    (hdepth : options.maxReferenceDepth ≤ depth) (bytes : ByteArray) :
    (∀ l, ofBytes store options bytes = .ok l →
      ofBytes store { options with profile, maxReferenceDepth := depth } bytes = .ok l) ∧
    ∀ l, ofBytes store { options with profile, maxReferenceDepth := depth } bytes = .ok l →
      ofBytes store options bytes = .ok l ∨
      (∃ name x, ofBytes store options bytes = .error (.unsupported name x) ∧
        options.profile.accepts x = false ∧ profile.accepts x = true) ∨
      ofBytes store options bytes = .error (.referenceDepth options.maxReferenceDepth) ∧
        options.maxReferenceDepth < depth :=
  relaxed_of_tracks (tracks_ofBytes (ReadOptions.narrowerThan_relaxed hprofile hdepth) bytes)

end

/-- A reader without the second vendor's extension, with a low limit. -/
def plainReader : ReadOptions := { profile := ⟨true, false⟩, maxReferenceDepth := 3 }

/-- A colour correction in the file beside the document. -/
theorem ofBytes_relaxed_correcting :
    ∃ l, ofBytes (besideFile correctingFile) {} referringRoot.toBytes = .ok l ∧
      (ofBytes (besideFile correctingFile) plainReader referringRoot.toBytes = .ok l ∨
        (∃ name x, ofBytes (besideFile correctingFile) plainReader referringRoot.toBytes =
              .error (.unsupported name x) ∧
            plainReader.profile.accepts x = false ∧ Profile.permissive.accepts x = true) ∨
        ofBytes (besideFile correctingFile) plainReader referringRoot.toBytes =
            .error (.referenceDepth 3) ∧ 3 < 16) := by
  have hfile : correctingFile.Writable := by decide
  have hread := ofBytes_referringRoot hfile .permissive rfl correctingList fun _ => rfl
  have hprofile : ∀ x, plainReader.profile.accepts x = true → Profile.permissive.accepts x = true :=
    fun x _ => by cases x <;> rfl
  exact ⟨_, hread, (ofBytes_relaxed hprofile (by decide) _).2 _ hread⟩

end ProcessList

/-! ## §2 Features -/

namespace Node

/-- A node is one of some nodes or inside one of them, at whatever depth. The lists of resolved
references count. -/
inductive Within (n : Node) : List Node → Prop
  | here {ns : List Node} (h : n ∈ ns) : Within n ns
  | inside {ns : List Node} {m : Node} (hm : m ∈ ns) (h : Within n m.inner) : Within n ns

section

variable {P : Node → Prop}

theorem forall_within_nil : ∀ m : Node, m.Within [] → P m := by
  intro m h
  cases h with
  | here h => cases h
  | inside h _ => cases h

theorem forall_within_cons {n : Node} {ns : List Node} :
    (∀ m : Node, m.Within (n :: ns) → P m) ↔
      (P n ∧ ∀ m : Node, m.Within n.inner → P m) ∧ ∀ m : Node, m.Within ns → P m := by
  constructor
  · intro h
    refine ⟨⟨h n (.here List.mem_cons_self), fun m hm => h m (.inside List.mem_cons_self hm)⟩,
      fun m hm => h m ?_⟩
    cases hm with
    | here hm => exact .here (List.mem_cons_of_mem n hm)
    | inside hmem hm => exact .inside (List.mem_cons_of_mem n hmem) hm
  · rintro ⟨⟨hn, hinner⟩, hns⟩ m hm
    cases hm with
    | here hm =>
      rcases List.mem_cons.mp hm with rfl | hm
      · exact hn
      · exact hns m (.here hm)
    | inside hmem hm =>
      rcases List.mem_cons.mp hmem with rfl | hmem
      · exact hinner m hm
      · exact hns m (.inside hmem hm)

end

/-- A node as it is read from an element, in whatever nesting of references. -/
def ReadFrom (store : Store) (options : ReadOptions) (n : Node) : Prop :=
  ∃ levels chain directory e,
    Node.read (resolveTarget store options levels chain directory) options e = .ok (some n)

variable {store : Store} {options : ReadOptions}

/-- The nodes inside a node are read as the node is. -/
theorem ReadFrom.inner {n : Node} (h : n.ReadFrom store options) :
    ∀ m ∈ n.inner, m.ReadFrom store options := by
  obtain ⟨levels, chain, directory, e, hread⟩ := h
  refine read_induction (motive := fun n => ∀ m ∈ n.inner, m.ReadFrom store options)
    ?operation ?reference ?group hread
  case operation =>
    intro kind e c op _ _ m hm
    exact absurd hm List.not_mem_nil
  case reference =>
    intro e c t list? _ _ hlink m hm
    cases list? with
    | none => exact absurd hm List.not_mem_nil
    | some list =>
      -- The nodes of a list that was looked up are read with the lookup of its own document.
      obtain ⟨inner, location, bytes, -, -, -, -, hlist⟩ := resolveTarget_eq_some hlink
      obtain ⟨e', he'⟩ := ProcessList.exists_of_mem_nodes hlist m hm
      exact ⟨inner, _, _, e', he'⟩
  case group =>
    intro e c₀ c nodes _ _ hinside _ m hm
    obtain ⟨e', -, he'⟩ := exists_of_mem_readInside hinside m hm
    exact ⟨levels, chain, directory, e', he'⟩

theorem ReadFrom.within {ns : List Node} (hns : ∀ n ∈ ns, n.ReadFrom store options) {n : Node}
    (h : n.Within ns) : n.ReadFrom store options := by
  induction h with
  | here hmem => exact hns _ hmem
  | inside hm _ ih => exact ih (hns _ hm).inner

end Node

namespace ProcessList

/-- Every node of a list that is read was read from an element, at whatever depth. -/
theorem ReadIn.readFrom {store : Store} {options : ReadOptions} {bytes : ByteArray}
    {l : ProcessList} (h : ReadIn store options bytes l) {n : Node} (hn : n.Within l.nodes) :
    n.ReadFrom store options := by
  obtain ⟨levels, chain, directory, hread⟩ := h
  refine Node.ReadFrom.within (fun n hn => ?_) hn
  obtain ⟨e, he⟩ := exists_of_mem_nodes hread n hn
  exact ⟨levels, chain, directory, e, he⟩

/-- No node of a list that is read, at whatever depth, uses a feature of an extension that the
profile refuses. -/
theorem not_uses_of_readIn {store : Store} {options : ReadOptions} {bytes : ByteArray}
    {l : ProcessList} (h : ReadIn store options bytes l) {x : Extension}
    (hrefused : options.profile.accepts x = false) {n : Node} (hn : n.Within l.nodes) :
    ¬ n.Uses x := by
  intro huses
  obtain ⟨_, _, _, e, he⟩ := h.readFrom hn
  have haccepted := (Node.admitted_of_read he).accepts_of_uses huses
  rw [hrefused] at haccepted
  cases haccepted

/-- A document with features of the second vendor inside each other: bit patterns in a group in a
group. -/
def groupingRoot : Element :=
  let samples : Element :=
    { name := "Array"
      attributes := [("dim", "1 1"), ("floatEncoding", "hex32bit")]
      text := "3f800000" }
  rooted [nodeElement "Group" [nodeElement "Group" [nodeElement "Matrix" [samples]]]]

/-- The file of a list with features of the first vendor: a node that changes the exposure by a
parameter. -/
def exposingFile : Element :=
  let parameter : Element := { name := "DynamicParameter", attributes := [("param", "exposure")] }
  let exposing := nodeElement "ExposureContrast" [parameter]
  rooted [{ exposing with attributes := exposing.attributes ++ [("style", "linear")] }]

/-- A node at some depth that uses features of one vendor, read under a profile that refuses the
other one: bit patterns in two groups, and the exposure in the file of a reference. -/
theorem not_uses_of_readIn_vendors :
    (∃ (l : ProcessList) (n : Node),
      ReadIn { workingDirectory := [] } { profile := ⟨false, true⟩ } groupingRoot.toBytes l ∧
      n ∉ l.nodes ∧ n.Within l.nodes ∧ n.Uses .duikerResearch ∧ ¬ n.Uses .autodesk) ∧
    ∃ (l : ProcessList) (n : Node),
      ReadIn (besideFile exposingFile) { profile := ⟨true, false⟩ } referringRoot.toBytes l ∧
      n ∉ l.nodes ∧ n.Within l.nodes ∧ n.Uses .autodesk ∧ ¬ n.Uses .duikerResearch := by
  constructor
  -- Bit patterns, under a profile without references and parameters.
  · let n : Node := .operation {} (.matrix { array :=
      { dims := [1, 1], values := #[1.0], layout := .matrix, encoding := .hex32 } })
    have hread : ReadIn { workingDirectory := [] } { profile := ⟨false, true⟩ } groupingRoot.toBytes
        { header := { id := "sample" }, nodes := [.group {} [.group {} [n]]] } :=
      readIn_of_ofBytes (ofBytes_toBytes_of_read (by decide) rfl)
    have hn : n.Within [.group {} [.group {} [n]]] :=
      .inside List.mem_cons_self (.inside List.mem_cons_self (.here List.mem_cons_self))
    exact ⟨_, n, hread, by simp [n], hn, .encoding rfl (by decide), not_uses_of_readIn hread rfl hn⟩
  -- A parameter in another file, under a profile without groups and bit patterns.
  · let n : Node := .operation { dynamicParams := ["exposure"] }
      (.exposureContrast (ExposureContrast.neutral .linear))
    let list : ProcessList := { header := { id := "sample" }, nodes := [n] }
    have hfile : exposingFile.Writable := by decide
    have hread := readIn_of_ofBytes
      (ofBytes_referringRoot hfile ⟨true, false⟩ rfl list fun _ => rfl)
    have hn : n.Within [.resolved {} { path := "target.clf" } list.header list.nodes] :=
      .inside List.mem_cons_self (.here List.mem_cons_self)
    exact ⟨_, n, hread, by simp [n], hn, .dynamicParameter (by decide),
      not_uses_of_readIn hread rfl hn⟩

end ProcessList

end CommonLut
