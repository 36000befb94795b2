import CommonLut.Proofs.Document.Equality
import CommonLut.Proofs.Document.Nesting
import CommonLut.Proofs.Node.Targets
import CommonLut.Proofs.Store

/-!
# Lists that are saved

References are written with the attributes that they have, so what they lead to depends on where the
document is saved, and for those that come from a referenced document, on where this document is.
The written document also may be a file that references lead to. Where the path of a reference leads
to the same place as before and nothing there refers to the document that is written, the reference
is resolved to what it was resolved to, or is unresolved as it was.

Main definitions: `Target.place?`, `Leaves`, `Store.Avoids`, `Target.Movable`.
Main statements: `Target.place?_eq_of_rooted`, `lookups_flatten_iff_leaves`,
`tracks_resolveTarget_put`, `ProcessList.readBytes_toBytes_of_lookups`.
-/

namespace CommonLut

/-! ## §1 Places of targets -/

namespace Target

/-- The path of a target as seen from a document at a location. -/
abbrev seenFrom (t : Target) (p : Location) : String :=
  t.pathFrom (p.parent?.map Location.text)

/-- Where a target is as seen from a document at a location, if its path leads anywhere. -/
def place? (store : Store) (t : Target) (p : Location) : Option Location :=
  (store.canonical (t.seenFrom p)).toOption

theorem place?_eq_some {store : Store} {t : Target} {p x : Location} :
    t.place? store p = some x ↔ store.canonical (t.seenFrom p) = .ok x :=
  toOption_eq_some

/-- The path of a target starts from the root, or the base path does. -/
def Rooted (t : Target) : Prop :=
  isAbsolute t.path = true ∨ ∃ base, t.basePath = some base ∧ isAbsolute base = true

end Target

theorem isAbsolute_append {base : String} (h : isAbsolute base = true) (path : String) :
    isAbsolute (base ++ path) = true := by
  unfold isAbsolute at h ⊢
  rw [String.toList_append]
  cases hlist : base.toList with
  | nil =>
    rw [hlist] at h
    cases h
  | cons c cs =>
    rw [hlist] at h
    exact h

theorem isAbsolute_joinPath {base : String} (h : isAbsolute base = true) (path : String) :
    isAbsolute (joinPath base path) = true := by
  unfold joinPath
  split
  · next hplain =>
    refine hplain.elim id fun hempty => ?_
    rw [String.isEmpty_iff.mp hempty] at h
    cases h
  · split
    · exact isAbsolute_append h path
    · rw [String.append_assoc]
      exact isAbsolute_append h _

namespace Target

variable {t : Target}

/-- What starts from the root is seen alike from everywhere. -/
theorem pathFrom_of_rooted (h : t.Rooted) (directory : Option String) :
    t.pathFrom directory = t.pathFrom none := by
  unfold pathFrom
  by_cases hpath : isAbsolute t.path = true
  · rw [if_pos hpath, if_pos hpath]
  obtain ⟨base, hbase, habsolute⟩ := h.resolve_left hpath
  rw [if_neg hpath, if_neg hpath, hbase]
  cases directory with
  | none => rfl
  | some d => exact if_pos (.inl (isAbsolute_joinPath habsolute t.path))

theorem place?_eq_of_rooted {store : Store} {p q : Location}
    (h : t.Rooted ∨ q.parent? = p.parent?) : t.place? store q = t.place? store p := by
  unfold place? seenFrom
  rcases h with h | h
  · rw [pathFrom_of_rooted h, pathFrom_of_rooted h (p.parent?.map Location.text)]
  · rw [h]

end Target

/-! ## §2 Targets of documents -/

namespace ProcessList

section

variable {link : Link} {options : ReadOptions} {bytes : ByteArray} {l : ProcessList}

/-- Reading a child adds its node to those before. -/
theorem mem_nodes_of_foldlM {es : List Element} {l l' : ProcessList}
    (h : es.foldlM (readChild link options) l = .ok l') (n : Node) :
    n ∈ l'.nodes ↔ n ∈ l.nodes ∨ ∃ e ∈ es, Node.read link options e = .ok (some n) := by
  induction es generalizing l with
  | nil =>
    cases h
    simp
  | cons e es ih =>
    obtain ⟨next, hnext, hrest⟩ := bind_eq_ok.mp h
    rw [ih hrest]
    rcases readChild_eq_ok hnext with ⟨m, hread, rfl⟩ | ⟨hkind, hnext⟩
    · simp [hread, eq_comm, or_assoc]
    · -- A child that is no node goes to the header or is skipped.
      have hnone : Node.read link options e = .ok none := Node.read_eq_none hkind
      rcases hnext with ⟨-, rfl⟩ | ⟨-, rfl⟩ | rfl <;> simp [hnone]

/-- The nodes of a list are those that the children of the root element are read as. -/
theorem mem_nodes_iff {root : Element} (h : read link options root = .ok l) (n : Node) :
    n ∈ l.nodes ↔ ∃ e ∈ root.children, Node.read link options e = .ok (some n) := by
  obtain ⟨-, id, -, hfold⟩ := read_eq_ok.mp h
  rw [mem_nodes_of_foldlM hfold]
  simp

/-- What was looked up for a list is what the lookup gives, for targets of the document. -/
theorem link_of_mem_lookups (h : readBytes link options bytes = .ok l) :
    ∀ x ∈ Node.lookupsAll l.nodes, link x.1 = .ok x.2 ∧ DocumentRefersTo bytes x.1 := by
  obtain ⟨root, hroot, hread⟩ := readBytes_eq_ok.mp h
  intro x hx
  rw [Node.lookupsAll_eq] at hx
  obtain ⟨n, hn, hx⟩ := List.mem_flatMap.mp hx
  obtain ⟨e, he, hread⟩ := (mem_nodes_iff hread n).mp hn
  obtain ⟨hlink, hrefers⟩ := Node.link_of_mem_lookups hread x hx
  exact ⟨hlink, root, hroot, e, he, hrefers⟩

/-- The targets that a document refers to are those that were looked up for its list. -/
theorem documentRefersTo_iff_lookups (h : readBytes link options bytes = .ok l) {t : Target} :
    DocumentRefersTo bytes t ↔ ∃ list?, (t, list?) ∈ Node.lookupsAll l.nodes := by
  constructor
  · rintro ⟨root, hroot, e, he, ht⟩
    obtain ⟨root', hroot', hread⟩ := readBytes_eq_ok.mp h
    cases hroot.symm.trans hroot'
    obtain ⟨result, hresult⟩ := exists_read_of_read hread e he
    cases result with
    | none => exact absurd hresult (Node.read_ne_none ht)
    | some n =>
      obtain ⟨list?, hx⟩ := (Node.refersTo_iff_lookups hresult).mp ht
      refine ⟨list?, ?_⟩
      rw [Node.lookupsAll_eq]
      exact List.mem_flatMap.mpr ⟨n, (mem_nodes_iff hread n).mpr ⟨e, he, hresult⟩, hx⟩
  · rintro ⟨list?, hx⟩
    exact (link_of_mem_lookups h _ hx).2

end

end ProcessList

/-! ## §3 References that are left -/

/-- A reference that is left in what is written for some nodes of the document at a location: the
location of the document that it comes from, its target, and the list that was found. -/
inductive Leaves (store : Store) (selfContained : Bool) :
    (p : Location) → List Node → (origin : Location) → Target → Option ProcessList → Prop
  /-- An unresolved reference of the document itself is left. -/
  | unresolved {p : Location} {ns : List Node} {t : Target} (h : (t, none) ∈ Node.lookupsAll ns) :
      Leaves store selfContained p ns p t none
  /-- A resolved one is left if it is kept. -/
  | kept {p : Location} {ns : List Node} {t : Target} {list : ProcessList}
      (hkept : selfContained = false) (h : (t, some list) ∈ Node.lookupsAll ns) :
      Leaves store selfContained p ns p t (some list)
  /-- Otherwise the references of its list are left, which come from the document there. -/
  | inlined {p q origin : Location} {ns : List Node} {t t' : Target} {list : ProcessList}
      {list? : Option ProcessList} (hself : selfContained = true)
      (h : (t, some list) ∈ Node.lookupsAll ns) (hq : t.place? store p = some q)
      (hrest : Leaves store selfContained q list.nodes origin t' list?) :
      Leaves store selfContained p ns origin t' list?

section

variable {store : Store} {options : ReadOptions} {selfContained : Bool} {levels : Nat}
  {chain : List Location} {p : Location} {bytes : ByteArray} {l : ProcessList}

/-- The references that are left are those of the flattened nodes. -/
theorem lookups_flatten_iff_leaves
    (hread : ProcessList.readBytes (resolveTarget store options levels chain
      (p.parent?.map Location.text)) options bytes = .ok l) {t : Target}
    {list? : Option ProcessList} :
    (t, list?) ∈ Node.lookupsAll (Node.flattenAll selfContained l.nodes) ↔
      ∃ origin, Leaves store selfContained p l.nodes origin t list? := by
  cases selfContained with
  | false =>
    rw [Node.flattenAll_false]
    constructor
    · intro hx
      cases list? with
      | none => exact ⟨p, .unresolved hx⟩
      | some list => exact ⟨p, .kept rfl hx⟩
    · rintro ⟨origin, hx | ⟨-, hx⟩ | ⟨hself, -, -, -⟩⟩
      · exact hx
      · exact hx
      · cases hself
  | true =>
    rw [Node.lookupsAll_flattenAll, List.mem_flatMap]
    -- The list of a reference was read with fewer levels left.
    induction levels using Nat.strongRecOn generalizing chain p bytes l with
    | ind levels ih =>
      constructor
      · rintro ⟨⟨t', - | list⟩, hx, hmem⟩
        · cases List.mem_singleton.mp hmem
          exact ⟨p, .unresolved hx⟩
        · -- In place of a resolved reference stand the references that its own list leaves.
          obtain ⟨inner, q, bytes', rfl, hq, -, -, hlist⟩ :=
            resolveTarget_eq_some (ProcessList.link_of_mem_lookups hread _ hx).1
          rw [Node.inlinedLookups, Node.lookupsAll_flattenAll, List.mem_flatMap] at hmem
          obtain ⟨origin, hrest⟩ := (ih inner (Nat.lt_succ_self inner) hlist).mp hmem
          exact ⟨origin, .inlined rfl hx (Target.place?_eq_some.mpr hq) hrest⟩
      · rintro ⟨origin, hx | ⟨hkept, -⟩ | @⟨_, q, _, _, t', _, list, _, -, hx, hq, hrest⟩⟩
        · exact ⟨(t, none), hx, List.mem_singleton_self _⟩
        · cases hkept
        · obtain ⟨inner, q', bytes', rfl, hq', -, -, hlist⟩ :=
            resolveTarget_eq_some (ProcessList.link_of_mem_lookups hread _ hx).1
          cases (Target.place?_eq_some.mp hq).symm.trans hq'
          refine ⟨(t', some list), hx, ?_⟩
          rw [Node.inlinedLookups, Node.lookupsAll_flattenAll, List.mem_flatMap]
          exact (ih inner (Nat.lt_succ_self inner) hlist).mpr ⟨origin, hrest⟩

/-- A reference that is left was looked up from the document that it comes from, while this was read
with so many levels left and so many others. -/
theorem Leaves.lookup {origin : Location} {ns : List Node} {t : Target}
    {list? : Option ProcessList} (h : Leaves store selfContained p ns origin t list?)
    {header : ListHeader}
    (hread : ProcessList.readBytes (resolveTarget store options levels chain
      (p.parent?.map Location.text)) options bytes = .ok { header, nodes := ns }) :
    ∃ inner chain', inner ≤ levels ∧
      resolveTarget store options inner chain' (origin.parent?.map Location.text) t =
        .ok list? := by
  induction h generalizing levels chain bytes header with
  | unresolved hx =>
    exact ⟨levels, chain, Nat.le_refl levels, (ProcessList.link_of_mem_lookups hread _ hx).1⟩
  | kept _ hx =>
    exact ⟨levels, chain, Nat.le_refl levels, (ProcessList.link_of_mem_lookups hread _ hx).1⟩
  | inlined _ hx hq _ ih =>
    -- The list was read at the place of its reference, with one level less.
    obtain ⟨inner, q', bytes', rfl, hq', -, -, hlist⟩ :=
      resolveTarget_eq_some (ProcessList.link_of_mem_lookups hread _ hx).1
    cases (Target.place?_eq_some.mp hq).symm.trans hq'
    obtain ⟨inner', chain', hle, hlookup⟩ := ih hlist
    exact ⟨inner', chain', Nat.le_succ_of_le hle, hlookup⟩

end

/-! ## §4 Lookups after a file is written -/

/-- No document that references lead to from a location, the one there included, has a reference
that leads to another location afterwards. -/
def Store.Avoids (store after : Store) (p q : Location) : Prop :=
  ∀ a, Relation.ReflTransGen store.Refers p a → ∀ bytes t, store.read a = .ok bytes →
    DocumentRefersTo bytes t → t.place? after a ≠ some q

theorem Store.Avoids.of_refers {store after : Store} {p a q : Location}
    (h : store.Avoids after p q) (ha : Relation.ReflTransGen store.Refers p a) :
    store.Avoids after a q :=
  fun b hb => h b (ha.trans hb)

section

variable {store : Store} {options : ReadOptions} {q : Location} {content : ByteArray}

/-- Why a path leads nowhere does not matter to the lookup of a target. -/
theorem followTarget_eq (chain : List Location) (directory : Option String)
    (visit : Location → Except Error (Option ProcessList)) (t : Target) :
    followTarget store chain directory visit t =
      match (store.canonical (t.pathFrom directory)).toOption with
      | none => .ok none
      | some location =>
        if chain.contains location then
          .error (.circularReference ((chain ++ [location]).map Location.text))
        else visit location := by
  unfold followTarget
  cases store.canonical (t.pathFrom directory) <;> rfl

/-- A target is found where it was found before a file was put somewhere else, if its path leads to
the same place as before. -/
theorem tracks_followTarget_put (hfree : store.entry? q ≠ some .directory)
    {chain chain' : List Location} {directory directory' : Option String} {t : Target}
    {visit visit' : Location → Except Error (Option ProcessList)}
    (hchain : ∀ x ∈ chain', x ∈ chain ∨ x = q)
    (hsame : (store.canonical (t.pathFrom directory')).toOption =
      (store.canonical (t.pathFrom directory)).toOption)
    (hend : (store.put q (.file content)).canonical (t.pathFrom directory') ≠ .ok q)
    (hvisit : ∀ x, store.canonical (t.pathFrom directory) = .ok x → x ≠ q → x ∉ chain →
      Tracks (fun e => e.stopsReferrer = true) Eq (visit x) (visit' x)) :
    Tracks (fun e => e.stopsReferrer = true) Eq (followTarget store chain directory visit t)
      (followTarget (store.put q (.file content)) chain' directory' visit' t) := by
  have hafter := (Store.toOption_canonical_put hfree hend).trans hsame
  rw [followTarget_eq, followTarget_eq, hafter]
  cases hbefore : (store.canonical (t.pathFrom directory)).toOption with
  | none => exact .refl _
  | some x =>
    have hne : x ≠ q := by
      rintro rfl
      exact hend (toOption_eq_some.mp (hafter.trans hbefore))
    dsimp only
    split
    · exact .stopped (by rfl) _
    · next hnew =>
      have hmem : x ∉ chain := fun hmem => hnew (List.contains_iff_mem.mpr hmem)
      -- Of the documents that are being read now, only the new file was not being read before.
      have hmem' : x ∉ chain' := fun hmem' => (hchain x hmem').elim hmem hne
      rw [if_neg fun hcontains => hmem' (List.contains_iff_mem.mp hcontains)]
      exact hvisit x (toOption_eq_some.mp hbefore) hne hmem

/-- If nothing that is looked up leads to the new file, a target is looked up as before, with at
least as many levels left and no other documents being read. Where the lookup failed before, it may
fail differently or succeed. -/
theorem tracks_resolveTarget_put (hfree : store.entry? q ≠ some .directory) {levels levels' : Nat}
    {chain chain' : List Location} {directory directory' : Option String} {t : Target}
    (hlevels : levels ≤ levels') (hchain : ∀ x ∈ chain', x ∈ chain ∨ x = q)
    (hsame : (store.canonical (t.pathFrom directory')).toOption =
      (store.canonical (t.pathFrom directory)).toOption)
    (hend : (store.put q (.file content)).canonical (t.pathFrom directory') ≠ .ok q)
    (havoids : ∀ x, store.canonical (t.pathFrom directory) = .ok x →
      store.Avoids (store.put q (.file content)) x q) :
    Tracks (fun e => e.stopsReferrer = true) Eq
      (resolveTarget store options levels chain directory t)
      (resolveTarget (store.put q (.file content)) options levels' chain' directory' t) := by
  induction levels generalizing levels' chain chain' directory directory' t with
  | zero =>
    -- Without levels left, the first run stops as soon as the path leads to anything.
    cases levels' <;>
      exact tracks_followTarget_put hfree hchain hsame hend fun x _ _ _ => .stopped (by rfl) _
  | succ levels ih =>
    obtain ⟨more, rfl⟩ := Nat.exists_eq_succ_of_ne_zero (Nat.ne_zero_of_lt hlevels)
    rw [resolveTarget_succ, resolveTarget_succ]
    refine tracks_followTarget_put hfree hchain hsame hend fun x hx hne _ => ?_
    rw [Store.read_put_of_ne _ hne]
    cases hbytes : store.read x with
    | error fault => exact .refl _
    | ok bytes =>
      -- The targets of the document there are looked up from its directory in both runs.
      refine tracks_settled (fun _ => id) ?_
      refine ProcessList.tracks_readBytes_eq (.refl options) fun t' ht' => ?_
      have havoid := havoids x hx
      have hend' : (store.put q (.file content)).canonical (t'.seenFrom x) ≠ .ok q :=
        fun hy => havoid x .refl bytes t' hbytes ht' (Target.place?_eq_some.mpr hy)
      refine ih (Nat.le_of_succ_le_succ hlevels) (fun y hy => ?_) rfl hend'
        fun y hy => havoid.of_refers (.single ⟨bytes, t', hbytes, ht', hy⟩)
      -- Both runs now read the document at this place as well.
      rcases List.mem_append.mp hy with hy | hy
      · exact (hchain y hy).imp_left (List.mem_append_left [x])
      · exact .inl (List.mem_append_right chain hy)

/-- A reference of the document at one location may be written to the document at another: its path
leads to the same place from there, which is not the written document, and nothing that is referred
to from that place leads to the written document either. -/
structure Target.Movable (store after : Store) (p q : Location) (t : Target) : Prop where
  same : t.place? store q = t.place? store p
  elsewhere : t.place? after q ≠ some q
  avoids : ∀ x, t.place? store p = some x → store.Avoids after x q

/-- The lookup of references in the document at a location. -/
abbrev fileLink (store : Store) (options : ReadOptions) (p : Location) : Link :=
  resolveTarget store options options.maxReferenceDepth [p] (p.parent?.map Location.text)

section

variable {selfContained : Bool} {p : Location} {bytes : ByteArray} {l : ProcessList}

/-- Such a reference is resolved from the new document to what it was resolved to. -/
theorem Leaves.lookup_of_movable (hfree : store.entry? q ≠ some .directory)
    (hread : ProcessList.readBytes (fileLink store options p) options bytes = .ok l)
    {origin : Location} {t : Target} {list? : Option ProcessList}
    (h : Leaves store selfContained p l.nodes origin t list?)
    (ht : t.Movable store (store.put q (.file content)) origin q) :
    fileLink (store.put q (.file content)) options q t = .ok list? := by
  obtain ⟨inner, chain, hle, hlink⟩ := h.lookup hread
  have htracks : Tracks (fun e => e.stopsReferrer = true) Eq
      (resolveTarget store options inner chain (origin.parent?.map Location.text) t)
      (fileLink (store.put q (.file content)) options q t) := by
    apply tracks_resolveTarget_put hfree hle _ ht.same
    · intro hq
      exact ht.elsewhere (Target.place?_eq_some.mpr hq)
    · intro x hx
      exact ht.avoids x (Target.place?_eq_some.mpr hx)
    · intro x hx
      exact .inr (List.mem_singleton.mp hx)
  obtain ⟨list?', hafter, rfl⟩ := htracks.of_ok hlink
  exact hafter

/-- Where all references may be moved, whatever was looked up for the flattened nodes is found
again. -/
theorem lookups_of_movable (hfree : store.entry? q ≠ some .directory)
    (hread : ProcessList.readBytes (fileLink store options p) options bytes = .ok l)
    (hmovable : ∀ origin t list?, Leaves store selfContained p l.nodes origin t list? →
      t.Movable store (store.put q (.file content)) origin q) :
    ∀ x ∈ Node.lookupsAll (Node.flattenAll selfContained l.nodes),
      fileLink (store.put q (.file content)) options q x.1 = .ok x.2 := by
  intro x hx
  obtain ⟨origin, hleaves⟩ := (lookups_flatten_iff_leaves hread).mp hx
  exact hleaves.lookup_of_movable hfree hread (hmovable origin _ _ hleaves)

end

end

/-! ## §5 Written documents -/

namespace ProcessList

section

variable {link : Link} {options : ReadOptions} {l : ProcessList}

/-- The bytes of a list are read alike, whether they are compressed or not. -/
theorem readBytes_gzip (selfContained gzip : Bool) :
    readBytes link options (l.toBytes { selfContained, gzip }) =
      readBytes link options (l.toBytes { selfContained }) := by
  rw [readBytes, rootElement_gzip, readBytes]

/-- The references in a written document are those of the flattened nodes. -/
theorem documentRefersTo_toBytes {wopts : WriteOptions}
    (hl : l.Readable options wopts.selfContained) {t : Target} :
    DocumentRefersTo (l.toBytes wopts) t ↔
      ∃ list?, (t, list?) ∈ Node.lookupsAll (Node.flattenAll wopts.selfContained l.nodes) := by
  -- Whatever a lookup finds, the targets stay; so they are looked up in vain here.
  have hanswered : Node.AnsweredAll (fun _ => .ok none)
      (Node.flattenAll wopts.selfContained l.nodes) :=
    (Node.answeredAll_iff_lookups _).mpr fun _ _ => ⟨none, rfl⟩
  have hread := (readBytes_gzip wopts.selfContained wopts.gzip).trans
    (readBytes_toBytes_eq hl hanswered)
  rw [documentRefersTo_iff_lookups hread, Node.lookupsAll_rereadAll, Node.lookupsAll_relinkAll]
  simp only [List.mem_map, Prod.mk.injEq]
  constructor
  · rintro ⟨list?, ⟨t, list?'⟩, hx, rfl, -⟩
    exact ⟨list?', hx⟩
  · rintro ⟨list?, hx⟩
    exact ⟨none, (t, list?), hx, rfl, rfl⟩

/-- A list that is saved is at the location to which the path leads afterwards, and only there has
anything changed. -/
theorem save_eq_ok {store after : Store} {wopts : WriteOptions} {path : String}
    (h : l.save store wopts path = .ok after) :
    ∃ q : Location, after = store.put q (.file (l.toBytes wopts)) ∧
      store.entry? q ≠ some .directory ∧ after.canonical path = .ok q :=
  Store.write_eq_ok (mapError_eq_ok.mp h)

/-- A written document is read as the flattened list where its references are resolved to what they
were resolved to. -/
theorem readBytes_toBytes_of_lookups {wopts : WriteOptions}
    (hl : l.Readable options wopts.selfContained)
    (hlookups : ∀ x ∈ Node.lookupsAll (Node.flattenAll wopts.selfContained l.nodes),
      link x.1 = .ok x.2) :
    readBytes link options (l.toBytes wopts) =
      .ok { header := l.header,
            nodes := Node.rereadAll (Node.flattenAll wopts.selfContained l.nodes) } := by
  obtain ⟨hanswered, hrelink⟩ :=
    Node.relinkAll_of_linkedBy _ ((Node.linkedByAll_iff_lookups _).mpr hlookups)
  refine (readBytes_gzip wopts.selfContained wopts.gzip).trans ?_
  rw [readBytes_toBytes_eq hl hanswered, hrelink]

/-- The flattened list evaluates as the list itself, if flattening keeps what the nodes do. -/
theorem process_rereadAll_flattenAll {selfContained : Bool} (hl : l.Readable options selfContained)
    (hlookups : ∀ x ∈ Node.lookupsAll (Node.flattenAll selfContained l.nodes), link x.1 = .ok x.2)
    (hkeeps : selfContained = true → Node.KeepsEvalAll l.nodes) (stride : Nat)
    (values : List Float32) :
    process { header := l.header, nodes := Node.rereadAll (Node.flattenAll selfContained l.nodes) }
      stride values = l.process stride values := by
  have hlinked := (Node.linkedByAll_iff_lookups _).mpr hlookups
  have hrelink := (Node.relinkAll_of_linkedBy _ hlinked).2
  have halike : Node.AlikeAll (Node.relinkAll link (Node.flattenAll selfContained l.nodes))
      (Node.rereadAll (Node.relinkAll link (Node.flattenAll selfContained l.nodes))) :=
    Node.alikeAll_reread _ (Node.readableAll_iff.mpr (Node.readable_flattenAll l.nodes hl.nodes))
  -- Only inlining changes which nodes run.
  cases selfContained with
  | true =>
    rw [← hrelink]
    exact process_of_flattened halike (hkeeps rfl)
      (fun n hn _ => Node.linkedByAll_iff.mp hlinked n hn) stride values
  | false =>
    rw [hrelink, Node.flattenAll_false] at halike
    rw [Node.flattenAll_false]
    exact halike.process l.header l.header stride values

end

end ProcessList

end CommonLut
