import Mathlib.Data.List.Chain
import Mathlib.Logic.Relation
import CommonLut.Proofs.Document.Lookups
import CommonLut.Proofs.Document.SelfContained

/-!
# Nested references

References lead from file to file. A file is entered only while it is not being read, so the files
that are being read are distinct, and there are no more of them than the store holds. Hence a limit
on the nesting has no effect beyond this number: reading ends by itself, whatever the files refer
to. Where it ends with a circle, the reported path is one of references, and it closes on itself.
Files that are on no circle of references can be referred to any number of times.

Main definitions: `Store.Refers`, `Store.follow`, `Node.Nested`, `Trail`.
Main statements: `follow_of_nested`, `exists_trail_of_error`, `ProcessList.load_eq_of_limit`,
`ProcessList.load_nesting`.
-/

namespace CommonLut

/-! ## §1 Files that refer to files -/

namespace Store

/-- A file holds a document with a reference that leads to a location. -/
def Refers (store : Store) (p q : Location) : Prop :=
  ∃ bytes t, store.read p = .ok bytes ∧ DocumentRefersTo bytes t ∧
    store.canonical (t.pathFrom (p.parent?.map Location.text)) = .ok q

/-- Where targets lead one after the other, each of them seen from where the one before it leads. -/
def follow (store : Store) : Location → List Target → Except FileFault (List Location)
  | _, [] => .ok []
  | p, t :: ts => do
    let q ← store.canonical (t.pathFrom (p.parent?.map Location.text))
    return q :: (← store.follow q ts)

/-- There are no more files than entries. -/
theorem length_le_of_readable {store : Store} {ps : List Location} (hdistinct : ps.Nodup)
    (hread : ∀ p ∈ ps, ∃ bytes, store.read p = .ok bytes) : ps.length ≤ store.entries.length := by
  have hentries : ps ⊆ store.entries.map Prod.fst := by
    intro p hp
    obtain ⟨bytes, hbytes⟩ := hread p hp
    exact List.mem_map_of_mem (f := Prod.fst) (mem_entries_of_read hbytes)
  have hlength := (List.subperm_of_subset hdistinct hentries).length_le
  rwa [List.length_map] at hlength

end Store

section

variable {α : Type} {R : α → α → Prop} {a b : α} {l : List α}

theorem transGen_of_isChain (h : List.IsChain R (a :: (l ++ [b]))) : Relation.TransGen R a b := by
  induction l generalizing a with
  | nil => exact .single (List.isChain_pair.mp h)
  | cons c l ih =>
    obtain ⟨hac, hrest⟩ := List.isChain_cons_cons.mp h
    exact .head hac (ih hrest)

/-- A path that comes back to one of its own points goes round a circle. -/
theorem circle_of_isChain (h : List.IsChain R (a :: (l ++ [b]))) (hb : b ∈ a :: l) :
    Relation.ReflTransGen R a b ∧ Relation.TransGen R b b := by
  rcases List.mem_cons.mp hb with rfl | hb
  · exact ⟨.refl, transGen_of_isChain h⟩
  · obtain ⟨before, after, rfl⟩ := List.append_of_mem hb
    rw [List.append_assoc, List.cons_append, List.isChain_cons_split] at h
    exact ⟨(transGen_of_isChain h.1).to_reflTransGen, transGen_of_isChain h.2⟩

end

/-! ## §2 Nested references of a list -/

/-- Resolved references, each in the list of the one before it, in whatever groups. -/
inductive Node.Nested : List Node → List Target → Prop
  | nil {ns : List Node} : Nested ns []
  | cons {ns : List Node} {t : Target} {list : ProcessList} {ts : List Target}
      (hembeds : Embeds t list ns) (hrest : Nested list.nodes ts) : Nested ns (t :: ts)

section

variable {store : Store} {options : ReadOptions} {levels : Nat} {chain : List Location}
  {p : Location} {bytes : ByteArray}

/-- Nested references lead to distinct files that were not being read, and use up the levels. -/
theorem follow_of_nested {ns : List Node} {ts : List Target} (h : Node.Nested ns ts)
    {header : ListHeader}
    (hread : ProcessList.readBytes (resolveTarget store options levels chain
      (p.parent?.map Location.text)) options bytes = .ok { header, nodes := ns }) :
    ts.length ≤ levels ∧
      ∃ qs, store.follow p ts = .ok qs ∧ qs.Nodup ∧ ∀ q ∈ qs, q ∉ chain := by
  -- Each list is read inside the one before it, with one level less and a longer chain.
  induction h generalizing levels chain p bytes header with
  | nil => exact ⟨Nat.zero_le _, [], rfl, List.nodup_nil, fun q hq => absurd hq List.not_mem_nil⟩
  | cons hembeds hrest ih =>
    have hlink := ProcessList.link_of_embeds hread hembeds
    obtain ⟨inner, q, bytes', rfl, hq, hnew, -, hlist⟩ := resolveTarget_eq_some hlink
    -- The file of the first target is being read while the others are found.
    obtain ⟨hlength, qs, hqs, hdistinct, hnews⟩ := ih hlist
    refine ⟨Nat.succ_le_succ hlength, q :: qs, ?_, List.nodup_cons.mpr ⟨fun hmem => ?_, hdistinct⟩,
      List.forall_mem_cons.mpr ⟨hnew, fun q' hq' hmem => ?_⟩⟩
    · exact bind_eq_ok.mpr ⟨q, hq, bind_eq_ok.mpr ⟨qs, hqs, rfl⟩⟩
    · exact hnews q hmem (List.mem_append_right chain (List.mem_singleton_self q))
    · exact hnews q' hq' (List.mem_append_left [q] hmem)

/-! ## §3 The way to a fault -/

/-- The way that references take from a file that is being read: through files that are read inside
it and that differ from each other and from those being read, to a last location. -/
structure Trail (store : Store) (chain : List Location) (p : Location) (visited : List Location)
    (last : Location) : Prop where
  refers : List.IsChain store.Refers (p :: (visited ++ [last]))
  distinct : (chain ++ visited).Nodup
  readable : ∀ q ∈ visited, ∃ bytes, store.read q = .ok bytes

theorem Trail.start {last : Location} (hlast : store.Refers p last) (hchain : chain.Nodup) :
    Trail store chain p [] last where
  refers := List.isChain_pair.mpr hlast
  distinct := by rwa [List.append_nil]
  readable q hq := absurd hq List.not_mem_nil

theorem Trail.step {q last : Location} {visited : List Location} (hq : store.Refers p q)
    (hbytes : store.read q = .ok bytes) (h : Trail store (chain ++ [q]) q visited last) :
    Trail store chain p (q :: visited) last where
  refers := h.refers.cons_cons hq
  distinct := by
    have hdistinct := h.distinct
    rwa [List.append_assoc, List.singleton_append] at hdistinct
  readable := List.forall_mem_cons.mpr ⟨⟨bytes, hbytes⟩, h.readable⟩

/-- An error that is no fault of the document itself comes from the lookup of one of its targets. -/
theorem exists_link_of_error {link : Link} {e : Error}
    (h : ProcessList.readBytes link options bytes = .error e) (he : ¬ e.Local) :
    ∃ t, DocumentRefersTo bytes t ∧ link t = .error e := by
  have hfails : FailsWith (fun e => e.Local ∨ ∃ t, DocumentRefersTo bytes t ∧ link t = .error e)
      (ProcessList.readBytes link options bytes) :=
    ProcessList.failsWith_readBytes (fun e he => .inl he) fun t ht e he => .inr ⟨t, ht, he⟩
  exact (hfails e h).resolve_left he

/-- Where a circle or a nesting that is too deep ends the reading of a file, references have led
there: to a file that is being read, or through as many files as there were levels. -/
theorem exists_trail_of_error {e : Error} (hchain : chain.Nodup) (hbytes : store.read p = .ok bytes)
    (h : ProcessList.readBytes (resolveTarget store options levels chain
      (p.parent?.map Location.text)) options bytes = .error e) (he : ¬ e.Local) :
    ∃ visited last, Trail store chain p visited last ∧
      (last ∈ chain ++ visited ∧
          e = .circularReference ((chain ++ visited ++ [last]).map Location.text) ∨
        visited.length = levels ∧ e = .referenceDepth options.maxReferenceDepth) := by
  -- What caused the error says how many levels were left, so these are not split beforehand.
  induction levels using Nat.strongRecOn generalizing chain p bytes with
  | ind levels ih =>
    obtain ⟨t, ht, hlink⟩ := exists_link_of_error h he
    obtain ⟨q, hq, hcause⟩ := resolveTarget_eq_error hlink
    have hrefers : store.Refers p q := ⟨bytes, t, hbytes, ht, hq⟩
    obtain ⟨hmem, rfl⟩ | ⟨-, rfl, rfl⟩ | ⟨hnew, inner, bytes', rfl, hbytes', -, hread⟩ := hcause
    · exact ⟨[], q, .start hrefers hchain, .inl ⟨by rwa [List.append_nil], by rw [List.append_nil]⟩⟩
    · exact ⟨[], q, .start hrefers hchain, .inr ⟨rfl, rfl⟩⟩
    · -- The file is read inside the ones that are being read, with one level less.
      have hchain' : (chain ++ [q]).Nodup := by
        rw [List.nodup_append_comm, List.singleton_append]
        exact List.nodup_cons.mpr ⟨hnew, hchain⟩
      obtain ⟨visited, last, htrail, hend⟩ := ih inner (Nat.lt_succ_self inner) hchain' hbytes' hread
      refine ⟨q :: visited, last, htrail.step hrefers hbytes', ?_⟩
      rw [List.append_assoc chain [q], List.singleton_append] at hend
      exact hend.imp_right fun hdepth => ⟨congrArg Nat.succ hdepth.1, hdepth.2⟩

end

namespace ProcessList

/-! ## §4 Files -/

section

variable {store : Store} {options : ReadOptions} {path : String}

/-- A file that is there is loaded as its document is read, with all levels left. -/
theorem load_eq_readBytes {root : Location} {bytes : ByteArray}
    (hroot : store.canonical path = .ok root) (hbytes : store.read root = .ok bytes) :
    load store options path =
      readBytes (resolveTarget store options options.maxReferenceDepth [root]
        (root.parent?.map Location.text)) options bytes := by
  have hload : load store options path = ((store.read root).mapError Error.file >>= fun bytes =>
      readBytes (resolveTarget store options options.maxReferenceDepth [root]
        (root.parent?.map Location.text)) options bytes) := by
    rw [load, hroot]
    rfl
  rw [hload, hbytes]
  rfl

/-- A result other than a fault of the file is that of reading the document in it. -/
theorem exists_readBytes_of_load {r : Except Error ProcessList} (h : load store options path = r)
    (hfile : ∀ fault, r ≠ .error (.file fault)) :
    ∃ root bytes, store.canonical path = .ok root ∧ store.read root = .ok bytes ∧
      readBytes (resolveTarget store options options.maxReferenceDepth [root]
        (root.parent?.map Location.text)) options bytes = r := by
  cases hroot : store.canonical path with
  | error fault =>
    rw [load, hroot] at h
    exact absurd h.symm (hfile fault)
  | ok root =>
    cases hbytes : store.read root with
    | error fault =>
      rw [load, hroot] at h
      change ((store.read root).mapError Error.file >>= _) = r at h
      rw [hbytes] at h
      exact absurd h.symm (hfile fault)
    | ok bytes => exact ⟨root, bytes, rfl, hbytes, (load_eq_readBytes hroot hbytes).symm.trans h⟩

/-- Nested references of a list that is loaded lead to distinct files and stay within the limit. -/
theorem follow_of_load {l : ProcessList} (h : load store options path = .ok l) :
    ∃ root, store.canonical path = .ok root ∧
      ∀ ts, Node.Nested l.nodes ts → ts.length ≤ options.maxReferenceDepth ∧
        ∃ targets, store.follow root ts = .ok targets ∧ (root :: targets).Nodup := by
  obtain ⟨root, bytes, hroot, -, hread⟩ := exists_readBytes_of_load h nofun
  refine ⟨root, hroot, fun ts hts => ?_⟩
  obtain ⟨hlength, targets, hfollow, hdistinct, hnew⟩ := follow_of_nested hts hread
  exact ⟨hlength, targets, hfollow, List.nodup_cons.mpr
    ⟨fun hmem => hnew root hmem (List.mem_singleton_self root), hdistinct⟩⟩

/-- The circle that the loading of a file reports is one of references from file to file. -/
theorem exists_circle_of_load {texts : List String}
    (h : load store options path = .error (.circularReference texts)) :
    ∃ root chain last, store.canonical path = .ok root ∧
      texts = (root :: (chain ++ [last])).map Location.text ∧
      List.IsChain store.Refers (root :: (chain ++ [last])) ∧
      (root :: chain).Nodup ∧ last ∈ root :: chain := by
  obtain ⟨root, bytes, hroot, hbytes, hread⟩ := exists_readBytes_of_load h nofun
  obtain ⟨chain, last, htrail, ⟨hlast, htexts⟩ | ⟨-, hdepth⟩⟩ :=
    exists_trail_of_error (List.nodup_singleton root) hbytes hread nofun
  · cases htexts
    exact ⟨root, chain, last, hroot, rfl, htrail.refers, htrail.distinct, hlast⟩
  · cases hdepth

/-- No circle is reported where there is none. -/
theorem load_ne_circularReference {root : Location} (hroot : store.canonical path = .ok root)
    (hacyclic : ∀ p, Relation.ReflTransGen store.Refers root p →
      ¬ Relation.TransGen store.Refers p p) (texts : List String) :
    load store options path ≠ .error (.circularReference texts) := by
  intro h
  obtain ⟨root', chain, last, hroot', -, hrefers, -, hlast⟩ := exists_circle_of_load h
  cases hroot.symm.trans hroot'
  obtain ⟨hreach, hcircle⟩ := circle_of_isChain hrefers hlast
  exact hacyclic last hreach hcircle

/-- The nesting never gets deeper than there are files. -/
theorem load_ne_referenceDepth (hlimit : store.entries.length ≤ options.maxReferenceDepth)
    (depth : Nat) : load store options path ≠ .error (.referenceDepth depth) := by
  intro h
  obtain ⟨root, bytes, hroot, hbytes, hread⟩ := exists_readBytes_of_load h nofun
  obtain ⟨chain, last, htrail, ⟨-, hcircle⟩ | ⟨hlength, -⟩⟩ :=
    exists_trail_of_error (List.nodup_singleton root) hbytes hread nofun
  · cases hcircle
  · -- The files on the way and the first one are one more than the limit.
    have hreadable : ∀ p ∈ root :: chain, ∃ bytes, store.read p = .ok bytes :=
      List.forall_mem_cons.mpr ⟨⟨bytes, hbytes⟩, htrail.readable⟩
    have hfiles := Store.length_le_of_readable htrail.distinct hreadable
    rw [List.length_append, List.length_singleton] at hfiles
    omega

/-- A limit beyond the number of files changes nothing. -/
theorem load_eq_of_limit {limit : Nat} (hlimit : store.entries.length ≤ limit) :
    load store { options with maxReferenceDepth := limit } path =
      load store { options with maxReferenceDepth := store.entries.length } path := by
  have hnarrower : ReadOptions.NarrowerThan
      { options with maxReferenceDepth := store.entries.length }
      { options with maxReferenceDepth := limit }
      (fun e => e = .referenceDepth store.entries.length) (limit - store.entries.length) :=
    { require := fun _ _ => .refl _
      cacheIndexMaps := rfl
      basePath := rfl
      limit := (Nat.add_sub_of_le hlimit).symm
      depth := fun _ => rfl
      propagates := by
        rintro _ rfl
        rfl }
  -- The run with the lower limit could part from the other one only by reaching it.
  refine ((tracks_load hnarrower path).eq_of_not_stops fun e he hstops => ?_).symm
  rw [hstops] at he
  exact load_ne_referenceDepth (Nat.le_refl _) _ he

/-- Reading the file at a path follows references as they are nested. It ends by itself: a limit
that is no lower than the number of files is never reached and has no effect. In a list that is
read, nested references lead to distinct files, and they are nested within the limit. A circle that
is reported is a path of references from the file, through distinct files, to one of them; so none
is reported where no file on the way refers back to itself, however often it is referred to. -/
theorem load_nesting (store : Store) (options : ReadOptions) (path : String) :
    (∀ limit, store.entries.length ≤ limit →
      load store { options with maxReferenceDepth := limit } path =
        load store { options with maxReferenceDepth := store.entries.length } path ∧
      ∀ depth, load store { options with maxReferenceDepth := limit } path ≠
        .error (.referenceDepth depth)) ∧
    (∀ l, load store options path = .ok l → ∃ root, store.canonical path = .ok root ∧
      ∀ ts, Node.Nested l.nodes ts → ts.length ≤ options.maxReferenceDepth ∧
        ∃ targets, store.follow root ts = .ok targets ∧ (root :: targets).Nodup) ∧
    (∀ texts, load store options path = .error (.circularReference texts) →
      ∃ root chain last, store.canonical path = .ok root ∧
        texts = (root :: (chain ++ [last])).map Location.text ∧
        List.IsChain store.Refers (root :: (chain ++ [last])) ∧
        (root :: chain).Nodup ∧ last ∈ root :: chain) ∧
    ∀ root, store.canonical path = .ok root →
      (∀ p, Relation.ReflTransGen store.Refers root p → ¬ Relation.TransGen store.Refers p p) →
      ∀ texts, load store options path ≠ .error (.circularReference texts) := by
  refine ⟨fun limit hlimit => ?termination, fun l hl => follow_of_load hl,
    fun texts h => exists_circle_of_load h, fun root hroot hacyclic => ?acyclic⟩
  case termination => exact ⟨load_eq_of_limit hlimit, load_ne_referenceDepth hlimit⟩
  case acyclic => exact load_ne_circularReference hroot hacyclic

end

/-- A file that refers to itself. -/
theorem load_circular :
    load (besideFile referringRoot) {} "target.clf" =
      .error (.circularReference ["/target.clf", "/target.clf"]) := by
  have hbytes : (besideFile referringRoot).read ["target.clf"] = .ok referringRoot.toBytes := rfl
  -- What the parser gives for written bytes is known, so it is not run.
  rw [load_eq_readBytes rfl hbytes, readBytes, rootElement_toBytes parsed_referringRoot.toWritable]
  rfl

theorem load_nesting_circular :
    ∃ root chain last, (besideFile referringRoot).canonical "target.clf" = .ok root ∧
      ["/target.clf", "/target.clf"] = (root :: (chain ++ [last])).map Location.text ∧
      List.IsChain (besideFile referringRoot).Refers (root :: (chain ++ [last])) ∧
      (root :: chain).Nodup ∧ last ∈ root :: chain :=
  (load_nesting (besideFile referringRoot) {} "target.clf").2.2.1 _ load_circular

end ProcessList

end CommonLut
