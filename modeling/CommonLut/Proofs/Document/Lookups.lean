import CommonLut.Proofs.Document.Bytes
import CommonLut.Proofs.Node.Lookups

/-!
# Lookups made while a document is read

A list is read child by child, so what holds of the nodes holds of the list: its errors are faults
of the document or errors of looking up one of its targets, and two runs stay together as long as
the lookups of these targets do. The lookup of a target is taken apart here once, into everything
that it can end with. Two runs of which one goes less far, in the features that it accepts or in the
nesting that it allows, then stay together until that one stops.

Main definitions: `DocumentRefersTo`, `settled`, `ReadOptions.NarrowerThan`.
Main statements: `ProcessList.failsWith_readBytes`, `ProcessList.tracks_readBytes`,
`ProcessList.link_of_embeds`, `resolveTarget_eq_error`, `tracks_resolveTarget`.
-/

namespace CommonLut

/-- A document has a reference to a target among the nodes of its list, in whatever groups. -/
def DocumentRefersTo (bytes : ByteArray) (t : Target) : Prop :=
  ∃ root, ProcessList.rootElement bytes = .ok root ∧ ∃ child ∈ root.children, child.RefersTo t

namespace ProcessList

/-! ## §1 Lists -/

section

variable {link link' : Link} {options options' : ReadOptions} {errors stops : Error → Prop}
  {R : Node → Node → Prop} {bytes : ByteArray} {l : ProcessList}

/-- The nodes of a list are read from the children of the root element. -/
theorem exists_of_mem_nodes (h : readBytes link options bytes = .ok l) :
    ∀ n ∈ l.nodes, ∃ e, Node.read link options e = .ok (some n) := by
  obtain ⟨root, -, hread⟩ := readBytes_eq_ok.mp h
  obtain ⟨-, id, -, hfold⟩ := read_eq_ok.mp hread
  refine foldlM_invariant (P := fun l : ProcessList =>
    ∀ n ∈ l.nodes, ∃ e, Node.read link options e = .ok (some n)) ?_
    (fun n hn => absurd hn List.not_mem_nil) hfold
  intro l l' child _ hl hchild
  rcases readChild_eq_ok hchild with ⟨n, hn, rfl⟩ | ⟨-, ⟨-, rfl⟩ | ⟨-, rfl⟩ | rfl⟩
  · exact List.forall_mem_append.mpr ⟨hl, List.forall_mem_singleton.mpr ⟨child, hn⟩⟩
  · exact hl
  · exact hl
  · exact hl

/-- Every list that is embedded in a list is what the lookup gave for the target. -/
theorem link_of_embeds (h : readBytes link options bytes = .ok l) {t : Target} {list : ProcessList}
    (hlist : Node.Embeds t list l.nodes) : link t = .ok (some list) := by
  obtain ⟨n, hn, hlist⟩ := hlist.exists_mem
  obtain ⟨e, he⟩ := exists_of_mem_nodes h n hn
  exact Node.link_of_embeds he hlist

theorem failsWith_readChild (hlocal : ∀ e, e.Local → errors e) (child : Element)
    (hlink : ∀ t, child.RefersTo t → FailsWith errors (link t)) (l : ProcessList) :
    FailsWith errors (readChild link options l child) := by
  refine (Node.failsWith_read hlocal child hlink).bind fun result _ => ?_
  cases result with
  | some n => exact .ok _
  | none =>
    dsimp only
    split
    · exact .ok _
    · split
      · exact .ok _
      · exact .ok _

theorem local_rootElement (bytes : ByteArray) : FailsWith Error.Local (rootElement bytes) := by
  have hparse : ∀ content, FailsWith Error.Local (Element.parse content) := by
    intro content
    unfold Element.parse
    split
    · exact .ok _
    · exact .error trivial
  unfold rootElement
  split
  · split
    · exact hparse _
    · exact .error trivial
  · exact hparse bytes

/-- Reading a document ends with a fault of the document or with an error of looking up one of its
targets. -/
theorem failsWith_readBytes (hlocal : ∀ e, e.Local → errors e)
    (hlink : ∀ t, DocumentRefersTo bytes t → FailsWith errors (link t)) :
    FailsWith errors (readBytes link options bytes) := by
  refine ((local_rootElement bytes).mono hlocal).bind fun root hroot => ?_
  unfold read
  split
  · exact .error (hlocal _ trivial)
  · refine ((root.local_requiredAttribute "id").mono hlocal).bind fun id _ => ?_
    refine FailsWith.foldlM (fun l child hchild => ?_) _
    exact failsWith_readChild hlocal child
      (fun t ht => hlink t ⟨root, hroot, child, hchild, ht⟩) l

/-! ## §2 Two runs compared -/

/-- Lists with the same header whose nodes are related one by one. -/
def Related (R : Node → Node → Prop) (l l' : ProcessList) : Prop :=
  l.header = l'.header ∧ List.Forall₂ R l.nodes l'.nodes

theorem Related.empty (header : ListHeader) : Related R { header } { header } :=
  ⟨rfl, .nil⟩

theorem tracks_readChild {l l' : ProcessList} (hl : Related R l l') {child : Element}
    (hchild : Tracks stops (Option.Rel R) (Node.read link options child)
      (Node.read link' options' child)) :
    Tracks stops (Related R) (readChild link options l child) (readChild link' options' l' child) := by
  obtain ⟨hheader, hnodes⟩ := hl
  refine hchild.bind fun result result' _ hresult => ?_
  cases hresult with
  | some hn =>
    exact .ok ⟨hheader, List.rel_append hnodes (.cons hn .nil)⟩
  | none =>
    dsimp only
    rw [hheader]
    split
    · exact .ok ⟨rfl, hnodes⟩
    · split
      · exact .ok ⟨rfl, hnodes⟩
      · exact .ok ⟨hheader, hnodes⟩

/-- Two runs over a document stay together as long as the lookups of its targets do. -/
theorem tracks_readBytes (hoptions : options.TrackedBy stops options')
    (hoperation : ∀ c op, R (.operation c op) (.operation c op))
    (hgroup : ∀ c ns ns', List.Forall₂ R ns ns' → R (.group c ns) (.group c ns'))
    (hlink : ∀ t, DocumentRefersTo bytes t → ∀ c,
      Tracks stops (fun list? list?' => R (Node.ofTarget c t list?) (Node.ofTarget c t list?'))
        (link t) (link' t)) :
    Tracks stops (Related R) (readBytes link options bytes) (readBytes link' options' bytes) := by
  -- Neither the options nor the lookups take part in parsing.
  cases hroot : rootElement bytes with
  | error e =>
    rw [readBytes, readBytes, hroot]
    exact .error e
  | ok root =>
    have hchild : ∀ child ∈ root.children, Tracks stops (Option.Rel R)
        (Node.read link options child) (Node.read link' options' child) := fun child hchild =>
      Node.tracks_read hoptions hoperation hgroup child
        fun t ht => hlink t ⟨root, hroot, child, hchild, ht⟩
    rw [readBytes, readBytes, hroot]
    show Tracks stops (Related R) (read link options root) (read link' options' root)
    unfold read
    split
    · exact .error _
    · refine (Tracks.refl _).bind_eq fun id => ?_
      refine Tracks.foldlM (fun l l' child hmem hl => ?_) (Related.empty _)
      exact tracks_readChild hl (hchild child hmem)

/-- Two runs give the same list if the lookups of its targets do. -/
theorem tracks_readBytes_eq (hoptions : options.TrackedBy stops options')
    (hlink : ∀ t, DocumentRefersTo bytes t → Tracks stops Eq (link t) (link' t)) :
    Tracks stops Eq (readBytes link options bytes) (readBytes link' options' bytes) := by
  have hread : Tracks stops (Related Eq) (readBytes link options bytes)
      (readBytes link' options' bytes) := by
    refine tracks_readBytes hoptions (fun _ _ => rfl) (fun c ns ns' hns => ?_)
      fun t ht c => (hlink t ht).mono fun list? list?' _ heq => congrArg _ heq
    rw [List.forall₂_eq_eq_eq] at hns
    rw [hns]
  refine hread.mono fun l l' _ hl => ?_
  obtain ⟨header, ns⟩ := l
  obtain ⟨header', ns'⟩ := l'
  obtain ⟨hheader, hns⟩ := hl
  rw [List.forall₂_eq_eq_eq] at hns
  cases hheader
  cases hns
  rfl

end

end ProcessList

/-! ## §3 The lookup of a target -/

/-- The errors of a target that reach its referrer. -/
theorem Error.stopsReferrer_iff {e : Error} : e.stopsReferrer = true ↔
    (∃ chain, e = .circularReference chain) ∨ (∃ limit, e = .referenceDepth limit) ∨
      ∃ feature x, e = .unsupported feature x := by
  cases e <;> simp [Error.stopsReferrer]

/-- What the lookup of a target makes of its reading. -/
def settled : Except Error ProcessList → Except Error (Option ProcessList)
  | .ok list => .ok (some list)
  | .error e => if e.stopsReferrer then .error e else .ok none

theorem settled_eq_error {reading : Except Error ProcessList} {e : Error}
    (h : settled reading = .error e) : reading = .error e ∧ e.stopsReferrer = true := by
  unfold settled at h
  split at h
  · cases h
  · split at h
    · next hstops =>
      cases h
      exact ⟨rfl, hstops⟩
    · cases h

/-- Two readings that stay together do so as lookups, if what stops them stops the referrer too. -/
theorem tracks_settled {stops : Error → Prop} (hpropagates : ∀ e, stops e → e.stopsReferrer = true)
    {reading reading' : Except Error ProcessList} (h : Tracks stops Eq reading reading') :
    Tracks stops Eq (settled reading) (settled reading') := by
  cases h with
  | ok heq => exact .ok (congrArg some heq)
  | error e => exact .refl _
  | stopped hstops =>
    rw [settled, if_pos (hpropagates _ hstops)]
    exact .stopped hstops _

section

variable {store : Store} {options : ReadOptions} {levels : Nat} {chain : List Location}
  {directory : Option String} {t : Target}

theorem resolveTarget_succ :
    resolveTarget store options (levels + 1) chain directory t =
      followTarget store chain directory (fun location =>
        match store.read location with
        | .error _ => .ok none
        | .ok bytes =>
          settled (ProcessList.readBytes (resolveTarget store options levels (chain ++ [location])
            (location.parent?.map Location.text)) options bytes)) t :=
  rfl

/-- A target that does not exist leaves its reference unresolved. -/
theorem resolveTarget_of_missing {fault : FileFault}
    (h : store.canonical (t.pathFrom directory) = .error fault) :
    resolveTarget store options levels chain directory t = .ok none := by
  cases levels <;>
  · unfold resolveTarget followTarget
    rw [h]

theorem followTarget_eq_error {visit : Location → Except Error (Option ProcessList)} {e : Error}
    (h : followTarget store chain directory visit t = .error e) :
    ∃ location, store.canonical (t.pathFrom directory) = .ok location ∧
      (location ∈ chain ∧ e = .circularReference ((chain ++ [location]).map Location.text) ∨
        location ∉ chain ∧ visit location = .error e) := by
  unfold followTarget at h
  split at h
  · cases h
  · next location hlocation =>
    refine ⟨location, hlocation, ?_⟩
    split at h
    · next hmem =>
      cases h
      exact .inl ⟨List.contains_iff_mem.mp hmem, rfl⟩
    · next hnew => exact .inr ⟨fun hmem => hnew (List.contains_iff_mem.mpr hmem), h⟩

/-- Everything that makes the lookup of a target fail: the target is being read, it is nested too
deep, or reading it stops its referrer. -/
theorem resolveTarget_eq_error {e : Error}
    (h : resolveTarget store options levels chain directory t = .error e) :
    ∃ location, store.canonical (t.pathFrom directory) = .ok location ∧
      (location ∈ chain ∧ e = .circularReference ((chain ++ [location]).map Location.text) ∨
        location ∉ chain ∧ levels = 0 ∧ e = .referenceDepth options.maxReferenceDepth ∨
        location ∉ chain ∧ ∃ inner bytes, levels = inner + 1 ∧ store.read location = .ok bytes ∧
          e.stopsReferrer = true ∧
          ProcessList.readBytes (resolveTarget store options inner (chain ++ [location])
            (location.parent?.map Location.text)) options bytes = .error e) := by
  cases levels with
  | zero =>
    obtain ⟨location, hlocation, hcycle | ⟨hnew, hvisit⟩⟩ := followTarget_eq_error h
    · exact ⟨location, hlocation, .inl hcycle⟩
    · cases hvisit
      exact ⟨location, hlocation, .inr (.inl ⟨hnew, rfl, rfl⟩)⟩
  | succ inner =>
    rw [resolveTarget_succ] at h
    obtain ⟨location, hlocation, hcycle | ⟨hnew, hvisit⟩⟩ := followTarget_eq_error h
    · exact ⟨location, hlocation, .inl hcycle⟩
    -- A file that cannot be read, or whose fault is its own, leaves the reference unresolved.
    refine ⟨location, hlocation, .inr (.inr ⟨hnew, inner, ?_⟩)⟩
    split at hvisit
    · cases hvisit
    · next bytes hbytes =>
      obtain ⟨hread, hstops⟩ := settled_eq_error hvisit
      exact ⟨bytes, rfl, hbytes, hstops, hread⟩

/-- A lookup fails only with errors that stop the referrer. -/
theorem stopsReferrer_of_resolveTarget {e : Error}
    (h : resolveTarget store options levels chain directory t = .error e) :
    e.stopsReferrer = true := by
  obtain ⟨location, -, ⟨-, rfl⟩ | ⟨-, -, rfl⟩ | ⟨-, inner, bytes, -, -, hstops, -⟩⟩ :=
    resolveTarget_eq_error h
  · rfl
  · rfl
  · exact hstops

end

/-! ## §4 Lookups of two runs -/

/-- Some options go less far than others: they accept less or allow `more` levels less. In all else
they agree, and where they go less far they stop with an error out of a class, which stops every
referrer too. -/
structure ReadOptions.NarrowerThan (options options' : ReadOptions) (stops : Error → Prop)
    (more : Nat) : Prop extends options.TrackedBy stops options' where
  basePath : options.basePath = options'.basePath
  limit : options'.maxReferenceDepth = options.maxReferenceDepth + more
  depth : 0 < more → stops (.referenceDepth options.maxReferenceDepth)
  propagates : ∀ e, stops e → e.stopsReferrer = true

section

variable {stops : Error → Prop} {store : Store} {options options' : ReadOptions} {more : Nat}

theorem tracks_followTarget {rel : Option ProcessList → Option ProcessList → Prop}
    (hnone : rel none none) {chain : List Location}
    {visit visit' : Location → Except Error (Option ProcessList)}
    (hvisit : ∀ location, location ∉ chain →
      Tracks stops rel (visit location) (visit' location)) (directory : Option String) (t : Target) :
    Tracks stops rel (followTarget store chain directory visit t)
      (followTarget store chain directory visit' t) := by
  unfold followTarget
  split
  · exact .ok hnone
  · next location _ =>
    split
    · exact .error _
    · next hnew => exact hvisit location fun hmem => hnew (List.contains_iff_mem.mpr hmem)

/-- Two runs with the same difference between the levels that are left as between their limits look
up every target alike. -/
theorem tracks_resolveTarget (h : options.NarrowerThan options' stops more) (levels : Nat)
    (chain : List Location) (directory : Option String) (t : Target) :
    Tracks stops Eq (resolveTarget store options levels chain directory t)
      (resolveTarget store options' (levels + more) chain directory t) := by
  induction levels generalizing chain directory t with
  | zero =>
    cases more with
    | zero =>
      -- Both runs are at the same limit.
      refine tracks_followTarget rfl (fun location _ => ?_) directory t
      rw [h.limit]
      exact .error _
    | succ more =>
      -- Only the first run is at its limit.
      rw [Nat.zero_add]
      exact tracks_followTarget rfl
        (fun location _ => .stopped (h.depth (Nat.succ_pos more)) _) directory t
  | succ levels ih =>
    rw [Nat.succ_add, resolveTarget_succ, resolveTarget_succ]
    refine tracks_followTarget rfl (fun location _ => ?_) directory t
    -- The two runs read the same file, with the same difference of levels inside it.
    cases store.read location with
    | error fault => exact .ok rfl
    | ok bytes =>
      refine tracks_settled h.propagates ?_
      exact ProcessList.tracks_readBytes_eq h.toTrackedBy fun t _ => ih _ _ t

theorem ProcessList.tracks_ofBytes (h : options.NarrowerThan options' stops more)
    (bytes : ByteArray) :
    Tracks stops Eq (ofBytes store options bytes) (ofBytes store options' bytes) := by
  refine tracks_readBytes_eq h.toTrackedBy fun t _ => ?_
  unfold freeLink
  rw [h.limit, ← h.basePath]
  exact tracks_resolveTarget h _ _ _ t

theorem ProcessList.tracks_load (h : options.NarrowerThan options' stops more) (path : String) :
    Tracks stops Eq (load store options path) (load store options' path) := by
  refine (Tracks.refl _).bind_eq fun location => (Tracks.refl _).bind_eq fun bytes => ?_
  refine tracks_readBytes_eq h.toTrackedBy fun t _ => ?_
  rw [h.limit]
  exact tracks_resolveTarget h _ _ _ t

end

end CommonLut
