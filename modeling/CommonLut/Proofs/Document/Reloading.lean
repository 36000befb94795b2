import CommonLut.Node.Evaluate
import CommonLut.Proofs.Document.Lookups
import CommonLut.Proofs.Document.SelfContained

/-!
# References that are loaded again

A reference may be loaded at any time, whether it is resolved or not, and as often as one likes
while files come and go. Loading has six ways out, and only the one where a list has been read
assigns the node. So a reference keeps the last list that was read for it, also when its target has
been removed or is no longer understood.

Main definitions: `Node.loadInPlace`, `Target.ReadsTo`, `Node.loadAll`.
Main statements: `Node.loadInPlace_eq`, `Node.loadInPlace_spec`.
-/

namespace CommonLut

variable {store : Store} {options : ReadOptions} {c : NodeCommon} {t : Target}

/-! ## §1 One target -/

/-- The file that a target leads to is there, may be entered, and is read to a list. -/
def Target.ReadsTo (store : Store) (options : ReadOptions) (t : Target) (list : ProcessList) :
    Prop :=
  ∃ location bytes, store.canonical (t.pathFrom options.basePath) = .ok location ∧
    options.maxReferenceDepth ≠ 0 ∧ store.read location = .ok bytes ∧
    ProcessList.readBytes (resolveTarget store options (options.maxReferenceDepth - 1) [location]
      (location.parent?.map Location.text)) options bytes = .ok list

namespace Node

/-- A reference with its target looked up again: how this ends, and the node afterwards. No document
is being read, so there is no circle to look for. -/
def loadInPlace (store : Store) (options : ReadOptions) (n : Node) : Except Error Unit × Node :=
  match n with
  | .reference common target | .resolved common target _ _ =>
    match store.canonical (target.pathFrom options.basePath) with
    | .error _ => (.ok (), n)
    | .ok location =>
      if options.maxReferenceDepth = 0 then (.error (.referenceDepth 0), n)
      else
        match store.read location with
        | .error _ => (.ok (), n)
        | .ok bytes =>
          let inner := resolveTarget store options (options.maxReferenceDepth - 1) [location]
            (location.parent?.map Location.text)
          match ProcessList.readBytes inner options bytes with
          | .ok list => (.ok (), .resolved common target list.header list.nodes)
          | .error e => if e.stopsReferrer then (.error e, n) else (.ok (), n)
  | n => (.ok (), n)

end Node

/-- What reading a target comes to when the node is loaded, exit by exit. -/
theorem freeLink_eq : freeLink store options t =
    match store.canonical (t.pathFrom options.basePath) with
    | .error _ => .ok none
    | .ok location =>
      if options.maxReferenceDepth = 0 then .error (.referenceDepth 0)
      else
        match store.read location with
        | .error _ => .ok none
        | .ok bytes =>
          settled (ProcessList.readBytes (resolveTarget store options
            (options.maxReferenceDepth - 1) [location] (location.parent?.map Location.text))
            options bytes) := by
  unfold freeLink
  -- A limit of zero is met after the path is followed and before the file is read.
  cases hlevels : options.maxReferenceDepth with
  | zero =>
    simp only [resolveTarget, followTarget, hlevels]
    rfl
  | succ levels =>
    rw [resolveTarget_succ]
    rfl

/-- A target is looked up to a list exactly if it reads to the list. -/
theorem freeLink_eq_ok_some {list : ProcessList} :
    freeLink store options t = .ok (some list) ↔ t.ReadsTo store options list := by
  constructor
  · intro h
    obtain ⟨inner, location, bytes, hlevels, hlocation, -, hbytes, hread⟩ := resolveTarget_eq_some h
    refine ⟨location, bytes, hlocation, by simp [hlevels], hbytes, ?_⟩
    rw [hlevels]
    exact hread
  · rintro ⟨location, bytes, hlocation, hlevels, hbytes, hread⟩
    rw [freeLink_eq, hlocation]
    dsimp only
    rw [if_neg hlevels, hbytes]
    dsimp only
    rw [hread]
    rfl

/-- A target reads to one list at most. -/
theorem Target.ReadsTo.unique {list list' : ProcessList} (h : t.ReadsTo store options list)
    (h' : t.ReadsTo store options list') : list' = list := by
  cases (freeLink_eq_ok_some.mpr h).symm.trans (freeLink_eq_ok_some.mpr h')
  rfl

namespace Node

variable {list? : Option ProcessList}

/-- A reference is assigned the list that has been found, and nothing else. -/
theorem loadInPlace_ofTarget : (ofTarget c t list?).loadInPlace store options =
    match freeLink store options t with
    | .ok found => (.ok (), ofTarget c t (found.or list?))
    | .error e => (.error e, ofTarget c t list?) := by
  -- Both kinds of reference run the same body and differ in the list that they keep on failure.
  have hexits : (ofTarget c t list?).loadInPlace store options =
      match store.canonical (t.pathFrom options.basePath) with
      | .error _ => (.ok (), ofTarget c t list?)
      | .ok location =>
        if options.maxReferenceDepth = 0 then (.error (.referenceDepth 0), ofTarget c t list?)
        else
          match store.read location with
          | .error _ => (.ok (), ofTarget c t list?)
          | .ok bytes =>
            match ProcessList.readBytes (resolveTarget store options
              (options.maxReferenceDepth - 1) [location] (location.parent?.map Location.text))
              options bytes with
            | .ok list => (.ok (), ofTarget c t (some list))
            | .error e =>
              if e.stopsReferrer then (.error e, ofTarget c t list?)
              else (.ok (), ofTarget c t list?) := by
    cases list? <;> rfl
  rw [hexits, freeLink_eq]
  cases store.canonical (t.pathFrom options.basePath) with
  | error fault => rfl
  | ok location =>
    dsimp only
    split
    · rfl
    · cases store.read location with
      | error fault => rfl
      | ok bytes =>
        dsimp only
        cases ProcessList.readBytes _ options bytes with
        | ok list => rfl
        | error e =>
          dsimp only [settled]
          split <;> rfl

theorem loadTarget_ofTarget : (ofTarget c t list?).loadTarget store options =
    (freeLink store options t).map fun found => ofTarget c t (found.or list?) := by
  cases list? with
  | none =>
    rw [ofTarget, loadTarget]
    cases freeLink store options t with
    | error e => rfl
    | ok found => cases found <;> rfl
  | some list =>
    rw [ofTarget, loadTarget]
    cases freeLink store options t with
    | error e => rfl
    | ok found => cases found <;> rfl

/-- Loading in place ends as loading does, with the new node, or with the old one if it fails. -/
theorem loadInPlace_eq (n : Node) : n.loadInPlace store options =
    match n.loadTarget store options with
    | .ok n' => (.ok (), n')
    | .error e => (.error e, n) := by
  have hreference : ∀ c t list?, (ofTarget c t list?).loadInPlace store options =
      match (ofTarget c t list?).loadTarget store options with
      | .ok n' => (.ok (), n')
      | .error e => (.error e, ofTarget c t list?) := by
    intro c t list?
    rw [loadInPlace_ofTarget, loadTarget_ofTarget]
    cases freeLink store options t <;> rfl
  cases n with
  | operation c op => rfl
  | group c nodes => rfl
  | reference c t => exact hreference c t none
  | resolved c t header nodes => exact hreference c t (some { header, nodes })

theorem loadInPlace_of_readsTo {list : ProcessList} (h : t.ReadsTo store options list) :
    (ofTarget c t list?).loadInPlace store options = (.ok (), ofTarget c t (some list)) := by
  rw [loadInPlace_ofTarget, freeLink_eq_ok_some.mpr h]
  rfl

/-- Where nothing is read, the node stays as it was, whether loading fails or not. -/
theorem loadInPlace_of_not_readsTo (h : ∀ list, ¬ t.ReadsTo store options list) :
    ((ofTarget c t list?).loadInPlace store options).2 = ofTarget c t list? := by
  rw [loadInPlace_ofTarget]
  cases hlink : freeLink store options t with
  | error e => rfl
  | ok found =>
    cases found with
    | none => rfl
    | some list => exact absurd (freeLink_eq_ok_some.mp hlink) (h list)

/-! ## §2 One load after the other -/

/-- A node after some loads, each with the files and the options of its time. -/
def loadAll (loads : List (Store × ReadOptions)) (n : Node) : Node :=
  loads.foldl (fun n load => (n.loadInPlace load.1 load.2).2) n

/-- Loading changes neither the target nor anything beside it. -/
theorem exists_loadAll_eq (loads : List (Store × ReadOptions)) (list? : Option ProcessList) :
    ∃ last?, loadAll loads (ofTarget c t list?) = ofTarget c t last? := by
  induction loads generalizing list? with
  | nil => exact ⟨list?, rfl⟩
  | cons load loads ih =>
    obtain ⟨next?, hnext⟩ : ∃ next?,
        ((ofTarget c t list?).loadInPlace load.1 load.2).2 = ofTarget c t next? := by
      rw [loadInPlace_ofTarget]
      cases freeLink load.1 load.2 t with
      | error e => exact ⟨list?, rfl⟩
      | ok found => exact ⟨found.or list?, rfl⟩
    rw [loadAll, List.foldl_cons, hnext]
    exact ih next?

theorem loadAll_of_not_readsTo {loads : List (Store × ReadOptions)}
    (h : ∀ load ∈ loads, ∀ list, ¬ t.ReadsTo load.1 load.2 list) :
    loadAll loads (ofTarget c t list?) = ofTarget c t list? := by
  induction loads with
  | nil => rfl
  | cons load loads ih =>
    rw [List.forall_mem_cons] at h
    rw [loadAll, List.foldl_cons, loadInPlace_of_not_readsTo h.1]
    exact ih h.2

/-- The last load for which the target reads to a list determines the node. -/
theorem loadAll_of_last {before after : List (Store × ReadOptions)} {list : ProcessList}
    (h : t.ReadsTo store options list)
    (hafter : ∀ load ∈ after, ∀ list, ¬ t.ReadsTo load.1 load.2 list) :
    loadAll (before ++ (store, options) :: after) (ofTarget c t list?) =
      ofTarget c t (some list) := by
  obtain ⟨last?, hbefore⟩ := exists_loadAll_eq (c := c) (t := t) before list?
  calc loadAll (before ++ (store, options) :: after) (ofTarget c t list?)
      = loadAll after ((loadAll before (ofTarget c t list?)).loadInPlace store options).2 := by
        simp [loadAll]
    _ = loadAll after (ofTarget c t (some list)) := by rw [hbefore, loadInPlace_of_readsTo h]
    _ = ofTarget c t (some list) := loadAll_of_not_readsTo hafter

@[simp]
theorem embedded?_ofTarget : (ofTarget c t list?).embedded? = list? := by
  cases list? <;> rfl

/-- A load that fails leaves a reference exactly as it was. One that does not fail leaves its target
and all beside it, and resolves it to the list that the target reads to, if there is one; otherwise
it leaves the reference as it was, be it resolved or not. So a reference that was not resolved is
resolved afterwards exactly if its target reads to a list, and evaluates as the identity otherwise,
while one that was resolved always stays so. After any loads the node is determined by the last one
for which the target read to a list, and by the first state if there is none. -/
theorem loadInPlace_spec (store : Store) (options : ReadOptions) (c : NodeCommon) (t : Target)
    (list? : Option ProcessList) :
    (∀ e n', (ofTarget c t list?).loadInPlace store options = (.error e, n') →
      n' = ofTarget c t list?) ∧
    (∀ n', (ofTarget c t list?).loadInPlace store options = (.ok (), n') →
      (∀ list, t.ReadsTo store options list → n' = ofTarget c t (some list)) ∧
      ((∀ list, ¬ t.ReadsTo store options list) → n' = ofTarget c t list?) ∧
      (n'.embedded?.isSome = true ↔ list?.isSome = true ∨ ∃ list, t.ReadsTo store options list) ∧
      (n'.embedded? = none → ∀ p, n'.eval p = p)) ∧
    (∀ list, t.ReadsTo store options list →
      (ofTarget c t list?).loadInPlace store options = (.ok (), ofTarget c t (some list))) ∧
    (∀ loads : List (Store × ReadOptions),
      (∀ load ∈ loads, ∀ list, ¬ t.ReadsTo load.1 load.2 list) →
        loadAll loads (ofTarget c t list?) = ofTarget c t list?) ∧
    ∀ (before after : List (Store × ReadOptions)) (list : ProcessList),
      t.ReadsTo store options list →
      (∀ load ∈ after, ∀ list, ¬ t.ReadsTo load.1 load.2 list) →
        loadAll (before ++ (store, options) :: after) (ofTarget c t list?) =
          ofTarget c t (some list) := by
  have hreads : ∀ list, t.ReadsTo store options list →
      (ofTarget c t list?).loadInPlace store options = (.ok (), ofTarget c t (some list)) :=
    fun list h => loadInPlace_of_readsTo h
  have hkeeps : (∀ list, ¬ t.ReadsTo store options list) →
      ((ofTarget c t list?).loadInPlace store options).2 = ofTarget c t list? :=
    loadInPlace_of_not_readsTo
  refine ⟨?_, ?_, hreads, fun loads h => loadAll_of_not_readsTo h,
    fun before after list h hafter => loadAll_of_last h hafter⟩
  · intro e n' h
    -- No list is read by a load that fails.
    have hnone : ∀ list, ¬ t.ReadsTo store options list := by
      intro list hlist
      rw [hreads list hlist] at h
      cases h
    rw [← hkeeps hnone, h]
  · intro n' h
    by_cases hsome : ∃ list, t.ReadsTo store options list
    · obtain ⟨list, hlist⟩ := hsome
      rw [hreads list hlist] at h
      cases h
      have hexists : ∃ list, t.ReadsTo store options list := ⟨list, hlist⟩
      refine ⟨fun list' hlist' => by rw [hlist.unique hlist'],
        fun hnone => absurd hlist (hnone list), by simp [hexists], ?_⟩
      simp
    · have hnone : ∀ list, ¬ t.ReadsTo store options list := not_exists.mp hsome
      have hsame : n' = ofTarget c t list? := by rw [← hkeeps hnone, h]
      subst hsame
      refine ⟨fun list hlist => absurd hlist (hnone list), fun _ => rfl, by simp [hnone], ?_⟩
      intro hembedded p
      rw [embedded?_ofTarget] at hembedded
      subst hembedded
      rfl

/-- A reference to the file of code values of ten bits. -/
theorem loadInPlace_spec_tenBit :
    Target.ReadsTo (ProcessList.besideFile ProcessList.tenBitFile) {} { path := "target.clf" }
      ProcessList.tenBitList ∧
    ∀ list?, (ofTarget {} { path := "target.clf" } list?).loadInPlace
        (ProcessList.besideFile ProcessList.tenBitFile) {} =
      (.ok (), ofTarget {} { path := "target.clf" } (some ProcessList.tenBitList)) := by
  have hreads : Target.ReadsTo (ProcessList.besideFile ProcessList.tenBitFile) {}
      { path := "target.clf" } ProcessList.tenBitList :=
    freeLink_eq_ok_some.mp ProcessList.freeLink_tenBitFile
  refine ⟨hreads, fun list? => ?_⟩
  obtain ⟨-, -, hloaded, -⟩ := loadInPlace_spec (ProcessList.besideFile ProcessList.tenBitFile) {}
    {} { path := "target.clf" } list?
  exact hloaded _ hreads

/-- After its file has been removed, a reference is loaded without an error and goes on to evaluate
as the list that was in the file. -/
theorem exists_stale_of_loadInPlace :
    let t : Target := { path := "target.clf" }
    let loaded := ofTarget {} t (some ProcessList.tenBitList)
    (ofTarget {} t none).loadInPlace (ProcessList.besideFile ProcessList.tenBitFile) {} =
      (.ok (), loaded) ∧
    Store.canonical { workingDirectory := [] } "target.clf" = .error .notFound ∧
    loaded.loadInPlace { workingDirectory := [] } {} = (.ok (), loaded) ∧
    loaded.embedded?.isSome = true ∧ loaded.eval [1.0] ≠ [1.0] := by
  have hreads : Target.ReadsTo (ProcessList.besideFile ProcessList.tenBitFile) {}
      { path := "target.clf" } ProcessList.tenBitList :=
    freeLink_eq_ok_some.mp ProcessList.freeLink_tenBitFile
  have hchanged : (ofTarget {} { path := "target.clf" } (some ProcessList.tenBitList)).eval [1.0] ≠
      [1.0] := by decide +kernel
  exact ⟨loadInPlace_of_readsTo hreads, rfl, rfl, rfl, hchanged⟩

end Node

end CommonLut
