import CommonLut.Proofs.Outcome
import CommonLut.Store

/-!
# Files that are written

Writing a file changes what is at its own location and nothing else. A path that led somewhere leads
there afterwards too, and a path that leads somewhere afterwards led there before, unless it leads
to the file that was written.

Main statements: `Store.canonical_put_of_ok`, `Store.canonical_of_put_ok`, `Store.write_eq_ok`.
-/

namespace CommonLut

namespace Store

variable {store : Store} {l m x : Location} {content : ByteArray}

/-! ## §1 Entries -/

theorem entry?_put_self (e : Entry) : Store.entry? (store.put l e) l = some e := by
  unfold entry? put
  rw [List.find?_cons_of_pos (by exact BEq.rfl)]

theorem entry?_put_of_ne (e : Entry) (h : m ≠ l) :
    Store.entry? (store.put l e) m = store.entry? m := by
  have hfind : (store.put l e).entries.find? (fun entry => entry.1 == m) =
      store.entries.find? fun entry => entry.1 == m := by
    unfold put
    rw [List.find?_cons_of_neg (by simpa using h.symm), List.find?_filter]
    -- An entry for `m` is not one of those that are taken away.
    refine congrArg (fun p => List.find? p store.entries) (funext fun entry => ?_)
    by_cases hm : entry.1 = m
    · simp [hm, h]
    · simp [hm]
  unfold entry?
  rw [hfind]
  rfl

theorem read_put_self : (store.put l (.file content)).read l = .ok content := by
  unfold read
  rw [entry?_put_self]

theorem read_put_of_ne (e : Entry) (h : m ≠ l) : (store.put l e).read m = store.read m := by
  unfold read
  rw [entry?_put_of_ne e h]

/-! ## §2 Paths -/

/-- Every step needs a directory to stand in and leads to something. -/
theorem enter_eq_ok {component : String} :
    store.enter l component = .ok x ↔ store.entry? l = some .directory ∧
      if component = "" ∨ component = "." then x = l
      else if component = ".." then x = l.dropLast
      else x = l ++ [component] ∧ (store.entry? x).isSome = true := by
  unfold enter
  rcases hentry : store.entry? l with - | ⟨content | -⟩
  · exact iff_of_false nofun nofun
  · exact iff_of_false nofun nofun
  -- In a directory a component stays, goes up, or goes down to an entry.
  simp only [true_and]
  split
  · exact ⟨fun h => (Except.ok.inj h).symm, fun h => congrArg _ h.symm⟩
  split
  · exact ⟨fun h => (Except.ok.inj h).symm, fun h => congrArg _ h.symm⟩
  split
  · next found hfound =>
    constructor
    · intro h
      cases h
      exact ⟨rfl, Option.isSome_of_eq_some hfound⟩
    · rintro ⟨rfl, -⟩
      rfl
  · next hmissing =>
    constructor
    · intro h
      cases h
    · rintro ⟨rfl, hsome⟩
      rw [hmissing] at hsome
      cases hsome

/-- What there is has not become less after a file is put where no directory is. -/
theorem enter_put_of_ok (hfree : store.entry? l ≠ some .directory) {component : String}
    (h : store.enter m component = .ok x) :
    (store.put l (.file content)).enter m component = .ok x := by
  rw [enter_eq_ok] at h ⊢
  obtain ⟨hdirectory, h⟩ := h
  -- A step is made from a directory, and the new file is where none was.
  have hne : m ≠ l := by
    rintro rfl
    exact hfree hdirectory
  have hgrows : (store.entry? x).isSome = true →
      (Store.entry? (store.put l (.file content)) x).isSome = true := by
    intro hsome
    by_cases hx : x = l
    · rw [hx, entry?_put_self]
      rfl
    · rwa [entry?_put_of_ne _ hx]
  refine ⟨(entry?_put_of_ne _ hne).trans hdirectory, ?_⟩
  revert h
  split
  · exact id
  · split
    · exact id
    · exact And.imp_right hgrows

/-- A step that leads elsewhere than to the new file was there before. -/
theorem enter_of_put_ok {component : String} (hx : x ≠ l)
    (h : (store.put l (.file content)).enter m component = .ok x) :
    store.enter m component = .ok x := by
  rw [enter_eq_ok] at h ⊢
  obtain ⟨hdirectory, h⟩ := h
  -- No step is made from the new file.
  have hne : m ≠ l := by
    rintro rfl
    rw [entry?_put_self] at hdirectory
    cases hdirectory
  rw [entry?_put_of_ne _ hne] at hdirectory
  rw [entry?_put_of_ne _ hx] at h
  exact ⟨hdirectory, h⟩

/-- The new file is the end of every path that comes by it. -/
theorem foldlM_enter_put_self {components : List String}
    (h : components.foldlM (store.put l (.file content)).enter l = .ok x) : x = l := by
  cases components with
  | nil =>
    cases h
    rfl
  | cons component rest =>
    obtain ⟨y, hy, -⟩ := bind_eq_ok.mp h
    have hdirectory := (enter_eq_ok.mp hy).1
    rw [entry?_put_self] at hdirectory
    cases hdirectory

theorem foldlM_enter_put_of_ok (hfree : store.entry? l ≠ some .directory)
    {components : List String} (h : components.foldlM store.enter m = .ok x) :
    components.foldlM (store.put l (.file content)).enter m = .ok x := by
  induction components generalizing m with
  | nil => exact h
  | cons component rest ih =>
    obtain ⟨y, hy, hrest⟩ := bind_eq_ok.mp h
    exact bind_eq_ok.mpr ⟨y, enter_put_of_ok hfree hy, ih hrest⟩

theorem foldlM_enter_of_put_ok {components : List String} (hx : x ≠ l)
    (h : components.foldlM (store.put l (.file content)).enter m = .ok x) :
    components.foldlM store.enter m = .ok x := by
  induction components generalizing m with
  | nil => exact h
  | cons component rest ih =>
    obtain ⟨y, hy, hrest⟩ := bind_eq_ok.mp h
    -- A path that came by the new file would end there.
    have hne : y ≠ l := by
      rintro rfl
      exact hx (foldlM_enter_put_self hrest)
    exact bind_eq_ok.mpr ⟨y, enter_of_put_ok hne hy, ih hrest⟩

theorem canonical_put_of_ok (hfree : store.entry? l ≠ some .directory) {path : String}
    (h : store.canonical path = .ok x) :
    (store.put l (.file content)).canonical path = .ok x := by
  unfold canonical at h ⊢
  split at h
  · cases h
  · next hne =>
    rw [if_neg hne]
    exact foldlM_enter_put_of_ok hfree h

theorem canonical_of_put_ok {path : String} (hx : x ≠ l)
    (h : (store.put l (.file content)).canonical path = .ok x) : store.canonical path = .ok x := by
  unfold canonical at h ⊢
  split at h
  · cases h
  · next hne =>
    rw [if_neg hne]
    exact foldlM_enter_of_put_ok hx h

theorem canonical_put_of_error (hfree : store.entry? l ≠ some .directory) {path : String}
    (hend : (store.put l (.file content)).canonical path ≠ .ok l) {fault : FileFault}
    (h : store.canonical path = .error fault) :
    ∃ fault', (store.put l (.file content)).canonical path = .error fault' := by
  cases hafter : (store.put l (.file content)).canonical path with
  | error fault' => exact ⟨fault', rfl⟩
  | ok x =>
    have hx : x ≠ l := by
      rintro rfl
      exact hend hafter
    cases h.symm.trans (canonical_of_put_ok hx hafter)

/-- A path that does not lead to the new file leads where it led before, or nowhere as before. -/
theorem toOption_canonical_put (hfree : store.entry? l ≠ some .directory) {path : String}
    (hend : (store.put l (.file content)).canonical path ≠ .ok l) :
    ((store.put l (.file content)).canonical path).toOption =
      (store.canonical path).toOption := by
  cases hbefore : store.canonical path with
  | ok x => rw [canonical_put_of_ok hfree hbefore]
  | error fault =>
    obtain ⟨fault', hafter⟩ := canonical_put_of_error hfree hend hbefore
    rw [hafter]
    rfl

/-- What is read is a file. -/
theorem entry?_of_read {old : ByteArray} (h : store.read l = .ok old) :
    store.entry? l = some (.file old) := by
  unfold read at h
  split at h
  · next hentry =>
    cases h
    exact hentry
  · cases h
  · cases h

/-- A file in place of another one leaves every step as it is. -/
theorem enter_put_of_read {old : ByteArray} (h : store.read l = .ok old) (component : String) :
    (store.put l (.file content)).enter m component = store.enter m component := by
  have hentry := entry?_of_read h
  by_cases hm : m = l
  · -- No step is made from a file, the old one or the new one.
    simp [enter, hm, hentry, entry?_put_self]
  · by_cases hnext : m ++ [component] = l
    · simp [enter, entry?_put_of_ne _ hm, hnext, hentry, entry?_put_self]
    · simp [enter, entry?_put_of_ne _ hm, entry?_put_of_ne _ hnext]

theorem canonical_put_of_read {old : ByteArray} (h : store.read l = .ok old) (path : String) :
    (store.put l (.file content)).canonical path = store.canonical path := by
  have henter : (store.put l (.file content)).enter = store.enter :=
    funext fun m => funext fun component => enter_put_of_read h component
  unfold canonical
  rw [henter]
  rfl

/-! ## §3 Writing -/

/-- Blank components stay where they are, so a path may be followed without them up to a directory.
-/
theorem foldlM_enter_of_filter {components : List String}
    (h : (components.filter (· != "") ++ ["."]).foldlM store.enter m = .ok x) :
    components.foldlM store.enter m = .ok x ∧ store.entry? x = some .directory := by
  induction components generalizing m with
  | nil =>
    obtain ⟨y, hy, hx⟩ := bind_eq_ok.mp h
    cases hx
    obtain ⟨hdirectory, rfl⟩ := enter_eq_ok.mp hy
    exact ⟨rfl, hdirectory⟩
  | cons component rest ih =>
    by_cases hblank : component = ""
    · rw [List.filter_cons_of_neg (by simpa using hblank)] at h
      obtain ⟨hrest, hdirectory⟩ := ih h
      refine ⟨bind_eq_ok.mpr ⟨m, enter_eq_ok.mpr ⟨?_, by simp [hblank]⟩, hrest⟩, hdirectory⟩
      -- The next step, which there is, needs a directory to stand in.
      cases hcomponents : rest.filter (· != "") ++ ["."] with
      | nil => simp at hcomponents
      | cons first others =>
        rw [hcomponents] at h
        obtain ⟨y, hy, -⟩ := bind_eq_ok.mp h
        exact (enter_eq_ok.mp hy).1
    · rw [List.filter_cons_of_pos (by simpa using hblank), List.cons_append] at h
      obtain ⟨y, hy, hrest⟩ := bind_eq_ok.mp h
      obtain ⟨hrest, hdirectory⟩ := ih hrest
      exact ⟨bind_eq_ok.mpr ⟨y, hy, hrest⟩, hdirectory⟩

/-- The last piece of a text is not blank if the text does not end with a separator. -/
theorem exists_splitOnP_eq_append {cs : List Char} (hne : cs ≠ [])
    (hlast : cs.getLast? ≠ some '/') :
    ∃ before last, cs.splitOnP (· == '/') = before ++ [last] ∧ last ≠ [] := by
  induction cs with
  | nil => exact absurd rfl hne
  | cons c cs ih =>
    rw [List.splitOnP_cons_eq_if_modifyHead]
    cases cs with
    | nil =>
      have hc : ¬ (c == '/') = true := by simpa using hlast
      exact ⟨[], [c], by rw [if_neg hc, List.splitOnP_nil]; rfl, List.cons_ne_nil c []⟩
    | cons d ds =>
      -- One more character changes the first piece, which is the last one only if it is alone.
      obtain ⟨before, last, hsplit, hlast⟩ := ih (List.cons_ne_nil d ds)
        (by rwa [List.getLast?_cons_cons] at hlast)
      rw [hsplit]
      split
      · exact ⟨[] :: before, last, rfl, hlast⟩
      · cases before with
        | nil => exact ⟨[], c :: last, rfl, List.cons_ne_nil c last⟩
        | cons first rest => exact ⟨(c :: first) :: rest, last, rfl, hlast⟩

theorem exists_pathComponents_eq_append {path : String} (hne : path.isEmpty = false)
    (hlast : path.toList.getLast? ≠ some '/') :
    ∃ before last, pathComponents path = before ++ [last] ∧ last ≠ "" := by
  have hnil : path.toList ≠ [] := by
    intro h
    rw [String.toList_eq_nil_iff] at h
    rw [h] at hne
    cases hne
  obtain ⟨before, last, hsplit, hlast⟩ := exists_splitOnP_eq_append hnil hlast
  refine ⟨before.map String.ofList, String.ofList last, ?_, fun h => hlast ?_⟩
  · rw [pathComponents, hsplit, List.map_append]
    rfl
  · have hlist := congrArg String.toList h
    rwa [String.toList_ofList] at hlist

/-- A file that is written is put where the path to it leads afterwards, and where no directory is.
-/
theorem write_eq_ok {path : String} {after : Store} (h : store.write path content = .ok after) :
    ∃ l, after = store.put l (.file content) ∧ store.entry? l ≠ some .directory ∧
      after.canonical path = .ok l := by
  unfold write at h
  split at h
  · cases h
  next hne =>
  split at h
  · cases h
  next last before hcomponents =>
  obtain ⟨directory, hdirectory, h⟩ := bind_eq_ok.mp h
  by_cases hplain : last = "." ∨ last = ".." ∨ path.toList.getLast? = some '/'
  · rw [if_pos hplain] at h
    cases h
  rw [if_neg hplain] at h
  obtain ⟨hdot, hdots, hslash⟩ := by simpa only [not_or] using hplain
  dsimp only at h
  have hfree : store.entry? (directory ++ [last]) ≠ some .directory := by
    intro hentry
    rw [hentry] at h
    cases h
  have hafter : after = store.put (directory ++ [last]) (.file content) := by
    split at h
    · cases h
    · exact (Except.ok.inj h).symm
  subst hafter
  refine ⟨_, rfl, hfree, ?_⟩
  -- Without a separator at the end, the last component is the name of the file.
  obtain ⟨way, name, hway, hname⟩ := exists_pathComponents_eq_append (by simpa using hne) hslash
  rw [hway, List.filter_append, List.filter_cons_of_pos (by simpa using hname), List.filter_nil,
    List.reverse_append, List.reverse_singleton, List.singleton_append,
    List.cons.injEq] at hcomponents
  obtain ⟨rfl, rfl⟩ := hcomponents
  rw [List.reverse_reverse] at hdirectory
  obtain ⟨hfollow, hentry⟩ := foldlM_enter_of_filter hdirectory
  have hne' : directory ≠ directory ++ [name] := by simp
  unfold canonical
  rw [if_neg hne, hway, List.foldlM_append]
  refine bind_eq_ok.mpr ⟨directory, foldlM_enter_put_of_ok hfree hfollow, ?_⟩
  refine bind_eq_ok.mpr ⟨_, enter_eq_ok.mpr ⟨(entry?_put_of_ne _ hne').trans hentry, ?_⟩, rfl⟩
  rw [if_neg (by simp [hname, hdot]), if_neg hdots, entry?_put_self]
  exact ⟨rfl, rfl⟩

end Store

end CommonLut
