import CommonLut.Lookup.IndexMap
import CommonLut.Proofs.Markup.Access

/-!
# Index maps read back

The breakpoints of a map are written as words, the numbers of each around an at sign, which occurs
in no number. So they are found again one by one, and a map that is tabulated when it is read is
tabulated in the same way when it is read back.

Main definition: `IndexMap.Readable`.
Main statements: `IndexMap.readable_of_read`, `IndexMap.read_write`.
-/

namespace CommonLut.IndexMap

/-! ## §1 What reading gives -/

theorem ofPoints_eq_ok {dim : Nat} {points : List (Float × Float)} {m : IndexMap Float} :
    ofPoints dim points = .ok m ↔
      m = { dim, points } ∧ points ≠ [] ∧ isOrdered points = true := by
  unfold ofPoints
  constructor
  · intro h
    split at h
    · cases h
    · next hne =>
      split at h
      · cases h
      · next hordered =>
        cases h
        exact ⟨rfl, by simpa using hne, by simpa using hordered⟩
  · rintro ⟨rfl, hne, hordered⟩
    rw [if_neg (by simpa using hne), if_neg (by simp [hordered])]

/-- A map as it is read from an element. -/
structure Readable (options : ReadOptions) (m : IndexMap Float) : Prop where
  accepted : options.require .autodesk "IndexMap" = .ok ()
  dim_lt : m.dim < Text.sizeBound
  points_ne_nil : m.points ≠ []
  ordered : isOrdered m.points = true
  tabulated : m = if options.cacheIndexMaps then
      withCache { dim := m.dim, points := m.points }
    else { dim := m.dim, points := m.points }

theorem readable_of_read {options : ReadOptions} {e : Element} {m : IndexMap Float}
    (h : read options e = .ok m) : Readable options m := by
  unfold read at h
  obtain ⟨⟨⟩, haccepted, h⟩ := bind_eq_ok.mp h
  obtain ⟨text, -, h⟩ := bind_eq_ok.mp h
  split at h
  · cases h
  · next dim hdim =>
    obtain ⟨points, -, h⟩ := bind_eq_ok.mp h
    obtain ⟨map, hmap, h⟩ := bind_eq_ok.mp h
    obtain ⟨rfl, hne, hordered⟩ := ofPoints_eq_ok.mp (mapError_eq_ok.mp hmap)
    have hlt : dim < Text.sizeBound := SampleEncoding.natural?_lt hdim
    cases h
    cases hcache : options.cacheIndexMaps with
    | true => exact ⟨haccepted, hlt, hne, hordered, by simp [hcache, withCache]⟩
    | false => exact ⟨haccepted, hlt, hne, hordered, by simp [hcache]⟩

/-- Maps that are read one after the other. -/
theorem readable_append {options : ReadOptions} {ms : List (IndexMap Float)} {m : IndexMap Float}
    {e : Element} (hms : ∀ m ∈ ms, m.Readable options) (h : read options e = .ok m) :
    ∀ m' ∈ ms ++ [m], m'.Readable options := by
  exact List.forall_mem_append.mpr ⟨hms, List.forall_mem_singleton.mpr (readable_of_read h)⟩

/-! ## §2 Reading back -/

/-- The spelling of a breakpoint. -/
def entry (p : Float × Float) : String :=
  Text.format64 p.1 ++ "@" ++ Text.format64 p.2

theorem format64_plain {x : Float} {c : Char} (hc : c ∈ (Text.format64 x).toList) :
    Text.isBlank c = false ∧ c ≠ '@' :=
  Text.isNumberChar_plain (Text.shortest_chars _ _ c hc)

theorem toList_entry (p : Float × Float) :
    (entry p).toList = (Text.format64 p.1).toList ++ '@' :: (Text.format64 p.2).toList := by
  simp [entry]

theorem isWord_entry (p : Float × Float) : Text.IsWord (entry p) := by
  constructor
  · intro h
    have hlist := congrArg String.toList h
    simp [toList_entry] at hlist
  · intro c hc
    rw [toList_entry, List.mem_append, List.mem_cons] at hc
    rcases hc with hc | rfl | hc
    · exact (format64_plain hc).1
    · decide
    · exact (format64_plain hc).1

/-- The numbers around the at sign of a breakpoint are found again. -/
theorem readPoint_entry (p : Float × Float) : readPoint (entry p) = .ok p := by
  have hspan : (entry p).toList.span (· != '@') =
      ((Text.format64 p.1).toList, '@' :: (Text.format64 p.2).toList) := by
    rw [toList_entry]
    refine Text.span_append (fun c hc => ?_) (by simp)
    simpa using (format64_plain hc).2
  unfold readPoint
  dsimp only
  rw [hspan]
  simp only [String.ofList_toList, Element.number?_format64]

theorem words_entries (points : List (Float × Float)) :
    Text.words (" ".intercalate (points.map entry)) = points.map entry := by
  refine Text.words_intercalate fun w hw => ?_
  obtain ⟨p, -, rfl⟩ := List.mem_map.mp hw
  exact isWord_entry p

theorem write_eq (m : IndexMap Float) :
    m.write = (Element.leaf "IndexMap" (" ".intercalate (m.points.map entry))).withAttribute "dim"
      (Text.decimal m.dim) := rfl

/-- A written map is read back. -/
theorem read_write {options : ReadOptions} {m : IndexMap Float} (hm : Readable options m) :
    read options m.write.trimmed = .ok m := by
  have hpoints : (m.points.map entry).mapM readPoint = .ok m.points := by
    rw [List.mapM_map]
    have h : m.points.mapM (readPoint ∘ entry) = .ok (m.points.map id) :=
      mapM_of_pure fun p _ => readPoint_entry p
    rwa [List.map_id] at h
  have hdim : m.write.trimmed.requiredAttribute "dim" = .ok (Text.decimal m.dim) := by
    simp [Element.requiredAttribute, write_eq]
  have hwords : Text.words m.write.trimmed.text = m.points.map entry := by
    rw [Element.text_trimmed, Text.words_trim, write_eq, Element.text_withAttribute]
    exact words_entries m.points
  have hsize : Text.size? (Text.trim (Text.decimal m.dim)) = some m.dim := by
    rw [Text.trim_word (Text.isWord_decimal m.dim), Text.size?_decimal hm.dim_lt]
  unfold read
  refine bind_eq_ok.mpr ⟨(), hm.accepted, bind_eq_ok.mpr ⟨_, hdim, ?_⟩⟩
  rw [hsize, hwords]
  refine bind_eq_ok.mpr ⟨m.points, hpoints, bind_eq_ok.mpr ⟨{ dim := m.dim, points := m.points },
    ?_, ?_⟩⟩
  · exact mapError_eq_ok.mpr (ofPoints_eq_ok.mpr ⟨rfl, hm.points_ne_nil, hm.ordered⟩)
  · -- The table is made from the points, so it is made again.
    rw [← hm.tabulated]
    rfl

/-- The element of a map can be written. -/
theorem writable_write (m : IndexMap Float) : m.write.Writable := by
  rw [write_eq]
  have hname : IsName "IndexMap" := by decide
  refine ((Element.keysWithin_leaf _ _).withAttribute "dim" _).writable hname ?_ (by decide)
    (fun c hc => absurd hc List.not_mem_nil)
  · simp only [List.nil_append, List.mem_singleton, forall_eq]
    decide

end CommonLut.IndexMap
