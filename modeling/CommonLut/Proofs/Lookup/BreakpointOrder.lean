import CommonLut.Proofs.Binary.Comparison
import CommonLut.Proofs.Lookup.IndexMap

/-!
# The order of breakpoints

When a map is built, only inputs next to each other are compared, and a pair is refused only if the
later input is below the earlier one. Numbers are in order by transitivity then. An input that is no
number is below nothing and nothing is below it, so it is never refused, and the inputs after it may
start anywhere.

Main definition: `IndexMap.Ascending`.
Main statements: `IndexMap.isOrdered_iff_ascending`, `IndexMap.ofLists_eq_ok`,
`IndexMap.accepted_iff_ascending`.
-/

namespace CommonLut.IndexMap

open Binary

/-! ## §1 Neighbours -/

/-- No input is below an earlier one if there are only numbers from the one to the other. -/
def Ascending (inputs : List Float) : Prop :=
  ∀ i j (_ : i < j) (_ : j < inputs.length),
    (∀ k (_ : i ≤ k) (_ : k ≤ j), inputs[k].isNaN = false) → inputs[i] ≤ inputs[j]

theorem isOrdered_iff_isChain {ω : Type} [Scalar ω] {points : List (ω × ω)} :
    isOrdered points = true ↔ (points.map Prod.fst).IsChain fun x y => ¬ y < x := by
  induction points with
  | nil => exact iff_of_true rfl .nil
  | cons p rest ih =>
    cases rest with
    | nil => exact iff_of_true rfl (.singleton _)
    | cons q rest =>
      rw [isOrdered, Bool.and_eq_true, Bool.not_eq_true', decide_eq_false_iff_not, ih]
      change _ ↔ (p.1 :: q.1 :: rest.map Prod.fst).IsChain fun x y => ¬ y < x
      rw [List.isChain_cons_cons]
      rfl

/-- Numbers in a row of which none is below its neighbour. -/
theorem place_le_of_isChain {inputs : List Float} (h : inputs.IsChain fun x y => ¬ y < x)
    {i j : Nat} (hij : i ≤ j) (hj : j < inputs.length)
    (hnumbers : ∀ k (_ : i ≤ k) (_ : k ≤ j), inputs[k].isNaN = false) :
    Machine.place inputs[i] ≤ Machine.place inputs[j] := by
  induction j, hij using Nat.le_induction with
  | base => exact le_rfl
  | succ j hij ih =>
    have hprevious := ih (by omega) fun k hik hkj => hnumbers k hik (by omega)
    have hstep := List.isChain_iff_getElem.mp h j hj
    rw [Machine.lt_iff_place (hnumbers (j + 1) (by omega) le_rfl) (hnumbers j hij (by omega)),
      not_lt] at hstep
    exact hprevious.trans hstep

theorem isChain_iff_ascending {inputs : List Float} :
    inputs.IsChain (fun x y => ¬ y < x) ↔ Ascending inputs := by
  constructor
  · intro h i j hij hj hnumbers
    rw [Machine.le_iff_place (hnumbers i le_rfl hij.le) (hnumbers j hij.le le_rfl)]
    exact place_le_of_isChain h hij.le hj hnumbers
  · intro h
    refine List.isChain_iff_getElem.mpr fun i hi hlt => ?_
    -- Only numbers are compared, and between neighbours there is nothing else.
    obtain ⟨hnext, hthis⟩ := Machine.isNaN_of_lt hlt
    have hle := h i (i + 1) (by omega) hi fun k hik hki => by
      rcases (by omega : k = i ∨ k = i + 1) with rfl | rfl
      · exact hthis
      · exact hnext
    rw [Machine.lt_iff_place hnext hthis] at hlt
    rw [Machine.le_iff_place hthis hnext] at hle
    exact hle.not_gt hlt

theorem isOrdered_iff_ascending {points : List (Float × Float)} :
    isOrdered points = true ↔ Ascending (points.map Prod.fst) :=
  isOrdered_iff_isChain.trans isChain_iff_ascending

/-- Among numbers the order is that of the whole list. -/
theorem ascending_iff_pairwise {inputs : List Float} (hnumbers : ∀ x ∈ inputs, x.isNaN = false) :
    Ascending inputs ↔ inputs.Pairwise (· ≤ ·) := by
  rw [List.pairwise_iff_getElem]
  constructor
  · intro h i j hi hj hij
    exact h i j hij hj fun k _ _ => hnumbers _ (List.getElem_mem _)
  · intro h i j hij hj _
    exact h i j (hij.trans hj) hj hij

/-! ## §2 Maps that are accepted -/

theorem ofPoints_unordered {dim : Nat} {points : List (Float × Float)} (hne : points ≠ [])
    (h : ¬ Ascending (points.map Prod.fst)) : ofPoints dim points = .error .breakpointOrder := by
  rw [← isOrdered_iff_ascending] at h
  unfold ofPoints
  rw [if_neg (by simpa using hne), if_pos (by simp [h])]

theorem ofLists_of_length_eq (dim : Nat) {inputs outputs : List Float}
    (h : inputs.length = outputs.length) :
    ofLists dim inputs outputs = ofPoints dim (inputs.zip outputs) ∧
      (inputs.zip outputs).map Prod.fst = inputs ∧ (inputs.zip outputs = [] ↔ inputs = []) := by
  have hinputs : (inputs.zip outputs).map Prod.fst = inputs := List.map_fst_zip h.le
  refine ⟨if_neg (not_not.mpr h), hinputs, ?_⟩
  conv_rhs => rw [← hinputs, List.map_eq_nil_iff]

theorem ofLists_eq_ok {dim : Nat} {inputs outputs : List Float} {m : IndexMap Float} :
    ofLists dim inputs outputs = .ok m ↔
      inputs.length = outputs.length ∧ inputs ≠ [] ∧ Ascending inputs ∧
        m = { dim, points := inputs.zip outputs } := by
  by_cases hlength : inputs.length = outputs.length
  · obtain ⟨hpoints, hinputs, hempty⟩ := ofLists_of_length_eq dim hlength
    rw [hpoints, ofPoints_eq_ok, isOrdered_iff_ascending, hinputs, ne_eq, hempty]
    tauto
  · refine iff_of_false ?_ fun h => hlength h.1
    rw [ofLists, if_pos hlength]
    exact nofun

/-- A map that is read is one of breakpoints in order. -/
theorem ascending_of_read {options : ReadOptions} {e : Element} {m : IndexMap Float}
    (h : read options e = .ok m) : m.points ≠ [] ∧ Ascending (m.points.map Prod.fst) :=
  have hm := readable_of_read h
  ⟨hm.points_ne_nil, isOrdered_iff_ascending.mp hm.ordered⟩

/-- Breakpoints have no other faults than that they are misspelt, missing or out of order. -/
theorem exists_content_of_readPoint {entry : String} {e : Error} (h : readPoint entry = .error e) :
    ∃ fault, e = .content fault := by
  unfold readPoint at h
  dsimp only at h
  split at h
  · cases h
    exact ⟨_, rfl⟩
  · split at h <;> cases h
    exact ⟨_, rfl⟩

/-- An element is accepted if its text is a list of breakpoints in order, and its content is at
fault otherwise. -/
theorem exists_content_of_read {options : ReadOptions} {e : Element} {text : String} {dim : Nat}
    (haccepted : options.require .autodesk "IndexMap" = .ok ())
    (htext : e.requiredAttribute "dim" = .ok text) (hdim : Text.size? (Text.trim text) = some dim)
    (h : ¬ ∃ points, (Text.words e.text).mapM readPoint = .ok points ∧ points ≠ [] ∧
      Ascending (points.map Prod.fst)) : ∃ fault, read options e = .error (.content fault) := by
  unfold read
  rw [haccepted, htext]
  simp only [bind, Except.bind, hdim]
  -- At fault is an entry that is no pair of numbers, or else that there is none, or else the order.
  cases hpoints : (Text.words e.text).mapM readPoint with
  | error err =>
    obtain ⟨entry, -, hentry⟩ := exists_of_mapM_error hpoints
    obtain ⟨fault, rfl⟩ := exists_content_of_readPoint hentry
    exact ⟨fault, rfl⟩
  | ok points =>
    rcases eq_or_ne points [] with rfl | hne
    · exact ⟨.noBreakpoint, rfl⟩
    · have hunordered : ¬ Ascending (points.map Prod.fst) := fun hordered =>
        h ⟨points, hpoints, hne, hordered⟩
      refine ⟨.breakpointOrder, ?_⟩
      simp only [ofPoints_unordered hne hunordered]
      rfl

/-! ## §3 The order -/

/-- The lists that a map can be made of, and the breakpoints that an element can have: inputs and
outputs in equal number, at least one of each, no input below an earlier one with only numbers from
the one to the other. Every other list is refused. If all inputs are numbers, then every input is at
most as large as every later one. -/
theorem accepted_iff_ascending (dim : Nat) (inputs outputs : List Float) (options : ReadOptions)
    (e : Element) :
    ((∀ m, ofLists dim inputs outputs = .ok m ↔
        inputs.length = outputs.length ∧ inputs ≠ [] ∧ Ascending inputs ∧
          m = { dim, points := inputs.zip outputs }) ∧
      (inputs.length ≠ outputs.length →
        ofLists dim inputs outputs =
          .error (.breakpointCounts inputs.length outputs.length)) ∧
      (inputs.length = outputs.length → inputs = [] →
        ofLists dim inputs outputs = .error .noBreakpoint) ∧
      (inputs.length = outputs.length → inputs ≠ [] → ¬ Ascending inputs →
        ofLists dim inputs outputs = .error .breakpointOrder)) ∧
    ((∀ m : IndexMap Float, read options e = .ok m →
        m.points ≠ [] ∧ Ascending (m.points.map Prod.fst)) ∧
      ∀ (text : String) (size : Nat), options.require .autodesk "IndexMap" = .ok () →
        e.requiredAttribute "dim" = .ok text → Text.size? (Text.trim text) = some size →
        (¬ ∃ points, (Text.words e.text).mapM readPoint = .ok points ∧ points ≠ [] ∧
          Ascending (points.map Prod.fst)) →
        ∃ fault, read options e = .error (.content fault)) ∧
    ∀ numbers : List Float, (∀ x ∈ numbers, x.isNaN = false) →
      (Ascending numbers ↔ numbers.Pairwise (· ≤ ·)) := by
  refine ⟨⟨fun m => ofLists_eq_ok, fun hlength => if_pos hlength, ?_, ?_⟩,
    ⟨fun m h => ascending_of_read h, fun text size haccepted htext hsize h =>
      exists_content_of_read haccepted htext hsize h⟩,
    fun numbers hnumbers => ascending_iff_pairwise hnumbers⟩
  · intro hlength hempty
    obtain ⟨hpoints, -, hnil⟩ := ofLists_of_length_eq dim hlength
    rw [hpoints, hnil.mpr hempty]
    rfl
  · intro hlength hne hunordered
    obtain ⟨hpoints, hinputs, hnil⟩ := ofLists_of_length_eq dim hlength
    rw [hpoints, ofPoints_unordered (hnil.not.mpr hne) (hinputs.symm ▸ hunordered)]

-- Two numbers in order are accepted, from lists as from an element, and a word without an at sign
-- is no breakpoint.
theorem accepted_iff_ascending_falling :
    let m : IndexMap Float := { dim := 2, points := [(0.0, 0.5), (1.0, 0.25)] }
    (ofLists 2 [0.0, 1.0] [0.5, 0.25] = .ok m ∧ read {} m.write.trimmed = .ok m ∧
        Ascending (m.points.map Prod.fst)) ∧
      [(0.0 : Float), 1.0].Pairwise (· ≤ ·) ∧
      (ofLists 1 [(0.0 : Float)] [] = .error (.breakpointCounts 1 0) ∧
        ofLists 0 ([] : List Float) [] = .error .noBreakpoint ∧
        ofLists 2 [(1.0 : Float), 0.0] [0.5, 0.25] = .error .breakpointOrder) ∧
      ∃ fault, read {} ((Element.leaf "IndexMap" "x").withAttribute "dim" "2") =
        .error (.content fault) := by
  intro m
  have hnumbers : ∀ x ∈ [(0.0 : Float), 1.0], x.isNaN = false := by decide
  have hnumbers' : ∀ x ∈ [(1.0 : Float), 0.0], x.isNaN = false := by decide
  have hordered : [(0.0 : Float), 1.0].Pairwise (· ≤ ·) := by decide
  have hunordered : ¬ [(1.0 : Float), 0.0].Pairwise (· ≤ ·) := by decide
  have hback : read {} m.write.trimmed = .ok m :=
    read_write ⟨rfl, by decide, by simp [m], by decide, rfl⟩
  obtain ⟨⟨haccepted, -⟩, ⟨hread, -⟩, hpairwise⟩ :=
    accepted_iff_ascending 2 [0.0, 1.0] [0.5, 0.25] {} m.write.trimmed
  obtain ⟨⟨-, hcounts, -⟩, ⟨-, hrefused⟩, -⟩ := accepted_iff_ascending 1 [0.0] [] {}
    ((Element.leaf "IndexMap" "x").withAttribute "dim" "2")
  obtain ⟨⟨-, -, hempty, -⟩, -⟩ := accepted_iff_ascending 0 [] [] {} m.write
  obtain ⟨⟨-, -, -, horder⟩, -⟩ := accepted_iff_ascending 2 [1.0, 0.0] [0.5, 0.25] {} m.write
  refine ⟨⟨?_, hback, (hread m hback).2⟩, hordered, ⟨?_, ?_, ?_⟩, ?_⟩
  · exact (haccepted _).mpr ⟨by simp, nofun, (hpairwise _ hnumbers).mpr hordered, rfl⟩
  · exact hcounts (by simp)
  · exact hempty rfl rfl
  · exact horder (by simp) (by simp) fun h => hunordered ((hpairwise _ hnumbers').mp h)
  · refine hrefused "2" 2 rfl (by decide) (by decide) ?_
    rintro ⟨points, hpoints, -, -⟩
    have hwords : Text.words ((Element.leaf "IndexMap" "x").withAttribute "dim" "2").text =
        ["x"] := by decide
    have hentry : readPoint "x" = .error (.content (.breakpointMark "x")) := by decide
    rw [hwords, List.mapM_cons, hentry] at hpoints
    cases hpoints

-- An input that is no number separates two lists that are in order.
theorem exists_descending :
    ∃ m, ofLists 3 [1.0, Float.ofBits Machine.quietNaN, 0.0] [0.0, 1.0, 2.0] = .ok m ∧
      read {} m.write.trimmed = .ok m ∧ ¬ (m.points.map Prod.fst).Pairwise (· ≤ ·) := by
  refine ⟨{ dim := 3, points := [(1.0, 0.0), (Float.ofBits Machine.quietNaN, 1.0), (0.0, 2.0)] },
    ?_, read_write ⟨rfl, by decide, by simp, by decide, rfl⟩, by decide⟩
  rw [(ofLists_of_length_eq 3 (by simp)).1]
  exact ofPoints_eq_ok.mpr ⟨rfl, by simp, by decide⟩

end CommonLut.IndexMap
