import CommonLut.Proofs.Document.Lookups
import CommonLut.Proofs.Document.SelfContained

/-!
# Targets that cannot be used

A reference whose target is missing is left unresolved, and so is one whose target cannot be read.
The comparison is with a store in which no target exists: there every reference of the document
stays unresolved. A list is the same in both but for the lists that are embedded in it, and a fault
of the document itself is the same in both. A target adds only the errors that stop its referrer.

Main definitions: `Node.detached`, `ProcessList.detached`.
Main statement: `ProcessList.ofBytes_degraded`.
-/

namespace CommonLut

/-! ## §1 Lists without their targets -/

namespace Node

mutual
/-- The node with every reference in it unresolved. -/
def detached : Node → Node
  | operation c op => operation c op
  | group c nodes => group c (detachedAll nodes)
  | reference c t | resolved c t _ _ => reference c t
termination_by structural n => n

@[inherit_doc detached]
def detachedAll : List Node → List Node
  | [] => []
  | n :: ns => n.detached :: detachedAll ns
termination_by structural ns => ns
end

theorem detached_ofTarget (c : NodeCommon) (t : Target) (list? : Option ProcessList) :
    (ofTarget c t list?).detached = .reference c t := by
  cases list? <;> rfl

theorem detachedAll_of_forall₂ {ns ns' : List Node}
    (h : List.Forall₂ (fun n n' => n' = n.detached) ns ns') : ns' = detachedAll ns := by
  induction h with
  | nil => rfl
  | cons heq _ ih => rw [detachedAll, heq, ih]

end Node

namespace ProcessList

/-- The list with every embedded list removed. -/
def detached (l : ProcessList) : ProcessList := { l with nodes := Node.detachedAll l.nodes }

/-! ## §2 Documents whose targets are missing -/

/-- No target of a document exists, seen from a directory. -/
def TargetsMissing (store : Store) (directory : Option String) (bytes : ByteArray) : Prop :=
  ∀ t, DocumentRefersTo bytes t → ∃ fault, store.canonical (t.pathFrom directory) = .error fault

section

variable {store store₀ : Store} {options : ReadOptions} {bytes : ByteArray}

/-- A document is read, at any nesting, as in a store without its targets, up to the lists that are
embedded, unless one of its targets stops it. -/
theorem tracks_detached {levels levels₀ : Nat} {chain chain₀ : List Location}
    {directory : Option String} (hmissing : TargetsMissing store₀ directory bytes) :
    Tracks (fun e => e.stopsReferrer = true) (fun l l₀ => l₀ = l.detached)
      (readBytes (resolveTarget store options levels chain directory) options bytes)
      (readBytes (resolveTarget store₀ options levels₀ chain₀ directory) options bytes) := by
  have hread : Tracks (fun e => e.stopsReferrer = true) (Related fun n n₀ => n₀ = n.detached)
      (readBytes (resolveTarget store options levels chain directory) options bytes)
      (readBytes (resolveTarget store₀ options levels₀ chain₀ directory) options bytes) := by
    refine tracks_readBytes (.refl options) (fun c op => rfl) (fun c ns ns' hns => ?_)
      fun t ht c => ?_
    · rw [Node.detachedAll_of_forall₂ hns, Node.detached]
    · obtain ⟨fault, hfault⟩ := hmissing t ht
      rw [resolveTarget_of_missing hfault]
      -- The other lookup finds a list, nothing, or an error that stops the document.
      cases hlink : resolveTarget store options levels chain directory t with
      | ok list? => exact .ok (Node.detached_ofTarget c t list?).symm
      | error e =>
        refine .stopped ?_ _
        exact stopsReferrer_of_resolveTarget hlink
  refine hread.mono fun l l₀ _ hl => ?_
  obtain ⟨header, ns⟩ := l
  obtain ⟨header₀, ns₀⟩ := l₀
  obtain ⟨hheader, hnodes⟩ := hl
  have hns : ns₀ = Node.detachedAll ns := Node.detachedAll_of_forall₂ hnodes
  cases hheader
  rw [hns]
  rfl

/-- A document is compared with how it is read where none of its targets exists. Its list there is
the list with every embedded list removed. An error is the same there, unless it is a circle, a
nesting that is too deep or a feature that is refused, and an error there is an error here. -/
theorem ofBytes_degraded (hmissing : TargetsMissing store₀ options.basePath bytes) :
    (∀ l, ofBytes store options bytes = .ok l → ofBytes store₀ options bytes = .ok l.detached) ∧
    (∀ e, ofBytes store options bytes = .error e → (∀ chain, e ≠ .circularReference chain) →
      (∀ limit, e ≠ .referenceDepth limit) → (∀ feature x, e ≠ .unsupported feature x) →
        ofBytes store₀ options bytes = .error e) ∧
    ∀ e, ofBytes store₀ options bytes = .error e → ∃ e', ofBytes store options bytes = .error e' := by
  have hread : Tracks (fun e => e.stopsReferrer = true) (fun l l₀ => l₀ = l.detached)
      (ofBytes store options bytes) (ofBytes store₀ options bytes) := tracks_detached hmissing
  refine ⟨fun l hl => ?_, fun e he hcircle hdepth hfeature => ?_, fun e he => ?_⟩
  · obtain ⟨_, h₀, rfl⟩ := hread.of_ok hl
    exact h₀
  · rcases hread.of_error he with h₀ | hstops
    · exact h₀
    · obtain ⟨chain, rfl⟩ | ⟨limit, rfl⟩ | ⟨feature, x, rfl⟩ := Error.stopsReferrer_iff.mp hstops
      · exact absurd rfl (hcircle chain)
      · exact absurd rfl (hdepth limit)
      · exact absurd rfl (hfeature feature x)
  · exact hread.of_right_error he

end

theorem target_of_referringRoot {t : Target} (h : DocumentRefersTo referringRoot.toBytes t) :
    t = { path := "target.clf" } := by
  obtain ⟨root, hroot, child, hchild, ht⟩ := h
  rw [rootElement_toBytes parsed_referringRoot.toWritable] at hroot
  cases hroot
  cases List.mem_singleton.mp hchild
  cases ht with
  | reference hname hpath =>
    cases hpath
    rfl
  | group hname _ _ => exact absurd hname (by decide)

/-- A reference to the file beside the document, and a store without that file. -/
theorem ofBytes_degraded_tenBit :
    ∃ l, TargetsMissing { workingDirectory := [] } none referringRoot.toBytes ∧
      ofBytes (besideFile tenBitFile) {} referringRoot.toBytes = .ok l ∧
      ofBytes { workingDirectory := [] } {} referringRoot.toBytes = .ok l.detached := by
  have hmissing : TargetsMissing { workingDirectory := [] } none referringRoot.toBytes := by
    intro t ht
    rw [target_of_referringRoot ht]
    exact ⟨.notFound, rfl⟩
  have hread := ofBytes_referringRoot writable_tenBitFile .permissive rfl tenBitList fun _ => rfl
  exact ⟨_, hmissing, hread, (ofBytes_degraded hmissing).1 _ hread⟩

end ProcessList

end CommonLut
