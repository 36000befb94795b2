import CommonLut.Proofs.Outcome

/-!
# Errors of a run, and two runs compared

Two facts about computations that may fail are kept by every composition of them. The first is which
errors a run can end with. The second compares two runs: the first one ends as the second one does,
with a value in some relation to the other or with the same error, unless it stops with an error out
of a given class. Where it stops, nothing is said about the second run.

Main definitions: `FailsWith`, `Tracks`.
Main statements: `FailsWith.bind`, `FailsWith.foldlM`, `Tracks.bind`, `Tracks.foldlM`.
-/

namespace CommonLut

variable {ε ε' α α' β β' σ σ' : Type}

/-! ## §1 Errors -/

/-- Every error of a run is in a class. -/
def FailsWith (errors : ε → Prop) (x : Except ε α) : Prop :=
  ∀ e, x = .error e → errors e

namespace FailsWith

variable {errors : ε → Prop}

theorem ok (a : α) : FailsWith errors (.ok a : Except ε α) := nofun

theorem error {e : ε} (h : errors e) : FailsWith errors (.error e : Except ε α) := by
  intro e' he
  cases he
  exact h

theorem mono {larger : ε → Prop} {x : Except ε α} (hx : FailsWith errors x)
    (h : ∀ e, errors e → larger e) : FailsWith larger x :=
  fun e he => h e (hx e he)

/-- The second part of a run only counts where the first part ends with a value. -/
theorem bind {x : Except ε α} {f : α → Except ε β} (hx : FailsWith errors x)
    (hf : ∀ a, x = .ok a → FailsWith errors (f a)) : FailsWith errors (x >>= f) := by
  cases x with
  | error e => exact error (hx e rfl)
  | ok a => exact hf a rfl

theorem guarded {p : Prop} [Decidable p] {check : Except ε Unit} {rest : Except ε β}
    (hcheck : FailsWith errors check) (hrest : FailsWith errors rest) :
    FailsWith errors (if p then check >>= fun _ => rest else rest) := by
  split
  · exact hcheck.bind fun _ _ => hrest
  · exact hrest

theorem mapError {errors' : ε' → Prop} {g : ε → ε'} {x : Except ε α}
    (h : ∀ e, errors' (g e)) : FailsWith errors' (x.mapError g) := by
  cases x with
  | error e => exact error (h e)
  | ok a => exact ok a

theorem foldlM {step : σ → α → Except ε σ} {xs : List α}
    (hstep : ∀ s, ∀ x ∈ xs, FailsWith errors (step s x)) (s : σ) :
    FailsWith errors (xs.foldlM step s) := by
  induction xs generalizing s with
  | nil => exact ok s
  | cons x xs ih =>
    rw [List.foldlM_cons]
    refine (hstep s x List.mem_cons_self).bind fun next _ => ?_
    exact ih (fun s' y hy => hstep s' y (List.mem_cons_of_mem x hy)) next

theorem mapM {f : α → Except ε β} {xs : List α} (h : ∀ x ∈ xs, FailsWith errors (f x)) :
    FailsWith errors (xs.mapM f) := by
  induction xs with
  | nil => exact ok []
  | cons x xs ih =>
    rw [List.mapM_cons]
    refine (h x List.mem_cons_self).bind fun y _ => ?_
    exact (ih fun z hz => h z (List.mem_cons_of_mem x hz)).bind fun ys _ => ok (y :: ys)

end FailsWith

/-! ## §2 Two runs -/

/-- A run ends as another one does, with a related value or the same error, unless it stops with an
error out of a class. -/
inductive Tracks (stops : ε → Prop) (rel : α → α' → Prop) : Except ε α → Except ε α' → Prop
  | ok {a : α} {a' : α'} (h : rel a a') : Tracks stops rel (.ok a) (.ok a')
  | error (e : ε) : Tracks stops rel (.error e) (.error e)
  | stopped {e : ε} (h : stops e) (y : Except ε α') : Tracks stops rel (.error e) y

namespace Tracks

variable {stops : ε → Prop} {rel : α → α' → Prop} {rel' : β → β' → Prop}

/-! ### What the comparison says -/

section

variable {x : Except ε α} {y : Except ε α'}

theorem of_ok (h : Tracks stops rel x y) {a : α} (hx : x = .ok a) : ∃ a', y = .ok a' ∧ rel a a' := by
  cases h with
  | ok h =>
    cases hx
    exact ⟨_, rfl, h⟩
  | error e => cases hx
  | stopped h y => cases hx

theorem of_error (h : Tracks stops rel x y) {e : ε} (hx : x = .error e) : y = .error e ∨ stops e := by
  cases h with
  | ok h => cases hx
  | error e' =>
    cases hx
    exact .inl rfl
  | stopped h y =>
    cases hx
    exact .inr h

/-- Seen from the second run, the first one gives a related value or stops. -/
theorem of_right_ok (h : Tracks stops rel x y) {a' : α'} (hy : y = .ok a') :
    (∃ a, x = .ok a ∧ rel a a') ∨ ∃ e, x = .error e ∧ stops e := by
  cases h with
  | ok h =>
    cases hy
    exact .inl ⟨_, rfl, h⟩
  | error e => cases hy
  | stopped h y => exact .inr ⟨_, rfl, h⟩

theorem of_right_error (h : Tracks stops rel x y) {e : ε} (hy : y = .error e) :
    ∃ e', x = .error e' := by
  cases h with
  | ok h => cases hy
  | error e' => exact ⟨e', rfl⟩
  | stopped h y => exact ⟨_, rfl⟩

/-- Runs with equal values are equal if the first one does not stop. -/
theorem eq_of_not_stops {x y : Except ε α} (h : Tracks stops Eq x y)
    (hx : ∀ e, x = .error e → ¬ stops e) : x = y := by
  cases h with
  | ok heq => rw [heq]
  | error e => rfl
  | stopped hstops y => exact absurd hstops (hx _ rfl)

end

/-! ### Composition -/

protected theorem refl (x : Except ε α) : Tracks stops Eq x x := by
  cases x with
  | error e => exact .error e
  | ok a => exact .ok rfl

theorem mono {larger : α → α' → Prop} {x : Except ε α} {y : Except ε α'} (h : Tracks stops rel x y)
    (hrel : ∀ a a', x = .ok a → rel a a' → larger a a') : Tracks stops larger x y := by
  cases h with
  | ok h => exact .ok (hrel _ _ rfl h)
  | error e => exact .error e
  | stopped h y => exact .stopped h y

theorem bind {x : Except ε α} {y : Except ε α'} {f : α → Except ε β} {g : α' → Except ε β'}
    (hx : Tracks stops rel x y)
    (hf : ∀ a a', x = .ok a → rel a a' → Tracks stops rel' (f a) (g a')) :
    Tracks stops rel' (x >>= f) (y >>= g) := by
  cases hx with
  | ok h => exact hf _ _ rfl h
  | error e => exact .error e
  | stopped h y => exact .stopped h _

/-- Runs that begin in the same way. -/
theorem bind_eq {x y : Except ε α} {f : α → Except ε β} {g : α → Except ε β'}
    (hx : Tracks stops Eq x y) (hf : ∀ a, Tracks stops rel' (f a) (g a)) :
    Tracks stops rel' (x >>= f) (y >>= g) := by
  refine hx.bind fun a a' _ heq => ?_
  subst heq
  exact hf a

/-- Checks that are made under the same condition. -/
theorem guarded {p : Prop} [Decidable p] {check check' : Except ε Unit} {rest rest' : Except ε β}
    (hcheck : Tracks stops Eq check check') (hrest : Tracks stops Eq rest rest') :
    Tracks stops Eq (if p then check >>= fun _ => rest else rest)
      (if p then check' >>= fun _ => rest' else rest') := by
  split
  · exact hcheck.bind_eq fun _ => hrest
  · exact hrest

/-- Steps over the same list keep the states related. -/
theorem foldlM {R : σ → σ' → Prop} {step : σ → α → Except ε σ} {step' : σ' → α → Except ε σ'}
    {xs : List α} (hstep : ∀ s s', ∀ x ∈ xs, R s s' → Tracks stops R (step s x) (step' s' x))
    {s : σ} {s' : σ'} (hs : R s s') : Tracks stops R (xs.foldlM step s) (xs.foldlM step' s') := by
  -- The states are the invariant, so they are kept general.
  induction xs generalizing s s' with
  | nil => exact .ok hs
  | cons x xs ih =>
    rw [List.foldlM_cons, List.foldlM_cons]
    refine (hstep s s' x List.mem_cons_self hs).bind fun next next' _ hnext => ?_
    exact ih (fun t t' y hy => hstep t t' y (List.mem_cons_of_mem x hy)) hnext

end Tracks

end CommonLut
