/-!
# Computations that may fail

A computation of several steps succeeds exactly when each step does; what every step preserves holds
at the end of a run that succeeds.

Main statements: `bind_eq_ok`, `foldlM_invariant`, `exists_of_mapM_ok`, `mapM_of_pure`.
-/

namespace CommonLut

variable {ε α β σ : Type}

theorem bind_eq_ok {x : Except ε α} {f : α → Except ε β} {b : β} :
    x >>= f = .ok b ↔ ∃ a, x = .ok a ∧ f a = .ok b := by
  cases x with
  | error e =>
    constructor
    · intro h
      cases h
    · rintro ⟨a, h, -⟩
      cases h
  | ok a =>
    constructor
    · exact fun h => ⟨a, rfl, h⟩
    · rintro ⟨a', h, hb⟩
      cases h
      exact hb

theorem bind_eq_error {x : Except ε α} {f : α → Except ε β} {e : ε} :
    x >>= f = .error e ↔ x = .error e ∨ ∃ a, x = .ok a ∧ f a = .error e := by
  cases x with
  | error e' =>
    constructor
    · exact fun h => .inl (congrArg _ (Except.error.inj h))
    · rintro (h | ⟨_, h, -⟩)
      · exact congrArg _ (Except.error.inj h)
      · cases h
  | ok a =>
    constructor
    · exact fun h => .inr ⟨a, rfl, h⟩
    · rintro (h | ⟨_, h, he⟩)
      · cases h
      · cases h
        exact he

/-- A check that is made only under a condition. -/
theorem guarded_eq_ok {p : Prop} [Decidable p] {check : Except ε Unit} {rest : Except ε β}
    {b : β} :
    (if p then check >>= fun _ => rest else rest) = .ok b ↔
      (p → check = .ok ()) ∧ rest = .ok b := by
  by_cases hp : p
  · rw [if_pos hp, bind_eq_ok]
    constructor
    · rintro ⟨⟨⟩, hcheck, hrest⟩
      exact ⟨fun _ => hcheck, hrest⟩
    · exact fun h => ⟨(), h.1 hp, h.2⟩
  · rw [if_neg hp]
    exact ⟨fun h => ⟨fun h' => absurd h' hp, h⟩, fun h => h.2⟩

/-- A computation that ends with a value does not end without one. -/
theorem bind_some_ne_none {x : Except ε α} {f : α → β} :
    (x >>= fun a => pure (some (f a))) ≠ .ok none := by
  intro h
  obtain ⟨a, -, h⟩ := bind_eq_ok.mp h
  cases h

theorem mapError_eq_ok {ε' : Type} {g : ε → ε'} {x : Except ε α} {a : α} :
    x.mapError g = .ok a ↔ x = .ok a := by
  cases x with
  | error e => exact ⟨nofun, nofun⟩
  | ok b => exact ⟨fun h => congrArg Except.ok (Except.ok.inj h), fun h => congrArg _ h⟩

theorem toOption_eq_some {x : Except ε α} {a : α} : x.toOption = some a ↔ x = .ok a := by
  cases x with
  | error e => exact ⟨nofun, nofun⟩
  | ok b => exact ⟨fun h => congrArg Except.ok (Option.some.inj h), fun h => congrArg _ h⟩

/-- What every step preserves holds at the end. -/
theorem foldlM_invariant {P : σ → Prop} {step : σ → α → Except ε σ} {xs : List α} {s s' : σ}
    (hstep : ∀ s s' x, x ∈ xs → P s → step s x = .ok s' → P s') (hs : P s)
    (h : xs.foldlM step s = .ok s') : P s' := by
  induction xs generalizing s with
  | nil =>
    cases h
    exact hs
  | cons x xs ih =>
    rw [List.foldlM_cons, bind_eq_ok] at h
    obtain ⟨next, hnext, hrest⟩ := h
    exact ih (fun s s' y hy => hstep s s' y (List.mem_cons_of_mem x hy))
      (hstep s next x List.mem_cons_self hs hnext) hrest

/-- Every step of a run that ends with a value ends with one. -/
theorem exists_of_foldlM_ok {step : σ → α → Except ε σ} {xs : List α} {s s' : σ}
    (h : xs.foldlM step s = .ok s') : ∀ x ∈ xs, ∃ before after, step before x = .ok after := by
  induction xs generalizing s with
  | nil => exact fun x hx => absurd hx List.not_mem_nil
  | cons x xs ih =>
    rw [List.foldlM_cons, bind_eq_ok] at h
    obtain ⟨next, hnext, hrest⟩ := h
    exact List.forall_mem_cons.mpr ⟨⟨s, next, hnext⟩, ih hrest⟩

/-- Steps that succeed one after the other. -/
theorem foldlM_append_of_ok {step : σ → α → Except ε σ} {xs ys : List α} {s s' : σ}
    (h : xs.foldlM step s = .ok s') : (xs ++ ys).foldlM step s = ys.foldlM step s' := by
  rw [List.foldlM_append, h]
  rfl

/-- Whatever a conversion of a list gives was converted from one of its members. -/
theorem exists_of_mapM_ok {f : α → Except ε β} {xs : List α} {ys : List β}
    (h : xs.mapM f = .ok ys) : ∀ y ∈ ys, ∃ x ∈ xs, f x = .ok y := by
  induction xs generalizing ys with
  | nil =>
    cases h
    exact fun y hy => absurd hy List.not_mem_nil
  | cons x xs ih =>
    rw [List.mapM_cons, bind_eq_ok] at h
    obtain ⟨z, hz, h⟩ := h
    obtain ⟨rest, hrest, h⟩ := bind_eq_ok.mp h
    cases h
    intro y hy
    rcases List.mem_cons.mp hy with rfl | hy
    · exact ⟨x, List.mem_cons_self, hz⟩
    · obtain ⟨x', hx', hf⟩ := ih hrest y hy
      exact ⟨x', List.mem_cons_of_mem x hx', hf⟩

/-- A conversion of a list fails as it does for one of the members. -/
theorem exists_of_mapM_error {f : α → Except ε β} {xs : List α} {e : ε}
    (h : xs.mapM f = .error e) : ∃ x ∈ xs, f x = .error e := by
  induction xs with
  | nil => cases h
  | cons x xs ih =>
    rw [List.mapM_cons, bind_eq_error] at h
    rcases h with h | ⟨y, -, h⟩
    · exact ⟨x, List.mem_cons_self, h⟩
    · rcases bind_eq_error.mp h with h | ⟨ys, -, h⟩
      · obtain ⟨x', hx', hf⟩ := ih h
        exact ⟨x', List.mem_cons_of_mem x hx', hf⟩
      · cases h

theorem exists_of_mapM_some {f : α → Option β} {xs : List α} {ys : List β}
    (h : xs.mapM f = some ys) : ∀ y ∈ ys, ∃ x ∈ xs, f x = some y := by
  induction xs generalizing ys with
  | nil =>
    cases h
    exact fun y hy => absurd hy List.not_mem_nil
  | cons x xs ih =>
    rw [List.mapM_cons] at h
    obtain ⟨z, hz, h⟩ := Option.bind_eq_some_iff.mp h
    obtain ⟨rest, hrest, h⟩ := Option.bind_eq_some_iff.mp h
    cases h
    intro y hy
    rcases List.mem_cons.mp hy with rfl | hy
    · exact ⟨x, List.mem_cons_self, hz⟩
    · obtain ⟨x', hx', hf⟩ := ih hrest y hy
      exact ⟨x', List.mem_cons_of_mem x hx', hf⟩

/-- A list is converted when each of its members is. -/
theorem mapM_of_pure {m : Type → Type} [Monad m] [LawfulMonad m] {f : α → m β} {g : α → β}
    {xs : List α} (h : ∀ x ∈ xs, f x = pure (g x)) : xs.mapM f = pure (xs.map g) := by
  induction xs with
  | nil => rfl
  | cons x xs ih =>
    rw [List.mapM_cons, h x List.mem_cons_self, pure_bind,
      ih fun y hy => h y (List.mem_cons_of_mem x hy), pure_bind, List.map_cons]

end CommonLut
