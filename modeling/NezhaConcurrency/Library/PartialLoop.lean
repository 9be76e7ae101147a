import Mathlib

/-! Loops whose steps may fail, as folds over `Option` or `Except`. If no step fails from a
state that satisfies an invariant, the loop is the loop of the total steps. -/
namespace PartialLoop

open List

variable {State Item Result : Type} {items : List Item}

theorem foldlM_eq_pure {m : Type → Type} [Monad m] [LawfulMonad m] (step : State → Item → m State)
    (total : State → Item → State) (inv : State → Prop)
    (hStep : ∀ s, inv s → ∀ item ∈ items,
      step s item = pure (total s item) ∧ inv (total s item)) {s : State} (hs : inv s) :
    items.foldlM step s = pure (items.foldl total s) ∧ inv (items.foldl total s) := by
  induction items generalizing s with
  | nil => exact ⟨rfl, hs⟩
  | cons item items ih =>
    obtain ⟨hFirst, hNext⟩ := hStep s hs item mem_cons_self
    rw [foldlM_cons, hFirst, pure_bind]
    exact ih (fun s hs x hx => hStep s hs x (mem_cons_of_mem _ hx)) hNext

theorem foldlM_eq_some (step : State → Item → Option State) (total : State → Item → State)
    (inv : State → Prop) (hStep : ∀ s, inv s → ∀ item ∈ items,
      step s item = some (total s item) ∧ inv (total s item)) {s : State} (hs : inv s) :
    items.foldlM step s = some (items.foldl total s) ∧ inv (items.foldl total s) :=
  foldlM_eq_pure step total inv hStep hs

theorem foldlM_eq_ok {Error : Type} {step : State → Item → Except Error State}
    {total : State → Item → State} (hStep : ∀ s, ∀ item ∈ items, step s item = .ok (total s item))
    (s : State) : items.foldlM step s = .ok (items.foldl total s) :=
  (foldlM_eq_pure step total (fun _ => True) (fun s _ item hItem => ⟨hStep s item hItem, trivial⟩)
    trivial).1

/-- What every step keeps holds after a loop that does not fail. -/
theorem foldlM_invariant {step : State → Item → Option State} {inv : State → Prop}
    (hStep : ∀ s item s', inv s → step s item = some s' → inv s') {s s' : State} (hs : inv s)
    (hRun : items.foldlM step s = some s') : inv s' := by
  induction items generalizing s with
  | nil =>
    cases hRun
    exact hs
  | cons item items ih =>
    rw [foldlM_cons] at hRun
    obtain ⟨next, hFirst, hRest⟩ := Option.bind_eq_some_iff.mp hRun
    exact ih (hStep s item next hs hFirst) hRest

/-- If a step always fails, and no step fails in another way, the loop fails in this way. -/
theorem foldlM_eq_error {Error : Type} {step : State → Item → Except Error State} {err : Error}
    {item : Item} (hItem : item ∈ items) (hFails : ∀ s, step s item = .error err)
    (hOthers : ∀ s, ∀ other ∈ items, ∀ err', step s other = .error err' → err' = err) (s : State) :
    items.foldlM step s = .error err := by
  induction items generalizing s with
  | nil => cases hItem
  | cons first items ih =>
    rw [foldlM_cons]
    cases hFirst : step s first with
    | error err' =>
      rw [hOthers s first mem_cons_self err' hFirst]
      rfl
    | ok next =>
      rcases mem_cons.mp hItem with rfl | hLater
      · rw [hFails] at hFirst
        cases hFirst
      · exact ih hLater (fun s x hx => hOthers s x (mem_cons_of_mem _ hx)) next

variable {step : Item → Option Result}

theorem mapM_eq_some {total : Item → Result} (hStep : ∀ item ∈ items, step item = some (total item))
    :
    items.mapM step = some (items.map total) := by
  induction items with
  | nil => rfl
  | cons item items ih =>
    rw [mapM_cons, hStep item mem_cons_self, ih fun x hx => hStep x (mem_cons_of_mem _ hx)]
    rfl

theorem mapM_isSome (hStep : ∀ item ∈ items, (step item).isSome = true) :
    (items.mapM step).isSome = true := by
  induction items with
  | nil => rfl
  | cons item items ih =>
    obtain ⟨first, hFirst⟩ := Option.isSome_iff_exists.mp (hStep item mem_cons_self)
    obtain ⟨rest, hRest⟩ := Option.isSome_iff_exists.mp
      (ih fun x hx => hStep x (mem_cons_of_mem _ hx))
    rw [mapM_cons, hFirst, hRest]
    rfl

theorem mapM_eq_none {item : Item} (hItem : item ∈ items) (hStep : step item = none) :
    items.mapM step = none := by
  induction items with
  | nil => cases hItem
  | cons first items ih =>
    rw [mapM_cons]
    rcases mem_cons.mp hItem with rfl | hLater
    · rw [hStep]
      rfl
    · rw [ih hLater]
      cases step first <;> rfl

theorem foldl_keep (keep : Item → Bool) (items kept : List Item) :
    items.foldl (fun kept item => if keep item then kept ++ [item] else kept) kept =
      kept ++ items.filter keep := by
  induction items generalizing kept with
  | nil => simp
  | cons item items ih =>
    rw [foldl_cons, ih]
    cases hKeep : keep item <;> simp [hKeep]

end PartialLoop
