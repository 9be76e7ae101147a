import Mathlib

/-! Loops over the entries of a finite map that visit each key once and change only
the entry of that key in another map, or what else there is of it. The order in which the
keys are visited does not matter: each entry of the result depends on its own key alone. -/
namespace RangeLoop

open List

/-- A loop over items that are pairwise apart. A visit establishes `after` for its item, and
keeps it for the items apart from it. -/
theorem after_foldl {State Item : Type} (step : State → Item → State) (inv : State → Prop)
    (after : State → Item → Prop) {apart : Item → Item → Prop}
    (hVisit : ∀ s item, inv s → inv (step s item) ∧ after (step s item) item)
    (hKeep : ∀ s item other, apart item other → after s other → after (step s item) other)
    (hSymm : ∀ item other, apart item other → apart other item)
    {items : List Item} (hApart : items.Pairwise apart) {s : State} (hs : inv s) :
    inv (items.foldl step s) ∧ ∀ item ∈ items, after (items.foldl step s) item := by
  induction items using List.reverseRecOn with
  | nil => exact ⟨hs, nofun⟩
  | append_singleton items last ih =>
    obtain ⟨hFront, _, hCross⟩ := pairwise_append.mp hApart
    obtain ⟨hInv, hDone⟩ := ih hFront
    obtain ⟨hNext, hNew⟩ := hVisit _ last hInv
    rw [foldl_append, foldl_cons, foldl_nil]
    refine ⟨hNext, fun item hItem => ?_⟩
    rcases mem_append.mp hItem with hEarlier | hItem
    · have hFar := hCross item hEarlier last (mem_singleton_self last)
      exact hKeep _ last item (hSymm _ _ hFar) (hDone item hEarlier)
    · obtain rfl := mem_singleton.mp hItem
      exact hNew

theorem foldl_related {State Item : Type} {related : State → State → Prop}
    (refl : ∀ s, related s s) (trans : ∀ {s s' s''}, related s s' → related s' s'' → related s s'')
    {step : State → Item → State} (hStep : ∀ s item, related s (step s item))
    (items : List Item) (s : State) : related s (items.foldl step s) := by
  induction items generalizing s with
  | nil => exact refl s
  | cons item items ih => exact trans (hStep s item) (ih _)

theorem mem_foldl_iff {Item Result : Type} {step : List Result → Item → List Result}
    {x : Result} {gives : Item → Prop}
    (hStep : ∀ collected item, x ∈ step collected item ↔ x ∈ collected ∨ gives item)
    (items : List Item) (collected : List Result) :
    x ∈ items.foldl step collected ↔ x ∈ collected ∨ ∃ item ∈ items, gives item := by
  induction items generalizing collected with
  | nil => simp
  | cons item items ih =>
    rw [foldl_cons, ih, hStep, or_assoc]
    simp only [mem_cons, exists_eq_or_imp]

variable {Key : Type} [DecidableEq Key] {Entry Value : Key → Type}

/-- What is observed at a key after the loop. `update` says what one visit makes of it. -/
theorem observe_foldl {State : Type} {Observed : Key → Type} {step : State → Sigma Entry → State}
    (observe : State → (key : Key) → Observed key)
    (update : (key : Key) → Entry key → Observed key → Observed key)
    (hSelf : ∀ s key entry, observe (step s ⟨key, entry⟩) key = update key entry (observe s key))
    (hOther : ∀ s key entry other, other ≠ key →
      observe (step s ⟨key, entry⟩) other = observe s other)
    (source : AList Entry) (s : State) (key : Key) :
    observe (source.entries.foldl step s) key =
      (source.lookup key).elim (observe s key) fun entry => update key entry (observe s key) := by
  obtain ⟨entries, nodup⟩ := source
  change _ = (entries.dlookup key).elim _ _
  change observe (entries.foldl step s) key = _
  induction entries generalizing s with
  | nil => rfl
  | cons head entries ih =>
    obtain ⟨visited, entry⟩ := head
    obtain ⟨hNew, hRest⟩ := nodupKeys_cons.mp nodup
    rw [foldl_cons, ih _ hRest]
    by_cases hKey : key = visited
    · subst hKey
      rw [dlookup_eq_none.mpr hNew, dlookup_cons_eq, hSelf]
      rfl
    · rw [dlookup_cons_ne _ _ hKey, hOther _ _ _ _ hKey]

/-- The entry of a key in the map that the loop builds. -/
theorem lookup_foldl {step : AList Value → Sigma Entry → AList Value}
    (update : (key : Key) → Entry key → Option (Value key) → Option (Value key))
    (hSelf : ∀ m key entry, (step m ⟨key, entry⟩).lookup key = update key entry (m.lookup key))
    (hOther : ∀ m key entry other, other ≠ key →
      (step m ⟨key, entry⟩).lookup other = m.lookup other)
    (source : AList Entry) (m : AList Value) (key : Key) :
    (source.entries.foldl step m).lookup key =
      (source.lookup key).elim (m.lookup key) fun entry => update key entry (m.lookup key) :=
  observe_foldl (fun m key => m.lookup key) update hSelf hOther source m key

end RangeLoop
