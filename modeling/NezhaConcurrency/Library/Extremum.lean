import Mathlib

/-! Loops that keep the largest or the least value seen so far. -/
namespace Extremum

variable {Item : Type} {α : Type} [LinearOrder α]

theorem foldl_max (f : Item → α) (items : List Item) (start : α) :
    (∀ item ∈ items, f item ≤ items.foldl (fun max i => if f i > max then f i else max) start) ∧
      start ≤ items.foldl (fun max i => if f i > max then f i else max) start ∧
      (items.foldl (fun max i => if f i > max then f i else max) start = start ∨
        ∃ item ∈ items, f item = items.foldl (fun max i => if f i > max then f i else max) start) := by
  induction items generalizing start with
  | nil => exact ⟨fun _ h => absurd h List.not_mem_nil, le_refl _, Or.inl rfl⟩
  | cons head tail ih =>
    rw [List.foldl_cons]
    by_cases hMore : f head > start
    · rw [if_pos hMore]
      obtain ⟨hAll, hStart, hAttained⟩ := ih (f head)
      refine ⟨fun item hm => ?_, hMore.le.trans hStart, Or.inr ?_⟩
      · rcases List.mem_cons.mp hm with rfl | hm
        · exact hStart
        · exact hAll item hm
      · rcases hAttained with hSame | ⟨item, hm, hEq⟩
        · exact ⟨head, List.mem_cons_self, hSame.symm⟩
        · exact ⟨item, List.mem_cons_of_mem _ hm, hEq⟩
    · rw [if_neg hMore]
      obtain ⟨hAll, hStart, hAttained⟩ := ih start
      refine ⟨fun item hm => ?_, hStart, hAttained.imp_right ?_⟩
      · rcases List.mem_cons.mp hm with rfl | hm
        · exact (not_lt.mp hMore).trans hStart
        · exact hAll item hm
      · rintro ⟨item, hm, hEq⟩
        exact ⟨item, List.mem_cons_of_mem _ hm, hEq⟩

theorem foldl_min (f : Item → α) (items : List Item) (start : α) :
    (∀ item ∈ items, items.foldl (fun min i => if f i < min then f i else min) start ≤ f item) ∧
      items.foldl (fun min i => if f i < min then f i else min) start ≤ start ∧
      (items.foldl (fun min i => if f i < min then f i else min) start = start ∨
        ∃ item ∈ items, f item = items.foldl (fun min i => if f i < min then f i else min) start) :=
  foldl_max (α := αᵒᵈ) f items start

end Extremum
