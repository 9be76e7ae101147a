import Mathlib

/-! Counting the elements of a list that satisfy a test. -/
namespace Count

open List

variable {Item : Type}

theorem countP_eq_succ {items : List Item} (nodup : items.Nodup) {p q : Item → Bool}
    {item : Item} (hm : item ∈ items) (hp : p item = true) (hq : q item = false)
    (same : ∀ other ∈ items, other ≠ item → p other = q other) :
    items.countP p = items.countP q + 1 := by
  induction items with
  | nil => cases hm
  | cons head tail ih =>
    obtain ⟨hHead, hTail⟩ := nodup_cons.mp nodup
    rw [countP_cons, countP_cons]
    rcases mem_cons.mp hm with rfl | hm
    · have hRest : tail.countP p = tail.countP q := by
        apply countP_congr
        intro other ho
        have hne : other ≠ item := fun he => hHead (he ▸ ho)
        rw [same other (mem_cons_of_mem _ ho) hne]
      rw [hRest, hp, hq]
      simp
    · have hne : head ≠ item := fun he => hHead (he ▸ hm)
      have hRest := ih hTail hm fun other ho =>
        same other (mem_cons_of_mem _ ho)
      rw [hRest, same head mem_cons_self hne]
      omega

theorem countP_or {items : List Item} {p q : Item → Bool}
    (disjoint : ∀ item ∈ items, ¬ (p item = true ∧ q item = true)) :
    items.countP (fun item => p item || q item) = items.countP p + items.countP q := by
  induction items with
  | nil => rfl
  | cons head tail ih =>
    have hTail := ih fun item hm => disjoint item (mem_cons_of_mem _ hm)
    have hHead := disjoint head mem_cons_self
    simp only [countP_cons, hTail]
    cases hp : p head <;> cases hq : q head <;> simp_all <;> omega

theorem countP_lt {items : List Item} {p q : Item → Bool}
    (weaker : ∀ item ∈ items, p item = true → q item = true) {item : Item} (hm : item ∈ items)
    (hp : p item = false) (hq : q item = true) : items.countP p < items.countP q := by
  obtain ⟨before, after, rfl⟩ := append_of_mem hm
  have hBefore : before.countP p ≤ before.countP q :=
    countP_mono_left fun x hx => weaker x (mem_append_left _ hx)
  have hAfter : after.countP p ≤ after.countP q :=
    countP_mono_left fun x hx =>
      weaker x (mem_append_right _ (mem_cons_of_mem _ hx))
  rw [countP_append, countP_append, countP_cons_of_neg (by simp [hp]), countP_cons_of_pos hq]
  omega

theorem sum_count_le [DecidableEq Item] {keys : List Item} (nodup : keys.Nodup)
    (items : List Item) : (keys.map fun key => items.count key).sum ≤ items.length := by
  induction keys generalizing items with
  | nil => exact Nat.zero_le _
  | cons key keys ih =>
    obtain ⟨hKey, hRest⟩ := nodup_cons.mp nodup
    have hSame : keys.map (fun other => items.count other) =
        keys.map fun other => (items.filter (· ≠ key)).count other := by
      refine map_congr_left fun other hOther => ?_
      rw [count_filter]
      exact decide_eq_true fun h => hKey (h ▸ hOther)
    have hFilter := ih hRest (items.filter (· ≠ key))
    have hSplit := length_eq_countP_add_countP (fun x => decide (x ≠ key)) (l := items)
    have hCount : items.count key = items.countP fun x => decide ¬ decide (x ≠ key) = true := by
      rw [List.count]
      exact countP_congr fun x _ => by simp
    rw [← countP_eq_length_filter] at hFilter
    rw [map_cons, sum_cons, hSame, hSplit, hCount]
    omega

end Count
