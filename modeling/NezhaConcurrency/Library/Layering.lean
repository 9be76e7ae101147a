import Mathlib

/-! Layers of a relation. Each item is one layer above the highest of those that come before
it, so its layer is the length of the longest chain that leads to it. -/
namespace Layering

open List

variable {Item : Type} {before : Item → Item → Prop} {layers : List (List Item)}

/-- The item is in the layer of this number. -/
def At (layers : List (List Item)) (i : Nat) (item : Item) : Prop :=
  ∃ layer, layers[i]? = some layer ∧ item ∈ layer

variable {item : Item}

theorem at_zero {layer : List Item} : At (layer :: layers) 0 item ↔ item ∈ layer := by
  simp [At]

theorem at_succ {layer : List Item} {i : Nat} :
    At (layer :: layers) (i + 1) item ↔ At layers i item := by
  simp [At]

theorem not_at_nil (i : Nat) (item : Item) : ¬ At [] i item := by
  simp [At]

theorem exists_at_iff : (∃ i, At layers i item) ↔ item ∈ layers.flatten := by
  rw [mem_flatten]
  constructor
  · rintro ⟨i, layer, hLayer, hItem⟩
    exact ⟨layer, mem_of_getElem? hLayer, hItem⟩
  · rintro ⟨layer, hLayer, hItem⟩
    obtain ⟨i, hi⟩ := mem_iff_getElem?.mp hLayer
    exact ⟨i, layer, hi, hItem⟩

/-- Layers in increasing order, none of them empty, are determined by what is in which. -/
theorem eq_of_at_iff [LinearOrder Item] {layers' : List (List Item)}
    (hSame : ∀ i item, At layers i item ↔ At layers' i item)
    (hNonempty : ∀ layer ∈ layers, layer ≠ []) (hNonempty' : ∀ layer ∈ layers', layer ≠ [])
    (hSorted : ∀ layer ∈ layers, layer.Pairwise (· < ·))
    (hSorted' : ∀ layer ∈ layers', layer.Pairwise (· < ·)) : layers = layers' := by
  have hItem : ∀ {ls : List (List Item)}, (∀ layer ∈ ls, layer ≠ []) → ∀ {i layer},
      ls[i]? = some layer → ∃ item, At ls i item := by
    intro ls hFilled i layer hLayer
    obtain ⟨item, hm⟩ := exists_mem_of_ne_nil _ (hFilled _ (mem_of_getElem? hLayer))
    exact ⟨item, layer, hLayer, hm⟩
  have hAt : ∀ {ls : List (List Item)} {i layer}, ls[i]? = some layer → ∀ item,
      item ∈ layer ↔ At ls i item := by
    intro ls i layer hLayer item
    rw [At, hLayer]
    simp
  refine ext_getElem? fun i => ?_
  cases hLayer : layers[i]? with
  | none =>
    cases hLayer' : layers'[i]? with
    | none => rfl
    | some layer' =>
      obtain ⟨item, hm⟩ := hItem hNonempty' hLayer'
      obtain ⟨layer, hSome, _⟩ := (hSame i item).mpr hm
      rw [hLayer] at hSome
      cases hSome
  | some layer =>
    obtain ⟨item, hm⟩ := hItem hNonempty hLayer
    obtain ⟨layer', hLayer', _⟩ := (hSame i item).mp hm
    rw [hLayer', Option.some.injEq]
    refine List.Subset.antisymm_of_pairwise (hSorted _ (mem_of_getElem? hLayer))
      (hSorted' _ (mem_of_getElem? hLayer')) ?_ ?_
    · exact fun item hm => (hAt hLayer' item).mpr ((hSame i item).mp ((hAt hLayer item).mp hm))
    · exact fun item hm => (hAt hLayer item).mpr ((hSame i item).mpr ((hAt hLayer' item).mp hm))

/-- What comes before an item is in a lower layer, and something in the layer below it does. -/
structure Layered (before : Item → Item → Prop) (layers : List (List Item)) : Prop where
  below : ∀ j item, At layers j item → ∀ other, before other item → ∃ i < j, At layers i other
  caused : ∀ i item, At layers (i + 1) item → ∃ other, At layers i other ∧ before other item

theorem Layered.nil : Layered before [] where
  below := fun j item hAt => absurd hAt (not_at_nil j item)
  caused := fun i item hAt => absurd hAt (not_at_nil (i + 1) item)

/-- The lengths of the chains that lead to an item. -/
def chainLengths (before : Item → Item → Prop) (item : Item) : Set Nat :=
  {n | ∃ chain : List Item, chain.length = n ∧ List.IsChain before (chain ++ [item])}

theorem Layered.chain_length_le (layered : Layered before layers) {j : Nat} (hAt : At layers j item)
    {chain : List Item} (hChain : List.IsChain before (chain ++ [item])) : chain.length ≤ j := by
  induction chain using List.reverseRecOn generalizing item j with
  | nil => exact Nat.zero_le j
  | append_singleton chain last ih =>
    rw [append_assoc, singleton_append, isChain_append_cons_cons] at hChain
    obtain ⟨hFront, hLast, _⟩ := hChain
    obtain ⟨i, hLess, hLastAt⟩ := layered.below j item hAt last hLast
    have hLength := ih hLastAt hFront
    rw [length_append, length_singleton]
    omega

theorem Layered.exists_chain (layered : Layered before layers) {i : Nat} (hAt : At layers i item) :
    i ∈ chainLengths before item := by
  induction i generalizing item with
  | zero => exact ⟨[], rfl, isChain_singleton item⟩
  | succ i ih =>
    obtain ⟨other, hOther, hBefore⟩ := layered.caused i item hAt
    obtain ⟨chain, hLength, hChain⟩ := ih hOther
    refine ⟨chain ++ [other], by rw [length_append, hLength]; rfl, ?_⟩
    rw [append_assoc, singleton_append, isChain_append_cons_cons]
    exact ⟨hChain, hBefore, isChain_singleton item⟩

/-- The layer of an item is the length of the longest chain that leads to it. -/
theorem Layered.isGreatest (layered : Layered before layers) {i : Nat} (hAt : At layers i item) :
    IsGreatest (chainLengths before item) i := by
  refine ⟨layered.exists_chain hAt, ?_⟩
  rintro n ⟨chain, rfl, hChain⟩
  exact layered.chain_length_le hAt hChain

theorem Layered.at_of_isGreatest (layered : Layered before layers) {i : Nat}
    (hItem : item ∈ layers.flatten) (hGreatest : IsGreatest (chainLengths before item) i) :
    At layers i item := by
  obtain ⟨j, hAt⟩ := exists_at_iff.mpr hItem
  rwa [hGreatest.unique (layered.isGreatest hAt)]

theorem Layered.at_unique (layered : Layered before layers) {i j : Nat} (hAt : At layers i item)
    (hAt' : At layers j item) : i = j :=
  (layered.isGreatest hAt).unique (layered.isGreatest hAt')

theorem Layered.cons {remaining : Item → Item → Prop} {layer : List Item}
    (layered : Layered remaining layers)
    (hFirst : ∀ item ∈ layer, ∀ other, ¬ before other item)
    (hLater : ∀ j item, At layers j item → ∀ other, before other item →
      other ∈ layer ∨ remaining other item)
    (hNext : ∀ item, At layers 0 item → ∃ other ∈ layer, before other item)
    (hKept : ∀ other item, remaining other item → before other item) :
    Layered before (layer :: layers) where
  below := by
    intro j item hAt other hBefore
    cases j with
    | zero => exact absurd hBefore (hFirst item (at_zero.mp hAt) other)
    | succ j =>
      rcases hLater j item (at_succ.mp hAt) other hBefore with hOther | hRemaining
      · exact ⟨0, j.succ_pos, at_zero.mpr hOther⟩
      · obtain ⟨i, hLess, hOther⟩ := layered.below j item (at_succ.mp hAt) other hRemaining
        exact ⟨i + 1, Nat.succ_lt_succ hLess, at_succ.mpr hOther⟩
  caused := by
    intro i item hAt
    rw [at_succ] at hAt
    cases i with
    | zero =>
      obtain ⟨other, hOther, hBefore⟩ := hNext item hAt
      exact ⟨other, at_zero.mpr hOther, hBefore⟩
    | succ i =>
      obtain ⟨other, hOther, hBefore⟩ := layered.caused i item hAt
      exact ⟨other, at_succ.mpr hOther, hKept other item hBefore⟩

end Layering
