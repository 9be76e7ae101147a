import Mathlib

/-! Overlays on a base state, and programs that read through them. An overlay
records the keys written so far. Batches of writes are merged one after the
other, and the result at a key depends only on the last batch that writes it. A
program chooses each read from the answers to the earlier ones, so it runs the
same way on two states that agree on what it reads. -/
namespace Overlay

open Function List

variable {Key Value Index Result : Type} [DecidableEq Key]

/-- Later writes of the batch win. -/
def merge (overlay : Key → Option Value) (writes : List (Key × Value)) : Key → Option Value :=
  writes.foldl (fun current write => update current write.1 (some write.2)) overlay

/-- The batches of the listed indices, merged in the order of the list. -/
def mergeAll (overlay : Key → Option Value) (writes : Index → List (Key × Value))
    (order : List Index) : Key → Option Value :=
  order.foldl (fun current index => merge current (writes index)) overlay

/-- The keys that a batch writes. -/
def keys (writes : List (Key × Value)) : List Key :=
  writes.map Prod.fst

def overlaid (base : Key → Value) (overlay : Key → Option Value) (key : Key) : Value :=
  (overlay key).getD (base key)

@[simp] theorem merge_nil (overlay : Key → Option Value) : merge overlay [] = overlay := rfl

theorem merge_cons (overlay : Key → Option Value) (write : Key × Value)
    (writes : List (Key × Value)) :
    merge overlay (write :: writes) = merge (update overlay write.1 (some write.2)) writes := rfl

theorem merge_concat (overlay : Key → Option Value) (writes : List (Key × Value))
    (last : Key × Value) : merge overlay (writes ++ [last]) =
      update (merge overlay writes) last.1 (some last.2) :=
  foldl_append

variable {key : Key}

theorem merge_of_not_mem (overlay : Key → Option Value) (writes : List (Key × Value))
    (h : key ∉ keys writes) : merge overlay writes key = overlay key := by
  induction writes generalizing overlay with
  | nil => rfl
  | cons write rest ih =>
    rw [keys, map_cons, mem_cons, not_or] at h
    rw [merge_cons, ih _ h.2, update_of_ne h.1]

variable {overlay : Key → Option Value}

theorem merge_congr {overlay' : Key → Option Value} (writes : List (Key × Value))
    (h : overlay key = overlay' key) :
    merge overlay writes key = merge overlay' writes key := by
  induction writes generalizing overlay overlay' with
  | nil => exact h
  | cons write rest ih =>
    rw [merge_cons, merge_cons]
    apply ih
    by_cases hKey : key = write.1
    · rw [hKey, update_self, update_self]
    · rw [update_of_ne hKey, update_of_ne hKey, h]

theorem merge_of_mem (overlay overlay' : Key → Option Value) (writes : List (Key × Value))
    (h : key ∈ keys writes) :
    merge overlay writes key = merge overlay' writes key := by
  induction writes generalizing overlay overlay' with
  | nil => cases h
  | cons write rest ih =>
    by_cases hRest : key ∈ keys rest
    · exact ih _ _ hRest
    · rw [keys, map_cons, mem_cons] at h
      have hKey : key = write.1 := h.resolve_right hRest
      rw [merge_cons, merge_cons]
      apply merge_congr
      rw [hKey, update_self, update_self]

variable {writes : List (Key × Value)}

theorem merge_ne_none (h : key ∈ keys writes) : merge overlay writes key ≠ none := by
  induction writes generalizing overlay with
  | nil => cases h
  | cons write rest ih =>
    rw [merge_cons]
    by_cases hRest : key ∈ keys rest
    · exact ih hRest
    · rw [keys, map_cons, mem_cons] at h
      have hKey : key = write.1 := h.resolve_right hRest
      rw [merge_of_not_mem _ _ hRest, hKey, update_self]
      exact Option.some_ne_none _

theorem mem_of_merge {value : Value} (h : merge (fun _ => none) writes key = some value) :
    (key, value) ∈ writes := by
  induction writes using List.reverseRecOn with
  | nil => cases h
  | append_singleton writes last ih =>
    rw [merge_concat] at h
    by_cases hKey : key = last.1
    · subst hKey
      rw [update_self] at h
      cases h
      simp
    · rw [update_of_ne hKey] at h
      exact mem_append_left _ (ih h)

theorem merge_map {Mapped : Type} (f : Value → Mapped) (writes : List (Key × Value)) (key : Key) :
    merge (fun _ => none) (writes.map fun write => (write.1, f write.2)) key =
      (merge (fun _ => none) writes key).map f := by
  induction writes using List.reverseRecOn with
  | nil => rfl
  | append_singleton writes last ih =>
    rw [map_append, map_singleton, merge_concat, merge_concat]
    by_cases hKey : key = last.1
    · subst hKey
      simp
    · simpa [hKey] using ih

theorem merge_perm {writes' : List (Key × Value)} (hPerm : writes.Perm writes')
    (hKeys : (keys writes).Nodup) (overlay : Key → Option Value) :
    merge overlay writes = merge overlay writes' := by
  apply hPerm.foldl_eq'
  intro write hWrite write' hWrite' current
  by_cases hSame : write = write'
  · rw [hSame]
  · have hNe : write.1 ≠ write'.1 := fun hKey =>
      hSame (inj_on_of_nodup_map hKeys hWrite hWrite' hKey)
    exact update_comm hNe ..

theorem foldl_update (base : Key → Value) (overlay : Key → Option Value)
    (writes : List (Key × Value)) :
    writes.foldl (fun current write => update current write.1 write.2)
      (overlaid base overlay) = overlaid base (merge overlay writes) := by
  induction writes generalizing overlay with
  | nil => rfl
  | cons write rest ih =>
    have hWrite : update (overlaid base overlay) write.1 write.2 =
        overlaid base (update overlay write.1 (some write.2)) := by
      funext key
      by_cases hKey : key = write.1
      · subst hKey
        simp [overlaid]
      · simp [overlaid, hKey]
    rw [foldl_cons, hWrite, ih, merge_cons]

@[simp] theorem mergeAll_nil (overlay : Key → Option Value)
    (writes : Index → List (Key × Value)) : mergeAll overlay writes [] = overlay := rfl

theorem mergeAll_cons (overlay : Key → Option Value) (writes : Index → List (Key × Value))
    (index : Index) (order : List Index) :
    mergeAll overlay writes (index :: order) =
      mergeAll (merge overlay (writes index)) writes order := rfl

theorem mergeAll_append (overlay : Key → Option Value) (writes : Index → List (Key × Value))
    (order order' : List Index) :
    mergeAll overlay writes (order ++ order') =
      mergeAll (mergeAll overlay writes order) writes order' :=
  foldl_append

theorem mergeAll_congr {overlay' : Key → Option Value} {writes writes' : Index → List (Key × Value)}
    (order : List Index) (hStart : overlay key = overlay' key)
    (hWrites : ∀ index ∈ order, key ∈ keys (writes index) ∨ key ∈ keys (writes' index) → writes index = writes' index)
    :
    mergeAll overlay writes order key = mergeAll overlay' writes' order key := by
  induction order generalizing overlay overlay' with
  | nil => exact hStart
  | cons index rest ih =>
    rw [mergeAll_cons, mergeAll_cons]
    apply ih ?_ fun other h => hWrites other (mem_cons_of_mem _ h)
    by_cases hKey : key ∈ keys (writes index) ∨ key ∈ keys (writes' index)
    · rw [hWrites index mem_cons_self hKey]
      exact merge_congr _ hStart
    · rw [not_or] at hKey
      rw [merge_of_not_mem _ _ hKey.1, merge_of_not_mem _ _ hKey.2, hStart]

theorem mergeAll_filter (overlay : Key → Option Value) (writes : Index → List (Key × Value))
    (key : Key) (p : Index → Bool) (order : List Index)
    (h : ∀ index ∈ order, p index = false → key ∉ keys (writes index)) :
    mergeAll overlay writes (order.filter p) key = mergeAll overlay writes order key := by
  induction order generalizing overlay with
  | nil => rfl
  | cons index rest ih =>
    have hRest := fun current => ih current fun other hm => h other (mem_cons_of_mem _ hm)
    cases hp : p index with
    | true =>
      rw [filter_cons_of_pos hp]
      exact hRest _
    | false =>
      rw [filter_cons_of_neg (by simp [hp]), hRest, mergeAll_cons]
      apply mergeAll_congr
      · exact (merge_of_not_mem _ _ (h index mem_cons_self hp)).symm
      · exact fun _ _ _ => rfl

/-- The result at a key depends only on which batches write it and on their order. -/
theorem mergeAll_reorder (overlay : Key → Option Value) (writes : Index → List (Key × Value))
    (key : Key) (rank : Index → Nat) {order order' : List Index}
    (hSame : ∀ index, key ∈ keys (writes index) → (index ∈ order ↔ index ∈ order'))
    (hOrder : order.Pairwise fun u v =>
      key ∈ keys (writes u) → key ∈ keys (writes v) → rank u < rank v)
    (hOrder' : order'.Pairwise fun u v =>
      key ∈ keys (writes u) → key ∈ keys (writes v) → rank u < rank v) :
    mergeAll overlay writes order key = mergeAll overlay writes order' key := by
  have hFilter := fun items : List Index => mergeAll_filter overlay writes key
    (fun index => key ∈ keys (writes index)) items fun _ _ h => of_decide_eq_false h
  have hRanked : ∀ {items : List Index}, (items.Pairwise fun u v =>
      key ∈ keys (writes u) → key ∈ keys (writes v) → rank u < rank v) →
      (items.filter fun index => key ∈ keys (writes index)).Pairwise
        fun u v => rank u < rank v := by
    intro items h
    refine (h.filter _).imp_of_mem fun hu hv hRank => hRank ?_ ?_
    · exact of_decide_eq_true (mem_filter.mp hu).2
    · exact of_decide_eq_true (mem_filter.mp hv).2
  have hNodup : ∀ {items : List Index}, items.Pairwise (fun u v => rank u < rank v) →
      items.Nodup := fun h => h.imp fun hLess hEq => (hEq ▸ hLess).false
  have hPerm : (order.filter fun index => key ∈ keys (writes index)).Perm
      (order'.filter fun index => key ∈ keys (writes index)) := by
    refine (perm_ext_iff_of_nodup (hNodup (hRanked hOrder)) (hNodup (hRanked hOrder'))).mpr
      fun index => ?_
    rw [mem_filter, mem_filter, decide_eq_true_eq]
    exact and_congr_left fun h => hSame index h
  have hEq := hPerm.eq_of_pairwise (fun _ _ _ _ h h' => absurd h h'.asymm) (hRanked hOrder)
    (hRanked hOrder')
  rw [← hFilter order, ← hFilter order', hEq]

theorem mergeAll_of_silent (overlay : Key → Option Value) (writes : Index → List (Key × Value))
    (order : List Index) (h : ∀ index ∈ order, key ∉ keys (writes index)) :
    mergeAll overlay writes order key = overlay key := by
  rw [← mergeAll_filter overlay writes key (fun _ => false) order fun index hm _ => h index hm,
    filter_false]
  rfl

/-- A batch that arrives late may be merged at the end, when no later batch in
the order writes one of its keys. -/
theorem mergeAll_update [LinearOrder Index] (overlay : Key → Option Value)
    (writes : Index → List (Key × Value)) {index : Index} (batch : List (Key × Value))
    {order : List Index} (sorted : order.Pairwise (· < ·)) (hm : index ∈ order)
    (hFresh : writes index = [])
    (hLater : ∀ other ∈ order, index < other → ∀ key ∈ keys batch, key ∉ keys (writes other)) :
    mergeAll overlay (update writes index batch) order =
      merge (mergeAll overlay writes order) batch := by
  have hOther : ∀ other, other ≠ index → update writes index batch other = writes other :=
    fun other hne => update_of_ne hne ..
  funext key
  obtain ⟨before, after, rfl⟩ := append_of_mem hm
  obtain ⟨_, hAfter, hCross⟩ := pairwise_append.mp sorted
  have hBefore : mergeAll overlay (update writes index batch) before key =
      mergeAll overlay writes before key := by
    apply mergeAll_congr _ rfl
    intro other ho _
    exact hOther other (hCross other ho index mem_cons_self).ne
  have hRest : ∀ current, mergeAll current (update writes index batch) after key =
      mergeAll current writes after key := by
    intro current
    apply mergeAll_congr _ rfl
    intro other ho _
    exact hOther other ((pairwise_cons.mp hAfter).1 other ho).ne'
  rw [mergeAll_append, mergeAll_append, mergeAll_cons, mergeAll_cons, hRest,
    update_self, hFresh, merge_nil]
  by_cases hKey : key ∈ keys batch
  · have hSilent : ∀ current, mergeAll current writes after key = current key := by
      intro current
      apply mergeAll_of_silent
      intro other ho
      exact hLater other (mem_append_right _ (mem_cons_of_mem _ ho))
        ((pairwise_cons.mp hAfter).1 other ho) key hKey
    rw [hSilent, merge_of_mem _ _ batch hKey]
  · rw [merge_of_not_mem _ _ hKey]
    apply mergeAll_congr
    · rw [merge_of_not_mem _ _ hKey]
      exact hBefore
    · exact fun _ _ _ => rfl

/-- A deterministic program that reads one key after the other. -/
inductive Program (Key Value Result : Type) where
  | read (key : Key) (next : Value → Program Key Value Result)
  | done (result : Result)
  | fail

/-- The keys read, in order, and the result, unless the program fails. -/
def Program.run (state : Key → Value) : Program Key Value Result → Option (List Key × Result)
  | .read key next =>
    ((next (state key)).run state).map fun outcome => (key :: outcome.1, outcome.2)
  | .done result => some ([], result)
  | .fail => none

omit [DecidableEq Key] in
/-- Two states that agree on the keys read give the same run. -/
theorem Program.run_congr {state state' : Key → Value} (program : Program Key Value Result)
    {reads : List Key} {result : Result} (h : program.run state = some (reads, result))
    (same : ∀ key ∈ reads, state key = state' key) :
    program.run state' = some (reads, result) := by
  induction program generalizing reads with
  | read key next ih =>
    rw [Program.run, Option.map_eq_some_iff] at h
    obtain ⟨⟨rest, result'⟩, hRun, hPair⟩ := h
    cases hPair
    have hRest := ih (state key) hRun fun other hm => same other (mem_cons_of_mem _ hm)
    rw [Program.run, ← same key mem_cons_self, hRest]
    rfl
  | done result' => exact h
  | fail => cases h

/-- Run the programs one after the other, each on what the earlier ones wrote. -/
def serial (base : Key → Value) (programs : Index → Program Key Value (List (Key × Value)))
    (overlay : Key → Option Value) : List Index → Option (Key → Option Value)
  | [] => some overlay
  | index :: rest =>
    ((programs index).run (overlaid base overlay)).bind fun outcome =>
      serial base programs (merge overlay outcome.2) rest

/-- Programs that read nothing that an earlier one wrote all run as on the base
state. -/
theorem serial_of_unread {base : Key → Value}
    {programs : Index → Program Key Value (List (Key × Value))} {reads : Index → List Key}
    {writes : Index → List (Key × Value)} (order : List Index)
    (hRun : ∀ index ∈ order, (programs index).run base = some (reads index, writes index))
    (hUnread : order.Pairwise fun earlier later =>
      ∀ key ∈ keys (writes earlier), key ∉ reads later)
    (overlay : Key → Option Value)
    (hOverlay : ∀ index ∈ order, ∀ key ∈ reads index, overlay key = none) :
    serial base programs overlay order = some (mergeAll overlay writes order) := by
  induction order generalizing overlay with
  | nil => rfl
  | cons index rest ih =>
    obtain ⟨hFirst, hRest⟩ := pairwise_cons.mp hUnread
    have hSame : (programs index).run (overlaid base overlay) =
        some (reads index, writes index) := by
      refine Program.run_congr _ (hRun index mem_cons_self) fun key hKey => ?_
      rw [overlaid, hOverlay index mem_cons_self key hKey]
      rfl
    rw [serial, hSame, mergeAll_cons]
    refine ih (fun other ho => hRun other (mem_cons_of_mem _ ho)) hRest _ ?_
    intro other ho key hKey
    rw [merge_of_not_mem _ _ fun h => hFirst other ho key h hKey]
    exact hOverlay other (mem_cons_of_mem _ ho) key hKey

end Overlay
