import NezhaConcurrency.Library.Walk

/-! Batches of a conflict order. The items come in an order, and an item waits for
the earlier ones it conflicts with. Each round takes all items that wait for
nothing more. The rounds exhaust the items, and two items that conflict are in
different batches, in the order of the items. -/
namespace Batches

open List

variable {Item State : Type} [DecidableEq Item]

/-- The earlier items that conflict with `t`. -/
def preds (order : List Item) (conflict : Item → Item → Bool) (t : Item) : List Item :=
  (order.take (order.idxOf t)).filter fun p => conflict t p

theorem mem_preds {order : List Item} {conflict : Item → Item → Bool} {t p : Item} :
    p ∈ preds order conflict t ↔
      p ∈ order ∧ order.idxOf p < order.idxOf t ∧ conflict t p = true := by
  unfold preds
  rw [mem_filter]
  constructor
  · rintro ⟨hTake, hConflict⟩
    have hIn := mem_of_mem_take hTake
    exact ⟨hIn, (mem_take_iff_idxOf_lt hIn).mp hTake, hConflict⟩
  · rintro ⟨hIn, hLess, hConflict⟩
    exact ⟨(mem_take_iff_idxOf_lt hIn).mpr hLess, hConflict⟩

theorem preds_acyclic (order : List Item) (conflict : Item → Item → Bool) (t : Item) :
    ¬ Relation.TransGen (fun u v => u ∈ preds order conflict v) t t := by
  have hLess : ∀ u v, Relation.TransGen (fun u v => u ∈ preds order conflict v) u v →
      order.idxOf u < order.idxOf v := by
    intro u v h
    induction h with
    | single h => exact (mem_preds.mp h).2.1
    | tail _ h ih => exact ih.trans (mem_preds.mp h).2.1
  exact fun h => lt_irrefl _ (hLess t t h)

/-- The loop, with the batches so far. -/
structure Loop (Item State : Type) where
  remaining : List Item
  executed : List Item
  batches : List (List Item)
  state : State

/-- The items that wait for nothing more, arranged. -/
def ready (waits : Item → List Item) (arrange : List Item → List Item) (loop : Loop Item State) :
    List Item :=
  arrange (loop.remaining.filter fun t => (waits t).all (· ∈ loop.executed))

/-- One round, unless nothing remains or nothing is ready. -/
def round (waits : Item → List Item) (arrange : List Item → List Item)
    (commit : State → List Item → State) (loop : Loop Item State) : Option (Loop Item State) :=
  if loop.remaining = [] then none
  else if ready waits arrange loop = [] then none
  else some
    { remaining := loop.remaining.filter (· ∉ ready waits arrange loop)
      executed := loop.executed ++ ready waits arrange loop
      batches := loop.batches ++ [ready waits arrange loop]
      state := commit loop.state (ready waits arrange loop) }

/-- At most this many rounds. -/
def run (waits : Item → List Item) (arrange : List Item → List Item)
    (commit : State → List Item → State) : Nat → Loop Item State → Loop Item State
  | 0, loop => loop
  | rounds + 1, loop =>
    match round waits arrange commit loop with
    | some next => run waits arrange commit rounds next
    | none => loop

/-- Every item of a batch has its predecessors in earlier batches. -/
def Layered (waits : Item → List Item) (batches : List (List Item)) : Prop :=
  ∀ before batch after, batches = before ++ batch :: after → ∀ t ∈ batch, ∀ p ∈ waits t,
    p ∈ before.flatten

/-- What holds after every round that started with the items of `order`. -/
structure Valid (order : List Item) (waits : Item → List Item) (commit : State → List Item → State)
    (start : State) (loop : Loop Item State) : Prop where
  perm : (loop.executed ++ loop.remaining).Perm order
  executed : loop.executed = loop.batches.flatten
  layered : Layered waits loop.batches
  state : loop.state = loop.batches.foldl commit start

omit [DecidableEq Item] in
theorem Layered.append {waits : Item → List Item} {batches : List (List Item)} {last : List Item}
    (layered : Layered waits batches) (hLast : ∀ t ∈ last, ∀ p ∈ waits t, p ∈ batches.flatten) :
    Layered waits (batches ++ [last]) := by
  exact Walk.forall_split_append layered hLast

section Rounds

variable {order : List Item} {waits : Item → List Item} {arrange : List Item → List Item}
  {commit : State → List Item → State} {start : State} {loop next : Loop Item State}

theorem Valid.round (hArrange : ∀ items, (arrange items).Perm items)
    (valid : Valid order waits commit start loop)
    (hRound : Batches.round waits arrange commit loop = some next) :
    Valid order waits commit start next ∧ next.remaining.length < loop.remaining.length := by
  unfold Batches.round at hRound
  split at hRound
  · cases hRound
  · split at hRound
    · cases hRound
    · next hBatch =>
        cases hRound
        have hReady : ∀ t, t ∈ ready waits arrange loop ↔
            t ∈ loop.remaining ∧ ∀ p ∈ waits t, p ∈ loop.executed := by
          intro t
          unfold ready
          rw [(hArrange _).mem_iff, mem_filter, all_eq_true]
          simp only [decide_eq_true_eq]
        have hSplit : (ready waits arrange loop ++
            loop.remaining.filter (· ∉ ready waits arrange loop)).Perm loop.remaining := by
          have hRest : loop.remaining.filter (· ∉ ready waits arrange loop) =
              loop.remaining.filter fun t => !(waits t).all (· ∈ loop.executed) := by
            refine filter_congr fun t ht => ?_
            rw [Bool.eq_iff_iff, decide_eq_true_eq, hReady, Bool.not_eq_true', ← Bool.not_eq_true,
              all_eq_true]
            simp [ht]
          rw [hRest]
          exact ((hArrange _).append_right _).trans (filter_append_perm _ _)
        refine ⟨⟨?_, ?_, ?_, ?_⟩, ?_⟩
        · rw [append_assoc]
          exact (hSplit.append_left _).trans valid.perm
        · rw [flatten_append, valid.executed, flatten_singleton]
        · refine valid.layered.append fun t ht p hp => ?_
          rw [← valid.executed]
          exact ((hReady t).mp ht).2 p hp
        · rw [foldl_append, ← valid.state]
          rfl
        · have hLength := hSplit.length_eq
          have := length_pos_of_ne_nil hBatch
          rw [length_append] at hLength
          dsimp only
          omega

theorem Valid.ready_ne_nil {conflict : Item → Item → Bool}
    (hArrange : ∀ items, (arrange items).Perm items)
    (valid : Valid order (preds order conflict) commit start loop) (hRemaining : loop.remaining ≠ []) :
    ready (preds order conflict) arrange loop ≠ [] := by
  obtain ⟨t, ht, hMin⟩ := loop.remaining.toFinset.exists_min_image order.idxOf
    (toFinset_nonempty_iff _ |>.mpr hRemaining)
  rw [mem_toFinset] at ht
  refine ne_nil_of_mem (a := t) ((hArrange _).mem_iff.mpr (mem_filter.mpr ⟨ht, ?_⟩))
  refine all_eq_true.mpr fun p hp => decide_eq_true ?_
  obtain ⟨hIn, hLess, _⟩ := mem_preds.mp hp
  rcases mem_append.mp (valid.perm.mem_iff.mpr hIn) with hDone | hWaiting
  · exact hDone
  · exact absurd (hMin p (mem_toFinset.mpr hWaiting)) hLess.not_ge

/-- The loop ends because nothing remains, and not because nothing is ready. -/
theorem run_spec (conflict : Item → Item → Bool) (hArrange : ∀ items, (arrange items).Perm items)
    (rounds : Nat) (valid : Valid order (preds order conflict) commit start loop)
    (hRounds : loop.remaining.length ≤ rounds) :
    Valid order (preds order conflict) commit start
        (run (preds order conflict) arrange commit rounds loop) ∧
      (run (preds order conflict) arrange commit rounds loop).remaining = [] := by
  induction rounds generalizing loop with
  | zero => exact ⟨valid, eq_nil_of_length_eq_zero (Nat.le_zero.mp hRounds)⟩
  | succ rounds ih =>
    rw [run]
    by_cases hRemaining : loop.remaining = []
    · rw [Batches.round, if_pos hRemaining]
      exact ⟨valid, hRemaining⟩
    · obtain ⟨next, hNext⟩ : ∃ next,
          Batches.round (preds order conflict) arrange commit loop = some next := by
        rw [Batches.round, if_neg hRemaining, if_neg (valid.ready_ne_nil hArrange hRemaining)]
        exact ⟨_, rfl⟩
      obtain ⟨hValid, hLess⟩ := valid.round hArrange hNext
      rw [hNext]
      exact ih hValid (by omega)

/-- Two loops that wait for the same items take the same batches, in whatever order
their remaining items are listed. -/
theorem run_congr {waits' : Item → List Item} {commit' : State → List Item → State}
    (hWaits : ∀ t p, p ∈ waits t ↔ p ∈ waits' t)
    (hArrange : ∀ items items', items.Perm items' → arrange items = arrange items')
    (hCommit : ∀ state batch, commit state batch = commit' state batch) (rounds : Nat)
    {loop' : Loop Item State} (hRemaining : loop.remaining.Perm loop'.remaining)
    (hExecuted : loop.executed = loop'.executed) (hState : loop.state = loop'.state) :
    (run waits arrange commit rounds loop).state =
      (run waits' arrange commit' rounds loop').state := by
  induction rounds generalizing loop loop' with
  | zero => exact hState
  | succ rounds ih =>
    have hReady : ready waits arrange loop = ready waits' arrange loop' := by
      unfold ready
      have hAll : ∀ t, (waits t).all (· ∈ loop.executed) = (waits' t).all (· ∈ loop'.executed) := by
        intro t
        rw [Bool.eq_iff_iff, all_eq_true, all_eq_true, hExecuted]
        exact forall_congr' fun p => by rw [hWaits]
      rw [hArrange _ _ (hRemaining.filter _), filter_congr fun t _ => hAll t]
    have hEmpty : loop.remaining = [] ↔ loop'.remaining = [] := by
      rw [← length_eq_zero_iff, hRemaining.length_eq, length_eq_zero_iff]
    rw [run, run, Batches.round, Batches.round, hReady]
    by_cases hNone : loop'.remaining = []
    · rw [if_pos (hEmpty.mpr hNone), if_pos hNone]
      exact hState
    · rw [if_neg (mt hEmpty.mp hNone), if_neg hNone]
      by_cases hBatch : ready waits' arrange loop' = []
      · rw [if_pos hBatch, if_pos hBatch]
        exact hState
      · rw [if_neg hBatch, if_neg hBatch]
        refine ih ?_ ?_ ?_
        · exact hRemaining.filter _
        · dsimp only
          rw [hExecuted]
        · dsimp only
          rw [hCommit, hState]

end Rounds

section Order

variable {order : List Item} {conflict : Item → Item → Bool} {batches : List (List Item)}

theorem Layered.conflict_free (layered : Layered (preds order conflict) batches)
    (hSymm : ∀ u v, conflict u v = conflict v u) (nodup : batches.flatten.Nodup)
    (hOrder : ∀ t ∈ batches.flatten, t ∈ order) {batch : List Item} (hBatch : batch ∈ batches)
    {u v : Item} (hu : u ∈ batch) (hv : v ∈ batch) (hne : u ≠ v) : conflict u v = false := by
  obtain ⟨before, after, rfl⟩ := append_of_mem hBatch
  rw [flatten_append, flatten_cons] at nodup
  have hEarlier : ∀ {x y : Item}, x ∈ batch → y ∈ batch → conflict y x = true →
      ¬ order.idxOf x < order.idxOf y := by
    intro x y hx hy hConflict hLess
    have hxOrder : x ∈ order := hOrder x (by simp [hx])
    have hBefore := layered before batch after rfl y hy x (mem_preds.mpr ⟨hxOrder, hLess, hConflict⟩)
    exact (nodup_append'.mp nodup).2.2 hBefore (mem_append_left _ hx)
  refine Bool.of_not_eq_true fun hConflict => ?_
  have hIdx : order.idxOf u ≠ order.idxOf v := fun h =>
    hne ((idxOf_inj (hOrder u (by simp [hu]))).mp h)
  rcases lt_or_gt_of_ne hIdx with hLess | hLess
  · exact hEarlier hu hv (hSymm u v ▸ hConflict) hLess
  · exact hEarlier hv hu hConflict hLess

theorem Layered.follows (layered : Layered (preds order conflict) batches)
    (hSymm : ∀ u v, conflict u v = conflict v u) (nodup : batches.flatten.Nodup)
    (hOrder : ∀ t ∈ batches.flatten, t ∈ order) :
    batches.flatten.Pairwise fun u v => conflict u v = true → order.idxOf u < order.idxOf v := by
  induction batches using List.reverseRecOn with
  | nil => exact List.Pairwise.nil
  | append_singleton batches last ih =>
    have hLayered : Layered (preds order conflict) batches := by
      intro before batch after hSplit
      exact layered before batch (after ++ [last]) (by simp [hSplit])
    have hMember : last ∈ batches ++ [last] := by simp
    have hFree : ∀ {u v : Item}, u ∈ last → v ∈ last → u ≠ v → conflict u v = false :=
      fun hu hv => layered.conflict_free hSymm nodup hOrder hMember hu hv
    rw [flatten_append, flatten_singleton] at nodup hOrder ⊢
    obtain ⟨hFirst, hLast, hApart⟩ := nodup_append'.mp nodup
    refine pairwise_append.mpr
      ⟨ih hLayered hFirst fun t ht => hOrder t (mem_append_left _ ht), ?_, ?_⟩
    · refine hLast.imp_of_mem fun {u v} hu hv hne hConflict => ?_
      rw [hFree hu hv hne] at hConflict
      cases hConflict
    · intro u hu v hv hConflict
      by_contra hNot
      have hIdx : order.idxOf u ≠ order.idxOf v := fun h => hApart hu
        (((idxOf_inj (hOrder u (mem_append_left _ hu))).mp h) ▸ hv)
      -- Then `v` would be in a batch before the one of `u`.
      obtain ⟨batch, hBatch, huBatch⟩ := mem_flatten.mp hu
      obtain ⟨before, after, rfl⟩ := append_of_mem hBatch
      have hBefore := hLayered before batch after rfl u huBatch v (mem_preds.mpr
        ⟨hOrder v (mem_append_right _ hv), by omega, hConflict⟩)
      refine hApart ?_ hv
      rw [flatten_append]
      exact mem_append_left _ hBefore

end Order

end Batches
