import NezhaConcurrency.Core.DepurgeReleases
import NezhaConcurrency.Library.Layering
import NezhaConcurrency.Library.LevelLoop

/-! Draining the scheduler level by level, with `schedule`. Between two visits nobody is in
flight, and a transaction is ready if nobody is queued ahead of it. A visit takes one
transaction out of all queues, so the levels are the layers of the order in the queues. -/
namespace Nezha

open Layering LevelLoop Function List

namespace DepurgeScheduler

/-- A visit of the inner loop of `schedule`. The front is taken off as `PopReady` takes it. -/
def drain (ds : DepurgeScheduler) (txID : String) : DepurgeScheduler := ds.PopReady.1.Execute txID

/-- The drained scheduler and the levels, if so many rounds are enough. -/
def schedule (rounds : Nat) (ds : DepurgeScheduler) :
    Option (DepurgeScheduler × List (List String)) :=
  levels readyQueue drain sortStrings rounds ds

/-- A scheduler that is filled by `addTransaction`. -/
def fill (txs : List (String × List String)) : DepurgeScheduler :=
  txs.foldl (fun ds tx => ds.addTransaction tx.1 tx.2) NewDepurgeScheduler

/-- Some queue holds the one before the other. -/
def Ahead (ds : DepurgeScheduler) (first second : String) : Prop :=
  ∃ key, [first, second].Sublist (ds.keyQueues key).ids

section Order

variable {ds ds' : DepurgeScheduler}

theorem blocked_iff (ds : DepurgeScheduler) (txID key : String) :
    ds.Blocked txID key ↔ ∃ other, [other, txID].Sublist (ds.keyQueues key).ids := by
  have hNodup := (ds.keyQueues key).nodup_ids
  unfold Blocked
  rw [TransactionQueue.front_eq]
  cases hIds : (ds.keyQueues key).ids with
  | nil => simp
  | cons front rest =>
    rw [hIds, nodup_cons] at hNodup
    rw [headD_cons]
    constructor
    · rintro ⟨hm, hne⟩
      refine ⟨front, List.Sublist.cons_cons front (singleton_sublist.mpr ?_)⟩
      exact (mem_cons.mp hm).resolve_left (Ne.symm hne)
    · rintro ⟨other, hOrder⟩
      have hm : txID ∈ rest := by
        have hTail := hOrder.tail
        simpa using hTail
      refine ⟨mem_cons_of_mem _ hm, ?_⟩
      rintro rfl
      exact hNodup.1 hm

theorem ahead_erase {txID : String}
    (hQueues : ∀ key, (ds'.keyQueues key).ids = (ds.keyQueues key).ids.erase txID)
    (first second : String) :
    ds'.Ahead first second ↔ ds.Ahead first second ∧ first ≠ txID ∧ second ≠ txID := by
  constructor
  · rintro ⟨key, hOrder⟩
    rw [hQueues] at hOrder
    have hStays : ∀ other ∈ [first, second], other ≠ txID := fun other hm =>
      ((ds.keyQueues key).nodup_ids.mem_erase_iff.mp (hOrder.subset hm)).1
    exact ⟨⟨key, hOrder.trans erase_sublist⟩, hStays first (by simp), hStays second (by simp)⟩
  · rintro ⟨⟨key, hOrder⟩, hFirst, hSecond⟩
    refine ⟨key, ?_⟩
    have hErased := hOrder.erase txID
    rw [erase_of_not_mem (by simp [hFirst.symm, hSecond.symm])] at hErased
    rwa [hQueues]

end Order

/-- The phases of the transactions when nobody is in flight. -/
def idlePhase (finished : List String) (txID : String) : Phase :=
  if txID ∈ finished then .finished else .waiting

/-- The scheduler between two visits. The queues are in the order of addition. -/
structure Idle (added finished : List String) (ds : DepurgeScheduler) : Prop where
  consistent : Consistent added (idlePhase finished) (fun _ => 0) ds
  executed : ∀ txID, ds.txExecuted txID = true ↔ idlePhase finished txID = .finished
  pruneReady : ds.pruneReadyQueue = []
  nodup : added.Nodup
  named : "" ∉ added
  ordered : ∀ key, (ds.keyQueues key).ids.Sublist added

theorem fifo_drain : Fifo readyQueue drain := by
  intro ds txID rest hReady
  obtain ⟨released, pushed⟩ := pushesReady_Execute ds.PopReady.1 txID
  refine ⟨released, pushed.readyQueue.trans ?_⟩
  simp [PopReady, hReady]

section Visits

variable {added finished : List String} {ds : DepurgeScheduler}

variable {txID : String}

theorem idlePhase_finished : idlePhase finished txID = .finished ↔ txID ∈ finished := by
  unfold idlePhase
  split <;> simp_all

theorem idlePhase_waiting : idlePhase finished txID = .waiting ↔ txID ∉ finished := by
  unfold idlePhase
  split <;> simp_all

/-- Who is ready: those that nobody is ahead of. -/
theorem Idle.ready_iff (idle : Idle added finished ds) (txID : String) : txID ∈ ds.readyQueue ↔
      txID ∈ added ∧ txID ∉ finished ∧ ∀ other, ¬ ds.Ahead other txID := by
  have con := idle.consistent
  have hLists : ds.readyQueue ++ ds.pruneReadyQueue = ds.readyQueue := by
    rw [idle.pruneReady, append_nil]
  have hBlocked : (∀ other, ¬ ds.Ahead other txID) ↔ ∀ key, ¬ ds.Blocked txID key := by
    simp only [blocked_iff, Ahead, not_exists]
    exact forall_comm
  rw [hBlocked]
  constructor
  · intro hm
    obtain ⟨hAdded, hWaiting, hZero⟩ := con.ready_mem txID (hLists.symm ▸ hm)
    have hCount := con.count txID hAdded (by rw [hWaiting]; exact Phase.noConfusion)
    have hNone : ds.blockedCount txID = 0 := by omega
    refine ⟨hAdded, idlePhase_waiting.mp hWaiting, fun key hBlocked => ?_⟩
    have hKey := (con.queue_mem key txID hBlocked.1).2.1
    exact countP_eq_zero.mp hNone key hKey (decide_eq_true hBlocked)
  · rintro ⟨hAdded, hWaiting, hFree⟩
    have hNone : ds.blockedCount txID = 0 :=
      countP_eq_zero.mpr fun key _ h => hFree key (of_decide_eq_true h)
    rw [← idlePhase_waiting] at hWaiting
    have hCount := con.count txID hAdded (by rw [hWaiting]; exact Phase.noConfusion)
    rw [← hLists]
    refine con.ready_of_zero txID hAdded (fun h => idle.named (h ▸ hAdded)) hWaiting ?_
    rw [hCount, hNone]
    rfl

theorem Idle.drain (idle : Idle added finished ds) {rest : List String}
    (hReady : ds.readyQueue = txID :: rest) :
    Idle added (txID :: finished) (ds.drain txID) ∧ ∀ first second,
      (ds.drain txID).Ahead first second ↔
        ds.Ahead first second ∧ first ≠ txID ∧ second ≠ txID := by
  obtain ⟨hAdded, hUnfinished, _⟩ := (idle.ready_iff txID).mp (hReady ▸ mem_cons_self)
  have hNamed : txID ≠ "" := fun h => idle.named (h ▸ hAdded)
  have hPop : ds.PopReady.2 = txID := by simp [PopReady, hReady]
  obtain ⟨hSameExecuted, _, hSameQueues⟩ := PopReady_fields ds
  have conPopped := idle.consistent.popReady
  rw [hPop, if_neg hNamed] at conPopped
  have hExecuted : ∀ other, ds.PopReady.1.txExecuted other = true ↔
      update (idlePhase finished) txID .popped other = .finished := by
    intro other
    rw [hSameExecuted, idle.executed]
    by_cases hne : other = txID
    · simp [hne, idlePhase_finished, hUnfinished]
    · rw [update_of_ne hne]
  obtain ⟨conEnd, hEx, _, hRemoved⟩ := conPopped.finish releasing_releaseReady
    (Phase.active_of_popped (update_self ..)) hExecuted
  have hPhase : update (idlePhase finished) txID .finished = idlePhase (txID :: finished) := by
    funext other
    by_cases hne : other = txID
    · simp [hne, idlePhase]
    · simp [hne, idlePhase]
  rw [update_idem, hPhase] at conEnd
  have hQueues : ∀ key, ((ds.drain txID).keyQueues key).ids =
      (ds.keyQueues key).ids.erase txID := by
    intro key
    rw [DepurgeScheduler.drain, Execute, hRemoved, TransactionQueue.ids_remove, hSameQueues]
  refine ⟨⟨conEnd, ?_, ?_, idle.nodup, idle.named, ?_⟩, ahead_erase hQueues⟩
  · have hDone : ∀ other, update ds.PopReady.1.txExecuted txID true other = true ↔ _ :=
      executed_iff_finished hExecuted
    rw [update_idem, hPhase, ← hEx] at hDone
    exact hDone
  · obtain ⟨released, pushed⟩ := pushesReady_Execute ds.PopReady.1 txID
    rw [DepurgeScheduler.drain, pushed.pruneReadyQueue, append_nil]
    simp [PopReady, hReady, idle.pruneReady]
  · intro key
    rw [hQueues]
    exact erase_sublist.trans (idle.ordered key)

theorem Idle.drainAll (pending : List String) {more : List String}
    (idle : Idle added finished ds) (hReady : ds.readyQueue = pending ++ more) :
    Idle added (pending.reverse ++ finished) (pending.foldl DepurgeScheduler.drain ds) ∧
      ∀ first second, (pending.foldl DepurgeScheduler.drain ds).Ahead first second ↔
        ds.Ahead first second ∧ first ∉ pending ∧ second ∉ pending := by
  induction pending generalizing ds finished more with
  | nil => exact ⟨idle, by simp⟩
  | cons txID pending ih =>
    obtain ⟨idleNext, hAhead⟩ := idle.drain hReady
    obtain ⟨new, hNew⟩ := fifo_drain ds txID (pending ++ more) hReady
    rw [append_assoc] at hNew
    obtain ⟨idleEnd, hEnd⟩ := ih idleNext hNew
    rw [foldl_cons, reverse_cons, append_assoc, singleton_append]
    refine ⟨idleEnd, fun first second => ?_⟩
    rw [hEnd, hAhead]
    simp only [mem_cons, not_or]
    tauto

theorem Idle.done_of_ready_nil (idle : Idle added finished ds) (hReady : ds.readyQueue = []) :
    added.filter (· ∉ finished) = [] := by
  cases hWaiting : added.filter (· ∉ finished) with
  | nil => rfl
  | cons txID rest =>
    have hm : txID ∈ added.filter (· ∉ finished) := hWaiting ▸ mem_cons_self
    rw [mem_filter, decide_eq_true_eq] at hm
    have hNodup := idle.nodup.filter (· ∉ finished)
    rw [hWaiting, nodup_cons] at hNodup
    have hListed : txID ∈ ds.readyQueue := by
      refine (idle.ready_iff txID).mpr ⟨hm.1, hm.2, ?_⟩
      rintro other ⟨key, hOrder⟩
      have hQueue : (ds.keyQueues key).ids.filter (· ∉ finished) = (ds.keyQueues key).ids := by
        rw [filter_eq_self]
        intro queued hQueued
        have hPhase := (idle.consistent.queue_mem key queued hQueued).2.2
        rw [Ne, idlePhase_finished] at hPhase
        exact decide_eq_true hPhase
      have hBehind := hOrder.trans (hQueue ▸ (idle.ordered key).filter (· ∉ finished))
      rw [hWaiting] at hBehind
      exact hNodup.1 (by simpa using hBehind.tail)
    rw [hReady] at hListed
    cases hListed

/-- What a waiting scheduler is drained into. -/
structure Drained (ds : DepurgeScheduler) (waiting : List String) (ds' : DepurgeScheduler)
    (plan : List (List String)) : Prop where
  empty : ∀ key, (ds'.keyQueues key).ids = []
  partition : plan.flatten.Perm waiting
  layered : Layered ds.Ahead plan
  first : ∀ txID, At plan 0 txID → txID ∈ ds.readyQueue
  nonempty : ∀ level ∈ plan, level ≠ []
  sorted : ∀ level ∈ plan, level.Pairwise (· < ·)

theorem sortStrings_sorted {ids : List String} (nodup : ids.Nodup) :
    (sortStrings ids).Pairwise (· < ·) :=
  (pairwise_insertionSort (· ≤ ·) ids).imp₂ (fun _ _ hle hne => lt_of_le_of_ne hle hne)
    (nodup_sortStrings nodup)

theorem sortStrings_ne_nil {ids : List String} (h : ids ≠ []) : sortStrings ids ≠ [] := by
  obtain ⟨txID, hm⟩ := exists_mem_of_ne_nil ids h
  exact ne_nil_of_mem ((mem_sortStrings ..).mpr hm)

theorem Idle.drained_nil (idle : Idle added finished ds) (hReady : ds.readyQueue = []) :
    Drained ds (added.filter (· ∉ finished)) ds [] := by
  have hDone := idle.done_of_ready_nil hReady
  refine ⟨fun key => ?_, by rw [hDone]; rfl, .nil, ?_, nofun, nofun⟩
  · refine eq_nil_iff_forall_not_mem.mpr fun txID hm => ?_
    obtain ⟨hAdded, _, hPhase⟩ := idle.consistent.queue_mem key txID hm
    rw [Ne, idlePhase_finished] at hPhase
    have hWaiting : txID ∈ added.filter (· ∉ finished) :=
      mem_filter.mpr ⟨hAdded, decide_eq_true hPhase⟩
    rw [hDone] at hWaiting
    cases hWaiting
  · exact fun txID hAt => absurd hAt (not_at_nil 0 txID)

variable {pending : List String}

theorem mem_waiting_reverse : txID ∈ added.filter (· ∉ pending.reverse ++ finished) ↔
      txID ∈ added ∧ txID ∉ pending ∧ txID ∉ finished := by
  simp only [mem_filter, decide_eq_true_eq, mem_append, mem_reverse, not_or]

theorem Idle.nodup_ready (idle : Idle added finished ds) : ds.readyQueue.Nodup :=
  (nodup_append'.mp idle.consistent.ready_nodup).1

theorem waiting_split (hAdded : added.Nodup) (hPending : pending.Nodup)
    (hWaiting : ∀ txID ∈ pending, txID ∈ added ∧ txID ∉ finished) :
    (pending ++ added.filter (· ∉ pending.reverse ++ finished)).Perm
      (added.filter (· ∉ finished)) := by
  refine (perm_ext_iff_of_nodup (hPending.append (hAdded.filter _) ?_)
    (hAdded.filter _)).mpr fun txID => ?_
  · exact fun txID hm hLater => (mem_waiting_reverse.mp hLater).2.1 hm
  · have hNow := hWaiting txID
    rw [mem_append, mem_waiting_reverse, mem_filter, decide_eq_true_eq]
    tauto

theorem waiting_fewer
    (hSplit : (pending ++ added.filter (· ∉ pending.reverse ++ finished)).Perm (added.filter (· ∉ finished)))
    (hSome : pending ≠ []) :
    (added.filter (· ∉ pending.reverse ++ finished)).length <
      (added.filter (· ∉ finished)).length := by
  have hLength := hSplit.length_eq
  have hPos := length_pos_iff.mpr hSome
  rw [length_append] at hLength
  omega

theorem Idle.waiting_split (idle : Idle added finished ds) :
    (ds.readyQueue ++ added.filter (· ∉ ds.readyQueue.reverse ++ finished)).Perm
      (added.filter (· ∉ finished)) := by
  refine DepurgeScheduler.waiting_split idle.nodup idle.nodup_ready fun txID hm => ?_
  obtain ⟨hAdded, hWaiting, _⟩ := (idle.ready_iff txID).mp hm
  exact ⟨hAdded, hWaiting⟩

theorem Idle.drained_cons (idle : Idle added finished ds) (hReady : ds.readyQueue ≠ [])
    {ds' : DepurgeScheduler} {plan : List (List String)}
    (drained : Drained (ds.readyQueue.foldl DepurgeScheduler.drain ds)
      (added.filter (· ∉ ds.readyQueue.reverse ++ finished)) ds' plan) :
    Drained ds (added.filter (· ∉ finished)) ds' (sortStrings ds.readyQueue :: plan) := by
  obtain ⟨idleNext, hAhead⟩ := idle.drainAll ds.readyQueue (append_nil _).symm
  refine ⟨drained.empty, ?_, drained.layered.cons ?_ ?_ ?_ ?_, ?_, ?_, ?_⟩
  · rw [flatten_cons]
    exact ((perm_insertionSort _ _).append drained.partition).trans idle.waiting_split
  · intro txID hm
    rw [mem_sortStrings] at hm
    exact ((idle.ready_iff txID).mp hm).2.2
  · intro j txID hAt other hOrder
    have hLater := drained.partition.mem_iff.mp (exists_at_iff.mp ⟨j, hAt⟩)
    rw [mem_waiting_reverse] at hLater
    rw [mem_sortStrings]
    by_cases hOther : other ∈ ds.readyQueue
    · exact Or.inl hOther
    · exact Or.inr ((hAhead other txID).mpr ⟨hOrder, hOther, hLater.2.1⟩)
  · -- Whoever is ready after the level was not before it, so somebody was ahead.
    intro txID hAt
    have hFree := (idleNext.ready_iff txID).mp (drained.first txID hAt)
    simp only [mem_append, mem_reverse, not_or] at hFree
    obtain ⟨hAdded, ⟨hNotReady, hWaiting⟩, hNone⟩ := hFree
    have hBehind : ∃ other, ds.Ahead other txID := by
      by_contra hFirst
      exact hNotReady ((idle.ready_iff txID).mpr ⟨hAdded, hWaiting, not_exists.mp hFirst⟩)
    obtain ⟨other, hOrder⟩ := hBehind
    refine ⟨other, ?_, hOrder⟩
    rw [mem_sortStrings]
    by_contra hOther
    exact hNone other ((hAhead other txID).mpr ⟨hOrder, hOther, hNotReady⟩)
  · exact fun other txID hOrder => ((hAhead other txID).mp hOrder).1
  · intro txID hAt
    rwa [at_zero, mem_sortStrings] at hAt
  · exact forall_mem_cons.mpr ⟨sortStrings_ne_nil hReady, drained.nonempty⟩
  · exact forall_mem_cons.mpr ⟨sortStrings_sorted idle.nodup_ready, drained.sorted⟩

/-- The levels of the drained scheduler are the layers of the order in its queues. -/
theorem Idle.drained (idle : Idle added finished ds) {rounds : Nat}
    (hRounds : (added.filter (· ∉ finished)).length < rounds) :
    ∃ ds' plan, ds.schedule rounds = some (ds', plan) ∧
      Drained ds (added.filter (· ∉ finished)) ds' plan := by
  induction rounds generalizing ds finished with
  | zero => exact absurd hRounds (Nat.not_lt_zero _)
  | succ rounds ih =>
    by_cases hReady : ds.readyQueue = []
    · exact ⟨ds, [], levels_nil sortStrings rounds hReady, idle.drained_nil hReady⟩
    · have idleNext := (idle.drainAll ds.readyQueue (append_nil _).symm).1
      have hFewer := waiting_fewer idle.waiting_split hReady
      obtain ⟨ds', plan, hPlan, drained⟩ := ih idleNext (by omega)
      refine ⟨ds', sortStrings ds.readyQueue :: plan, ?_, idle.drained_cons hReady drained⟩
      rw [schedule, fifo_drain.levels_succ sortStrings rounds hReady]
      exact congrArg (Option.map _) hPlan

end Visits

section Filling

variable {txs : List (String × List String)}

/-- The transactions with this key, in the order of their addition. -/
def holders (txs : List (String × List String)) (key : String) : List String :=
  (txs.filter (key ∈ ·.2)).map Prod.fst

/-- The one is added earlier, and they have a key in common. -/
def Precedes (txs : List (String × List String)) (first second : String) : Prop :=
  ∃ keys keys', [(first, keys), (second, keys')].Sublist txs ∧ ∃ key ∈ keys, key ∈ keys'

theorem holders_append (txs : List (String × List String)) (tx : String × List String)
    (key : String) :
    holders (txs ++ [tx]) key =
      if key ∈ tx.2 then holders txs key ++ [tx.1] else holders txs key := by
  unfold holders
  rw [filter_append, map_append]
  by_cases hKey : key ∈ tx.2
  · simp [hKey]
  · simp [hKey]

theorem holders_sublist (txs : List (String × List String)) (key : String) :
    (holders txs key).Sublist (txs.map Prod.fst) :=
  filter_sublist.map Prod.fst

/-- A filled scheduler waits for its first visit, and each queue holds those with its key. -/
theorem idle_fill (distinct : (txs.map Prod.fst).Nodup) (hNamed : "" ∉ txs.map Prod.fst) :
    Idle (txs.map Prod.fst) [] (fill txs) ∧
      ∀ key, ((fill txs).keyQueues key).ids = holders txs key := by
  induction txs using List.reverseRecOn with
  | nil =>
    exact ⟨⟨invariant_new.consistent, by simp [fill, NewDepurgeScheduler, idlePhase], rfl,
      nodup_nil, not_mem_nil, fun _ => List.Sublist.refl _⟩, fun _ => rfl⟩
  | append_singleton txs last ih =>
    obtain ⟨txID, keys⟩ := last
    rw [map_append, map_singleton] at distinct hNamed ⊢
    obtain ⟨hEarlier, _, hApart⟩ := nodup_append'.mp distinct
    rw [mem_append, mem_singleton, not_or] at hNamed
    have hNew : txID ∉ txs.map Prod.fst := fun hm => hApart hm (mem_singleton_self _)
    obtain ⟨idle, hQueues⟩ := ih hEarlier hNamed.1
    have hFill : fill (txs ++ [(txID, keys)]) = (fill txs).addTransaction txID keys := by
      rw [fill, foldl_append]
      rfl
    have hIds : ∀ key, ((fill (txs ++ [(txID, keys)])).keyQueues key).ids =
        holders (txs ++ [(txID, keys)]) key := by
      intro key
      rw [hFill, holders_append, ← hQueues]
      exact addTransaction_ids (fill txs) keys
        (fun key hm => hNew (idle.consistent.queue_mem key txID hm).1) key
    refine ⟨⟨?_, ?_, ?_, distinct, ?_, fun key => ?_⟩, hIds⟩
    · rw [hFill]
      exact idle.consistent.addTransaction hNew (fun h => absurd h.symm hNamed.2) keys
    · intro other
      have hExecuted := idle.executed
      simp only [idlePhase, not_mem_nil, if_false, reduceCtorEq, iff_false,
        Bool.not_eq_true] at hExecuted ⊢
      rw [hFill]
      exact addTransaction_executed _ _ _ hExecuted other
    · rw [hFill, addTransaction_pruneReadyQueue, idle.pruneReady]
    · rw [mem_append, mem_singleton, not_or]
      exact hNamed
    · rw [hIds]
      simpa using holders_sublist (txs ++ [(txID, keys)]) key

theorem ahead_fill_iff (distinct : (txs.map Prod.fst).Nodup) (hNamed : "" ∉ txs.map Prod.fst)
    (first second : String) : (fill txs).Ahead first second ↔ Precedes txs first second := by
  have hQueues := (idle_fill distinct hNamed).2
  constructor
  · rintro ⟨key, hOrder⟩
    rw [hQueues, holders, sublist_map_iff] at hOrder
    obtain ⟨pair, hPair, hFst⟩ := hOrder
    obtain ⟨tx, tx', rfl⟩ : ∃ tx tx', pair = [tx, tx'] := by
      rw [← length_eq_two, ← length_map (f := Prod.fst), ← hFst]
      rfl
    have hKeys : ∀ tx'' ∈ [tx, tx'], key ∈ tx''.2 := fun tx'' hm =>
      of_decide_eq_true (mem_filter.mp (hPair.subset hm)).2
    simp only [map_cons, map_nil, List.cons.injEq, and_true] at hFst
    obtain ⟨rfl, rfl⟩ := hFst
    exact ⟨tx.2, tx'.2, hPair.trans filter_sublist, key, hKeys tx (by simp), hKeys tx' (by simp)⟩
  · rintro ⟨keys, keys', hOrder, key, hKey, hKey'⟩
    refine ⟨key, ?_⟩
    rw [hQueues, holders]
    have hFiltered := (hOrder.filter (fun tx => decide (key ∈ tx.2))).map Prod.fst
    simpa [hKey, hKey'] using hFiltered

/-- Draining a scheduler that was filled by `addTransaction` ends with all queues empty. Every
transaction is in one level, and the number of the level is the length of the longest chain of
transactions that were added before it, each with a key in common with the next. -/
theorem schedule_longest_chains (distinct : (txs.map Prod.fst).Nodup)
    (hNamed : "" ∉ txs.map Prod.fst) :
    ∃ ds plan, (∀ rounds, txs.length < rounds → (fill txs).schedule rounds = some (ds, plan)) ∧
      (∀ key, (ds.keyQueues key).isEmpty = true) ∧
      plan.flatten.Perm (txs.map Prod.fst) ∧
      ∀ i level, plan[i]? = some level → ∀ txID ∈ level,
        IsGreatest (chainLengths (Precedes txs) txID) i := by
  have idle := (idle_fill distinct hNamed).1
  have hAll : (txs.map Prod.fst).filter (· ∉ ([] : List String)) = txs.map Prod.fst := by simp
  have hRounds : ((txs.map Prod.fst).filter (· ∉ ([] : List String))).length < txs.length + 1 := by
    simp
  obtain ⟨ds, plan, hPlan, drained⟩ := idle.drained hRounds
  rw [hAll] at drained
  refine ⟨ds, plan, fun rounds hRounds => levels_mono hRounds hPlan, fun key => ?_,
    drained.partition, ?_⟩
  · have hEmpty := drained.empty key
    rw [TransactionQueue.ids, map_eq_nil_iff] at hEmpty
    rw [TransactionQueue.isEmpty, hEmpty]
    rfl
  · intro i level hLevel txID hm
    have hOrder : (fill txs).Ahead = Precedes txs := by
      funext first second
      exact propext (ahead_fill_iff distinct hNamed first second)
    rw [← hOrder]
    exact drained.layered.isGreatest ⟨level, hLevel, hm⟩

/-- The middle one waits for the first, and the last one for the middle one. -/
def threeInTurn : List (String × List String) :=
  [("b", ["k"]), ("a", ["k", "m"]), ("c", ["m"])]

/-- The order of addition counts, not that of the IDs. -/
theorem schedule_threeInTurn :
    ((fill threeInTurn).schedule 4).map Prod.snd = some [["b"], ["a"], ["c"]] ∧
      IsGreatest (chainLengths (Precedes threeInTurn) "c") 2 := by
  obtain ⟨ds, plan, hPlan, _, _, hLevel⟩ :=
    @schedule_longest_chains threeInTurn (by decide) (by decide)
  have hRun : ((fill threeInTurn).schedule 4).map Prod.snd = some [["b"], ["a"], ["c"]] := by
    decide
  refine ⟨hRun, hLevel 2 ["c"] ?_ "c" mem_cons_self⟩
  rw [hPlan 4 (by decide)] at hRun
  obtain rfl : plan = [["b"], ["a"], ["c"]] := Option.some.inj hRun
  rfl

end Filling
end DepurgeScheduler
end Nezha
