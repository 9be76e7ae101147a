import NezhaConcurrency.Core.DepurgeInvariant

/-! The single-threaded setup: adding the transactions in increasing order of
their IDs establishes the scheduler's invariant with everybody waiting. -/
namespace Nezha

open Function List

theorem mem_uniqueKeys_foldl (keys uniq : List String) (key : String) :
    key ∈ keys.foldl (fun uniq k => if k ∈ uniq then uniq else uniq ++ [k]) uniq ↔
      key ∈ uniq ∨ key ∈ keys := by
  induction keys generalizing uniq with
  | nil => simp
  | cons head tail ih =>
    rw [foldl_cons, ih]
    by_cases h : head ∈ uniq
    · rw [if_pos h, mem_cons]
      constructor
      · rintro (hm | hm)
        · exact Or.inl hm
        · exact Or.inr (Or.inr hm)
      · rintro (hm | rfl | hm)
        · exact Or.inl hm
        · exact Or.inl h
        · exact Or.inr hm
    · rw [if_neg h, mem_append, mem_singleton, mem_cons, or_assoc]

theorem mem_uniqueKeys (keys : List String) (key : String) :
    key ∈ uniqueKeys keys ↔ key ∈ keys := by
  rw [uniqueKeys, mem_uniqueKeys_foldl]
  simp

theorem nodup_uniqueKeys (keys : List String) : (uniqueKeys keys).Nodup := by
  have hGeneral : ∀ uniq : List String, uniq.Nodup →
      (keys.foldl (fun uniq k => if k ∈ uniq then uniq else uniq ++ [k]) uniq).Nodup := by
    induction keys with
    | nil => exact fun _ h => h
    | cons head tail ih =>
      intro uniq nodup
      rw [foldl_cons]
      apply ih
      by_cases h : head ∈ uniq
      · rwa [if_pos h]
      · rw [if_neg h, nodup_append_comm, singleton_append, nodup_cons]
        exact ⟨h, nodup⟩
  exact hGeneral [] nodup_nil

theorem mem_sortStrings (keys : List String) (key : String) : key ∈ sortStrings keys ↔ key ∈ keys :=
  (perm_insertionSort (· ≤ ·) keys).mem_iff

theorem sortStrings_congr {keys keys' : List String} (perm : keys.Perm keys') :
    sortStrings keys = sortStrings keys' :=
  (((perm_insertionSort _ keys).trans perm).trans
    (perm_insertionSort _ keys').symm).eq_of_pairwise' (pairwise_insertionSort _ _)
    (pairwise_insertionSort _ _)

theorem nodup_sortStrings {keys : List String} (nodup : keys.Nodup) : (sortStrings keys).Nodup :=
  (perm_insertionSort (· ≤ ·) keys).nodup_iff.mpr nodup

namespace DepurgeScheduler

theorem mem_contextKeys (ctx : TransactionContext) (key : String) : key ∈ contextKeys ctx ↔
      key ∈ ctx.PreReadSet.map Prod.fst ∨ key ∈ ctx.PreWriteSet.map Prod.fst := by
  rw [contextKeys, mem_sortStrings, mem_uniqueKeys, mem_append]

/-- A transaction has been pushed on the queues of the given keys, and its
count has been lowered for every queue that was empty. -/
structure Filed (txID : String) (keys : List String) (ds ds' : DepurgeScheduler) : Prop where
  keyMap : ds'.txKeyMap = ds.txKeyMap
  executed : ds'.txExecuted = ds.txExecuted
  ready : ds'.readyQueue = ds.readyQueue
  pruneReady : ds'.pruneReadyQueue = ds.pruneReadyQueue
  inReady : ds'.inReady = ds.inReady
  inPruneReady : ds'.inPruneReady = ds.inPruneReady
  queues : ∀ key, (ds'.keyQueues key).ids =
    if key ∈ keys then (ds.keyQueues key).ids ++ [txID] else (ds.keyQueues key).ids
  count_other : ∀ other, other ≠ txID → ds'.txReadyCount other = ds.txReadyCount other
  count_self : ds'.txReadyCount txID =
    ds.txReadyCount txID - keys.countP fun key => (ds.keyQueues key).ids = []

theorem filed_addKey (ds : DepurgeScheduler) {txID key : String}
    (hFresh : txID ∉ (ds.keyQueues key).ids) : Filed txID [key] ds (addKey txID ds key) := by
  have hPush : ((ds.keyQueues key).push txID).ids = (ds.keyQueues key).ids ++ [txID] := by
    rw [TransactionQueue.ids_push, if_neg hFresh]
  have hFront : ((ds.keyQueues key).push txID).front = txID ↔ (ds.keyQueues key).ids = [] := by
    rw [TransactionQueue.front_eq, hPush]
    cases hIds : (ds.keyQueues key).ids with
    | nil => simp
    | cons head tail =>
      rw [hIds] at hFresh
      simp only [cons_append, headD_cons, reduceCtorEq, iff_false]
      rintro rfl
      exact hFresh mem_cons_self
  have hQueues : ∀ other, ((ds.setQueue key ((ds.keyQueues key).push txID)).keyQueues other).ids =
      if other ∈ [key] then (ds.keyQueues other).ids ++ [txID] else (ds.keyQueues other).ids := by
    intro other
    rw [setQueue_ids]
    by_cases h : other = key
    · subst other
      simp [hPush]
    · simp [h]
  unfold addKey
  simp only [setQueue_keyQueues_self]
  by_cases hEmpty : (ds.keyQueues key).ids = []
  · rw [if_pos (hFront.mpr hEmpty)]
    refine ⟨rfl, rfl, rfl, rfl, rfl, rfl, hQueues, ?_, ?_⟩
    · intro other hne
      exact decrement_count_of_ne _ hne
    · rw [decrement_count_self]
      simp [setQueue, hEmpty]
  · rw [if_neg (fun h => hEmpty (hFront.mp h))]
    refine ⟨rfl, rfl, rfl, rfl, rfl, rfl, hQueues, fun _ _ => rfl, ?_⟩
    simp [setQueue, hEmpty]

theorem filed_addKeys (ds : DepurgeScheduler) {txID : String} {keys : List String}
    (nodup : keys.Nodup) (hFresh : ∀ key, txID ∉ (ds.keyQueues key).ids) :
    Filed txID keys ds (keys.foldl (addKey txID) ds) := by
  -- The induction is on the keys still to file: those already filed hold
  -- `txID`, so freshness is only carried for the rest.
  have hGeneral : ∀ (keys : List String) (ds : DepurgeScheduler), keys.Nodup →
      (∀ key ∈ keys, txID ∉ (ds.keyQueues key).ids) →
      Filed txID keys ds (keys.foldl (addKey txID) ds) := by
    intro keys
    induction keys with
    | nil =>
      intro ds _ _
      exact ⟨rfl, rfl, rfl, rfl, rfl, rfl, by simp, fun _ _ => rfl, by simp⟩
    | cons head tail ih =>
      intro ds nodup hFresh
      obtain ⟨hHead, hTail⟩ := nodup_cons.mp nodup
      have hFirst := filed_addKey ds (hFresh head mem_cons_self)
      have hSame : ∀ key ∈ tail,
          ((addKey txID ds head).keyQueues key).ids = (ds.keyQueues key).ids := by
        intro key hm
        rw [hFirst.queues, if_neg]
        rw [mem_singleton]
        rintro rfl
        exact hHead hm
      have hRest := ih (addKey txID ds head) hTail (by
        intro key hm
        rw [hSame key hm]
        exact hFresh key (mem_cons_of_mem _ hm))
      have hCount : tail.countP (fun key => ((addKey txID ds head).keyQueues key).ids = []) =
          tail.countP (fun key => (ds.keyQueues key).ids = []) := by
        apply countP_congr
        intro key hm
        rw [hSame key hm]
      refine ⟨hRest.keyMap.trans hFirst.keyMap, hRest.executed.trans hFirst.executed,
        hRest.ready.trans hFirst.ready, hRest.pruneReady.trans hFirst.pruneReady,
        hRest.inReady.trans hFirst.inReady, hRest.inPruneReady.trans hFirst.inPruneReady,
        ?_, ?_, ?_⟩
      · intro key
        rw [foldl_cons, hRest.queues]
        by_cases hm : key ∈ tail
        · rw [if_pos hm, hSame key hm, if_pos (mem_cons_of_mem _ hm)]
        · rw [if_neg hm, hFirst.queues]
          simp [hm]
      · intro other hne
        rw [foldl_cons, hRest.count_other other hne, hFirst.count_other other hne]
      · rw [foldl_cons, hRest.count_self, hFirst.count_self, hCount, countP_cons,
          countP_nil, countP_cons]
        push_cast
        omega
  exact hGeneral keys ds nodup fun key _ => hFresh key

section Adding

variable {added : List String} {ds next : DepurgeScheduler} {txID : String} {keys : List String}

theorem Filed.keyMap_self (filed : Filed txID keys (ds.enter txID keys) next) :
    next.txKeyMap txID = keys := by
  rw [filed.keyMap]
  exact update_self ..

variable {other : String}

theorem Filed.keyMap_other (filed : Filed txID keys (ds.enter txID keys) next) (hne : other ≠ txID)
    : next.txKeyMap other = ds.txKeyMap other := by
  rw [filed.keyMap]
  exact update_of_ne hne ..

theorem Filed.readyCount_other (filed : Filed txID keys (ds.enter txID keys) next)
    (hne : other ≠ txID) :
    next.txReadyCount other = ds.txReadyCount other := by
  rw [filed.count_other other hne]
  exact update_of_ne hne ..

theorem Filed.blockedCount_other (filed : Filed txID keys (ds.enter txID keys) next)
    (hne : other ≠ txID) :
    next.blockedCount other = ds.blockedCount other := by
  unfold blockedCount
  rw [filed.keyMap_other hne]
  apply countP_congr
  intro key _
  rw [decide_eq_true_eq, decide_eq_true_eq, Blocked, Blocked, TransactionQueue.front_eq,
    TransactionQueue.front_eq, filed.queues]
  change other ∈ (if key ∈ keys then (ds.keyQueues key).ids ++ [txID] else _) ∧
    (if key ∈ keys then (ds.keyQueues key).ids ++ [txID] else _).headD "" ≠ other ↔ _
  split
  · cases hIds : (ds.keyQueues key).ids with
    | nil => simp [hne]
    | cons head tail => simp [hne]
  · rfl

/-- The count of the new transaction is the number of queues it is blocked in:
one for every queue that was not empty. -/
theorem Filed.readyCount_self (filed : Filed txID keys (ds.enter txID keys) next)
    (hFresh : ∀ key, txID ∉ (ds.keyQueues key).ids) :
    next.txReadyCount txID = next.blockedCount txID := by
  have hSplit := length_eq_countP_add_countP
    (fun key => decide ((ds.keyQueues key).ids = [])) (l := keys)
  have hBlocked : next.blockedCount txID =
      keys.countP (fun key => decide ¬ decide ((ds.keyQueues key).ids = []) = true) := by
    unfold blockedCount
    rw [filed.keyMap_self]
    apply countP_congr
    intro key hm
    rw [decide_eq_true_eq, Blocked, TransactionQueue.front_eq, filed.queues, if_pos hm]
    change txID ∈ (ds.keyQueues key).ids ++ [txID] ∧
      ((ds.keyQueues key).ids ++ [txID]).headD "" ≠ txID ↔ _
    cases hIds : (ds.keyQueues key).ids with
    | nil => simp
    | cons head tail =>
      have hHead : head ≠ txID := by
        rintro rfl
        exact hFresh key (by rw [hIds]; exact mem_cons_self)
      simp [hHead]
  have hStart : (ds.enter txID keys).txReadyCount txID = keys.length := update_self ..
  have hOld : keys.countP (fun key => ((ds.enter txID keys).keyQueues key).ids = []) =
      keys.countP (fun key => (ds.keyQueues key).ids = []) := rfl
  rw [filed.count_self, hStart, hBlocked, hOld, hSplit]
  push_cast
  omega

theorem Filed.queue_mem (filed : Filed txID keys (ds.enter txID keys) next) {key : String}
    (hm : other ∈ (next.keyQueues key).ids) :
    other ∈ (ds.keyQueues key).ids ∨ (other = txID ∧ key ∈ keys) := by
  rw [filed.queues] at hm
  split at hm
  · rename_i hKey
    rcases mem_append.mp hm with hm | hm
    · exact Or.inl hm
    · exact Or.inr ⟨mem_singleton.mp hm, hKey⟩
  · exact Or.inl hm

/-- Filing a new transaction keeps the scheduler consistent, except that it is in no
ready list yet. The last step of `addTransaction` is stated through the ready list it
leaves behind. -/
theorem Consistent.filed (inv : Consistent added (fun _ => .waiting) (fun _ => 0) ds)
    (hNew : txID ∉ added) (hNamed : txID = "" → added = []) (nodup : keys.Nodup)
    (filed : Filed txID keys (ds.enter txID keys) next) (ready : List String)
    (inReady : String → Bool)
    (hReady : ∀ other, other ∈ ready ↔
      other ∈ ds.readyQueue ∨ (other = txID ∧ next.txReadyCount txID = 0))
    (hNodup : (ready ++ ds.pruneReadyQueue).Nodup)
    (hIn : ∀ other, inReady other = true ↔ other ∈ ready) :
    Consistent (added ++ [txID]) (fun _ => .waiting) (fun _ => 0)
      { next with readyQueue := ready, inReady := inReady } := by
  have hFresh : ∀ key, txID ∉ (ds.keyQueues key).ids :=
    fun key hm => hNew (inv.queue_mem key txID hm).1
  have hOld : ∀ other ∈ added ++ [txID], other ≠ txID → other ∈ added := by
    intro other hAdded hne
    simpa [hne] using hAdded
  have hLists : ∀ other, other ∈ ready ++ next.pruneReadyQueue ↔
      other ∈ ds.readyQueue ++ ds.pruneReadyQueue ∨
        (other = txID ∧ next.txReadyCount txID = 0) := by
    intro other
    rw [mem_append, hReady, filed.pruneReady, mem_append]
    change _ ∨ other ∈ ds.pruneReadyQueue ↔ _
    tauto
  refine ⟨?_, ?_, ?_, ?_, ?_, ?_, ?_, ?_, ?_, hIn, ?_⟩
  · intro other
    by_cases hne : other = txID
    · subst other
      exact filed.keyMap_self ▸ nodup
    · exact filed.keyMap_other hne ▸ inv.keys_nodup other
  · intro key
    change "" ∉ (next.keyQueues key).ids.tail
    have hOldNamed := inv.queue_named key
    rw [filed.queues]
    change "" ∉ (if key ∈ keys then (ds.keyQueues key).ids ++ [txID] else _).tail
    split
    · cases hIds : (ds.keyQueues key).ids with
      | nil => simp
      | cons first rest =>
        have hFirst := (inv.queue_mem key first (hIds ▸ mem_cons_self)).1
        have hNonempty : txID ≠ "" := fun h => by
          rw [hNamed h] at hFirst
          cases hFirst
        rw [hIds] at hOldNamed
        simp only [cons_append, tail_cons, mem_append, mem_singleton]
        exact not_or.mpr ⟨hOldNamed, hNonempty.symm⟩
    · exact hOldNamed
  · intro key other hm
    rcases filed.queue_mem hm with hm | ⟨rfl, hKey⟩
    · obtain ⟨hAdded, hKey, hPhase⟩ := inv.queue_mem key other hm
      have hne : other ≠ txID := fun he => hNew (he ▸ hAdded)
      exact ⟨mem_append_left _ hAdded, (filed.keyMap_other hne).symm ▸ hKey, hPhase⟩
    · exact ⟨by simp, filed.keyMap_self.symm ▸ hKey, Phase.noConfusion⟩
  · intro other hAdded key hHolds
    change key ∈ next.txKeyMap other at hHolds
    change other ∈ (next.keyQueues key).ids
    rw [filed.queues]
    by_cases hne : other = txID
    · subst other
      rw [filed.keyMap_self] at hHolds
      rw [if_pos hHolds]
      exact mem_append_right _ mem_cons_self
    · rw [filed.keyMap_other hne] at hHolds
      have hm := inv.queue_holds other (hOld other hAdded hne) key hHolds
      split
      · exact mem_append_left _ hm
      · exact hm
  · intro other hAdded hPhase
    change next.txReadyCount other = (next.blockedCount other : Int) + _
    by_cases hne : other = txID
    · subst other
      rw [filed.readyCount_self hFresh]
      simp
    · rw [filed.readyCount_other hne, filed.blockedCount_other hne]
      exact inv.count other (hOld other hAdded hne) hPhase
  · intro other hActive
    exact hActive.elim
  · intro other hm
    change _ ∧ _ ∧ next.txReadyCount other = 0
    rcases (hLists other).mp hm with hm | ⟨rfl, hZero⟩
    · obtain ⟨hAdded, hPhase, hZero⟩ := inv.ready_mem other hm
      have hne : other ≠ txID := fun he => hNew (he ▸ hAdded)
      exact ⟨mem_append_left _ hAdded, hPhase, (filed.readyCount_other hne).trans hZero⟩
    · exact ⟨by simp, rfl, hZero⟩
  · rw [filed.pruneReady]
    exact hNodup
  · intro other hAdded hNonempty hPhase hZero
    change next.txReadyCount other = 0 at hZero
    rw [hLists]
    by_cases hne : other = txID
    · exact Or.inr ⟨hne, hne ▸ hZero⟩
    · rw [filed.readyCount_other hne] at hZero
      exact Or.inl (inv.ready_of_zero other (hOld other hAdded hne) hNonempty hPhase hZero)
  · change ∀ other, next.inPruneReady other = true ↔ other ∈ next.pruneReadyQueue
    rw [filed.inPruneReady, filed.pruneReady]
    exact inv.inPruneReady_iff

/-- Adding a new transaction. Only the first one may have the empty ID. -/
theorem Consistent.addTransaction (inv : Consistent added (fun _ => .waiting) (fun _ => 0) ds)
    (hNew : txID ∉ added) (hNamed : txID = "" → added = []) (keys : List String) :
    Consistent (added ++ [txID]) (fun _ => .waiting) (fun _ => 0)
      (ds.addTransaction txID keys) := by
  have hUnlisted : txID ∉ ds.readyQueue ++ ds.pruneReadyQueue :=
    fun hm => hNew (inv.ready_mem txID hm).1
  have nodup : (sortStrings (uniqueKeys keys)).Nodup := nodup_sortStrings (nodup_uniqueKeys keys)
  have filed := filed_addKeys (ds.enter txID (sortStrings (uniqueKeys keys))) nodup
    fun key hm => hNew (inv.queue_mem key txID hm).1
  unfold DepurgeScheduler.addTransaction
  simp only []
  generalize List.foldl (addKey txID) _ _ = next at filed
  by_cases hZero : next.txReadyCount txID = 0
  · rw [if_pos hZero]
    refine inv.filed hNew hNamed nodup filed _ _ ?_ ?_ ?_
    · intro other
      rw [filed.ready]
      simp [enter, hZero]
    · rw [filed.ready, append_assoc, singleton_append, nodup_middle, nodup_cons]
      exact ⟨hUnlisted, inv.ready_nodup⟩
    · intro other
      rw [filed.inReady, filed.ready]
      by_cases hne : other = txID
      · simp [hne]
      · rw [update_of_ne hne, mem_append, mem_singleton]
        simpa [enter, hne] using inv.inReady_iff other
  · rw [if_neg hZero]
    refine inv.filed hNew hNamed nodup filed next.readyQueue next.inReady ?_ ?_ ?_
    · intro other
      rw [filed.ready]
      simp [enter, hZero]
    · rw [filed.ready]
      exact inv.ready_nodup
    · rw [filed.inReady, filed.ready]
      exact inv.inReady_iff

theorem addTransaction_ids (ds : DepurgeScheduler) (keys : List String)
    (hFresh : ∀ key, txID ∉ (ds.keyQueues key).ids) (key : String) :
    ((ds.addTransaction txID keys).keyQueues key).ids =
      if key ∈ keys then (ds.keyQueues key).ids ++ [txID] else (ds.keyQueues key).ids := by
  have nodup : (sortStrings (uniqueKeys keys)).Nodup := nodup_sortStrings (nodup_uniqueKeys keys)
  have filed := filed_addKeys (ds.enter txID (sortStrings (uniqueKeys keys))) nodup hFresh
  have hQueues := filed.queues key
  simp only [mem_sortStrings, mem_uniqueKeys] at hQueues
  unfold DepurgeScheduler.addTransaction
  dsimp only
  split <;> exact hQueues

theorem Invariant.addTransaction (inv : Invariant added (fun _ => .waiting) (fun _ => 0) ds)
    (hLarger : ∀ other ∈ added, other < txID) (keys : List String) :
    Invariant (added ++ [txID]) (fun _ => .waiting) (fun _ => 0) (ds.addTransaction txID keys) := by
  have hNew : txID ∉ added := fun hm => (hLarger txID hm).false
  have hNamed : txID = "" → added = [] := by
    rintro rfl
    exact eq_nil_iff_forall_not_mem.mpr fun other hm => (empty_le other).not_gt (hLarger other hm)
  refine (inv.consistent.addTransaction hNew hNamed keys).invariant fun key => ?_
  rw [addTransaction_ids ds keys fun key hm => hNew (inv.queue_mem key txID hm).1]
  split
  · rw [pairwise_append]
    refine ⟨inv.queue_sorted key, pairwise_singleton .., ?_⟩
    intro other hm last hLast
    rw [mem_singleton.mp hLast]
    exact hLarger other (inv.queue_mem key other hm).1
  · exact inv.queue_sorted key

end Adding

theorem invariant_new : Invariant [] (fun _ => .waiting) (fun _ => 0) NewDepurgeScheduler where
  keys_nodup := fun _ => nodup_nil
  queue_sorted := fun _ => List.Pairwise.nil
  queue_mem := fun _ _ hm => absurd hm not_mem_nil
  queue_holds := fun _ hm => absurd hm not_mem_nil
  count := fun _ hm => absurd hm not_mem_nil
  active := fun _ h => h.elim
  ready_mem := fun _ hm => absurd hm not_mem_nil
  ready_nodup := nodup_nil
  ready_of_zero := fun _ hm => absurd hm not_mem_nil
  inReady_iff := by simp [NewDepurgeScheduler]
  inPruneReady_iff := by simp [NewDepurgeScheduler]

/-- The IDs in the order of their addition. -/
def addedIDs (contexts : List TransactionContext) : List String :=
  (sortContexts contexts).map TransactionContext.TxID

theorem mem_addedIDs (contexts : List TransactionContext) (txID : String) :
    txID ∈ addedIDs contexts ↔ ∃ ctx ∈ contexts, ctx.TxID = txID := by
  rw [addedIDs, mem_map]
  simp only [sortContexts, (perm_insertionSort _ contexts).mem_iff]

variable {contexts : List TransactionContext}

theorem addedIDs_sorted (distinct : (contexts.map TransactionContext.TxID).Nodup) :
    (addedIDs contexts).Pairwise (· < ·) := by
  have hPerm : (addedIDs contexts).Perm (contexts.map TransactionContext.TxID) :=
    (perm_insertionSort _ contexts).map _
  have hNodup : (addedIDs contexts).Nodup := hPerm.nodup_iff.mpr distinct
  have hSorted : (addedIDs contexts).Pairwise (· ≤ ·) := by
    rw [addedIDs, pairwise_map]
    have : Std.Total fun ctx ctx' : TransactionContext => ctx.TxID ≤ ctx'.TxID :=
      ⟨fun ctx ctx' => le_total ctx.TxID ctx'.TxID⟩
    have : IsTrans TransactionContext fun ctx ctx' => ctx.TxID ≤ ctx'.TxID :=
      ⟨fun _ _ _ => le_trans⟩
    exact pairwise_insertionSort _ contexts
  exact hSorted.imp₂ (fun _ _ hle hne => lt_of_le_of_ne hle hne) hNodup

/-- `Depurge_schedule` returns a scheduler in which everybody waits and the
invariant holds. -/
theorem invariant_Depurge_schedule (distinct : (contexts.map TransactionContext.TxID).Nodup) :
    Invariant (addedIDs contexts) (fun _ => .waiting) (fun _ => 0) (Depurge_schedule contexts) := by
  have hSorted := addedIDs_sorted distinct
  unfold addedIDs at hSorted ⊢
  unfold Depurge_schedule
  generalize sortContexts contexts = sorted at hSorted
  have hGeneral : ∀ (rest : List TransactionContext) (added : List String)
      (ds : DepurgeScheduler), Invariant added (fun _ => .waiting) (fun _ => 0) ds →
      (added ++ rest.map TransactionContext.TxID).Pairwise (· < ·) →
      Invariant (added ++ rest.map TransactionContext.TxID) (fun _ => .waiting) (fun _ => 0)
        (rest.foldl (fun ds ctx => ds.addTransaction ctx.TxID (contextKeys ctx)) ds) := by
    intro rest
    induction rest with
    | nil =>
      intro added ds inv _
      simpa using inv
    | cons ctx rest ih =>
      intro added ds inv hPairwise
      rw [map_cons, append_cons] at hPairwise ⊢
      rw [foldl_cons]
      refine ih _ _ (inv.addTransaction ?_ _) hPairwise
      intro other hm
      have hPrefix := (pairwise_append.mp hPairwise).1
      exact (pairwise_append.mp hPrefix).2.2 other hm ctx.TxID mem_cons_self
  exact hGeneral sorted [] NewDepurgeScheduler invariant_new hSorted

/-- Queueing a transaction under its keys leaves what is recorded of the transactions. -/
theorem addKeys_fields (txID : String) (keys : List String) (ds : DepurgeScheduler) :
    (keys.foldl (addKey txID) ds).txExecuted = ds.txExecuted ∧
      (keys.foldl (addKey txID) ds).txKeyMap = ds.txKeyMap ∧
      (keys.foldl (addKey txID) ds).pruneReadyQueue = ds.pruneReadyQueue := by
  induction keys generalizing ds with
  | nil => exact ⟨rfl, rfl, rfl⟩
  | cons key rest ih =>
    have hKey : (addKey txID ds key).txExecuted = ds.txExecuted ∧
        (addKey txID ds key).txKeyMap = ds.txKeyMap ∧
        (addKey txID ds key).pruneReadyQueue = ds.pruneReadyQueue := by
      unfold addKey
      dsimp only
      split <;> exact ⟨rfl, rfl, rfl⟩
    obtain ⟨hExecuted, hKeyMap, hPrune⟩ := ih (addKey txID ds key)
    exact ⟨hExecuted.trans hKey.1, hKeyMap.trans hKey.2.1, hPrune.trans hKey.2.2⟩

theorem addTransaction_executed (ds : DepurgeScheduler) (txID : String) (keys : List String)
    (h : ∀ other, ds.txExecuted other = false) (other : String) :
    (ds.addTransaction txID keys).txExecuted other = false := by
  have hEnter : ∀ keys, (ds.enter txID keys).txExecuted other = false := by
    intro keys
    change update ds.txExecuted txID false other = false
    by_cases hne : other = txID
    · rw [hne, update_self]
    · rw [update_of_ne hne, h]
  unfold addTransaction
  dsimp only
  split
  · change (List.foldl (addKey txID) _ _).txExecuted other = false
    rw [(addKeys_fields txID _ _).1, hEnter]
  · rw [(addKeys_fields txID _ _).1, hEnter]

theorem Depurge_schedule_executed (contexts : List TransactionContext) (txID : String) :
    (Depurge_schedule contexts).txExecuted txID = false := by
  have hGeneral : ∀ (rest : List TransactionContext) (ds : DepurgeScheduler),
      (∀ other, ds.txExecuted other = false) →
      (rest.foldl (fun ds ctx => ds.addTransaction ctx.TxID (contextKeys ctx)) ds).txExecuted
        txID = false := by
    intro rest
    induction rest with
    | nil => exact fun _ h => h txID
    | cons ctx rest ih =>
      intro ds h
      exact ih _ (addTransaction_executed ds _ _ h)
  exact hGeneral _ _ fun _ => rfl

theorem addTransaction_keyMap (ds : DepurgeScheduler) (txID : String) (keys : List String) :
    (ds.addTransaction txID keys).txKeyMap =
      update ds.txKeyMap txID (sortStrings (uniqueKeys keys)) := by
  unfold addTransaction
  dsimp only
  split
  · change (List.foldl (addKey txID) _ _).txKeyMap = _
    rw [(addKeys_fields txID _ _).2.1]
    rfl
  · rw [(addKeys_fields txID _ _).2.1]
    rfl

theorem addTransaction_pruneReadyQueue (ds : DepurgeScheduler) (txID : String)
    (keys : List String) : (ds.addTransaction txID keys).pruneReadyQueue = ds.pruneReadyQueue := by
  unfold addTransaction
  dsimp only
  split <;> exact (addKeys_fields txID _ _).2.2

/-- A transaction is queued under the keys of its context. -/
theorem mem_Depurge_schedule_keyMap (distinct : (contexts.map TransactionContext.TxID).Nodup)
    {ctx : TransactionContext} (hm : ctx ∈ contexts) (key : String) :
    key ∈ (Depurge_schedule contexts).txKeyMap ctx.TxID ↔ key ∈ contextKeys ctx := by
  have hPerm : (sortContexts contexts).Perm contexts := perm_insertionSort _ contexts
  have hNodup := (hPerm.map TransactionContext.TxID).nodup_iff.mpr distinct
  have hSorted := hPerm.mem_iff.mpr hm
  unfold Depurge_schedule
  generalize sortContexts contexts = sorted at hNodup hSorted
  -- The entry of `ctx` is written once, and kept by the additions after it.
  induction sorted using List.reverseRecOn with
  | nil => cases hSorted
  | append_singleton earlier last ih =>
    rw [map_append, map_singleton] at hNodup
    obtain ⟨hEarlier, _, hApart⟩ := nodup_append'.mp hNodup
    rw [foldl_append, foldl_cons, foldl_nil, addTransaction_keyMap]
    rcases mem_append.mp hSorted with hm' | hm'
    · have hne : ctx.TxID ≠ last.TxID := fun h =>
        hApart (mem_map_of_mem hm') (h ▸ mem_singleton_self _)
      rw [update_of_ne hne]
      exact ih hEarlier hm'
    · obtain rfl := mem_singleton.mp hm'
      rw [update_self, mem_sortStrings, mem_uniqueKeys]

end DepurgeScheduler
end Nezha
