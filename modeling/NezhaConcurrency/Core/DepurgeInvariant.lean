import NezhaConcurrency.Core.DepurgeScheduler
import NezhaConcurrency.Library.Count

/-! The invariant that links the ready counts, the key queues, the two ready
lists and the transactions in flight. It is proved for one key at a time: a
front leaves its queue (`leaveFront`), which leaves its successor one too high,
and the release of the successor settles that. The scheduler methods are folds
of these two moves. -/
namespace Nezha

open Function List

/-- Where a transaction stands between its addition and its end. A pruned
transaction remembers the real keys it was pruned with. -/
inductive Phase where
  | waiting
  | popped
  | pruned (realKeys : List String)
  | finished
deriving DecidableEq, Repr

/-- Popped, and not yet executed or aborted. -/
def Phase.Active : Phase → Prop
  | .popped => True
  | .pruned _ => True
  | _ => False

theorem Phase.active_of_popped {phase : Phase} (h : phase = .popped) : phase.Active := by
  rw [h]
  trivial

/-- The keys whose queue is guaranteed to hold a transaction in this phase. -/
def Phase.Holds (keys : List String) : Phase → String → Prop
  | .waiting, key => key ∈ keys
  | .popped, key => key ∈ keys
  | .pruned realKeys, key => key ∈ keys ∧ key ∈ realKeys
  | .finished, _ => False

theorem empty_le (s : String) : "" ≤ s := by
  rw [← not_lt]
  intro h
  rw [String.lt_iff_toList_lt] at h
  simp at h

namespace DepurgeScheduler

/-- The queue of `key` holds `txID`, and not at its front. -/
def Blocked (ds : DepurgeScheduler) (txID key : String) : Prop :=
  txID ∈ (ds.keyQueues key).ids ∧ (ds.keyQueues key).front ≠ txID

instance (ds : DepurgeScheduler) (txID key : String) : Decidable (ds.Blocked txID key) :=
  inferInstanceAs (Decidable (_ ∧ _))

def blockedCount (ds : DepurgeScheduler) (txID : String) : Nat :=
  (ds.txKeyMap txID).countP fun key => ds.Blocked txID key

/-- `owed` says by how much a ready count is still too high in the middle of a
method. It is zero between methods. -/
structure Invariant (added : List String) (phase : String → Phase) (owed : String → Nat)
    (ds : DepurgeScheduler) : Prop where
  keys_nodup : ∀ txID, (ds.txKeyMap txID).Nodup
  queue_sorted : ∀ key, (ds.keyQueues key).ids.Pairwise (· < ·)
  queue_mem : ∀ key txID, txID ∈ (ds.keyQueues key).ids →
    txID ∈ added ∧ key ∈ ds.txKeyMap txID ∧ phase txID ≠ .finished
  queue_holds : ∀ txID ∈ added, ∀ key, (phase txID).Holds (ds.txKeyMap txID) key →
    txID ∈ (ds.keyQueues key).ids
  count : ∀ txID ∈ added, phase txID ≠ .finished →
    ds.txReadyCount txID = ds.blockedCount txID + owed txID
  active : ∀ txID, (phase txID).Active → txID ∈ added ∧ txID ≠ "" ∧ ds.txReadyCount txID = 0
  ready_mem : ∀ txID ∈ ds.readyQueue ++ ds.pruneReadyQueue,
    txID ∈ added ∧ phase txID = .waiting ∧ ds.txReadyCount txID = 0
  ready_nodup : (ds.readyQueue ++ ds.pruneReadyQueue).Nodup
  ready_of_zero : ∀ txID ∈ added, txID ≠ "" → phase txID = .waiting →
    ds.txReadyCount txID = 0 → txID ∈ ds.readyQueue ++ ds.pruneReadyQueue
  inReady_iff : ∀ txID, ds.inReady txID = true ↔ txID ∈ ds.readyQueue
  inPruneReady_iff : ∀ txID, ds.inPruneReady txID = true ↔ txID ∈ ds.pruneReadyQueue

/-- What the invariant says without the order of the IDs: a queue may hold its
transactions in any order of addition, and only its first one may have the empty ID. -/
structure Consistent (added : List String) (phase : String → Phase) (owed : String → Nat)
    (ds : DepurgeScheduler) : Prop where
  keys_nodup : ∀ txID, (ds.txKeyMap txID).Nodup
  queue_named : ∀ key, "" ∉ (ds.keyQueues key).ids.tail
  queue_mem : ∀ key txID, txID ∈ (ds.keyQueues key).ids →
    txID ∈ added ∧ key ∈ ds.txKeyMap txID ∧ phase txID ≠ .finished
  queue_holds : ∀ txID ∈ added, ∀ key, (phase txID).Holds (ds.txKeyMap txID) key →
    txID ∈ (ds.keyQueues key).ids
  count : ∀ txID ∈ added, phase txID ≠ .finished →
    ds.txReadyCount txID = ds.blockedCount txID + owed txID
  active : ∀ txID, (phase txID).Active → txID ∈ added ∧ txID ≠ "" ∧ ds.txReadyCount txID = 0
  ready_mem : ∀ txID ∈ ds.readyQueue ++ ds.pruneReadyQueue,
    txID ∈ added ∧ phase txID = .waiting ∧ ds.txReadyCount txID = 0
  ready_nodup : (ds.readyQueue ++ ds.pruneReadyQueue).Nodup
  ready_of_zero : ∀ txID ∈ added, txID ≠ "" → phase txID = .waiting →
    ds.txReadyCount txID = 0 → txID ∈ ds.readyQueue ++ ds.pruneReadyQueue
  inReady_iff : ∀ txID, ds.inReady txID = true ↔ txID ∈ ds.readyQueue
  inPruneReady_iff : ∀ txID, ds.inPruneReady txID = true ↔ txID ∈ ds.pruneReadyQueue

section Order

variable {added : List String} {phase : String → Phase} {owed : String → Nat}
  {ds : DepurgeScheduler}

theorem Invariant.consistent (inv : Invariant added phase owed ds) :
    Consistent added phase owed ds where
  keys_nodup := inv.keys_nodup
  queue_named := by
    intro key hm
    have hSorted := inv.queue_sorted key
    cases hIds : (ds.keyQueues key).ids with
    | nil => simp [hIds] at hm
    | cons first rest =>
      rw [hIds] at hm hSorted
      exact (empty_le first).not_gt ((pairwise_cons.mp hSorted).1 "" hm)
  queue_mem := inv.queue_mem
  queue_holds := inv.queue_holds
  count := inv.count
  active := inv.active
  ready_mem := inv.ready_mem
  ready_nodup := inv.ready_nodup
  ready_of_zero := inv.ready_of_zero
  inReady_iff := inv.inReady_iff
  inPruneReady_iff := inv.inPruneReady_iff

theorem Consistent.invariant (con : Consistent added phase owed ds)
    (hSorted : ∀ key, (ds.keyQueues key).ids.Pairwise (· < ·)) :
    Invariant added phase owed ds where
  keys_nodup := con.keys_nodup
  queue_sorted := hSorted
  queue_mem := con.queue_mem
  queue_holds := con.queue_holds
  count := con.count
  active := con.active
  ready_mem := con.ready_mem
  ready_nodup := con.ready_nodup
  ready_of_zero := con.ready_of_zero
  inReady_iff := con.inReady_iff
  inPruneReady_iff := con.inPruneReady_iff

end Order

section Moves

variable {added : List String} {phase : String → Phase} {owed : String → Nat}
  {ds : DepurgeScheduler}

variable {txID key : String}

/-- A transaction in flight is at the front of every queue that holds it. -/
theorem Consistent.front_of_active (inv : Consistent added phase owed ds)
    (active : (phase txID).Active) (hm : txID ∈ (ds.keyQueues key).ids) :
    (ds.keyQueues key).front = txID := by
  obtain ⟨hAdded, _, hZero⟩ := inv.active txID active
  obtain ⟨_, hKey, hPhase⟩ := inv.queue_mem key txID hm
  have hCount := inv.count txID hAdded hPhase
  have hBlocked : ds.blockedCount txID = 0 := by omega
  have hKeys := countP_eq_zero.mp hBlocked key hKey
  by_contra hFront
  exact hKeys (decide_eq_true ⟨hm, hFront⟩)

theorem Consistent.ids_of_active (inv : Consistent added phase owed ds)
    (active : (phase txID).Active) (hm : txID ∈ (ds.keyQueues key).ids) :
    ∃ rest, (ds.keyQueues key).ids = txID :: rest := by
  have hFront := inv.front_of_active active hm
  rw [TransactionQueue.front_eq] at hFront
  cases hIds : (ds.keyQueues key).ids with
  | nil =>
    rw [hIds] at hm
    cases hm
  | cons head rest =>
    rw [hIds] at hFront
    exact ⟨rest, by rw [← hFront]; rfl⟩

@[simp] theorem setQueue_ids (ds : DepurgeScheduler) (key other : String)
    (queue : TransactionQueue) :
    ((ds.setQueue key queue).keyQueues other).ids =
      if other = key then queue.ids else (ds.keyQueues other).ids := by
  unfold setQueue
  by_cases h : other = key
  · subst other
    simp
  · simp [h]

theorem setQueue_keyQueues_self (ds : DepurgeScheduler) (key : String)
    (queue : TransactionQueue) : (ds.setQueue key queue).keyQueues key = queue :=
  update_self ..

/-- How the blocked keys change when a front leaves: the successor loses this
key, everybody else keeps theirs. -/
theorem blocked_leaveFront (ds : DepurgeScheduler) {rest : List String} (queue : TransactionQueue)
    (hIds : (ds.keyQueues key).ids = txID :: rest) (hQueue : queue.ids = rest)
    (other otherKey : String) :
    (ds.setQueue key queue).Blocked other otherKey ↔
      ds.Blocked other otherKey ∧ ¬ (otherKey = key ∧ rest.head? = some other) := by
  unfold Blocked
  rw [TransactionQueue.front_eq, TransactionQueue.front_eq, setQueue_ids]
  by_cases hKey : otherKey = key
  · subst otherKey
    have nodup := (ds.keyQueues key).nodup_ids
    rw [hIds, nodup_cons] at nodup
    rw [if_pos rfl, hIds, hQueue]
    cases rest with
    | nil => simp [eq_comm]
    | cons next tail =>
      simp only [headD_cons, head?_cons, Option.some.injEq, mem_cons, true_and, ne_eq]
      constructor
      · rintro ⟨hm, hne⟩
        refine ⟨⟨Or.inr hm, ?_⟩, hne⟩
        rintro rfl
        exact nodup.1 (mem_cons.mpr hm)
      · rintro ⟨⟨hm | hm, hne⟩, hNext⟩
        · exact absurd hm.symm hne
        · exact ⟨hm, hNext⟩
  · rw [if_neg hKey]
    simp [hKey]

theorem blockedCount_leaveFront (inv : Consistent added phase owed ds) {rest : List String}
    (queue : TransactionQueue) (hIds : (ds.keyQueues key).ids = txID :: rest)
    (hQueue : queue.ids = rest) (other : String) :
    ds.blockedCount other = (ds.setQueue key queue).blockedCount other +
      if rest.head? = some other then 1 else 0 := by
  have hBlocked := ds.blocked_leaveFront queue hIds hQueue other
  unfold blockedCount
  change _ = List.countP _ (ds.txKeyMap other) + _
  by_cases hNext : rest.head? = some other
  · have hm : other ∈ (ds.keyQueues key).ids := by
      rw [hIds]
      exact mem_cons_of_mem _ (mem_of_mem_head? hNext)
    have hne : (ds.keyQueues key).front ≠ other := by
      rw [TransactionQueue.front_eq, hIds, headD_cons]
      rintro rfl
      have nodup := (ds.keyQueues key).nodup_ids
      rw [hIds] at nodup
      exact (nodup_cons.mp nodup).1 (mem_of_mem_head? hNext)
    rw [if_pos hNext]
    apply Count.countP_eq_succ (inv.keys_nodup other) (inv.queue_mem key other hm).2.1
    · exact decide_eq_true ⟨hm, hne⟩
    · simp [hBlocked, hNext]
    · intro otherKey _ hKey
      simp [hBlocked, hKey]
  · rw [if_neg hNext, Nat.add_zero]
    apply countP_congr
    intro otherKey _
    simp [hBlocked, hNext]

/-- The successor that the departure of a front owes one decrement. -/
def owedNext (rest : List String) (txID : String) : Nat :=
  if rest.head? = some txID then 1 else 0

/-- A front in flight leaves one queue. Its phase may change to one that
guarantees no queue beyond those it is still in. -/
theorem Consistent.leaveFront (inv : Consistent added phase (fun _ => 0) ds) {rest : List String}
    (queue : TransactionQueue) (realKeys : List String) (active : phase txID = .pruned realKeys)
    (hReal : key ∉ realKeys) (hIds : (ds.keyQueues key).ids = txID :: rest)
    (hQueue : queue.ids = rest) :
    Consistent added phase (owedNext rest) (ds.setQueue key queue) where
  keys_nodup := inv.keys_nodup
  queue_named := by
    intro other hm
    rw [setQueue_ids] at hm
    split at hm
    · have hNamed := inv.queue_named key
      rw [hIds] at hNamed
      rw [hQueue] at hm
      exact hNamed (mem_of_mem_tail hm)
    · exact inv.queue_named other hm
  queue_mem := by
    intro other txID' hm
    rw [setQueue_ids] at hm
    split at hm
    · rename_i hKey
      subst other
      refine inv.queue_mem key txID' ?_
      rw [hIds]
      exact mem_cons_of_mem _ (hQueue ▸ hm)
    · exact inv.queue_mem other txID' hm
  queue_holds := by
    intro txID' hAdded other hHolds
    have hm := inv.queue_holds txID' hAdded other hHolds
    rw [setQueue_ids]
    split
    · rename_i hKey
      subst other
      rw [hIds] at hm
      rcases mem_cons.mp hm with rfl | hm
      · rw [active] at hHolds
        exact absurd hHolds.2 hReal
      · rw [hQueue]
        exact hm
    · exact hm
  count := by
    intro other hAdded hPhase
    have hCount := inv.count other hAdded hPhase
    have hChange := blockedCount_leaveFront inv queue hIds hQueue other
    have hSame : (ds.setQueue key queue).txReadyCount other = ds.txReadyCount other := rfl
    rw [hSame, hCount, hChange, owedNext]
    push_cast
    omega
  active := inv.active
  ready_mem := inv.ready_mem
  ready_nodup := inv.ready_nodup
  ready_of_zero := inv.ready_of_zero
  inReady_iff := inv.inReady_iff
  inPruneReady_iff := inv.inPruneReady_iff

/-- The effect of a release on a transaction that is in no ready list: its
count falls by one, and it is pushed on one of the lists when that reaches zero. -/
def Released (ds : DepurgeScheduler) (nextTx : String) (ds' : DepurgeScheduler) : Prop :=
  (ds.txReadyCount nextTx ≠ 1 ∧ ds' = ds.decrement nextTx) ∨
  (ds.txReadyCount nextTx = 1 ∧ (ds' = (ds.decrement nextTx).pushReadyQueue nextTx ∨
      ds' = (ds.decrement nextTx).pushPruneReadyQueue nextTx))

/-- What the three methods need of the release they use. -/
structure Releasing (release : DepurgeScheduler → String → DepurgeScheduler) : Prop where
  empty : ∀ ds, release ds "" = ds
  next : ∀ ds nextTx, nextTx ≠ "" → ds.txExecuted nextTx = false →
    ds.inReady nextTx = false → ds.inPruneReady nextTx = false →
    Released ds nextTx (release ds nextTx)

theorem decrement_count_self (ds : DepurgeScheduler) (txID : String) :
    (ds.decrement txID).txReadyCount txID = ds.txReadyCount txID - 1 :=
  update_self ..

theorem decrement_count_of_ne (ds : DepurgeScheduler) {other : String} (hne : other ≠ txID) :
    (ds.decrement txID).txReadyCount other = ds.txReadyCount other :=
  update_of_ne hne ..

theorem releasing_releaseReady : Releasing releaseReady where
  empty := fun ds => by simp [releaseReady]
  next := by
    intro ds nextTx hne hExecuted hReady hPrune
    have hIn : (ds.decrement nextTx).inReady nextTx = false := hReady
    unfold releaseReady
    rw [if_pos ⟨hne, hExecuted⟩]
    simp only [decrement_count_self, hIn, and_true]
    by_cases hOne : ds.txReadyCount nextTx = 1
    · rw [if_pos (by omega)]
      exact Or.inr ⟨hOne, Or.inl rfl⟩
    · rw [if_neg (by omega)]
      exact Or.inl ⟨hOne, rfl⟩

theorem releasing_releasePruneReady : Releasing releasePruneReady where
  empty := fun ds => by simp [releasePruneReady]
  next := by
    intro ds nextTx hne hExecuted hReady hPrune
    have hIn : (ds.decrement nextTx).inReady nextTx = false := hReady
    have hInPrune : (ds.decrement nextTx).inPruneReady nextTx = false := hPrune
    unfold releasePruneReady
    rw [if_pos ⟨hne, hExecuted⟩]
    simp only [decrement_count_self, hIn, hInPrune, and_true]
    by_cases hOne : ds.txReadyCount nextTx = 1
    · rw [if_pos (by omega)]
      exact Or.inr ⟨hOne, Or.inr rfl⟩
    · rw [if_neg (by omega)]
      exact Or.inl ⟨hOne, rfl⟩

/-- The successor of a departed front is waiting, with a positive count, and in
no ready list. -/
theorem Consistent.next_waiting {next : String} {tail : List String}
    (inv : Consistent added phase (owedNext (next :: tail)) ds)
    (hAdded : next ∈ added) (hPhase : phase next ≠ .finished) :
    phase next = .waiting ∧ 0 < ds.txReadyCount next ∧
      next ∉ ds.readyQueue ++ ds.pruneReadyQueue := by
  have hCount := inv.count next hAdded hPhase
  have hOwed : owedNext (next :: tail) next = 1 := by simp [owedNext]
  have hPos : 0 < ds.txReadyCount next := by omega
  refine ⟨?_, hPos, ?_⟩
  · cases hNext : phase next with
    | waiting => rfl
    | popped =>
      have hZero := (inv.active next (by rw [hNext]; trivial)).2.2
      omega
    | pruned realKeys =>
      have hZero := (inv.active next (by rw [hNext]; trivial)).2.2
      omega
    | finished => exact absurd hNext hPhase
  · intro hm
    have hZero := (inv.ready_mem next hm).2.2
    omega

variable {ds' : DepurgeScheduler}

/-- Settling the debt towards the successor restores the invariant, whichever
list the release uses. -/
theorem Consistent.settle {next : String} {tail : List String}
    (inv : Consistent added phase (owedNext (next :: tail)) ds) (hAdded : next ∈ added)
    (hPhase : phase next ≠ .finished) (released : Released ds next ds') :
    Consistent added phase (fun _ => 0) ds' := by
  obtain ⟨hWaiting, hPos, hFresh⟩ := inv.next_waiting hAdded hPhase
  have hQueues : ds'.keyQueues = ds.keyQueues := by
    rcases released with ⟨_, rfl⟩ | ⟨_, rfl | rfl⟩ <;> rfl
  have hKeys : ds'.txKeyMap = ds.txKeyMap := by
    rcases released with ⟨_, rfl⟩ | ⟨_, rfl | rfl⟩ <;> rfl
  have hSelf : ds'.txReadyCount next = ds.txReadyCount next - 1 := by
    rcases released with ⟨_, rfl⟩ | ⟨_, rfl | rfl⟩ <;> exact decrement_count_self ds next
  have hOther : ∀ other, other ≠ next → ds'.txReadyCount other = ds.txReadyCount other := by
    intro other hne
    rcases released with ⟨_, rfl⟩ | ⟨_, rfl | rfl⟩ <;> exact decrement_count_of_ne ds hne
  have hMem : ∀ other, other ∈ ds'.readyQueue ++ ds'.pruneReadyQueue ↔
      other ∈ ds.readyQueue ++ ds.pruneReadyQueue ∨ (other = next ∧ ds.txReadyCount next = 1) := by
    intro other
    rcases released with ⟨hOne, rfl⟩ | ⟨hOne, rfl | rfl⟩
    · simp [decrement, hOne]
    · simp only [pushReadyQueue, decrement, hOne, mem_append, mem_singleton, and_true]
      tauto
    · simp only [pushPruneReadyQueue, decrement, hOne, mem_append, mem_singleton, and_true]
      tauto
  have hCountBlocked : ∀ other, ds'.blockedCount other = ds.blockedCount other := by
    intro other
    rcases released with ⟨_, rfl⟩ | ⟨_, rfl | rfl⟩ <;> rfl
  rw [mem_append, not_or] at hFresh
  refine ⟨?_, ?_, ?_, ?_, ?_, ?_, ?_, ?_, ?_, ?_, ?_⟩
  · rw [hKeys]
    exact inv.keys_nodup
  · rw [hQueues]
    exact inv.queue_named
  · rw [hQueues, hKeys]
    exact inv.queue_mem
  · rw [hQueues, hKeys]
    exact inv.queue_holds
  · intro other hAddedOther hPhaseOther
    have hCount := inv.count other hAddedOther hPhaseOther
    rw [hCountBlocked]
    by_cases hne : other = next
    · subst other
      have hOwed : owedNext (next :: tail) next = 1 := by simp [owedNext]
      omega
    · have hOwed : owedNext (next :: tail) other = 0 := by simp [owedNext, Ne.symm hne]
      rw [hOther other hne]
      omega
  · intro other hActive
    obtain ⟨hAddedOther, hNonempty, hZero⟩ := inv.active other hActive
    have hne : other ≠ next := by
      rintro rfl
      rw [hWaiting] at hActive
      exact hActive
    exact ⟨hAddedOther, hNonempty, by rw [hOther other hne, hZero]⟩
  · intro other hm
    rcases (hMem other).mp hm with hm | ⟨rfl, hOne⟩
    · obtain ⟨hAddedOther, hWaitingOther, hZero⟩ := inv.ready_mem other hm
      have hne : other ≠ next := by
        rintro rfl
        omega
      exact ⟨hAddedOther, hWaitingOther, by rw [hOther other hne, hZero]⟩
    · exact ⟨hAdded, hWaiting, by omega⟩
  · have hNodup := inv.ready_nodup
    rcases released with ⟨_, rfl⟩ | ⟨_, rfl | rfl⟩
    · exact hNodup
    · change (ds.readyQueue ++ [next] ++ ds.pruneReadyQueue).Nodup
      rw [append_assoc, singleton_append, nodup_middle, nodup_cons]
      exact ⟨by simp [hFresh], hNodup⟩
    · change (ds.readyQueue ++ (ds.pruneReadyQueue ++ [next])).Nodup
      rw [← append_assoc, nodup_append_comm, singleton_append, nodup_cons]
      exact ⟨by simp [hFresh], hNodup⟩
  · intro other hAddedOther hNonempty hWaitingOther hZero
    rw [hMem]
    by_cases hne : other = next
    · subst other
      exact Or.inr ⟨rfl, by omega⟩
    · rw [hOther other hne] at hZero
      exact Or.inl (inv.ready_of_zero other hAddedOther hNonempty hWaitingOther hZero)
  · intro other
    rcases released with ⟨_, rfl⟩ | ⟨_, rfl | rfl⟩
    · exact inv.inReady_iff other
    · change update ds.inReady next true other = true ↔ other ∈ ds.readyQueue ++ [next]
      by_cases hne : other = next
      · simp [hne]
      · rw [update_of_ne hne, inv.inReady_iff]
        simp [hne]
    · exact inv.inReady_iff other
  · intro other
    rcases released with ⟨_, rfl⟩ | ⟨_, rfl | rfl⟩
    · exact inv.inPruneReady_iff other
    · exact inv.inPruneReady_iff other
    · change update ds.inPruneReady next true other = true ↔ other ∈ ds.pruneReadyQueue ++ [next]
      by_cases hne : other = next
      · simp [hne]
      · rw [update_of_ne hne, inv.inPruneReady_iff]
        simp [hne]

/-- The fields that no method touches once the transactions are added, and the
queues, in which `txID` has left the given keys. -/
structure Left (txID : String) (keys : List String) (ds ds' : DepurgeScheduler) : Prop where
  executed : ds'.txExecuted = ds.txExecuted
  keyMap : ds'.txKeyMap = ds.txKeyMap
  queues : ∀ key, (ds'.keyQueues key).ids =
    if key ∈ keys then (ds.keyQueues key).ids.erase txID else (ds.keyQueues key).ids

theorem Left.refl (txID : String) (ds : DepurgeScheduler) : Left txID [] ds ds where
  executed := rfl
  keyMap := rfl
  queues := by simp

variable {ds'' : DepurgeScheduler}

theorem Left.trans {keys keys' : List String} {ds : DepurgeScheduler}
    (first : Left txID keys ds ds') (second : Left txID keys' ds' ds'') :
    Left txID (keys ++ keys') ds ds'' where
  executed := second.executed.trans first.executed
  keyMap := second.keyMap.trans first.keyMap
  queues := by
    intro key
    rw [second.queues, first.queues]
    by_cases hKey : key ∈ keys
    · have hGone : txID ∉ (ds.keyQueues key).ids.erase txID := by
        rw [(ds.keyQueues key).nodup_ids.mem_erase_iff]
        exact fun h => h.1 rfl
      simp [hKey, erase_of_not_mem hGone]
    · simp [hKey]

/-- The same with the queues themselves: they are those without `txID`. -/
structure Departed (txID : String) (keys : List String) (ds ds' : DepurgeScheduler) : Prop
    extends Left txID keys ds ds' where
  removed : ∀ key, ds'.keyQueues key =
    if key ∈ keys then ((ds.keyQueues key).remove txID).1 else ds.keyQueues key

theorem Departed.refl (txID : String) (ds : DepurgeScheduler) : Departed txID [] ds ds :=
  ⟨Left.refl txID ds, by simp⟩

theorem Departed.trans {keys keys' : List String} {ds : DepurgeScheduler}
    (first : Departed txID keys ds ds') (second : Departed txID keys' ds' ds'') :
    Departed txID (keys ++ keys') ds ds'' where
  toLeft := first.toLeft.trans second.toLeft
  removed := by
    intro key
    rw [second.removed, first.removed]
    by_cases hKey : key ∈ keys
    · have hGone : txID ∉ ((ds.keyQueues key).remove txID).1.ids := by
        rw [TransactionQueue.ids_remove, (ds.keyQueues key).nodup_ids.mem_erase_iff]
        exact fun h => h.1 rfl
      simp [hKey, TransactionQueue.remove_of_not_mem _ hGone]
    · simp [hKey]

theorem Departed.of_not_mem (h : txID ∉ (ds.keyQueues key).ids) : Departed txID [key] ds ds where
  executed := rfl
  keyMap := rfl
  queues := by
    intro other
    by_cases hKey : other = key
    · subst other
      simp [erase_of_not_mem h]
    · simp [hKey]
  removed := by
    intro other
    by_cases hKey : other = key
    · subst other
      simp [TransactionQueue.remove_of_not_mem _ h]
    · simp [hKey]

theorem departed_setQueue (ds : DepurgeScheduler) (txID key : String) :
    Departed txID [key] ds (ds.setQueue key ((ds.keyQueues key).remove txID).1) where
  executed := rfl
  keyMap := rfl
  queues := by
    intro other
    rw [setQueue_ids]
    by_cases hKey : other = key
    · subst other
      simp [TransactionQueue.ids_remove]
    · simp [hKey]
  removed := by
    intro other
    by_cases hKey : other = key
    · subst other
      simp [setQueue]
    · simp [setQueue, hKey]

/-- A release touches neither the queues nor what is recorded of the transactions. -/
theorem Departed.release {next : String} {keys : List String} (departed : Departed txID keys ds ds')
    (released : Released ds' next ds'') :
    Departed txID keys ds ds'' := by
  rcases released with ⟨_, rfl⟩ | ⟨_, rfl | rfl⟩
  all_goals exact ⟨⟨departed.executed, departed.keyMap, departed.queues⟩, departed.removed⟩

variable {realKeys : List String}

theorem Consistent.leave {release : DepurgeScheduler → String → DepurgeScheduler}
    (releasing : Releasing release) (inv : Consistent added phase (fun _ => 0) ds)
    (hPhase : phase txID = .pruned realKeys) (hReal : key ∉ realKeys)
    (hm : txID ∈ (ds.keyQueues key).ids)
    (hExecuted : ∀ other, other ≠ txID → ds.txExecuted other = true → phase other = .finished)
    {queue : TransactionQueue} (hRemove : queue = ((ds.keyQueues key).remove txID).1) :
    Consistent added phase (fun _ => 0) (release (ds.setQueue key queue) queue.front) ∧
      Departed txID [key] ds (release (ds.setQueue key queue) queue.front) := by
  have hActive : (phase txID).Active := by
    rw [hPhase]
    trivial
  obtain ⟨rest, hIds⟩ := inv.ids_of_active hActive hm
  have hRest : queue.ids = rest := by
    rw [hRemove, TransactionQueue.ids_remove, hIds, erase_cons_head]
  have hLeft := departed_setQueue ds txID key
  rw [← hRemove] at hLeft
  have hDebt := inv.leaveFront queue realKeys hPhase hReal hIds hRest
  cases rest with
  | nil =>
    have hFront : queue.front = "" := by rw [TransactionQueue.front_eq, hRest, headD_nil]
    rw [hFront, releasing.empty]
    refine ⟨?_, hLeft⟩
    have hNone : owedNext [] = fun _ => 0 := by
      funext other
      simp [owedNext]
    rwa [hNone] at hDebt
  | cons next tail =>
    have hFront : queue.front = next := by rw [TransactionQueue.front_eq, hRest, headD_cons]
    have hNextMem : next ∈ (ds.keyQueues key).ids := by
      rw [hIds]
      exact mem_cons_of_mem _ mem_cons_self
    obtain ⟨hAdded, _, hPhaseNext⟩ := inv.queue_mem key next hNextMem
    have hne : next ≠ txID := by
      rintro rfl
      have hNodup := (ds.keyQueues key).nodup_ids
      rw [hIds] at hNodup
      exact (nodup_cons.mp hNodup).1 mem_cons_self
    have hNonempty : next ≠ "" := by
      rintro rfl
      refine inv.queue_named key ?_
      rw [hIds]
      exact mem_cons_self
    have hNotExecuted : ds.txExecuted next = false := by
      cases hNext : ds.txExecuted next with
      | false => rfl
      | true => exact absurd (hExecuted next hne hNext) hPhaseNext
    obtain ⟨_, _, hFresh⟩ := hDebt.next_waiting hAdded hPhaseNext
    rw [mem_append, not_or] at hFresh
    have released := releasing.next (ds.setQueue key queue) next hNonempty hNotExecuted
      (Bool.eq_false_iff.mpr fun h => hFresh.1 ((hDebt.inReady_iff next).mp h))
      (Bool.eq_false_iff.mpr fun h => hFresh.2 ((hDebt.inPruneReady_iff next).mp h))
    rw [hFront]
    exact ⟨hDebt.settle hAdded hPhaseNext released, hLeft.release released⟩

theorem Consistent.finishKey {release : DepurgeScheduler → String → DepurgeScheduler}
    (releasing : Releasing release) (inv : Consistent added phase (fun _ => 0) ds)
    (hPhase : phase txID = .pruned [])
    (hExecuted : ∀ other, other ≠ txID → ds.txExecuted other = true → phase other = .finished)
    (key : String) :
    Consistent added phase (fun _ => 0) (finishKey release txID ds key) ∧
      Departed txID [key] ds (DepurgeScheduler.finishKey release txID ds key) := by
  have hActive : (phase txID).Active := by
    rw [hPhase]
    trivial
  unfold DepurgeScheduler.finishKey
  by_cases hm : txID ∈ (ds.keyQueues key).ids
  · have hFront := inv.front_of_active hActive hm
    simp only [hFront, if_true, setQueue_keyQueues_self]
    exact inv.leave releasing hPhase not_mem_nil hm hExecuted
      ((ds.keyQueues key).pop_eq_remove hm hFront)
  · have hFront : (ds.keyQueues key).front ≠ txID := by
      rw [TransactionQueue.front_eq]
      cases hIds : (ds.keyQueues key).ids with
      | nil => exact (inv.active txID hActive).2.1.symm
      | cons head rest =>
        rintro rfl
        exact hm (by rw [hIds]; exact mem_cons_self)
    simp only [hFront, if_false]
    exact ⟨inv, .of_not_mem hm⟩

theorem Consistent.finishKeys {release : DepurgeScheduler → String → DepurgeScheduler}
    (releasing : Releasing release) (inv : Consistent added phase (fun _ => 0) ds)
    (hPhase : phase txID = .pruned [])
    (hExecuted : ∀ other, other ≠ txID → ds.txExecuted other = true → phase other = .finished)
    (keys : List String) :
    Consistent added phase (fun _ => 0) (keys.foldl (DepurgeScheduler.finishKey release txID) ds) ∧
      Departed txID keys ds (keys.foldl (DepurgeScheduler.finishKey release txID) ds) := by
  induction keys generalizing ds with
  | nil => exact ⟨inv, .refl txID ds⟩
  | cons key rest ih =>
    obtain ⟨hInv, hLeft⟩ := inv.finishKey releasing hPhase hExecuted key
    obtain ⟨hInvRest, hLeftRest⟩ := ih hInv (by rwa [hLeft.executed])
    exact ⟨hInvRest, hLeft.trans hLeftRest⟩

theorem Consistent.pruneKey (inv : Consistent added phase (fun _ => 0) ds) {held : List String}
    (hPhase : phase txID = .pruned held) (hHeld : held ⊆ realKeys)
    (hExecuted : ∀ other, other ≠ txID → ds.txExecuted other = true → phase other = .finished)
    (key : String) :
    Consistent added phase (fun _ => 0) (pruneKey realKeys txID ds key) ∧
      Departed txID (if key ∈ realKeys then [] else [key]) ds
        (DepurgeScheduler.pruneKey realKeys txID ds key) := by
  have hActive : (phase txID).Active := by
    rw [hPhase]
    trivial
  unfold DepurgeScheduler.pruneKey
  by_cases hReal : key ∈ realKeys
  · rw [if_neg (not_not.mpr hReal), if_pos hReal]
    exact ⟨inv, .refl txID ds⟩
  rw [if_pos hReal, if_neg hReal]
  by_cases hm : txID ∈ (ds.keyQueues key).ids
  · simp only [(TransactionQueue.contains_iff _ _).mpr hm, inv.front_of_active hActive hm,
      if_true, setQueue_keyQueues_self]
    exact inv.leave releasing_releasePruneReady hPhase (fun h => hReal (hHeld h)) hm hExecuted rfl
  · have hContains : ¬ (ds.keyQueues key).contains txID = true :=
      fun h => hm ((TransactionQueue.contains_iff _ _).mp h)
    simp only [hContains]
    exact ⟨inv, .of_not_mem hm⟩

/-- The whole loop of `Prune`: exactly the keys outside `realKeys` are left. -/
theorem Consistent.pruneKeys (inv : Consistent added phase (fun _ => 0) ds) {held : List String}
    (hPhase : phase txID = .pruned held) (hHeld : held ⊆ realKeys)
    (hExecuted : ∀ other, other ≠ txID → ds.txExecuted other = true → phase other = .finished)
    (keys : List String) :
    Consistent added phase (fun _ => 0) (keys.foldl (DepurgeScheduler.pruneKey realKeys txID) ds) ∧
      Departed txID (keys.filter (· ∉ realKeys)) ds
        (keys.foldl (DepurgeScheduler.pruneKey realKeys txID) ds) := by
  induction keys generalizing ds with
  | nil => exact ⟨inv, .refl txID ds⟩
  | cons key rest ih =>
    obtain ⟨hInv, hLeft⟩ := inv.pruneKey hPhase hHeld hExecuted key
    obtain ⟨hInvRest, hLeftRest⟩ := ih hInv (by rwa [hLeft.executed])
    refine ⟨hInvRest, ?_⟩
    have hAll := hLeft.trans hLeftRest
    by_cases hReal : key ∈ realKeys
    · simpa [hReal] using hAll
    · simpa [hReal] using hAll

/-- A transaction in flight may move to a phase that guarantees fewer queues. -/
theorem Consistent.rephase (inv : Consistent added phase owed ds) (next : Phase)
    (hActive : (phase txID).Active) (hNext : next.Active)
    (hHolds : ∀ key, next.Holds (ds.txKeyMap txID) key → (phase txID).Holds (ds.txKeyMap txID) key)
    :
    Consistent added (update phase txID next) owed ds := by
  have hFinished : ∀ other, update phase txID next other ≠ .finished ↔ phase other ≠ .finished := by
    intro other
    by_cases hne : other = txID
    · subst other
      rw [update_self]
      constructor
      · intro _ h
        rw [h] at hActive
        exact hActive
      · intro _ h
        rw [h] at hNext
        exact hNext
    · rw [update_of_ne hne]
  have hWaiting : ∀ other, update phase txID next other = .waiting ↔ phase other = .waiting := by
    intro other
    by_cases hne : other = txID
    · subst other
      rw [update_self]
      constructor
      · intro h
        rw [h] at hNext
        exact hNext.elim
      · intro h
        rw [h] at hActive
        exact hActive.elim
    · rw [update_of_ne hne]
  refine ⟨inv.keys_nodup, inv.queue_named, ?_, ?_, ?_, ?_, ?_, inv.ready_nodup, ?_,
    inv.inReady_iff, inv.inPruneReady_iff⟩
  · intro key other hm
    obtain ⟨hAdded, hKey, hPhase⟩ := inv.queue_mem key other hm
    exact ⟨hAdded, hKey, (hFinished other).mpr hPhase⟩
  · intro other hAdded key hHold
    apply inv.queue_holds other hAdded key
    by_cases hne : other = txID
    · subst other
      rw [update_self] at hHold
      exact hHolds key hHold
    · rwa [update_of_ne hne] at hHold
  · intro other hAdded hPhase
    exact inv.count other hAdded ((hFinished other).mp hPhase)
  · intro other hOther
    apply inv.active other
    by_cases hne : other = txID
    · subst other
      exact hActive
    · rwa [update_of_ne hne] at hOther
  · intro other hm
    obtain ⟨hAdded, hPhase, hZero⟩ := inv.ready_mem other hm
    exact ⟨hAdded, (hWaiting other).mpr hPhase, hZero⟩
  · intro other hAdded hNonempty hPhase hZero
    exact inv.ready_of_zero other hAdded hNonempty ((hWaiting other).mp hPhase) hZero

theorem Consistent.toFinished (inv : Consistent added phase owed ds) (hActive : (phase txID).Active)
    (hGone : ∀ key, txID ∉ (ds.keyQueues key).ids) :
    Consistent added (update phase txID .finished) owed ds := by
  have hOther : ∀ other, update phase txID .finished other ≠ .finished →
      other ≠ txID ∧ update phase txID .finished other = phase other := by
    intro other hPhase
    have hne : other ≠ txID := by
      rintro rfl
      exact hPhase (update_self ..)
    exact ⟨hne, update_of_ne hne ..⟩
  refine ⟨inv.keys_nodup, inv.queue_named, ?_, ?_, ?_, ?_, ?_, inv.ready_nodup, ?_,
    inv.inReady_iff, inv.inPruneReady_iff⟩
  · intro key other hm
    obtain ⟨hAdded, hKey, hPhase⟩ := inv.queue_mem key other hm
    refine ⟨hAdded, hKey, ?_⟩
    have hne : other ≠ txID := fun he => hGone key (he ▸ hm)
    rwa [update_of_ne hne]
  · intro other hAdded key hHold
    have hPhase : update phase txID .finished other ≠ .finished := by
      intro h
      rw [h] at hHold
      exact hHold
    rw [(hOther other hPhase).2] at hHold
    exact inv.queue_holds other hAdded key hHold
  · intro other hAdded hPhase
    exact inv.count other hAdded ((hOther other hPhase).2 ▸ hPhase)
  · intro other hAct
    have hPhase : update phase txID .finished other ≠ .finished := by
      intro h
      rw [h] at hAct
      exact hAct
    rw [(hOther other hPhase).2] at hAct
    exact inv.active other hAct
  · intro other hm
    obtain ⟨hAdded, hPhase, hZero⟩ := inv.ready_mem other hm
    have hne : other ≠ txID := by
      rintro rfl
      rw [hPhase] at hActive
      exact hActive
    exact ⟨hAdded, by rwa [update_of_ne hne], hZero⟩
  · intro other hAdded hNonempty hPhase hZero
    have hNot : update phase txID .finished other ≠ .finished := by
      rw [hPhase]
      exact Phase.noConfusion
    rw [(hOther other hNot).2] at hPhase
    exact inv.ready_of_zero other hAdded hNonempty hPhase hZero

/-- `Execute` or `Abort` of a transaction in flight. It leaves every queue. -/
theorem Consistent.finish {release : DepurgeScheduler → String → DepurgeScheduler}
    (releasing : Releasing release) (inv : Consistent added phase (fun _ => 0) ds)
    (hActive : (phase txID).Active)
    (hExecuted : ∀ other, ds.txExecuted other = true ↔ phase other = .finished) :
    Consistent added (update phase txID .finished) (fun _ => 0) (finish release ds txID) ∧
      (DepurgeScheduler.finish release ds txID).txExecuted = update ds.txExecuted txID true ∧
      (DepurgeScheduler.finish release ds txID).txKeyMap = ds.txKeyMap ∧
      ∀ key, (DepurgeScheduler.finish release ds txID).keyQueues key =
        ((ds.keyQueues key).remove txID).1 := by
  have hNot : ds.txExecuted txID = false := by
    cases hEx : ds.txExecuted txID with
    | false => rfl
    | true =>
      rw [(hExecuted txID).mp hEx] at hActive
      exact hActive.elim
  unfold DepurgeScheduler.finish
  rw [hNot]
  let marked : DepurgeScheduler :=
    { ds with txExecuted := update ds.txExecuted txID true }
  have hMarked : Consistent added (update phase txID (.pruned [])) (fun _ => 0) marked := by
    have hRephased := inv.rephase (.pruned []) hActive trivial (fun key h => absurd h.2 not_mem_nil)
    exact ⟨hRephased.keys_nodup, hRephased.queue_named, hRephased.queue_mem,
      hRephased.queue_holds, hRephased.count, hRephased.active, hRephased.ready_mem,
      hRephased.ready_nodup, hRephased.ready_of_zero, hRephased.inReady_iff,
      hRephased.inPruneReady_iff⟩
  have hMarkedExecuted : ∀ other, other ≠ txID → marked.txExecuted other = true →
      update phase txID (.pruned []) other = .finished := by
    intro other hne h
    rw [update_of_ne hne]
    apply (hExecuted other).mp
    rwa [show marked.txExecuted other = ds.txExecuted other from update_of_ne hne ..] at h
  obtain ⟨hInv, hLeft⟩ := hMarked.finishKeys releasing (update_self ..)
    hMarkedExecuted (ds.txKeyMap txID)
  have hQueues : ∀ key, ((ds.txKeyMap txID).foldl
      (DepurgeScheduler.finishKey release txID) marked).keyQueues key =
        ((ds.keyQueues key).remove txID).1 := by
    intro key
    rw [hLeft.removed]
    by_cases hKey : key ∈ ds.txKeyMap txID
    · rw [if_pos hKey]
    · have hNotIn : txID ∉ (ds.keyQueues key).ids := fun hm => hKey (inv.queue_mem key txID hm).2.1
      rw [if_neg hKey, TransactionQueue.remove_of_not_mem _ hNotIn]
  refine ⟨?_, hLeft.executed, hLeft.keyMap, hQueues⟩
  have hEnd := hInv.toFinished (by rw [update_self]; trivial) (by
    intro key hm
    rw [hQueues, TransactionQueue.ids_remove, (ds.keyQueues key).nodup_ids.mem_erase_iff] at hm
    exact hm.1 rfl)
  rwa [update_idem] at hEnd

/-- `Prune` of a transaction in flight. It stays only in the queues of its real keys, and is
only known to be in those of `held`. -/
theorem Consistent.prune (inv : Consistent added phase (fun _ => 0) ds) {held : List String}
    (hHeld : held ⊆ realKeys) (hActive : (phase txID).Active)
    (hHolds : ∀ key, (Phase.pruned held).Holds (ds.txKeyMap txID) key → (phase txID).Holds (ds.txKeyMap txID) key)
    (hExecuted : ∀ other, ds.txExecuted other = true ↔ phase other = .finished) :
    Consistent added (update phase txID (.pruned held)) (fun _ => 0) (ds.Prune txID realKeys) ∧
      Departed txID ((ds.txKeyMap txID).filter (· ∉ realKeys)) ds (ds.Prune txID realKeys) := by
  have hRephased := inv.rephase (.pruned held) hActive trivial hHolds
  refine hRephased.pruneKeys (update_self ..) hHeld ?_ (ds.txKeyMap txID)
  intro other hne hEx
  rw [update_of_ne hne]
  exact (hExecuted other).mp hEx

end Moves

section Ordered

variable {added : List String} {phase : String → Phase} {owed : String → Nat}
  {ds : DepurgeScheduler}

variable {txID : String}

theorem Invariant.front_of_active (inv : Invariant added phase owed ds) {key : String}
    (active : (phase txID).Active) (hm : txID ∈ (ds.keyQueues key).ids) :
    (ds.keyQueues key).front = txID :=
  inv.consistent.front_of_active active hm

theorem Invariant.ids_of_active (inv : Invariant added phase owed ds) {key : String}
    (active : (phase txID).Active) (hm : txID ∈ (ds.keyQueues key).ids) :
    ∃ rest, (ds.keyQueues key).ids = txID :: rest :=
  inv.consistent.ids_of_active active hm

theorem Invariant.shrink (inv : Invariant added phase owed ds) {phase' : String → Phase}
    {owed' : String → Nat} {ds' : DepurgeScheduler} (con : Consistent added phase' owed' ds')
    (hQueues : ∀ key, (ds'.keyQueues key).ids.Sublist (ds.keyQueues key).ids) :
    Invariant added phase' owed' ds' :=
  con.invariant fun key => (inv.queue_sorted key).sublist (hQueues key)

theorem executed_iff_finished
    (hExecuted : ∀ other, ds.txExecuted other = true ↔ phase other = .finished) (other : String) :
    update ds.txExecuted txID true other = true ↔
      update phase txID .finished other = .finished := by
  by_cases hne : other = txID
  · simp [hne]
  · rw [update_of_ne hne, update_of_ne hne]
    exact hExecuted other

theorem Invariant.finish {release : DepurgeScheduler → String → DepurgeScheduler}
    (releasing : Releasing release) (inv : Invariant added phase (fun _ => 0) ds)
    (hActive : (phase txID).Active)
    (hExecuted : ∀ other, ds.txExecuted other = true ↔ phase other = .finished) :
    Invariant added (update phase txID .finished) (fun _ => 0) (finish release ds txID) ∧
      (∀ other, (DepurgeScheduler.finish release ds txID).txExecuted other = true ↔
        update phase txID .finished other = .finished) ∧
      (DepurgeScheduler.finish release ds txID).txKeyMap = ds.txKeyMap ∧
      ∀ key, ((DepurgeScheduler.finish release ds txID).keyQueues key).ids ⊆
        (ds.keyQueues key).ids := by
  obtain ⟨con, hEx, hKeys, hQueues⟩ := inv.consistent.finish releasing hActive hExecuted
  have hSublist : ∀ key, ((DepurgeScheduler.finish release ds txID).keyQueues key).ids.Sublist
      (ds.keyQueues key).ids := by
    intro key
    rw [hQueues, TransactionQueue.ids_remove]
    exact erase_sublist
  refine ⟨inv.shrink con hSublist, ?_, hKeys, fun key => (hSublist key).subset⟩
  rw [hEx]
  exact executed_iff_finished hExecuted

/-- `Prune` of a transaction just popped. It stays only in the queues of its
real keys. -/
theorem Invariant.prune (inv : Invariant added phase (fun _ => 0) ds) (realKeys : List String)
    (hPhase : phase txID = .popped)
    (hExecuted : ∀ other, ds.txExecuted other = true ↔ phase other = .finished) :
    Invariant added (update phase txID (.pruned realKeys)) (fun _ => 0) (ds.Prune txID realKeys) ∧
      (∀ other, (ds.Prune txID realKeys).txExecuted other = true ↔
        update phase txID (.pruned realKeys) other = .finished) ∧
      (ds.Prune txID realKeys).txKeyMap = ds.txKeyMap ∧
      ∀ key, ((ds.Prune txID realKeys).keyQueues key).ids ⊆ (ds.keyQueues key).ids := by
  obtain ⟨con, hLeft⟩ := inv.consistent.prune (List.Subset.refl realKeys)
    (Phase.active_of_popped hPhase) (fun key h => by rw [hPhase]; exact h.1) hExecuted
  have hSublist : ∀ key, ((ds.Prune txID realKeys).keyQueues key).ids.Sublist
      (ds.keyQueues key).ids := by
    intro key
    rw [hLeft.queues]
    split
    · exact erase_sublist
    · exact List.Sublist.refl _
  refine ⟨inv.shrink con hSublist, ?_, hLeft.keyMap, fun key => (hSublist key).subset⟩
  intro other
  rw [hLeft.executed, hExecuted]
  by_cases hne : other = txID
  · subst other
    simp [hPhase]
  · rw [update_of_ne hne]

end Ordered
end DepurgeScheduler
end Nezha
