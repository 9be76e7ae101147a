import NezhaConcurrency.Core.DepurgeSetup

/-! Every interleaving of atomic scheduler calls in which a transaction is
popped first and then finished by its popper: by `Abort`, or by `Execute` after
at most one `Prune`. Calls of different transactions interleave freely. -/
namespace Nezha

open DepurgeScheduler Function List

namespace DepurgeScheduler

variable {added : List String} {phase : String → Phase} {ds : DepurgeScheduler}

theorem PopReady_fields (ds : DepurgeScheduler) :
    ds.PopReady.1.txExecuted = ds.txExecuted ∧ ds.PopReady.1.txKeyMap = ds.txKeyMap ∧
      ds.PopReady.1.keyQueues = ds.keyQueues := by
  unfold PopReady
  split <;> exact ⟨rfl, rfl, rfl⟩

theorem PopPruneReady_fields (ds : DepurgeScheduler) :
    ds.PopPruneReady.1.txExecuted = ds.txExecuted ∧ ds.PopPruneReady.1.txKeyMap = ds.txKeyMap ∧
      ds.PopPruneReady.1.keyQueues = ds.keyQueues := by
  unfold PopPruneReady
  split <;> exact ⟨rfl, rfl, rfl⟩

/-- Taking one transaction off either ready list. The empty ID is what the two
pop methods return for an empty list, so a transaction of that name is dropped
without being seen by the caller. -/
theorem Consistent.take (inv : Consistent added phase (fun _ => 0) ds) {txID : String}
    {ds' : DepurgeScheduler} (hQueues : ds'.keyQueues = ds.keyQueues)
    (hKeys : ds'.txKeyMap = ds.txKeyMap) (hCount : ds'.txReadyCount = ds.txReadyCount)
    (hPerm : (ds.readyQueue ++ ds.pruneReadyQueue).Perm
      (txID :: (ds'.readyQueue ++ ds'.pruneReadyQueue)))
    (hReady : ∀ other, ds'.inReady other = true ↔ other ∈ ds'.readyQueue)
    (hPrune : ∀ other, ds'.inPruneReady other = true ↔ other ∈ ds'.pruneReadyQueue) :
    Consistent added (if txID = "" then phase else update phase txID .popped) (fun _ => 0) ds' := by
  have hNodup := nodup_cons.mp (hPerm.nodup_iff.mp inv.ready_nodup)
  obtain ⟨hAdded, hWaiting, hZero⟩ := inv.ready_mem txID (hPerm.mem_iff.mpr mem_cons_self)
  have hRest : ∀ other ∈ ds'.readyQueue ++ ds'.pruneReadyQueue,
      other ≠ txID ∧ other ∈ ds.readyQueue ++ ds.pruneReadyQueue := by
    intro other hm
    exact ⟨fun he => hNodup.1 (he ▸ hm), hPerm.mem_iff.mpr (mem_cons_of_mem _ hm)⟩
  have hBack : ∀ other ∈ ds.readyQueue ++ ds.pruneReadyQueue, other ≠ txID →
      other ∈ ds'.readyQueue ++ ds'.pruneReadyQueue := by
    intro other hm hne
    rcases mem_cons.mp (hPerm.mem_iff.mp hm) with he | hm
    · exact absurd he hne
    · exact hm
  have hBlocked : ∀ other, ds'.blockedCount other = ds.blockedCount other := by
    intro other
    unfold blockedCount
    rw [hKeys]
    apply countP_congr
    intro key _
    rw [decide_eq_true_eq, decide_eq_true_eq, Blocked, Blocked, hQueues]
  generalize hPhase' : (if txID = "" then phase else update phase txID .popped) = phase'
  have hOther : ∀ other, other ≠ txID → phase' other = phase other := by
    intro other hne
    rw [← hPhase']
    split
    · rfl
    · exact update_of_ne hne ..
  have hSelf : (txID = "" ∧ phase' txID = .waiting) ∨ (txID ≠ "" ∧ phase' txID = .popped) := by
    rw [← hPhase']
    by_cases hEmpty : txID = ""
    · exact Or.inl ⟨hEmpty, by rw [if_pos hEmpty, hWaiting]⟩
    · exact Or.inr ⟨hEmpty, by rw [if_neg hEmpty, update_self]⟩
  refine ⟨?_, ?_, ?_, ?_, ?_, ?_, ?_, hNodup.2, ?_, hReady, hPrune⟩
  · rw [hKeys]
    exact inv.keys_nodup
  · rw [hQueues]
    exact inv.queue_named
  · intro key other hm
    rw [hQueues] at hm
    obtain ⟨hAddedOther, hKey, hPhase⟩ := inv.queue_mem key other hm
    refine ⟨hAddedOther, by rwa [hKeys], ?_⟩
    by_cases hne : other = txID
    · subst other
      rcases hSelf with ⟨_, h⟩ | ⟨_, h⟩ <;> rw [h] <;> exact Phase.noConfusion
    · rwa [hOther other hne]
  · intro other hAddedOther key hHolds
    rw [hQueues]
    rw [hKeys] at hHolds
    apply inv.queue_holds other hAddedOther key
    by_cases hne : other = txID
    · subst other
      rw [hWaiting]
      rcases hSelf with ⟨_, h⟩ | ⟨_, h⟩ <;> rw [h] at hHolds <;> exact hHolds
    · rwa [hOther other hne] at hHolds
  · intro other hAddedOther hPhase
    rw [hBlocked, hCount]
    apply inv.count other hAddedOther
    by_cases hne : other = txID
    · subst other
      rw [hWaiting]
      exact Phase.noConfusion
    · rwa [hOther other hne] at hPhase
  · intro other hActive
    rw [hCount]
    by_cases hne : other = txID
    · subst other
      rcases hSelf with ⟨_, h⟩ | ⟨hEmpty, _⟩
      · rw [h] at hActive
        exact hActive.elim
      · exact ⟨hAdded, hEmpty, hZero⟩
    · rw [hOther other hne] at hActive
      exact inv.active other hActive
  · intro other hm
    obtain ⟨hne, hm⟩ := hRest other hm
    rw [hOther other hne, hCount]
    exact inv.ready_mem other hm
  · intro other hAddedOther hNonempty hPhase hZeroOther
    rw [hCount] at hZeroOther
    have hne : other ≠ txID := by
      rintro rfl
      rcases hSelf with ⟨hEmpty, _⟩ | ⟨_, h⟩
      · exact hNonempty hEmpty
      · rw [h] at hPhase
        cases hPhase
    rw [hOther other hne] at hPhase
    exact hBack other (inv.ready_of_zero other hAddedOther hNonempty hPhase hZeroOther) hne

/-- `PopReady` returns nothing and changes nothing, or takes one transaction. -/
theorem Consistent.popReady (inv : Consistent added phase (fun _ => 0) ds) : Consistent added
      (if ds.PopReady.2 = "" then phase else update phase ds.PopReady.2 .popped)
      (fun _ => 0) ds.PopReady.1 := by
  cases hList : ds.readyQueue with
  | nil => simpa [PopReady, hList] using inv
  | cons txID rest =>
    have hNodup := inv.ready_nodup
    rw [hList, cons_append, nodup_cons] at hNodup
    have hPop : ds.PopReady = ({ ds with
        readyQueue := rest, inReady := update ds.inReady txID false }, txID) := by
      unfold PopReady
      rw [hList]
    rw [hPop]
    refine inv.take rfl rfl rfl ?_ ?_ inv.inPruneReady_iff
    · rw [hList, cons_append]
    · intro other
      change update ds.inReady txID false other = true ↔ other ∈ rest
      by_cases hne : other = txID
      · subst other
        rw [update_self]
        exact ⟨fun h => absurd h Bool.false_ne_true, fun h => absurd (mem_append_left _ h) hNodup.1⟩
      · rw [update_of_ne hne, inv.inReady_iff, hList, mem_cons]
        simp [hne]

theorem Consistent.popPruneReady (inv : Consistent added phase (fun _ => 0) ds) : Consistent added
      (if ds.PopPruneReady.2 = "" then phase
        else update phase ds.PopPruneReady.2 .popped)
      (fun _ => 0) ds.PopPruneReady.1 := by
  cases hList : ds.pruneReadyQueue with
  | nil => simpa [PopPruneReady, hList] using inv
  | cons txID rest =>
    have hNodup := inv.ready_nodup
    rw [hList, nodup_middle, nodup_cons] at hNodup
    have hPop : ds.PopPruneReady = ({ ds with
        pruneReadyQueue := rest
        inPruneReady := update ds.inPruneReady txID false }, txID) := by
      unfold PopPruneReady
      rw [hList]
    rw [hPop]
    refine inv.take rfl rfl rfl ?_ inv.inReady_iff ?_
    · rw [hList]
      exact perm_middle
    · intro other
      change update ds.inPruneReady txID false other = true ↔ other ∈ rest
      by_cases hne : other = txID
      · subst other
        rw [update_self]
        exact ⟨fun h => absurd h Bool.false_ne_true,
          fun h => absurd (mem_append_right _ h) hNodup.1⟩
      · rw [update_of_ne hne, inv.inPruneReady_iff, hList, mem_cons]
        simp [hne]

theorem Invariant.popReady (inv : Invariant added phase (fun _ => 0) ds) : Invariant added
      (if ds.PopReady.2 = "" then phase else update phase ds.PopReady.2 .popped)
      (fun _ => 0) ds.PopReady.1 := by
  refine inv.shrink inv.consistent.popReady fun key => ?_
  rw [(PopReady_fields ds).2.2]

theorem Invariant.popPruneReady (inv : Invariant added phase (fun _ => 0) ds) : Invariant added
      (if ds.PopPruneReady.2 = "" then phase
        else update phase ds.PopPruneReady.2 .popped)
      (fun _ => 0) ds.PopPruneReady.1 := by
  refine inv.shrink inv.consistent.popPruneReady fun key => ?_
  rw [(PopPruneReady_fields ds).2.2]

theorem PopReady_mem (ds : DepurgeScheduler) (h : ds.PopReady.2 ≠ "") :
    ds.PopReady.2 ∈ ds.readyQueue ++ ds.pruneReadyQueue := by
  cases hList : ds.readyQueue with
  | nil => simp [PopReady, hList] at h
  | cons txID rest => simp [PopReady, hList]

theorem PopPruneReady_mem (ds : DepurgeScheduler) (h : ds.PopPruneReady.2 ≠ "") :
    ds.PopPruneReady.2 ∈ ds.readyQueue ++ ds.pruneReadyQueue := by
  cases hList : ds.pruneReadyQueue with
  | nil => simp [PopPruneReady, hList] at h
  | cons txID rest => simp [PopPruneReady, hList]

end DepurgeScheduler

/-- A scheduler together with what its callers have done so far. `pops` lists
the transactions returned by the two pop methods, in that order. -/
structure Session where
  scheduler : DepurgeScheduler
  phase : String → Phase
  pops : List String

namespace Session

def init (contexts : List TransactionContext) : Session where
  scheduler := Depurge_schedule contexts
  phase := fun _ => .waiting
  pops := []

/-- The caller of a pop method gets a transaction, or the empty ID. -/
def pop (s : Session) (result : DepurgeScheduler × String) : Session where
  scheduler := result.1
  phase := if result.2 = "" then s.phase else update s.phase result.2 .popped
  pops := if result.2 = "" then s.pops else s.pops ++ [result.2]

def popReady (s : Session) : Session := s.pop s.scheduler.PopReady

def popPruneReady (s : Session) : Session := s.pop s.scheduler.PopPruneReady

def prune (s : Session) (txID : String) (realKeys : List String) : Session :=
  { s with
    scheduler := s.scheduler.Prune txID realKeys
    phase := update s.phase txID (.pruned realKeys) }

def execute (s : Session) (txID : String) : Session :=
  { s with
    scheduler := s.scheduler.Execute txID
    phase := update s.phase txID .finished }

def abort (s : Session) (txID : String) : Session :=
  { s with
    scheduler := s.scheduler.Abort txID
    phase := update s.phase txID .finished }

/-- One atomic call. -/
inductive Step : Session → Session → Prop where
  | popReady (s : Session) : Step s s.popReady
  | popPruneReady (s : Session) : Step s s.popPruneReady
  | prune (s : Session) (txID : String) (realKeys : List String)
      (h : s.phase txID = .popped) : Step s (s.prune txID realKeys)
  | execute (s : Session) (txID : String) (h : (s.phase txID).Active) : Step s (s.execute txID)
  | abort (s : Session) (txID : String) (h : s.phase txID = .popped) : Step s (s.abort txID)

def Reachable (contexts : List TransactionContext) (s : Session) : Prop :=
  Relation.ReflTransGen Step (init contexts) s

/-- The scheduler's invariant together with the bookkeeping of the session.
The transactions and their keys are those of the start. -/
structure Invariant (start : DepurgeScheduler) (added : List String) (s : Session) : Prop where
  scheduler : s.scheduler.Invariant added s.phase fun _ => 0
  executed : ∀ txID, s.scheduler.txExecuted txID = true ↔ s.phase txID = .finished
  keyMap : s.scheduler.txKeyMap = start.txKeyMap
  known : ∀ txID, s.phase txID ≠ .waiting → txID ∈ added ∧ txID ≠ ""
  pops_iff : ∀ txID, txID ∈ s.pops ↔ s.phase txID ≠ .waiting
  pops_nodup : s.pops.Nodup

section Preservation

variable {start : DepurgeScheduler} {added : List String} {s : Session}

theorem Invariant.pop (inv : s.Invariant start added) {result : DepurgeScheduler × String}
    (hSched : result.1.Invariant added
      (if result.2 = "" then s.phase else update s.phase result.2 .popped) fun _ => 0)
    (hFields : result.1.txExecuted = s.scheduler.txExecuted ∧
      result.1.txKeyMap = s.scheduler.txKeyMap ∧
      result.1.keyQueues = s.scheduler.keyQueues)
    (hMem : result.2 ≠ "" → result.2 ∈ s.scheduler.readyQueue ++ s.scheduler.pruneReadyQueue) :
    (s.pop result).Invariant start added := by
  by_cases hEmpty : result.2 = ""
  · refine ⟨hSched, ?_, hFields.2.1.trans inv.keyMap, ?_, ?_, ?_⟩
    · simpa [Session.pop, hEmpty, hFields.1] using inv.executed
    · simpa [Session.pop, hEmpty] using inv.known
    · simpa [Session.pop, hEmpty] using inv.pops_iff
    · simpa [Session.pop, hEmpty] using inv.pops_nodup
  · obtain ⟨hAdded, hWaiting, _⟩ := inv.scheduler.ready_mem _ (hMem hEmpty)
    refine ⟨hSched, ?_, hFields.2.1.trans inv.keyMap, ?_, ?_, ?_⟩
    · intro other
      simp only [Session.pop, hEmpty, if_false, hFields.1]
      rw [inv.executed]
      by_cases hne : other = result.2
      · simp [hne, hWaiting]
      · rw [update_of_ne hne]
    · intro other hPhase
      simp only [Session.pop, hEmpty, if_false] at hPhase
      by_cases hne : other = result.2
      · exact ⟨hne ▸ hAdded, hne ▸ hEmpty⟩
      · rw [update_of_ne hne] at hPhase
        exact inv.known other hPhase
    · intro other
      simp only [Session.pop, hEmpty, if_false, mem_append, mem_singleton]
      rw [inv.pops_iff]
      by_cases hne : other = result.2
      · simp [hne]
      · simp [hne]
    · simp only [Session.pop, hEmpty, if_false]
      rw [nodup_append_comm, singleton_append, nodup_cons]
      refine ⟨?_, inv.pops_nodup⟩
      rw [inv.pops_iff]
      exact fun h => h hWaiting

/-- A call on a transaction in flight that keeps the scheduler's invariant
keeps the session's. -/
theorem Invariant.call (inv : s.Invariant start added) {txID : String} {next : Phase}
    {ds : DepurgeScheduler} (hActive : (s.phase txID).Active) (hNext : next ≠ .waiting)
    (hSched : ds.Invariant added (update s.phase txID next) (fun _ => 0) ∧
      (∀ other, ds.txExecuted other = true ↔ update s.phase txID next other = .finished) ∧
      ds.txKeyMap = s.scheduler.txKeyMap ∧
      ∀ key, (ds.keyQueues key).ids ⊆ (s.scheduler.keyQueues key).ids) :
    Invariant start added { s with scheduler := ds, phase := update s.phase txID next } := by
  obtain ⟨hInv, hExecuted, hKeys, _⟩ := hSched
  have hPopped : s.phase txID ≠ .waiting := by
    intro h
    rw [h] at hActive
    exact hActive
  have hWaiting : ∀ other, update s.phase txID next other ≠ .waiting ↔
      s.phase other ≠ .waiting := by
    intro other
    by_cases hne : other = txID
    · subst other
      rw [update_self]
      exact ⟨fun _ => hPopped, fun _ => hNext⟩
    · rw [update_of_ne hne]
  refine ⟨hInv, hExecuted, hKeys.trans inv.keyMap, ?_, ?_, inv.pops_nodup⟩
  · intro other hPhase
    exact inv.known other ((hWaiting other).mp hPhase)
  · intro other
    exact (inv.pops_iff other).trans (hWaiting other).symm

theorem Invariant.step (inv : s.Invariant start added) {s' : Session} (step : Step s s') :
    s'.Invariant start added := by
  cases step with
  | popReady =>
    exact inv.pop inv.scheduler.popReady s.scheduler.PopReady_fields s.scheduler.PopReady_mem
  | popPruneReady =>
    exact inv.pop inv.scheduler.popPruneReady s.scheduler.PopPruneReady_fields
      s.scheduler.PopPruneReady_mem
  | prune txID realKeys h =>
    have hActive := Phase.active_of_popped h
    exact inv.call hActive Phase.noConfusion (inv.scheduler.prune realKeys h inv.executed)
  | execute txID h =>
    exact inv.call h Phase.noConfusion (inv.scheduler.finish releasing_releaseReady h inv.executed)
  | abort txID h =>
    have hActive := Phase.active_of_popped h
    exact inv.call hActive Phase.noConfusion
      (inv.scheduler.finish releasing_releasePruneReady hActive inv.executed)

end Preservation

theorem invariant_init {contexts : List TransactionContext}
    (distinct : (contexts.map TransactionContext.TxID).Nodup) :
    (init contexts).Invariant (Depurge_schedule contexts) (addedIDs contexts) where
  scheduler := invariant_Depurge_schedule distinct
  executed := by
    intro txID
    rw [show (init contexts).scheduler.txExecuted txID = false from
      Depurge_schedule_executed contexts txID]
    exact ⟨fun h => absurd h Bool.false_ne_true, fun h => by cases h⟩
  keyMap := rfl
  known := fun _ h => absurd rfl h
  pops_iff := fun _ => ⟨fun h => absurd h not_mem_nil, fun h => absurd rfl h⟩
  pops_nodup := nodup_nil

/-- The invariant holds along every interleaving. -/
theorem Reachable.invariant {contexts : List TransactionContext} {s : Session}
    (distinct : (contexts.map TransactionContext.TxID).Nodup) (run : Reachable contexts s) :
    s.Invariant (Depurge_schedule contexts) (addedIDs contexts) := by
  induction run with
  | refl => exact invariant_init distinct
  | tail _ last ih => exact ih.step last

section KeyOrder

variable {start : DepurgeScheduler} {added : List String} {s : Session}

/-- While an earlier transaction is in the queue of a key, the later ones that
use the key have not been popped. -/
def KeyOrder (s : Session) : Prop :=
  ∀ key txID later, txID ∈ (s.scheduler.keyQueues key).ids → txID < later →
    key ∈ s.scheduler.txKeyMap later → s.phase later = .waiting

/-- Queues only shrink, and a waiting transaction can only be popped. -/
theorem Invariant.step_waiting (inv : s.Invariant start added) {s' : Session} (step : Step s s') :
    (∀ key, (s'.scheduler.keyQueues key).ids ⊆ (s.scheduler.keyQueues key).ids) ∧
      ∀ txID, s.phase txID = .waiting → s'.phase txID = .waiting ∨ s'.phase txID = .popped := by
  have hPop : ∀ (result : DepurgeScheduler × String) (txID : String), s.phase txID = .waiting →
      (s.pop result).phase txID = .waiting ∨ (s.pop result).phase txID = .popped := by
    intro result txID hWaiting
    simp only [Session.pop]
    split
    · exact Or.inl hWaiting
    · by_cases hne : txID = result.2
      · simp [hne]
      · simp [hne, hWaiting]
  have hCall : ∀ txID next, (s.phase txID).Active → ∀ other, s.phase other = .waiting →
      update s.phase txID next other = .waiting ∨ update s.phase txID next other = .popped := by
    intro txID next hActive other hWaiting
    have hne : other ≠ txID := by
      rintro rfl
      rw [hWaiting] at hActive
      exact hActive
    rw [update_of_ne hne]
    exact Or.inl hWaiting
  cases step with
  | popReady =>
    refine ⟨fun key => ?_, hPop s.scheduler.PopReady⟩
    rw [show s.popReady.scheduler.keyQueues = s.scheduler.keyQueues from
      s.scheduler.PopReady_fields.2.2]
    exact List.Subset.refl _
  | popPruneReady =>
    refine ⟨fun key => ?_, hPop s.scheduler.PopPruneReady⟩
    rw [show s.popPruneReady.scheduler.keyQueues = s.scheduler.keyQueues from
      s.scheduler.PopPruneReady_fields.2.2]
    exact List.Subset.refl _
  | prune txID realKeys h =>
    exact ⟨(inv.scheduler.prune realKeys h inv.executed).2.2.2,
      hCall txID _ (Phase.active_of_popped h)⟩
  | execute txID h =>
    exact ⟨(inv.scheduler.finish releasing_releaseReady h inv.executed).2.2.2, hCall txID _ h⟩
  | abort txID h =>
    have hActive := Phase.active_of_popped h
    exact ⟨(inv.scheduler.finish releasing_releasePruneReady hActive inv.executed).2.2.2,
      hCall txID _ hActive⟩

/-- A transaction that has just been popped is at the front of all its queues. -/
theorem Invariant.le_of_popped (inv : s.Invariant start added) {key txID later : String}
    (hPhase : s.phase later = .popped) (hKey : key ∈ s.scheduler.txKeyMap later)
    (hm : txID ∈ (s.scheduler.keyQueues key).ids) : later ≤ txID := by
  have hActive := Phase.active_of_popped hPhase
  have hHeld : later ∈ (s.scheduler.keyQueues key).ids := by
    apply inv.scheduler.queue_holds later (inv.scheduler.active later hActive).1
    rw [hPhase]
    exact hKey
  obtain ⟨rest, hIds⟩ := inv.scheduler.ids_of_active hActive hHeld
  have hSorted := inv.scheduler.queue_sorted key
  rw [hIds] at hSorted hm
  rcases mem_cons.mp hm with rfl | hRest
  · exact le_refl _
  · exact ((pairwise_cons.mp hSorted).1 txID hRest).le

theorem KeyOrder.step (order : s.KeyOrder) (inv : s.Invariant start added) {s' : Session}
    (step : Step s s') : s'.KeyOrder := by
  intro key txID later hm hLess hKey
  have inv' := inv.step step
  obtain ⟨hSubset, hWaiting⟩ := inv.step_waiting step
  have hBefore : s.phase later = .waiting := by
    apply order key txID later (hSubset key hm) hLess
    rwa [inv.keyMap, ← inv'.keyMap]
  rcases hWaiting later hBefore with h | hPopped
  · exact h
  · exact absurd hLess (inv'.le_of_popped hPopped hKey hm).not_gt

theorem Reachable.keyOrder {contexts : List TransactionContext}
    (distinct : (contexts.map TransactionContext.TxID).Nodup) (run : Reachable contexts s) :
    s.KeyOrder := by
  induction run with
  | refl => exact fun _ _ _ _ _ _ => rfl
  | tail earlier last ih => exact ih.step (Reachable.invariant distinct earlier) last

end KeyOrder

section Consequences

variable {start : DepurgeScheduler} {added : List String} {s : Session}

/-- With nobody in flight, an unfinished transaction exists only if some
smallest one is ready: the front of each of its queues is unfinished, hence not
smaller, hence the transaction itself. -/
theorem Invariant.ready_nonempty (inv : s.Invariant start added)
    (hNonempty : ∀ txID ∈ added, txID ≠ "") (hIdle : ∀ txID, ¬ (s.phase txID).Active)
    {txID : String} (hAdded : txID ∈ added) (hPhase : s.phase txID ≠ .finished) :
    s.scheduler.readyQueue ++ s.scheduler.pruneReadyQueue ≠ [] := by
  have hWaiting : ∀ other, s.phase other ≠ .finished → s.phase other = .waiting := by
    intro other h
    have hNot := hIdle other
    cases hOther : s.phase other with
    | waiting => rfl
    | popped =>
      rw [hOther] at hNot
      exact absurd trivial hNot
    | pruned realKeys =>
      rw [hOther] at hNot
      exact absurd trivial hNot
    | finished => exact absurd hOther h
  let pending := added.toFinset.filter fun other => s.phase other ≠ .finished
  have hPending : pending.Nonempty := ⟨txID, by simp [pending, hAdded, hPhase]⟩
  obtain ⟨hLeastAdded, hLeastPhase⟩ : pending.min' hPending ∈ added ∧
      s.phase (pending.min' hPending) ≠ .finished := by
    have hm := pending.min'_mem hPending
    rwa [Finset.mem_filter, mem_toFinset] at hm
  have hLeast : ∀ other ∈ added, s.phase other ≠ .finished → pending.min' hPending ≤ other := by
    intro other hm h
    exact pending.min'_le other (by simp [pending, hm, h])
  generalize pending.min' hPending = least at hLeastAdded hLeastPhase hLeast
  have hUnblocked : s.scheduler.blockedCount least = 0 := by
    unfold blockedCount
    rw [countP_eq_zero]
    intro key _ hBlocked
    obtain ⟨hm, hFront⟩ := of_decide_eq_true hBlocked
    rw [TransactionQueue.front_eq] at hFront
    have hSorted := inv.scheduler.queue_sorted key
    have hQueued := inv.scheduler.queue_mem key
    cases hIds : (s.scheduler.keyQueues key).ids with
    | nil =>
      rw [hIds] at hm
      cases hm
    | cons head tail =>
      rw [hIds] at hm hFront hSorted
      rcases mem_cons.mp hm with he | hm
      · exact hFront he.symm
      · have hLess := (pairwise_cons.mp hSorted).1 least hm
        obtain ⟨hHeadAdded, _, hHeadPhase⟩ :=
          hQueued head (by rw [hIds]; exact mem_cons_self)
        exact absurd hLess (hLeast head hHeadAdded hHeadPhase).not_gt
  have hZero : s.scheduler.txReadyCount least = 0 := by
    rw [inv.scheduler.count least hLeastAdded hLeastPhase, hUnblocked]
    rfl
  exact ne_nil_of_mem (inv.scheduler.ready_of_zero least hLeastAdded
    (hNonempty least hLeastAdded) (hWaiting least hLeastPhase) hZero)

/-- The ready count is the number of queues in which a transaction is blocked. -/
theorem Invariant.readyCount_eq_ncard (inv : s.Invariant start added) {txID : String}
    (hAdded : txID ∈ added) (hPhase : s.phase txID ≠ .finished) :
    s.scheduler.txReadyCount txID =
      {key | txID ∈ (s.scheduler.keyQueues key).ids ∧
        (s.scheduler.keyQueues key).front ≠ txID}.ncard := by
  have hSet : {key | txID ∈ (s.scheduler.keyQueues key).ids ∧
      (s.scheduler.keyQueues key).front ≠ txID} =
      ((s.scheduler.txKeyMap txID).filter fun key => s.scheduler.Blocked txID key).toFinset := by
    ext key
    simp only [Set.mem_ofPred_eq, coe_toFinset, mem_filter, decide_eq_true_eq]
    constructor
    · intro h
      exact ⟨(inv.scheduler.queue_mem key txID h.1).2.1, h⟩
    · exact fun h => h.2
  rw [hSet, Set.ncard_coe_finset, toFinset_card_of_nodup ((inv.scheduler.keys_nodup txID).filter _),
    ← countP_eq_length_filter]
  exact inv.scheduler.count txID hAdded hPhase

end Consequences

/-- Once nothing is left to pop and nobody is in flight, every transaction is finished. -/
theorem Reachable.finished_of_drained {contexts : List TransactionContext}
    (distinct : (contexts.map TransactionContext.TxID).Nodup)
    (nonempty : ∀ ctx ∈ contexts, ctx.TxID ≠ "") {s : Session} (run : Reachable contexts s)
    (hReady : s.scheduler.GetReadyQueueLen = 0) (hPrune : s.scheduler.GetPruneReadyQueueLen = 0)
    (hIdle : ∀ txID, ¬ (s.phase txID).Active) {ctx : TransactionContext} (hm : ctx ∈ contexts) :
    s.phase ctx.TxID = .finished := by
  have hAdded : ctx.TxID ∈ addedIDs contexts := (mem_addedIDs contexts _).mpr ⟨ctx, hm, rfl⟩
  by_contra hPhase
  apply (run.invariant distinct).ready_nonempty ?_ hIdle hAdded hPhase
  · rw [eq_nil_of_length_eq_zero hReady, eq_nil_of_length_eq_zero hPrune]
    rfl
  · intro other hOther
    obtain ⟨ctx', hm', rfl⟩ := (mem_addedIDs contexts other).mp hOther
    exact nonempty ctx' hm'

/-- No transaction is popped twice. When nothing is left to pop and nobody is
in flight, every transaction has been popped and is marked executed. -/
theorem nothing_lost_nothing_repeated (contexts : List TransactionContext)
    (distinct : (contexts.map TransactionContext.TxID).Nodup)
    (nonempty : ∀ ctx ∈ contexts, ctx.TxID ≠ "") (s : Session)
    (run : Reachable contexts s) :
    s.pops.Nodup ∧ (s.scheduler.GetReadyQueueLen = 0 → s.scheduler.GetPruneReadyQueueLen = 0 →
        (∀ txID, ¬ (s.phase txID).Active) →
        ∀ ctx ∈ contexts, ctx.TxID ∈ s.pops ∧ s.scheduler.IsExecuted ctx.TxID = true) := by
  have inv := run.invariant distinct
  refine ⟨inv.pops_nodup, ?_⟩
  intro hReady hPrune hIdle ctx hm
  have hFinished := run.finished_of_drained distinct nonempty hReady hPrune hIdle hm
  refine ⟨(inv.pops_iff _).mpr ?_, (inv.executed _).mpr hFinished⟩
  rw [hFinished]
  exact Phase.noConfusion

/-- Two transactions that share one key, in an arbitrary order of the map. -/
def twoOnOneKey : List TransactionContext :=
  [⟨"b", [("k", [])], []⟩, ⟨"a", [], [("k", [])]⟩]

/-- Both transactions of `twoOnOneKey` popped and executed in turn. -/
def twoOnOneKeyDone : Session :=
  (((init twoOnOneKey).popReady.execute "a").popReady).execute "b"

theorem reachable_twoOnOneKeyDone : Reachable twoOnOneKey twoOnOneKeyDone := by
  have hFirst : Reachable twoOnOneKey ((init twoOnOneKey).popReady.execute "a") :=
    (Relation.ReflTransGen.single (.popReady _)).tail
      (.execute _ "a" (Phase.active_of_popped (by decide)))
  exact (hFirst.tail (.popReady _)).tail (.execute _ "b" (Phase.active_of_popped (by decide)))

theorem nothing_lost_twoOnOneKey : twoOnOneKeyDone.pops.Nodup ∧
      ∀ ctx ∈ twoOnOneKey, ctx.TxID ∈ twoOnOneKeyDone.pops ∧
        twoOnOneKeyDone.scheduler.IsExecuted ctx.TxID = true := by
  obtain ⟨hNodup, hDone⟩ := nothing_lost_nothing_repeated twoOnOneKey (by decide) (by decide)
    twoOnOneKeyDone reachable_twoOnOneKeyDone
  refine ⟨hNodup, hDone (by decide) (by decide) ?_⟩
  intro txID hActive
  have inv := reachable_twoOnOneKeyDone.invariant (by decide)
  have hAdded := (inv.scheduler.active txID hActive).1
  rw [show addedIDs twoOnOneKey = ["a", "b"] by decide] at hAdded
  rcases mem_cons.mp hAdded with rfl | hm
  · rw [show twoOnOneKeyDone.phase "a" = .finished by decide] at hActive
    exact hActive
  · rw [mem_singleton.mp hm,
      show twoOnOneKeyDone.phase "b" = .finished by decide] at hActive
    exact hActive

/-- The ready count of an unfinished transaction is the number of keys whose
queue holds it behind its front. Transactions in flight are at the front of
their queues, so no queue holds two of them. Queues stay in ID order. -/
theorem ready_count_and_key_exclusion (contexts : List TransactionContext)
    (distinct : (contexts.map TransactionContext.TxID).Nodup) (s : Session)
    (run : Reachable contexts s) :
    (∀ ctx ∈ contexts, s.phase ctx.TxID ≠ .finished → s.scheduler.GetReadyCount ctx.TxID =
        {key | ctx.TxID ∈ (s.scheduler.keyQueues key).ids ∧
          (s.scheduler.keyQueues key).front ≠ ctx.TxID}.ncard) ∧
    (∀ txID, (s.phase txID).Active → ∀ key, txID ∈ (s.scheduler.keyQueues key).ids →
      (s.scheduler.keyQueues key).front = txID) ∧
    (∀ key txID txID', (s.phase txID).Active → (s.phase txID').Active →
      txID ∈ (s.scheduler.keyQueues key).ids → txID' ∈ (s.scheduler.keyQueues key).ids →
      txID = txID') ∧
    (∀ key, (s.scheduler.keyQueues key).ids.Pairwise (· < ·)) := by
  have inv := run.invariant distinct
  refine ⟨?_, ?_, ?_, inv.scheduler.queue_sorted⟩
  · intro ctx hm hPhase
    exact inv.readyCount_eq_ncard ((mem_addedIDs contexts _).mpr ⟨ctx, hm, rfl⟩) hPhase
  · intro txID hActive key hm
    exact inv.scheduler.front_of_active hActive hm
  · intro key txID txID' hActive hActive' hm hm'
    rw [← inv.scheduler.front_of_active hActive hm, inv.scheduler.front_of_active hActive' hm']

/-- While `"a"` is in flight `"b"` is blocked behind it in the one queue. -/
theorem ready_count_twoOnOneKey : (init twoOnOneKey).popReady.scheduler.GetReadyCount "b" = 1 ∧
      {key | "b" ∈ ((init twoOnOneKey).popReady.scheduler.keyQueues key).ids ∧
        ((init twoOnOneKey).popReady.scheduler.keyQueues key).front ≠ "b"}.ncard = 1 := by
  have hCount : (init twoOnOneKey).popReady.scheduler.GetReadyCount "b" = 1 := by decide
  have hRun : Reachable twoOnOneKey (init twoOnOneKey).popReady :=
    Relation.ReflTransGen.single (.popReady _)
  have hKeys := (ready_count_and_key_exclusion twoOnOneKey (by decide) _ hRun).1
    ⟨"b", [("k", [])], []⟩ mem_cons_self (by decide)
  exact ⟨hCount, Nat.cast_injective (hKeys.symm.trans hCount)⟩

section Runs

variable {contexts : List TransactionContext} {s s' : Session}

/-- How many calls a transaction can still get. -/
def callsLeft : Phase → Nat
  | .waiting => 3
  | .popped => 2
  | .pruned _ => 1
  | .finished => 0

def remaining (added : List String) (s : Session) : Nat :=
  (added.map fun txID => callsLeft (s.phase txID)).sum

theorem remaining_lt {added : List String} {txID : String} {next : Phase} (hAdded : txID ∈ added)
    (hPhase : s'.phase = update s.phase txID next)
    (hLess : callsLeft next < callsLeft (s.phase txID)) :
    s'.remaining added < s.remaining added := by
  unfold remaining
  rw [hPhase]
  refine sum_lt_sum _ _ (fun other _ => ?_) ⟨txID, hAdded, by rwa [update_self]⟩
  by_cases same : other = txID
  · rw [same, update_self]
    exact hLess.le
  · rw [update_of_ne same]

variable (distinct : (contexts.map TransactionContext.TxID).Nodup)

include distinct

/-- Of two transactions that share a key the later one is popped only once the earlier one is
finished or has pruned the key. -/
theorem smaller_settled_first (run : Reachable contexts s) {first second : TransactionContext}
    (hFirst : first ∈ contexts) (hSecond : second ∈ contexts) (hLess : first.TxID < second.TxID)
    (hPopped : second.TxID ∈ s.pops) {key : String} (hKey : key ∈ contextKeys first)
    (hShared : key ∈ contextKeys second) : s.phase first.TxID = .finished ∨
      ∃ realKeys, s.phase first.TxID = .pruned realKeys ∧ key ∉ realKeys := by
  have inv := run.invariant distinct
  have hAdded := (mem_addedIDs contexts _).mpr ⟨first, hFirst, rfl⟩
  rw [← mem_Depurge_schedule_keyMap distinct hFirst, ← inv.keyMap] at hKey
  rw [← mem_Depurge_schedule_keyMap distinct hSecond, ← inv.keyMap] at hShared
  have hLeft : ¬(s.phase first.TxID).Holds (s.scheduler.txKeyMap first.TxID) key := by
    intro hHolds
    have hQueued := inv.scheduler.queue_holds _ hAdded key hHolds
    exact (inv.pops_iff _).mp hPopped (run.keyOrder distinct key _ _ hQueued hLess hShared)
  cases hPhase : s.phase first.TxID with
  | waiting | popped =>
    rw [hPhase] at hLeft
    exact absurd hKey hLeft
  | pruned realKeys =>
    rw [hPhase] at hLeft
    exact Or.inr ⟨realKeys, rfl, fun hReal => hLeft ⟨hKey, hReal⟩⟩
  | finished => exact Or.inl rfl

omit distinct in
theorem smaller_settled_twoOnOneKey : twoOnOneKeyDone.phase "a" = .finished ∨
    ∃ realKeys, twoOnOneKeyDone.phase "a" = .pruned realKeys ∧ "k" ∉ realKeys :=
  smaller_settled_first (by decide) reachable_twoOnOneKeyDone (mem_cons_of_mem _ mem_cons_self)
    mem_cons_self (by decide) (by decide) (by decide) (by decide)

/-- No interleaving goes on for ever, but for pops that return nothing. -/
theorem calls_end (nonempty : ∀ ctx ∈ contexts, ctx.TxID ≠ "") :
    WellFounded fun s' s => Reachable contexts s ∧ Step s s' ∧ s' ≠ s := by
  refine Subrelation.wf ?_ (measure (remaining (addedIDs contexts))).wf
  rintro s' s ⟨run, step, hne⟩
  have inv := run.invariant distinct
  have hPop : ∀ result : DepurgeScheduler × String, s.pop result ≠ s →
      (result = (s.scheduler, "") ∨
        result.2 ∈ s.scheduler.readyQueue ++ s.scheduler.pruneReadyQueue) →
      (s.pop result).remaining (addedIDs contexts) < s.remaining (addedIDs contexts) := by
    rintro result hne (rfl | hm)
    · exact absurd rfl hne
    · obtain ⟨hAdded, hWaiting, _⟩ := inv.scheduler.ready_mem _ hm
      obtain ⟨ctx, hCtx, hID⟩ := (mem_addedIDs contexts _).mp hAdded
      exact remaining_lt hAdded (if_neg (hID ▸ nonempty ctx hCtx)) (by simp [hWaiting, callsLeft])
  cases step with
  | popReady =>
    refine hPop _ hne ?_
    unfold PopReady
    split <;> simp [*]
  | popPruneReady =>
    refine hPop _ hne ?_
    unfold PopPruneReady
    split <;> simp [*]
  | prune txID _ h | abort txID h =>
    exact remaining_lt (inv.known txID (by simp [h])).1 rfl (by simp [h, callsLeft])
  | execute txID h =>
    refine remaining_lt (inv.scheduler.active txID h).1 rfl ?_
    revert h
    cases s.phase txID <;> simp [Phase.Active, callsLeft]

end Runs

theorem calls_end_twoOnOneKey :
    WellFounded fun s' s => Reachable twoOnOneKey s ∧ Step s s' ∧ s' ≠ s :=
  calls_end (by decide) (by decide)

end Session
end Nezha
