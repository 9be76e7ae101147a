import NezhaConcurrency.Core.DepurgeDiscipline
import NezhaConcurrency.Library.RangeLoop

/-! What the three ways to finish a transaction have in common. All of them take it out of
its queues; who is released by that follows from the queues alone. Only the lists differ on
which the released ones are pushed. -/
namespace Nezha

open Function List

namespace DepurgeScheduler

section Lists

variable {ds ds' ds'' : DepurgeScheduler} {ready prune ready' prune' : List String}

/-- The transactions that are pushed on the two lists. None of them has the empty ID. -/
structure Pushed (ds ds' : DepurgeScheduler) (ready prune : List String) : Prop where
  readyQueue : ds'.readyQueue = ds.readyQueue ++ ready
  pruneReadyQueue : ds'.pruneReadyQueue = ds.pruneReadyQueue ++ prune
  named : "" ∉ ready ++ prune

theorem Pushed.none (hReady : ds'.readyQueue = ds.readyQueue)
    (hPrune : ds'.pruneReadyQueue = ds.pruneReadyQueue) : Pushed ds ds' [] [] :=
  ⟨by simp [hReady], by simp [hPrune], not_mem_nil⟩

theorem Pushed.trans (first : Pushed ds ds' ready prune) (second : Pushed ds' ds'' ready' prune') :
    Pushed ds ds'' (ready ++ ready') (prune ++ prune') where
  readyQueue := by rw [second.readyQueue, first.readyQueue, append_assoc]
  pruneReadyQueue := by
    rw [second.pruneReadyQueue, first.pruneReadyQueue, append_assoc]
  named := by
    have hFirst := first.named
    have hSecond := second.named
    simp only [mem_append, not_or] at hFirst hSecond ⊢
    exact ⟨⟨hFirst.1, hSecond.1⟩, hFirst.2, hSecond.2⟩

/-- Only `readyQueue` grows. -/
def PushesReady (ds ds' : DepurgeScheduler) : Prop := ∃ ready, Pushed ds ds' ready []

/-- Only `pruneReadyQueue` grows. -/
def PushesPruneReady (ds ds' : DepurgeScheduler) : Prop := ∃ prune, Pushed ds ds' [] prune

theorem PushesReady.refl (ds : DepurgeScheduler) : PushesReady ds ds := ⟨[], .none rfl rfl⟩

theorem PushesPruneReady.refl (ds : DepurgeScheduler) : PushesPruneReady ds ds :=
  ⟨[], .none rfl rfl⟩

theorem PushesReady.trans (first : PushesReady ds ds') (second : PushesReady ds' ds'') :
    PushesReady ds ds'' := by
  obtain ⟨ready, hFirst⟩ := first
  obtain ⟨ready', hSecond⟩ := second
  exact ⟨ready ++ ready', hFirst.trans hSecond⟩

theorem PushesPruneReady.trans (first : PushesPruneReady ds ds')
    (second : PushesPruneReady ds' ds'') : PushesPruneReady ds ds'' := by
  obtain ⟨prune, hFirst⟩ := first
  obtain ⟨prune', hSecond⟩ := second
  exact ⟨prune ++ prune', hFirst.trans hSecond⟩

theorem pushesReady_releaseReady (ds : DepurgeScheduler) (nextTx : String) :
    PushesReady ds (releaseReady ds nextTx) := by
  unfold releaseReady
  split
  · next hNext =>
      dsimp only
      split
      · exact ⟨[nextTx], rfl, (append_nil _).symm, by simpa using hNext.1.symm⟩
      · exact ⟨[], .none rfl rfl⟩
  · exact .refl ds

theorem pushesPruneReady_releasePruneReady (ds : DepurgeScheduler) (nextTx : String) :
    PushesPruneReady ds (releasePruneReady ds nextTx) := by
  unfold releasePruneReady
  split
  · next hNext =>
      dsimp only
      split
      · exact ⟨[nextTx], (append_nil _).symm, rfl, by simpa using hNext.1.symm⟩
      · exact ⟨[], .none rfl rfl⟩
  · exact .refl ds

/-- The loop of `Execute` and `Abort`, for any kind of change that the release makes and that
leaves out the queues and the flags. -/
theorem finish_related {related : DepurgeScheduler → DepurgeScheduler → Prop}
    {release : DepurgeScheduler → String → DepurgeScheduler}
    (refl : ∀ ds, related ds ds)
    (trans : ∀ {ds ds' ds''}, related ds ds' → related ds' ds'' → related ds ds'')
    (hRelease : ∀ ds nextTx, related ds (release ds nextTx))
    (hQueue : ∀ ds key queue, related ds (setQueue ds key queue))
    (hExecuted : ∀ (ds : DepurgeScheduler) flags, related ds { ds with txExecuted := flags })
    (ds : DepurgeScheduler) (txID : String) : related ds (finish release ds txID) := by
  unfold finish
  split
  · exact refl ds
  · refine trans (hExecuted ds _) (RangeLoop.foldl_related refl trans (fun ds key => ?_) _ _)
    unfold finishKey
    dsimp only
    split
    · exact trans (hQueue ds key _) (hRelease _ _)
    · exact refl ds

theorem pushesReady_Execute (ds : DepurgeScheduler) (txID : String) :
    PushesReady ds (ds.Execute txID) :=
  finish_related .refl .trans pushesReady_releaseReady (fun _ _ _ => ⟨[], .none rfl rfl⟩)
    (fun _ _ => ⟨[], .none rfl rfl⟩) ds txID

theorem pushesPruneReady_Abort (ds : DepurgeScheduler) (txID : String) :
    PushesPruneReady ds (ds.Abort txID) :=
  finish_related .refl .trans pushesPruneReady_releasePruneReady
    (fun _ _ _ => ⟨[], .none rfl rfl⟩) (fun _ _ => ⟨[], .none rfl rfl⟩) ds txID

theorem pushesPruneReady_Prune (ds : DepurgeScheduler) (txID : String) (realKeys : List String) :
    PushesPruneReady ds (ds.Prune txID realKeys) := by
  refine RangeLoop.foldl_related .refl .trans (fun ds key => ?_) _ ds
  have hSet : ∀ queue, PushesPruneReady ds (ds.setQueue key queue) :=
    fun _ => ⟨[], .none rfl rfl⟩
  unfold pruneKey
  split
  · dsimp only
    split
    · split
      · exact (hSet _).trans (pushesPruneReady_releasePruneReady _ _)
      · exact hSet _
    · exact .refl ds
  · exact .refl ds

end Lists

section Outcome

variable {added : List String} {phase : String → Phase} {ds ds₁ ds₂ : DepurgeScheduler}

/-- The blocked keys follow from the queues. -/
theorem blockedCount_congr (hQueues : ds₁.keyQueues = ds₂.keyQueues)
    (hKeys : ds₁.txKeyMap = ds₂.txKeyMap) (txID : String) :
    ds₁.blockedCount txID = ds₂.blockedCount txID := by
  unfold blockedCount
  rw [hKeys]
  refine countP_congr fun key _ => ?_
  rw [decide_eq_true_eq, decide_eq_true_eq, Blocked, Blocked, hQueues]

/-- So do the ready counts. -/
theorem Consistent.count_eq (con₁ : Consistent added phase (fun _ => 0) ds₁)
    (con₂ : Consistent added phase (fun _ => 0) ds₂) (hQueues : ds₁.keyQueues = ds₂.keyQueues)
    (hKeys : ds₁.txKeyMap = ds₂.txKeyMap) {txID : String} (hAdded : txID ∈ added)
    (hPhase : phase txID ≠ .finished) : ds₁.txReadyCount txID = ds₂.txReadyCount txID := by
  rw [con₁.count txID hAdded hPhase, con₂.count txID hAdded hPhase,
    blockedCount_congr hQueues hKeys]

/-- And so does who is ready. -/
theorem Consistent.ready_subset (con₁ : Consistent added phase (fun _ => 0) ds₁)
    (con₂ : Consistent added phase (fun _ => 0) ds₂) (hQueues : ds₁.keyQueues = ds₂.keyQueues)
    (hKeys : ds₁.txKeyMap = ds₂.txKeyMap) {txID : String} (hNamed : txID ≠ "")
    (hReady : txID ∈ ds₁.readyQueue ++ ds₁.pruneReadyQueue) :
    txID ∈ ds₂.readyQueue ++ ds₂.pruneReadyQueue := by
  obtain ⟨hAdded, hWaiting, hZero⟩ := con₁.ready_mem txID hReady
  refine con₂.ready_of_zero txID hAdded hNamed hWaiting ?_
  rw [← con₁.count_eq con₂ hQueues hKeys hAdded (by rw [hWaiting]; exact Phase.noConfusion), hZero]

theorem Pushed.fresh {ready prune : List String} (pushed : Pushed ds ds₁ ready prune)
    (con : Consistent added phase (fun _ => 0) ds₁) :
    (ready ++ prune).Nodup ∧ ∀ txID, txID ∈ ready ++ prune ↔
      txID ∈ ds₁.readyQueue ++ ds₁.pruneReadyQueue ∧
        txID ∉ ds.readyQueue ++ ds.pruneReadyQueue := by
  have hNodup := con.ready_nodup
  have hPerm : (ds₁.readyQueue ++ ds₁.pruneReadyQueue).Perm
      ((ready ++ prune) ++ (ds.readyQueue ++ ds.pruneReadyQueue)) := by
    rw [pushed.readyQueue, pushed.pruneReadyQueue, perm_iff_count]
    intro txID
    simp only [count_append]
    omega
  rw [hPerm.nodup_iff, nodup_append'] at hNodup
  refine ⟨hNodup.1, fun txID => ?_⟩
  rw [hPerm.mem_iff, mem_append (s := ready ++ prune)]
  constructor
  · exact fun hm => ⟨Or.inl hm, fun hOld => hNodup.2.2 hm hOld⟩
  · rintro ⟨hm | hm, hNot⟩
    · exact hm
    · exact absurd hm hNot

/-- The released transactions are the same, up to their order. -/
theorem Pushed.perm {ready₁ prune₁ ready₂ prune₂ : List String}
    (pushed₁ : Pushed ds ds₁ ready₁ prune₁) (pushed₂ : Pushed ds ds₂ ready₂ prune₂)
    (con₁ : Consistent added phase (fun _ => 0) ds₁)
    (con₂ : Consistent added phase (fun _ => 0) ds₂) (hQueues : ds₁.keyQueues = ds₂.keyQueues)
    (hKeys : ds₁.txKeyMap = ds₂.txKeyMap) : (ready₁ ++ prune₁).Perm (ready₂ ++ prune₂) := by
  obtain ⟨hNodup₁, hMem₁⟩ := pushed₁.fresh con₁
  obtain ⟨hNodup₂, hMem₂⟩ := pushed₂.fresh con₂
  refine (perm_ext_iff_of_nodup hNodup₁ hNodup₂).mpr fun txID => ⟨fun hm => ?_, fun hm => ?_⟩
  · have hNamed : txID ≠ "" := fun h => pushed₁.named (h ▸ hm)
    rw [hMem₁] at hm
    exact (hMem₂ txID).mpr ⟨con₁.ready_subset con₂ hQueues hKeys hNamed hm.1, hm.2⟩
  · have hNamed : txID ≠ "" := fun h => pushed₂.named (h ▸ hm)
    rw [hMem₂] at hm
    exact (hMem₁ txID).mpr ⟨con₂.ready_subset con₁ hQueues.symm hKeys.symm hNamed hm.1, hm.2⟩

end Outcome

section Continuations

variable {added : List String} {phase : String → Phase} {ds : DepurgeScheduler} {txID : String}

/-- `Prune` and then `Execute` take the transaction out of all its queues, like `Execute`
alone. -/
theorem Consistent.prune_execute (con : Consistent added phase (fun _ => 0) ds)
    (hActive : (phase txID).Active)
    (hExecuted : ∀ other, ds.txExecuted other = true ↔ phase other = .finished)
    (realKeys : List String) :
    Consistent added (update phase txID .finished) (fun _ => 0)
        ((ds.Prune txID realKeys).Execute txID) ∧
      ((ds.Prune txID realKeys).Execute txID).txExecuted = update ds.txExecuted txID true ∧
      ((ds.Prune txID realKeys).Execute txID).txKeyMap = ds.txKeyMap ∧
      ∀ key, ((ds.Prune txID realKeys).Execute txID).keyQueues key =
        ((ds.keyQueues key).remove txID).1 := by
  -- Which queues still hold the transaction after the pruning does not matter here.
  obtain ⟨conPruned, hLeft⟩ := con.prune (nil_subset realKeys) hActive
    (fun key h => absurd h.2 not_mem_nil) hExecuted
  have hPruned : ∀ other, (ds.Prune txID realKeys).txExecuted other = true ↔
      update phase txID (.pruned []) other = .finished := by
    intro other
    rw [hLeft.executed, hExecuted]
    by_cases hne : other = txID
    · subst other
      rw [update_self]
      refine iff_of_false (fun h => ?_) Phase.noConfusion
      rw [h] at hActive
      exact hActive
    · rw [update_of_ne hne]
  obtain ⟨conEnd, hEx, hKeys, hQueues⟩ := conPruned.finish releasing_releaseReady
    (by rw [update_self]; trivial) hPruned
  rw [update_idem] at conEnd
  refine ⟨conEnd, by rw [Execute, hEx, hLeft.executed], by rw [Execute, hKeys, hLeft.keyMap], ?_⟩
  intro key
  rw [Execute, hQueues, hLeft.removed]
  split
  · refine TransactionQueue.remove_of_not_mem _ ?_
    rw [TransactionQueue.ids_remove, (ds.keyQueues key).nodup_ids.mem_erase_iff]
    exact fun h => h.1 rfl
  · rfl

end Continuations
end DepurgeScheduler

namespace Session

open DepurgeScheduler

/-- In every state of a session the three ways to finish a transaction in flight leave the
same queues, flags, keys and ready counts, and release the same transactions. `Execute`
pushes them on the one list, `Abort` on the other, and `Prune` and then `Execute` on both. -/
theorem finishing_has_one_effect {contexts : List TransactionContext}
    (distinct : (contexts.map TransactionContext.TxID).Nodup) {s : Session}
    (reachable : Reachable contexts s) {txID : String} (hActive : (s.phase txID).Active)
    (realKeys : List String) :
    let executed := s.scheduler.Execute txID
    let aborted := s.scheduler.Abort txID
    let pruned := (s.scheduler.Prune txID realKeys).Execute txID
    (aborted.keyQueues = executed.keyQueues ∧ pruned.keyQueues = executed.keyQueues) ∧
    (aborted.txExecuted = executed.txExecuted ∧ pruned.txExecuted = executed.txExecuted) ∧
    (aborted.txKeyMap = executed.txKeyMap ∧ pruned.txKeyMap = executed.txKeyMap) ∧
    (∀ other ∈ addedIDs contexts, executed.IsExecuted other = false →
      aborted.GetReadyCount other = executed.GetReadyCount other ∧
        pruned.GetReadyCount other = executed.GetReadyCount other) ∧
    ∃ released aborting pruning later, (executed.readyQueue = s.scheduler.readyQueue ++ released ∧
        executed.pruneReadyQueue = s.scheduler.pruneReadyQueue) ∧
      (aborted.readyQueue = s.scheduler.readyQueue ∧
        aborted.pruneReadyQueue = s.scheduler.pruneReadyQueue ++ aborting) ∧
      (pruned.readyQueue = s.scheduler.readyQueue ++ later ∧
        pruned.pruneReadyQueue = s.scheduler.pruneReadyQueue ++ pruning) ∧
      aborting.Perm released ∧ (later ++ pruning).Perm released := by
  have inv := reachable.invariant distinct
  have con := inv.scheduler.consistent
  obtain ⟨con₁, hEx₁, hKeys₁, hQueues₁⟩ := con.finish releasing_releaseReady hActive inv.executed
  obtain ⟨con₂, hEx₂, hKeys₂, hQueues₂⟩ :=
    con.finish releasing_releasePruneReady hActive inv.executed
  obtain ⟨con₃, hEx₃, hKeys₃, hQueues₃⟩ := con.prune_execute hActive inv.executed realKeys
  have hQueues : (s.scheduler.Abort txID).keyQueues = (s.scheduler.Execute txID).keyQueues ∧
      ((s.scheduler.Prune txID realKeys).Execute txID).keyQueues =
        (s.scheduler.Execute txID).keyQueues := by
    refine ⟨funext fun key => ?_, funext fun key => ?_⟩
    · exact (hQueues₂ key).trans (hQueues₁ key).symm
    · exact (hQueues₃ key).trans (hQueues₁ key).symm
  have hKeys : (s.scheduler.Abort txID).txKeyMap = (s.scheduler.Execute txID).txKeyMap ∧
      ((s.scheduler.Prune txID realKeys).Execute txID).txKeyMap =
        (s.scheduler.Execute txID).txKeyMap :=
    ⟨hKeys₂.trans hKeys₁.symm, hKeys₃.trans hKeys₁.symm⟩
  obtain ⟨released, pushed₁⟩ := pushesReady_Execute s.scheduler txID
  obtain ⟨aborting, pushed₂⟩ := pushesPruneReady_Abort s.scheduler txID
  obtain ⟨pruning, pushedPrune⟩ := pushesPruneReady_Prune s.scheduler txID realKeys
  obtain ⟨later, pushedLater⟩ := pushesReady_Execute (s.scheduler.Prune txID realKeys) txID
  have pushed₃ := pushedPrune.trans pushedLater
  rw [nil_append, append_nil] at pushed₃
  refine ⟨hQueues, ⟨hEx₂.trans hEx₁.symm, hEx₃.trans hEx₁.symm⟩, hKeys, ?_, released, aborting,
    pruning, later, ⟨pushed₁.readyQueue, ?_⟩, ⟨?_, pushed₂.pruneReadyQueue⟩,
    ⟨pushed₃.readyQueue, pushed₃.pruneReadyQueue⟩, ?_, ?_⟩
  · intro other hAdded hUnfinished
    have hPhase : update s.phase txID .finished other ≠ .finished := by
      intro h
      have hDone := (executed_iff_finished inv.executed other).mpr h
      rw [← hEx₁] at hDone
      exact Bool.false_ne_true (hUnfinished.symm.trans hDone)
    exact ⟨con₂.count_eq con₁ hQueues.1 hKeys.1 hAdded hPhase,
      con₃.count_eq con₁ hQueues.2 hKeys.2 hAdded hPhase⟩
  · rw [pushed₁.pruneReadyQueue, append_nil]
  · rw [pushed₂.readyQueue, append_nil]
  · simpa using pushed₂.perm pushed₁ con₂ con₁ hQueues.1 hKeys.1
  · simpa using pushed₃.perm pushed₁ con₃ con₁ hQueues.2 hKeys.2

/-- `"b"` is released by `Execute` and by `Abort` of `"a"`, on different lists. -/
theorem one_effect_twoOnOneKey :
    (((init twoOnOneKey).popReady.scheduler.Execute "a").readyQueue = ["b"] ∧
      ((init twoOnOneKey).popReady.scheduler.Abort "a").pruneReadyQueue = ["b"]) ∧
    ((init twoOnOneKey).popReady.scheduler.Abort "a").keyQueues =
      ((init twoOnOneKey).popReady.scheduler.Execute "a").keyQueues := by
  have hRun : Reachable twoOnOneKey (init twoOnOneKey).popReady :=
    Relation.ReflTransGen.single (.popReady _)
  have hActive : ((init twoOnOneKey).popReady.phase "a").Active :=
    Phase.active_of_popped (by decide)
  exact ⟨by decide, (finishing_has_one_effect (by decide) hRun hActive ["k"]).1.1⟩

end Session
end Nezha
