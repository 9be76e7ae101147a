import NezhaConcurrency.Core.DepurgeLevels

/-! The level plan of `buildLevels`. It does not pop the queues, so the front of a queue stays
its front, and only the visit of that front looks for a next transaction of the queue: the
third one of a queue may never be found, and the second one may be found too early. -/
namespace Nezha

open Layering LevelLoop Function List

/-- The local variables of `buildLevels`. -/
structure PlanState where
  tempReady : List String
  tempExecuted : String → Bool
  inTempReady : String → Bool

namespace PlanState

def push (s : PlanState) (txID : String) : PlanState where
  tempReady := s.tempReady ++ [txID]
  tempExecuted := update s.tempExecuted txID false
  inTempReady := update s.inTempReady txID true

/-- The front is taken off the list and marked. -/
def take (s : PlanState) (txID : String) : PlanState where
  tempReady := s.tempReady.tail
  tempExecuted := update s.tempExecuted txID true
  inTempReady := update s.inTempReady txID false

/-- Transactions are appended to the list. -/
def Grows (s s' : PlanState) : Prop := s.tempReady <+: s'.tempReady

theorem Grows.refl (s : PlanState) : Grows s s := prefix_rfl

theorem Grows.trans {s s' s'' : PlanState} (first : Grows s s') (second : Grows s' s'') :
    Grows s s'' :=
  List.IsPrefix.trans first second

end PlanState

namespace DepurgeScheduler

/-- The loop that copies the ready list. -/
def startPlan (ds : DepurgeScheduler) : PlanState :=
  ds.readyQueue.foldl PlanState.push ⟨[], fun _ => false, fun _ => false⟩

/-- The first transaction of the queue that is neither `txID` nor marked. -/
def nextTx (s : PlanState) (txID : String) (queue : TransactionQueue) : String :=
  (queue.ids.find? fun other => other ≠ txID ∧ s.tempExecuted other = false).getD ""

def planKey (ds : DepurgeScheduler) (txID : String) (s : PlanState) (key : String) : PlanState :=
  let queue := ds.keyQueues key
  if queue.front = txID then
    let next := nextTx s txID queue
    if next ≠ "" ∧ s.inTempReady next = false then s.push next else s
  else s

def plan (ds : DepurgeScheduler) (s : PlanState) (txID : String) : PlanState :=
  (ds.txKeyMap txID).foldl (ds.planKey txID) (s.take txID)

/-- The levels, if so many rounds are enough. -/
def buildLevels (rounds : Nat) (ds : DepurgeScheduler) : Option (List (List String)) :=
  (levels PlanState.tempReady ds.plan sortStrings rounds ds.startPlan).map Prod.snd

/-- `txID` is the front of the queue, and `next` the first in it that is not marked. -/
def Follows (ds : DepurgeScheduler) (marked : List String) (txID key next : String) : Prop :=
  (ds.keyQueues key).front = txID ∧ (ds.keyQueues key).ids.find? (· ∉ marked) = some next

section Following

variable {ds : DepurgeScheduler} {marked : List String} {txID key next : String}

theorem Follows.queue (follows : Follows ds marked txID key next) :
    ∃ rest, (ds.keyQueues key).ids = txID :: rest := by
  obtain ⟨hFront, hFind⟩ := follows
  rw [TransactionQueue.front_eq] at hFront
  cases hIds : (ds.keyQueues key).ids with
  | nil => simp [hIds] at hFind
  | cons front rest =>
    rw [hIds, headD_cons] at hFront
    exact ⟨rest, by rw [hFront]⟩

theorem Follows.not_marked (follows : Follows ds marked txID key next) : next ∉ marked := by
  simpa using find?_some follows.2

theorem Follows.ahead (follows : Follows ds marked txID key next) (hMarked : txID ∈ marked) :
    ds.Ahead txID next := by
  obtain ⟨rest, hIds⟩ := follows.queue
  have hm := mem_of_find?_eq_some follows.2
  rw [hIds] at hm
  refine ⟨key, ?_⟩
  rw [hIds]
  refine List.Sublist.cons_cons txID (singleton_sublist.mpr ?_)
  refine (mem_cons.mp hm).resolve_left ?_
  rintro rfl
  exact follows.not_marked hMarked

theorem follows_second (hPair : [txID, next] <+: (ds.keyQueues key).ids) (hMarked : txID ∈ marked)
    (hNext : next ∉ marked) : Follows ds marked txID key next := by
  obtain ⟨rest, hIds⟩ := hPair
  refine ⟨?_, ?_⟩
  · rw [TransactionQueue.front_eq, ← hIds]
    rfl
  · rw [← hIds]
    simp [hMarked, hNext]

theorem Follows.second (follows : Follows ds marked txID key next) (hMarked : txID ∈ marked) :
    [txID, next] <+: (ds.keyQueues key).ids ∨
      ∃ second ∈ marked, [txID, second] <+: (ds.keyQueues key).ids := by
  have hFind := follows.2
  obtain ⟨rest, hIds⟩ := follows.queue
  rw [hIds] at hFind ⊢
  cases rest with
  | nil => simp [hMarked] at hFind
  | cons second rest =>
    have hPair : [txID, second] <+: txID :: second :: rest := ⟨rest, rfl⟩
    by_cases hSecond : second ∈ marked
    · exact Or.inr ⟨second, hSecond, hPair⟩
    · have hSame : second = next := by simpa [hMarked, hSecond] using hFind
      exact Or.inl (hSame ▸ hPair)

end Following

/-- The plan so far: nobody is listed who was visited, and nobody is listed twice. -/
structure Planning (added visited : List String) (s : PlanState) : Prop where
  executed : ∀ txID, s.tempExecuted txID = true ↔ txID ∈ visited
  listed : ∀ txID, s.inTempReady txID = true ↔ txID ∈ s.tempReady
  nodup : (visited ++ s.tempReady).Nodup
  known : ∀ txID ∈ visited ++ s.tempReady, txID ∈ added

section Visits

variable {added visited : List String} {ds : DepurgeScheduler} {s : PlanState} {txID : String}

theorem Planning.push (planning : Planning added visited s) (hAdded : txID ∈ added)
    (hNew : txID ∉ visited) (hUnlisted : txID ∉ s.tempReady) :
    Planning added visited (s.push txID) where
  executed := by
    intro other
    by_cases hne : other = txID
    · simp [PlanState.push, hne, hNew]
    · simp [PlanState.push, hne, planning.executed]
  listed := by
    intro other
    by_cases hne : other = txID
    · simp [PlanState.push, hne]
    · simp [PlanState.push, hne, planning.listed]
  nodup := by
    change (visited ++ (s.tempReady ++ [txID])).Nodup
    rw [← append_assoc, nodup_append_comm, singleton_append, nodup_cons]
    exact ⟨by simp [hNew, hUnlisted], planning.nodup⟩
  known := by
    intro other hm
    have hOld := planning.known other
    simp only [PlanState.push, mem_append, mem_singleton] at hm hOld
    rcases hm with hm | hm | rfl
    · exact hOld (Or.inl hm)
    · exact hOld (Or.inr hm)
    · exact hAdded

theorem Planning.take (planning : Planning added visited s) {rest : List String}
    (hReady : s.tempReady = txID :: rest) : Planning added (txID :: visited) (s.take txID) := by
  have hNodup := planning.nodup
  rw [hReady, nodup_middle, nodup_cons] at hNodup
  have hTail : (s.take txID).tempReady = rest := by
    rw [PlanState.take, hReady, tail_cons]
  refine ⟨?_, ?_, ?_, ?_⟩
  · intro other
    by_cases hne : other = txID
    · simp [PlanState.take, hne]
    · simp [PlanState.take, hne, planning.executed]
  · intro other
    rw [hTail]
    by_cases hne : other = txID
    · subst other
      simp only [PlanState.take, update_self, Bool.false_eq_true, false_iff]
      exact fun hm => hNodup.1 (mem_append_right _ hm)
    · simp [PlanState.take, hne, planning.listed, hReady]
  · rw [hTail, cons_append, nodup_cons]
    exact hNodup
  · intro other hm
    refine planning.known other ?_
    rw [hTail] at hm
    rw [hReady]
    simp only [cons_append, mem_cons, mem_append] at hm ⊢
    tauto

theorem idle_queue_mem (idle : Idle added [] ds) {key other : String}
    (hm : other ∈ (ds.keyQueues key).ids) :
    other ∈ added ∧ other ≠ "" ∧ key ∈ ds.txKeyMap other := by
  obtain ⟨hAdded, hKey, _⟩ := idle.consistent.queue_mem key other hm
  exact ⟨hAdded, fun h => idle.named (h ▸ hAdded), hKey⟩

theorem Planning.planKey (idle : Idle added [] ds) (planning : Planning added visited s)
    (hVisited : txID ∈ visited) (key : String) :
    Planning added visited (ds.planKey txID s key) ∧
      ∃ new, (ds.planKey txID s key).tempReady = s.tempReady ++ new ∧
        (∀ next ∈ new, Follows ds visited txID key next) ∧
        ∀ next, Follows ds visited txID key next → next ∈ (ds.planKey txID s key).tempReady := by
  have hMarked : (fun other => decide (other ≠ txID ∧ s.tempExecuted other = false)) =
      fun other => decide (other ∉ visited) := by
    funext other
    rw [decide_eq_decide, ← planning.executed, Bool.not_eq_true, and_iff_right_iff_imp]
    rintro hUnmarked rfl
    rw [(planning.executed other).mpr hVisited] at hUnmarked
    cases hUnmarked
  unfold DepurgeScheduler.planKey nextTx
  rw [hMarked]
  dsimp only
  by_cases hFront : (ds.keyQueues key).front = txID
  · rw [if_pos hFront]
    cases hFind : (ds.keyQueues key).ids.find? (· ∉ visited) with
    | none =>
      rw [Option.getD_none, if_neg (fun h => h.1 rfl)]
      refine ⟨planning, [], (append_nil _).symm, nofun, ?_⟩
      rintro next ⟨_, hNext⟩
      rw [hFind] at hNext
      cases hNext
    | some found =>
      obtain ⟨hAdded, hNamed, _⟩ := idle_queue_mem idle (mem_of_find?_eq_some hFind)
      have follows : Follows ds visited txID key found := ⟨hFront, hFind⟩
      have hOnly : ∀ next, Follows ds visited txID key next → next = found := by
        rintro next ⟨_, hNext⟩
        rw [hFind] at hNext
        exact (Option.some.inj hNext).symm
      rw [Option.getD_some]
      by_cases hListed : s.inTempReady found = false
      · rw [if_pos ⟨hNamed, hListed⟩]
        have hUnlisted : found ∉ s.tempReady := by
          rw [← planning.listed, hListed]
          exact Bool.false_ne_true
        refine ⟨planning.push hAdded follows.not_marked hUnlisted, [found], rfl, ?_, ?_⟩
        · exact fun next hm => mem_singleton.mp hm ▸ follows
        · exact fun next hNext => hOnly next hNext ▸ mem_append_right _ mem_cons_self
      · rw [if_neg (fun h => hListed h.2)]
        refine ⟨planning, [], (append_nil _).symm, nofun, fun next hNext => ?_⟩
        rw [hOnly next hNext, ← planning.listed]
        exact Bool.eq_true_of_not_eq_false hListed
  · rw [if_neg hFront]
    exact ⟨planning, [], (append_nil _).symm, nofun, fun next h => absurd h.1 hFront⟩

theorem Planning.planKeys (idle : Idle added [] ds) (planning : Planning added visited s)
    (hVisited : txID ∈ visited) (keys : List String) :
    Planning added visited (keys.foldl (ds.planKey txID) s) ∧
      ∃ new, (keys.foldl (ds.planKey txID) s).tempReady = s.tempReady ++ new ∧
        (∀ next ∈ new, ∃ key, Follows ds visited txID key next) ∧
        ∀ key ∈ keys, ∀ next, Follows ds visited txID key next →
          next ∈ (keys.foldl (ds.planKey txID) s).tempReady := by
  induction keys generalizing s with
  | nil => exact ⟨planning, [], (append_nil _).symm, nofun, nofun⟩
  | cons key keys ih =>
    obtain ⟨planningKey, new, hNew, hFollows, hFound⟩ := planning.planKey idle hVisited key
    obtain ⟨planningEnd, later, hLater, hFollowsLater, hFoundLater⟩ := ih planningKey
    rw [foldl_cons]
    refine ⟨planningEnd, new ++ later, by rw [hLater, hNew, append_assoc], ?_, ?_⟩
    · intro next hm
      rcases mem_append.mp hm with hm | hm
      · exact ⟨key, hFollows next hm⟩
      · exact hFollowsLater next hm
    · intro other hm next hNext
      rcases mem_cons.mp hm with rfl | hm
      · rw [hLater]
        exact mem_append_left _ (hFound next hNext)
      · exact hFoundLater other hm next hNext

theorem Planning.plan (idle : Idle added [] ds) (planning : Planning added visited s)
    {rest : List String} (hReady : s.tempReady = txID :: rest) :
    Planning added (txID :: visited) (ds.plan s txID) ∧
      ∃ new, (ds.plan s txID).tempReady = rest ++ new ∧
        (∀ next ∈ new, ∃ key, Follows ds (txID :: visited) txID key next) ∧
        ∀ key next, Follows ds (txID :: visited) txID key next →
          next ∈ (ds.plan s txID).tempReady := by
  have hTail : (s.take txID).tempReady = rest := by
    rw [PlanState.take, hReady, tail_cons]
  obtain ⟨planningEnd, new, hNew, hFollows, hFound⟩ :=
    (planning.take hReady).planKeys idle mem_cons_self (ds.txKeyMap txID)
  rw [hTail] at hNew
  refine ⟨planningEnd, new, hNew, hFollows, fun key next hNext => hFound key ?_ next hNext⟩
  obtain ⟨others, hIds⟩ := hNext.queue
  exact (idle_queue_mem idle (hIds ▸ mem_cons_self)).2.2

theorem fifo_plan (ds : DepurgeScheduler) : Fifo PlanState.tempReady ds.plan := by
  intro s txID rest hReady
  have hKey : ∀ s key, PlanState.Grows s (ds.planKey txID s key) := by
    intro s key
    unfold DepurgeScheduler.planKey
    dsimp only
    split
    · split
      · exact prefix_append _ _
      · exact .refl s
    · exact .refl s
  obtain ⟨new, hNew⟩ :=
    RangeLoop.foldl_related .refl .trans hKey (ds.txKeyMap txID) (s.take txID)
  refine ⟨new, hNew.symm.trans ?_⟩
  rw [PlanState.take, hReady, tail_cons]

/-- The visits of one level, and of its first part. Whoever is second to one of the visited is
listed or visited afterwards. -/
theorem Planning.planAll (idle : Idle added [] ds) (pending : List String) {more : List String}
    (planning : Planning added visited s) (hReady : s.tempReady = pending ++ more) :
    Planning added (pending.reverse ++ visited) (pending.foldl ds.plan s) ∧
      ∃ new, (pending.foldl ds.plan s).tempReady = more ++ new ∧
        (∀ next ∈ new, ∃ txID ∈ pending, ∃ key marked, txID ∈ marked ∧
          marked ⊆ pending.reverse ++ visited ∧ Follows ds marked txID key next) ∧
        ∀ txID ∈ pending, ∀ key next, [txID, next] <+: (ds.keyQueues key).ids →
          next ∈ pending.reverse ++ visited ∨ next ∈ more ++ new := by
  induction pending generalizing s visited more with
  | nil => exact ⟨planning, [], by simpa using hReady, nofun, nofun⟩
  | cons txID pending ih =>
    rw [cons_append] at hReady
    obtain ⟨planningNext, new, hNew, hFollows, hFound⟩ := planning.plan idle hReady
    rw [append_assoc] at hNew
    obtain ⟨planningEnd, later, hLater, hFollowsLater, hFoundLater⟩ := ih planningNext hNew
    rw [append_assoc] at hLater hFoundLater
    rw [foldl_cons, reverse_cons, append_assoc, singleton_append]
    refine ⟨planningEnd, new ++ later, hLater, ?_, ?_⟩
    · intro next hm
      rcases mem_append.mp hm with hm | hm
      · obtain ⟨key, follows⟩ := hFollows next hm
        exact ⟨txID, mem_cons_self, key, txID :: visited, mem_cons_self,
          subset_append_right _ _, follows⟩
      · obtain ⟨other, hOther, key, marked, hMarked, hSubset, follows⟩ := hFollowsLater next hm
        exact ⟨other, mem_cons_of_mem _ hOther, key, marked, hMarked, hSubset, follows⟩
    · intro other hm key next hPair
      rcases mem_cons.mp hm with rfl | hm
      · by_cases hMarked : next ∈ other :: visited
        · exact Or.inl (mem_append_right _ hMarked)
        · have hListed := hFound key next (follows_second hPair mem_cons_self hMarked)
          rw [hNew] at hListed
          simp only [mem_append, mem_reverse] at hListed ⊢
          tauto
      · exact hFoundLater other hm key next hPair

/-- What the loop makes of a plan so far. Who is planned after the first level was listed
by the visit of somebody in the level before. -/
structure Planned (ds : DepurgeScheduler) (added visited ready : List String)
    (plan : List (List String)) : Prop where
  first : ∀ txID, At plan 0 txID ↔ txID ∈ ready
  nodup : plan.flatten.Nodup
  known : ∀ txID ∈ plan.flatten, txID ∈ added ∧ txID ∉ visited
  caused : ∀ i next, At plan (i + 1) next → ∃ txID key marked, At plan i txID ∧ txID ∈ marked ∧
    (∀ other ∈ marked, other ∈ visited ∨ ∃ j ≤ i, At plan j other) ∧
    Follows ds marked txID key next
  followed : ∀ i txID, At plan i txID → ∀ key next, [txID, next] <+: (ds.keyQueues key).ids →
    next ∈ visited ∨ ∃ j ≤ i + 1, At plan j next
  nonempty : ∀ level ∈ plan, level ≠ []
  sorted : ∀ level ∈ plan, level.Pairwise (· < ·)

theorem planned_nil : Planned ds added visited [] [] where
  first := fun txID => by simp [At]
  nodup := nodup_nil
  known := nofun
  caused := fun i next hAt => absurd hAt (not_at_nil (i + 1) next)
  followed := fun i txID hAt => absurd hAt (not_at_nil i txID)
  nonempty := nofun
  sorted := nofun

theorem Planning.planned_cons (idle : Idle added [] ds) (planning : Planning added visited s)
    (hReady : s.tempReady ≠ []) {plan : List (List String)}
    (planned : Planned ds added (s.tempReady.reverse ++ visited)
      (s.tempReady.foldl ds.plan s).tempReady plan) :
    Planned ds added visited s.tempReady (sortStrings s.tempReady :: plan) := by
  obtain ⟨_, new, hNew, hFollows, hFound⟩ :=
    planning.planAll idle s.tempReady (append_nil _).symm
  obtain ⟨_, hNodup, hApart⟩ := nodup_append'.mp planning.nodup
  have hFirst : ∀ txID, At (sortStrings s.tempReady :: plan) 0 txID ↔ txID ∈ s.tempReady :=
    fun txID => at_zero.trans (mem_sortStrings ..)
  have hVisited : ∀ other ∈ s.tempReady.reverse ++ visited,
      other ∈ visited ∨ At (sortStrings s.tempReady :: plan) 0 other := by
    intro other hm
    rw [hFirst]
    rw [mem_append, mem_reverse] at hm
    exact hm.symm
  refine ⟨hFirst, ?_, ?_, ?_, ?_, ?_, ?_⟩
  · rw [flatten_cons]
    refine (nodup_sortStrings hNodup).append planned.nodup fun txID hm hLater => ?_
    rw [mem_sortStrings] at hm
    exact (planned.known txID hLater).2 (mem_append_left _ (mem_reverse.mpr hm))
  · intro txID hm
    rw [flatten_cons, mem_append, mem_sortStrings] at hm
    rcases hm with hm | hm
    · exact ⟨planning.known txID (mem_append_right _ hm), fun h => hApart h hm⟩
    · obtain ⟨hAdded, hLater⟩ := planned.known txID hm
      exact ⟨hAdded, fun h => hLater (mem_append_right _ h)⟩
  · intro i next hAt
    rw [at_succ] at hAt
    cases i with
    | zero =>
      rw [planned.first, hNew, nil_append] at hAt
      obtain ⟨txID, hm, key, marked, hMarked, hSubset, follows⟩ := hFollows next hAt
      refine ⟨txID, key, marked, (hFirst txID).mpr hm, hMarked, fun other hOther => ?_, follows⟩
      exact (hVisited other (hSubset hOther)).imp_right fun h => ⟨0, Nat.le_refl 0, h⟩
    | succ i =>
      obtain ⟨txID, key, marked, hTx, hMarked, hBounded, follows⟩ := planned.caused i next hAt
      refine ⟨txID, key, marked, at_succ.mpr hTx, hMarked, fun other hOther => ?_, follows⟩
      rcases hBounded other hOther with hm | ⟨j, hj, hm⟩
      · exact (hVisited other hm).imp_right fun h => ⟨0, Nat.zero_le _, h⟩
      · exact Or.inr ⟨j + 1, Nat.succ_le_succ hj, at_succ.mpr hm⟩
  · intro i txID hAt key next hPair
    cases i with
    | zero =>
      rcases hFound txID ((hFirst txID).mp hAt) key next hPair with hm | hm
      · exact (hVisited next hm).imp_right fun h => ⟨0, Nat.zero_le _, h⟩
      · rw [← hNew, ← planned.first] at hm
        exact Or.inr ⟨1, Nat.le_refl 1, at_succ.mpr hm⟩
    | succ i =>
      rcases planned.followed i txID (at_succ.mp hAt) key next hPair with hm | ⟨j, hj, hm⟩
      · exact (hVisited next hm).imp_right fun h => ⟨0, Nat.zero_le _, h⟩
      · exact Or.inr ⟨j + 1, Nat.succ_le_succ hj, at_succ.mpr hm⟩
  · exact forall_mem_cons.mpr ⟨sortStrings_ne_nil hReady, planned.nonempty⟩
  · exact forall_mem_cons.mpr ⟨sortStrings_sorted hNodup, planned.sorted⟩

/-- The loop returns, since each level visits somebody for the first time. -/
theorem Planning.planned (idle : Idle added [] ds) (planning : Planning added visited s)
    {rounds : Nat} (hRounds : (added.filter (· ∉ visited)).length < rounds) :
    ∃ s' plan, levels PlanState.tempReady ds.plan sortStrings rounds s = some (s', plan) ∧
      Planned ds added visited s.tempReady plan := by
  induction rounds generalizing s visited with
  | zero => exact absurd hRounds (Nat.not_lt_zero _)
  | succ rounds ih =>
    by_cases hReady : s.tempReady = []
    · refine ⟨s, [], levels_nil sortStrings rounds hReady, ?_⟩
      rw [hReady]
      exact planned_nil
    · have planningNext := (planning.planAll idle s.tempReady (append_nil _).symm).1
      obtain ⟨_, hNodup, hApart⟩ := nodup_append'.mp planning.nodup
      have hSplit : (s.tempReady ++ added.filter (· ∉ s.tempReady.reverse ++ visited)).Perm
          (added.filter (· ∉ visited)) := waiting_split idle.nodup hNodup fun txID hm =>
        ⟨planning.known txID (mem_append_right _ hm), fun h => hApart h hm⟩
      have hFewer := waiting_fewer hSplit hReady
      obtain ⟨s', plan, hPlan, planned⟩ := ih planningNext (by omega)
      refine ⟨s', sortStrings s.tempReady :: plan, ?_, planning.planned_cons idle hReady planned⟩
      rw [(fifo_plan ds).levels_succ sortStrings rounds hReady, hPlan]
      rfl

theorem planning_start {ready : List String} (hNodup : ready.Nodup)
    (hAdded : ∀ txID ∈ ready, txID ∈ added) :
    Planning added [] (ready.foldl PlanState.push ⟨[], fun _ => false, fun _ => false⟩) ∧
      (ready.foldl PlanState.push ⟨[], fun _ => false, fun _ => false⟩).tempReady = ready := by
  induction ready using List.reverseRecOn with
  | nil => exact ⟨⟨by simp, by simp, nodup_nil, nofun⟩, rfl⟩
  | append_singleton ready last ih =>
    obtain ⟨hNodupReady, _, hApart⟩ := nodup_append'.mp hNodup
    obtain ⟨planning, hList⟩ :=
      ih hNodupReady fun txID hm => hAdded txID (mem_append_left _ hm)
    rw [foldl_append, foldl_cons, foldl_nil]
    refine ⟨planning.push (hAdded last (by simp)) not_mem_nil ?_, ?_⟩
    · rw [hList]
      exact fun hm => hApart hm (mem_singleton_self last)
    · rw [PlanState.push, hList]

theorem Idle.planned (idle : Idle added [] ds) {rounds : Nat} (hRounds : added.length < rounds) :
    ∃ plan, ds.buildLevels rounds = some plan ∧ Planned ds added [] ds.readyQueue plan := by
  obtain ⟨planning, hList⟩ := planning_start idle.nodup_ready
    fun txID hm => ((idle.ready_iff txID).mp hm).1
  have hAll : (added.filter (· ∉ ([] : List String))).length < rounds := by simpa using hRounds
  obtain ⟨s', plan, hPlan, planned⟩ := planning.planned idle hAll
  rw [hList] at planned
  refine ⟨plan, ?_, planned⟩
  rw [buildLevels, startPlan, hPlan]
  rfl

end Visits

/-- Some key is held by the one before the other. -/
def InOrder (holders : String → List String) (first second : String) : Prop :=
  ∃ key, [first, second].Sublist (holders key)

/-- Whoever is behind somebody is the second holder of a key, and one step further than the
first holder of every key whose second holder it is. -/
def Stepwise (holders : String → List String) : Prop :=
  ∀ txID, (∃ other, InOrder holders other txID) → (∃ key other, [other, txID] <+: holders key) ∧
    ∀ key other, [other, txID] <+: holders key →
      ∀ n, IsGreatest (chainLengths (InOrder holders) other) n →
        IsGreatest (chainLengths (InOrder holders) txID) (n + 1)

section Comparison

variable {added : List String} {ds ds' : DepurgeScheduler} {plan drainedPlan : List (List String)}

theorem Drained.first_iff (idle : Idle added [] ds) (drained : Drained ds added ds' drainedPlan)
    (txID : String) : At drainedPlan 0 txID ↔ txID ∈ ds.readyQueue := by
  refine ⟨drained.first txID, fun hm => ?_⟩
  obtain ⟨hAdded, _, hFirst⟩ := (idle.ready_iff txID).mp hm
  obtain ⟨i, hAt⟩ := exists_at_iff.mpr (drained.partition.mem_iff.mpr hAdded)
  cases i with
  | zero => exact hAt
  | succ i =>
    obtain ⟨other, _, hOrder⟩ := drained.layered.caused i txID hAt
    exact absurd hOrder (hFirst other)

theorem ahead_of_front {key first second : String}
    (hPair : [first, second] <+: (ds.keyQueues key).ids) : ds.Ahead first second :=
  ⟨key, hPair.sublist⟩

theorem Idle.mem_of_ahead (idle : Idle added [] ds) {first second : String}
    (hOrder : ds.Ahead first second) : first ∈ added ∧ second ∈ added := by
  obtain ⟨key, hQueue⟩ := hOrder
  exact ⟨(idle_queue_mem idle (hQueue.subset (by simp))).1,
    (idle_queue_mem idle (hQueue.subset (by simp))).1⟩

/-- In a stepwise order the plan has the levels of the drained scheduler. -/
theorem Planned.at_iff (idle : Idle added [] ds) (planned : Planned ds added [] ds.readyQueue plan)
    (drained : Drained ds added ds' drainedPlan)
    (stepwise : Stepwise fun key => (ds.keyQueues key).ids) (i : Nat) (txID : String) :
    At plan i txID ↔ At drainedPlan i txID := by
  have layered := drained.layered
  -- The induction is on the level: who is released in it, and who was planned before it.
  induction i using Nat.strong_induction_on generalizing txID with
  | _ i ih =>
  cases i with
  | zero => exact (planned.first txID).trans (drained.first_iff idle txID).symm
  | succ i =>
    have hNext : ∀ {key first second : String}, At drainedPlan i first →
        [first, second] <+: (ds.keyQueues key).ids → At drainedPlan (i + 1) second := by
      intro key first second hFirst hPair
      have hOrder := ahead_of_front hPair
      refine layered.at_of_isGreatest
        (drained.partition.mem_iff.mpr (idle.mem_of_ahead hOrder).2) ?_
      exact (stepwise second ⟨first, hOrder⟩).2 key first hPair i (layered.isGreatest hFirst)
    constructor
    · intro hAt
      obtain ⟨first, key, marked, hFirst, hMarked, hEarlier, follows⟩ :=
        planned.caused i txID hAt
      have hFirst := (ih i i.lt_succ_self first).mp hFirst
      rcases follows.second hMarked with hPair | ⟨second, hSecond, hPair⟩
      · exact hNext hFirst hPair
      · obtain ⟨j, hj, hPlanned⟩ := (hEarlier second hSecond).resolve_left not_mem_nil
        have hPlanned := (ih j (by omega) second).mp hPlanned
        have hSame := layered.at_unique hPlanned (hNext hFirst hPair)
        omega
    · intro hAt
      obtain ⟨other, _, hBehind⟩ := layered.caused i txID hAt
      obtain ⟨⟨key, first, hPair⟩, hStep⟩ := stepwise txID ⟨other, hBehind⟩
      obtain ⟨n, hFirst⟩ := exists_at_iff.mpr
        (drained.partition.mem_iff.mpr (idle.mem_of_ahead (ahead_of_front hPair)).1)
      have hDepth := hStep key first hPair n (layered.isGreatest hFirst)
      obtain rfl : n = i := Nat.succ.inj (hDepth.unique (layered.isGreatest hAt))
      obtain ⟨j, hj, hPlanned⟩ := (planned.followed n first
        ((ih n n.lt_succ_self first).mpr hFirst) key txID hPair).resolve_left not_mem_nil
      rcases hj.lt_or_eq with hLess | rfl
      · exact absurd (layered.at_unique ((ih j hLess txID).mp hPlanned) hAt) hLess.ne
      · exact hPlanned

/-- A plan that has everybody, and that respects the order, is one of a stepwise order. -/
theorem Planned.stepwise (idle : Idle added [] ds)
    (planned : Planned ds added [] ds.readyQueue plan) (hAll : ∀ txID ∈ added, txID ∈ plan.flatten)
    (hBelow : ∀ first second, ds.Ahead first second → ∀ i j, At plan i first →
      At plan j second → i < j) : Stepwise fun key => (ds.keyQueues key).ids := by
  have layered : Layered ds.Ahead plan := by
    refine ⟨fun j txID hAt other hOrder => ?_, fun i txID hAt => ?_⟩
    · obtain ⟨i, hOther⟩ := exists_at_iff.mpr (hAll other (idle.mem_of_ahead hOrder).1)
      exact ⟨i, hBelow other txID hOrder i j hOther hAt, hOther⟩
    · obtain ⟨first, key, marked, hFirst, hMarked, _, follows⟩ := planned.caused i txID hAt
      exact ⟨first, hFirst, follows.ahead hMarked⟩
  rintro txID ⟨other, hBehind⟩
  refine ⟨?_, fun key first hPair n hGreatest => ?_⟩
  · obtain ⟨j, hAt⟩ := exists_at_iff.mpr (hAll txID (idle.mem_of_ahead hBehind).2)
    obtain ⟨i, hLess, _⟩ := layered.below j txID hAt other hBehind
    obtain ⟨j, rfl⟩ := Nat.exists_eq_add_of_le' (Nat.one_le_of_lt hLess)
    obtain ⟨first, key, marked, hFirst, hMarked, hEarlier, follows⟩ := planned.caused j txID hAt
    rcases follows.second hMarked with hPair | ⟨second, hSecond, hPair⟩
    · exact ⟨key, first, hPair⟩
    · obtain ⟨j', hj', hPlanned⟩ := (hEarlier second hSecond).resolve_left not_mem_nil
      have hAfter := hBelow first second (ahead_of_front hPair) j j' hFirst hPlanned
      omega
  · have hOrder := ahead_of_front hPair
    have hFirst := layered.at_of_isGreatest (hAll first (idle.mem_of_ahead hOrder).1) hGreatest
    obtain ⟨j, hj, hPlanned⟩ :=
      (planned.followed n first hFirst key txID hPair).resolve_left not_mem_nil
    have hAfter := hBelow first txID hOrder n j hFirst hPlanned
    obtain rfl : j = n + 1 := by omega
    exact layered.isGreatest hPlanned

/-- The plan is right, and it is that of the drained scheduler, exactly in a stepwise order. -/
theorem Planned.valid_iff (idle : Idle added [] ds)
    (planned : Planned ds added [] ds.readyQueue plan)
    (drained : Drained ds added ds' drainedPlan) :
    ((plan.flatten.Perm added ∧ ∀ first second, ds.Ahead first second → ∀ i j,
      At plan i first → At plan j second → i < j) ↔ Stepwise fun key => (ds.keyQueues key).ids) ∧
    (plan = drainedPlan ↔ Stepwise fun key => (ds.keyQueues key).ids) := by
  have hSame : Stepwise (fun key => (ds.keyQueues key).ids) → plan = drainedPlan :=
    fun stepwise => eq_of_at_iff (planned.at_iff idle drained stepwise) planned.nonempty
      drained.nonempty planned.sorted drained.sorted
  have hDrained : drainedPlan.flatten.Perm added ∧ ∀ first second, ds.Ahead first second →
      ∀ i j, At drainedPlan i first → At drainedPlan j second → i < j := by
    refine ⟨drained.partition, fun first second hOrder i j hFirst hSecond => ?_⟩
    obtain ⟨i', hLess, hFirst'⟩ := drained.layered.below j second hSecond first hOrder
    rwa [drained.layered.at_unique hFirst hFirst']
  have hValid : (plan.flatten.Perm added ∧ ∀ first second, ds.Ahead first second → ∀ i j,
      At plan i first → At plan j second → i < j) → Stepwise fun key => (ds.keyQueues key).ids :=
    fun valid => planned.stepwise idle (fun txID hm => valid.1.mem_iff.mpr hm) valid.2
  refine ⟨⟨hValid, fun stepwise => ?_⟩, fun h => hValid ?_, hSame⟩
  · rw [hSame stepwise]
    exact hDrained
  · rw [h]
    exact hDrained

end Comparison

section Contexts

variable {contexts : List TransactionContext}

/-- The transactions as `Depurge_schedule` adds them. -/
def queued (contexts : List TransactionContext) : List (String × List String) :=
  (sortContexts contexts).map fun ctx => (ctx.TxID, contextKeys ctx)

/-- Every transaction is planned once, and of two with a common key the one with the smaller
ID is planned in an earlier level. -/
def ValidPlan (contexts : List TransactionContext) (plan : List (List String)) : Prop :=
  plan.flatten.Perm (contexts.map TransactionContext.TxID) ∧
    ∀ ctx ∈ contexts, ∀ ctx' ∈ contexts, ctx.TxID < ctx'.TxID →
      (∃ key ∈ contextKeys ctx, key ∈ contextKeys ctx') →
        ∀ i j, At plan i ctx.TxID → At plan j ctx'.TxID → i < j

theorem Depurge_schedule_eq (contexts : List TransactionContext) :
    Depurge_schedule contexts = fill (queued contexts) := by
  rw [fill, queued, foldl_map]
  rfl

theorem queued_ids (contexts : List TransactionContext) :
    (queued contexts).map Prod.fst = addedIDs contexts := by
  rw [queued, map_map]
  rfl

theorem mem_holders_queued (contexts : List TransactionContext) (key txID : String) :
    txID ∈ holders (queued contexts) key ↔
      ∃ ctx ∈ contexts, ctx.TxID = txID ∧ key ∈ contextKeys ctx := by
  simp only [holders, queued, mem_map, mem_filter, sortContexts,
    (perm_insertionSort _ contexts).mem_iff, decide_eq_true_eq]
  constructor
  · rintro ⟨_, ⟨⟨ctx, hm, rfl⟩, hKey⟩, rfl⟩
    exact ⟨ctx, hm, rfl, hKey⟩
  · rintro ⟨ctx, hm, rfl, hKey⟩
    exact ⟨_, ⟨⟨ctx, hm, rfl⟩, hKey⟩, rfl⟩

theorem inOrder_queued_iff (distinct : (contexts.map TransactionContext.TxID).Nodup)
    (first second : String) :
    InOrder (holders (queued contexts)) first second ↔
      ∃ ctx ∈ contexts, ∃ ctx' ∈ contexts, ctx.TxID = first ∧ ctx'.TxID = second ∧
        first < second ∧ ∃ key ∈ contextKeys ctx, key ∈ contextKeys ctx' := by
  have hSorted : ∀ key, (holders (queued contexts) key).Pairwise (· < ·) := by
    intro key
    have hSublist := holders_sublist (queued contexts) key
    rw [queued_ids] at hSublist
    exact (addedIDs_sorted distinct).sublist hSublist
  constructor
  · rintro ⟨key, hOrder⟩
    obtain ⟨ctx, hm, rfl, hKey⟩ :=
      (mem_holders_queued contexts key first).mp (hOrder.subset (by simp))
    obtain ⟨ctx', hm', rfl, hKey'⟩ :=
      (mem_holders_queued contexts key second).mp (hOrder.subset (by simp))
    exact ⟨ctx, hm, ctx', hm', rfl, rfl, by simpa using (hSorted key).sublist hOrder, key, hKey,
      hKey'⟩
  · rintro ⟨ctx, hm, ctx', hm', rfl, rfl, hLess, key, hKey, hKey'⟩
    have hPair : [ctx.TxID, ctx'.TxID].Pairwise (· < ·) := by simpa using hLess
    refine ⟨key, sublist_of_subperm_of_pairwise (subperm_of_subset hPair.nodup ?_)
      hPair (hSorted key)⟩
    intro txID hTx
    rw [mem_holders_queued]
    rcases mem_pair.mp hTx with rfl | rfl
    · exact ⟨ctx, hm, rfl, hKey⟩
    · exact ⟨ctx', hm', rfl, hKey'⟩

/-- For contexts with distinct and non-empty IDs `buildLevels` returns, and so does `schedule`.
The plan is valid, and it is the one of the drained scheduler, if and only if the order of the
holders is stepwise. -/
theorem buildLevels_valid_iff (distinct : (contexts.map TransactionContext.TxID).Nodup)
    (hNamed : "" ∉ contexts.map TransactionContext.TxID) :
    ∃ plan ds drainedPlan, (∀ rounds, contexts.length < rounds →
        (Depurge_schedule contexts).buildLevels rounds = some plan ∧
          (Depurge_schedule contexts).schedule rounds = some (ds, drainedPlan)) ∧
      (ValidPlan contexts plan ↔ Stepwise (holders (queued contexts))) ∧
      (plan = drainedPlan ↔ Stepwise (holders (queued contexts))) := by
  have hPerm : ((queued contexts).map Prod.fst).Perm (contexts.map TransactionContext.TxID) := by
    rw [queued_ids]
    exact (perm_insertionSort _ contexts).map _
  obtain ⟨idle, hQueues⟩ := idle_fill (hPerm.nodup_iff.mpr distinct)
    (fun hm => hNamed (hPerm.mem_iff.mp hm))
  rw [← Depurge_schedule_eq] at idle hQueues
  have hHolders : (fun key => ((Depurge_schedule contexts).keyQueues key).ids) =
      holders (queued contexts) := funext hQueues
  have hLength : ((queued contexts).map Prod.fst).length = contexts.length :=
    hPerm.length_eq.trans (length_map _)
  obtain ⟨plan, hPlan, planned⟩ := idle.planned (Nat.lt_succ_self _)
  obtain ⟨ds, drainedPlan, hDrained, drained⟩ := idle.drained (Nat.lt_succ_self _)
  rw [hLength] at hPlan
  have hAll : ((queued contexts).map Prod.fst).filter (· ∉ ([] : List String)) =
      (queued contexts).map Prod.fst := by simp
  rw [hAll] at drained hDrained
  rw [hLength] at hDrained
  have hIff := planned.valid_iff idle drained
  rw [hHolders] at hIff
  refine ⟨plan, ds, drainedPlan, fun rounds hRounds => ⟨?_, levels_mono hRounds hDrained⟩, ?_,
    hIff.2⟩
  · obtain ⟨result, hResult, hSnd⟩ := Option.map_eq_some_iff.mp hPlan
    rw [buildLevels, levels_mono hRounds hResult, Option.map_some, hSnd]
  · rw [← hIff.1, ValidPlan, hPerm.congr_right]
    refine and_congr_right fun _ => ?_
    have hOrder : ∀ first second, (Depurge_schedule contexts).Ahead first second ↔
        InOrder (holders (queued contexts)) first second := by
      intro first second
      rw [← hHolders]
      rfl
    simp only [hOrder, inOrder_queued_iff distinct]
    constructor
    · rintro hValid _ _ ⟨ctx, hm, ctx', hm', rfl, rfl, hLess, hKey⟩
      exact hValid ctx hm ctx' hm' hLess hKey
    · intro hValid ctx hm ctx' hm' hLess hKey
      exact hValid _ _ ⟨ctx, hm, ctx', hm', rfl, rfl, hLess, hKey⟩

/-- With two holders of one key the plan is right. -/
theorem twoOnOneKey_plan_valid :
    (Depurge_schedule Session.twoOnOneKey).buildLevels 3 = some [["a"], ["b"]] ∧
      ValidPlan Session.twoOnOneKey [["a"], ["b"]] := by
  have hBuilt : (Depurge_schedule Session.twoOnOneKey).buildLevels 3 = some [["a"], ["b"]] := by
    decide
  have hDrained : ((Depurge_schedule Session.twoOnOneKey).schedule 3).map Prod.snd =
      some [["a"], ["b"]] := by
    decide
  obtain ⟨plan, ds, drainedPlan, hReturned, hValid, hSame⟩ :=
    @buildLevels_valid_iff Session.twoOnOneKey (by decide) (by decide)
  obtain ⟨hPlan, hSchedule⟩ := hReturned 3 (by decide)
  rw [hSchedule] at hDrained
  obtain rfl : drainedPlan = [["a"], ["b"]] := Option.some.inj hDrained
  obtain rfl : plan = [["a"], ["b"]] := Option.some.inj (hPlan.symm.trans hBuilt)
  exact ⟨hBuilt, hValid.mpr (hSame.mp rfl)⟩

def threeOnOneKey : List TransactionContext :=
  [⟨"a", [("k", [])], []⟩, ⟨"b", [("k", [])], []⟩, ⟨"c", [("k", [])], []⟩]

/-- The last one is second on one key and third on the other. -/
def secondAndThird : List TransactionContext :=
  [⟨"a", [("k", [])], []⟩, ⟨"b", [("m", [])], []⟩, ⟨"c", [("m", [])], []⟩,
    ⟨"d", [("k", []), ("m", [])], []⟩]

/-- The third holder of a key is not planned at all. A transaction that is second on one key
is planned beside the one before it on another. -/
theorem buildLevels_invalid :
    ((Depurge_schedule threeOnOneKey).buildLevels 4 = some [["a"], ["b"]] ∧
      ((Depurge_schedule threeOnOneKey).schedule 4).map Prod.snd = some [["a"], ["b"], ["c"]] ∧
      ¬ ValidPlan threeOnOneKey [["a"], ["b"]]) ∧
    (Depurge_schedule secondAndThird).buildLevels 5 = some [["a", "b"], ["c", "d"]] ∧
      ((Depurge_schedule secondAndThird).schedule 5).map Prod.snd =
        some [["a", "b"], ["c"], ["d"]] ∧
      ¬ ValidPlan secondAndThird [["a", "b"], ["c", "d"]] := by
  refine ⟨⟨by decide, by decide, fun valid => ?_⟩, by decide, by decide, fun valid => ?_⟩
  · exact absurd valid.1.length_eq (by decide)
  · have hEarlier := valid.2 ⟨"c", [("m", [])], []⟩ (by simp [secondAndThird])
      ⟨"d", [("k", []), ("m", [])], []⟩ (by simp [secondAndThird]) (by decide)
      ⟨"m", by decide, by decide⟩ 1 1 ⟨["c", "d"], rfl, by decide⟩ ⟨["c", "d"], rfl, by decide⟩
    exact Nat.lt_irrefl 1 hEarlier

end Contexts
end DepurgeScheduler
end Nezha
