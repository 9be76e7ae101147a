import NezhaConcurrency.Driver.TestVegeta
import NezhaConcurrency.Library.Tally

/-! What becomes of each transaction that `TestDepurge` and `TestVegeta` hand to a
worker. Only a transaction whose real keys are too many is listed for the serial
replay. One whose re-execution returns an error is counted and left out. -/
namespace Nezha

open DepurgeScheduler Function List

/-- What a worker does for the accounts: it applies the differences to `committedState`,
its re-execution fails, or it appends the transaction to `serialReplayList`. -/
inductive TestCall where
  | apply
  | fail
  | append

/-- The moves by which a worker of `TestDepurge` makes a call. -/
def TestPc.makes : TestCall → TestPc → TestPc → Bool
  | .apply, .merging _ _, .returning (some _) => true
  | .fail, .snapshotted _ _, .aborting false => true
  | .append, .appending, .returning none => true
  | _, _, _ => false

/-- Whether the differences have been applied. -/
def TestPc.applied : TestPc → Nat
  | .returning (some _) => 1
  | .returned (some _) => 1
  | _ => 0

/-- Whether the transaction has failed or been listed. -/
def TestPc.dropped : TestPc → Nat
  | .aborting false => 1
  | .returning none => 1
  | .returned none => 1
  | _ => 0

theorem TestPc.makes_self (call : TestCall) (pc : TestPc) : makes call pc pc = false := by
  cases call <;> cases pc <;> rfl

/-- The moves by which a worker of `TestVegeta` makes a call. -/
def VegetaPc.makes : TestCall → VegetaPc → VegetaPc → Bool
  | .apply, .applying _ _, .returned (some _) => true
  | .fail, .snapshotted _ _, .returned none => true
  | .append, .listing, .returned none => true
  | _, _, _ => false

def VegetaPc.applied : VegetaPc → Nat
  | .returned (some _) => 1
  | _ => 0

def VegetaPc.dropped : VegetaPc → Nat
  | .returned none => 1
  | _ => 0

theorem VegetaPc.makes_self (call : TestCall) (pc : VegetaPc) : makes call pc pc = false := by
  cases call <;> cases pc <;> rfl

/-- The three ways in which a transaction can end. It is committed, or listed and then
attempted by the serial replay, or its re-execution has failed. -/
inductive Settled (calls : TestCall → String → Nat) (serialReplayList attempted : List String)
    (txID : String) : Prop where
  | committed (hFail : calls .fail txID = 0) (hApply : calls .apply txID = 1)
      (hList : txID ∉ serialReplayList)
  | listed (hFail : calls .fail txID = 0) (hApply : calls .apply txID = 0)
      (hList : serialReplayList.count txID = 1) (hAttempted : attempted.count txID = 1)
  | failed (hFail : calls .fail txID = 1) (hApply : calls .apply txID = 0)
      (hList : txID ∉ serialReplayList)

theorem Settled.of_counts {calls : TestCall → String → Nat}
    {serialReplayList attempted : List String} {txID : String} (committed : Option RealRWSet)
    (hApply : calls .apply txID = committed.isSome.toNat)
    (hDropped : calls .fail txID + calls .append txID = committed.isNone.toNat)
    (hList : calls .append txID = serialReplayList.count txID)
    (hAttempted : attempted.count txID = serialReplayList.count txID) :
    Settled calls serialReplayList attempted txID := by
  cases committed with
  | some result =>
    change calls .fail txID + calls .append txID = 0 at hDropped
    exact .committed (by omega) hApply (count_eq_zero.mp (by omega))
  | none =>
    change calls .fail txID + calls .append txID = 1 at hDropped
    rcases Nat.eq_zero_or_pos (calls .fail txID) with hFail | hFail
    · exact .listed hFail hApply (by omega) (by omega)
    · exact .failed (by omega) hApply (count_eq_zero.mp (by omega))

/-! ### `TestDepurge` -/

/-- The moves of one worker. The worker of a transaction without a context would return
and leave no trace; there is none. -/
inductive TestPc.Move : TestPc → TestPc → Prop where
  | stay (pc : TestPc) : Move pc pc
  | snapshot (ctx : LLMContext) (contractState : String → Option (List UInt8)) :
      Move .start (.snapshotted ctx contractState)
  | fail (ctx : LLMContext) (contractState : String → Option (List UInt8)) :
      Move (.snapshotted ctx contractState) (.aborting false)
  | exceed (ctx : LLMContext) (contractState : String → Option (List UInt8)) :
      Move (.snapshotted ctx contractState) (.aborting true)
  | spurious (ctx : LLMContext) (contractState : String → Option (List UInt8))
      (result : RealRWSet) : Move (.snapshotted ctx contractState) (.pruning ctx result)
  | pass (ctx : LLMContext) (contractState : String → Option (List UInt8))
      (result : RealRWSet) : Move (.snapshotted ctx contractState) (.executing ctx result)
  | abort (listed : Bool) : Move (.aborting listed) (if listed then .appending else .returning none)
  | append : Move .appending (.returning none)
  | prune (ctx : LLMContext) (result : RealRWSet) :
      Move (.pruning ctx result) (.executing ctx result)
  | execute (ctx : LLMContext) (result : RealRWSet) :
      Move (.executing ctx result) (.merging ctx result)
  | merge (ctx : LLMContext) (result : RealRWSet) :
      Move (.merging ctx result) (.returning (some result))
  | decrement (committed : Option RealRWSet) : Move (.returning committed) (.returned committed)

theorem TestPc.Move.check (ctx : LLMContext) (contractState : String → Option (List UInt8))
    (keys : List String) (outcome : Option RealRWSet) :
    Move (.snapshotted ctx contractState) (checkRealKeys ctx keys outcome) := by
  cases outcome with
  | none => exact .fail ctx contractState
  | some result =>
    rw [checkRealKeys]
    split_ifs
    · exact .spurious ctx contractState result
    · exact .pass ctx contractState result
    · exact .exceed ctx contractState

theorem TestPc.Move.applied {pc pc' : TestPc} (move : Move pc pc') :
    pc'.applied = pc.applied + (makes .apply pc pc').toNat := by
  cases move with
  | stay => rw [makes_self]; rfl
  | abort listed => cases listed <;> rfl
  | decrement committed => cases committed <;> rfl
  | snapshot | fail | exceed | spurious | pass | append | prune | execute | merge => rfl

theorem TestPc.Move.dropped {pc pc' : TestPc} (move : Move pc pc') :
    pc'.dropped = pc.dropped + ((makes .fail pc pc').toNat + (makes .append pc pc').toNat) := by
  cases move with
  | stay => rw [makes_self, makes_self]; rfl
  | abort listed => cases listed <;> rfl
  | decrement committed => cases committed <;> rfl
  | snapshot | fail | exceed | spurious | pass | append | prune | execute | merge => rfl

namespace TestState

variable {block : TestBlock} {r r' : TestState}

/-- A step with the calls of its worker counted. -/
abbrev CountedStep (block : TestBlock) (before after : TestState × (TestCall → String → Nat)) :
    Prop :=
  Tally.Counted (Step block) TestState.pc TestPc.makes before after

theorem Step.move (step : Step block r r')
    (known : ∀ txID, r.driver.worker txID = .running → ∃ ctx ∈ block.contexts, ctx.TxID = txID)
    (txID : String) : (r.pc txID).Move (r'.pc txID) := by
  have moved : ∀ {mover : String} {next : TestPc}, r'.pc = update r.pc mover next →
      (r.pc mover).Move next → (r.pc txID).Move (r'.pc txID) :=
    fun hAfter hMove => Tally.forall_of_update TestPc.Move .stay hAfter hMove txID
  cases step with
  | main driver h => exact .stay _
  | noContext mover hWorker hPc hNone =>
    obtain ⟨ctx, hCtx, hID⟩ := known mover hWorker
    exact absurd hID (hNone ctx hCtx)
  | snapshot mover ctx hWorker hPc hCtx hID => exact moved rfl (hPc ▸ .snapshot _ _)
  | reExecute mover ctx state outcome hPc hOutcome => exact moved rfl (hPc ▸ .check _ _ _ _)
  | abort mover listed hPc => exact moved rfl (hPc ▸ .abort listed)
  | append mover hPc => exact moved rfl (hPc ▸ .append)
  | prune mover ctx result hPc => exact moved rfl (hPc ▸ .prune _ _)
  | execute mover ctx result hPc => exact moved rfl (hPc ▸ .execute _ _)
  | merge mover ctx result hPc => exact moved rfl (hPc ▸ .merge _ _)
  | decrement mover committed hPc => exact moved rfl (hPc ▸ .decrement _)

theorem Step.listed (step : Step block r r') (txID : String) :
    r'.serialReplayList.count txID = r.serialReplayList.count txID +
      (TestPc.makes .append (r.pc txID) (r'.pc txID)).toNat := by
  have silent : ∀ {mover : String} {next : TestPc}, r'.pc = update r.pc mover next →
      TestPc.makes .append (r.pc mover) next = false →
      TestPc.makes .append (r.pc txID) (r'.pc txID) = false :=
    fun hAfter hMove => Tally.forall_of_update (fun pc pc' => TestPc.makes .append pc pc' = false)
      (TestPc.makes_self .append) hAfter hMove txID
  cases step with
  | main driver h => rw [TestPc.makes_self]; rfl
  | append mover hPc =>
    by_cases hne : txID = mover
    · subst hne
      simp [goto, hPc, TestPc.makes]
    · simp [goto, update_of_ne hne, TestPc.makes_self, Ne.symm hne]
  | noContext _ _ hPc _ | snapshot _ _ _ hPc _ _ | reExecute _ _ _ _ hPc _ | abort _ _ hPc
  | prune _ _ _ hPc | execute _ _ _ hPc | merge _ _ _ hPc | decrement _ _ hPc =>
    rw [silent rfl (by rw [hPc]; rfl)]
    rfl

section Runs

variable (distinct : (block.contexts.map (·.TxID)).Nodup)

include distinct

theorem context_of_worker (run : Reachable block r) {txID : String}
    (hWorker : r.driver.worker txID ≠ .idle) : ∃ ctx ∈ block.contexts, ctx.TxID = txID := by
  have hDistinct : ((block.contexts.map LLMContext.toTransactionContext).map
      TransactionContext.TxID).Nodup := by
    rw [map_map]
    exact distinct
  have hDriver := (run.simulated distinct).1
  have hStarted := (hDriver.invariant hDistinct).started txID hWorker
  have hAdded := ((hDriver.session.invariant hDistinct).known txID hStarted).1
  obtain ⟨_, hCtx, rfl⟩ := (mem_addedIDs _ txID).mp hAdded
  obtain ⟨ctx, hIn, rfl⟩ := mem_map.mp hCtx
  exact ⟨ctx, hIn, rfl⟩

theorem move_of_step (run : Reachable block r) (step : Step block r r') (txID : String) :
    (r.pc txID).Move (r'.pc txID) :=
  step.move (fun other hWorker => context_of_worker distinct run
    (by rw [hWorker]; exact WorkerState.noConfusion)) txID

/-- When the loop is left, every worker has returned. -/
theorem returned_of_exited (run : Reachable block r) (hExit : r.driver.loop = .exited)
    {txID : String} (hWorker : r.driver.worker txID ≠ .idle) :
    ∃ committed, r.pc txID = .returned committed := by
  have hDistinct : ((block.contexts.map LLMContext.toTransactionContext).map
      TransactionContext.TxID).Nodup := by
    rw [map_map]
    exact distinct
  obtain ⟨hDriver, hLinked⟩ := run.simulated distinct
  have hIdle := hDriver.no_worker_of_exited hDistinct hExit txID
  have hLink := hLinked txID
  cases hPc : r.pc txID with
  | returned committed => exact ⟨committed, rfl⟩
  | start =>
    rw [hPc] at hLink
    rcases hLink with h | h
    · exact absurd h hWorker
    · exact absurd h.1 hIdle
  | snapshotted | aborting | appending | pruning | executing | merging | returning =>
    rw [hPc] at hLink
    exact absurd hLink.1 hIdle

variable {calls : TestCall → String → Nat}

/-- The calls of a run are read off the places of its workers. -/
theorem counts_of_run (run : Relation.ReflTransGen (CountedStep block)
      (init block, fun _ _ => 0) (r, calls)) (txID : String) :
    calls .apply txID = (r.pc txID).applied ∧
      calls .fail txID + calls .append txID = (r.pc txID).dropped ∧
      calls .append txID = r.serialReplayList.count txID := by
  have hMove : ∀ r r', Relation.ReflTransGen (Step block) (init block) r → Step block r r' →
      ∀ txID, (r.pc txID).Move (r'.pc txID) :=
    fun _ _ hRun hStep txID => move_of_step distinct hRun hStep txID
  have hApplied := Tally.count_of_run .apply (fun r txID => (r.pc txID).applied)
    (fun _ _ hRun hStep txID => (hMove _ _ hRun hStep txID).applied) run txID
  have hDropped := Tally.total_of_run [.fail, .append] (fun r txID => (r.pc txID).dropped)
    (fun _ _ hRun hStep txID => by simpa using (hMove _ _ hRun hStep txID).dropped) run txID
  have hListed := Tally.count_of_run .append (fun r txID => r.serialReplayList.count txID)
    (fun _ _ _ hStep txID => hStep.listed txID) run txID
  simp only [init, TestPc.applied, TestPc.dropped, count_nil, map_cons, map_nil,
    sum_cons, sum_nil, Nat.add_zero, Nat.zero_add] at hApplied hDropped hListed
  exact ⟨hApplied, hDropped, hListed⟩

end Runs
end TestState

/-- A run of `TestDepurge` up to the end of its serial replay. The contexts are a map. -/
structure DepurgeRun where
  block : TestBlock
  distinct : (block.contexts.map (·.TxID)).Nodup
  r : TestState
  calls : TestCall → String → Nat
  validates : Relation.ReflTransGen (TestState.CountedStep block)
    (TestState.init block, fun _ _ => 0) (r, calls)
  exited : r.driver.loop = .exited
  attempts : List (LLMContext × Option RealRWSet)
  final : CommittedState
  replays : SerialReplay block.contexts block.reExecutes (sortStrings r.serialReplayList)
    r.committedState attempts final

namespace DepurgeRun

variable (run : DepurgeRun)

def attempted : List String := run.attempts.map (·.1.TxID)

theorem reachable : TestState.Reachable run.block run.r := Tally.run_of_counted run.validates

theorem context_of_listed {txID : String} (hList : txID ∈ run.r.serialReplayList) :
    ∃ ctx ∈ run.block.contexts, ctx.TxID = txID := by
  refine TestState.context_of_worker run.distinct run.reachable fun hIdle => ?_
  obtain ⟨_, hDropped, hListed⟩ := TestState.counts_of_run run.distinct run.validates txID
  have hLink := (run.reachable.simulated run.distinct).2 txID
  rw [hIdle] at hLink
  have hPc : run.r.pc txID = .start := by
    cases hPc : run.r.pc txID with
    | start => rfl
    | snapshotted | aborting | appending | pruning | executing | merging | returning
    | returned =>
      rw [hPc] at hLink
      cases hLink.1
  have hCount := count_pos_iff.mpr hList
  rw [hPc, show TestPc.start.dropped = 0 from rfl] at hDropped
  omega

theorem attempted_eq : run.attempted = sortStrings run.r.serialReplayList :=
  run.replays.attempts_eq fun _ hTx => run.context_of_listed ((mem_sortStrings _ _).mp hTx)

theorem settled {txID : String} (hWorker : run.r.driver.worker txID ≠ .idle) :
    Settled run.calls run.r.serialReplayList run.attempted txID := by
  obtain ⟨committed, hPc⟩ :=
    TestState.returned_of_exited run.distinct run.reachable run.exited hWorker
  obtain ⟨hApplied, hDropped, hListed⟩ :=
    TestState.counts_of_run run.distinct run.validates txID
  rw [hPc] at hApplied hDropped
  refine .of_counts committed ?_ ?_ hListed ?_
  · rw [hApplied]
    cases committed <;> rfl
  · rw [hDropped]
    cases committed <;> rfl
  · rw [attempted_eq]
    exact (perm_insertionSort _ _).count_eq _

end DepurgeRun

/-! ### `TestVegeta` -/

/-- The moves of one worker. -/
inductive VegetaPc.Move : VegetaPc → VegetaPc → Prop where
  | stay (pc : VegetaPc) : Move pc pc
  | snapshot (ctx : LLMContext) (contractState : String → Option (List UInt8)) :
      Move .start (.snapshotted ctx contractState)
  | fail (ctx : LLMContext) (contractState : String → Option (List UInt8)) :
      Move (.snapshotted ctx contractState) (.returned none)
  | exceed (ctx : LLMContext) (contractState : String → Option (List UInt8)) :
      Move (.snapshotted ctx contractState) .listing
  | pass (ctx : LLMContext) (contractState : String → Option (List UInt8))
      (result : RealRWSet) : Move (.snapshotted ctx contractState) (.applying ctx result)
  | append : Move .listing (.returned none)
  | apply (ctx : LLMContext) (result : RealRWSet) :
      Move (.applying ctx result) (.returned (some result))

theorem VegetaPc.Move.applied {pc pc' : VegetaPc} (move : Move pc pc') :
    pc'.applied = pc.applied + (makes .apply pc pc').toNat := by
  cases move with
  | stay => rw [makes_self]; rfl
  | snapshot | fail | exceed | pass | append | apply => rfl

theorem VegetaPc.Move.dropped {pc pc' : VegetaPc} (move : Move pc pc') :
    pc'.dropped = pc.dropped + ((makes .fail pc pc').toNat + (makes .append pc pc').toNat) := by
  cases move with
  | stay => rw [makes_self, makes_self]; rfl
  | snapshot | fail | exceed | pass | append | apply => rfl

theorem VegetaPc.Move.returned {committed : Option RealRWSet} {pc : VegetaPc}
    (move : Move (.returned committed) pc) : pc = .returned committed := by
  cases move
  rfl

namespace VegetaTest

variable {test : VegetaTest} {batch : List String} {s s' : VegetaTestState}

theorem check_move (ctx : LLMContext) (contractState : String → Option (List UInt8))
    (outcome : Option RealRWSet) :
    VegetaPc.Move (.snapshotted ctx contractState) (test.check ctx outcome) := by
  cases outcome with
  | none => exact .fail ctx contractState
  | some result =>
    rw [check]
    split_ifs
    · exact .pass ctx contractState result
    · exact .exceed ctx contractState

theorem Step.move (step : test.Step batch s s') (hBatch : batch ⊆ test.contextIDs)
    (txID : String) : (s.pc txID).Move (s'.pc txID) := by
  have moved : ∀ {mover : String} {next : VegetaPc}, s'.pc = update s.pc mover next →
      (s.pc mover).Move next → (s.pc txID).Move (s'.pc txID) :=
    fun hAfter hMove => Tally.forall_of_update VegetaPc.Move .stay hAfter hMove txID
  cases step with
  | noContext mover hIn hPc hNone =>
    obtain ⟨ctx, hCtx, hID⟩ := mem_map.mp (hBatch hIn)
    exact absurd hID (hNone ctx hCtx)
  | snapshot ctx hIn hPc hCtx => exact moved rfl (hPc ▸ .snapshot _ _)
  | reExecute mover ctx state outcome hPc hOutcome => exact moved rfl (hPc ▸ check_move _ _ _)
  | append mover hPc => exact moved rfl (hPc ▸ .append)
  | apply mover ctx result hPc => exact moved rfl (hPc ▸ .apply _ _)

theorem Step.listed (step : test.Step batch s s') (txID : String) :
    s'.serialReplayList.count txID = s.serialReplayList.count txID +
      (VegetaPc.makes .append (s.pc txID) (s'.pc txID)).toNat := by
  have silent : ∀ {mover : String} {next : VegetaPc}, s'.pc = update s.pc mover next →
      VegetaPc.makes .append (s.pc mover) next = false →
      VegetaPc.makes .append (s.pc txID) (s'.pc txID) = false :=
    fun hAfter hMove =>
      Tally.forall_of_update (fun pc pc' => VegetaPc.makes .append pc pc' = false)
        (VegetaPc.makes_self .append) hAfter hMove txID
  cases step with
  | append mover hPc =>
    by_cases hne : txID = mover
    · subst hne
      simp [VegetaTestState.goto, hPc, VegetaPc.makes]
    · simp [VegetaTestState.goto, update_of_ne hne, VegetaPc.makes_self, Ne.symm hne]
  | noContext _ _ hPc _ | snapshot _ _ hPc _ | reExecute _ _ _ _ hPc _ | apply _ _ _ hPc =>
    rw [silent rfl (by rw [hPc]; rfl)]
    rfl

variable (test)

/-- The batches one after the other, with the calls counted. The next one starts when all
workers have returned. -/
inductive Validates : List (List String) → VegetaTestState × (TestCall → String → Nat) →
    VegetaTestState × (TestCall → String → Nat) → Prop where
  | done (s : VegetaTestState × (TestCall → String → Nat)) : Validates [] s s
  | batch {batch : List String} {batches : List (List String)}
      {s s' s'' : VegetaTestState × (TestCall → String → Nat)}
      (run : Relation.ReflTransGen
        (Tally.Counted (test.Step batch) VegetaTestState.pc VegetaPc.makes) s s')
      (returned : ∀ txID ∈ batch, ∃ committed, s'.1.pc txID = .returned committed)
      (later : Validates batches s' s'') : Validates (batch :: batches) s s''

/-- A step of a batch whose transactions have a context. -/
def BatchStep (s s' : VegetaTestState) : Prop :=
  ∃ batch, batch ⊆ test.contextIDs ∧ test.Step batch s s'

variable {test} {batches : List (List String)}
  {before after : VegetaTestState × (TestCall → String → Nat)}

theorem Validates.run (validates : test.Validates batches before after)
    (hBatches : batches.flatten ⊆ test.contextIDs) :
    Relation.ReflTransGen (Tally.Counted test.BatchStep VegetaTestState.pc VegetaPc.makes)
      before after := by
  induction validates with
  | done => exact .refl
  | batch run returned later ih =>
    rw [flatten_cons] at hBatches
    obtain ⟨hBatch, hLater⟩ := append_subset.mp hBatches
    refine .trans ?_ (ih hLater)
    exact Relation.ReflTransGen.mono (fun _ _ h => ⟨⟨_, hBatch, h.1⟩, h.2⟩) _ _ run

theorem returned_of_run {s s' : VegetaTestState} (run : Relation.ReflTransGen test.BatchStep s s')
    {txID : String} {committed : Option RealRWSet} (hPc : s.pc txID = .returned committed) :
    s'.pc txID = .returned committed := by
  induction run with
  | refl => exact hPc
  | tail _ last ih =>
    obtain ⟨batch, hBatch, step⟩ := last
    have hMove := step.move hBatch txID
    rw [ih] at hMove
    exact hMove.returned

theorem Validates.returned (validates : test.Validates batches before after)
    (hBatches : batches.flatten ⊆ test.contextIDs) {txID : String}
    (hTx : txID ∈ batches.flatten) : ∃ committed, after.1.pc txID = .returned committed := by
  induction validates with
  | done => simp at hTx
  | batch run returned later ih =>
    rw [flatten_cons] at hBatches hTx
    have hLater := (append_subset.mp hBatches).2
    rcases mem_append.mp hTx with hFirst | hRest
    · obtain ⟨committed, hPc⟩ := returned txID hFirst
      exact ⟨committed, returned_of_run (Tally.run_of_counted (later.run hLater)) hPc⟩
    · exact ih hLater hRest

theorem pc_of_not_mem {s : VegetaTestState} (run : Relation.ReflTransGen test.BatchStep .init s)
    {txID : String} (hTx : txID ∉ test.contextIDs) : s.pc txID = .start := by
  induction run with
  | refl => rfl
  | @tail s s' _ last ih =>
    obtain ⟨batch, hBatch, step⟩ := last
    have stays : ∀ {mover : String} {next : VegetaPc},
        mover ≠ txID → update s.pc mover next txID = .start :=
      fun hne => (update_of_ne (Ne.symm hne) ..).trans ih
    cases step with
    | noContext mover hIn hPc hNone => exact stays fun h => hTx (h ▸ hBatch hIn)
    | snapshot ctx hIn hPc hCtx => exact stays fun h => hTx (h ▸ hBatch hIn)
    | reExecute mover ctx state outcome hPc hOutcome =>
      exact stays fun h => by rw [h, ih] at hPc; cases hPc
    | append mover hPc => exact stays fun h => by rw [h, ih] at hPc; cases hPc
    | apply mover ctx result hPc => exact stays fun h => by rw [h, ih] at hPc; cases hPc

/-- The calls of a run are read off the places of its workers. -/
theorem counts_of_run {s : VegetaTestState} {calls : TestCall → String → Nat}
    (run : Relation.ReflTransGen (Tally.Counted test.BatchStep VegetaTestState.pc VegetaPc.makes)
      (.init, fun _ _ => 0) (s, calls)) (txID : String) :
    calls .apply txID = (s.pc txID).applied ∧
      calls .fail txID + calls .append txID = (s.pc txID).dropped ∧
      calls .append txID = s.serialReplayList.count txID := by
  have hMove : ∀ s s', test.BatchStep s s' → ∀ txID, (s.pc txID).Move (s'.pc txID) :=
    fun _ _ ⟨_, hBatch, step⟩ txID => step.move hBatch txID
  have hApplied := Tally.count_of_run .apply (fun s txID => (s.pc txID).applied)
    (fun _ _ _ hStep txID => (hMove _ _ hStep txID).applied) run txID
  have hDropped := Tally.total_of_run [.fail, .append] (fun s txID => (s.pc txID).dropped)
    (fun _ _ _ hStep txID => by simpa using (hMove _ _ hStep txID).dropped) run txID
  have hListed := Tally.count_of_run .append (fun s txID => s.serialReplayList.count txID)
    (fun _ _ _ ⟨_, _, step⟩ txID => step.listed txID) run txID
  simp only [VegetaTestState.init, VegetaPc.applied, VegetaPc.dropped, count_nil,
    map_cons, map_nil, sum_cons, sum_nil, Nat.add_zero,
    Nat.zero_add] at hApplied hDropped hListed
  exact ⟨hApplied, hDropped, hListed⟩

end VegetaTest

/-- A run of `TestVegeta` up to the end of its serial replay. -/
structure VegetaRun where
  test : VegetaTest
  order : test.Order
  s : VegetaTestState
  calls : TestCall → String → Nat
  validates : test.Validates (test.batches order) (.init, fun _ _ => 0) (s, calls)
  attempts : List (LLMContext × Option RealRWSet)
  final : CommittedState
  replays : SerialReplay test.contexts test.reExecutes (sortStrings s.serialReplayList)
    s.committedState attempts final

namespace VegetaRun

variable (run : VegetaRun)

def attempted : List String := run.attempts.map (·.1.TxID)

/-- The transactions that are handed to a worker. -/
def dispatched : List String := (run.test.batches run.order).flatten

theorem dispatched_subset : run.dispatched ⊆ run.test.contextIDs :=
  (run.test.batches_perm run.order).subset

theorem counts (txID : String) : run.calls .apply txID = (run.s.pc txID).applied ∧
      run.calls .fail txID + run.calls .append txID = (run.s.pc txID).dropped ∧
      run.calls .append txID = run.s.serialReplayList.count txID :=
  VegetaTest.counts_of_run (run.validates.run run.dispatched_subset) txID

theorem context_of_listed {txID : String} (hList : txID ∈ run.s.serialReplayList) :
    ∃ ctx ∈ run.test.contexts, ctx.TxID = txID := by
  obtain ⟨_, hDropped, hListed⟩ := run.counts txID
  have hCount := count_pos_iff.mpr hList
  by_contra hNone
  have hOut : txID ∉ run.test.contextIDs := fun hIn => hNone (mem_map.mp hIn)
  rw [VegetaTest.pc_of_not_mem (Tally.run_of_counted
    (run.validates.run run.dispatched_subset)) hOut] at hDropped
  change _ = 0 at hDropped
  omega

theorem attempted_eq : run.attempted = sortStrings run.s.serialReplayList :=
  run.replays.attempts_eq fun _ hTx => run.context_of_listed ((mem_sortStrings _ _).mp hTx)

theorem settled {txID : String} (hTx : txID ∈ run.dispatched) :
    Settled run.calls run.s.serialReplayList run.attempted txID := by
  obtain ⟨committed, hPc⟩ := run.validates.returned run.dispatched_subset hTx
  obtain ⟨hApplied, hDropped, hListed⟩ := run.counts txID
  rw [show run.s.pc txID = _ from hPc] at hApplied hDropped
  refine .of_counts committed ?_ ?_ hListed ?_
  · rw [hApplied]
    cases committed <;> rfl
  · rw [hDropped]
    cases committed <;> rfl
  · rw [attempted_eq]
    exact (perm_insertionSort _ _).count_eq _

end VegetaRun

section Dropped

def failingContext : LLMContext where
  TxID := "a"
  PreReadSet := []
  PreWriteSet := [("k", [])]
  ContractName := "Bank"
  Function := "deposit"
  Addr1 := 0
  Addr2 := 0
  LLMReads := []
  LLMWrites := []

/-- Whatever is re-executed fails. -/
def failingBlock : TestBlock where
  cm := ⟨[], id⟩
  contexts := [failingContext]
  reExecutes := fun _ _ outcome => outcome = none

theorem run_failingBlock : ∃ r, TestState.Reachable failingBlock r ∧ r.driver.loop = .exited ∧
      r.driver.worker "a" = .done ∧ r.pc "a" = .returned none ∧ r.serialReplayList = [] := by
  let handedOver : Driver :=
    { session := (Session.init Driver.oneTransaction).popReady
      loop := .popReady
      inProgress := 1
      worker := update (fun _ => .idle) "a" .running }
  let returned : Driver :=
    { handedOver.setWorker "a" .done with
      session := handedOver.session.abort "a"
      inProgress := 0 }
  have hHandOver : Relation.ReflTransGen (Driver.MainStep testDepurgeExitTest)
      (TestState.init failingBlock).driver handedOver :=
    (((Relation.ReflTransGen.single (.readBusy _ .readyQueueLen _ rfl (by decide))).tail
      (.popReady _ rfl (by decide))).tail (.addReady _ "a" rfl)).tail (.invokeReady _ "a" rfl)
  have hStart : TestState.Reachable failingBlock
      { TestState.init failingBlock with driver := handedOver } :=
    TestState.run_main hHandOver
  have hAborted := ((hStart.tail (.snapshot _ "a" failingContext rfl rfl mem_cons_self
    rfl)).tail (.reExecute _ "a" failingContext _ none rfl rfl)).tail (.abort _ "a" false rfl)
  have hReturned := hAborted.tail (.decrement _ "a" none rfl)
  have hExit : Relation.ReflTransGen (Driver.MainStep testDepurgeExitTest) returned _ :=
    Driver.run_exit (by decide) rfl (by decide) (by decide) fun read => by cases read <;> decide
  exact ⟨_, hReturned.trans (TestState.run_main hExit), rfl, rfl, rfl, rfl⟩

def failingTest : VegetaTest where
  contexts := [failingContext]
  distinct := nodup_singleton _
  txs := []
  reExecutes := fun _ _ outcome => outcome = none

def failingOrder : failingTest.Order where
  readIDs := []
  readIDs_perm := .refl _
  readKeys := fun _ => []
  readKeys_perm := fun _ => .refl _
  writeIDs := []
  writeIDs_perm := .refl _
  writeKeys := fun _ => []
  writeKeys_perm := fun _ => .refl _
  keys := []
  keys_perm := .refl _
  chains := []
  chains_perm := .refl _
  sorted := .nil
  remaining := ["a"]
  remaining_perm := .refl _

end Dropped
end Nezha
