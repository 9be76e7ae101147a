import NezhaConcurrency.Driver.ReplaySerializability
import NezhaConcurrency.Driver.ReplayStream
import NezhaConcurrency.Library.Tally

/-! What becomes of each transaction of a replay. A worker commits its transaction
by one call of `Execute` and one merge of its written values, or lists it in
`serialReplayList`. The calls are counted along the run of every block, and since
the scheduler hands out each transaction once, so is each transaction. -/
namespace Nezha

open DepurgeScheduler List

variable {Value : Type}

/-- What a worker does for the accounts: `Execute`, the merge of the written values into
`committedDelta`, and the append to `serialReplayList`. -/
inductive WorkerCall where
  | execute
  | merge
  | append

/-- The moves by which a worker makes a call. -/
def WorkerPc.makes : WorkerCall → WorkerPc Value → WorkerPc Value → Bool
  | .execute, .executing _, .merging _ => true
  | .merge, .merging _, .returning (some _) => true
  | .append, .appending, .returning none => true
  | _, _, _ => false

/-- How often a worker has made a call when it stands here. -/
def WorkerPc.made : WorkerCall → WorkerPc Value → Nat
  | .execute, .merging _ => 1
  | .execute, .returning (some _) => 1
  | .execute, .returned (some _) => 1
  | .merge, .returning (some _) => 1
  | .merge, .returned (some _) => 1
  | .append, .returning none => 1
  | .append, .returned none => 1
  | _, _ => 0

theorem WorkerPc.made_self (call : WorkerCall) (pc : WorkerPc Value) :
    pc.made call = pc.made call + (makes call pc pc).toNat := by
  cases call <;> cases pc <;> rfl

namespace ReplayState

/-- The start of a block, with what earlier blocks left. -/
def start (contexts : List TransactionContext) (committedDelta : String → Option Value)
    (serialReplayList : List String) : ReplayState Value :=
  { init contexts committedDelta with serialReplayList := serialReplayList }

/-- A step with the calls of its worker counted. -/
abbrev CountedStep (block : ReplayBlock Value)
    (before after : ReplayState Value × (WorkerCall → String → Nat)) : Prop :=
  Tally.Counted (Step block) ReplayState.pc WorkerPc.makes before after

section Frame

variable {block : ReplayBlock Value} {contexts : List TransactionContext}
  {committedDelta : String → Option Value} {r r' : ReplayState Value}

def relist (r : ReplayState Value) (serialReplayList : List String) : ReplayState Value :=
  { r with serialReplayList := serialReplayList }

theorem Step.relist (step : Step block r r') (list : List String) :
    ∃ list', Step block (r.relist list) (r'.relist list') := by
  cases step with
  | main driver h => exact ⟨list, .main _ driver h⟩
  | noContext txID hWorker hPc hIdx => exact ⟨list, .noContext _ txID hWorker hPc hIdx⟩
  | snapshot txID txIdx hWorker hPc hIdx => exact ⟨list, .snapshot _ txID txIdx hWorker hPc hIdx⟩
  | acquireError txID txIdx overlay hPc => exact ⟨list, .acquireError _ txID txIdx overlay hPc⟩
  | reExecute txID txIdx overlay hPc => exact ⟨list, .reExecute _ txID txIdx overlay hPc⟩
  | abort txID hPc => exact ⟨list, .abort _ txID hPc⟩
  | append txID hPc => exact ⟨list ++ [txID], .append (r.relist list) txID hPc⟩
  | prune txID result hPc => exact ⟨list, .prune _ txID result hPc⟩
  | execute txID result hPc => exact ⟨list, .execute _ txID result hPc⟩
  | merge txID result hPc => exact ⟨list, .merge _ txID result hPc⟩
  | decrement txID committed hPc => exact ⟨list, .decrement _ txID committed hPc⟩

theorem reachable_relist {list : List String}
    (run : Relation.ReflTransGen (Step block) (start contexts committedDelta list) r) :
    ∃ list', Reachable block contexts committedDelta (r.relist list') := by
  induction run with
  | refl => exact ⟨[], .refl⟩
  | tail _ last ih =>
    obtain ⟨list', hRun⟩ := ih
    obtain ⟨list'', hStep⟩ := last.relist list'
    exact ⟨list'', hRun.tail hStep⟩

/-- A block that starts with any list is simulated by the driver. -/
theorem start_simulated (distinct : (contexts.map TransactionContext.TxID).Nodup)
    {list : List String}
    (run : Relation.ReflTransGen (Step block) (start contexts committedDelta list) r) :
    Driver.Reachable replayExitTest contexts r.driver ∧ r.Linked := by
  obtain ⟨list', hRun⟩ := reachable_relist run
  exact Reachable.simulated (r := r.relist list') distinct hRun

end Frame

section Accounting

variable {block : ReplayBlock Value} {contexts : List TransactionContext}
  {committedDelta : String → Option Value} {list : List String} {r r' : ReplayState Value}

/-- Every step but one keeps to what the place of a worker says. The worker of a
transaction without an index would return and leave no trace. -/
theorem Step.made (step : Step block r r')
    (indexed : ∀ txID, r.driver.worker txID = .running → block.txIDToIdx txID ≠ none)
    (call : WorkerCall) (txID : String) :
    (r'.pc txID).made call =
      (r.pc txID).made call + (WorkerPc.makes call (r.pc txID) (r'.pc txID)).toNat := by
  have moved : ∀ {mover : String} {next : WorkerPc Value},
      r'.pc = Function.update r.pc mover next →
      next.made call = (r.pc mover).made call + (WorkerPc.makes call (r.pc mover) next).toNat →
      (r'.pc txID).made call =
        (r.pc txID).made call + (WorkerPc.makes call (r.pc txID) (r'.pc txID)).toNat :=
    fun hAfter hMove => Tally.forall_of_update (fun pc pc' : WorkerPc Value =>
      pc'.made call = pc.made call + (WorkerPc.makes call pc pc').toNat)
      (WorkerPc.made_self call) hAfter hMove txID
  cases step with
  | main driver h => exact WorkerPc.made_self call (r.pc txID)
  | noContext mover hWorker hPc hIdx => exact absurd hIdx (indexed mover hWorker)
  | reExecute mover txIdx overlay hPc =>
    apply moved rfl
    rcases afterReExecute_cases (r.conservativeKeys mover) (block.ReExecute txIdx overlay) with
      hNext | ⟨result, _, _, hNext | ⟨_, hNext⟩⟩
    all_goals
      rw [hPc, hNext]
      cases call <;> rfl
  | snapshot _ _ _ hPc _ | acquireError _ _ _ hPc | abort _ hPc | append _ hPc
  | prune _ _ hPc | execute _ _ hPc | merge _ _ hPc =>
    apply moved rfl
    rw [hPc]
    cases call <;> rfl
  | decrement mover committed hPc =>
    apply moved rfl
    rw [hPc]
    cases call <;> cases committed <;> rfl

theorem Step.listed (step : Step block r r') (txID : String) :
    r'.serialReplayList.count txID = r.serialReplayList.count txID +
      (WorkerPc.makes .append (r.pc txID) (r'.pc txID)).toNat := by
  have silent : ∀ {mover : String} {next : WorkerPc Value},
      r'.pc = Function.update r.pc mover next →
      WorkerPc.makes .append (r.pc mover) next = false →
      WorkerPc.makes .append (r.pc txID) (r'.pc txID) = false := by
    intro mover next hAfter hMove
    refine Tally.forall_of_update (fun pc pc' => WorkerPc.makes .append pc pc' = false)
      (fun pc => ?_) hAfter hMove txID
    cases pc <;> rfl
  cases step with
  | main driver h => cases r.pc txID <;> rfl
  | append mover hPc =>
    by_cases hne : txID = mover
    · subst hne
      simp [goto, hPc, WorkerPc.makes]
    · have hStill : WorkerPc.makes .append (r.pc txID) (r.pc txID) = false := by
        cases r.pc txID <;> rfl
      simp [goto, Function.update_of_ne hne, hStill, Ne.symm hne]
  | reExecute mover txIdx overlay hPc =>
    rw [silent rfl (by rw [hPc]; rfl)]
    rfl
  | noContext _ _ hPc _ | snapshot _ _ _ hPc _ | acquireError _ _ _ hPc | abort _ hPc
  | prune _ _ hPc | execute _ _ hPc | merge _ _ hPc | decrement _ _ hPc =>
    rw [silent rfl (by rw [hPc]; rfl)]
    rfl

theorem mem_contexts_of_worker (distinct : (contexts.map TransactionContext.TxID).Nodup)
    (run : Driver.Reachable replayExitTest contexts r.driver) {txID : String}
    (hWorker : r.driver.worker txID ≠ .idle) : txID ∈ contexts.map TransactionContext.TxID := by
  have hStarted := (run.invariant distinct).started txID hWorker
  have hAdded := ((run.session.invariant distinct).known txID hStarted).1
  exact mem_map.mpr ((mem_addedIDs contexts txID).mp hAdded)

variable {calls calls' : WorkerCall → String → Nat}

/-- The calls of a whole block are read off the places of its workers. -/
theorem made_of_run (distinct : (contexts.map TransactionContext.TxID).Nodup)
    (indexed : ∀ txID ∈ contexts.map TransactionContext.TxID, block.txIDToIdx txID ≠ none)
    (run : Relation.ReflTransGen (CountedStep block)
      (ReplayState.start contexts committedDelta list, calls) (r, calls'))
    (call : WorkerCall) (txID : String) :
    calls' call txID = calls call txID + (r.pc txID).made call := by
  have hCount := Tally.count_of_run call (fun r txID => (r.pc txID).made call)
    (fun r r' hRun hStep txID => hStep.made (fun other hWorker => indexed other
      (mem_contexts_of_worker distinct (start_simulated distinct hRun).1
        (by rw [hWorker]; exact WorkerState.noConfusion))) call txID) run txID
  have hStart : ((ReplayState.start contexts committedDelta list).pc txID).made call = 0 := by
    cases call <;> rfl
  rwa [hStart, Nat.add_zero] at hCount

theorem listed_of_run (run : Relation.ReflTransGen (CountedStep block)
      (ReplayState.start contexts committedDelta list, calls) (r, calls')) (txID : String) :
    calls' .append txID + list.count txID = calls .append txID + r.serialReplayList.count txID :=
  Tally.count_of_run .append (fun r txID => r.serialReplayList.count txID)
    (fun _ _ _ hStep txID => hStep.listed txID) run txID

theorem pc_of_not_mem (distinct : (contexts.map TransactionContext.TxID).Nodup)
    (run : Relation.ReflTransGen (Step block) (ReplayState.start contexts committedDelta list) r)
    {txID : String} (hTx : txID ∉ contexts.map TransactionContext.TxID) : r.pc txID = .start := by
  obtain ⟨hDriver, hLinked⟩ := start_simulated distinct run
  have hIdle : r.driver.worker txID = .idle := by
    by_contra hWorker
    exact hTx (mem_contexts_of_worker distinct hDriver hWorker)
  have hLink := hLinked txID
  rw [hIdle] at hLink
  cases hPc : r.pc txID with
  | start => rfl
  | snapshotted | aborting | appending | pruning | executing | merging | returning | returned =>
    rw [hPc] at hLink
    cases hLink.1

/-- When the loop is left, the worker of every transaction of the block has returned. -/
theorem returned_of_exited (distinct : (contexts.map TransactionContext.TxID).Nodup)
    (nonempty : "" ∉ contexts.map TransactionContext.TxID)
    (run : Relation.ReflTransGen (Step block) (ReplayState.start contexts committedDelta list) r)
    (hExit : r.driver.loop = .exited) {txID : String}
    (hTx : txID ∈ contexts.map TransactionContext.TxID) :
    ∃ committed, r.pc txID = .returned committed := by
  obtain ⟨hDriver, hLinked⟩ := start_simulated distinct run
  obtain ⟨ctx, hCtx, rfl⟩ := mem_map.mp hTx
  have hNonempty : ∀ ctx ∈ contexts, ctx.TxID ≠ "" := by
    intro ctx' hCtx' hEmpty
    exact nonempty (hEmpty ▸ mem_map_of_mem hCtx')
  have frozen := hDriver.frozen distinct
  have hPassed : ∀ read, r.driver.Passed read := fun _ => Or.inl hExit
  have hDone := (hDriver.all_finished distinct hNonempty (by rw [hExit]; rfl)
    (frozen.workers (hPassed _)) (frozen.ready (hPassed _)) (frozen.prune (hPassed _)) hCtx).2
  have hLink := hLinked ctx.TxID
  rw [hDone] at hLink
  cases hPc : r.pc ctx.TxID with
  | returned committed => exact ⟨committed, rfl⟩
  | start =>
    rw [hPc] at hLink
    rcases hLink with hIdle | hRunning
    · cases hIdle
    · cases hRunning.1
  | snapshotted | aborting | appending | pruning | executing | merging | returning =>
    rw [hPc] at hLink
    cases hLink.1

end Accounting
end ReplayState

namespace ReplayStream

/-- What the blocks share, with the calls so far. -/
structure Shared (Value : Type) where
  committedDelta : String → Option Value
  serialReplayList : List String
  calls : WorkerCall → String → Nat

/-- Where a transaction stands: how often it was executed, merged and listed. -/
def Shared.entry (s : Shared Value) (txID : String) : Nat × Nat × Nat :=
  (s.calls .execute txID, s.calls .merge txID, s.serialReplayList.count txID)

variable (stream : ReplayStream Value)

/-- Before the first block only the transactions without a context are listed. -/
def initial : Shared Value := 
  ⟨fun _ => none, stream.prepared.serialReplayList, fun _ _ => 0⟩

/-- The validation of one block: any interleaving that leaves the main loop. The range
over the map of contexts may visit them in any order. -/
def ValidatesBlock (blockIDs : List String) (s s' : Shared Value) : Prop :=
  ∃ (contexts : List TransactionContext) (r : ReplayState Value),
    contexts.Perm (stream.blockContexts blockIDs) ∧
    Relation.ReflTransGen (ReplayState.CountedStep stream.block)
      (ReplayState.start contexts s.committedDelta s.serialReplayList, s.calls) (r, s'.calls) ∧
    r.driver.loop = .exited ∧ s'.committedDelta = r.committedDelta ∧
    s'.serialReplayList = r.serialReplayList

/-- The validation of the blocks, one after the other. -/
inductive Validates : List (List String) → Shared Value → Shared Value → Prop where
  | nil (s : Shared Value) : Validates [] s s
  | cons {blockIDs : List String} {blocks : List (List String)} {s s' s'' : Shared Value}
      (block : stream.ValidatesBlock blockIDs s s') (rest : Validates blocks s' s'') :
      Validates (blockIDs :: blocks) s s''

variable {stream} {s s' : Shared Value}

/-- A block commits or lists each of its transactions, and leaves all others alone. -/
theorem ValidatesBlock.entry {blockIDs : List String} (nodup : blockIDs.Nodup)
    (hSub : blockIDs ⊆ stream.orderedTxIDs) (block : stream.ValidatesBlock blockIDs s s')
    (txID : String) :
    if txID ∈ blockIDs ∧ stream.prepared.contexts txID ≠ none then
      s'.entry txID = s.entry txID + (1, 1, 0) ∨ s'.entry txID = s.entry txID + (0, 0, 1)
    else s'.entry txID = s.entry txID := by
  obtain ⟨contexts, r, hPerm, hRun, hExit, _, hList⟩ := block
  have hIDs := hPerm.map TransactionContext.TxID
  have hMem : ∀ txID, txID ∈ contexts.map TransactionContext.TxID ↔
      txID ∈ blockIDs ∧ stream.prepared.contexts txID ≠ none :=
    fun txID => hIDs.mem_iff.trans (stream.mem_blockContexts)
  have distinct : (contexts.map TransactionContext.TxID).Nodup :=
    hIDs.nodup_iff.mpr ((stream.blockContexts_sublist blockIDs).nodup nodup)
  have hIndexed : ∀ txID ∈ contexts.map TransactionContext.TxID,
      stream.block.txIDToIdx txID ≠ none :=
    fun txID hTx => stream.prepared_routed.indexed txID (hSub ((hMem txID).mp hTx).1)
  have hSteps := Tally.run_of_counted hRun
  have hMade := ReplayState.made_of_run distinct hIndexed hRun
  have hEntry : s'.entry txID = s.entry txID +
      ((r.pc txID).made .execute, (r.pc txID).made .merge, (r.pc txID).made .append) := by
    have hListed := ReplayState.listed_of_run hRun txID
    rw [hMade] at hListed
    rw [Shared.entry, hList, hMade, hMade, show r.serialReplayList.count txID =
      s.serialReplayList.count txID + (r.pc txID).made .append by omega]
    rfl
  rw [hEntry]
  split
  · next hTx =>
      have hNonempty : "" ∉ contexts.map TransactionContext.TxID :=
        fun hEmpty => stream.hashes (hSub ((hMem "").mp hEmpty).1)
      obtain ⟨committed, hPc⟩ := ReplayState.returned_of_exited distinct hNonempty hSteps hExit
        ((hMem txID).mpr hTx)
      rw [hPc]
      cases committed with
      | none => exact Or.inr rfl
      | some result => exact Or.inl rfl
  · next hTx =>
      rw [ReplayState.pc_of_not_mem distinct hSteps fun hIn => hTx ((hMem txID).mp hIn)]
      rfl

theorem Validates.entry {blocks : List (List String)} (nodup : blocks.flatten.Nodup)
    (hSub : blocks.flatten ⊆ stream.orderedTxIDs) (run : stream.Validates blocks s s')
    (txID : String) :
    if txID ∈ blocks.flatten ∧ stream.prepared.contexts txID ≠ none then
      s'.entry txID = s.entry txID + (1, 1, 0) ∨ s'.entry txID = s.entry txID + (0, 0, 1)
    else s'.entry txID = s.entry txID := by
  induction run with
  | nil s => simp
  | @cons blockIDs blocks s s' s'' block _ ih =>
    rw [flatten_cons] at nodup hSub ⊢
    obtain ⟨hBlock, hBlocks, hDisjoint⟩ := nodup_append.mp nodup
    have hFirst := block.entry hBlock (fun _ h => hSub (mem_append_left _ h)) txID
    have hRest := ih hBlocks fun _ h => hSub (mem_append_right _ h)
    by_cases hCtx : stream.prepared.contexts txID = none
    · simp only [hCtx, ne_eq, not_true_eq_false, and_false, if_false] at hFirst hRest ⊢
      exact hRest.trans hFirst
    by_cases hIn : txID ∈ blockIDs
    · have hOut : txID ∉ blocks.flatten := fun h => hDisjoint txID hIn txID h rfl
      simp only [hIn, hOut, hCtx, ne_eq, not_false_eq_true, and_true, if_true, if_false,
        mem_append, or_false] at hFirst hRest ⊢
      rwa [hRest]
    · simp only [hIn, hCtx, ne_eq, not_false_eq_true, and_true, if_false, mem_append,
        false_or] at hFirst hRest ⊢
      rwa [hFirst] at hRest

/-- When all blocks are validated, every transaction of the stream has been executed and
merged once and is not listed, or is listed once and was neither executed nor merged. -/
theorem replay_accounts_for_every_transaction (stream : ReplayStream Value) (s : Shared Value)
    (run : stream.Validates stream.blocks stream.initial s) :
    ∀ ref ∈ stream.Refs, (s.calls .execute ref.TxHash = 1 ∧ s.calls .merge ref.TxHash = 1 ∧
        ref.TxHash ∉ s.serialReplayList) ∨
      (s.calls .execute ref.TxHash = 0 ∧ s.calls .merge ref.TxHash = 0 ∧
        s.serialReplayList.count ref.TxHash = 1) := by
  intro ref hRef
  have hIn : ref.TxHash ∈ stream.orderedTxIDs := mem_map_of_mem hRef
  have hEntry := run.entry (by rw [flatten_blocks]; exact stream.distinct)
    (by rw [flatten_blocks]; exact List.Subset.refl _) ref.TxHash
  have hListed := stream.prepared_routed.listed ref.TxHash
  have hInitial : stream.initial.entry ref.TxHash =
      (0, 0, stream.prepared.serialReplayList.count ref.TxHash) := rfl
  rw [flatten_blocks, hInitial] at hEntry
  simp only [hIn, true_and] at hEntry hListed
  by_cases hCtx : stream.prepared.contexts ref.TxHash = none
  · rw [if_neg (not_not_intro hCtx), hListed, if_pos hCtx] at hEntry
    simp only [Shared.entry, Prod.mk.injEq] at hEntry
    exact Or.inr hEntry
  · rw [if_pos hCtx, hListed, if_neg hCtx] at hEntry
    simp only [Shared.entry, Prod.mk_add_mk, Prod.mk.injEq, Nat.add_zero, Nat.zero_add] at hEntry
    rw [← count_eq_zero]
    exact hEntry

/-! ### A stream of two blocks -/

/-- `"a"` sets the counter at `"k"`, and the speculation of `"b"` failed. Every block has
one transaction. -/
def counterStream : ReplayStream Nat where
  witness := fun _ => 0
  txs := [.done (["k"], fun _ => some 1), .done ([], fun _ => none)]
  Refs := [⟨1, "a"⟩, ⟨1, "b"⟩]
  specs := [some ⟨⟨1, "a"⟩, true, [], ["k"]⟩, none]
  txsPerBlock := 1
  speculated := rfl
  distinct := by decide
  hashes := by decide

theorem counterStream_blocks : counterStream.blocks = [["a"], ["b"]] := by
  change splitBlocks ["a", "b"] 1 0 = _
  rw [splitBlocks, splitBlocks, splitBlocks]
  rfl

section CounterRun

open ReplayState Driver

theorem run_main {block : ReplayBlock Value} {r : ReplayState Value} {driver : Driver}
    (run : Relation.ReflTransGen (MainStep replayExitTest) r.driver driver) :
    Relation.ReflTransGen (Step block) r { r with driver := driver } :=
  Relation.ReflTransGen.mono (fun _ _ h => h.1) _ _ (publishedRun_main run)

theorem run_counterStream (list : List String) :
    ∃ r, Relation.ReflTransGen (Step counterStream.block)
      (ReplayState.start oneTransaction (fun _ => none) list) r ∧ r.driver.loop = .exited := by
  let handedOver : Driver :=
    { session := (Session.init oneTransaction).popReady
      loop := .popReady
      inProgress := 1
      worker := Function.update (fun _ => .idle) "a" .running }
  let returned : Driver :=
    { handedOver.setWorker "a" .done with
      session := handedOver.session.execute "a"
      inProgress := 0 }
  have hHandOver : Relation.ReflTransGen (MainStep replayExitTest)
      (Driver.init replayExitTest oneTransaction) handedOver :=
    ((((Relation.ReflTransGen.single (.readQuiet _ .inProgress _ rfl (by decide))).tail
      (.readBusy _ .readyQueueLen _ rfl (by decide))).tail
      (.popReady _ rfl (by decide))).tail (.addReady _ "a" rfl)).tail (.invokeReady _ "a" rfl)
  have hStart : Relation.ReflTransGen (Step counterStream.block)
      (ReplayState.start oneTransaction (fun _ => none) list)
      { ReplayState.start oneTransaction (fun _ => none) list with driver := handedOver } :=
    run_main hHandOver
  have hExecuted := ((hStart.tail (.snapshot _ "a" 0 rfl rfl rfl)).tail
    (.reExecute _ "a" 0 _ rfl)).tail (.execute _ "a" setCounter rfl)
  have hReturned := (hExecuted.tail (.merge _ "a" setCounter rfl)).tail
    (.decrement _ "a" (some setCounter) rfl)
  have hExit : Relation.ReflTransGen (MainStep replayExitTest) returned _ :=
    run_exit (by decide) rfl (by decide) (by decide) fun read => by cases read <;> decide
  exact ⟨_, hReturned.trans (run_main hExit), rfl⟩

theorem run_noContexts (block : ReplayBlock Nat) (committedDelta : String → Option Nat)
    (list : List String) :
    ∃ r, Relation.ReflTransGen (Step block) (ReplayState.start [] committedDelta list) r ∧
      r.driver.loop = .exited := by
  have hExit : Relation.ReflTransGen (MainStep replayExitTest) (Driver.init replayExitTest []) _ :=
    run_quiet (by decide) rfl fun read => by cases read <;> decide
  exact ⟨_, run_main (r := ReplayState.start [] committedDelta list) hExit, rfl⟩

theorem validatesBlock_of_run {stream : ReplayStream Value} {blockIDs : List String}
    {s : Shared Value} {r : ReplayState Value}
    (run : Relation.ReflTransGen (Step stream.block)
      (ReplayState.start (stream.blockContexts blockIDs) s.committedDelta s.serialReplayList) r)
    (hExit : r.driver.loop = .exited) : ∃ s', stream.ValidatesBlock blockIDs s s' := by
  obtain ⟨calls, hRun⟩ := Tally.exists_counted run s.calls
  exact ⟨⟨r.committedDelta, r.serialReplayList, calls⟩, _, r, .refl _, hRun, hExit, rfl, rfl⟩

end CounterRun

theorem replay_accounts_counterStream :
    ∃ s, counterStream.Validates counterStream.blocks counterStream.initial s ∧
      ((s.calls .execute "a" = 1 ∧ s.calls .merge "a" = 1 ∧ "a" ∉ s.serialReplayList) ∨
        (s.calls .execute "a" = 0 ∧ s.calls .merge "a" = 0 ∧ s.serialReplayList.count "a" = 1)) := by
  obtain ⟨r, hRun, hExit⟩ := run_counterStream ["b"]
  obtain ⟨s, hFirst⟩ : ∃ s, counterStream.ValidatesBlock ["a"] counterStream.initial s :=
    validatesBlock_of_run hRun hExit
  obtain ⟨r', hRun', hExit'⟩ :=
    run_noContexts counterStream.block s.committedDelta s.serialReplayList
  obtain ⟨s', hSecond⟩ : ∃ s', counterStream.ValidatesBlock ["b"] s s' :=
    validatesBlock_of_run hRun' hExit'
  have hValidates : counterStream.Validates counterStream.blocks counterStream.initial s' := by
    rw [counterStream_blocks]
    exact .cons hFirst (.cons hSecond (.nil s'))
  exact ⟨s', hValidates, replay_accounts_for_every_transaction counterStream s' hValidates
    ⟨1, "a"⟩ mem_cons_self⟩

end ReplayStream
end Nezha
