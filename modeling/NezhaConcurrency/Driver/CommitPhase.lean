import NezhaConcurrency.Core.LevelCommit
import NezhaConcurrency.Driver.TestAccounting

/-! The commit phase of `TestDepurge` and `TestVegeta`. The pool goes over the nodes of
the committed transactions and stores the final value of each key. It looks the value up
under the storage key, whereas `committedState` files it under the contract's name and
the storage key. -/
namespace Nezha

open Function List

/-- One node of the commit pool. -/
def commitNode (committedState : CommittedState) (db : DB) (rw : RWNode) : DB :=
  match committedState (ConvertByte2String rw.RWSet.Key) with
  | some finalVal => StoreState db (CreateAccount rw.RWSet.Key (byteString finalVal))
  | none => db

/-- A storage key has 32 bytes. -/
def StorageKey (key : String) : Prop := key.length = 32

/-- The re-executions write to storage keys. -/
def WritesStorage
    (reExecutes : LLMContext → (String → Option (List UInt8)) → Option RealRWSet → Prop) : Prop :=
  ∀ ctx contractState result, reExecutes ctx contractState (some result) →
    ∀ write ∈ result.writeDelta, StorageKey write.1

/-- No entry is under a storage key. -/
def Namespaced (committedState : CommittedState) : Prop :=
  ∀ key, StorageKey key → committedState key = none

theorem not_storageKey_composite (contractName : String) {key : String} (h : StorageKey key) :
    ¬ StorageKey (makeCompositeKey contractName key) := by
  unfold StorageKey at h ⊢
  rw [makeCompositeKey, String.length_append, String.length_append, h]
  change contractName.length + 1 + 32 ≠ 32
  omega

variable {committedState : CommittedState}

theorem Namespaced.update (h : Namespaced committedState) (contractName : String)
    {writeDelta : List (String × Int)} (hWrites : ∀ write ∈ writeDelta, StorageKey write.1) :
    Namespaced (updateCommittedState committedState contractName writeDelta) := by
  unfold updateCommittedState
  induction writeDelta generalizing committedState with
  | nil => exact h
  | cons write writeDelta ih =>
    refine ih (fun key hKey => ?_) fun other hOther => hWrites other (mem_cons_of_mem _ hOther)
    have hne : key ≠ makeCompositeKey contractName write.1 := by
      rintro rfl
      exact not_storageKey_composite _ (hWrites write mem_cons_self) hKey
    exact (update_of_ne hne ..).trans (h key hKey)

theorem Namespaced.serialReplay {contexts : List LLMContext}
    {reExecutes : LLMContext → (String → Option (List UInt8)) → Option RealRWSet → Prop}
    (hWrites : WritesStorage reExecutes) {txIDs : List String} {final : CommittedState}
    {attempts : List (LLMContext × Option RealRWSet)}
    (replay : SerialReplay contexts reExecutes txIDs committedState attempts final)
    (h : Namespaced committedState) : Namespaced final := by
  induction replay with
  | done => exact h
  | noContext _ _ ih => exact ih h
  | failed _ _ _ ih => exact ih h
  | replayed _ hOutcome _ ih => exact ih (h.update _ (hWrites _ _ _ hOutcome))

/-- Then the pool stores nothing. -/
theorem Namespaced.commit (h : Namespaced committedState) {trace : List RWNode}
    (hKeys : ∀ rw ∈ trace, StorageKey rw.RWSet.Key) (db : DB) :
    trace.foldl (commitNode committedState) db = db := by
  induction trace with
  | nil => rfl
  | cons rw trace ih =>
    have hNone : committedState (ConvertByte2String rw.RWSet.Key) = none :=
      h _ (hKeys rw mem_cons_self)
    rw [foldl_cons, commitNode, hNone]
    exact ih fun other hOther => hKeys other (mem_cons_of_mem _ hOther)

/-! ### The workers -/

/-- The writes of a transaction that passed the check are to storage keys. -/
def TestPc.WritesStorage (pc : TestPc) : Prop :=
  ∀ result, pc.passed = some result → ∀ write ∈ result.writeDelta, StorageKey write.1

theorem checkRealKeys_passed {ctx : LLMContext} {keys : List String}
    {outcome : Option RealRWSet} {result : RealRWSet}
    (h : (checkRealKeys ctx keys outcome).passed = some result) : outcome = some result := by
  rcases checkRealKeys_cases ctx keys outcome with ⟨listed, hPc⟩ | ⟨result', hOutcome, _, hPc | hPc⟩
  · rw [hPc] at h
    cases h
  all_goals
    rw [hPc] at h
    cases h
    exact hOutcome

theorem TestState.Reachable.namespaced {block : TestBlock}
    (hWrites : WritesStorage block.reExecutes) {r : TestState} (run : Reachable block r) :
    Namespaced r.committedState ∧ ∀ txID, (r.pc txID).WritesStorage := by
  induction run with
  | refl => exact ⟨fun _ _ => rfl, fun _ _ h => by cases h⟩
  | @tail r r' _ last ih =>
    obtain ⟨hState, hPcs⟩ := ih
    have moved : ∀ {mover : String} {next : TestPc}, next.WritesStorage →
        ∀ txID, (update r.pc mover next txID).WritesStorage :=
      fun hNext => (forall_update_iff r.pc fun _ pc => TestPc.WritesStorage pc).mpr
        ⟨hNext, fun txID _ => hPcs txID⟩
    have keeps : ∀ {mover : String} {pc next : TestPc}, r.pc mover = pc →
        (next.passed = none ∨ next.passed = pc.passed) → next.WritesStorage := by
      rintro mover pc next rfl (hNone | hSame) result hResult
      · rw [hNone] at hResult
        cases hResult
      · exact hPcs mover result (hSame ▸ hResult)
    cases last with
    | main driver h => exact ⟨hState, hPcs⟩
    | noContext mover _ hPc _ => exact ⟨hState, moved (keeps hPc (.inl rfl))⟩
    | snapshot mover ctx _ hPc _ _ => exact ⟨hState, moved (keeps hPc (.inl rfl))⟩
    | reExecute mover ctx state outcome hPc hOutcome =>
      refine ⟨hState, moved fun result hResult => ?_⟩
      rw [checkRealKeys_passed hResult] at hOutcome
      exact hWrites ctx state result hOutcome
    | abort mover listed hPc =>
      refine ⟨hState, moved (keeps hPc (.inl ?_))⟩
      cases listed <;> rfl
    | append mover hPc => exact ⟨hState, moved (keeps hPc (.inl rfl))⟩
    | prune mover ctx result hPc => exact ⟨hState, moved (keeps hPc (.inr rfl))⟩
    | execute mover ctx result hPc => exact ⟨hState, moved (keeps hPc (.inr rfl))⟩
    | merge mover ctx result hPc =>
      have hResult := hPcs mover result (by rw [hPc]; rfl)
      exact ⟨hState.update _ hResult, moved (keeps hPc (.inr rfl))⟩
    | decrement mover committed hPc => exact ⟨hState, moved (keeps hPc (.inr rfl))⟩

def VegetaPc.WritesStorage (pc : VegetaPc) : Prop :=
  ∀ ctx result, pc = .applying ctx result → ∀ write ∈ result.writeDelta, StorageKey write.1

theorem VegetaTest.namespaced_of_run {test : VegetaTest} (hWrites : WritesStorage test.reExecutes)
    {s : VegetaTestState} (run : Relation.ReflTransGen test.BatchStep .init s) :
    Namespaced s.committedState ∧ ∀ txID, (s.pc txID).WritesStorage := by
  induction run with
  | refl => exact ⟨fun _ _ => rfl, fun _ _ _ h => by cases h⟩
  | @tail s s' _ last ih =>
    obtain ⟨hState, hPcs⟩ := ih
    obtain ⟨batch, _, step⟩ := last
    have moved : ∀ {mover : String} {next : VegetaPc}, next.WritesStorage →
        ∀ txID, (update s.pc mover next txID).WritesStorage :=
      fun hNext => (forall_update_iff s.pc fun _ pc => VegetaPc.WritesStorage pc).mpr
        ⟨hNext, fun txID _ => hPcs txID⟩
    cases step with
    | noContext mover _ hPc _ => exact ⟨hState, moved fun _ _ h => by cases h⟩
    | snapshot ctx _ hPc _ => exact ⟨hState, moved fun _ _ h => by cases h⟩
    | reExecute mover ctx state outcome hPc hOutcome =>
      refine ⟨hState, moved fun ctx' result hNext => ?_⟩
      cases outcome with
      | none => cases hNext
      | some result' =>
        rw [check] at hNext
        split_ifs at hNext
        cases hNext
        exact hWrites ctx state result hOutcome
    | append mover hPc => exact ⟨hState, moved fun _ _ h => by cases h⟩
    | apply mover ctx result hPc =>
      exact ⟨hState.update _ (hPcs mover ctx result hPc), moved fun _ _ h => by cases h⟩

/-! ### The two commit phases -/

/-- Somebody wrote this node for this contract: the node is a write node of a committed
transaction of the contract. -/
def WrittenBy (contexts : List LLMContext) (txs : List (List RWNode))
    (committed : String → Prop) (contractName : String) (rw : RWNode) : Prop :=
  ∃ ctx ∈ contexts, committed ctx.TxID ∧ ctx.ContractName = contractName ∧
    ∃ nodes ∈ txs, nodes.head?.any (·.TransInfo.ID = ctx.TxID) ∧ rw ∈ nodes ∧ rw.Label = .w

/-- The database has the final value of every key that was written. -/
def Persisted (written : String → RWNode → Prop) (final : CommittedState) (db : DB) : Prop :=
  ∀ contractName rw, written contractName rw → ∀ value,
    final (makeCompositeKey contractName (ConvertByte2String rw.RWSet.Key)) = some value →
      db ("a" ++ rw.RWSet.Key) = some (CreateAccount rw.RWSet.Key (byteString value))

/-- A run of `TestDepurge` with its commit phase. The workers append to `commitOrder`
without a lock, so it may be any list of the write nodes of committed transactions. -/
structure DepurgeCommit extends DepurgeRun where
  txs : List (List RWNode)
  nodeKeys : ∀ nodes ∈ txs, ∀ rw ∈ nodes, StorageKey rw.RWSet.Key
  deltaKeys : WritesStorage block.reExecutes
  commitOrder : List (List RWNode)
  ordered : ∀ wNodes ∈ commitOrder, ∃ nodes ∈ txs, wNodes = nodes.filter (·.Label = .w) ∧
    ∃ txID, calls .apply txID ≠ 0 ∧ nodes.head?.any (·.TransInfo.ID = txID)
  db : DB
  trace : List RWNode
  interleaved : Interleaving.Trace (commitOrder.filter (· ≠ [])) trace

namespace DepurgeCommit

variable (run : DepurgeCommit)

/-- Committed by a worker or by the serial replay. -/
def Committed (txID : String) : Prop :=
  run.calls .apply txID ≠ 0 ∨ ∃ ctx result, (ctx, some result) ∈ run.attempts ∧ ctx.TxID = txID

def Written : String → RWNode → Prop := WrittenBy run.block.contexts run.txs run.Committed

/-- The database after the commit phase. -/
def stored : DB := run.trace.foldl (commitNode run.final) run.db

theorem stored_eq : run.stored = run.db := by
  have hState := (run.reachable.namespaced run.deltaKeys).1
  refine (hState.serialReplay run.deltaKeys run.replays).commit (fun rw hRw => ?_) run.db
  obtain ⟨task, hTask, hIn⟩ := run.interleaved.mem hRw
  obtain ⟨nodes, hNodes, rfl, _⟩ := run.ordered task (mem_filter.mp hTask).1
  exact run.nodeKeys nodes hNodes rw (mem_filter.mp hIn).1

end DepurgeCommit

/-- A run of `TestVegeta` with its commit phase, which goes over all nodes of all ordered
transactions. -/
structure VegetaCommit extends VegetaRun where
  nodeKeys : ∀ nodes ∈ test.txs, ∀ rw ∈ nodes, StorageKey rw.RWSet.Key
  deltaKeys : WritesStorage test.reExecutes
  db : DB
  trace : List RWNode
  interleaved : Interleaving.Trace ((test.orderedTxs order).filterMap test.txToNodes) trace

namespace VegetaCommit

variable (run : VegetaCommit)

def Committed (txID : String) : Prop :=
  run.calls .apply txID ≠ 0 ∨ ∃ ctx result, (ctx, some result) ∈ run.attempts ∧ ctx.TxID = txID

def Written : String → RWNode → Prop := WrittenBy run.test.contexts run.test.txs run.Committed

def stored : DB := run.trace.foldl (commitNode run.final) run.db

theorem stored_eq : run.stored = run.db := by
  have hState := (VegetaTest.namespaced_of_run run.deltaKeys (Tally.run_of_counted
    (run.validates.run run.dispatched_subset))).1
  refine (hState.serialReplay run.deltaKeys run.replays).commit (fun rw hRw => ?_) run.db
  obtain ⟨nodes, hNodes, hIn⟩ := run.interleaved.mem hRw
  obtain ⟨txID, _, hFiled⟩ := mem_filterMap.mp hNodes
  exact run.nodeKeys nodes (mem_filter.mp (mem_of_getLast? hFiled)).1 rw hIn

end VegetaCommit

/-- The commit phase persists the committed state exactly where the database had it before:
it stores nothing at all. -/
theorem persisted_iff (depurge : DepurgeCommit) (vegeta : VegetaCommit) :
    (Persisted depurge.Written depurge.final depurge.stored ↔
      Persisted depurge.Written depurge.final depurge.db) ∧
    (Persisted vegeta.Written vegeta.final vegeta.stored ↔
      Persisted vegeta.Written vegeta.final vegeta.db) := by
  rw [depurge.stored_eq, vegeta.stored_eq]
  exact ⟨Iff.rfl, Iff.rfl⟩

/-! ### A value that is lost -/

section Lost

/-- The slot that the transaction writes. -/
def slotZero : String := "00000000000000000000000000000000"

def depositNode : RWNode := ⟨⟨slotZero, ""⟩, ⟨"a", 0⟩, .w, 0, false, "Bank"⟩

def depositContext : LLMContext :=
  { failingContext with PreWriteSet := [(slotZero, [])] }

def depositResult : RealRWSet := ⟨[], [slotZero], [(slotZero, 1)]⟩

def bankBlock : TestBlock where
  cm := ⟨[], id⟩
  contexts := [depositContext]
  reExecutes := fun _ _ outcome => outcome = some depositResult

theorem bank_writesStorage : WritesStorage bankBlock.reExecutes := by
  intro ctx state result hResult write hWrite
  cases hResult
  rw [mem_singleton.mp hWrite]
  rfl

theorem bank_nodeKeys : ∀ nodes ∈ [[depositNode]], ∀ rw ∈ nodes, StorageKey rw.RWSet.Key := by
  intro nodes hNodes rw hRw
  rw [mem_singleton.mp hNodes] at hRw
  rw [mem_singleton.mp hRw]
  rfl

/-- What the one transaction leaves. -/
def bankFinal : CommittedState := updateCommittedState (fun _ => none) "Bank" [(slotZero, 1)]

theorem run_bankBlock : ∃ r, TestState.Reachable bankBlock r ∧ r.driver.loop = .exited ∧
      r.pc "a" = .returned (some depositResult) ∧ r.serialReplayList = [] ∧
      r.committedState = bankFinal := by
  let start : Driver := (TestState.init bankBlock).driver
  let handedOver : Driver :=
    { start.setWorker "a" .running with
      session := start.session.popReady
      loop := .popReady
      inProgress := 1 }
  let returned : Driver :=
    { handedOver.setWorker "a" .done with
      session := handedOver.session.execute "a"
      inProgress := 0 }
  have hHandOver : Relation.ReflTransGen (Driver.MainStep testDepurgeExitTest) start handedOver :=
    (((Relation.ReflTransGen.single (.readBusy start .readyQueueLen _ rfl (by decide))).tail
      (.popReady _ rfl (by decide))).tail (.addReady _ "a" rfl)).tail (.invokeReady _ "a" rfl)
  have hStart : TestState.Reachable bankBlock
      { TestState.init bankBlock with driver := handedOver } :=
    TestState.run_main hHandOver
  have hChecked := (hStart.tail (.snapshot _ "a" depositContext rfl rfl mem_cons_self
    rfl)).tail (.reExecute _ "a" depositContext _ (some depositResult) rfl rfl)
  have hReturned := ((hChecked.tail (.execute _ "a" depositContext depositResult rfl)).tail
    (.merge _ "a" depositContext depositResult rfl)).tail (.decrement _ "a" (some depositResult) rfl)
  have hExit : Relation.ReflTransGen (Driver.MainStep testDepurgeExitTest) returned _ :=
    Driver.run_exit (by decide) rfl (by decide) (by decide) fun read => by cases read <;> decide
  exact ⟨_, hReturned.trans (TestState.run_main hExit), rfl, rfl, rfl, rfl⟩

def bankTest : VegetaTest where
  contexts := [depositContext]
  distinct := nodup_singleton _
  txs := [[depositNode]]
  reExecutes := fun _ _ outcome => outcome = some depositResult

theorem bankIDs_perm : ["a"].Perm bankTest.contextIDs := .refl _

def bankOrder : bankTest.Order where
  readIDs := ["a"]
  readIDs_perm := bankIDs_perm
  readKeys := fun id => (bankTest.block.blockRS id).dedup
  readKeys_perm := fun _ => .refl _
  writeIDs := ["a"]
  writeIDs_perm := bankIDs_perm
  writeKeys := fun id => (bankTest.block.blockWS id).dedup
  writeKeys_perm := fun _ => .refl _
  keys := [slotZero]
  keys_perm := .refl _
  chains := [["a"]]
  chains_perm := .refl _
  sorted := pairwise_singleton _ _
  remaining := ["a"]
  remaining_perm := bankIDs_perm

theorem run_bankTest : ∃ s, Relation.ReflTransGen (bankTest.Step ["a"]) .init s ∧
      s.pc "a" = .returned (some depositResult) ∧ s.serialReplayList = [] ∧
      s.committedState = bankFinal := by
  have hRun : Relation.ReflTransGen (bankTest.Step ["a"]) .init _ :=
    ((Relation.ReflTransGen.single
      (.snapshot _ depositContext mem_cons_self rfl mem_cons_self)).tail
      (.reExecute _ "a" depositContext _ (some depositResult) rfl rfl)).tail
      (.apply _ "a" depositContext depositResult rfl)
  exact ⟨_, hRun, rfl, rfl, rfl⟩

/-- The value that was committed is not in the database. -/
theorem not_persisted {contexts : List LLMContext} {committed : String → Prop}
    (hCtx : depositContext ∈ contexts) (hCommitted : committed "a") :
    ¬ Persisted (WrittenBy contexts [[depositNode]] committed) bankFinal fun _ => none := by
  intro h
  have hWritten : WrittenBy contexts [[depositNode]] committed "Bank" depositNode :=
    ⟨depositContext, hCtx, hCommitted, rfl, _, mem_cons_self, rfl, mem_cons_self, rfl⟩
  have hFinal : bankFinal (makeCompositeKey "Bank" slotZero) = some (applyDelta none 1) := by
    simp [bankFinal, updateCommittedState]
  cases h "Bank" depositNode hWritten _ hFinal

/-- Both drivers commit a deposit and leave the database empty. -/
theorem committed_value_not_stored :
    (∃ run : DepurgeCommit, ¬ Persisted run.Written run.final run.stored) ∧
      ∃ run : VegetaCommit, ¬ Persisted run.Written run.final run.stored := by
  constructor
  · obtain ⟨r, hRun, hExit, hPc, hList, hState⟩ := run_bankBlock
    obtain ⟨calls, hCalls⟩ := Tally.exists_counted hRun fun _ _ => 0
    have hDistinct : (bankBlock.contexts.map (·.TxID)).Nodup := nodup_singleton _
    have hApplied := (TestState.counts_of_run hDistinct hCalls "a").1
    rw [hPc] at hApplied
    let run : DepurgeCommit :=
      { block := bankBlock
        distinct := hDistinct
        r := r
        calls := calls
        validates := hCalls
        exited := hExit
        attempts := []
        final := bankFinal
        replays := by
          rw [hList, hState]
          exact .done _
        txs := [[depositNode]]
        nodeKeys := bank_nodeKeys
        deltaKeys := bank_writesStorage
        commitOrder := [[depositNode]]
        ordered := fun wNodes h => ⟨[depositNode], mem_cons_self, mem_singleton.mp h,
          "a", by rw [hApplied]; exact one_ne_zero, rfl⟩
        db := fun _ => none
        trace := [depositNode]
        interleaved := Interleaving.trace_sequential [[depositNode]] }
    refine ⟨run, ?_⟩
    rw [run.stored_eq]
    refine not_persisted mem_cons_self (Or.inl ?_)
    rw [show run.calls .apply "a" = 1 from hApplied]
    exact one_ne_zero
  · obtain ⟨s, hRun, hPc, hList, hState⟩ := run_bankTest
    obtain ⟨calls, hCalls⟩ := Tally.exists_counted hRun fun _ _ => 0
    let run : VegetaCommit :=
      { test := bankTest
        order := bankOrder
        s := s
        calls := calls
        validates := .batch hCalls (fun txID hTx => ⟨some depositResult, by
          rw [mem_singleton.mp hTx]
          exact hPc⟩) (.done _)
        attempts := []
        final := bankFinal
        replays := by
          rw [hList, hState]
          exact .done _
        nodeKeys := bank_nodeKeys
        deltaKeys := bank_writesStorage
        db := fun _ => none
        trace := [depositNode]
        interleaved := Interleaving.trace_sequential [[depositNode]] }
    have hApplied := (run.counts "a").1
    rw [show run.s.pc "a" = _ from hPc] at hApplied
    refine ⟨run, ?_⟩
    rw [run.stored_eq]
    refine not_persisted mem_cons_self (Or.inl ?_)
    rw [hApplied]
    exact one_ne_zero

end Lost
end Nezha
