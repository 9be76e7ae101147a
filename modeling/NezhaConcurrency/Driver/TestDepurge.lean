import NezhaConcurrency.Contract.AccessKeys
import NezhaConcurrency.Driver.ValidationLoop

/-! The validation workers of `TestDepurge`. A worker re-executes its transaction on
the committed state of its contract and checks the real keys, not against the keys
under which the scheduler queued the transaction, but against keys that it computes
again from the state. -/
namespace Nezha

open DepurgeScheduler Function

/-- A Go map from composite keys to byte strings. -/
abbrev CommittedState := String → Option (List UInt8)

def makeCompositeKey (contractName storageKey : String) : String :=
  contractName ++ ":" ++ storageKey

/-- The state of one contract, under its storage keys. -/
def filterContractState (committedState : CommittedState) (contractName : String) :
    String → Option (List UInt8) :=
  fun storageKey => committedState (makeCompositeKey contractName storageKey)

/-- The value that a delta makes of the current one. -/
def applyDelta (currentVal : Option (List UInt8)) (delta : Int) : List UInt8 :=
  let currentBig : Int := match currentVal with
    | some bytes => BigEndian.value bytes
    | none => 0
  let newVal := currentBig + delta
  BigEndian.bytes (if newVal < 0 then newVal + 2 ^ 256 else newVal).natAbs

def updateCommittedState (committedState : CommittedState) (contractName : String)
    (writeDelta : List (String × Int)) : CommittedState :=
  writeDelta.foldl (fun committedState write =>
    let compositeKey := makeCompositeKey contractName write.1
    update committedState compositeKey
      (some (applyDelta (committedState compositeKey) write.2))) committedState

/-- What `ReExecuteAndGetRealRWSet` returns. -/
structure RealRWSet where
  realReadKeys : List String
  realWriteKeys : List String
  writeDelta : List (String × Int)
  deriving DecidableEq

def RealRWSet.realKeys (result : RealRWSet) : List String :=
  result.realReadKeys ++ result.realWriteKeys

/-- What the workers share and never change. `reExecutes` relates a context and a state
to what its re-execution may return; the pooled instances may make a difference. -/
structure TestBlock where
  cm : ContractManager
  contexts : List LLMContext
  reExecutes : LLMContext → (String → Option (List UInt8)) → Option RealRWSet → Prop

/-- The serial replay of listed transactions, with the attempts that are made and their
outcomes. A transaction that fails again is skipped. -/
inductive SerialReplay (contexts : List LLMContext)
    (reExecutes : LLMContext → (String → Option (List UInt8)) → Option RealRWSet → Prop) :
    List String → CommittedState → List (LLMContext × Option RealRWSet) → CommittedState → Prop
    where
  | done (committedState : CommittedState) :
      SerialReplay contexts reExecutes [] committedState [] committedState
  | noContext {txID : String} {rest : List String} {committedState final : CommittedState}
      {attempts : List (LLMContext × Option RealRWSet)}
      (hNone : ∀ ctx ∈ contexts, ctx.TxID ≠ txID)
      (later : SerialReplay contexts reExecutes rest committedState attempts final) :
      SerialReplay contexts reExecutes (txID :: rest) committedState attempts final
  | failed {ctx : LLMContext} {rest : List String} {committedState final : CommittedState}
      {attempts : List (LLMContext × Option RealRWSet)} (hCtx : ctx ∈ contexts)
      (hOutcome : reExecutes ctx (filterContractState committedState ctx.ContractName) none)
      (later : SerialReplay contexts reExecutes rest committedState attempts final) :
      SerialReplay contexts reExecutes (ctx.TxID :: rest) committedState
        ((ctx, none) :: attempts) final
  | replayed {ctx : LLMContext} {result : RealRWSet} {rest : List String}
      {committedState final : CommittedState} {attempts : List (LLMContext × Option RealRWSet)}
      (hCtx : ctx ∈ contexts)
      (hOutcome : reExecutes ctx (filterContractState committedState ctx.ContractName)
        (some result))
      (later : SerialReplay contexts reExecutes rest
        (updateCommittedState committedState ctx.ContractName result.writeDelta) attempts final) :
      SerialReplay contexts reExecutes (ctx.TxID :: rest) committedState
        ((ctx, some result) :: attempts) final

theorem SerialReplay.attempts_eq {contexts : List LLMContext}
    {reExecutes : LLMContext → (String → Option (List UInt8)) → Option RealRWSet → Prop}
    {txIDs : List String} {committedState final : CommittedState}
    {attempts : List (LLMContext × Option RealRWSet)}
    (replay : SerialReplay contexts reExecutes txIDs committedState attempts final)
    (hContexts : ∀ txID ∈ txIDs, ∃ ctx ∈ contexts, ctx.TxID = txID) :
    attempts.map (·.1.TxID) = txIDs := by
  induction replay with
  | done => rfl
  | noContext hNone later ih =>
    obtain ⟨ctx, hCtx, hID⟩ := hContexts _ List.mem_cons_self
    exact absurd hID (hNone ctx hCtx)
  | failed hCtx hOutcome later ih =>
    rw [List.map_cons, ih fun txID hTx => hContexts txID (List.mem_cons_of_mem _ hTx)]
  | replayed hCtx hOutcome later ih =>
    rw [List.map_cons, ih fun txID hTx => hContexts txID (List.mem_cons_of_mem _ hTx)]

/-- Where the worker of a transaction stands. An aborted transaction is listed for the
serial replay if its real keys were too many. -/
inductive TestPc where
  | start
  | snapshotted (ctx : LLMContext) (contractState : String → Option (List UInt8))
  | aborting (listed : Bool)
  | appending
  | pruning (ctx : LLMContext) (result : RealRWSet)
  | executing (ctx : LLMContext) (result : RealRWSet)
  | merging (ctx : LLMContext) (result : RealRWSet)
  | returning (committed : Option RealRWSet)
  | returned (committed : Option RealRWSet)

/-- The result of a transaction that passed the check. -/
def TestPc.passed : TestPc → Option RealRWSet
  | .pruning _ result => some result
  | .executing _ result => some result
  | .merging _ result => some result
  | .returning committed => committed
  | .returned committed => committed
  | _ => none

/-- The keys that the real keys are checked against: those that the current state gives,
unless there are none. -/
def checkedKeys (cm : ContractManager) (ctx : LLMContext)
    (contractState : String → Option (List UInt8)) (conservativeKeys : List String) :
    List String :=
  let dynamicConservativeKeys := recalculateConservativeKeys cm ctx contractState
  if dynamicConservativeKeys.length > 0 then dynamicConservativeKeys else conservativeKeys

def checkRealKeys (ctx : LLMContext) (conservativeKeys : List String) : Option RealRWSet → TestPc
  | none => .aborting false
  | some result =>
    if result.realKeys.all (· ∈ conservativeKeys) then
      if conservativeKeys.any (· ∉ result.realKeys) then .pruning ctx result
      else .executing ctx result
    else .aborting true

structure TestState where
  driver : Driver
  pc : String → TestPc
  committedState : CommittedState
  serialReplayList : List String

namespace TestState

def init (block : TestBlock) : TestState where
  driver := Driver.init testDepurgeExitTest (block.contexts.map LLMContext.toTransactionContext)
  pc := fun _ => .start
  committedState := fun _ => none
  serialReplayList := []

def conservativeKeys (r : TestState) (txID : String) : List String :=
  r.driver.session.scheduler.GetConservativeKeys txID

def goto (r : TestState) (txID : String) (pc : TestPc) : TestState :=
  { r with pc := update r.pc txID pc }

/-- The worker calls the scheduler. -/
def calls (r : TestState) (session : Session) : TestState :=
  { r with driver := { r.driver with session := session } }

def decrements (r : TestState) (txID : String) : TestState :=
  { r with driver := { r.driver.setWorker txID .done with inProgress := r.driver.inProgress - 1 } }

/-- One atomic step of the main loop or of the worker of one transaction. -/
inductive Step (block : TestBlock) : TestState → TestState → Prop where
  | main (r : TestState) (driver : Driver)
      (h : Driver.MainStep testDepurgeExitTest r.driver driver) :
      Step block r { r with driver := driver }
  | noContext (r : TestState) (txID : String) (hWorker : r.driver.worker txID = .running)
      (hPc : r.pc txID = .start) (hNone : ∀ ctx ∈ block.contexts, ctx.TxID ≠ txID) :
      Step block r ((r.calls (r.driver.session.abort txID)).goto txID (.returning none))
  | snapshot (r : TestState) (txID : String) (ctx : LLMContext)
      (hWorker : r.driver.worker txID = .running) (hPc : r.pc txID = .start)
      (hCtx : ctx ∈ block.contexts) (hID : ctx.TxID = txID) :
      Step block r (r.goto txID (.snapshotted ctx
        (filterContractState r.committedState ctx.ContractName)))
  | reExecute (r : TestState) (txID : String) (ctx : LLMContext)
      (contractState : String → Option (List UInt8)) (outcome : Option RealRWSet)
      (hPc : r.pc txID = .snapshotted ctx contractState)
      (hOutcome : block.reExecutes ctx contractState outcome) :
      Step block r (r.goto txID (checkRealKeys ctx
        (checkedKeys block.cm ctx contractState (r.conservativeKeys txID)) outcome))
  | abort (r : TestState) (txID : String) (listed : Bool) (hPc : r.pc txID = .aborting listed) :
      Step block r ((r.calls (r.driver.session.abort txID)).goto txID
        (if listed then .appending else .returning none))
  | append (r : TestState) (txID : String) (hPc : r.pc txID = .appending) :
      Step block r { r.goto txID (.returning none) with
        serialReplayList := r.serialReplayList ++ [txID] }
  | prune (r : TestState) (txID : String) (ctx : LLMContext) (result : RealRWSet)
      (hPc : r.pc txID = .pruning ctx result) :
      Step block r ((r.calls (r.driver.session.prune txID result.realKeys)).goto txID
        (.executing ctx result))
  | execute (r : TestState) (txID : String) (ctx : LLMContext) (result : RealRWSet)
      (hPc : r.pc txID = .executing ctx result) :
      Step block r ((r.calls (r.driver.session.execute txID)).goto txID (.merging ctx result))
  | merge (r : TestState) (txID : String) (ctx : LLMContext) (result : RealRWSet)
      (hPc : r.pc txID = .merging ctx result) :
      Step block r { r.goto txID (.returning (some result)) with
        committedState :=
          updateCommittedState r.committedState ctx.ContractName result.writeDelta }
  | decrement (r : TestState) (txID : String) (committed : Option RealRWSet)
      (hPc : r.pc txID = .returning committed) :
      Step block r ((r.decrements txID).goto txID (.returned committed))

def Reachable (block : TestBlock) (r : TestState) : Prop :=
  Relation.ReflTransGen (Step block) (init block) r

end TestState

/-- How far a worker has come with its scheduler calls. -/
def TestPc.Linked (worker : WorkerState) (phase : Phase) : TestPc → Prop
  | .start => worker = .idle ∨ worker = .running ∧ phase = .popped
  | .snapshotted _ _ => worker = .running ∧ phase = .popped
  | .aborting _ => worker = .running ∧ phase = .popped
  | .pruning _ _ => worker = .running ∧ phase = .popped
  | .executing _ result => worker = .running ∧ (phase = .popped ∨ phase = .pruned result.realKeys)
  | .appending => worker = .running ∧ phase = .finished
  | .merging _ _ => worker = .running ∧ phase = .finished
  | .returning _ => worker = .running ∧ phase = .finished
  | .returned _ => worker = .done ∧ phase = .finished

theorem checkRealKeys_cases (ctx : LLMContext) (keys : List String) (outcome : Option RealRWSet) :
    (∃ listed, checkRealKeys ctx keys outcome = .aborting listed) ∨
      ∃ result, outcome = some result ∧ result.realKeys ⊆ keys ∧
        (checkRealKeys ctx keys outcome = .pruning ctx result ∨
          checkRealKeys ctx keys outcome = .executing ctx result) := by
  cases outcome with
  | none => exact Or.inl ⟨false, rfl⟩
  | some result =>
    simp only [checkRealKeys]
    split
    · next hAll =>
        refine Or.inr ⟨result, rfl, fun key hm => ?_, ?_⟩
        · exact of_decide_eq_true (List.all_eq_true.mp hAll key hm)
        · split
          · exact Or.inl rfl
          · exact Or.inr rfl
    · exact Or.inl ⟨true, rfl⟩

namespace TestState

/-- Each worker's program counter fits what the driver knows of it. -/
def Linked (r : TestState) : Prop :=
  ∀ txID, (r.pc txID).Linked (r.driver.worker txID) (r.driver.session.phase txID)

section Simulation

variable {block : TestBlock} {r r' : TestState}

/-- Each step is a step of the driver, or invisible to it. -/
theorem Step.driver (linked : r.Linked) (step : Step block r r') :
    r'.driver = r.driver ∨ Driver.Step testDepurgeExitTest r.driver r'.driver := by
  cases step with
  | main driver h => exact Or.inr (.main h)
  | noContext txID hWorker hPc hNone =>
    have hLinked := linked txID
    rw [hPc] at hLinked
    rcases hLinked with hIdle | hLinked
    · rw [hWorker] at hIdle
      cases hIdle
    · exact Or.inr (.worker txID (.abort _ hLinked.1 hLinked.2))
  | snapshot | reExecute | append | merge => exact Or.inl rfl
  | abort txID listed hPc =>
    have hLinked := linked txID
    rw [hPc] at hLinked
    exact Or.inr (.worker txID (.abort _ hLinked.1 hLinked.2))
  | prune txID ctx result hPc =>
    have hLinked := linked txID
    rw [hPc] at hLinked
    exact Or.inr (.worker txID (.prune _ _ hLinked.1 hLinked.2))
  | execute txID ctx result hPc =>
    have hLinked := linked txID
    rw [hPc] at hLinked
    obtain ⟨hWorker, hPhase | hPhase⟩ := hLinked
    · exact Or.inr (.worker txID (.execute _ hWorker (Phase.active_of_popped hPhase)))
    · exact Or.inr (.worker txID (.execute _ hWorker (by rw [hPhase]; trivial)))
  | decrement txID committed hPc =>
    have hLinked := linked txID
    rw [hPc] at hLinked
    exact Or.inr (.worker txID (.finish _ hLinked.1 hLinked.2))

theorem Linked.goto (linked : r.Linked) {next : TestState} {txID : String} {pc : TestPc}
    (hPc : next.pc = update r.pc txID pc)
    (hOther : ∀ other, other ≠ txID → next.driver.worker other = r.driver.worker other ∧
      next.driver.session.phase other = r.driver.session.phase other)
    (hSelf : pc.Linked (next.driver.worker txID) (next.driver.session.phase txID)) :
    next.Linked := by
  intro other
  rw [hPc]
  exact Driver.forall_moved (fun _ pc worker phase => TestPc.Linked worker phase pc) linked hOther
    hSelf other

theorem checkRealKeys_linked {ctx : LLMContext} {keys : List String} {worker : WorkerState}
    {phase : Phase} (h : worker = .running ∧ phase = .popped) (outcome : Option RealRWSet) :
    (checkRealKeys ctx keys outcome).Linked worker phase := by
  rcases checkRealKeys_cases ctx keys outcome with ⟨listed, hPc⟩ | ⟨result, _, _, hPc | hPc⟩
  · rw [hPc]
    exact h
  · rw [hPc]
    exact h
  · rw [hPc]
    exact ⟨h.1, Or.inl h.2⟩

theorem Linked.step {start : DepurgeScheduler} {added : List String} (linked : r.Linked)
    (inv : r.driver.Invariant added) (session : r.driver.session.Invariant start added)
    (step : Step block r r') : r'.Linked := by
  have hSame : ∀ (txID : String) (next : Phase) (other : String), other ≠ txID →
      r.driver.worker other = r.driver.worker other ∧
        update r.driver.session.phase txID next other =
          r.driver.session.phase other :=
    fun txID next other hne => ⟨rfl, update_of_ne hne ..⟩
  cases step with
  | main driver h =>
    intro txID
    have hLinked := linked txID
    rcases inv.mainStep_worker session h txID with ⟨hWorker, hPhase | hIdle⟩ | ⟨hIdle, hNew⟩
    · change (r.pc txID).Linked (driver.worker txID) (driver.session.phase txID)
      rw [hWorker, hPhase]
      exact hLinked
    all_goals
      rw [hIdle] at hLinked
      change (r.pc txID).Linked (driver.worker txID) (driver.session.phase txID)
      cases hPc : r.pc txID <;> rw [hPc] at hLinked
    case start => exact Or.inl (hWorker.trans hIdle)
    case start => exact Or.inr hNew
    all_goals cases hLinked.1
  | noContext txID hWorker hPc hNone =>
    exact linked.goto rfl (hSame txID _) ⟨hWorker, update_self ..⟩
  | snapshot txID ctx hWorker hPc hCtx hID =>
    have hLinked := linked txID
    rw [hPc] at hLinked
    refine linked.goto rfl (fun _ _ => ⟨rfl, rfl⟩) ?_
    rcases hLinked with hIdle | hLinked
    · rw [hWorker] at hIdle
      cases hIdle
    · exact hLinked
  | reExecute txID ctx contractState outcome hPc hOutcome =>
    have hLinked := linked txID
    rw [hPc] at hLinked
    exact linked.goto rfl (fun _ _ => ⟨rfl, rfl⟩) (checkRealKeys_linked hLinked outcome)
  | abort txID listed hPc =>
    have hLinked := linked txID
    rw [hPc] at hLinked
    refine linked.goto rfl (hSame txID _) ?_
    cases listed with
    | true => exact ⟨hLinked.1, update_self ..⟩
    | false => exact ⟨hLinked.1, update_self ..⟩
  | append txID hPc =>
    have hLinked := linked txID
    rw [hPc] at hLinked
    exact linked.goto rfl (fun _ _ => ⟨rfl, rfl⟩) hLinked
  | prune txID ctx result hPc =>
    have hLinked := linked txID
    rw [hPc] at hLinked
    exact linked.goto rfl (hSame txID _) ⟨hLinked.1, Or.inr (update_self ..)⟩
  | execute txID ctx result hPc =>
    have hLinked := linked txID
    rw [hPc] at hLinked
    exact linked.goto rfl (hSame txID _) ⟨hLinked.1, update_self ..⟩
  | merge txID ctx result hPc =>
    have hLinked := linked txID
    rw [hPc] at hLinked
    exact linked.goto rfl (fun _ _ => ⟨rfl, rfl⟩) hLinked
  | decrement txID committed hPc =>
    have hLinked := linked txID
    rw [hPc] at hLinked
    refine linked.goto rfl ?_ ⟨update_self .., hLinked.2⟩
    exact fun other hne => ⟨update_of_ne hne .., rfl⟩

/-- Every interleaving of `TestDepurge` is one of the driver, with the workers where the
driver believes them to be. -/
theorem Reachable.simulated (distinct : (block.contexts.map (·.TxID)).Nodup)
    (run : Reachable block r) :
    Driver.Reachable testDepurgeExitTest (block.contexts.map LLMContext.toTransactionContext)
      r.driver ∧ r.Linked := by
  have hDistinct : ((block.contexts.map LLMContext.toTransactionContext).map
      TransactionContext.TxID).Nodup := by
    rw [List.map_map]
    exact distinct
  induction run with
  | refl => exact ⟨.refl, fun _ => Or.inl rfl⟩
  | @tail r r' _ last ih =>
    obtain ⟨hDriver, hLinked⟩ := ih
    refine ⟨?_, hLinked.step (hDriver.invariant hDistinct)
      (hDriver.session.invariant hDistinct) last⟩
    rcases last.driver hLinked with hSame | hStep
    · rw [hSame]
      exact hDriver
    · exact hDriver.tail hStep

theorem run_main {driver : Driver}
    (run : Relation.ReflTransGen (Driver.MainStep testDepurgeExitTest) r.driver driver) :
    Relation.ReflTransGen (Step block) r { r with driver := driver } := by
  induction run with
  | refl => exact .refl
  | tail _ last ih => exact ih.tail (.main _ _ last)

end Simulation

end TestState

end Nezha
