import NezhaConcurrency.Driver.ValidationLoop
import NezhaConcurrency.Library.Overlay

/-! The validation workers of `runReplayDepurgeMode`. A worker reads the part of
`committedDelta` that its conservative keys allow, re-executes its transaction
on the witness with that overlay, and then either aborts it or calls `Prune`,
`Execute` and publishes the written values. Each of these is an atomic step of
its own, and the steps of all workers and of the main loop interleave. -/
namespace Nezha

open DepurgeScheduler Function

variable {Value : Type}

/-- A transaction reads keys and ends with the keys it wrote, and with the
written value of each key that parses. -/
abbrev TxProgram (Value : Type) : Type :=
  Overlay.Program String Value (List String × (String → Option Value))

structure ReExecuteResult (Value : Type) where
  RealReadKeys : List String
  RealWriteKeys : List String
  WriteValues : List (String × Value)

/-- What the workers share and never change. -/
structure ReplayBlock (Value : Type) where
  witness : String → Value
  txs : List (TxProgram Value)
  txIDToIdx : String → Option Nat

/-- Re-execution on the witness with the overlay applied. An index out of range
and a failing transaction are errors. -/
def ReplayBlock.ReExecute (block : ReplayBlock Value) (txIdx : Nat)
    (overlay : String → Option Value) : Option (ReExecuteResult Value) :=
  match block.txs[txIdx]? with
  | none => none
  | some tx =>
    (tx.run (Overlay.overlaid block.witness overlay)).map fun outcome =>
      { RealReadKeys := outcome.1
        RealWriteKeys := outcome.2.1
        WriteValues := outcome.2.1.filterMap fun key =>
          (outcome.2.2 key).map fun value => (key, value) }

def ReExecuteResult.realKeys (result : ReExecuteResult Value) : List String :=
  result.RealReadKeys ++ result.RealWriteKeys

def filterOverlayByKeys (m : String → Option Value) (allowed : List String)
    (key : String) : Option Value :=
  if key ∈ allowed then m key else none

/-- Where the worker of a transaction stands. `returning` and `returned` carry
the result of a committed transaction. -/
inductive WorkerPc (Value : Type) where
  | start
  | snapshotted (txIdx : Nat) (overlaySnapshot : String → Option Value)
  | aborting
  | appending
  | pruning (result : ReExecuteResult Value)
  | executing (result : ReExecuteResult Value)
  | merging (result : ReExecuteResult Value)
  | returning (committed : Option (ReExecuteResult Value))
  | returned (committed : Option (ReExecuteResult Value))

/-- What a worker does after the re-execution: an error or a real key outside
the conservative keys aborts, a spurious conservative key is pruned. -/
def afterReExecute (conservativeKeys : List String) :
    Option (ReExecuteResult Value) → WorkerPc Value
  | none => .aborting
  | some result =>
    if result.realKeys.all (· ∈ conservativeKeys) then
      if conservativeKeys.any (· ∉ result.realKeys) then .pruning result
      else .executing result
    else .aborting

theorem afterReExecute_cases (keys : List String) (outcome : Option (ReExecuteResult Value)) :
    afterReExecute keys outcome = .aborting ∨
      ∃ result, outcome = some result ∧ result.realKeys ⊆ keys ∧
        (afterReExecute keys outcome = .pruning result ∨
          keys ⊆ result.realKeys ∧ afterReExecute keys outcome = .executing result) := by
  cases outcome with
  | none => exact Or.inl rfl
  | some result =>
    simp only [afterReExecute]
    split
    · next hAll =>
        refine Or.inr ⟨result, rfl, fun key hm => ?_, ?_⟩
        · simpa using List.all_eq_true.mp hAll key hm
        · split
          · exact Or.inl rfl
          · next hNone =>
              refine Or.inr ⟨fun key hm => ?_, rfl⟩
              by_contra hKey
              exact hNone (List.any_eq_true.mpr ⟨key, hm, by simpa using hKey⟩)
    · exact Or.inl rfl

structure ReplayState (Value : Type) where
  driver : Driver
  pc : String → WorkerPc Value
  committedDelta : String → Option Value
  serialReplayList : List String

namespace ReplayState

def init (contexts : List TransactionContext) (committedDelta : String → Option Value) :
    ReplayState Value where
  driver := Driver.init replayExitTest contexts
  pc := fun _ => .start
  committedDelta := committedDelta
  serialReplayList := []

def conservativeKeys (r : ReplayState Value) (txID : String) : List String :=
  r.driver.session.scheduler.GetConservativeKeys txID

def goto (r : ReplayState Value) (txID : String) (pc : WorkerPc Value) : ReplayState Value :=
  { r with pc := update r.pc txID pc }

/-- The worker calls the scheduler. -/
def calls (r : ReplayState Value) (session : Session) : ReplayState Value :=
  { r with driver := { r.driver with session := session } }

/-- The deferred decrement of `inProgress`. -/
def decrements (r : ReplayState Value) (txID : String) : ReplayState Value :=
  { r with driver := { r.driver.setWorker txID .done with inProgress := r.driver.inProgress - 1 } }

/-- One atomic step of the main loop or of the worker of one transaction. -/
inductive Step (block : ReplayBlock Value) : ReplayState Value → ReplayState Value → Prop where
  | main (r : ReplayState Value) (driver : Driver)
      (h : Driver.MainStep replayExitTest r.driver driver) :
      Step block r { r with driver := driver }
  | noContext (r : ReplayState Value) (txID : String)
      (hWorker : r.driver.worker txID = .running) (hPc : r.pc txID = .start)
      (hIdx : block.txIDToIdx txID = none) :
      Step block r ((r.calls (r.driver.session.abort txID)).goto txID (.returning none))
  | snapshot (r : ReplayState Value) (txID : String) (txIdx : Nat)
      (hWorker : r.driver.worker txID = .running) (hPc : r.pc txID = .start)
      (hIdx : block.txIDToIdx txID = some txIdx) :
      Step block r (r.goto txID (.snapshotted txIdx
        (filterOverlayByKeys r.committedDelta (r.conservativeKeys txID))))
  | acquireError (r : ReplayState Value) (txID : String) (txIdx : Nat)
      (overlay : String → Option Value) (hPc : r.pc txID = .snapshotted txIdx overlay) :
      Step block r (r.goto txID .aborting)
  | reExecute (r : ReplayState Value) (txID : String) (txIdx : Nat)
      (overlay : String → Option Value) (hPc : r.pc txID = .snapshotted txIdx overlay) :
      Step block r (r.goto txID
        (afterReExecute (r.conservativeKeys txID) (block.ReExecute txIdx overlay)))
  | abort (r : ReplayState Value) (txID : String) (hPc : r.pc txID = .aborting) :
      Step block r ((r.calls (r.driver.session.abort txID)).goto txID .appending)
  | append (r : ReplayState Value) (txID : String) (hPc : r.pc txID = .appending) :
      Step block r { r.goto txID (.returning none) with
        serialReplayList := r.serialReplayList ++ [txID] }
  | prune (r : ReplayState Value) (txID : String) (result : ReExecuteResult Value)
      (hPc : r.pc txID = .pruning result) :
      Step block r ((r.calls (r.driver.session.prune txID result.realKeys)).goto txID
        (.executing result))
  | execute (r : ReplayState Value) (txID : String) (result : ReExecuteResult Value)
      (hPc : r.pc txID = .executing result) :
      Step block r ((r.calls (r.driver.session.execute txID)).goto txID (.merging result))
  | merge (r : ReplayState Value) (txID : String) (result : ReExecuteResult Value)
      (hPc : r.pc txID = .merging result) :
      Step block r { r.goto txID (.returning (some result)) with
        committedDelta := Overlay.merge r.committedDelta result.WriteValues }
  | decrement (r : ReplayState Value) (txID : String)
      (committed : Option (ReExecuteResult Value)) (hPc : r.pc txID = .returning committed) :
      Step block r ((r.decrements txID).goto txID (.returned committed))

def Reachable (block : ReplayBlock Value) (contexts : List TransactionContext)
    (committedDelta : String → Option Value) (r : ReplayState Value) : Prop :=
  Relation.ReflTransGen (Step block) (init contexts committedDelta) r

end ReplayState

/-- How far a worker has come with its scheduler calls. -/
def WorkerPc.Linked (conservativeKeys : List String) (worker : WorkerState) (phase : Phase) :
    WorkerPc Value → Prop
  | .start => worker = .idle ∨ worker = .running ∧ phase = .popped
  | .snapshotted _ _ => worker = .running ∧ phase = .popped
  | .aborting => worker = .running ∧ phase = .popped
  | .pruning _ => worker = .running ∧ phase = .popped
  | .executing result => worker = .running ∧
      (phase = .popped ∧ conservativeKeys ⊆ result.realKeys ∨ phase = .pruned result.realKeys)
  | .appending => worker = .running ∧ phase = .finished
  | .merging _ => worker = .running ∧ phase = .finished
  | .returning _ => worker = .running ∧ phase = .finished
  | .returned _ => worker = .done ∧ phase = .finished

namespace ReplayState

/-- Each worker's program counter fits what the driver knows of it. -/
def Linked (r : ReplayState Value) : Prop :=
  ∀ txID, (r.pc txID).Linked (r.conservativeKeys txID) (r.driver.worker txID)
    (r.driver.session.phase txID)

section Simulation

variable {block : ReplayBlock Value} {contexts : List TransactionContext}
  {committedDelta : String → Option Value} {r r' : ReplayState Value}

/-- Each step of the replay is a step of the driver, or invisible to it. -/
theorem Step.driver (linked : r.Linked) (step : Step block r r') :
    r'.driver = r.driver ∨ Driver.Step replayExitTest r.driver r'.driver := by
  cases step with
  | main driver h => exact Or.inr (.main h)
  | noContext txID hWorker hPc hIdx =>
    have hLinked := linked txID
    rw [hPc] at hLinked
    rcases hLinked with hIdle | hLinked
    · rw [hWorker] at hIdle
      cases hIdle
    · exact Or.inr (.worker txID (.abort _ hLinked.1 hLinked.2))
  | snapshot | acquireError | reExecute | append | merge => exact Or.inl rfl
  | abort txID hPc =>
    have hLinked := linked txID
    rw [hPc] at hLinked
    exact Or.inr (.worker txID (.abort _ hLinked.1 hLinked.2))
  | prune txID result hPc =>
    have hLinked := linked txID
    rw [hPc] at hLinked
    exact Or.inr (.worker txID (.prune _ _ hLinked.1 hLinked.2))
  | execute txID result hPc =>
    have hLinked := linked txID
    rw [hPc] at hLinked
    obtain ⟨hWorker, ⟨hPhase, _⟩ | hPhase⟩ := hLinked
    · exact Or.inr (.worker txID (.execute _ hWorker (Phase.active_of_popped hPhase)))
    · exact Or.inr (.worker txID (.execute _ hWorker (by rw [hPhase]; trivial)))
  | decrement txID committed hPc =>
    have hLinked := linked txID
    rw [hPc] at hLinked
    exact Or.inr (.worker txID (.finish _ hLinked.1 hLinked.2))

theorem Linked.goto (linked : r.Linked) {next : ReplayState Value} {txID : String}
    {pc : WorkerPc Value} (hPc : next.pc = update r.pc txID pc)
    (hKeys : ∀ other, next.conservativeKeys other = r.conservativeKeys other)
    (hOther : ∀ other, other ≠ txID → next.driver.worker other = r.driver.worker other ∧
      next.driver.session.phase other = r.driver.session.phase other)
    (hSelf : pc.Linked (r.conservativeKeys txID) (next.driver.worker txID)
      (next.driver.session.phase txID)) : next.Linked := by
  intro other
  rw [hPc, hKeys]
  exact Driver.forall_moved
    (fun other pc worker phase => WorkerPc.Linked (r.conservativeKeys other) worker phase pc)
    linked hOther hSelf other

theorem afterReExecute_linked {keys : List String} {worker : WorkerState} {phase : Phase}
    (h : worker = .running ∧ phase = .popped) (outcome : Option (ReExecuteResult Value)) :
    (afterReExecute keys outcome).Linked keys worker phase := by
  rcases afterReExecute_cases keys outcome with hPc | ⟨result, _, _, hPc | ⟨hKeys, hPc⟩⟩
  · rw [hPc]
    exact h
  · rw [hPc]
    exact h
  · rw [hPc]
    exact ⟨h.1, Or.inl ⟨h.2, hKeys⟩⟩

theorem Linked.step {start : DepurgeScheduler} {added : List String} (linked : r.Linked)
    (inv : r.driver.Invariant added) (session : r.driver.session.Invariant start added)
    (session' : r'.driver.session.Invariant start added) (step : Step block r r') :
    r'.Linked := by
  have hKeys : ∀ other, r'.conservativeKeys other = r.conservativeKeys other := by
    intro other
    change r'.driver.session.scheduler.txKeyMap other = r.driver.session.scheduler.txKeyMap other
    rw [session'.keyMap, session.keyMap]
  have hSame : ∀ (txID : String) (next : Phase) (other : String), other ≠ txID →
      r.driver.worker other = r.driver.worker other ∧
        update r.driver.session.phase txID next other =
          r.driver.session.phase other :=
    fun txID next other hne => ⟨rfl, update_of_ne hne ..⟩
  cases step with
  | main driver h =>
    intro txID
    rw [hKeys]
    have hLinked := linked txID
    rcases inv.mainStep_worker session h txID with ⟨hWorker, hPhase | hIdle⟩ | ⟨hIdle, hNew⟩
    · change (r.pc txID).Linked _ (driver.worker txID) (driver.session.phase txID)
      rw [hWorker, hPhase]
      exact hLinked
    all_goals
      rw [hIdle] at hLinked
      change (r.pc txID).Linked _ (driver.worker txID) (driver.session.phase txID)
      cases hPc : r.pc txID <;> rw [hPc] at hLinked
    case start => exact Or.inl (hWorker.trans hIdle)
    case start => exact Or.inr hNew
    all_goals cases hLinked.1
  | noContext txID hWorker hPc hIdx =>
    exact linked.goto rfl hKeys (hSame txID _) ⟨hWorker, update_self ..⟩
  | snapshot txID txIdx hWorker hPc hIdx =>
    have hLinked := linked txID
    rw [hPc] at hLinked
    refine linked.goto rfl hKeys (fun _ _ => ⟨rfl, rfl⟩) ?_
    rcases hLinked with hIdle | hLinked
    · rw [hWorker] at hIdle
      cases hIdle
    · exact hLinked
  | acquireError txID txIdx overlay hPc =>
    have hLinked := linked txID
    rw [hPc] at hLinked
    exact linked.goto rfl hKeys (fun _ _ => ⟨rfl, rfl⟩) hLinked
  | reExecute txID txIdx overlay hPc =>
    have hLinked := linked txID
    rw [hPc] at hLinked
    exact linked.goto rfl hKeys (fun _ _ => ⟨rfl, rfl⟩) (afterReExecute_linked hLinked _)
  | abort txID hPc =>
    have hLinked := linked txID
    rw [hPc] at hLinked
    exact linked.goto rfl hKeys (hSame txID _) ⟨hLinked.1, update_self ..⟩
  | append txID hPc =>
    have hLinked := linked txID
    rw [hPc] at hLinked
    exact linked.goto rfl hKeys (fun _ _ => ⟨rfl, rfl⟩) hLinked
  | prune txID result hPc =>
    have hLinked := linked txID
    rw [hPc] at hLinked
    exact linked.goto rfl hKeys (hSame txID _) ⟨hLinked.1, Or.inr (update_self ..)⟩
  | execute txID result hPc =>
    have hLinked := linked txID
    rw [hPc] at hLinked
    exact linked.goto rfl hKeys (hSame txID _) ⟨hLinked.1, update_self ..⟩
  | merge txID result hPc =>
    have hLinked := linked txID
    rw [hPc] at hLinked
    exact linked.goto rfl hKeys (fun _ _ => ⟨rfl, rfl⟩) hLinked
  | decrement txID committed hPc =>
    have hLinked := linked txID
    rw [hPc] at hLinked
    refine linked.goto rfl hKeys ?_ ⟨update_self .., hLinked.2⟩
    exact fun other hne => ⟨update_of_ne hne .., rfl⟩

/-- Every interleaving of the replay is one of the driver, with the workers
where the driver believes them to be. -/
theorem Reachable.simulated (distinct : (contexts.map TransactionContext.TxID).Nodup)
    (run : Reachable block contexts committedDelta r) :
    Driver.Reachable replayExitTest contexts r.driver ∧ r.Linked := by
  induction run with
  | refl => exact ⟨.refl, fun _ => Or.inl rfl⟩
  | @tail r r' _ last ih =>
    obtain ⟨hDriver, hLinked⟩ := ih
    have hDriver' : Driver.Reachable replayExitTest contexts r'.driver := by
      rcases last.driver hLinked with hSame | hStep
      · rw [hSame]
        exact hDriver
      · exact hDriver.tail hStep
    exact ⟨hDriver', hLinked.step (hDriver.invariant distinct)
      (hDriver.session.invariant distinct) (hDriver'.session.invariant distinct) last⟩

end Simulation

end ReplayState
end Nezha
