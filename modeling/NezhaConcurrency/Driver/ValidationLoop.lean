import NezhaConcurrency.Core.DepurgeDiscipline

/-! The validation loop that drives a scheduler: a main loop that pops ready
transactions and hands them to workers, and workers that call the scheduler and
then decrement `inProgress`. The loop of `runReplayDepurgeMode` and that of
`TestDepurge` have the same body. They differ in the order in which the exit
test reads the three shared values, each read being an atomic step of its own. -/
namespace Nezha

open DepurgeScheduler Function List

/-- The shared values that an exit test reads. -/
inductive Read where
  | inProgress
  | readyQueueLen
  | pruneReadyQueueLen
deriving DecidableEq, Repr

/-- Where the main loop stands. `test` lists the reads that remain before the
loop is left. A transaction is popped, counted and handed over in three steps. -/
inductive LoopState where
  | test (remaining : List Read)
  | popReady
  | addReady (txID : String)
  | invokeReady (txID : String)
  | popPruneReady
  | addPruneReady (txID : String)
  | invokePruneReady (txID : String)
  | exited
deriving DecidableEq, Repr

/-- The transaction between its pop and its hand-over. -/
def LoopState.held : LoopState → Option String
  | .addReady txID => some txID
  | .invokeReady txID => some txID
  | .addPruneReady txID => some txID
  | .invokePruneReady txID => some txID
  | _ => none

/-- Whether `inProgress` already counts the held transaction. -/
def LoopState.counted : LoopState → Int
  | .invokeReady _ => 1
  | .invokePruneReady _ => 1
  | _ => 0

inductive WorkerState where
  | idle
  | running
  | done
deriving DecidableEq, Repr

structure Driver where
  session : Session
  loop : LoopState
  inProgress : Int
  worker : String → WorkerState

/-- An exit test: the order of its reads, and which value of `inProgress` lets
it go on. -/
structure ExitTest where
  reads : List Read
  quiet : Int → Bool

/-- `inProgress == 0 && readyLen == 0 && pruneReadyLen == 0` leaves the loop. -/
def replayExitTest : ExitTest where
  reads := [.inProgress, .readyQueueLen, .pruneReadyQueueLen]
  quiet := fun n => n == 0

/-- `readyLen > 0 || pruneReadyLen > 0 || inProgress > 0` keeps the loop. -/
def testDepurgeExitTest : ExitTest where
  reads := [.readyQueueLen, .pruneReadyQueueLen, .inProgress]
  quiet := fun n => !(n > 0)

namespace Driver

def init (test : ExitTest) (contexts : List TransactionContext) : Driver where
  session := Session.init contexts
  loop := .test test.reads
  inProgress := 0
  worker := fun _ => .idle

/-- Whether a read finds a value that lets the exit test go on. -/
def quiet (test : ExitTest) (d : Driver) : Read → Bool
  | .inProgress => test.quiet d.inProgress
  | .readyQueueLen => d.session.scheduler.GetReadyQueueLen == 0
  | .pruneReadyQueueLen => d.session.scheduler.GetPruneReadyQueueLen == 0

/-- The loop is left once no read remains. -/
def afterQuiet (rest : List Read) : LoopState :=
  if rest = [] then .exited else .test rest

def setWorker (d : Driver) (txID : String) (state : WorkerState) : Driver :=
  { d with worker := update d.worker txID state }

/-- One atomic step of the main loop. -/
inductive MainStep (test : ExitTest) : Driver → Driver → Prop where
  | readQuiet (d : Driver) (read : Read) (rest : List Read)
      (hLoop : d.loop = .test (read :: rest)) (hQuiet : d.quiet test read = true) :
      MainStep test d { d with loop := afterQuiet rest }
  | readBusy (d : Driver) (read : Read) (rest : List Read)
      (hLoop : d.loop = .test (read :: rest)) (hBusy : d.quiet test read = false) :
      MainStep test d { d with loop := .popReady }
  | popReady (d : Driver) (hLoop : d.loop = .popReady)
      (hSome : d.session.scheduler.PopReady.2 ≠ "") :
      MainStep test d { d with
        session := d.session.popReady
        loop := .addReady d.session.scheduler.PopReady.2 }
  | popReadyEmpty (d : Driver) (hLoop : d.loop = .popReady)
      (hNone : d.session.scheduler.PopReady.2 = "") :
      MainStep test d { d with session := d.session.popReady, loop := .popPruneReady }
  | addReady (d : Driver) (txID : String) (hLoop : d.loop = .addReady txID) :
      MainStep test d { d with inProgress := d.inProgress + 1, loop := .invokeReady txID }
  | invokeReady (d : Driver) (txID : String) (hLoop : d.loop = .invokeReady txID) :
      MainStep test d { d.setWorker txID .running with loop := .popReady }
  | popPruneReady (d : Driver) (hLoop : d.loop = .popPruneReady)
      (hSome : d.session.scheduler.PopPruneReady.2 ≠ "") :
      MainStep test d { d with
        session := d.session.popPruneReady
        loop := .addPruneReady d.session.scheduler.PopPruneReady.2 }
  | popPruneReadyEmpty (d : Driver) (hLoop : d.loop = .popPruneReady)
      (hNone : d.session.scheduler.PopPruneReady.2 = "") :
      MainStep test d { d with session := d.session.popPruneReady, loop := .test test.reads }
  | addPruneReady (d : Driver) (txID : String) (hLoop : d.loop = .addPruneReady txID) :
      MainStep test d { d with inProgress := d.inProgress + 1, loop := .invokePruneReady txID }
  | invokePruneReady (d : Driver) (txID : String) (hLoop : d.loop = .invokePruneReady txID) :
      MainStep test d { d.setWorker txID .running with loop := .popPruneReady }

/-- One atomic step of the worker of one transaction. A worker may finish its
transaction in any way the pop-then-finish discipline allows, and decrements
`inProgress` only afterwards. -/
inductive WorkerStep (txID : String) : Driver → Driver → Prop where
  | prune (d : Driver) (realKeys : List String) (hWorker : d.worker txID = .running)
      (hPhase : d.session.phase txID = .popped) :
      WorkerStep txID d { d with session := d.session.prune txID realKeys }
  | execute (d : Driver) (hWorker : d.worker txID = .running)
      (hPhase : (d.session.phase txID).Active) :
      WorkerStep txID d { d with session := d.session.execute txID }
  | abort (d : Driver) (hWorker : d.worker txID = .running)
      (hPhase : d.session.phase txID = .popped) :
      WorkerStep txID d { d with session := d.session.abort txID }
  | finish (d : Driver) (hWorker : d.worker txID = .running)
      (hPhase : d.session.phase txID = .finished) :
      WorkerStep txID d { d.setWorker txID .done with inProgress := d.inProgress - 1 }

inductive Step (test : ExitTest) (d d' : Driver) : Prop where
  | main (h : MainStep test d d')
  | worker (txID : String) (h : WorkerStep txID d d')

theorem WorkerStep.running {txID : String} {d d' : Driver} (step : WorkerStep txID d d') :
    d.worker txID = .running := by
  cases step <;> assumption

theorem WorkerStep.loop {txID : String} {d d' : Driver} (step : WorkerStep txID d d') :
    d'.loop = d.loop := by
  cases step <;> rfl

def Reachable (test : ExitTest) (contexts : List TransactionContext) (d : Driver) : Prop :=
  Relation.ReflTransGen (Step test) (init test contexts) d

theorem Reachable.main {test : ExitTest} {contexts : List TransactionContext} {d d' : Driver}
    (run : Reachable test contexts d) (step : MainStep test d d') : Reachable test contexts d' :=
  run.tail (.main step)

theorem Reachable.worker {test : ExitTest} {contexts : List TransactionContext} {d d' : Driver}
    (run : Reachable test contexts d) {txID : String} (step : WorkerStep txID d d') :
    Reachable test contexts d' :=
  run.tail (.worker txID step)

theorem run_quiet {test : ExitTest} {d : Driver} {reads : List Read} (hReads : reads ≠ [])
    (hLoop : d.loop = .test reads) (hQuiet : ∀ read, d.quiet test read = true) :
    Relation.ReflTransGen (MainStep test) d { d with loop := .exited } := by
  induction reads generalizing d with
  | nil => exact absurd rfl hReads
  | cons read rest ih =>
    have hRead := MainStep.readQuiet d read rest hLoop (hQuiet read)
    by_cases hRest : rest = []
    · rw [afterQuiet, if_pos hRest] at hRead
      exact .single hRead
    · rw [afterQuiet, if_neg hRest] at hRead
      exact .head hRead (ih hRest rfl hQuiet)

theorem run_exit {test : ExitTest} {d : Driver} (hReads : test.reads ≠ [])
    (hLoop : d.loop = .popReady) (hReady : d.session.scheduler.PopReady.2 = "")
    (hPruneReady : d.session.popReady.scheduler.PopPruneReady.2 = "")
    (hQuiet : ∀ read,
      { d with session := d.session.popReady.popPruneReady }.quiet test read = true) :
    Relation.ReflTransGen (MainStep test) d
      { d with session := d.session.popReady.popPruneReady, loop := .exited } := by
  have hPop : Relation.ReflTransGen (MainStep test) d
      { d with session := d.session.popReady, loop := .popPruneReady } :=
    .single (.popReadyEmpty d hLoop hReady)
  exact (hPop.tail (.popPruneReadyEmpty _ rfl hPruneReady)).trans (run_quiet hReads rfl hQuiet)

/-- A driver step makes at most one scheduler call, within the discipline. -/
theorem Step.session {test : ExitTest} {d d' : Driver} (step : Step test d d') :
    d'.session = d.session ∨ Session.Step d.session d'.session := by
  cases step with
  | main main =>
    cases main with
    | readQuiet | readBusy | addReady | invokeReady | addPruneReady | invokePruneReady =>
      exact Or.inl rfl
    | popReady | popReadyEmpty => exact Or.inr (.popReady _)
    | popPruneReady | popPruneReadyEmpty => exact Or.inr (.popPruneReady _)
  | worker txID worker =>
    cases worker with
    | prune realKeys _ hPhase => exact Or.inr (.prune _ txID realKeys hPhase)
    | execute _ hPhase => exact Or.inr (.execute _ txID hPhase)
    | abort _ hPhase => exact Or.inr (.abort _ txID hPhase)
    | finish => exact Or.inl rfl

/-- Every interleaving of the driver is one of the scheduler's sessions. -/
theorem Reachable.session {test : ExitTest} {contexts : List TransactionContext} {d : Driver}
    (run : Reachable test contexts d) : Session.Reachable contexts d.session := by
  induction run with
  | refl => exact Relation.ReflTransGen.refl
  | tail _ last ih =>
    rcases last.session with hSame | hStep
    · rw [hSame]
      exact ih
    · exact ih.tail hStep

/-- What `inProgress` counts, and what the workers are doing. The last two
fields say that nobody in flight is without a worker, except the transaction
that the main loop holds. -/
structure Invariant (added : List String) (d : Driver) : Prop where
  count : d.inProgress = added.countP (fun txID => d.worker txID = .running) + d.loop.counted
  held : ∀ txID, d.loop.held = some txID → d.session.phase txID = .popped ∧ d.worker txID = .idle
  started : ∀ txID, d.worker txID ≠ .idle → d.session.phase txID ≠ .waiting
  done : ∀ txID, d.worker txID = .done → d.session.phase txID = .finished
  covered : ∀ txID, d.session.phase txID ≠ .waiting →
    d.worker txID ≠ .idle ∨ d.loop.held = some txID

section Preservation

variable {start : DepurgeScheduler} {added : List String} {d : Driver}

variable {txID : String}

theorem Invariant.running_of_active (inv : d.Invariant added)
    (hActive : (d.session.phase txID).Active) :
    d.worker txID = .running ∨ d.loop.held = some txID := by
  have hStarted : d.session.phase txID ≠ .waiting := by
    intro h
    rw [h] at hActive
    exact hActive
  rcases inv.covered txID hStarted with hWorker | hHeld
  · cases hState : d.worker txID with
    | idle => exact absurd hState hWorker
    | running => exact Or.inl rfl
    | done =>
      rw [inv.done txID hState] at hActive
      exact hActive.elim
  · exact Or.inr hHeld

theorem Invariant.move (inv : d.Invariant added) (session : Session) (loop : LoopState)
    (hPhase : session.phase = d.session.phase) (hHeld : loop.held = d.loop.held)
    (hCounted : loop.counted = d.loop.counted) :
    Invariant added { d with session := session, loop := loop } := by
  refine ⟨?_, ?_, ?_, ?_, ?_⟩
  · rw [inv.count]
    exact congrArg _ hCounted.symm
  · intro txID h
    change session.phase txID = .popped ∧ _
    rw [hPhase]
    exact inv.held txID (hHeld ▸ h)
  · intro txID h
    change session.phase txID ≠ .waiting
    rw [hPhase]
    exact inv.started txID h
  · intro txID h
    change session.phase txID = .finished
    rw [hPhase]
    exact inv.done txID h
  · intro txID h
    change session.phase txID ≠ .waiting at h
    rw [hPhase] at h
    exact (inv.covered txID h).imp_right fun h' => hHeld.trans h'

theorem Invariant.take (inv : d.Invariant added) (hNone : d.loop.held = none)
    (hCounted : d.loop.counted = 0) (hWaiting : d.session.phase txID = .waiting) {session : Session}
    (hPhase : session.phase = update d.session.phase txID .popped) {loop : LoopState}
    (hLoop : loop.held = some txID) (hLoopCounted : loop.counted = 0) :
    Invariant added { d with session := session, loop := loop } where
  count := by
    rw [inv.count, hCounted]
    exact congrArg _ hLoopCounted.symm
  held := by
    intro other h
    obtain rfl : txID = other := Option.some.inj (hLoop.symm.trans h)
    refine ⟨by rw [hPhase, update_self], ?_⟩
    by_contra hWorker
    exact inv.started txID hWorker hWaiting
  started := by
    intro other hWorker
    change session.phase other ≠ .waiting
    rw [hPhase]
    by_cases hne : other = txID
    · rw [hne, update_self]
      exact Phase.noConfusion
    · rw [update_of_ne hne]
      exact inv.started other hWorker
  done := by
    intro other hDone
    change session.phase other = .finished
    rw [hPhase]
    have hne : other ≠ txID := by
      rintro rfl
      rw [inv.done other hDone] at hWaiting
      cases hWaiting
    rw [update_of_ne hne]
    exact inv.done other hDone
  covered := by
    intro other h
    change session.phase other ≠ .waiting at h
    by_cases hne : other = txID
    · exact Or.inr (hne ▸ hLoop)
    · rw [hPhase, update_of_ne hne] at h
      rcases inv.covered other h with hWorker | hHeld
      · exact Or.inl hWorker
      · rw [hNone] at hHeld
        cases hHeld

theorem Invariant.add (inv : d.Invariant added) {loop : LoopState}
    (hCounted : d.loop.counted = 0) (hHeld : loop.held = d.loop.held)
    (hLoopCounted : loop.counted = 1) :
    Invariant added { d with inProgress := d.inProgress + 1, loop := loop } := by
  refine ⟨?_, ?_, inv.started, inv.done, ?_⟩
  · change d.inProgress + 1 = _ + loop.counted
    rw [inv.count, hCounted, hLoopCounted, add_zero]
  · exact fun txID h => inv.held txID (hHeld ▸ h)
  · exact fun txID h => (inv.covered txID h).imp_right fun h' => hHeld.trans h'

theorem Invariant.handOver (inv : d.Invariant added) (nodup : added.Nodup)
    (hAdded : ∀ txID, d.session.phase txID ≠ .waiting → txID ∈ added)
    (hHeld : d.loop.held = some txID) (hCounted : d.loop.counted = 1) {loop : LoopState}
    (hLoop : loop.held = none) (hLoopCounted : loop.counted = 0) :
    Invariant added { d.setWorker txID .running with loop := loop } := by
  obtain ⟨hPhase, hIdle⟩ := inv.held txID hHeld
  have hStarted : d.session.phase txID ≠ .waiting := by
    rw [hPhase]
    exact Phase.noConfusion
  refine ⟨?_, ?_, ?_, ?_, ?_⟩
  · have hCount := Count.countP_eq_succ nodup
      (p := fun other => decide (update d.worker txID .running other = .running))
      (q := fun other => decide (d.worker other = .running)) (hAdded txID hStarted)
      (by simp) (by simp [hIdle]) (fun other _ hne => by rw [update_of_ne hne])
    change d.inProgress = (added.countP fun other =>
      decide (update d.worker txID .running other = .running) : Nat) + loop.counted
    rw [inv.count, hCount, hCounted, hLoopCounted]
    push_cast
    omega
  · intro other h
    rw [show loop.held = some other from h] at hLoop
    cases hLoop
  · intro other hWorker
    by_cases hne : other = txID
    · rw [hne]
      exact hStarted
    · apply inv.started other
      rwa [show (d.setWorker txID .running).worker other = d.worker other from
        update_of_ne hne ..] at hWorker
  · intro other hDone
    by_cases hne : other = txID
    · rw [hne, show (d.setWorker txID .running).worker txID = .running from
        update_self ..] at hDone
      cases hDone
    · rw [show (d.setWorker txID .running).worker other = d.worker other from
        update_of_ne hne ..] at hDone
      exact inv.done other hDone
  · intro other h
    left
    by_cases hne : other = txID
    · rw [hne, show (d.setWorker txID .running).worker txID = .running from
        update_self ..]
      exact WorkerState.noConfusion
    · rw [show (d.setWorker txID .running).worker other = d.worker other from
        update_of_ne hne ..]
      rcases inv.covered other h with hWorker | hOther
      · exact hWorker
      · exact absurd (Option.some.inj (hOther.symm.trans hHeld)) hne

theorem Invariant.call (inv : d.Invariant added) (hWorker : d.worker txID = .running)
    {session : Session} {next : Phase} (hNext : next ≠ .waiting)
    (hPhase : session.phase = update d.session.phase txID next) :
    Invariant added { d with session := session } := by
  have hStarted : d.session.phase txID ≠ .waiting :=
    inv.started txID (by rw [hWorker]; exact WorkerState.noConfusion)
  have hWaiting : ∀ other, session.phase other ≠ .waiting ↔ d.session.phase other ≠ .waiting := by
    intro other
    rw [hPhase]
    by_cases hne : other = txID
    · rw [hne, update_self]
      exact ⟨fun _ => hStarted, fun _ => hNext⟩
    · rw [update_of_ne hne]
  have hOther : ∀ other, d.worker other ≠ .running →
      session.phase other = d.session.phase other := by
    intro other hNot
    rw [hPhase, update_of_ne]
    rintro rfl
    exact hNot hWorker
  refine ⟨inv.count, ?_, ?_, ?_, ?_⟩
  · intro other h
    obtain ⟨hPopped, hIdle⟩ := inv.held other h
    refine ⟨?_, hIdle⟩
    exact (hOther other (by rw [hIdle]; exact WorkerState.noConfusion)).trans hPopped
  · exact fun other h => (hWaiting other).mpr (inv.started other h)
  · intro other hDone
    exact (hOther other (by rw [hDone]; exact WorkerState.noConfusion)).trans (inv.done other hDone)
  · exact fun other h => inv.covered other ((hWaiting other).mp h)

theorem Invariant.finish (inv : d.Invariant added) (nodup : added.Nodup)
    (hAdded : ∀ txID, d.session.phase txID ≠ .waiting → txID ∈ added)
    (hWorker : d.worker txID = .running) (hPhase : d.session.phase txID = .finished) :
    Invariant added { d.setWorker txID .done with inProgress := d.inProgress - 1 } := by
  have hStarted : d.session.phase txID ≠ .waiting := by
    rw [hPhase]
    exact Phase.noConfusion
  have hSelf : (d.setWorker txID .done).worker txID = .done := update_self ..
  have hOther : ∀ other, other ≠ txID → (d.setWorker txID .done).worker other = d.worker other :=
    fun other hne => update_of_ne hne ..
  refine ⟨?_, ?_, ?_, ?_, ?_⟩
  · have hCount := Count.countP_eq_succ nodup (p := fun other => decide (d.worker other = .running))
      (q := fun other => decide ((d.setWorker txID .done).worker other = .running))
      (hAdded txID hStarted) (by simp [hWorker]) (by simp [hSelf])
      (fun other _ hne => by rw [hOther other hne])
    change d.inProgress - 1 = (added.countP fun other =>
      decide ((d.setWorker txID .done).worker other = .running) : Nat) + d.loop.counted
    rw [inv.count, hCount]
    push_cast
    omega
  · intro other h
    obtain ⟨hPopped, hIdle⟩ := inv.held other h
    have hne : other ≠ txID := by
      rintro rfl
      rw [hIdle] at hWorker
      cases hWorker
    exact ⟨hPopped, (hOther other hne).trans hIdle⟩
  · intro other h
    by_cases hne : other = txID
    · rw [hne]
      exact hStarted
    · exact inv.started other (hOther other hne ▸ h)
  · intro other h
    by_cases hne : other = txID
    · rw [hne]
      exact hPhase
    · exact inv.done other (hOther other hne ▸ h)
  · intro other h
    by_cases hne : other = txID
    · left
      rw [hne]
      change (d.setWorker txID .done).worker txID ≠ .idle
      rw [hSelf]
      exact WorkerState.noConfusion
    · rcases inv.covered other h with hStill | hHeld
      · exact Or.inl ((hOther other hne).symm ▸ hStill)
      · exact Or.inr hHeld

/-- When one worker moves on, the places of the others still fit what the driver knows
of them. -/
theorem forall_moved {Place : Type} (fits : String → Place → WorkerState → Phase → Prop)
    {next : Driver} {pc : String → Place} {place : Place}
    (hFits : ∀ other, fits other (pc other) (d.worker other) (d.session.phase other))
    (hOther : ∀ other, other ≠ txID → next.worker other = d.worker other ∧ next.session.phase other = d.session.phase other)
    (hSelf : fits txID place (next.worker txID) (next.session.phase txID)) (other : String) :
    fits other (update pc txID place other) (next.worker other) (next.session.phase other) := by
  by_cases hne : other = txID
  · rw [hne, update_self]
    exact hSelf
  · rw [update_of_ne hne, (hOther other hne).1, (hOther other hne).2]
    exact hFits other

theorem Invariant.mainStep {test : ExitTest} (inv : d.Invariant added)
    (session : d.session.Invariant start added) (nodup : added.Nodup) {d' : Driver}
    (step : MainStep test d d') : d'.Invariant added := by
  have hAdded : ∀ txID, d.session.phase txID ≠ .waiting → txID ∈ added :=
    fun txID h => (session.known txID h).1
  cases step with
  | readQuiet read rest hLoop hQuiet =>
    apply inv.move _ _ rfl
    · rw [hLoop]
      unfold afterQuiet
      split <;> rfl
    · rw [hLoop]
      unfold afterQuiet
      split <;> rfl
  | readBusy read rest hLoop hBusy =>
    exact inv.move _ _ rfl (by rw [hLoop]; rfl) (by rw [hLoop]; rfl)
  | popReady hLoop hSome =>
    refine inv.take (by rw [hLoop]; rfl) (by rw [hLoop]; rfl) ?_ ?_ rfl rfl
    · exact (session.scheduler.ready_mem _ (d.session.scheduler.PopReady_mem hSome)).2.1
    · exact if_neg hSome
  | popReadyEmpty hLoop hNone =>
    exact inv.move _ _ (if_pos hNone) (by rw [hLoop]; rfl) (by rw [hLoop]; rfl)
  | addReady txID hLoop => exact inv.add (by rw [hLoop]; rfl) (by rw [hLoop]; rfl) rfl
  | invokeReady txID hLoop =>
    exact inv.handOver nodup hAdded (by rw [hLoop]; rfl) (by rw [hLoop]; rfl) rfl rfl
  | popPruneReady hLoop hSome =>
    refine inv.take (by rw [hLoop]; rfl) (by rw [hLoop]; rfl) ?_ ?_ rfl rfl
    · exact (session.scheduler.ready_mem _ (d.session.scheduler.PopPruneReady_mem hSome)).2.1
    · exact if_neg hSome
  | popPruneReadyEmpty hLoop hNone =>
    exact inv.move _ _ (if_pos hNone) (by rw [hLoop]; rfl) (by rw [hLoop]; rfl)
  | addPruneReady txID hLoop => exact inv.add (by rw [hLoop]; rfl) (by rw [hLoop]; rfl) rfl
  | invokePruneReady txID hLoop =>
    exact inv.handOver nodup hAdded (by rw [hLoop]; rfl) (by rw [hLoop]; rfl) rfl rfl

/-- A step of the main loop leaves the running workers alone. It may pop or hand
over a transaction that has no worker yet. -/
theorem Invariant.mainStep_worker {test : ExitTest} {d' : Driver} (inv : d.Invariant added)
    (session : d.session.Invariant start added) (step : MainStep test d d') (txID : String) :
    d'.worker txID = d.worker txID ∧
        (d'.session.phase txID = d.session.phase txID ∨ d.worker txID = .idle) ∨
      d.worker txID = .idle ∧ d'.worker txID = .running ∧ d'.session.phase txID = .popped := by
  have hPop : ∀ result : DepurgeScheduler × String,
      (result.2 ≠ "" → d.session.phase result.2 = .waiting) →
      (d.session.pop result).phase txID = d.session.phase txID ∨ d.worker txID = .idle := by
    intro result hWaiting
    by_cases hEmpty : result.2 = ""
    · exact Or.inl (by simp [Session.pop, hEmpty])
    · by_cases hne : txID = result.2
      · right
        by_contra hWorker
        exact inv.started txID hWorker (hne ▸ hWaiting hEmpty)
      · exact Or.inl (by simp [Session.pop, hEmpty, hne])
  have hInvoke : ∀ held, d.loop.held = some held →
      update d.worker held .running txID = d.worker txID ∨
        d.worker txID = .idle ∧ update d.worker held .running txID = .running ∧
          d.session.phase txID = .popped := by
    intro held hHeld
    by_cases hne : txID = held
    · obtain ⟨hPhase, hIdle⟩ := inv.held held hHeld
      exact Or.inr ⟨hne ▸ hIdle, by rw [hne, update_self], hne ▸ hPhase⟩
    · exact Or.inl (update_of_ne hne ..)
  have hReady : d.session.scheduler.PopReady.2 ≠ "" →
      d.session.phase d.session.scheduler.PopReady.2 = .waiting := fun h =>
    (session.scheduler.ready_mem _ (d.session.scheduler.PopReady_mem h)).2.1
  have hPruneReady : d.session.scheduler.PopPruneReady.2 ≠ "" →
      d.session.phase d.session.scheduler.PopPruneReady.2 = .waiting := fun h =>
    (session.scheduler.ready_mem _ (d.session.scheduler.PopPruneReady_mem h)).2.1
  cases step with
  | readQuiet | readBusy | addReady | addPruneReady => exact Or.inl ⟨rfl, Or.inl rfl⟩
  | popReady | popReadyEmpty => exact Or.inl ⟨rfl, hPop _ hReady⟩
  | popPruneReady | popPruneReadyEmpty => exact Or.inl ⟨rfl, hPop _ hPruneReady⟩
  | invokeReady held hLoop | invokePruneReady held hLoop =>
    exact (hInvoke held (by rw [hLoop]; rfl)).imp_left fun h => ⟨h, Or.inl rfl⟩

theorem Invariant.step {test : ExitTest} (inv : d.Invariant added)
    (session : d.session.Invariant start added) (nodup : added.Nodup) {d' : Driver}
    (step : Step test d d') : d'.Invariant added := by
  cases step with
  | main main => exact inv.mainStep session nodup main
  | worker txID worker =>
    cases worker with
    | prune realKeys hWorker hPhase => exact inv.call hWorker Phase.noConfusion rfl
    | execute hWorker hPhase => exact inv.call hWorker Phase.noConfusion rfl
    | abort hWorker hPhase => exact inv.call hWorker Phase.noConfusion rfl
    | finish hWorker hPhase =>
      exact inv.finish nodup (fun txID h => (session.known txID h).1) hWorker hPhase

end Preservation

theorem invariant_init (test : ExitTest) (contexts : List TransactionContext) :
    (init test contexts).Invariant (addedIDs contexts) where
  count := by
    change (0 : Int) = ((addedIDs contexts).countP fun _ => decide (WorkerState.idle = .running) :
      Nat) + 0
    simp
  held := fun _ h => by cases h
  started := fun _ h => absurd rfl h
  done := fun _ h => by cases h
  covered := fun _ h => absurd rfl h

section Runs

variable {test : ExitTest} {contexts : List TransactionContext} {d : Driver}

theorem Reachable.invariant (distinct : (contexts.map TransactionContext.TxID).Nodup)
    (run : Reachable test contexts d) : d.Invariant (addedIDs contexts) := by
  induction run with
  | refl => exact invariant_init test contexts
  | tail earlier last ih =>
    have hSession := (Reachable.session earlier).invariant distinct
    exact ih.step hSession (addedIDs_sorted distinct).nodup last

theorem Reachable.reads_suffix (run : Reachable test contexts d) {remaining : List Read}
    (hLoop : d.loop = .test remaining) : remaining <:+ test.reads := by
  induction run generalizing remaining with
  | refl =>
    cases hLoop
    exact suffix_rfl
  | tail _ last ih =>
    cases last with
    | worker txID worker => exact ih (worker.loop ▸ hLoop)
    | main main =>
      cases main with
      | readQuiet read rest hBefore hQuiet =>
        change afterQuiet rest = .test remaining at hLoop
        unfold afterQuiet at hLoop
        split at hLoop
        · cases hLoop
        · obtain rfl := LoopState.test.inj hLoop
          exact (suffix_cons read _).trans (ih hBefore)
      | popPruneReadyEmpty hBefore hNone =>
        cases hLoop
        exact suffix_rfl
      | readBusy | popReady | popReadyEmpty | addReady | invokeReady | popPruneReady
      | addPruneReady | invokePruneReady => cases hLoop

theorem Invariant.no_worker {added : List String} {start : DepurgeScheduler}
    (inv : d.Invariant added) (session : d.session.Invariant start added)
    (hQuiet : d.inProgress ≤ 0) (txID : String) : d.worker txID ≠ .running := by
  intro hWorker
  have hStarted := inv.started txID (by rw [hWorker]; exact WorkerState.noConfusion)
  have hPos : 0 < added.countP fun other => decide (d.worker other = .running) :=
    countP_pos_iff.mpr ⟨txID, (session.known txID hStarted).1, decide_eq_true hWorker⟩
  have hCounted : 0 ≤ d.loop.counted := by
    unfold LoopState.counted
    split <;> decide
  have hCount := inv.count
  omega

/-- Once nothing is queued, nobody runs and the main loop holds nothing, every
transaction is finished. -/
theorem Reachable.all_finished (distinct : (contexts.map TransactionContext.TxID).Nodup)
    (nonempty : ∀ ctx ∈ contexts, ctx.TxID ≠ "") (run : Reachable test contexts d)
    (hHeld : d.loop.held = none) (hWorkers : ∀ txID, d.worker txID ≠ .running)
    (hReady : d.session.scheduler.GetReadyQueueLen = 0)
    (hPrune : d.session.scheduler.GetPruneReadyQueueLen = 0) {ctx : TransactionContext}
    (hm : ctx ∈ contexts) :
    d.session.phase ctx.TxID = .finished ∧ d.worker ctx.TxID = .done := by
  have inv := run.invariant distinct
  have hIdle : ∀ txID, ¬ (d.session.phase txID).Active := by
    intro txID hActive
    rcases inv.running_of_active hActive with hRunning | hHolds
    · exact hWorkers txID hRunning
    · rw [hHeld] at hHolds
      cases hHolds
  have hFinished :=
    run.session.finished_of_drained distinct nonempty hReady hPrune hIdle hm
  refine ⟨hFinished, ?_⟩
  rcases inv.covered ctx.TxID (by rw [hFinished]; exact Phase.noConfusion) with hWorker | hHolds
  · cases hState : d.worker ctx.TxID with
    | idle => exact absurd hState hWorker
    | running => exact absurd hState (hWorkers ctx.TxID)
    | done => rfl
  · rw [hHeld] at hHolds
    cases hHolds

end Runs

/-- The exit test has already made this read and found it quiet. -/
def Passed (d : Driver) (read : Read) : Prop :=
  d.loop = .exited ∨ ∃ remaining, d.loop = .test remaining ∧ read ∉ remaining

theorem Passed.mono {d : Driver} {read read' : Read} (hPassed : d.Passed read)
    (hReads : ∀ remaining, d.loop = .test remaining → read ∉ remaining → read' ∉ remaining) :
    d.Passed read' := by
  rcases hPassed with hExit | ⟨remaining, hLoop, hNot⟩
  · exact Or.inl hExit
  · exact Or.inr ⟨remaining, hLoop, hReads remaining hLoop hNot⟩

/-- What the replay exit test knows between its reads. Once `inProgress` was
read as zero no worker runs, so nothing changes until the loop pops again. -/
structure Frozen (d : Driver) : Prop where
  workers : d.Passed .inProgress → ∀ txID, d.worker txID ≠ .running
  ready : d.Passed .readyQueueLen → d.session.scheduler.GetReadyQueueLen = 0
  prune : d.Passed .pruneReadyQueueLen → d.session.scheduler.GetPruneReadyQueueLen = 0

section ReplayLoop

variable {contexts : List TransactionContext} {d : Driver}

theorem Reachable.passed_inProgress (run : Reachable replayExitTest contexts d) {read : Read}
    (hPassed : d.Passed read) : d.Passed .inProgress := by
  apply hPassed.mono
  intro remaining hLoop hNot
  have hSuffix := run.reads_suffix hLoop
  simp only [replayExitTest, suffix_cons_iff, suffix_nil] at hSuffix
  rcases hSuffix with rfl | rfl | rfl | rfl
  · cases read <;> simp at hNot
  all_goals simp

theorem Frozen.of_not_passed (hNot : ∀ read, ¬ d.Passed read) : d.Frozen :=
  ⟨fun h => absurd h (hNot _), fun h => absurd h (hNot _), fun h => absurd h (hNot _)⟩

theorem not_passed_of_loop {loop : LoopState} (hLoop : d.loop = loop)
    (hExit : loop ≠ .exited) (hTest : ∀ remaining, loop ≠ .test remaining) (read : Read) :
    ¬ d.Passed read := by
  rintro (h | ⟨remaining, h, _⟩)
  · exact hExit (hLoop.symm.trans h)
  · exact hTest remaining (hLoop.symm.trans h)

theorem not_passed_reads (hLoop : d.loop = .test replayExitTest.reads) (read : Read) :
    ¬ d.Passed read := by
  rintro (h | ⟨remaining, h, hNot⟩)
  · rw [hLoop] at h
    cases h
  · rw [hLoop] at h
    obtain rfl := LoopState.test.inj h
    cases read <;> exact hNot (by decide)

theorem Frozen.not_passed (frozen : d.Frozen) (run : Reachable replayExitTest contexts d)
    {txID : String} (hWorker : d.worker txID = .running) (read : Read) : ¬ d.Passed read :=
  fun h => frozen.workers (run.passed_inProgress h) txID hWorker

theorem Frozen.mainStep (frozen : d.Frozen)
    (distinct : (contexts.map TransactionContext.TxID).Nodup)
    (run : Reachable replayExitTest contexts d) {d' : Driver}
    (step : MainStep replayExitTest d d') : d'.Frozen := by
  cases step with
  | readQuiet read rest hLoop hQuiet =>
    have hBefore : ∀ other, Passed { d with loop := afterQuiet rest } other →
        other ≠ read → d.Passed other := by
      intro other hPassed hne
      refine Or.inr ⟨read :: rest, hLoop, ?_⟩
      rw [mem_cons, not_or]
      refine ⟨hne, ?_⟩
      unfold Passed afterQuiet at hPassed
      split at hPassed
      · next hNil =>
          rw [hNil]
          exact not_mem_nil
      · rcases hPassed with h | ⟨remaining, h, hNot⟩
        · cases h
        · rwa [LoopState.test.inj h]
    refine ⟨fun hPassed => ?_, fun hPassed => ?_, fun hPassed => ?_⟩
    · by_cases hne : Read.inProgress = read
      · subst hne
        have hZero : d.inProgress = 0 := eq_of_beq hQuiet
        exact (run.invariant distinct).no_worker (run.session.invariant distinct) hZero.le
      · exact frozen.workers (hBefore _ hPassed hne)
    · by_cases hne : Read.readyQueueLen = read
      · subst hne
        exact eq_of_beq hQuiet
      · exact frozen.ready (hBefore _ hPassed hne)
    · by_cases hne : Read.pruneReadyQueueLen = read
      · subst hne
        exact eq_of_beq hQuiet
      · exact frozen.prune (hBefore _ hPassed hne)
  | popPruneReadyEmpty hLoop hNone => exact .of_not_passed (not_passed_reads rfl)
  | readBusy | popReady | popReadyEmpty | addReady | invokeReady | popPruneReady
  | addPruneReady | invokePruneReady =>
    exact .of_not_passed (not_passed_of_loop rfl LoopState.noConfusion
      fun _ => LoopState.noConfusion)

theorem Frozen.step (frozen : d.Frozen) (distinct : (contexts.map TransactionContext.TxID).Nodup)
    (run : Reachable replayExitTest contexts d) {d' : Driver}
    (step : Step replayExitTest d d') : d'.Frozen := by
  cases step with
  | main main => exact frozen.mainStep distinct run main
  | worker txID worker =>
    apply Frozen.of_not_passed
    intro read hPassed
    rw [Passed, worker.loop] at hPassed
    exact frozen.not_passed run worker.running read hPassed

theorem Reachable.frozen (distinct : (contexts.map TransactionContext.TxID).Nodup)
    (run : Reachable replayExitTest contexts d) : d.Frozen := by
  induction run with
  | refl => exact .of_not_passed (not_passed_reads rfl)
  | tail earlier last ih => exact ih.step distinct earlier last

end ReplayLoop

/-- The loop of `runReplayDepurgeMode` is left only when every transaction of
the block has been executed or aborted and its worker has finished. The IDs are
transaction hashes, so none is empty. -/
theorem replay_loop_never_exits_early (contexts : List TransactionContext)
    (distinct : (contexts.map TransactionContext.TxID).Nodup)
    (nonempty : ∀ ctx ∈ contexts, ctx.TxID ≠ "") (d : Driver)
    (run : Reachable replayExitTest contexts d) (hExit : d.loop = .exited) :
    ∀ ctx ∈ contexts, d.session.phase ctx.TxID = .finished ∧
      d.session.scheduler.IsExecuted ctx.TxID = true ∧ d.worker ctx.TxID = .done := by
  intro ctx hm
  have frozen := run.frozen distinct
  have hPassed : ∀ read, d.Passed read := fun _ => Or.inl hExit
  obtain ⟨hFinished, hDone⟩ := run.all_finished distinct nonempty (by rw [hExit]; rfl)
    (frozen.workers (hPassed _)) (frozen.ready (hPassed _)) (frozen.prune (hPassed _)) hm
  exact ⟨hFinished, ((run.session.invariant distinct).executed _).mpr hFinished, hDone⟩

/-- A block with one transaction. -/
def oneTransaction : List TransactionContext := [⟨"a", [], [("k", [])]⟩]

/-- The replay loop has handed `"a"` over and is about to test again. -/
def replayHandedOver : Driver where
  session := (Session.init oneTransaction).popReady.popReady.popPruneReady
  loop := .test replayExitTest.reads
  inProgress := 1
  worker := update (fun _ => .idle) "a" .running

theorem reachable_replayHandedOver :
    Reachable replayExitTest oneTransaction replayHandedOver := by
  have hPopped : Reachable replayExitTest oneTransaction
      { init replayExitTest oneTransaction with
        session := (Session.init oneTransaction).popReady
        loop := .addReady "a" } :=
    ((Reachable.main .refl (.readQuiet _ .inProgress _ rfl (by decide))).main
      (.readBusy _ .readyQueueLen _ rfl (by decide))).main (.popReady _ rfl (by decide))
  have hInvoked := (hPopped.main (.addReady _ "a" rfl)).main (.invokeReady _ "a" rfl)
  exact (hInvoked.main (.popReadyEmpty _ rfl (by decide))).main
    (.popPruneReadyEmpty _ rfl (by decide))

/-- The worker of `"a"` is done and the loop has been left. -/
def replayExited : Driver where
  session := replayHandedOver.session.execute "a"
  loop := .exited
  inProgress := 0
  worker := update replayHandedOver.worker "a" .done

theorem reachable_replayExited : Reachable replayExitTest oneTransaction replayExited := by
  have hDone : Reachable replayExitTest oneTransaction
      { replayExited with loop := .test replayExitTest.reads } :=
    (reachable_replayHandedOver.worker (.execute _ (by decide)
      (Phase.active_of_popped (by decide)))).worker (.finish _ (by decide) (by decide))
  have hReady := (hDone.main (.readQuiet _ .inProgress _ rfl (by decide))).main
    (.readQuiet _ .readyQueueLen _ rfl (by decide))
  have hPrune := hReady.main (.readQuiet _ .pruneReadyQueueLen _ rfl (by decide))
  exact hPrune

theorem replay_loop_exits_oneTransaction : replayExited.loop = .exited ∧ ∀ ctx ∈ oneTransaction,
      replayExited.session.phase ctx.TxID = .finished ∧
        replayExited.session.scheduler.IsExecuted ctx.TxID = true ∧
          replayExited.worker ctx.TxID = .done :=
  ⟨rfl, replay_loop_never_exits_early oneTransaction (by decide) (by decide) replayExited
    reachable_replayExited rfl⟩

/-- Every transaction has been popped and processed, and its worker is done. -/
def Processed (contexts : List TransactionContext) (d : Driver) : Prop :=
  ∀ ctx ∈ contexts, ctx.TxID ∈ d.session.pops ∧
    d.session.scheduler.IsExecuted ctx.TxID = true ∧ d.worker ctx.TxID = .done

def QueuesEmpty (d : Driver) : Prop :=
  d.session.scheduler.GetReadyQueueLen = 0 ∧ d.session.scheduler.GetPruneReadyQueueLen = 0

/-- A step of `TestDepurge` that, if it leaves the loop, leaves it while both
queues are still empty. -/
def EmptyExitStep (d d' : Driver) : Prop :=
  Step testDepurgeExitTest d d' ∧ (d.loop ≠ .exited → d'.loop = .exited → d.QueuesEmpty)

section TestDepurgeLoop

variable {contexts : List TransactionContext} {d d' : Driver}

/-- Only the read of `inProgress` leaves the loop, and it finds no worker. -/
theorem Step.leaves (distinct : (contexts.map TransactionContext.TxID).Nodup)
    (run : Reachable testDepurgeExitTest contexts d) (step : Step testDepurgeExitTest d d')
    (hLooping : d.loop ≠ .exited) (hExit : d'.loop = .exited) :
    d' = { d with loop := .exited } ∧ d.loop.held = none ∧ ∀ txID, d.worker txID ≠ .running := by
  rcases step with main | ⟨txID, worker⟩
  swap
  · exact absurd (worker.loop ▸ hExit) hLooping
  cases main with
  | readQuiet read rest hLoop hQuiet =>
    have hSuffix := run.reads_suffix hLoop
    change afterQuiet rest = .exited at hExit
    obtain rfl : rest = [] := by
      unfold afterQuiet at hExit
      split at hExit
      · assumption
      · cases hExit
    obtain rfl : read = .inProgress := by
      simpa [testDepurgeExitTest, suffix_cons_iff] using hSuffix
    have hZero : d.inProgress ≤ 0 := by
      have h : (!decide (d.inProgress > 0)) = true := hQuiet
      simpa using h
    refine ⟨rfl, by rw [hLoop]; rfl, ?_⟩
    exact (run.invariant distinct).no_worker (run.session.invariant distinct) hZero
  | readBusy | popReady | popReadyEmpty | addReady | invokeReady | popPruneReady
  | popPruneReadyEmpty | addPruneReady | invokePruneReady => cases hExit

theorem Reachable.processed (distinct : (contexts.map TransactionContext.TxID).Nodup)
    (nonempty : ∀ ctx ∈ contexts, ctx.TxID ≠ "")
    (run : Reachable testDepurgeExitTest contexts d) (hHeld : d.loop.held = none)
    (hWorkers : ∀ txID, d.worker txID ≠ .running) (hEmpty : d.QueuesEmpty) :
    d.Processed contexts := by
  intro ctx hm
  have hSession := run.session.invariant distinct
  obtain ⟨hFinished, hDone⟩ :=
    run.all_finished distinct nonempty hHeld hWorkers hEmpty.1 hEmpty.2 hm
  refine ⟨(hSession.pops_iff _).mpr ?_, (hSession.executed _).mpr hFinished, hDone⟩
  rw [hFinished]
  exact Phase.noConfusion

/-- A queued transaction has not been popped. -/
theorem Reachable.queuesEmpty (distinct : (contexts.map TransactionContext.TxID).Nodup)
    (run : Reachable testDepurgeExitTest contexts d) (hProcessed : d.Processed contexts) :
    d.QueuesEmpty := by
  have hSession := run.session.invariant distinct
  have hEmpty : d.session.scheduler.readyQueue ++ d.session.scheduler.pruneReadyQueue = [] := by
    apply eq_nil_iff_forall_not_mem.mpr
    intro txID hm
    obtain ⟨hAdded, hWaiting, _⟩ := hSession.scheduler.ready_mem txID hm
    obtain ⟨ctx, hCtx, rfl⟩ := (mem_addedIDs contexts txID).mp hAdded
    exact (hSession.pops_iff _).mp (hProcessed ctx hCtx).1 hWaiting
  obtain ⟨hReady, hPrune⟩ := append_eq_nil_iff.mp hEmpty
  exact ⟨length_eq_zero_iff.mpr hReady, length_eq_zero_iff.mpr hPrune⟩

theorem MainStep.not_exited {test : ExitTest} (step : MainStep test d d') : d.loop ≠ .exited := by
  intro hExit
  cases step with
  | readQuiet read rest hLoop | readBusy read rest hLoop =>
    rw [hExit] at hLoop
    cases hLoop
  | popReady hLoop | popReadyEmpty hLoop | popPruneReady hLoop | popPruneReadyEmpty hLoop =>
    rw [hExit] at hLoop
    cases hLoop
  | addReady txID hLoop | invokeReady txID hLoop | addPruneReady txID hLoop
  | invokePruneReady txID hLoop =>
    rw [hExit] at hLoop
    cases hLoop

/-- Once the loop is left, no worker runs. -/
theorem Reachable.no_worker_of_exited (distinct : (contexts.map TransactionContext.TxID).Nodup)
    (run : Reachable testDepurgeExitTest contexts d) (hExit : d.loop = .exited) :
    ∀ txID, d.worker txID ≠ .running := by
  induction run with
  | refl => cases hExit
  | @tail d d' earlier last ih =>
    by_cases hLooping : d.loop = .exited
    · rcases last with main | ⟨txID, worker⟩
      · exact absurd hLooping main.not_exited
      · exact absurd worker.running (ih hLooping txID)
    · obtain ⟨rfl, _, hWorkers⟩ := last.leaves distinct earlier hLooping hExit
      exact hWorkers

/-- Nothing happens any more once the loop is left with everything processed. -/
theorem Step.processed (distinct : (contexts.map TransactionContext.TxID).Nodup)
    (run : Reachable testDepurgeExitTest contexts d) (step : Step testDepurgeExitTest d d')
    (hExit : d.loop = .exited) (hProcessed : d.Processed contexts) : d'.Processed contexts := by
  have hWorkers : ∀ txID, d.worker txID ≠ .running := by
    intro txID hWorker
    have hStarted := (run.invariant distinct).started txID
      (by rw [hWorker]; exact WorkerState.noConfusion)
    obtain ⟨ctx, hm, rfl⟩ := (mem_addedIDs contexts txID).mp
      ((run.session.invariant distinct).known txID hStarted).1
    rw [(hProcessed ctx hm).2.2] at hWorker
    cases hWorker
  rcases step with main | ⟨txID, worker⟩
  · exact absurd hExit main.not_exited
  · exact absurd worker.running (hWorkers txID)

end TestDepurgeLoop

/-- The loop of `TestDepurge` reads `inProgress` last, so the queues that it
found empty may have been filled again. In every run that leaves the loop only
while both queues are empty, every transaction has been popped and processed
from then on. No weaker condition on that last read would do. -/
theorem testDepurge_loop_exit (contexts : List TransactionContext)
    (distinct : (contexts.map TransactionContext.TxID).Nodup)
    (nonempty : ∀ ctx ∈ contexts, ctx.TxID ≠ "") :
    (∀ d, Relation.ReflTransGen EmptyExitStep (init testDepurgeExitTest contexts) d →
      d.loop = .exited → d.Processed contexts) ∧
    (∀ d d', Reachable testDepurgeExitTest contexts d → Step testDepurgeExitTest d d' →
      d.loop ≠ .exited → d'.loop = .exited → (d'.Processed contexts ↔ d.QueuesEmpty)) := by
  have hLeave : ∀ d d', Reachable testDepurgeExitTest contexts d →
      Step testDepurgeExitTest d d' → d.loop ≠ .exited → d'.loop = .exited →
      (d'.Processed contexts ↔ d.QueuesEmpty) := by
    intro d d' run step hLooping hExit
    obtain ⟨rfl, hHeld, hWorkers⟩ := step.leaves distinct run hLooping hExit
    constructor
    · exact fun hProcessed => run.queuesEmpty distinct hProcessed
    · intro hEmpty
      have hProcessed := run.processed distinct nonempty hHeld hWorkers hEmpty
      exact hProcessed
  refine ⟨?_, hLeave⟩
  intro d run
  induction run with
  | refl => exact fun hExit => by cases hExit
  | @tail d d' earlier last ih =>
    intro hExit
    have hWeaker : EmptyExitStep ≤ Step testDepurgeExitTest := fun _ _ h => h.1
    have hRun : Reachable testDepurgeExitTest contexts d :=
      Relation.ReflTransGen.mono hWeaker _ _ earlier
    by_cases hLooping : d.loop = .exited
    · exact last.1.processed distinct hRun hLooping (ih hLooping)
    · exact (hLeave d d' hRun last.1 hLooping hExit).mpr (last.2 hLooping hExit)

/-- The loop of `TestDepurge` has handed `"a"` over and has found both queues
empty; only `inProgress` remains to be read. -/
def testDepurgeWaiting : Driver where
  session := (Session.init Session.twoOnOneKey).popReady.popReady.popPruneReady
  loop := .test [.inProgress]
  inProgress := 1
  worker := update (fun _ => .idle) "a" .running

theorem reachable_testDepurgeWaiting :
    Reachable testDepurgeExitTest Session.twoOnOneKey testDepurgeWaiting := by
  have hPopped : Reachable testDepurgeExitTest Session.twoOnOneKey
      { init testDepurgeExitTest Session.twoOnOneKey with
        session := (Session.init Session.twoOnOneKey).popReady
        loop := .addReady "a" } :=
    (Reachable.main .refl (.readBusy _ .readyQueueLen _ rfl (by decide))).main
      (.popReady _ rfl (by decide))
  have hInvoked := (hPopped.main (.addReady _ "a" rfl)).main (.invokeReady _ "a" rfl)
  have hTesting : Reachable testDepurgeExitTest Session.twoOnOneKey
      { testDepurgeWaiting with loop := .test testDepurgeExitTest.reads } :=
    (hInvoked.main (.popReadyEmpty _ rfl (by decide))).main (.popPruneReadyEmpty _ rfl (by decide))
  have hPrune := (hTesting.main (.readQuiet _ .readyQueueLen _ rfl (by decide))).main
    (.readQuiet _ .pruneReadyQueueLen _ rfl (by decide))
  exact hPrune

/-- The worker of `"a"` has pushed its successor `"b"` and has decremented
`inProgress`. -/
def testDepurgeReleased : Driver :=
  { testDepurgeWaiting with
    session := testDepurgeWaiting.session.execute "a"
    inProgress := 0
    worker := update testDepurgeWaiting.worker "a" .done }

theorem reachable_testDepurgeReleased :
    Reachable testDepurgeExitTest Session.twoOnOneKey testDepurgeReleased :=
  (reachable_testDepurgeWaiting.worker (.execute _ (by decide)
    (Phase.active_of_popped (by decide)))).worker (.finish _ (by decide) (by decide))

/-- `TestDepurge` leaves its loop with `"b"` queued and never popped. -/
theorem testDepurge_loop_exits_early :
    ∃ d, Reachable testDepurgeExitTest Session.twoOnOneKey d ∧ d.loop = .exited ∧
      d.session.scheduler.readyQueue = ["b"] ∧ "b" ∉ d.session.pops ∧
      d.session.scheduler.IsExecuted "b" = false :=
  ⟨{ testDepurgeReleased with loop := .exited }, reachable_testDepurgeReleased.main
      (.readQuiet testDepurgeReleased .inProgress [] rfl (by decide)),
    rfl, by decide, by decide, by decide⟩

/-- The loop of `TestDepurge` on a block with one transaction, with the worker
done before the exit test starts. -/
def testDepurgeQuiet : Driver where
  session := (Session.init oneTransaction).popReady.popReady.popPruneReady.execute "a"
  loop := .test [.inProgress]
  inProgress := 0
  worker := update (update (fun _ => .idle) "a" .running) "a" .done

theorem reachable_testDepurgeQuiet :
    Reachable testDepurgeExitTest oneTransaction testDepurgeQuiet := by
  have hPopped : Reachable testDepurgeExitTest oneTransaction
      { init testDepurgeExitTest oneTransaction with
        session := (Session.init oneTransaction).popReady
        loop := .addReady "a" } :=
    (Reachable.main .refl (.readBusy _ .readyQueueLen _ rfl (by decide))).main
      (.popReady _ rfl (by decide))
  have hInvoked := (hPopped.main (.addReady _ "a" rfl)).main (.invokeReady _ "a" rfl)
  have hTesting := (hInvoked.main (.popReadyEmpty _ rfl (by decide))).main
    (.popPruneReadyEmpty _ rfl (by decide))
  have hDone : Reachable testDepurgeExitTest oneTransaction
      { testDepurgeQuiet with loop := .test testDepurgeExitTest.reads } :=
    (hTesting.worker (.execute _ (by decide)
      (Phase.active_of_popped (by decide)))).worker (.finish _ (by decide) (by decide))
  have hPrune := (hDone.main (.readQuiet _ .readyQueueLen _ rfl (by decide))).main
    (.readQuiet _ .pruneReadyQueueLen _ rfl (by decide))
  exact hPrune

theorem testDepurge_loop_exit_oneTransaction : testDepurgeQuiet.QueuesEmpty ∧
      Processed oneTransaction { testDepurgeQuiet with loop := .exited } :=
  ⟨⟨by decide, by decide⟩,
    ((testDepurge_loop_exit oneTransaction (by decide) (by decide)).2 testDepurgeQuiet _
      reachable_testDepurgeQuiet (.main (.readQuiet testDepurgeQuiet .inProgress [] rfl (by decide)))
      LoopState.noConfusion rfl).mpr ⟨by decide, by decide⟩⟩

end Driver
end Nezha
