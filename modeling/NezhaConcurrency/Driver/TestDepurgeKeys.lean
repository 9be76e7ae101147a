import NezhaConcurrency.Driver.TestDepurge

/-! The scheduler's keys and the workers' keys. What `TestDepurge` commits is inside
the keys under which the scheduler queued it, and two committed transactions in
flight have no common key, as long as every key that a worker computes again is one
of the scheduler's. -/
namespace Nezha

open DepurgeScheduler Function List

namespace TestState

variable {block : TestBlock} {r r' : TestState}

/-- Every key that a worker computes from the state it has read is one under which the
scheduler queued its transaction. -/
def Covered (block : TestBlock) (r : TestState) : Prop :=
  ∀ txID ctx contractState, r.pc txID = .snapshotted ctx contractState →
    recalculateConservativeKeys block.cm ctx contractState ⊆ r.conservativeKeys txID

def CoveredStep (block : TestBlock) (r r' : TestState) : Prop :=
  Step block r r' ∧ Covered block r

/-- A transaction that passed the check keeps its result. -/
theorem Step.passed (step : Step block r r') {txID : String} {result : RealRWSet}
    (h : (r.pc txID).passed = some result) : (r'.pc txID).passed = some result := by
  have hGoto : ∀ {other : String} {pc : TestPc}, (r.pc other).passed = none ∨
      pc.passed = (r.pc other).passed →
      ((update r.pc other pc) txID).passed = some result := by
    intro other pc hPc
    by_cases hne : txID = other
    · subst hne
      rw [update_self]
      rcases hPc with hPc | hPc
      · cases hPc.symm.trans h
      · exact hPc.trans h
    · rw [update_of_ne hne]
      exact h
  cases step with
  | main => exact h
  | noContext other _ hPc | snapshot other _ _ hPc | reExecute other _ _ _ hPc
  | abort other _ hPc | append other hPc => exact hGoto (Or.inl (by rw [hPc]; rfl))
  | prune other _ _ hPc | execute other _ _ hPc | merge other _ _ hPc | decrement other _ hPc =>
    exact hGoto (Or.inr (by rw [hPc]; rfl))

theorem passed_of_run (run : Relation.ReflTransGen (CoveredStep block) r r') {txID : String}
    {result : RealRWSet} (h : (r.pc txID).passed = some result) :
    (r'.pc txID).passed = some result := by
  induction run with
  | refl => exact h
  | tail _ last ih => exact last.1.passed ih

theorem Step.passed_keys (step : Step block r r') {txID : String} {result : RealRWSet}
    (hNot : (r.pc txID).passed = none) (h : (r'.pc txID).passed = some result) :
    ∃ ctx contractState, r.pc txID = .snapshotted ctx contractState ∧
      result.realKeys ⊆ checkedKeys block.cm ctx contractState (r.conservativeKeys txID) := by
  have hGoto : ∀ {other : String} {pc : TestPc}, pc.passed = none ∨
      pc.passed = (r.pc other).passed →
      ((update r.pc other pc) txID).passed = none := by
    intro other pc hPc
    by_cases hne : txID = other
    · subst hne
      rw [update_self]
      rcases hPc with hPc | hPc
      · exact hPc
      · exact hPc.trans hNot
    · rw [update_of_ne hne]
      exact hNot
  cases step with
  | main => cases hNot.symm.trans h
  | noContext | snapshot | append => cases (hGoto (Or.inl rfl)).symm.trans h
  | abort other listed hPc =>
    refine absurd ((hGoto (Or.inl ?_)).symm.trans h) (Option.some_ne_none _).symm
    cases listed <;> rfl
  | prune other _ _ hPc | execute other _ _ hPc | merge other _ _ hPc | decrement other _ hPc =>
    cases (hGoto (Or.inr (by rw [hPc]; rfl))).symm.trans h
  | reExecute other ctx contractState outcome hPc hOutcome =>
    by_cases hne : txID = other
    · subst hne
      change ((update r.pc txID _) txID).passed = some result at h
      rw [update_self] at h
      refine ⟨ctx, contractState, hPc, ?_⟩
      rcases checkRealKeys_cases ctx (checkedKeys block.cm ctx contractState
        (r.conservativeKeys txID)) outcome with ⟨listed, hCheck⟩ | ⟨found, _, hKeys, hCheck⟩
      · rw [hCheck] at h
        cases h
      · have hFound : some found = some result := by
          rcases hCheck with hCheck | hCheck
          · rw [hCheck] at h
            exact h
          · rw [hCheck] at h
            exact h
        exact Option.some.inj hFound ▸ hKeys
    · change ((update r.pc other _) txID).passed = some result at h
      rw [update_of_ne hne] at h
      cases hNot.symm.trans h

theorem checkedKeys_subset {cm : ContractManager} {ctx : LLMContext}
    {contractState : String → Option (List UInt8)} {keys : List String}
    (h : recalculateConservativeKeys cm ctx contractState ⊆ keys) :
    checkedKeys cm ctx contractState keys ⊆ keys := by
  unfold checkedKeys
  dsimp only
  split
  · exact h
  · exact List.Subset.refl _

section Runs

variable (distinct : (block.contexts.map (·.TxID)).Nodup)

theorem reachable_of_covered (run : Relation.ReflTransGen (CoveredStep block) r r')
    (h : Reachable block r) : Reachable block r' := by
  induction run with
  | refl => exact h
  | tail _ last ih => exact ih.tail last.1

include distinct

theorem Reachable.session (run : Reachable block r) : r.driver.session.Invariant
      (Depurge_schedule (block.contexts.map LLMContext.toTransactionContext))
      (addedIDs (block.contexts.map LLMContext.toTransactionContext)) := by
  refine (run.simulated distinct).1.session.invariant ?_
  rw [map_map]
  exact distinct

theorem conservativeKeys_const (run : Reachable block r) (run' : Reachable block r')
    (txID : String) : r'.conservativeKeys txID = r.conservativeKeys txID := by
  change r'.driver.session.scheduler.txKeyMap txID = r.driver.session.scheduler.txKeyMap txID
  rw [(run'.session distinct).keyMap, (run.session distinct).keyMap]

theorem realKeys_scheduled (run : Relation.ReflTransGen (CoveredStep block) (init block) r)
    {txID : String} {result : RealRWSet} (h : (r.pc txID).passed = some result) :
    result.realKeys ⊆ r.conservativeKeys txID := by
  induction run with
  | refl => cases h
  | @tail r r' earlier last ih =>
    have hRun := reachable_of_covered earlier .refl
    rw [conservativeKeys_const distinct hRun (hRun.tail last.1)]
    cases hPassed : (r.pc txID).passed with
    | some result' =>
      rw [last.1.passed hPassed, Option.some_inj] at h
      exact ih (h ▸ hPassed)
    | none =>
      obtain ⟨ctx, contractState, hPc, hKeys⟩ := last.1.passed_keys hPassed h
      exact List.Subset.trans hKeys (checkedKeys_subset (last.2 txID ctx contractState hPc))

theorem queued_of_active (run : Reachable block r)
    (later : Relation.ReflTransGen (CoveredStep block) r r') {txID key : String}
    {result : RealRWSet} (hActive : (r.driver.session.phase txID).Active)
    (hPassed : (r'.pc txID).passed = some result) (hKey : key ∈ result.realKeys)
    (hMap : key ∈ r.conservativeKeys txID) :
    txID ∈ (r.driver.session.scheduler.keyQueues key).ids := by
  obtain ⟨hDriver, linked⟩ := run.simulated distinct
  have driverInv := hDriver.invariant (by rw [map_map]; exact distinct)
  have inv := (run.session distinct).scheduler
  refine inv.queue_holds txID (inv.active txID hActive).1 key ?_
  cases hPhase : r.driver.session.phase txID with
  | waiting | finished =>
    rw [hPhase] at hActive
    exact hActive.elim
  | popped => exact hMap
  | pruned realKeys =>
    -- Only a transaction that has passed the check is pruned, with its own real keys.
    have hLinked := linked txID
    rw [hPhase] at hLinked
    refine ⟨hMap, ?_⟩
    cases hPc : r.pc txID with
    | executing ctx found =>
      rw [hPc] at hLinked
      have hSame := passed_of_run later (show (r.pc txID).passed = some found by rw [hPc]; rfl)
      obtain rfl := Option.some.inj (hSame.symm.trans hPassed)
      rcases hLinked.2 with h | h
      · cases h
      · cases h
        exact hKey
    | start =>
      rw [hPc] at hLinked
      rcases driverInv.running_of_active hActive with hRunning | hHeld
      · rcases hLinked with hIdle | ⟨_, h⟩
        · cases hIdle.symm.trans hRunning
        · cases h
      · cases hPhase.symm.trans (driverInv.held txID hHeld).1
    | snapshotted | aborting | appending | pruning | merging | returning | returned =>
      rw [hPc] at hLinked
      cases hLinked.2

omit distinct in
theorem Reachable.snapshotted (run : Reachable block r) {txID : String} {ctx : LLMContext}
    {contractState : String → Option (List UInt8)}
    (h : r.pc txID = .snapshotted ctx contractState) :
    ctx ∈ block.contexts ∧ ctx.TxID = txID := by
  induction run generalizing ctx contractState with
  | refl => cases h
  | @tail r r' _ last ih =>
    have hGoto : ∀ {other : String} {pc : TestPc},
        (∀ ctx contractState, pc ≠ .snapshotted ctx contractState) →
        update r.pc other pc txID = .snapshotted ctx contractState →
        ctx ∈ block.contexts ∧ ctx.TxID = txID := by
      intro other pc hNot hPc
      by_cases hne : txID = other
      · rw [hne, update_self] at hPc
        exact absurd hPc (hNot ctx contractState)
      · rw [update_of_ne hne] at hPc
        exact ih hPc
    cases last with
    | main => exact ih h
    | noContext | append | prune | execute | merge | decrement =>
      exact hGoto (fun _ _ hPc => by cases hPc) h
    | abort other listed hPc =>
      refine hGoto (fun _ _ hPc => ?_) h
      cases listed <;> cases hPc
    | reExecute other found state outcome hPc hOutcome =>
      refine hGoto (fun _ _ hCheck => ?_) h
      rcases checkRealKeys_cases found (checkedKeys block.cm found state
        (r.conservativeKeys other)) outcome with ⟨_, hPc⟩ | ⟨_, _, _, hPc | hPc⟩ <;>
        cases hCheck.symm.trans hPc
    | snapshot other found hWorker hPc hCtx hID =>
      by_cases hne : txID = other
      · change update r.pc other _ txID = _ at h
        rw [hne, update_self] at h
        cases h
        exact ⟨hCtx, hID.trans hne.symm⟩
      · change update r.pc other _ txID = _ at h
        rw [update_of_ne hne] at h
        exact ih h

/-- The condition holds in every run if it holds for each context in every state. -/
theorem covered_of_contexts (h : ∀ ctx ∈ block.contexts, ∀ contractState,
      recalculateConservativeKeys block.cm ctx contractState ⊆ contextKeys ctx.toTransactionContext)
    (run : Reachable block r) : Covered block r := by
  intro txID ctx contractState hPc key hKey
  obtain ⟨hCtx, rfl⟩ := run.snapshotted hPc
  change key ∈ r.driver.session.scheduler.txKeyMap ctx.TxID
  rw [(run.session distinct).keyMap]
  refine (mem_Depurge_schedule_keyMap ?_ (mem_map_of_mem hCtx) key).mpr
    (h ctx hCtx contractState hKey)
  rw [map_map]
  exact distinct

omit distinct in
/-- The check keeps every result within the scheduler's keys exactly if the keys that
it is made against are among them. -/
theorem covered_iff (cm : ContractManager) (ctx : LLMContext)
    (contractState : String → Option (List UInt8)) (keys : List String) :
    recalculateConservativeKeys cm ctx contractState ⊆ keys ↔
      ∀ result, (checkRealKeys ctx (checkedKeys cm ctx contractState keys)
        (some result)).passed = some result → result.realKeys ⊆ keys := by
  constructor
  · intro h result hPassed
    rcases checkRealKeys_cases ctx (checkedKeys cm ctx contractState keys) (some result) with
      ⟨listed, hCheck⟩ | ⟨found, hFound, hKeys, _⟩
    · rw [hCheck] at hPassed
      cases hPassed
    · cases hFound
      exact List.Subset.trans hKeys (checkedKeys_subset h)
  · intro h
    -- A transaction that really touches all of these keys passes.
    have hPassed := h ⟨recalculateConservativeKeys cm ctx contractState, [], []⟩
    rw [show RealRWSet.realKeys ⟨recalculateConservativeKeys cm ctx contractState, [], []⟩ =
      recalculateConservativeKeys cm ctx contractState from append_nil _] at hPassed
    by_cases hEmpty : recalculateConservativeKeys cm ctx contractState = []
    · rw [hEmpty]
      exact nil_subset _
    · refine hPassed ?_
      have hKeys : checkedKeys cm ctx contractState keys =
          recalculateConservativeKeys cm ctx contractState :=
        if_pos (length_pos_of_ne_nil hEmpty)
      simp [hKeys, checkRealKeys, RealRWSet.realKeys, TestPc.passed]

/-- In every run whose workers compute only keys of the scheduler, a committed
transaction really touches only keys under which the scheduler queued it, and two
transactions that are in flight together and both committed have no common real key.
The condition is exact for each check. -/
theorem committed_keys_scheduled : (∀ r, Relation.ReflTransGen (CoveredStep block) (init block) r →
      (∀ txID result, (r.pc txID).passed = some result →
        result.realKeys ⊆ r.driver.session.scheduler.txKeyMap txID) ∧
      ∀ r', Relation.ReflTransGen (CoveredStep block) r r' → ∀ txID other result result',
        txID ≠ other → (r.driver.session.phase txID).Active →
        (r.driver.session.phase other).Active → (r'.pc txID).passed = some result →
        (r'.pc other).passed = some result' → result.realKeys.Disjoint result'.realKeys) ∧
      ∀ ctx contractState keys, recalculateConservativeKeys block.cm ctx contractState ⊆ keys ↔
          ∀ result, (checkRealKeys ctx (checkedKeys block.cm ctx contractState keys)
            (some result)).passed = some result → result.realKeys ⊆ keys := by
  refine ⟨fun r run => ⟨fun txID result hPassed => realKeys_scheduled distinct run hPassed, ?_⟩,
    fun ctx contractState keys => covered_iff block.cm ctx contractState keys⟩
  intro r' later txID other result result' hne hActive hActive' hPassed hPassed' key hKey hKey'
  have hRun := reachable_of_covered run .refl
  have hRun' := reachable_of_covered later hRun
  have hMap : ∀ {id : String} {found : RealRWSet}, (r'.pc id).passed = some found →
      key ∈ found.realKeys → key ∈ r.conservativeKeys id := by
    intro id found hFound hm
    rw [← conservativeKeys_const distinct hRun hRun' id]
    exact realKeys_scheduled distinct (run.trans later) hFound hm
  have hQueued := queued_of_active distinct hRun later hActive hPassed hKey (hMap hPassed hKey)
  have hQueued' :=
    queued_of_active distinct hRun later hActive' hPassed' hKey' (hMap hPassed' hKey')
  have inv := (hRun.session distinct).scheduler
  exact hne ((inv.front_of_active hActive hQueued).symm.trans
    (inv.front_of_active hActive' hQueued'))

end Runs

theorem coveredRun (h : ∀ r, Reachable block r → Covered block r) (run : Reachable block r) :
    Relation.ReflTransGen (CoveredStep block) (init block) r := by
  induction run with
  | refl => exact .refl
  | tail earlier last ih => exact ih.tail ⟨last, h _ earlier⟩

/-- `pay` reads the name of a pool and pays into its balance, `setPool` sets the name and
`deposit` sets the balance of an account. The hash function is any that keeps the keys
apart. -/
def poolManager : ContractManager where
  Contracts := [("Pool", [⟨"pool1", 0, .simple⟩, ⟨"balances", 1, .string⟩])]
  keccak256 := fun bytes => 1 :: bytes

def poolCache (_contract function : String) : Option LLMResponse :=
  if function = "pay" then some ⟨[⟨"pool1", "balances"⟩], [⟨"pool1", "balances"⟩], []⟩
  else if function = "setPool" then some ⟨[], [⟨"global", "pool1"⟩], []⟩
  else if function = "deposit" then some ⟨[], [⟨"addr1", "balances"⟩], []⟩
  else none

/-- The slot of the name, and that of the balance of the pool without a name. -/
def poolNameKey : String := byteString (List.replicate 32 0)

def poolBalanceKey : String := byteString (1 :: (List.replicate 31 0 ++ [1]))

def payResult : RealRWSet := ⟨[poolNameKey, poolBalanceKey], [poolBalanceKey], [(poolBalanceKey, 1)]⟩

def setPoolResult : RealRWSet := ⟨[], [poolNameKey], [(poolNameKey, 53 * 256 ^ 31 + 2)]⟩

def payContext : LLMContext :=
  (llmContext poolManager poolCache "0" "Pool" "pay" 0 0).get (by decide +kernel)

def setPoolContext : LLMContext :=
  (llmContext poolManager poolCache "1" "Pool" "setPool" 0 0).get (by decide +kernel)

def poolBlock : TestBlock where
  cm := poolManager
  contexts := [payContext, setPoolContext]
  reExecutes := fun ctx _ outcome =>
    outcome = some (if ctx.Function = "pay" then payResult else setPoolResult)

section PoolRuns

/-- The main loop pops a transaction and hands it over. -/
def handOver (d : Driver) : Driver :=
  { d.setWorker d.session.scheduler.PopReady.2 .running with
    session := d.session.popReady
    inProgress := d.inProgress + 1
    loop := .popReady }

theorem run_handOver {d : Driver} (hLoop : d.loop = .popReady)
    (hSome : d.session.scheduler.PopReady.2 ≠ "") :
    Relation.ReflTransGen (Driver.MainStep testDepurgeExitTest) d (handOver d) :=
  ((Relation.ReflTransGen.single (.popReady d hLoop hSome)).tail (.addReady _ _ rfl)).tail
    (.invokeReady _ _ rfl)

/-- A worker reads the state, re-executes its transaction and checks the keys. -/
def checks (block : TestBlock) (r : TestState) (ctx : LLMContext) (result : RealRWSet) :
    TestState :=
  let contractState := filterContractState r.committedState ctx.ContractName
  (r.goto ctx.TxID (.snapshotted ctx contractState)).goto ctx.TxID (checkRealKeys ctx
    (checkedKeys block.cm ctx contractState (r.conservativeKeys ctx.TxID)) (some result))

theorem checks_self (ctx : LLMContext) (result : RealRWSet) :
    (checks block r ctx result).pc ctx.TxID = checkRealKeys ctx
      (checkedKeys block.cm ctx (filterContractState r.committedState ctx.ContractName)
        (r.conservativeKeys ctx.TxID)) (some result) :=
  update_self ..

variable {ctx : LLMContext}

theorem checks_of_ne (result : RealRWSet) {other : String} (hne : other ≠ ctx.TxID) :
    (checks block r ctx result).pc other = r.pc other := by
  simp [checks, goto, hne]

theorem checkRealKeys_pruning {keys : List String} {result : RealRWSet}
    (hAll : result.realKeys.all (· ∈ keys) = true) (hAny : keys.any (· ∉ result.realKeys) = true) :
    checkRealKeys ctx keys (some result) = .pruning ctx result := by
  rw [checkRealKeys, if_pos hAll, if_pos hAny]

theorem run_checks {result : RealRWSet} (hWorker : r.driver.worker ctx.TxID = .running)
    (hPc : r.pc ctx.TxID = .start) (hCtx : ctx ∈ block.contexts)
    (hOutcome : block.reExecutes ctx (filterContractState r.committedState ctx.ContractName) (some result))
    : Relation.ReflTransGen (Step block) r (checks block r ctx result) :=
  (Relation.ReflTransGen.single (.snapshot r ctx.TxID ctx hWorker hPc hCtx rfl)).tail
    (.reExecute _ ctx.TxID ctx _ (some result) (update_self ..) hOutcome)

theorem run_commits {txID : String} {result : RealRWSet} (hPc : r.pc txID = .pruning ctx result) :
    ∃ r', Relation.ReflTransGen (Step block) r r' ∧
      r'.pc = update r.pc txID (.returning (some result)) := by
  refine ⟨_, ((Relation.ReflTransGen.single (.prune r txID ctx result hPc)).tail
    (.execute _ txID ctx result (update_self ..))).tail
    (.merge _ txID ctx result (update_self ..)), ?_⟩
  simp [goto, calls]

end PoolRuns

/-- The slot of the balance of account five. -/
def accountKey : String := byteString (1 :: 53 :: (List.replicate 31 0 ++ [1]))

def depositResult : RealRWSet := ⟨[], [accountKey], [(accountKey, 1)]⟩

def depositContext : LLMContext :=
  (llmContext poolManager poolCache "0" "Pool" "deposit" 5 0).get (by decide +kernel)

def depositBlock : TestBlock where
  cm := poolManager
  contexts := [depositContext]
  reExecutes := fun _ _ outcome => outcome = some depositResult

def depositChecked : TestState :=
  checks depositBlock
    { init depositBlock with
      driver := handOver { (init depositBlock).driver with loop := .popReady } }
    depositContext depositResult

theorem committed_keys_scheduled_deposit : (depositChecked.pc "0").passed = some depositResult ∧
      depositResult.realKeys ⊆ depositChecked.driver.session.scheduler.txKeyMap "0" := by
  have distinct : (depositBlock.contexts.map (·.TxID)).Nodup := nodup_singleton _
  have hMain : Relation.ReflTransGen (Driver.MainStep testDepurgeExitTest)
      (init depositBlock).driver (handOver { (init depositBlock).driver with loop := .popReady }) :=
    (Relation.ReflTransGen.single
      (.readBusy (init depositBlock).driver .readyQueueLen _ rfl (by decide +kernel))).trans
      (run_handOver rfl (by decide +kernel))
  have hRun : Reachable depositBlock depositChecked :=
    (run_main hMain).trans (run_checks (by decide +kernel) rfl mem_cons_self rfl)
  have hCovered : ∀ r, Reachable depositBlock r → Covered depositBlock r := by
    refine fun r run => covered_of_contexts distinct (fun ctx hm contractState => ?_) run
    rw [mem_singleton.mp hm]
    exact recalculate_subset_of_addresses (Option.some_get _).symm (by decide +kernel) contractState
  have hPassed : (depositChecked.pc "0").passed = some depositResult := by decide +kernel
  exact ⟨hPassed, ((committed_keys_scheduled distinct).1 depositChecked
    (coveredRun hCovered hRun)).1 "0" depositResult hPassed⟩

/-- Both workers have read the state before one of them commits. -/
def poolChecked : TestState :=
  checks poolBlock (checks poolBlock
      { init poolBlock with
        driver := handOver (handOver { (init poolBlock).driver with loop := .popReady }) }
      payContext payResult) setPoolContext setPoolResult

/-- Both transactions pass while both are in flight, although both touch the slot of the
name and the scheduler did not queue the first one under it. -/
theorem scheduler_misses_real_key : Reachable poolBlock poolChecked ∧
      poolChecked.driver.session.phase "0" = .popped ∧
      poolChecked.driver.session.phase "1" = .popped ∧
      (poolChecked.pc "0").passed = some payResult ∧
      (poolChecked.pc "1").passed = some setPoolResult ∧
      poolNameKey ∈ payResult.realKeys ∧ poolNameKey ∈ setPoolResult.realKeys ∧
      poolNameKey ∉ poolChecked.driver.session.scheduler.txKeyMap "0" ∧
      ∃ r, Relation.ReflTransGen (Step poolBlock) poolChecked r ∧
        r.pc "0" = .returning (some payResult) ∧ r.pc "1" = .returning (some setPoolResult) := by
  have hPay : payContext.TxID = "0" := by decide +kernel
  have hSetPool : setPoolContext.TxID = "1" := by decide +kernel
  refine ⟨?_, by decide +kernel, by decide +kernel, by decide +kernel, by decide +kernel,
    by decide +kernel, by decide +kernel, by decide +kernel, ?_⟩
  · have hMain : Relation.ReflTransGen (Driver.MainStep testDepurgeExitTest) (init poolBlock).driver
        (handOver (handOver { (init poolBlock).driver with loop := .popReady })) :=
      ((Relation.ReflTransGen.single
        (.readBusy (init poolBlock).driver .readyQueueLen _ rfl (by decide +kernel))).trans
        (run_handOver rfl (by decide +kernel))).trans (run_handOver rfl (by decide +kernel))
    have hOther : setPoolContext.TxID ≠ payContext.TxID := by
      rw [hPay, hSetPool]
      decide
    refine ((run_main hMain).trans (run_checks ?_ rfl (by simp [poolBlock]) ?_)).trans
      (run_checks ?_ ?_ (by simp [poolBlock]) ?_)
    · decide +kernel
    · exact congrArg some (if_pos (by decide +kernel)).symm
    · decide +kernel
    · exact checks_of_ne payResult hOther
    · exact congrArg some (if_neg (by decide +kernel)).symm
  · have hFirst : poolChecked.pc "0" = .pruning payContext payResult := by
      rw [poolChecked, checks_of_ne _ (by rw [hSetPool]; decide), ← hPay, checks_self]
      exact checkRealKeys_pruning (by decide +kernel) (by decide +kernel)
    have hSecond : poolChecked.pc "1" = .pruning setPoolContext setPoolResult := by
      rw [poolChecked, ← hSetPool, checks_self]
      exact checkRealKeys_pruning (by decide +kernel) (by decide +kernel)
    obtain ⟨r, hRun, hPc⟩ := run_commits hFirst
    have hThen : r.pc "1" = .pruning setPoolContext setPoolResult := by
      rw [hPc]
      exact hSecond
    obtain ⟨r', hRun', hPc'⟩ := run_commits hThen
    refine ⟨r', hRun.trans hRun', ?_, ?_⟩
    · rw [hPc', hPc]
      rfl
    · rw [hPc']
      rfl

end TestState

end Nezha
