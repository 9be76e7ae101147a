import NezhaConcurrency.Core.RWNode
import NezhaConcurrency.Evm.InstancePool
import NezhaConcurrency.Evm.WriteDelta
import NezhaConcurrency.Library.Ledger

/-! The level loop of `TestNezhaVariable`. The levels of the commit order are validated
one after the other. The workers of a level re-execute its transactions, each on a pooled
instance, over the state that the earlier levels committed, and the differences of those
that pass are added to it when all have returned. The state is filed under the storage
keys alone, so it does not tell the contracts apart. -/
namespace Nezha

open List

/-- A Go map from storage keys to byte strings. -/
abbrev LogicalState := String → Option (List UInt8)

/-- A context with the maps that the capture of its transaction returned. -/
structure CapturedContext extends LLMContext where
  rMap : Storage
  wMap : Storage

/-- The differences that `RWNodesToContext` records. A value that was not read before
counts as it is. -/
def CapturedContext.PreWriteDelta (ctx : CapturedContext) : List (String × Int) :=
  ctx.wMap.keys.map fun key =>
    let writeBig := ((ctx.wMap.lookup key).getD 0).toNat
    (storageKey key,
      match ctx.rMap.lookup key with
      | some readVal => signedDelta writeBig readVal.toNat
      | none => writeBig)

/-- A transaction that some re-execution found valid. -/
structure ValidatedTransaction where
  ctx : CapturedContext
  writeDelta : List (String × Int)
  valid : ∃ (inst : EVMInstance) (levelState : LogicalState),
    inst.ReExecuteAndValidateTransactionWithState ctx.toLLMContext ctx.PreWriteDelta levelState =
      .ok (true, writeDelta)

/-- The contexts, by transaction ID, and the commit order: for each of its keys, the write
nodes of the transactions of that level. -/
structure VariableTest where
  deployed : EVMInstance
  contexts : String → Option CapturedContext
  commitOrder : Int → List (List RWNode)
  keys : List Int
  sorted : keys.Pairwise (· < ·)

/-- Where the worker of a transaction stands. -/
inductive VariablePc where
  | start
  | passed (tx : ValidatedTransaction)
  | failing (txID : String)
  | returned

/-- The workers of a level, by their place in it. -/
structure LevelWorkers where
  pool : EVMPool
  pc : Nat → VariablePc
  validTransactions : List ValidatedTransaction
  failedTxIDs : List String
  validationAborted : Nat

namespace LevelWorkers

def start (pool : EVMPool) (validationAborted : Nat) : LevelWorkers :=
  ⟨pool, fun _ => .start, [], [], validationAborted⟩

def goto (s : LevelWorkers) (k : Nat) (pc : VariablePc) : LevelWorkers :=
  { s with pc := Function.update s.pc k pc }

end LevelWorkers

/-- `committedState[key]` after a difference. -/
def addDelta (committedState : LogicalState) (write : String × Int) : LogicalState :=
  Function.update committedState write.1 (some (applyDelta (committedState write.1) write.2))

/-- The end of a level. -/
def commitLevel (committedState : LogicalState) (validTransactions : List ValidatedTransaction) :
    LogicalState :=
  validTransactions.foldl (fun committedState tx => tx.writeDelta.foldl addDelta committedState)
    committedState

/-- A level that was validated: the state that its workers shared, and who passed. -/
structure VariableLevel where
  level : Int
  levelState : LogicalState
  validTransactions : List ValidatedTransaction

namespace VariableTest

variable (test : VariableTest)

/-- Transactions without write nodes are not validated. -/
def transactionsInLevel (level : Int) : List (List RWNode) :=
  (test.commitOrder level).filter (· ≠ [])

/-- One atomic step of a worker. An instance is in one worker's hands from `Get` to `Put`. -/
inductive WorkerStep (level : Int) (levelState : LogicalState) :
    LevelWorkers → LevelWorkers → Prop where
  | noContext (s : LevelWorkers) (k : Nat) (node : RWNode) (wNodes : List RWNode)
      (hTask : (test.transactionsInLevel level)[k]? = some (node :: wNodes))
      (hPc : s.pc k = .start) (hNone : test.contexts node.TransInfo.ID = none) :
      WorkerStep level levelState s (s.goto k (.failing node.TransInfo.ID))
  | pass (s : LevelWorkers) (k i : Nat) (node : RWNode) (wNodes : List RWNode)
      (ctx : CapturedContext) (newWriteSet : List (String × Int))
      (hTask : (test.transactionsInLevel level)[k]? = some (node :: wNodes))
      (hPc : s.pc k = .start) (hCtx : test.contexts node.TransInfo.ID = some ctx)
      (hValid : (s.pool i).ReExecuteAndValidateTransactionWithState ctx.toLLMContext
        ctx.PreWriteDelta levelState = .ok (true, newWriteSet)) :
      WorkerStep level levelState s
        { s.goto k (.passed ⟨ctx, newWriteSet, s.pool i, levelState, hValid⟩) with
          pool := s.pool.serve (i, ⟨ctx.toLLMContext, levelState⟩) }
  | reject (s : LevelWorkers) (k i : Nat) (node : RWNode) (wNodes : List RWNode)
      (ctx : CapturedContext)
      (hTask : (test.transactionsInLevel level)[k]? = some (node :: wNodes))
      (hPc : s.pc k = .start) (hCtx : test.contexts node.TransInfo.ID = some ctx)
      (hInvalid : ∀ newWriteSet, (s.pool i).ReExecuteAndValidateTransactionWithState
        ctx.toLLMContext ctx.PreWriteDelta levelState ≠ .ok (true, newWriteSet)) :
      WorkerStep level levelState s
        { s.goto k (.failing node.TransInfo.ID) with
          pool := s.pool.serve (i, ⟨ctx.toLLMContext, levelState⟩) }
  | fail (s : LevelWorkers) (k : Nat) (txID : String) (hPc : s.pc k = .failing txID) :
      WorkerStep level levelState s
        { s.goto k .returned with
          failedTxIDs := s.failedTxIDs ++ [txID]
          validationAborted := s.validationAborted + 1 }
  | append (s : LevelWorkers) (k : Nat) (tx : ValidatedTransaction) (hPc : s.pc k = .passed tx) :
      WorkerStep level levelState s
        { s.goto k .returned with validTransactions := s.validTransactions ++ [tx] }

/-- The loop over the keys of the levels, with the levels as they were validated. -/
inductive Validates : List Int → EVMPool → LogicalState → Nat → List VariableLevel → Prop where
  | done (pool : EVMPool) (committedState : LogicalState) (validationAborted : Nat) :
      Validates [] pool committedState validationAborted []
  | level {level : Int} {rest : List Int} {pool : EVMPool} {committedState : LogicalState}
      {validationAborted : Nat} {s : LevelWorkers} {levels : List VariableLevel}
      (workers : Relation.ReflTransGen (test.WorkerStep level committedState)
        (.start pool validationAborted) s)
      (returned : ∀ k < (test.transactionsInLevel level).length, s.pc k = .returned)
      (later : Validates rest s.pool (commitLevel committedState s.validTransactions)
        s.validationAborted levels) :
      Validates (level :: rest) pool committedState validationAborted
        (⟨level, committedState, s.validTransactions⟩ :: levels)

end VariableTest

/-- A run of the loop. -/
structure VariableRun where
  test : VariableTest
  levels : List VariableLevel
  validates : test.Validates test.keys (fun _ => test.deployed) (fun _ => none) 0 levels

/-! ### The state of a level -/

/-- Everything that was committed in some levels. -/
def committedIn (levels : List VariableLevel) : List ValidatedTransaction :=
  levels.flatMap VariableLevel.validTransactions

theorem VariableTest.Validates.levelState_eq {test : VariableTest} {keys : List Int}
    {pool : EVMPool} {committedState : LogicalState} {validationAborted : Nat}
    {before after : List VariableLevel} {level : VariableLevel}
    (h : test.Validates keys pool committedState validationAborted (before ++ level :: after)) :
    level.levelState = commitLevel committedState (committedIn before) := by
  induction before generalizing keys pool committedState validationAborted with
  | nil =>
    cases h
    rfl
  | cons first before ih =>
    cases h with
    | level workers returned later =>
      rw [ih later, committedIn, committedIn, flatMap_cons, commitLevel, commitLevel,
        commitLevel, foldl_append]

theorem WriteDeltaEqual_perm {set1 set2 : List (String × Int)}
    (h : WriteDeltaEqual set1 set2 = true) (hNodup : set1.Nodup) : set1.Perm set2 := by
  rw [WriteDeltaEqual, Bool.and_eq_true, decide_eq_true_iff, all_eq_true] at h
  obtain ⟨hLength, hLookup⟩ := h
  have hSubset : set1 ⊆ set2 := by
    intro write hWrite
    obtain ⟨front, back, rfl, _⟩ :=
      lookup_eq_some_iff.mp (beq_iff_eq.mp (hLookup write hWrite))
    exact mem_append_right _ mem_cons_self
  exact (subperm_of_subset hNodup hSubset).perm_of_length_le hLength.ge

theorem CapturedContext.nodup_PreWriteDelta (ctx : CapturedContext) : ctx.PreWriteDelta.Nodup := by
  refine ctx.wMap.keys_nodup.map fun key key' h => ?_
  have hKey := congrArg Prod.fst h
  exact storageKey_injective hKey

variable {write : String × Int}

theorem CapturedContext.PreWriteDelta_ge (ctx : CapturedContext) (h : write ∈ ctx.PreWriteDelta) :
    -2 ^ 255 ≤ write.2 := by
  obtain ⟨key, _, rfl⟩ := mem_map.mp h
  dsimp only
  cases ctx.rMap.lookup key with
  | none =>
    dsimp only
    omega
  | some readVal => exact (signedDelta_spec (BitVec.isLt _) readVal.isLt).2.1

theorem ValidatedTransaction.writeDelta_ge (tx : ValidatedTransaction) (h : write ∈ tx.writeDelta) :
    -2 ^ 255 ≤ write.2 := by
  obtain ⟨inst, levelState, hValid⟩ := tx.valid
  rw [EVMInstance.ReExecuteAndValidateTransactionWithState] at hValid
  cases hCalled : inst.reExecute tx.ctx.toLLMContext levelState with
  | error err =>
    rw [hCalled] at hValid
    cases hValid
  | ok called =>
    rw [hCalled] at hValid
    obtain ⟨hEqual, hDelta⟩ := Prod.mk.inj (Except.ok.inj hValid)
    have hPerm := WriteDeltaEqual_perm hEqual tx.ctx.nodup_PreWriteDelta
    rw [hDelta] at hPerm
    exact tx.ctx.PreWriteDelta_ge (hPerm.mem_iff.mpr h)

/-! ### The state as a ledger of words -/

/-- The words that a state puts into the storage of a contract. -/
def LogicalState.words (logicalState : LogicalState) (key : String) : Option Word :=
  (logicalState key).map BytesToHash

def wordEntry (write : String × Int) : String × Word := (write.1, BitVec.ofInt 256 write.2)

/-- The entries that transactions make. -/
def wordEntries (txs : List ValidatedTransaction) : List (String × Word) :=
  txs.flatMap fun tx => tx.writeDelta.map wordEntry

theorem BytesToHash_applyDelta (currentVal : Option (List UInt8)) {delta : Int}
    (h : -2 ^ 255 ≤ delta) :
    BytesToHash (applyDelta currentVal delta) =
      (currentVal.map BytesToHash).getD 0 + BitVec.ofInt 256 delta := by
  have hSum : ∀ currentBig : Nat, BitVec.ofNat 256 (if (currentBig : Int) + delta < 0 then
      (currentBig : Int) + delta + 2 ^ 256 else currentBig + delta).natAbs =
        BitVec.ofNat 256 currentBig + BitVec.ofInt 256 delta := by
    intro currentBig
    refine BitVec.eq_of_toNat_eq ?_
    rw [BitVec.toNat_add, BitVec.toNat_ofNat, BitVec.toNat_ofNat, BitVec.toNat_ofInt]
    split <;> omega
  cases currentVal with
  | none =>
    rw [applyDelta, BytesToHash, BigEndian.value_bytes]
    exact hSum 0
  | some bytes =>
    rw [applyDelta, BytesToHash, BigEndian.value_bytes]
    exact hSum (BigEndian.value bytes)

theorem words_addDelta (committedState : LogicalState) (h : -2 ^ 255 ≤ write.2) :
    (addDelta committedState write).words =
      Ledger.credit committedState.words (wordEntry write) := by
  funext key
  by_cases hKey : key = write.1
  · subst hKey
    simp [LogicalState.words, addDelta, Ledger.credit, wordEntry, BytesToHash_applyDelta _ h]
  · simp [LogicalState.words, addDelta, Ledger.credit, wordEntry, hKey]

theorem words_addDeltas {writeDelta : List (String × Int)}
    (h : ∀ write ∈ writeDelta, -2 ^ 255 ≤ write.2) (committedState : LogicalState) :
    (writeDelta.foldl addDelta committedState).words =
      (writeDelta.map wordEntry).foldl Ledger.credit committedState.words := by
  induction writeDelta generalizing committedState with
  | nil => rfl
  | cons write writeDelta ih =>
    rw [foldl_cons, ih (fun other hOther => h other (mem_cons_of_mem _ hOther)),
      words_addDelta committedState (h write mem_cons_self), map_cons, foldl_cons]

/-- What the levels commit is a ledger of all their differences, whatever the contracts. -/
theorem words_commitLevel (committedState : LogicalState) (txs : List ValidatedTransaction) :
    (commitLevel committedState txs).words =
      (wordEntries txs).foldl Ledger.credit committedState.words := by
  unfold commitLevel wordEntries
  induction txs generalizing committedState with
  | nil => rfl
  | cons tx txs ih =>
    rw [foldl_cons, ih, words_addDeltas (fun _ h => tx.writeDelta_ge h), flatMap_cons, foldl_append]

theorem applyLogicalState_eq_iff (contractAddr : Address) (s s' : LogicalState) :
    (∀ stateDB, applyLogicalStateToContract stateDB contractAddr s =
      applyLogicalStateToContract stateDB contractAddr s') ↔
      ∀ slot, s.words (storageKey slot) = s'.words (storageKey slot) := by
  constructor
  · intro h slot
    -- two storages tell a slot that is left alone from one that is overwritten
    have hSlot : ∀ old, (s.words (storageKey slot)).getD old =
        (s'.words (storageKey slot)).getD old := by
      intro old
      have hApplied := congrFun (h fun _ => old) (contractAddr, slot)
      simpa [applyLogicalStateToContract, LogicalState.words] using hApplied
    cases hs : s.words (storageKey slot) with
    | none =>
      cases hs' : s'.words (storageKey slot) with
      | none => rfl
      | some word =>
        have hNext := hSlot (word + 1)
        simp [hs, hs'] at hNext
    | some word =>
      cases hs' : s'.words (storageKey slot) with
      | none =>
        have hNext := hSlot (word + 1)
        simp [hs, hs'] at hNext
      | some word' =>
        have hSame := hSlot 0
        simpa [hs, hs'] using hSame
  · intro h stateDB
    funext key
    have hWord := h key.2
    unfold LogicalState.words at hWord
    simp [applyLogicalStateToContract, hWord]

/-! ### Two contracts -/

/-- The committed transactions of a contract. -/
def ofContract (contractName : String) (txs : List ValidatedTransaction) :
    List ValidatedTransaction :=
  txs.filter fun tx => tx.ctx.ContractName = contractName

def ofOthers (contractName : String) (txs : List ValidatedTransaction) :
    List ValidatedTransaction :=
  txs.filter fun tx => !decide (tx.ctx.ContractName = contractName)

theorem wordEntries_perm (contractName : String) (txs : List ValidatedTransaction) :
    (wordEntries txs).Perm
      (wordEntries (ofContract contractName txs) ++ wordEntries (ofOthers contractName txs)) := by
  unfold wordEntries
  rw [← flatMap_append]
  exact (filter_append_perm _ txs).symm.flatMap_right _

/-- Two runs on the same contracts up to a level in which a transaction of `B` is
re-executed. Before it they committed the same transactions, apart from those of `A`. -/
structure Replacement (A B : String) where
  different : A ≠ B
  run : VariableRun
  run' : VariableRun
  sameContracts : run'.test.deployed = run.test.deployed
  before : List VariableLevel
  before' : List VariableLevel
  level : VariableLevel
  level' : VariableLevel
  reached : ∃ after, run.levels = before ++ level :: after
  reached' : ∃ after, run'.levels = before' ++ level' :: after
  others : (ofOthers A (committedIn before)).Perm (ofOthers A (committedIn before'))
  ctx : CapturedContext
  ofB : ctx.ContractName = B
  scheduled : ∃ node wNodes, node :: wNodes ∈ run.test.transactionsInLevel level.level ∧
    run.test.contexts node.TransInfo.ID = some ctx
  scheduled' : ∃ node wNodes, node :: wNodes ∈ run'.test.transactionsInLevel level'.level ∧
    run'.test.contexts node.TransInfo.ID = some ctx
  contractAddr : Address
  deployedAt : run.test.deployed.contractAddrs B = some contractAddr

/-- The state that is applied to `B` does not change with the transactions of `A` if and
only if, slot by slot, they add the same in total and write where the others do not
exactly if those that replace them do. -/
theorem applied_state_isolated_iff {A B : String} (r : Replacement A B) :
    (∀ stateDB, applyLogicalStateToContract stateDB r.contractAddr r.level.levelState =
      applyLogicalStateToContract stateDB r.contractAddr r.level'.levelState) ↔
    let ofA := wordEntries (ofContract A (committedIn r.before))
    let ofA' := wordEntries (ofContract A (committedIn r.before'))
    let shared := wordEntries (ofOthers A (committedIn r.before))
    ∀ slot, Ledger.total ofA (storageKey slot) = Ledger.total ofA' (storageKey slot) ∧
      (storageKey slot ∈ shared.map Prod.fst ∨
        (storageKey slot ∈ ofA.map Prod.fst ↔ storageKey slot ∈ ofA'.map Prod.fst)) := by
  obtain ⟨after, hRun⟩ := r.reached
  obtain ⟨after', hRun'⟩ := r.reached'
  have hState := (hRun ▸ r.run.validates).levelState_eq
  have hState' := (hRun' ▸ r.run'.validates).levelState_eq
  have hEntries := wordEntries_perm A (committedIn r.before)
  have hEntries' := (wordEntries_perm A (committedIn r.before')).trans
    ((r.others.symm.flatMap_right _).append_left _)
  rw [applyLogicalState_eq_iff, hState, hState', words_commitLevel, words_commitLevel]
  exact forall_congr' fun slot => Ledger.credit_foldl_eq_iff hEntries hEntries' (storageKey slot)

/-! ### A transaction that another contract aborts -/

section Aborted

/-- A token that sets slot 0 to its argument, and a bank that copies slot 0 to slot 1. -/
def tokenAndBank : EVMInstance where
  stateDB := fun _ => 0
  contractAddrs := fun name =>
    if name = "Token" then some 1 else if name = "Bank" then some 2 else none
  abis := fun name =>
    if name = "Token" then
      some fun _ amount _ => some (.sstore 0 (BitVec.ofNat 256 amount) (.ret .done))
    else if name = "Bank" then some fun _ _ _ => some (copyCode "amalgamate")
    else none

def mint (amount : Nat) : CapturedContext where
  TxID := "0"
  PreReadSet := []
  PreWriteSet := []
  ContractName := "Token"
  Function := "mint"
  Addr1 := amount
  Addr2 := 0
  LLMReads := []
  LLMWrites := []
  rMap := ∅
  wMap := AList.singleton 0 (BitVec.ofNat 256 amount)

def amalgamate : CapturedContext where
  TxID := "1"
  PreReadSet := []
  PreWriteSet := []
  ContractName := "Bank"
  Function := "amalgamate"
  Addr1 := 0
  Addr2 := 1
  LLMReads := []
  LLMWrites := []
  rMap := AList.singleton 0 0
  wMap := AList.singleton 1 0

def writeNode (txID contractName : String) : RWNode :=
  ⟨⟨"", ""⟩, ⟨txID, 0⟩, .w, 0, false, contractName⟩

/-- The token first, then the bank. -/
def mintThenAmalgamate (amount : Nat) : VariableTest where
  deployed := tokenAndBank
  contexts := fun txID =>
    if txID = "0" then some (mint amount) else if txID = "1" then some amalgamate else none
  commitOrder := fun level =>
    if level = 1 then [[writeNode "0" "Token"]]
    else if level = 2 then [[writeNode "1" "Bank"]]
    else []
  keys := [1, 2]
  sorted := by simp

/-- The amounts that pass. -/
def Mints (amount : Nat) : Prop :=
  tokenAndBank.ReExecuteAndValidateTransactionWithState (mint amount).toLLMContext
    (mint amount).PreWriteDelta (fun _ => none) = .ok (true, [(storageKey 0, amount)])

def mintLevel {amount : Nat} (h : Mints amount) : VariableLevel where
  level := 1
  levelState := fun _ => none
  validTransactions := [⟨mint amount, [(storageKey 0, amount)], tokenAndBank, fun _ => none, h⟩]

/-- What the bank finds. -/
def afterMint (amount : Nat) : LogicalState := addDelta (fun _ => none) (storageKey 0, amount)

variable (test : VariableTest) (level : Int) (pool : EVMPool) (validationAborted i : Nat)
  {levelState : LogicalState} {node : RWNode} {ctx : CapturedContext}

theorem VariableTest.passes {newWriteSet : List (String × Int)}
    (hTasks : test.transactionsInLevel level = [[node]])
    (hCtx : test.contexts node.TransInfo.ID = some ctx)
    (hValid : (pool i).ReExecuteAndValidateTransactionWithState ctx.toLLMContext
      ctx.PreWriteDelta levelState = .ok (true, newWriteSet)) :
    ∃ s, Relation.ReflTransGen (test.WorkerStep level levelState)
        (.start pool validationAborted) s ∧
      (∀ k < (test.transactionsInLevel level).length, s.pc k = .returned) ∧
      s.validTransactions = [⟨ctx, newWriteSet, pool i, levelState, hValid⟩] ∧
      s.pool = pool.serve (i, ⟨ctx.toLLMContext, levelState⟩) ∧
      s.validationAborted = validationAborted := by
  have hFirst : (test.transactionsInLevel level)[0]? = some [node] := by rw [hTasks]; rfl
  have hPass : Relation.ReflTransGen (test.WorkerStep level levelState)
      (.start pool validationAborted) _ :=
    .single (.pass _ 0 i node [] ctx newWriteSet hFirst rfl hCtx hValid)
  refine ⟨_, hPass.tail (.append _ 0 _ rfl), fun k hk => ?_, rfl, rfl, rfl⟩
  obtain rfl : k = 0 := by simpa [hTasks] using hk
  rfl

theorem VariableTest.rejects (hTasks : test.transactionsInLevel level = [[node]])
    (hCtx : test.contexts node.TransInfo.ID = some ctx)
    (hInvalid : ∀ newWriteSet, (pool i).ReExecuteAndValidateTransactionWithState
      ctx.toLLMContext ctx.PreWriteDelta levelState ≠ .ok (true, newWriteSet)) :
    ∃ s, Relation.ReflTransGen (test.WorkerStep level levelState)
        (.start pool validationAborted) s ∧
      (∀ k < (test.transactionsInLevel level).length, s.pc k = .returned) ∧
      s.validTransactions = [] := by
  have hFirst : (test.transactionsInLevel level)[0]? = some [node] := by rw [hTasks]; rfl
  have hReject : Relation.ReflTransGen (test.WorkerStep level levelState)
      (.start pool validationAborted) _ :=
    .single (.reject _ 0 i node [] ctx hFirst rfl hCtx hInvalid)
  refine ⟨_, hReject.tail (.fail _ 0 _ rfl), fun k hk => ?_, rfl⟩
  obtain rfl : k = 0 := by simpa [hTasks] using hk
  rfl

theorem mintThenAmalgamate_run (amount : Nat) (passed : List ValidatedTransaction)
    (hMint : Mints amount)
    (hBank : ∀ pool : EVMPool, pool 1 = tokenAndBank → ∃ s,
      Relation.ReflTransGen ((mintThenAmalgamate amount).WorkerStep 2 (afterMint amount))
        (.start pool 0) s ∧
      (∀ k < ((mintThenAmalgamate amount).transactionsInLevel 2).length, s.pc k = .returned) ∧
      s.validTransactions = passed) :
    ∃ run : VariableRun, run.test = mintThenAmalgamate amount ∧
      run.levels = [mintLevel hMint, ⟨2, afterMint amount, passed⟩] := by
  obtain ⟨s, hWorkers, hReturned, hValid, hPool, hCount⟩ :=
    (mintThenAmalgamate amount).passes 1 (fun _ => tokenAndBank) 0 0 rfl rfl hMint
  obtain ⟨s', hWorkers', hReturned', hValid'⟩ := hBank s.pool (by rw [hPool]; rfl)
  have hState : commitLevel (fun _ => none) s.validTransactions = afterMint amount := by
    rw [hValid]
    rfl
  rw [← hState, ← hCount] at hWorkers'
  have hLoop := VariableTest.Validates.level hWorkers hReturned
    (.level hWorkers' hReturned' (.done _ _ _))
  rw [hValid', hState, hValid] at hLoop
  exact ⟨⟨mintThenAmalgamate amount, _, hLoop⟩, rfl, rfl⟩

/-- The bank's transaction is aborted or committed according to what the token minted. -/
theorem bank_aborted_by_token : ∃ r : Replacement "Token" "Bank",
    r.level.validTransactions = [] ∧ r.level'.validTransactions ≠ [] ∧
      ¬ ∀ stateDB, applyLogicalStateToContract stateDB r.contractAddr r.level.levelState =
        applyLogicalStateToContract stateDB r.contractAddr r.level'.levelState := by
  have hFive : Mints 5 := rfl
  have hZero : Mints 0 := rfl
  have hValid : tokenAndBank.ReExecuteAndValidateTransactionWithState amalgamate.toLLMContext
      amalgamate.PreWriteDelta (afterMint 0) = .ok (true, [(storageKey 1, 0)]) := rfl
  obtain ⟨run, hTest, hLevels⟩ := mintThenAmalgamate_run 5 [] hFive
    fun pool hPool => (mintThenAmalgamate 5).rejects 2 pool 0 1 rfl rfl (by
      rw [hPool]
      intro newWriteSet h
      cases h)
  obtain ⟨run', hTest', hLevels'⟩ := mintThenAmalgamate_run 0 [⟨amalgamate, _, _, _, hValid⟩] hZero
    fun pool hPool => by
      obtain ⟨s, hWorkers, hReturned, hPassed, _⟩ :=
        (mintThenAmalgamate 0).passes 2 pool 0 1 rfl rfl (by rw [hPool]; exact hValid)
      exact ⟨s, hWorkers, hReturned, hPassed⟩
  let r : Replacement "Token" "Bank" :=
    { different := by decide
      run := run
      run' := run'
      sameContracts := by rw [hTest, hTest']; rfl
      before := [mintLevel hFive]
      before' := [mintLevel hZero]
      level := ⟨2, afterMint 5, []⟩
      level' := ⟨2, afterMint 0, [⟨amalgamate, _, _, _, hValid⟩]⟩
      reached := ⟨[], hLevels⟩
      reached' := ⟨[], hLevels'⟩
      others := .refl []
      ctx := amalgamate
      ofB := rfl
      scheduled := ⟨writeNode "1" "Bank", [], by rw [hTest]; exact ⟨mem_cons_self, rfl⟩⟩
      scheduled' := ⟨writeNode "1" "Bank", [], by rw [hTest']; exact ⟨mem_cons_self, rfl⟩⟩
      contractAddr := 2
      deployedAt := by rw [hTest]; rfl }
  refine ⟨r, rfl, cons_ne_nil _ _, fun h => ?_⟩
  cases congrFun (h fun _ => 0) (2, 0)

end Aborted

end Nezha
