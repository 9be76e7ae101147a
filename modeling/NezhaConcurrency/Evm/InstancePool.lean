import NezhaConcurrency.Evm.PooledInstance

/-! The pool of EVM instances. All start from one deployed state. A call overwrites the
slots of its logical state and leaves its own writes behind, committed or not, so an
instance answers according to the calls that it has served. -/
namespace Nezha

open Function

structure PoolCall where
  ctx : LLMContext
  logicalState : String → Option (List UInt8)

/-- An instance serves one call at a time, so the calls of a pool have an order. -/
abbrev EVMPool := Nat → EVMInstance

namespace EVMInstance

variable (inst : EVMInstance) (call : PoolCall)

/-- The logical state has a value for the slot. -/
def Covers (key : Address × Word) : Prop :=
  inst.contractAddrs call.ctx.ContractName = some key.1 ∧
    (call.logicalState (storageKey key.2)).isSome

/-- The events of a program that a call runs. -/
def callTrace (contractAddr : Address) (program : Program) : List Event :=
  program.trace (EVM.start
    (applyLogicalStateToContract inst.stateDB contractAddr call.logicalState) contractAddr)

def Loads (key : Address × Word) : Prop :=
  ∃ contractAddr program, inst.Runs call.ctx contractAddr program ∧
    key ∈ EVM.loads [contractAddr] (inst.callTrace call contractAddr program)

def Stores (key : Address × Word) : Prop :=
  ∃ contractAddr program, inst.Runs call.ctx contractAddr program ∧
    key ∈ EVM.stores [contractAddr] (inst.callTrace call contractAddr program)

end EVMInstance

namespace EVMPool

def serve (pool : EVMPool) (served : Nat × PoolCall) : EVMPool :=
  update pool served.1 ((pool served.1).put served.2.ctx served.2.logicalState)

def run (pool : EVMPool) (history : List (Nat × PoolCall)) : EVMPool :=
  history.foldl serve pool

/-- Some call of the history overwrote or stored to the slot, on the instance that served it. -/
def Touched (pool : EVMPool) (history : List (Nat × PoolCall)) (key : Address × Word) : Prop :=
  ∃ earlier served later, history = earlier ++ served :: later ∧
    ((pool.run earlier served.1).Covers served.2 key ∨
      (pool.run earlier served.1).Stores served.2 key)

end EVMPool

section Put

variable {inst : EVMInstance} {call : PoolCall} {key : Address × Word}

theorem applyLogicalState_of_not_mem {stateDB : Slots} {contractAddr : Address}
    {logicalState : String → Option (List UInt8)}
    (h : key.1 = contractAddr → logicalState (storageKey key.2) = none) :
    applyLogicalStateToContract stateDB contractAddr logicalState key = stateDB key := by
  rw [applyLogicalStateToContract]
  split
  · next hAddr => simp [h hAddr]
  · rfl

/-- A slot that the logical state has, or in which two states agree, is the same after the
logical state is applied. -/
theorem applyLogicalState_congr {stateDB stateDB' : Slots} {contractAddr : Address}
    {logicalState : String → Option (List UInt8)}
    (h : key.1 = contractAddr ∧ (logicalState (storageKey key.2)).isSome ∨
      stateDB key = stateDB' key) :
    applyLogicalStateToContract stateDB contractAddr logicalState key =
      applyLogicalStateToContract stateDB' contractAddr logicalState key := by
  rw [applyLogicalStateToContract, applyLogicalStateToContract]
  rcases h with ⟨hAddr, hSome⟩ | hSame
  · obtain ⟨bytes, hBytes⟩ := Option.isSome_iff_exists.mp hSome
    simp [hAddr, hBytes]
  · rw [hSame]

/-- The program of a call, if it has one, leaves the slots that it does not store to. -/
theorem SelectFunctions2_stateDB {stateDB : Slots} {cAddr : Address} {code : Option Program}
    (h : ∀ program, code = some program →
      key ∉ EVM.stores [cAddr] (program.trace (EVM.start stateDB cAddr))) :
    (SelectFunctions2 stateDB cAddr code).stateDB key = stateDB key := by
  cases code with
  | none => rfl
  | some program =>
    rw [SelectFunctions2_some]
    exact EVM.current_of_not_stored (h program rfl) stateDB

theorem EVMInstance.put_stateDB (hCovers : ¬ inst.Covers call key)
    (hStores : ¬ inst.Stores call key) :
    (inst.put call.ctx call.logicalState).stateDB key = inst.stateDB key := by
  unfold EVMInstance.put EVMInstance.reExecute
  cases hAddr : inst.contractAddrs call.ctx.ContractName with
  | none => rfl
  | some contractAddr =>
    cases hAbi : inst.abis call.ctx.ContractName with
    | none => rfl
    | some abiObject =>
      refine (SelectFunctions2_stateDB fun program hProgram hm => ?_).trans
        (applyLogicalState_of_not_mem fun hKey => ?_)
      · exact hStores ⟨contractAddr, program, ⟨hAddr, abiObject, hAbi, hProgram⟩, hm⟩
      · by_contra hSome
        exact hCovers ⟨hKey ▸ hAddr, Option.isSome_iff_ne_none.mpr hSome⟩

theorem EVMInstance.put_contracts :
    (inst.put call.ctx call.logicalState).contractAddrs = inst.contractAddrs ∧
      (inst.put call.ctx call.logicalState).abis = inst.abis := by
  unfold EVMInstance.put
  split
  · exact ⟨rfl, rfl⟩
  · exact ⟨rfl, rfl⟩

end Put

namespace EVMPool

variable {pool : EVMPool} {history : List (Nat × PoolCall)}

theorem run_concat (pool : EVMPool) (history : List (Nat × PoolCall)) (served : Nat × PoolCall) :
    pool.run (history ++ [served]) = (pool.run history).serve served :=
  List.foldl_append

theorem run_contracts (pool : EVMPool) (history : List (Nat × PoolCall)) (i : Nat) :
    (pool.run history i).contractAddrs = (pool i).contractAddrs ∧
      (pool.run history i).abis = (pool i).abis := by
  induction history using List.reverseRecOn with
  | nil => exact ⟨rfl, rfl⟩
  | append_singleton history served ih =>
    rw [run_concat, serve]
    by_cases hi : i = served.1
    · subst hi
      rw [update_self]
      exact ⟨EVMInstance.put_contracts.1.trans ih.1, EVMInstance.put_contracts.2.trans ih.2⟩
    · rw [update_of_ne hi]
      exact ih

theorem run_stateDB {key : Address × Word} (h : ¬ pool.Touched history key) (i : Nat) :
    (pool.run history i).stateDB key = (pool i).stateDB key := by
  induction history using List.reverseRecOn with
  | nil => rfl
  | append_singleton history served ih =>
    have hEarlier : ¬ pool.Touched history key := by
      rintro ⟨earlier, call, later, rfl, hCall⟩
      exact h ⟨earlier, call, later ++ [served], by simp, hCall⟩
    have hLast := not_or.mp fun hCall => h ⟨history, served, [], rfl, hCall⟩
    rw [run_concat, serve]
    by_cases hi : i = served.1
    · subst hi
      rw [update_self, EVMInstance.put_stateDB hLast.1 hLast.2]
      exact ih hEarlier
    · rw [update_of_ne hi]
      exact ih hEarlier

end EVMPool

section Outcomes

variable {inst inst' : EVMInstance} {call : PoolCall}

/-- A program captures the same on two states that agree on its loads. -/
theorem SelectFunctions2_congr (stateDB stateDB' : Slots) {cAddr : Address} {code : Option Program}
    (h : ∀ program, code = some program →
      ∀ key ∈ EVM.loads [cAddr] (program.trace (EVM.start stateDB cAddr)),
        stateDB key = stateDB' key) :
    (SelectFunctions2 stateDB' cAddr code).rMap = (SelectFunctions2 stateDB cAddr code).rMap ∧
      (SelectFunctions2 stateDB' cAddr code).wMap = (SelectFunctions2 stateDB cAddr code).wMap := by
  cases code with
  | none => exact ⟨rfl, rfl⟩
  | some program =>
    have hStart : EVM.Agree { key | stateDB key = stateDB' key } (EVM.start stateDB cAddr)
        (EVM.start stateDB' cAddr) :=
      ⟨⟨fun _ hKey => hKey, .cons (fun _ hKey => hKey) .nil⟩, rfl, rfl, rfl⟩
    obtain ⟨hTrace, hRun⟩ := program.trace_congr hStart (h program rfl)
    have hFinish : (program.finish stateDB' cAddr).vmerr = (program.finish stateDB cAddr).vmerr ∧
        (program.finish stateDB' cAddr).structLogger =
          (program.finish stateDB cAddr).structLogger := by
      rw [Program.finish, hTrace]
      exact ⟨hRun.vmerr, hRun.structLogger⟩
    simp [SelectFunctions2_some, hFinish]

theorem Called.realRWSet_congr {called called' : Called}
    (h : called'.rMap = called.rMap ∧ called'.wMap = called.wMap)
    (logicalState : String → Option (List UInt8)) :
    called'.realRWSet logicalState = called.realRWSet logicalState := by
  simp only [realRWSet, newWriteDelta, readBig, h.1, h.2]

/-- Two instances with the same contracts answer a call in the same way if they agree on
the slots that it loads and that its logical state does not have. -/
theorem EVMInstance.outcome_congr
    (hContracts : inst'.contractAddrs = inst.contractAddrs ∧ inst'.abis = inst.abis)
    (h : ∀ key, inst.Loads call key → inst.Covers call key ∨ inst.stateDB key = inst'.stateDB key)
    (PreWriteDelta : List (String × Int)) :
    inst'.ReExecuteAndGetRealRWSet call.ctx call.logicalState =
        inst.ReExecuteAndGetRealRWSet call.ctx call.logicalState ∧
      inst'.ReExecuteAndValidateTransactionWithState call.ctx PreWriteDelta call.logicalState =
        inst.ReExecuteAndValidateTransactionWithState call.ctx PreWriteDelta
          call.logicalState := by
  simp only [ReExecuteAndGetRealRWSet, ReExecuteAndValidateTransactionWithState, reExecute,
    hContracts.1, hContracts.2]
  cases hAddr : inst.contractAddrs call.ctx.ContractName with
  | none => exact ⟨rfl, rfl⟩
  | some contractAddr =>
    cases hAbi : inst.abis call.ctx.ContractName with
    | none => exact ⟨rfl, rfl⟩
    | some abiObject =>
      have hAgree : ∀ program, abiObject call.ctx.Function call.ctx.Addr1 call.ctx.Addr2 =
          some program → ∀ key ∈ EVM.loads [contractAddr]
            (inst.callTrace call contractAddr program),
          key.1 = contractAddr ∧ (call.logicalState (storageKey key.2)).isSome ∨
            inst.stateDB key = inst'.stateDB key := by
        intro program hProgram key hm
        have hRuns : inst.Runs call.ctx contractAddr program :=
          ⟨hAddr, abiObject, hAbi, hProgram⟩
        refine (h key ⟨contractAddr, program, hRuns, hm⟩).imp_left fun hCovers => ?_
        exact ⟨Option.some.inj (hCovers.1.symm.trans hAddr), hCovers.2⟩
      have hMaps := SelectFunctions2_congr
        (applyLogicalStateToContract inst.stateDB contractAddr call.logicalState)
        (applyLogicalStateToContract inst'.stateDB contractAddr call.logicalState)
        fun program hProgram key hm => applyLogicalState_congr (hAgree program hProgram key hm)
      have hSame := Called.realRWSet_congr hMaps call.logicalState
      refine ⟨congrArg Except.ok hSame, ?_⟩
      exact congrArg (fun result : RealRWSet => Except.ok
        (WriteDeltaEqual PreWriteDelta result.writeDelta, result.writeDelta)) hSame

/-- A program that stores if and only if it finds `expected` in a slot of any contract. -/
def probe (key : Address × Word) (expected : Word) : Program :=
  .call key.1 (.sload key.2 fun found =>
    .ret (if found = expected then .sstore 0 1 (.ret .done) else .ret .done))

theorem probe_writes (stateDB : Slots) (cAddr : Address) (key : Address × Word) (expected : Word) :
    (SelectFunctions2 stateDB cAddr (some (probe key expected))).wMap.keys =
      if stateDB key = expected then [0] else [] := by
  have hLoad : ((EVM.start stateDB cAddr).step (.call key.1)).load key.2 = stateDB key := rfl
  have hTrace : (probe key expected).trace (EVM.start stateDB cAddr) =
      [.call key.1, .sload key.2, .ret] ++
        if stateDB key = expected then [.sstore 0 1, .ret] else [.ret] := by
    simp only [probe, Program.trace, hLoad]
    split
    · rfl
    · rfl
  rw [SelectFunctions2_some, Program.finish, hTrace]
  split
  · change (StructLogger.setValue (fun _ => ∅) cAddr 0 1 cAddr).keys = [0]
    simp [StructLogger.setValue]
  · rfl

/-- Whatever the code, two states give the same results under a logical state if and only
if they agree on all slots that the logical state does not have. -/
theorem realRWSet_eq_iff (stateDB stateDB' : Slots) (contractAddr : Address)
    (logicalState : String → Option (List UInt8)) :
    (∀ program, (SelectFunctions2 (applyLogicalStateToContract stateDB contractAddr logicalState)
        contractAddr (some program)).realRWSet logicalState =
      (SelectFunctions2 (applyLogicalStateToContract stateDB' contractAddr logicalState)
        contractAddr (some program)).realRWSet logicalState) ↔
      ∀ key : Address × Word, key.1 = contractAddr ∧ (logicalState (storageKey key.2)).isSome ∨
        stateDB key = stateDB' key := by
  constructor
  · intro hSame key
    by_contra hKey
    obtain ⟨hCovers, hne⟩ := not_or.mp hKey
    have hNone : key.1 = contractAddr → logicalState (storageKey key.2) = none :=
      fun hAddr => Option.not_isSome_iff_eq_none.mp fun hSome => hCovers ⟨hAddr, hSome⟩
    have hKeys := congrArg RealRWSet.realWriteKeys (hSame (probe key (stateDB key)))
    simp only [Called.realRWSet, probe_writes, applyLogicalState_of_not_mem hNone, if_true,
      if_neg (Ne.symm hne)] at hKeys
    cases hKeys
  · intro hAgree program
    refine Called.realRWSet_congr (SelectFunctions2_congr _ _ fun _ _ key _ => ?_) logicalState
    exact (applyLogicalState_congr (hAgree key)).symm

end Outcomes

/-- One function stores to slot 0, the others copy it to slot 1. -/
def copyCode (function : String) : Program :=
  if function = "updateBalance" then .sstore 0 5 (.ret .done)
  else .sload 0 fun balance => .sstore 1 balance (.ret .done)

def copyBank : EVMInstance := EVMInstance.bank (fun _ => 0) copyCode

def updateCall : PoolCall := ⟨bankContext "updateBalance", fun _ => none⟩

end Nezha
