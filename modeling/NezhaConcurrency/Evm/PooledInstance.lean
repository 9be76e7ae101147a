import NezhaConcurrency.Driver.TestDepurge
import NezhaConcurrency.Evm.Program
import NezhaConcurrency.Evm.ReExecute

/-! Re-execution on a pooled EVM instance. The logical state is written over the
storage of the called contract, the call runs on what results, and the differences of
the captured values are reported. The instance keeps the state that the call leaves. -/
namespace Nezha

/-- The last 32 bytes, as a number. -/
def BytesToHash (b : List UInt8) : Word := BitVec.ofNat 256 (BigEndian.value b)

/-- The 32 bytes of a slot, as the string that is its storage key. -/
def storageKey (slot : Word) : String :=
  byteString (BigEndian.leftPad 32 (BigEndian.bytes slot.toNat))

/-- The bytes that a string of bytes holds. -/
def stringBytes (s : String) : List UInt8 := s.toList.map fun c => UInt8.ofNat c.toNat

theorem stringBytes_byteString (bytes : List UInt8) : stringBytes (byteString bytes) = bytes := by
  rw [stringBytes, byteString, String.toList_ofList, List.map_map]
  refine (List.map_congr_left fun b _ => ?_).trans (List.map_id bytes)
  have hSmall := b.toNat_lt
  have hChar : (Char.ofNat b.toNat).toNat = b.toNat := by
    rw [Char.toNat_ofNat, if_pos (Or.inl (by omega))]
  simp [hChar]

theorem byteString_injective : Function.Injective byteString :=
  Function.LeftInverse.injective stringBytes_byteString

theorem storageKey_injective : Function.Injective storageKey := by
  intro slot slot' h
  have hValue := congrArg BigEndian.value (byteString_injective h)
  rw [BigEndian.value_leftPad, BigEndian.value_leftPad, BigEndian.value_bytes,
    BigEndian.value_bytes] at hValue
  exact BitVec.eq_of_toNat_eq hValue

/-- Each key of a logical state is the storage key of one slot. The slots without a key
keep their values. -/
def applyLogicalStateToContract (stateDB : Slots) (contractAddr : Address)
    (logicalState : String → Option (List UInt8)) : Slots :=
  fun key =>
    if key.1 = contractAddr then
      ((logicalState (storageKey key.2)).map BytesToHash).getD (stateDB key)
    else stateDB key

/-- The code of the functions of a contract, for two arguments. A function that is not
known, or whose arguments cannot be packed, has none. -/
abbrev Abi := String → Nat → Nat → Option Program

structure EVMInstance where
  stateDB : Slots
  contractAddrs : String → Option Address
  abis : String → Option Abi

/-- The captured maps of a call, and the state that it leaves. -/
structure Called where
  rMap : Storage
  wMap : Storage
  stateDB : Slots

/-- The machine at the end of a call. -/
def Program.finish (program : Program) (stateDB : Slots) (cAddr : Address) : EVM :=
  EVM.Call stateDB cAddr (program.trace (EVM.start stateDB cAddr))

/-- The maps of a call that fails are dropped, and the failure with them. -/
def SelectFunctions2 (stateDB : Slots) (cAddr : Address) (program : Option Program) : Called :=
  match program with
  | none => ⟨∅, ∅, stateDB⟩
  | some program =>
    let evm := program.finish stateDB cAddr
    if evm.vmerr then ⟨∅, ∅, evm.stateDB.current⟩
    else
      let (rMap, wMap) := evm.structLogger.RWSetCapture cAddr
      ⟨rMap, wMap, evm.stateDB.current⟩

theorem SelectFunctions2_some (stateDB : Slots) (cAddr : Address) (program : Program) :
    SelectFunctions2 stateDB cAddr (some program) =
      { rMap := if (program.finish stateDB cAddr).vmerr then ∅
          else (program.finish stateDB cAddr).structLogger.readValues cAddr
        wMap := if (program.finish stateDB cAddr).vmerr then ∅
          else (program.finish stateDB cAddr).structLogger.changedValues cAddr
        stateDB := (program.finish stateDB cAddr).stateDB.current } := by
  rw [SelectFunctions2]
  cases (program.finish stateDB cAddr).vmerr with
  | true => simp
  | false => simp [StructLogger.RWSetCapture]

/-- The value that a delta is taken from. -/
def Called.readBig (called : Called) (logicalState : String → Option (List UInt8))
    (key : Word) : Nat :=
  match called.rMap.lookup key with
  | some readVal => readVal.toNat
  | none =>
    match logicalState (storageKey key) with
    | some currentVal => BigEndian.value currentVal
    | none => 0

def Called.newWriteDelta (called : Called) (logicalState : String → Option (List UInt8)) :
    List (String × Int) :=
  called.wMap.keys.map fun key =>
    (storageKey key,
      signedDelta ((called.wMap.lookup key).getD 0).toNat (called.readBig logicalState key))

theorem Called.nodup_newWriteDelta (called : Called) (logicalState : String → Option (List UInt8)) :
    ((called.newWriteDelta logicalState).map Prod.fst).Nodup := by
  rw [newWriteDelta, List.map_map]
  exact called.wMap.keys_nodup.map storageKey_injective

def Called.realRWSet (called : Called) (logicalState : String → Option (List UInt8)) :
    RealRWSet where
  realReadKeys := called.rMap.keys.map storageKey
  realWriteKeys := called.wMap.keys.map storageKey
  writeDelta := called.newWriteDelta logicalState

def WriteDeltaEqual (set1 set2 : List (String × Int)) : Bool :=
  decide (set1.length = set2.length) && set1.all fun write => set2.lookup write.1 == some write.2

namespace EVMInstance

/-- What the two re-execution functions have in common. -/
def reExecute (inst : EVMInstance) (ctx : LLMContext)
    (logicalState : String → Option (List UInt8)) : Except String Called :=
  match inst.contractAddrs ctx.ContractName with
  | none => .error ("contract " ++ ctx.ContractName ++ " not found in EVM instance")
  | some contractAddr =>
    match inst.abis ctx.ContractName with
    | none => .error ("ABI for contract " ++ ctx.ContractName ++ " not found in EVM instance")
    | some abiObject =>
      .ok (SelectFunctions2
        (applyLogicalStateToContract inst.stateDB contractAddr logicalState) contractAddr
        (abiObject ctx.Function ctx.Addr1 ctx.Addr2))

def ReExecuteAndGetRealRWSet (inst : EVMInstance) (ctx : LLMContext)
    (logicalState : String → Option (List UInt8)) : Except String RealRWSet :=
  (inst.reExecute ctx logicalState).map fun called => called.realRWSet logicalState

def ReExecuteAndValidateTransactionWithState (inst : EVMInstance) (ctx : LLMContext)
    (PreWriteDelta : List (String × Int)) (logicalState : String → Option (List UInt8)) :
    Except String (Bool × List (String × Int)) :=
  (inst.reExecute ctx logicalState).map fun called =>
    let newWriteDelta := called.newWriteDelta logicalState
    (WriteDeltaEqual PreWriteDelta newWriteDelta, newWriteDelta)

/-- The instance when it is put back into the pool, after either function. -/
def put (inst : EVMInstance) (ctx : LLMContext) (logicalState : String → Option (List UInt8)) :
    EVMInstance :=
  match inst.reExecute ctx logicalState with
  | .error _ => inst
  | .ok called => { inst with stateDB := called.stateDB }

/-- The program that a context runs. -/
def Runs (inst : EVMInstance) (ctx : LLMContext) (contractAddr : Address) (program : Program) :
    Prop :=
  inst.contractAddrs ctx.ContractName = some contractAddr ∧
    ∃ abiObject, inst.abis ctx.ContractName = some abiObject ∧
      abiObject ctx.Function ctx.Addr1 ctx.Addr2 = some program

theorem reExecute_of_runs {inst : EVMInstance} {ctx : LLMContext} {contractAddr : Address}
    {program : Program} (hRuns : inst.Runs ctx contractAddr program)
    (logicalState : String → Option (List UInt8)) :
    inst.reExecute ctx logicalState =
      .ok (SelectFunctions2 (applyLogicalStateToContract inst.stateDB contractAddr logicalState)
        contractAddr (some program)) := by
  obtain ⟨hAddr, abiObject, hAbi, hProgram⟩ := hRuns
  simp only [reExecute, hAddr, hAbi, hProgram]

/-- An instance with one contract, at address 1. -/
def bank (stateDB : Slots) (code : String → Program) : EVMInstance where
  stateDB := stateDB
  contractAddrs := fun name => if name = "SmallBank" then some 1 else none
  abis := fun name =>
    if name = "SmallBank" then some fun function _ _ => some (code function) else none

end EVMInstance

def bankContext (function : String) : LLMContext where
  TxID := "0"
  PreReadSet := []
  PreWriteSet := []
  ContractName := "SmallBank"
  Function := function
  Addr1 := 0
  Addr2 := 1
  LLMReads := []
  LLMWrites := []

theorem EVMInstance.bank_runs (stateDB : Slots) (code : String → Program) (function : String) :
    (bank stateDB code).Runs (bankContext function) 1 (code function) :=
  ⟨rfl, _, rfl, rfl⟩

end Nezha
