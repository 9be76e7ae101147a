import NezhaConcurrency.Evm.StructLogger

/-! The in-process fallback `LevmSpecFallback`. It replays a transaction on the
witness, takes the keys and values from the logger's maps of the called contract, and
reverts the state. -/
namespace Nezha

open Rollback

/-- What becomes of a message: it is refused before its code runs, or the code leaves a
trace, which may end with a revert. -/
inductive Replay where
  | intrinsicGas (err : String)
  | insufficientBalance
  | runs (trace : List Event)

/-- A transaction. What its code does depends on the state; a transaction without a
recipient runs the code of the contract `created`. -/
structure EthTransaction where
  To : Option Address
  created : Address
  replay : Slots → Replay

/-- The results of `ReplayTransaction`, and the state that it leaves. -/
structure Replayed where
  rMap : Storage
  wMap : Storage
  err : Option String
  stateDB : Slots

/-- Of the errors of the EVM only the insufficient balance is returned. The maps are
those of the called contract, and of no other. -/
def ReplayTransaction (stateDB : Slots) (tx : EthTransaction) : Replayed :=
  match tx.replay stateDB with
  | .intrinsicGas err => ⟨∅, ∅, some err, stateDB⟩
  | .insufficientBalance => ⟨∅, ∅, some "insufficient balance for transfer", stateDB⟩
  | .runs trace =>
    match tx.To with
    | none => ⟨∅, ∅, none, (EVM.Call stateDB tx.created trace).stateDB.current⟩
    | some addr =>
      let evm := EVM.Call stateDB addr trace
      let (rMap, wMap) := evm.structLogger.RWSetCapture addr
      ⟨rMap, wMap, none, evm.stateDB.current⟩

/-- A key is the contract and the slot that its text names. -/
def storageKeysToStrings (m : Storage) (contractAddr : Address) : List (Address × Word) :=
  m.keys.map fun slot => (contractAddr, slot)

/-- The difference of two 256-bit values, wrapped into `[-2 ^ 255, 2 ^ 255)`. -/
def signedDelta (writeBig readBig : Nat) : Int :=
  let delta : Int := writeBig - readBig
  let delta := if delta < 0 then delta + 2 ^ 256 else delta
  if 2 ^ 255 ≤ delta then delta - 2 ^ 256 else delta

structure ReplayRWSet where
  Success : Bool
  Error : String
  ReadKeys : List (Address × Word)
  WriteKeys : List (Address × Word)

/-- `lvm` holds the witness. Every call below leaves it as it was. -/
structure LevmSpecFallback where
  lvm : Option Slots
  txs : List EthTransaction

namespace LevmSpecFallback

structure ReExecuteResult where
  RealReadKeys : List (Address × Word)
  RealWriteKeys : List (Address × Word)
  WriteDelta : List ((Address × Word) × Int)
  WriteValues : List ((Address × Word) × Word)

/-- The state and the transaction of a call, or the reason why there is none. -/
def prepare (f : LevmSpecFallback) (txIdx : Int) : Except String (Slots × EthTransaction) :=
  match f.lvm with
  | none => .error "LevmSpecFallback: lvm not initialized"
  | some witness =>
    if txIdx < 0 then .error (outOfRange txIdx f.txs.length)
    else match f.txs[txIdx.toNat]? with
      | none => .error (outOfRange txIdx f.txs.length)
      | some tx => .ok (witness, tx)
where
  outOfRange (txIdx : Int) (count : Nat) : String :=
    "LevmSpecFallback: txIdx " ++ toString txIdx ++ " out of range [0," ++ toString count ++ ")"

/-- The written values come from the logger, the old values too if the slot was read. -/
def collect (pre : Slots) (tx : EthTransaction) (replayed : Replayed) : ReExecuteResult :=
  let contractAddr := tx.To.getD 0
  let realWriteKeys := storageKeysToStrings replayed.wMap contractAddr
  let writeBig (key : Address × Word) : Word :=
    (replayed.wMap.lookup key.2).getD (replayed.stateDB key)
  let readBig (key : Address × Word) : Word := (replayed.rMap.lookup key.2).getD (pre key)
  { RealReadKeys := storageKeysToStrings replayed.rMap contractAddr
    RealWriteKeys := realWriteKeys
    WriteDelta := realWriteKeys.map fun key =>
      (key, signedDelta (writeBig key).toNat (readBig key).toNat)
    WriteValues := realWriteKeys.map fun key => (key, writeBig key) }

/-- The result comes with the error of the replay, if it has one. -/
def ReExecute (f : LevmSpecFallback) (txIdx : Int) (overlay : Address × Word → Option Word) :
    Option ReExecuteResult × Option String :=
  match f.prepare txIdx with
  | .error err => (none, some err)
  | .ok (witness, tx) =>
    let pre := Overlay.overlaid witness overlay
    let replayed := ReplayTransaction pre tx
    (some (collect pre tx replayed), replayed.err.map ("levm ReplayTransaction: " ++ ·))

def PreExecute (f : LevmSpecFallback) (txIdx : Int) : Except String ReplayRWSet :=
  (f.prepare txIdx).map fun (witness, tx) =>
    let replayed := ReplayTransaction witness tx
    { Success := replayed.err.isNone
      Error := replayed.err.getD ""
      ReadKeys := storageKeysToStrings replayed.rMap (tx.To.getD 0)
      WriteKeys := storageKeysToStrings replayed.wMap (tx.To.getD 0) }

section Calls

variable {f : LevmSpecFallback} {txIdx : Int} {witness : Slots} {tx : EthTransaction}
  {contractAddr : Address} {overlay : Address × Word → Option Word} {result : ReExecuteResult}

theorem replay_of_no_error {pre : Slots} (h : (ReplayTransaction pre tx).err = none) :
    ∃ trace, tx.replay pre = .runs trace := by
  unfold ReplayTransaction at h
  cases hReplay : tx.replay pre with
  | intrinsicGas | insufficientBalance =>
    rw [hReplay] at h
    cases h
  | runs trace => exact ⟨trace, rfl⟩

theorem ReplayTransaction_runs {pre : Slots} {trace : List Event}
    (hTo : tx.To = some contractAddr) (hRuns : tx.replay pre = .runs trace) :
    ReplayTransaction pre tx =
      { rMap := (EVM.Call pre contractAddr trace).structLogger.readValues contractAddr
        wMap := (EVM.Call pre contractAddr trace).structLogger.changedValues contractAddr
        err := none
        stateDB := (EVM.Call pre contractAddr trace).stateDB.current } := by
  rw [ReplayTransaction, hRuns, hTo]
  rfl

theorem ReExecute_ok (hPrepare : f.prepare txIdx = .ok (witness, tx))
    (hOk : f.ReExecute txIdx overlay = (some result, none)) :
    ∃ trace, tx.replay (Overlay.overlaid witness overlay) = .runs trace ∧
      result = collect (Overlay.overlaid witness overlay) tx
        (ReplayTransaction (Overlay.overlaid witness overlay) tx) := by
  simp only [ReExecute, hPrepare, Prod.mk.injEq, Option.some.injEq, Option.map_eq_none_iff] at hOk
  obtain ⟨trace, hRuns⟩ := replay_of_no_error hOk.2
  exact ⟨trace, hRuns, hOk.1.symm⟩

theorem mem_storageKeysToStrings {m : Storage} {key : Address × Word} :
    key ∈ storageKeysToStrings m contractAddr ↔ key.1 = contractAddr ∧ key.2 ∈ m := by
  obtain ⟨addr, slot⟩ := key
  simp only [storageKeysToStrings, List.mem_map, Prod.mk.injEq, ← AList.mem_keys]
  constructor
  · rintro ⟨k, hk, rfl, rfl⟩
    exact ⟨rfl, hk⟩
  · rintro ⟨rfl, hk⟩
    exact ⟨slot, hk, rfl, rfl⟩

theorem mem_writeValues {pre : Slots} {replayed : Replayed} {slot value : Word}
    (h : ((contractAddr, slot), value) ∈ (collect pre tx replayed).WriteValues) :
    replayed.wMap.lookup slot = some value := by
  obtain ⟨key, hKey, hPair⟩ := List.mem_map.mp h
  obtain ⟨rfl, rfl⟩ := Prod.mk.inj hPair
  obtain ⟨v, hv⟩ := Option.isSome_iff_exists.mp
    (AList.lookup_isSome.mpr (mem_storageKeysToStrings.mp hKey).2)
  simp [hv]

/-- The reported values are the last ones stored, whatever the frames do. -/
theorem record_of_mem_writeValues {pre : Slots} {trace : List Event} {slot value : Word}
    (hTo : tx.To = some contractAddr) (hRuns : tx.replay pre = .runs trace)
    (hValue : ((contractAddr, slot), value) ∈
      (collect pre tx (ReplayTransaction pre tx)).WriteValues) :
    (EVM.ops [contractAddr] trace).foldl record (fun _ => none) (contractAddr, slot) =
      some value := by
  have hLookup := mem_writeValues hValue
  rw [ReplayTransaction_runs hTo hRuns] at hLookup
  exact (EVM.changedValues_run (EVM.start pre contractAddr) trace contractAddr slot).symm.trans
    hLookup

/-- A transaction that calls contract 1, with a fixed trace. -/
def callOne (trace : List Event) : EthTransaction where
  To := some 1
  created := 0
  replay := fun _ => .runs trace

def zeroWitness (tx : EthTransaction) : LevmSpecFallback where
  lvm := some fun _ => 0
  txs := [tx]

/-- A finished call of contract 1, replayed without an error, that is reported to have
stored 5 to slot 0, although the slot is zero afterwards. -/
def ReportsUndone (trace : List Event) : Prop :=
  (EVM.Call (fun _ => 0) 1 trace).frames = [] ∧ ∃ result,
    (zeroWitness (callOne trace)).ReExecute 0 (fun _ => none) = (some result, none) ∧
      ((1, 0), 5) ∈ result.WriteValues ∧
      (ReplayTransaction (fun _ => 0) (callOne trace)).stateDB (1, 0) = 0

/-- The maps of the called contract have every load and store of a trace if and only if
the trace has them on this contract only. -/
theorem captured_iff (pre : Slots) (trace : List Event) :
    ((∀ key ∈ EVM.loads [contractAddr] trace, key ∈ storageKeysToStrings
        ((EVM.Call pre contractAddr trace).structLogger.readValues contractAddr) contractAddr) ∧
      ∀ key ∈ EVM.stores [contractAddr] trace, key ∈ storageKeysToStrings
        ((EVM.Call pre contractAddr trace).structLogger.changedValues contractAddr)
        contractAddr) ↔
      ∀ key ∈ EVM.loads [contractAddr] trace ++ EVM.stores [contractAddr] trace,
        key.1 = contractAddr := by
  constructor
  · rintro ⟨hLoads, hStores⟩ key hKey
    rcases List.mem_append.mp hKey with hKey | hKey
    · exact (mem_storageKeysToStrings.mp (hLoads key hKey)).1
    · exact (mem_storageKeysToStrings.mp (hStores key hKey)).1
  · intro hSame
    refine ⟨fun (addr, slot) hKey => ?_, fun (addr, slot) hKey => ?_⟩
    · obtain rfl : addr = contractAddr := hSame _ (List.mem_append_left _ hKey)
      exact mem_storageKeysToStrings.mpr
        ⟨rfl, (EVM.mem_readValues_run (EVM.start pre addr) ..).mpr (Or.inl hKey)⟩
    · obtain rfl : addr = contractAddr := hSame _ (List.mem_append_right _ hKey)
      exact mem_storageKeysToStrings.mpr
        ⟨rfl, (EVM.mem_changedValues_run (EVM.start pre addr) ..).mpr (Or.inl hKey)⟩

/-- The loads and stores of a call are captured, for a re-execution and for a speculative
one, exactly if all of them are on the called contract. -/
theorem captured_keys_complete_iff {trace speculated : List Event} {spec : ReplayRWSet}
    (hPrepare : f.prepare txIdx = .ok (witness, tx)) (hTo : tx.To = some contractAddr)
    (hOk : f.ReExecute txIdx overlay = (some result, none))
    (hRuns : tx.replay (Overlay.overlaid witness overlay) = .runs trace)
    (hSpec : f.PreExecute txIdx = .ok spec) (hSpeculated : tx.replay witness = .runs speculated) :
    (((∀ key ∈ EVM.loads [contractAddr] trace, key ∈ result.RealReadKeys) ∧
        ∀ key ∈ EVM.stores [contractAddr] trace, key ∈ result.RealWriteKeys) ↔
      ∀ key ∈ EVM.loads [contractAddr] trace ++ EVM.stores [contractAddr] trace,
        key.1 = contractAddr) ∧
    (((∀ key ∈ EVM.loads [contractAddr] speculated, key ∈ spec.ReadKeys) ∧
        ∀ key ∈ EVM.stores [contractAddr] speculated, key ∈ spec.WriteKeys) ↔
      ∀ key ∈ EVM.loads [contractAddr] speculated ++ EVM.stores [contractAddr] speculated,
        key.1 = contractAddr) := by
  obtain ⟨_, _, rfl⟩ := ReExecute_ok hPrepare hOk
  simp only [PreExecute, hPrepare, Except.map, Except.ok.injEq] at hSpec
  subst hSpec
  refine ⟨?_, ?_⟩
  · refine Iff.trans ?_ (captured_iff (Overlay.overlaid witness overlay) trace)
    rw [collect, ReplayTransaction_runs hTo hRuns, hTo]
    rfl
  · refine Iff.trans ?_ (captured_iff witness speculated)
    rw [ReplayTransaction_runs hTo hSpeculated, hTo]
    rfl

def loadThenStore : List Event := [.sload 0, .sstore 0 5, .ret]

theorem captured_keys_complete_plain : ∃ result spec,
    (zeroWitness (callOne loadThenStore)).ReExecute 0 (fun _ => none) = (some result, none) ∧
    (zeroWitness (callOne loadThenStore)).PreExecute 0 = .ok spec ∧
    (((∀ key ∈ EVM.loads [1] loadThenStore, key ∈ result.RealReadKeys) ∧
        ∀ key ∈ EVM.stores [1] loadThenStore, key ∈ result.RealWriteKeys) ↔
      ∀ key ∈ EVM.loads [1] loadThenStore ++ EVM.stores [1] loadThenStore, key.1 = 1) ∧
    (((∀ key ∈ EVM.loads [1] loadThenStore, key ∈ spec.ReadKeys) ∧
        ∀ key ∈ EVM.stores [1] loadThenStore, key ∈ spec.WriteKeys) ↔
      ∀ key ∈ EVM.loads [1] loadThenStore ++ EVM.stores [1] loadThenStore, key.1 = 1) := by
  have hPrepare : (zeroWitness (callOne loadThenStore)).prepare 0 =
      .ok (fun _ => 0, callOne loadThenStore) :=
    rfl
  have hReplay : ∀ pre, (callOne loadThenStore).replay pre = .runs loadThenStore := fun _ => rfl
  exact ⟨_, _, rfl, rfl, captured_keys_complete_iff hPrepare rfl rfl (hReplay _) rfl (hReplay _)⟩

/-- Contract 1 calls contract 2, which stores to a slot of its own. No written key is
captured. -/
theorem inner_store_not_captured :
    (EVM.Call (fun _ => 0) 1 [.call 2, .sstore 7 5, .ret, .ret]).frames = [] ∧
    (2, 7) ∈ EVM.stores [1] [.call 2, .sstore 7 5, .ret, .ret] ∧ ∃ result spec,
      (zeroWitness (callOne [.call 2, .sstore 7 5, .ret, .ret])).ReExecute 0 (fun _ => none) =
        (some result, none) ∧ result.RealWriteKeys = [] ∧
      (zeroWitness (callOne [.call 2, .sstore 7 5, .ret, .ret])).PreExecute 0 = .ok spec ∧
        spec.WriteKeys = [] :=
  ⟨rfl, by decide, _, _, rfl, rfl, rfl, rfl⟩

end Calls

end LevmSpecFallback

end Nezha
