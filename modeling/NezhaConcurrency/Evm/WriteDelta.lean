import NezhaConcurrency.Evm.PooledInstance

/-! The reported write deltas. The old value of a slot is the one that the last load
saw, so a delta is the difference of the states before and after only if the slot was
not loaded again after a change. -/
namespace Nezha

open Rollback List

/-- A difference of 256-bit values is right modulo `2 ^ 256` and in the signed range. -/
theorem signedDelta_spec {writeBig readBig : Nat} (hWrite : writeBig < 2 ^ 256)
    (hRead : readBig < 2 ^ 256) :
    signedDelta writeBig readBig ≡ writeBig - readBig [ZMOD 2 ^ 256] ∧
      -2 ^ 255 ≤ signedDelta writeBig readBig ∧ signedDelta writeBig readBig < 2 ^ 255 := by
  refine ⟨?_, ?_⟩
  · unfold signedDelta
    rw [Int.ModEq]
    dsimp only
    split <;> split <;> omega
  · unfold signedDelta
    dsimp only
    split <;> split <;> omega

theorem signedDelta_of_le {writeBig readBig : Nat} (hLe : readBig ≤ writeBig)
    (hLt : writeBig < readBig + 2 ^ 255) : signedDelta writeBig readBig = writeBig - readBig := by
  unfold signedDelta
  dsimp only
  rw [if_neg (by omega), if_neg (by omega)]

namespace EVM

variable {trace accesses : List Event}

theorem undo_not_mem_ops (h : .revert ∉ trace) (frames : List Address) :
    .undo ∉ ops frames trace := by
  induction trace generalizing frames with
  | nil => cases frames <;> simp [ops, along]
  | cons event trace ih =>
    have hRest := ih fun hm => h (mem_cons_of_mem _ hm)
    cases frames with
    | nil => simp [ops, along]
    | cons addr callers =>
      rw [ops, along, mem_append, not_or]
      refine ⟨?_, hRest _⟩
      cases event with
      | revert => exact absurd mem_cons_self h
      | sload | sstore | call | ret => simp [Event.ops]

/-- Without a revert the logger's last value of a slot is the value in the state. -/
theorem current_of_changedValues (h : .revert ∉ trace) {pre : Slots} {self addr : Address}
    {slot value : Word}
    (hValue : ((Call pre self trace).structLogger.changedValues addr).lookup slot = some value) :
    (Call pre self trace).stateDB.current (addr, slot) = value := by
  rw [Call, changedValues_run] at hValue
  obtain ⟨before, after, hOps, hCurrent⟩ := State.run_of_record (start pre self).stateDB hValue
  have hAfter : .undo ∉ after := by
    intro hm
    refine undo_not_mem_ops h (start pre self).frames ?_
    rw [hOps]
    exact mem_append_right _ (mem_cons_of_mem _ hm)
  rw [Call, stateDB_run, hCurrent, restored_of_no_undo hAfter]
  rfl

theorem vmerr_run (h : .revert ∉ trace) {evm : EVM} (hErr : evm.vmerr = false) :
    (evm.run trace).vmerr = false := by
  induction trace generalizing evm with
  | nil => exact hErr
  | cons event trace ih =>
    have hEvent : event ≠ .revert := fun hEq => h (hEq ▸ mem_cons_self)
    refine ih (fun hm => h (mem_cons_of_mem _ hm)) ?_
    cases hFrames : evm.frames with
    | nil => rwa [step_of_no_frame hFrames]
    | cons addr callers => simp [step_of_frame hFrames, hEvent]

/-- Only loads and stores of the running contract. -/
def Accesses (accesses : List Event) : Prop :=
  ∀ event ∈ accesses, (∃ slot, event = .sload slot) ∨ ∃ slot value, event = .sstore slot value

theorem Accesses.frames_run (h : Accesses accesses) (evm : EVM) :
    (evm.run accesses).frames = evm.frames := by
  induction accesses generalizing evm with
  | nil => rfl
  | cons event accesses ih =>
    refine (ih (fun e he => h e (mem_cons_of_mem _ he)) (evm.step event)).trans ?_
    cases hFrames : evm.frames with
    | nil => rw [step_of_no_frame hFrames, hFrames]
    | cons addr callers =>
      rw [step_of_frame hFrames]
      rcases h event mem_cons_self with ⟨slot, rfl⟩ | ⟨slot, value, rfl⟩ <;> rfl

theorem Accesses.revert_not_mem (h : Accesses accesses) :
    Event.revert ∉ accesses ++ [Event.ret] := by
  intro hm
  rcases mem_append.mp hm with hm | hm
  · rcases h _ hm with ⟨slot, hEq⟩ | ⟨slot, value, hEq⟩ <;> cases hEq
  · cases mem_singleton.mp hm

theorem Accesses.mem_loads (h : Accesses accesses) (addr : Address) (slot : Word) :
    (addr, slot) ∈ loads [addr] (accesses ++ [Event.ret]) ↔ .sload slot ∈ accesses := by
  induction accesses with
  | nil => simp [loads, along, Event.loads, Event.frames]
  | cons event accesses ih =>
    have hRest := ih fun e he => h e (mem_cons_of_mem _ he)
    rw [cons_append, loads, along, mem_append, mem_cons]
    rcases h event mem_cons_self with ⟨k, rfl⟩ | ⟨k, value, rfl⟩
    · simpa [loads, Event.loads, Event.frames] using or_congr_right hRest
    · simpa [loads, Event.loads, Event.frames] using hRest

theorem Accesses.current_ret (h : Accesses accesses) (pre : Slots) (addr : Address) :
    (Call pre addr (accesses ++ [Event.ret])).stateDB.current =
      (Call pre addr accesses).stateDB.current := by
  have hFrames : (Call pre addr accesses).frames = [addr] := h.frames_run (start pre addr)
  rw [Call, run_append]
  change ((Call pre addr accesses).step .ret).stateDB.current = _
  rw [step_of_frame hFrames]
  rfl

theorem Accesses.readValues_last (h : Accesses accesses) (pre : Slots) (addr : Address)
    {slot : Word} {before after : List Event} (hSplit : accesses = before ++ Event.sload slot :: after)
    (hLast : .sload slot ∉ after) :
    ((Call pre addr (accesses ++ [Event.ret])).structLogger.readValues addr).lookup slot =
      some ((Call pre addr before).stateDB.current (addr, slot)) := by
  subst hSplit
  have hBefore : Accesses before := fun e he => h e (mem_append_left _ he)
  have hAfter : Accesses after :=
    fun e he => h e (mem_append_right _ (mem_cons_of_mem _ he))
  have hFrames : ((start pre addr).run before).frames = [addr] := hBefore.frames_run _
  rw [append_assoc, cons_append]
  exact readValues_run_of_last hFrames fun hm => hLast ((hAfter.mem_loads addr slot).mp hm)

end EVM

section Deltas

variable {inst : EVMInstance} {ctx : LLMContext} {contractAddr : Address} {program : Program}
  {logicalState : String → Option (List UInt8)} {result : RealRWSet} {pre : Slots}

/-- A call that does not fail reports the maps of its machine. -/
theorem reExecute_maps (hRuns : inst.Runs ctx contractAddr program)
    (hPre : applyLogicalStateToContract inst.stateDB contractAddr logicalState = pre)
    {trace : List Event} (hTrace : program.trace (EVM.start pre contractAddr) = trace)
    (hErr : (EVM.Call pre contractAddr trace).vmerr = false) :
    ∃ called, inst.reExecute ctx logicalState = .ok called ∧
      called.rMap = (EVM.Call pre contractAddr trace).structLogger.readValues contractAddr ∧
      called.wMap = (EVM.Call pre contractAddr trace).structLogger.changedValues contractAddr := by
  rw [EVMInstance.reExecute_of_runs hRuns, hPre, SelectFunctions2_some, Program.finish, hTrace,
    hErr]
  exact ⟨_, rfl, rfl, rfl⟩

theorem mem_writeDelta {called : Called} {slot : Word} {delta : Int}
    (h : (storageKey slot, delta) ∈ (called.realRWSet logicalState).writeDelta) :
    ∃ value, called.wMap.lookup slot = some value ∧
      delta = signedDelta value.toNat (called.readBig logicalState slot) := by
  obtain ⟨key, hKey, hPair⟩ := mem_map.mp h
  obtain ⟨hSlot, rfl⟩ := Prod.mk.inj hPair
  obtain rfl := storageKey_injective hSlot
  obtain ⟨value, hValue⟩ := Option.isSome_iff_exists.mp
    (AList.lookup_isSome.mpr (AList.mem_keys.mpr hKey))
  exact ⟨value, hValue, by rw [hValue, Option.getD_some]⟩

/-- Congruent differences have congruent subtrahends, which are equal if they are words. -/
theorem sub_modEq_iff {write read old : Nat} (hRead : read < 2 ^ 256) (hOld : old < 2 ^ 256) :
    (write - read : Int) ≡ write - old [ZMOD 2 ^ 256] ↔ read = old := by
  rw [Int.ModEq]
  omega

theorem exists_last {α : Type} {a : α} {l : List α} (h : a ∈ l) :
    ∃ before after, l = before ++ a :: after ∧ a ∉ after := by
  obtain ⟨front, back, hEq, hNot⟩ := eq_append_cons_of_mem (mem_reverse.mpr h)
  refine ⟨back.reverse, front.reverse, ?_, by simpa using hNot⟩
  rw [← reverse_reverse l, hEq]
  simp

/-- The old value of a delta is that before the accesses if and only if the last load of
the slot saw it. -/
theorem readBig_eq_pre_iff {accesses : List Event} (hAccesses : EVM.Accesses accesses)
    {called : Called} {slot : Word}
    (hStart : (pre (contractAddr, slot)).toNat =
      ((logicalState (storageKey slot)).map BigEndian.value).getD 0)
    (hMap : called.rMap =
      (EVM.Call pre contractAddr (accesses ++ [Event.ret])).structLogger.readValues contractAddr) :
    called.readBig logicalState slot < 2 ^ 256 ∧
      (called.readBig logicalState slot = (pre (contractAddr, slot)).toNat ↔
        ∀ before after, accesses = before ++ Event.sload slot :: after → .sload slot ∉ after →
          (EVM.Call pre contractAddr before).stateDB.current (contractAddr, slot) =
            pre (contractAddr, slot)) := by
  have hMem : slot ∈ called.rMap ↔ .sload slot ∈ accesses := by
    rw [hMap, EVM.Call, EVM.mem_readValues_run]
    exact (or_iff_left (AList.notMem_empty slot)).trans (hAccesses.mem_loads contractAddr slot)
  cases hRead : called.rMap.lookup slot with
  | none =>
    have hNever : .sload slot ∉ accesses := hMem.not.mp (AList.lookup_eq_none.mp hRead)
    have hOld : called.readBig logicalState slot = (pre (contractAddr, slot)).toNat := by
      rw [hStart, Called.readBig, hRead]
      cases logicalState (storageKey slot) <;> rfl
    refine ⟨hOld ▸ BitVec.isLt _, iff_of_true hOld ?_⟩
    rintro before after rfl _
    exact absurd (mem_append_right _ mem_cons_self) hNever
  | some readVal =>
    have hOld : called.readBig logicalState slot = readVal.toNat := by
      rw [Called.readBig, hRead]
    have hSeen : ∀ before after, accesses = before ++ Event.sload slot :: after →
        .sload slot ∉ after →
        (EVM.Call pre contractAddr before).stateDB.current (contractAddr, slot) = readVal := by
      intro before after hSplit hLast
      have hValue := hAccesses.readValues_last pre contractAddr hSplit hLast
      rw [← hMap, hRead] at hValue
      exact (Option.some.inj hValue).symm
    rw [hOld]
    refine ⟨readVal.isLt, fun hEq before after hSplit hLast => ?_, fun hAll => ?_⟩
    · rw [hSeen before after hSplit hLast]
      exact BitVec.eq_of_toNat_eq hEq
    · obtain ⟨before, after, hSplit, hLast⟩ := exists_last
        (hMem.mp (AList.lookup_isSome.mp (by rw [hRead]; rfl)))
      rw [← hSeen before after hSplit hLast, hAll before after hSplit hLast]

/-- For accesses of the called contract alone, a delta is the change of the slot modulo
`2 ^ 256` if and only if the last load of the slot, if there is one, still saw the value
from before. It is in the signed range in any case. -/
theorem writeDelta_eq_change_iff {accesses : List Event} {slot : Word} {delta : Int}
    (hRuns : inst.Runs ctx contractAddr program)
    (hPre : applyLogicalStateToContract inst.stateDB contractAddr logicalState = pre)
    (hStart : ∀ k, (pre (contractAddr, k)).toNat =
      ((logicalState (storageKey k)).map BigEndian.value).getD 0)
    (hTrace : program.trace (EVM.start pre contractAddr) = accesses ++ [Event.ret])
    (hAccesses : EVM.Accesses accesses)
    (hOk : inst.ReExecuteAndGetRealRWSet ctx logicalState = .ok result)
    (hDelta : (storageKey slot, delta) ∈ result.writeDelta) :
    (delta ≡ ((EVM.Call pre contractAddr accesses).stateDB.current (contractAddr, slot)).toNat -
        (pre (contractAddr, slot)).toNat [ZMOD 2 ^ 256] ↔
      ∀ before after, accesses = before ++ Event.sload slot :: after → .sload slot ∉ after →
        (EVM.Call pre contractAddr before).stateDB.current (contractAddr, slot) =
          pre (contractAddr, slot)) ∧
      -2 ^ 255 ≤ delta ∧ delta < 2 ^ 255 := by
  obtain ⟨called, hCalled, hReadMap, hWriteMap⟩ := reExecute_maps hRuns hPre hTrace
    (EVM.vmerr_run hAccesses.revert_not_mem rfl)
  rw [EVMInstance.ReExecuteAndGetRealRWSet, hCalled] at hOk
  obtain rfl := Except.ok.inj hOk
  obtain ⟨value, hValue, rfl⟩ := mem_writeDelta hDelta
  rw [hWriteMap] at hValue
  have hPost := EVM.current_of_changedValues hAccesses.revert_not_mem hValue
  rw [hAccesses.current_ret] at hPost
  obtain ⟨hRead, hOld⟩ := readBig_eq_pre_iff hAccesses (hStart slot) hReadMap
  obtain ⟨hCongr, hRange⟩ := signedDelta_spec value.isLt hRead
  refine ⟨?_, hRange⟩
  rw [hPost, ← hOld, ← sub_modEq_iff hRead (BitVec.isLt _)]
  exact ⟨hCongr.symm.trans, hCongr.trans⟩

def deposit : Program := .sload 0 fun balance => .sstore 0 (balance + 5) (.ret .done)

theorem writeDelta_eq_change_deposit : ∃ result,
    (EVMInstance.bank (fun _ => 0) fun _ => deposit).ReExecuteAndGetRealRWSet
      (bankContext "deposit") (fun _ => none) = .ok result ∧
    (storageKey 0, 5) ∈ result.writeDelta ∧
    ((5 ≡ ((EVM.Call (fun _ => 0) 1 [.sload 0, .sstore 0 5]).stateDB.current (1, 0)).toNat -
        ((0 : Word)).toNat [ZMOD 2 ^ 256] ↔
      ∀ before after, [Event.sload 0, .sstore 0 5] = before ++ Event.sload 0 :: after →
        .sload 0 ∉ after →
        (EVM.Call (fun _ => 0) 1 before).stateDB.current (1, 0) = 0) ∧
      (-2 ^ 255 : Int) ≤ 5 ∧ (5 : Int) < 2 ^ 255) := by
  have hPre : applyLogicalStateToContract (fun _ => 0) 1 (fun _ => none) = fun _ => 0 := by
    funext key
    simp [applyLogicalStateToContract]
  have hAccesses : EVM.Accesses [.sload 0, .sstore 0 5] := by simp [EVM.Accesses]
  obtain ⟨result, hOk, hDelta⟩ : ∃ result,
      (EVMInstance.bank (fun _ => 0) fun _ => deposit).ReExecuteAndGetRealRWSet
        (bankContext "deposit") (fun _ => none) = .ok result ∧
          (storageKey 0, 5) ∈ result.writeDelta :=
    ⟨_, rfl, mem_singleton.mpr rfl⟩
  exact ⟨result, hOk, hDelta, writeDelta_eq_change_iff (EVMInstance.bank_runs _ _ "deposit") hPre
    (fun _ => rfl) rfl hAccesses hOk hDelta⟩

/-- A slot that is stored to, loaded and stored to again. -/
def storeLoadStore : Program := .sstore 0 5 (.sload 0 fun _ => .sstore 0 7 (.ret .done))

/-- The delta of such a slot is taken from the first of the two values, although the slot
was zero before. -/
theorem reloaded_slot_delta : ∃ result,
    (EVMInstance.bank (fun _ => 0) fun _ => storeLoadStore).ReExecuteAndGetRealRWSet
      (bankContext "deposit") (fun _ => none) = .ok result ∧
    result.writeDelta = [(storageKey 0, 2)] ∧
    storeLoadStore.trace (EVM.start (fun _ => 0) 1) = [.sstore 0 5, .sload 0, .sstore 0 7, .ret] ∧
    (EVM.Call (fun _ => 0) 1 [.sstore 0 5, .sload 0, .sstore 0 7]).stateDB.current (1, 0) = 7 :=
  ⟨_, rfl, rfl, rfl, rfl⟩

end Deltas

end Nezha
