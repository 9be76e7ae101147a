import NezhaConcurrency.Evm.WriteDelta
import NezhaConcurrency.Library.GoString
import NezhaConcurrency.Library.OneSidedWrap

/-! The commit of a re-executed transaction in `TestDepurge`. A slot has its value in
three places: the storage with which the instances were deployed, the committed state
over it, and the delta that is added to the committed state alone. -/
namespace Nezha

open Rollback

theorem makeCompositeKey_injective (contractName : String) :
    Function.Injective (makeCompositeKey contractName) := by
  intro key key' h
  exact (String.append_right_inj (contractName ++ ":")).mp h

/-- A contract name ends at the first colon. -/
theorem makeCompositeKey_inj {contractName otherName key otherKey : String}
    (hName : ':' ∉ contractName.toList) (hOther : ':' ∉ otherName.toList)
    (h : makeCompositeKey contractName key = makeCompositeKey otherName otherKey) :
    contractName = otherName ∧ key = otherKey :=
  GoString.cut_inj hName hOther h

/-- The loop of `filterContractState` over the entries of the map. -/
def filterEntries (entries : List (String × List UInt8)) (contractName : String) :
    List (String × List UInt8) :=
  (entries.filter fun entry => GoString.HasPrefix entry.1 (contractName ++ ":")).map fun entry =>
    (String.ofList (entry.1.toList.drop (contractName ++ ":").toList.length), entry.2)

/-- The loop finds under a storage key what the map has under the composite key. -/
theorem mem_filterEntries {entries : List (String × List UInt8)} {contractName key : String}
    {value : List UInt8} : (key, value) ∈ filterEntries entries contractName ↔
      (makeCompositeKey contractName key, value) ∈ entries := by
  simp only [filterEntries, List.mem_map, List.mem_filter, GoString.HasPrefix,
    List.isPrefixOf_iff_prefix]
  constructor
  · rintro ⟨⟨compositeKey, found⟩, ⟨hMem, rest, hRest⟩, hEntry⟩
    dsimp only at hRest hEntry
    rw [← hRest, List.drop_left] at hEntry
    obtain ⟨rfl, rfl⟩ := Prod.mk.inj hEntry
    have hKey : makeCompositeKey contractName (String.ofList rest) = compositeKey := by
      rw [← String.toList_inj, ← hRest]
      simp [makeCompositeKey]
    rwa [hKey]
  · intro hMem
    have hCut : (contractName ++ ":").toList ++ key.toList =
        (makeCompositeKey contractName key).toList := by
      simp [makeCompositeKey]
    refine ⟨_, ⟨hMem, key.toList, hCut⟩, ?_⟩
    rw [← hCut, List.drop_left, String.ofList_toList]

section Update

variable {key : String} {writeDelta : List (String × Int)}

/-- No key but the written ones changes. -/
theorem updateCommittedState_of_ne {compositeKey contractName : String}
    (h : ∀ write ∈ writeDelta, compositeKey ≠ makeCompositeKey contractName write.1)
    (committedState : CommittedState) :
    updateCommittedState committedState contractName writeDelta compositeKey =
      committedState compositeKey := by
  induction writeDelta generalizing committedState with
  | nil => rfl
  | cons write writeDelta ih =>
    refine (ih (fun other hOther => h other (List.mem_cons_of_mem _ hOther)) _).trans ?_
    exact Function.update_of_ne (h write List.mem_cons_self) ..

theorem updateCommittedState_of_not_mem (h : key ∉ writeDelta.map Prod.fst)
    (committedState : CommittedState) (contractName : String) :
    filterContractState (updateCommittedState committedState contractName writeDelta)
      contractName key = filterContractState committedState contractName key := by
  refine updateCommittedState_of_ne (fun write hWrite hEq => h ?_) committedState
  rw [makeCompositeKey_injective contractName hEq]
  exact List.mem_map_of_mem hWrite

theorem isSome_updateCommittedState (committedState : CommittedState) (contractName : String) :
    (filterContractState (updateCommittedState committedState contractName writeDelta)
      contractName key).isSome ↔
      (filterContractState committedState contractName key).isSome ∨
        key ∈ writeDelta.map Prod.fst := by
  induction writeDelta generalizing committedState with
  | nil => simp [updateCommittedState]
  | cons write writeDelta ih =>
    refine (ih _).trans ?_
    by_cases h : key = write.1
    · subst h
      simp [filterContractState]
    · simp [filterContractState, (makeCompositeKey_injective contractName).ne h, h]

theorem updateCommittedState_of_mem (hNodup : (writeDelta.map Prod.fst).Nodup) {delta : Int}
    (hMem : (key, delta) ∈ writeDelta) (committedState : CommittedState) (contractName : String) :
    filterContractState (updateCommittedState committedState contractName writeDelta)
      contractName key =
      some (applyDelta (filterContractState committedState contractName key) delta) := by
  induction writeDelta generalizing committedState with
  | nil => cases hMem
  | cons write writeDelta ih =>
    rw [List.map_cons, List.nodup_cons] at hNodup
    rcases List.mem_cons.mp hMem with rfl | hMem
    · refine (updateCommittedState_of_not_mem hNodup.1 _ _).trans ?_
      simp [filterContractState]
    · have hne : key ≠ write.1 :=
        fun hEq => hNodup.1 (hEq ▸ List.mem_map_of_mem hMem)
      refine (ih hNodup.2 hMem _).trans ?_
      simp [filterContractState, (makeCompositeKey_injective contractName).ne hne]

/-- The views of the contracts are apart. An update for one contract adds the keys of the
delta to its view, changes it under these keys alone and leaves every other view as it was. -/
theorem contract_views_framed {contractName : String} (hName : ':' ∉ contractName.toList)
    (committedState : CommittedState) (writeDelta : List (String × Int)) :
    let updated := updateCommittedState committedState contractName writeDelta
    (∀ otherName, ':' ∉ otherName.toList → otherName ≠ contractName →
      filterContractState updated otherName = filterContractState committedState otherName) ∧
    (∀ key, (filterContractState updated contractName key).isSome ↔
      (filterContractState committedState contractName key).isSome ∨
        key ∈ writeDelta.map Prod.fst) ∧
    (∀ key, key ∉ writeDelta.map Prod.fst → filterContractState updated contractName key =
      filterContractState committedState contractName key) ∧
    ∀ otherName key otherKey, ':' ∉ otherName.toList →
      (makeCompositeKey contractName key = makeCompositeKey otherName otherKey ↔
        contractName = otherName ∧ key = otherKey) := by
  refine ⟨fun otherName hOther hne => funext fun key => ?_,
    fun key => isSome_updateCommittedState committedState contractName,
    fun key hKey => updateCommittedState_of_not_mem hKey _ _,
    fun otherName key otherKey hOther => ⟨makeCompositeKey_inj hName hOther, ?_⟩⟩
  · refine updateCommittedState_of_ne (fun write _ hEq => hne ?_) committedState
    exact (makeCompositeKey_inj hOther hName hEq).1
  · rintro ⟨rfl, rfl⟩
    rfl

theorem bank_views_framed : ':' ∉ "Bank".toList ∧
    filterContractState (updateCommittedState (fun _ => none) "Bank" [("a:b", 1)]) "Ban" =
      fun _ => none :=
  ⟨by decide, (contract_views_framed (by decide) (fun _ => none) [("a:b", 1)]).1 "Ban" (by decide)
    (by decide)⟩

end Update

/-- The value of a slot through the deployed storage with the committed state over it. -/
def slotValue (deployed : Slots) (contractAddr : Address)
    (contractState : String → Option (List UInt8)) (slot : Word) : Nat :=
  ((contractState (storageKey slot)).map BigEndian.value).getD (deployed (contractAddr, slot)).toNat

section Commit

variable {inst : EVMInstance} {ctx : LLMContext} {contractAddr : Address} {program : Program}
  {committedState : CommittedState} {result : RealRWSet} {pre : Slots}

theorem applyLogicalState_toNat {contractState : String → Option (List UInt8)} {slot : Word}
    (hWord : ∀ bytes, contractState (storageKey slot) = some bytes →
      BigEndian.value bytes < 2 ^ 256) (deployed : Slots) :
    (applyLogicalStateToContract deployed contractAddr contractState (contractAddr, slot)).toNat =
      slotValue deployed contractAddr contractState slot := by
  simp only [applyLogicalStateToContract, slotValue, if_true]
  cases hState : contractState (storageKey slot) with
  | none => rfl
  | some bytes =>
    simp only [Option.map_some, Option.getD_some, BytesToHash, BitVec.toNat_ofNat]
    exact Nat.mod_eq_of_lt (hWord bytes hState)

/-- A trace that loads a slot of the called contract exactly once, obtaining `v`, stores
to it only afterwards, and last stores `w`. -/
def ReadsThenWrites (pre : Slots) (contractAddr : Address) (trace : List Event)
    (slot v w : Word) : Prop :=
  ∃ before after callers, trace = before ++ Event.sload slot :: after ∧
    (EVM.Call pre contractAddr before).frames = contractAddr :: callers ∧
    (EVM.Call pre contractAddr before).stateDB.current (contractAddr, slot) = v ∧
    (contractAddr, slot) ∉ EVM.loads [contractAddr] before ∧
    (contractAddr, slot) ∉ EVM.stores [contractAddr] before ∧
    (contractAddr, slot) ∉ EVM.loads (contractAddr :: callers) after ∧
    (EVM.ops [contractAddr] trace).foldl record (fun _ => none) (contractAddr, slot) = some w

variable {trace : List Event} {slot v w : Word}

/-- The value obtained is the one from before the call, and both values are captured. -/
theorem ReadsThenWrites.captured (h : ReadsThenWrites pre contractAddr trace slot v w) :
    pre (contractAddr, slot) = v ∧
      ((EVM.Call pre contractAddr trace).structLogger.readValues contractAddr).lookup slot =
        some v ∧
      ((EVM.Call pre contractAddr trace).structLogger.changedValues contractAddr).lookup slot =
        some w := by
  obtain ⟨before, after, callers, rfl, hFrames, hRead, _, hUnwritten, hOnce, hWritten⟩ := h
  refine ⟨?_, ?_, ?_⟩
  · rw [← hRead, EVM.current_of_not_stored hUnwritten]
  · rw [← hRead]
    exact EVM.readValues_run_of_last hFrames hOnce
  · exact (EVM.changedValues_run ..).trans hWritten

/-- A delta is added to the current value, with a correction below zero. -/
theorem applyDelta_add (currentVal : Option (List UInt8)) {delta : Int} (hLow : -2 ^ 256 ≤ delta) :
    (BigEndian.value (applyDelta currentVal delta) : Int) =
      OneSidedWrap.add (2 ^ 256) ((currentVal.map BigEndian.value).getD 0 : Nat) delta := by
  have hSum : ∀ currentBig : Nat, ((if (currentBig : Int) + delta < 0 then
      (currentBig : Int) + delta + 2 ^ 256 else currentBig + delta).natAbs : Int) =
        OneSidedWrap.add (2 ^ 256) currentBig delta := by
    intro currentBig
    exact Int.natAbs_of_nonneg (OneSidedWrap.add_nonneg (Int.natCast_nonneg currentBig) hLow)
  cases currentVal with
  | none =>
    rw [applyDelta, BigEndian.value_bytes]
    exact hSum 0
  | some bytes =>
    rw [applyDelta, BigEndian.value_bytes]
    exact hSum (BigEndian.value bytes)

theorem applyDelta_value (currentVal : Option (List UInt8)) {delta : Int} (h : 0 ≤ delta) :
    (BigEndian.value (applyDelta currentVal delta) : Int) =
      ((currentVal.map BigEndian.value).getD 0 : Nat) + delta := by
  rw [applyDelta_add currentVal (by omega), OneSidedWrap.add, if_neg (by omega)]

theorem mem_newWriteDelta {called : Called} (hRead : called.rMap.lookup slot = some v)
    (hWritten : called.wMap.lookup slot = some w)
    (logicalState : String → Option (List UInt8)) :
    (storageKey slot, signedDelta w.toNat v.toNat) ∈ called.newWriteDelta logicalState := by
  have hKey : slot ∈ called.wMap.keys :=
    AList.mem_keys.mp (AList.lookup_isSome.mp (by simp [hWritten]))
  refine List.mem_map.mpr ⟨slot, hKey, ?_⟩
  simp [hWritten, Called.readBig, hRead]

/-- The reported deltas have distinct keys, so each is added to the committed value of its
slot, and to zero if there is none. -/
theorem slotValue_update {called : Called} {logicalState : String → Option (List UInt8)}
    {delta : Int} (hDelta : (storageKey slot, delta) ∈ called.newWriteDelta logicalState)
    (hNonneg : 0 ≤ delta) (deployed : Slots) (contractAddr : Address)
    (committedState : CommittedState) (contractName : String) :
    (slotValue deployed contractAddr (filterContractState (updateCommittedState committedState
      contractName (called.newWriteDelta logicalState)) contractName) slot : Int) =
      (((filterContractState committedState contractName (storageKey slot)).map
        BigEndian.value).getD 0 : Nat) + delta := by
  rw [slotValue, updateCommittedState_of_mem (called.nodup_newWriteDelta logicalState) hDelta]
  exact applyDelta_value _ hNonneg

/-- A slot that is read once and then written has the value written, through the
committed state, if and only if the committed state had it before or its deployed value
is zero. -/
theorem commit_yields_written_iff (hRuns : inst.Runs ctx contractAddr program)
    (hWords : ∀ key bytes, filterContractState committedState ctx.ContractName key = some bytes →
        BigEndian.value bytes < 2 ^ 256)
    (hPre : applyLogicalStateToContract inst.stateDB contractAddr
      (filterContractState committedState ctx.ContractName) = pre)
    (hTrace : program.trace (EVM.start pre contractAddr) = trace)
    (hErr : (EVM.Call pre contractAddr trace).vmerr = false)
    (hSlot : ReadsThenWrites pre contractAddr trace slot v w)
    (hLe : v.toNat ≤ w.toNat) (hLt : w.toNat < v.toNat + 2 ^ 255)
    (hOk : inst.ReExecuteAndGetRealRWSet ctx
      (filterContractState committedState ctx.ContractName) = .ok result) :
    slotValue inst.stateDB contractAddr (filterContractState
        (updateCommittedState committedState ctx.ContractName result.writeDelta)
        ctx.ContractName) slot = w.toNat ↔
      (filterContractState committedState ctx.ContractName (storageKey slot)).isSome ∨
        inst.stateDB (contractAddr, slot) = 0 := by
  obtain ⟨hSame, hRead, hWritten⟩ := hSlot.captured
  obtain ⟨called, hCalled, hReadMap, hWriteMap⟩ := reExecute_maps hRuns hPre hTrace hErr
  rw [EVMInstance.ReExecuteAndGetRealRWSet, hCalled] at hOk
  obtain rfl := Except.ok.inj hOk
  rw [← hReadMap] at hRead
  rw [← hWriteMap] at hWritten
  have hOld : v.toNat = slotValue inst.stateDB contractAddr
      (filterContractState committedState ctx.ContractName) slot := by
    rw [← hSame, ← hPre]
    exact applyLogicalState_toNat (hWords (storageKey slot)) inst.stateDB
  have hDelta := mem_newWriteDelta hRead hWritten
    (filterContractState committedState ctx.ContractName)
  rw [signedDelta_of_le hLe hLt] at hDelta
  have hNew := slotValue_update hDelta (by omega) inst.stateDB contractAddr committedState
    ctx.ContractName
  rw [slotValue] at hOld
  -- the delta is added to the committed value, or to zero
  cases hState : filterContractState committedState ctx.ContractName (storageKey slot) with
  | none =>
    rw [hState] at hOld hNew
    simp only [Option.map_none, Option.getD_none, Nat.cast_zero] at hOld hNew
    have hZero : inst.stateDB (contractAddr, slot) = 0 ↔ v.toNat = 0 := by
      rw [hOld]
      exact BitVec.toNat_eq
    rw [hZero, Option.isSome_none]
    simp only [Called.realRWSet, Bool.false_eq_true, false_or]
    omega
  | some bytes =>
    rw [hState] at hOld hNew
    simp only [Option.map_some, Option.getD_some] at hOld hNew
    refine iff_of_true ?_ (Or.inl rfl)
    simp only [Called.realRWSet]
    omega

theorem deposit_readsThenWrites (opening : Word) :
    applyLogicalStateToContract (fun _ => opening) 1 (fun _ => none) = (fun _ => opening) ∧
      deposit.trace (EVM.start (fun _ => opening) 1) = [.sload 0, .sstore 0 (opening + 5), .ret] ∧
      ReadsThenWrites (fun _ => opening) 1 [.sload 0, .sstore 0 (opening + 5), .ret] 0 opening
        (opening + 5) := by
  refine ⟨?_, rfl, [], [.sstore 0 (opening + 5), .ret], [], rfl, rfl, rfl, ?_⟩
  · funext key
    simp [applyLogicalStateToContract]
  · simp [EVM.loads, EVM.stores, EVM.ops, EVM.along, Event.loads, Event.ops, Event.frames, record]

theorem commit_yields_written_deposit : ∃ result,
    (EVMInstance.bank (fun _ => 0) fun _ => deposit).ReExecuteAndGetRealRWSet
      (bankContext "deposit") (filterContractState (fun _ => none) "SmallBank") = .ok result ∧
    (slotValue (fun _ => 0) 1 (filterContractState
        (updateCommittedState (fun _ => none) "SmallBank" result.writeDelta) "SmallBank") 0 =
        (5 : Word).toNat ↔
      (filterContractState (fun _ => none) "SmallBank" (storageKey 0)).isSome ∨
        (0 : Word) = 0) := by
  obtain ⟨hPre, hTrace, hSlot⟩ := deposit_readsThenWrites 0
  obtain ⟨result, hOk⟩ : ∃ result,
      (EVMInstance.bank (fun _ => 0) fun _ => deposit).ReExecuteAndGetRealRWSet
        (bankContext "deposit") (filterContractState (fun _ => none) "SmallBank") = .ok result :=
    ⟨_, rfl⟩
  have hWords : ∀ key bytes, filterContractState (fun _ => none)
      (bankContext "deposit").ContractName key = some bytes → BigEndian.value bytes < 2 ^ 256 :=
    fun _ _ h => by cases h
  have hCommit := commit_yields_written_iff
    (EVMInstance.bank_runs (fun _ => 0) (fun _ => deposit) "deposit") hWords hPre hTrace rfl hSlot
    (by decide) (by decide) hOk
  exact ⟨result, hOk, hCommit⟩

/-- A deposit to an account that the constructor opened with 10. The committed state has
the delta, not the new balance. -/
theorem constructor_value_lost : ∃ result,
    (EVMInstance.bank (fun _ => 10) fun _ => deposit).ReExecuteAndGetRealRWSet
      (bankContext "deposit") (filterContractState (fun _ => none) "SmallBank") = .ok result ∧
    ReadsThenWrites (fun _ => 10) 1 (deposit.trace (EVM.start (fun _ => 10) 1)) 0 10 15 ∧
    slotValue (fun _ => 10) 1 (filterContractState
        (updateCommittedState (fun _ => none) "SmallBank" result.writeDelta) "SmallBank") 0 = 5 :=
  ⟨_, rfl, (deposit_readsThenWrites 10).2.2, by decide +kernel⟩

end Commit

end Nezha
