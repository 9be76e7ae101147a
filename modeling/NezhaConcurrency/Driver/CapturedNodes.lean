import NezhaConcurrency.Driver.NezhaVariable
import NezhaConcurrency.Library.RangeLoop

/-! The differences that a context records are computed from the nodes of its transaction,
those of a re-execution from the maps of the call. The two computations differ in the
slots that are written without being read. -/
namespace Nezha

open List

/-- `new(big.Int).SetBytes(value)`. -/
def setBytes (value : Bytes) : Nat := BigEndian.value (stringBytes value)

/-- The 32 bytes of a captured value. -/
def wordBytes (value : Word) : Bytes :=
  byteString (BigEndian.leftPad 32 (BigEndian.bytes value.toNat))

theorem setBytes_wordBytes (value : Word) : setBytes (wordBytes value) = value.toNat := by
  rw [setBytes, wordBytes, stringBytes_byteString, BigEndian.value_leftPad, BigEndian.value_bytes]

/-- The addresses and values that a loop over a captured map appends. -/
def capturedPairs (m : Storage) : List RWSet :=
  m.entries.map fun entry => ⟨storageKey entry.1, wordBytes entry.2⟩

/-- The maps of a `TransactionContext`. -/
structure CapturedSets where
  PreReadSet : AList fun _ : String => Bytes
  PreWriteSet : AList fun _ : String => Bytes
  PreWriteDelta : AList fun _ : String => Int

namespace CapturedSets

/-- One node of the loop. A write of a key that was not read counts as it is. -/
def addNode (sets : CapturedSets) (rw : RWNode) : CapturedSets :=
  let key := ConvertByte2String rw.RWSet.Key
  match rw.Label with
  | .r => { sets with PreReadSet := sets.PreReadSet.insert key rw.RWSet.Value }
  | .w => { sets with
      PreWriteSet := sets.PreWriteSet.insert key rw.RWSet.Value
      PreWriteDelta := sets.PreWriteDelta.insert key
        (match sets.PreReadSet.lookup key with
        | some readVal => signedDelta (setBytes rw.RWSet.Value) (setBytes readVal)
        | none => setBytes rw.RWSet.Value) }

def RWNodesToContext (rwNodes : List RWNode) : CapturedSets :=
  rwNodes.foldl addNode ⟨∅, ∅, ∅⟩

/-- The recorded differences, as the validation ranges over them. -/
def writeDelta (sets : CapturedSets) : List (String × Int) :=
  sets.PreWriteDelta.entries.map fun entry => (entry.1, entry.2)

section Loop

variable (id : String) (time : Nat) (contractName : String)

/-- The node of a captured entry. -/
def node (label : Label) (entry : Sigma fun _ : Word => Word) : RWNode :=
  ⟨⟨storageKey entry.1, wordBytes entry.2⟩, ⟨id, time⟩, label, 0, false, contractName⟩

theorem createRWNode_captured (rMap wMap : Storage) :
    CreateRWNode id time contractName (capturedPairs rMap) (capturedPairs wMap) =
      rMap.entries.map (node id time contractName .r) ++
        wMap.entries.map (node id time contractName .w) := by
  rw [CreateRWNode, capturedPairs, capturedPairs, map_map, map_map]
  rfl

theorem lookup_reads (rMap : Storage) (sets : CapturedSets) (key : Word) :
    (((rMap.entries.map (node id time contractName .r)).foldl addNode sets).PreReadSet.lookup
      (storageKey key)) =
      (rMap.lookup key).elim (sets.PreReadSet.lookup (storageKey key)) fun value =>
        some (wordBytes value) := by
  rw [foldl_map]
  refine RangeLoop.observe_foldl (fun sets key => sets.PreReadSet.lookup (storageKey key))
    (fun _ value _ => some (wordBytes value)) ?_ ?_ rMap sets key
  · intro s key value
    exact AList.lookup_insert _
  · intro s key value other hne
    exact AList.lookup_insert_ne (storageKey_injective.ne hne)

theorem writeDelta_reads (reads : List (Sigma fun _ : Word => Word)) (sets : CapturedSets) :
    ((reads.map (node id time contractName .r)).foldl addNode sets).PreWriteDelta =
      sets.PreWriteDelta := by
  induction reads generalizing sets with
  | nil => rfl
  | cons entry reads ih => exact ih _

/-- The difference that is recorded for an entry, given the reads. -/
def delta (reads : AList fun _ : String => Bytes) (entry : Sigma fun _ : Word => Word) : Int :=
  match reads.lookup (storageKey entry.1) with
  | some readVal => signedDelta entry.2.toNat (setBytes readVal)
  | none => entry.2.toNat

theorem writeDelta_writes (writes : List (Sigma fun _ : Word => Word))
    (hKeys : writes.NodupKeys) (sets : CapturedSets)
    (hNew : ∀ entry ∈ writes, storageKey entry.1 ∉ sets.PreWriteDelta) :
    ((writes.map (node id time contractName .w)).foldl addNode sets).PreWriteDelta.entries =
      (writes.map fun entry => ⟨storageKey entry.1, delta sets.PreReadSet entry⟩).reverse ++
        sets.PreWriteDelta.entries := by
  induction writes generalizing sets with
  | nil => rfl
  | cons entry writes ih =>
    obtain ⟨hEntry, hRest⟩ := nodupKeys_cons.mp hKeys
    have hInsert : (sets.addNode (node id time contractName .w entry)).PreWriteDelta =
        sets.PreWriteDelta.insert (storageKey entry.1) (delta sets.PreReadSet entry) := by
      simp only [addNode, node, delta, ConvertByte2String, setBytes_wordBytes]
    have hFresh := hNew entry mem_cons_self
    have hRestNew : ∀ other ∈ writes,
        storageKey other.1 ∉ (sets.addNode (node id time contractName .w entry)).PreWriteDelta := by
      intro other hOther hMem
      rw [hInsert, AList.mem_insert] at hMem
      rcases hMem with hSame | hMem
      · have hKey : other.1 ∈ List.keys writes := mem_keys_of_mem hOther
        rw [storageKey_injective hSame] at hKey
        exact hEntry hKey
      · exact hNew other (mem_cons_of_mem _ hOther) hMem
    rw [map_cons, foldl_cons, ih hRest _ hRestNew, hInsert,
      AList.entries_insert_of_notMem hFresh, map_cons, reverse_cons, append_assoc]
    rfl

theorem RWNodesToContext_writeDelta (ctx : CapturedContext) :
    (RWNodesToContext (CreateRWNode id time contractName (capturedPairs ctx.rMap)
      (capturedPairs ctx.wMap))).writeDelta.Perm ctx.PreWriteDelta := by
  have hReads : ∀ key, (((ctx.rMap.entries.map (node id time contractName .r)).foldl addNode
      ⟨∅, ∅, ∅⟩).PreReadSet.lookup (storageKey key)) = (ctx.rMap.lookup key).map wordBytes := by
    intro key
    rw [lookup_reads]
    cases ctx.rMap.lookup key <;> rfl
  rw [writeDelta, RWNodesToContext, createRWNode_captured, foldl_append,
    writeDelta_writes id time contractName _ ctx.wMap.nodupKeys _ (by
      intro entry _
      rw [writeDelta_reads]
      exact AList.notMem_empty _), writeDelta_reads]
  refine ((reverse_perm _).append_right _).map _ |>.trans (List.Perm.of_eq ?_)
  change ((ctx.wMap.entries.map _) ++ []).map _ = (ctx.wMap.entries.map Sigma.fst).map _
  rw [append_nil, map_map, map_map]
  refine map_congr_left fun entry hEntry => ?_
  have hLookup : ctx.wMap.lookup entry.1 = some entry.2 := AList.mem_lookup_iff.mpr hEntry
  simp only [Function.comp_apply, delta, hReads, hLookup, Option.getD_some]
  cases ctx.rMap.lookup entry.1 with
  | none => rfl
  | some readVal => simp [setBytes_wordBytes]

end Loop

end CapturedSets

section Validation

/-- Deltas filed under different keys are equal if they are the same up to their order. -/
theorem WriteDeltaEqual_iff_perm {set1 set2 : List (String × Int)}
    (hNodup : (set1.map Prod.fst).Nodup) (hNodup' : (set2.map Prod.fst).Nodup) :
    WriteDeltaEqual set1 set2 = true ↔ set1.Perm set2 := by
  constructor
  · exact fun h => WriteDeltaEqual_perm h hNodup.of_map
  · intro hPerm
    rw [WriteDeltaEqual, Bool.and_eq_true, decide_eq_true_iff, all_eq_true]
    refine ⟨hPerm.length_eq, fun write hWrite => ?_⟩
    obtain ⟨front, back, rfl⟩ := append_of_mem (hPerm.mem_iff.mp hWrite)
    rw [beq_iff_eq, lookup_eq_some_iff]
    refine ⟨front, back, rfl, fun other hOther => ?_⟩
    rw [map_append, nodup_append] at hNodup'
    exact bne_iff_ne.mpr fun hSame => hNodup'.2.2 other.1 (mem_map_of_mem hOther) write.1
      mem_cons_self hSame.symm

/-- Two families of values filed under the same keys. -/
theorem perm_map_storageKey_iff {keys keys' : List Word} (hKeys : keys.Perm keys')
    (f g : Word → Int) :
    (keys.map fun key => (storageKey key, f key)).Perm
        (keys'.map fun key => (storageKey key, g key)) ↔ ∀ key ∈ keys, f key = g key := by
  constructor
  · intro hPerm key hKey
    have hMem := hPerm.mem_iff.mp (mem_map_of_mem hKey)
    obtain ⟨other, _, hOther⟩ := mem_map.mp hMem
    obtain ⟨hSame, hValue⟩ := Prod.mk.inj hOther
    rw [← hValue, storageKey_injective hSame]
  · intro hValues
    refine List.Perm.trans (List.Perm.of_eq ?_) (hKeys.map _)
    exact map_congr_left fun key hKey => by rw [hValues key hKey]

theorem signedDelta_zero_iff (value : Word) :
    (value.toNat : Int) = signedDelta value.toNat 0 ↔ value.toNat < 2 ^ 255 := by
  have hWord := value.isLt
  unfold signedDelta
  dsimp only
  split <;> split <;> omega

variable {inst : EVMInstance} {ctx : LLMContext} {logicalState : String → Option (List UInt8)}
  {rMap wMap : Storage} {called : Called}

/-- The captured and the new difference of a slot, if the re-execution captures the same
values. -/
theorem newWriteDelta_eq (hReads : ∀ key, called.rMap.lookup key = rMap.lookup key)
    (hWrites : ∀ key, called.wMap.lookup key = wMap.lookup key)
    (hBlind : ∀ key, key ∈ wMap → key ∉ rMap → logicalState (storageKey key) = none) :
    (CapturedContext.mk ctx rMap wMap).PreWriteDelta.Perm (called.newWriteDelta logicalState) ↔
      ∀ key value, wMap.lookup key = some value → rMap.lookup key = none →
        value.toNat < 2 ^ 255 := by
  have hKeys : wMap.keys.Perm called.wMap.keys := by
    refine (perm_ext_iff_of_nodup wMap.keys_nodup called.wMap.keys_nodup).mpr fun key => ?_
    rw [← AList.mem_keys, ← AList.mem_keys, ← AList.lookup_isSome, ← AList.lookup_isSome, hWrites]
  refine (perm_map_storageKey_iff hKeys _ _).trans ⟨fun hDeltas key value hValue hRead => ?_,
    fun hSmall key hKey => ?_⟩
  · have hMem : key ∈ wMap := AList.lookup_isSome.mp (by rw [hValue]; rfl)
    have hDelta := hDeltas key (AList.mem_keys.mp hMem)
    simp only [hValue, hRead, hWrites, hReads, Called.readBig, Option.getD_some,
      hBlind key hMem (AList.lookup_eq_none.mp hRead)] at hDelta
    exact (signedDelta_zero_iff value).mp hDelta
  · obtain ⟨value, hValue⟩ := Option.isSome_iff_exists.mp
      (AList.lookup_isSome.mpr (AList.mem_keys.mpr hKey))
    simp only [hValue, hWrites, hReads, Called.readBig, Option.getD_some]
    cases hRead : rMap.lookup key with
    | some readVal => rfl
    | none =>
      simp only [hBlind key (AList.mem_keys.mpr hKey) (AList.lookup_eq_none.mp hRead)]
      exact (signedDelta_zero_iff value).mpr (hSmall key value hValue hRead)

/-- A re-execution that captures the same maps is accepted if and only if each value that
was written to a slot not read is in the lower half of the words: the context records it as
it is, the re-execution its signed difference to zero. -/
theorem identical_reExecution_accepted_iff (id : String) (time : Nat)
    (hCalled : inst.reExecute ctx logicalState = .ok called)
    (hReads : ∀ key, called.rMap.lookup key = rMap.lookup key)
    (hWrites : ∀ key, called.wMap.lookup key = wMap.lookup key)
    (hBlind : ∀ key, key ∈ wMap → key ∉ rMap → logicalState (storageKey key) = none) :
    (∃ newWriteDelta, inst.ReExecuteAndValidateTransactionWithState ctx
        (CapturedSets.RWNodesToContext (CreateRWNode id time ctx.ContractName
          (capturedPairs rMap) (capturedPairs wMap))).writeDelta logicalState =
        .ok (true, newWriteDelta)) ↔
      ∀ key value, wMap.lookup key = some value → rMap.lookup key = none →
        value.toNat < 2 ^ 255 := by
  have hPre := CapturedSets.RWNodesToContext_writeDelta id time ctx.ContractName ⟨ctx, rMap, wMap⟩
  have hNodup : ((CapturedContext.mk ctx rMap wMap).PreWriteDelta.map Prod.fst).Nodup := by
    rw [CapturedContext.PreWriteDelta, map_map]
    exact wMap.keys_nodup.map storageKey_injective
  rw [← newWriteDelta_eq hReads hWrites hBlind, ← hPre.congr_left,
    ← WriteDeltaEqual_iff_perm ((hPre.map Prod.fst).nodup_iff.mpr hNodup)
      (called.nodup_newWriteDelta logicalState),
    EVMInstance.ReExecuteAndValidateTransactionWithState, hCalled]
  constructor
  · rintro ⟨_, hOk⟩
    exact (Prod.mk.inj (Except.ok.inj hOk)).1
  · intro hEqual
    exact ⟨_, congrArg (fun valid => Except.ok (valid, _)) hEqual⟩

/-- A store to a slot that is not loaded. -/
def blindStore (value : Word) : Program := .sstore 0 value (.ret .done)

/-- The instance on which it runs. -/
def blindBank (value : Word) : EVMInstance := .bank (fun _ => 0) fun _ => blindStore value

theorem blindBank_called (value : Word) : ∃ called,
    (blindBank value).reExecute (bankContext "write") (fun _ => none) = .ok called ∧
      (∀ key, called.rMap.lookup key = (∅ : Storage).lookup key) ∧
      ∀ key, called.wMap.lookup key = (AList.singleton 0 value : Storage).lookup key :=
  ⟨_, rfl, fun _ => rfl, fun _ => rfl⟩

theorem small_blind_store_accepted : ∃ newWriteDelta,
    (blindBank 5).ReExecuteAndValidateTransactionWithState (bankContext "write")
      (CapturedSets.RWNodesToContext (CreateRWNode "0" 0 "SmallBank" (capturedPairs ∅)
        (capturedPairs (AList.singleton 0 5)))).writeDelta (fun _ => none) =
      .ok (true, newWriteDelta) := by
  obtain ⟨called, hCalled, hReads, hWrites⟩ := blindBank_called 5
  refine (identical_reExecution_accepted_iff "0" 0 hCalled hReads hWrites fun _ _ _ => rfl).mpr ?_
  intro key value hValue _
  cases mem_singleton.mp (AList.mem_lookup_iff.mp hValue)
  decide

/-- The least value of the upper half: the context records `2 ^ 255`, the re-execution
`-2 ^ 255`. -/
theorem large_blind_store_rejected : (∃ called,
      (blindBank (2 ^ 255)).reExecute (bankContext "write") (fun _ => none) = .ok called ∧
        (∀ key, called.rMap.lookup key = (∅ : Storage).lookup key) ∧
        ∀ key, called.wMap.lookup key = (AList.singleton 0 (2 ^ 255) : Storage).lookup key) ∧
    ((blindBank (2 ^ 255)).ReExecuteAndValidateTransactionWithState (bankContext "write")
      (CapturedSets.RWNodesToContext (CreateRWNode "0" 0 "SmallBank" (capturedPairs ∅)
        (capturedPairs (AList.singleton 0 (2 ^ 255))))).writeDelta (fun _ => none)).toOption =
      some (false, [(storageKey 0, -2 ^ 255)]) :=
  ⟨blindBank_called _, by decide +kernel⟩

end Validation

end Nezha
