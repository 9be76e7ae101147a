import NezhaConcurrency.Core.DepurgeSetup
import NezhaConcurrency.Library.BigEndian

/-! The storage keys of described accesses. A transaction's accesses are described by
an account and a field. The scheduler's keys are computed from the description before
the run, the keys that a worker checks against are computed again from the current
state, and the two derivations differ. -/
namespace Nezha

open List

inductive KeyType where
  | simple
  | string
  | other (name : String)
  deriving DecidableEq, Repr

def KeyType.text : KeyType → String
  | .simple => "simple"
  | .string => "string"
  | .other name => name

structure StorageMapping where
  MappingName : String
  Slot : Nat
  KeyType : KeyType
  deriving DecidableEq, Repr

/-- The contracts with their storage layouts, and the hash function. -/
structure ContractManager where
  Contracts : List (String × List StorageMapping)
  keccak256 : List UInt8 → List UInt8

/-- `string(bytes)`, one character for each byte. -/
def byteString (bytes : List UInt8) : String :=
  String.ofList (bytes.map fun b => Char.ofNat b.toNat)

/-- A decimal number as bytes. -/
def decimalBytes (n : Nat) : List UInt8 :=
  (toString n).toList.map fun c => UInt8.ofNat c.toNat

/-- `big.NewInt(int64(n)).Bytes()` of an unsigned 64-bit number. -/
def int64Bytes (n : Nat) : List UInt8 := BigEndian.bytes (Int.bmod n (2 ^ 64)).natAbs

namespace ContractManager

variable (cm : ContractManager)

def GetContractConfig (contractName : String) : Option (List StorageMapping) :=
  (cm.Contracts.find? fun contract => contract.1 = contractName).map Prod.snd

/-- The entry of a name in the layout of a contract. `what` is how the error calls it. -/
def findMapping (what contractName name : String) : Except String StorageMapping :=
  match cm.GetContractConfig contractName with
  | none => .error ("contract " ++ contractName ++ " not found")
  | some layout =>
    match layout.find? fun mappingDef => mappingDef.MappingName = name with
    | none => .error (what ++ " " ++ name ++ " not found in contract " ++ contractName)
    | some mappingDef => .ok mappingDef

def slotBytes (mappingDef : StorageMapping) : List UInt8 :=
  BigEndian.leftPad 32 (int64Bytes mappingDef.Slot)

/-- The slot itself, or the slot of the entry that `keyBytes` selects. -/
def entryKey (mappingDef : StorageMapping) (keyBytes : List UInt8) : List UInt8 :=
  if mappingDef.KeyType = .simple then slotBytes mappingDef
  else cm.keccak256 (keyBytes ++ slotBytes mappingDef)

def GetStorageKey (contractName mappingName : String) (accountID : Nat) :
    Except String (List UInt8) :=
  (cm.findMapping "mapping" contractName mappingName).map fun mappingDef =>
    cm.entryKey mappingDef (if mappingDef.KeyType = .string then decimalBytes accountID
        else BigEndian.leftPad 32 (int64Bytes accountID))

def GetStorageKeyWithValue (contractName mappingName : String) (keyValue : List UInt8) :
    Except String (List UInt8) :=
  (cm.findMapping "mapping" contractName mappingName).map fun mappingDef =>
    cm.entryKey mappingDef
      (if mappingDef.KeyType = .string then keyValue else BigEndian.leftPad 32 keyValue)

def GetGlobalVarKey (contractName varName : String) : Except String (List UInt8) :=
  match cm.findMapping "variable" contractName varName with
  | .error err => .error err
  | .ok mappingDef =>
    if mappingDef.KeyType ≠ .simple then
      .error ("variable " ++ varName ++ " is not a global variable (key_type: " ++
        mappingDef.KeyType.text ++ ")")
    else .ok (slotBytes mappingDef)

/-- Where the data of a dynamic variable starts. -/
def GetGlobalVarKeccakSlotKey (contractName varName : String) : Except String (List UInt8) :=
  (cm.findMapping "variable" contractName varName).map fun mappingDef =>
    cm.keccak256 (slotBytes mappingDef)

def GetGlobalVarNames (contractName : String) : List String :=
  ((cm.GetContractConfig contractName).getD []).filterMap fun mapping =>
    if mapping.KeyType = .simple then some mapping.MappingName else none

end ContractManager

structure LLMAccess where
  Account : String
  Field : String
  deriving DecidableEq, Repr

structure CrossContractCall where
  Contract : String
  Function : String

structure LLMResponse where
  Reads : List LLMAccess
  Writes : List LLMAccess
  CrossCalls : List CrossContractCall

/-- The key of an access before the run. There is no state yet, so the entry that a
global variable selects is taken to be that of account zero. -/
def processAccess (cm : ContractManager) (contractName : String) (addr1 addr2 : Nat)
    (access : LLMAccess) : Except String (List UInt8) :=
  if access.Account = "global" then cm.GetStorageKey contractName access.Field 0
  else if access.Account = "addr1" then cm.GetStorageKey contractName access.Field addr1
  else if access.Account = "addr2" then cm.GetStorageKey contractName access.Field addr2
  else if access.Account ∈ cm.GetGlobalVarNames contractName then
    cm.GetStorageKey contractName access.Field 0
  else cm.GetStorageKey contractName access.Field 0

/-- The keys of the accesses that have one. -/
def accessKeys (cm : ContractManager) (contractName : String) (addr1 addr2 : Nat)
    (accesses : List LLMAccess) : List (List UInt8) :=
  accesses.filterMap fun access =>
    match processAccess cm contractName addr1 addr2 access with
    | .ok key => some key
    | .error _ => none

/-- The keys read and written. The values are all zero, hence empty. -/
def llmResponseToRWSet (cm : ContractManager) (contractName : String) (resp : LLMResponse)
    (addr1 addr2 : Nat) : List (List UInt8) × List (List UInt8) :=
  (accessKeys cm contractName addr1 addr2 resp.Reads,
    accessKeys cm contractName addr1 addr2 resp.Writes)

/-- The keys of the contracts that a function calls, unless one is not analysed. -/
def mergeCrossContractRWSet (cm : ContractManager)
    (llmCache : String → String → Option LLMResponse) (resp : LLMResponse) (addr1 addr2 : Nat) :
    Option (List (List UInt8) × List (List UInt8)) :=
  resp.CrossCalls.foldlM (fun extra cc =>
    (llmCache cc.Contract cc.Function).map fun subResp =>
      let sub := llmResponseToRWSet cm cc.Contract subResp addr1 addr2
      (extra.1 ++ sub.1, extra.2 ++ sub.2)) ([], [])

/-- A context with what a validation worker reads of it. -/
structure LLMContext extends TransactionContext where
  ContractName : String
  Function : String
  Addr1 : Nat
  Addr2 : Nat
  LLMReads : List LLMAccess
  LLMWrites : List LLMAccess

/-- The context of an analysed transaction. Without one the transaction is executed
for its keys instead, and its context has no accesses. -/
def llmContext (cm : ContractManager) (llmCache : String → String → Option LLMResponse)
    (txID contractName function : String) (addr1 addr2 : Nat) : Option LLMContext :=
  (llmCache contractName function).bind fun llmResp =>
    (mergeCrossContractRWSet cm llmCache llmResp addr1 addr2).map fun extra =>
      let own := llmResponseToRWSet cm contractName llmResp addr1 addr2
      { TxID := txID
        PreReadSet := (own.1 ++ extra.1).map fun key => (byteString key, [])
        PreWriteSet := (own.2 ++ extra.2).map fun key => (byteString key, [])
        ContractName := contractName
        Function := function
        Addr1 := addr1
        Addr2 := addr2
        LLMReads := llmResp.Reads
        LLMWrites := llmResp.Writes }

/-- A short string keeps twice its length in the last byte. -/
def decodeSolidityShortString (data : List UInt8) : List UInt8 :=
  match data.getLast? with
  | none => []
  | some lengthMarker =>
    let strLen := (lengthMarker / 2).toNat
    if strLen = 0 then []
    else data.take (if strLen > data.length - 1 then data.length - 1 else strLen)

/-- The keys that were computed without an error, each once. -/
def addKeys (keys : List (Except String (List UInt8))) : List String :=
  uniqueKeys ((keys.filterMap fun key =>
    match key with
    | .ok bytes => some (byteString bytes)
    | .error _ => none).filter (· ≠ ""))

/-- The keys that an access may touch in the current state. -/
def resolveAccessKeys (cm : ContractManager) (contractName : String) (access : LLMAccess)
    (addr1 addr2 : Nat) (currentState : String → Option (List UInt8)) : List String :=
  if access.Account = "global" then
    match cm.GetGlobalVarKey contractName access.Field with
    | .error _ => []
    | .ok key => addKeys [.ok key, cm.GetGlobalVarKeccakSlotKey contractName access.Field]
  else if access.Account = "addr1" ∨ access.Account = "addr2" then
    addKeys [cm.GetStorageKey contractName access.Field
      (if access.Account = "addr1" then addr1 else addr2)]
  else
    match cm.GetGlobalVarKey contractName access.Account with
    | .error _ => []
    | .ok globalVarKey =>
      let keccakSlotKey := cm.GetGlobalVarKeccakSlotKey contractName access.Account
      let globalVarValue := (currentState (byteString globalVarKey)).getD []
      if globalVarValue = [] then
        match cm.GetStorageKeyWithValue contractName access.Field [] with
        | .error _ => []
        | .ok key => addKeys [.ok key, .ok globalVarKey, keccakSlotKey]
      else
        addKeys [ cm.GetStorageKeyWithValue contractName access.Field
              (decodeSolidityShortString globalVarValue),
            cm.GetStorageKeyWithValue contractName access.Field [],
            .ok globalVarKey, keccakSlotKey ]

/-- The conservative keys of a context in the current state. -/
def recalculateConservativeKeys (cm : ContractManager) (ctx : LLMContext)
    (currentState : String → Option (List UInt8)) : List String :=
  uniqueKeys ((ctx.LLMReads ++ ctx.LLMWrites).flatMap fun access =>
    resolveAccessKeys cm ctx.ContractName access ctx.Addr1 ctx.Addr2 currentState)

theorem mem_addKeys {keys : List (Except String (List UInt8))} {key : String}
    (h : key ∈ addKeys keys) : ∃ bytes, .ok bytes ∈ keys ∧ key = byteString bytes := by
  rw [addKeys, mem_uniqueKeys, mem_filter, mem_filterMap] at h
  obtain ⟨⟨computed, hComputed, hKey⟩, _⟩ := h
  cases computed with
  | error err => cases hKey
  | ok bytes => exact ⟨bytes, hComputed, (Option.some.inj hKey).symm⟩

variable {contractName : String}

theorem mem_accessKeys {cm : ContractManager} {addr1 addr2 : Nat} {accesses : List LLMAccess}
    {access : LLMAccess} {bytes : List UInt8} (hAccess : access ∈ accesses)
    (h : processAccess cm contractName addr1 addr2 access = .ok bytes) :
    bytes ∈ accessKeys cm contractName addr1 addr2 accesses :=
  mem_filterMap.mpr ⟨access, hAccess, by rw [h]⟩

theorem resolve_address {cm : ContractManager} {addr1 addr2 : Nat} {access : LLMAccess}
    (hAddr : access.Account = "addr1" ∨ access.Account = "addr2")
    {currentState : String → Option (List UInt8)} {key : String}
    (h : key ∈ resolveAccessKeys cm contractName access addr1 addr2 currentState) :
    ∃ bytes, processAccess cm contractName addr1 addr2 access = .ok bytes ∧
      key = byteString bytes := by
  have hGlobal : access.Account ≠ "global" := by
    rcases hAddr with hAddr | hAddr <;> rw [hAddr] <;> decide
  rw [resolveAccessKeys, if_neg hGlobal, if_pos hAddr] at h
  obtain ⟨bytes, hBytes, hKey⟩ := mem_addKeys h
  refine ⟨bytes, ?_, hKey⟩
  rw [mem_singleton.mp hBytes, processAccess, if_neg hGlobal]
  rcases hAddr with hAddr | hAddr
  · simp [hAddr]
  · simp [hAddr]

theorem recalculate_subset_of_addresses {cm : ContractManager}
    {llmCache : String → String → Option LLMResponse} {txID function : String} {addr1 addr2 : Nat}
    {ctx : LLMContext}
    (h : llmContext cm llmCache txID contractName function addr1 addr2 = some ctx)
    (hAddr : ∀ access ∈ ctx.LLMReads ++ ctx.LLMWrites, access.Account = "addr1" ∨ access.Account = "addr2")
    (currentState : String → Option (List UInt8)) :
    recalculateConservativeKeys cm ctx currentState ⊆
      DepurgeScheduler.contextKeys ctx.toTransactionContext := by
  obtain ⟨llmResp, _, hMerge⟩ := Option.bind_eq_some_iff.mp h
  obtain ⟨extra, _, rfl⟩ := Option.map_eq_some_iff.mp hMerge
  intro key hKey
  rw [recalculateConservativeKeys, mem_uniqueKeys, mem_flatMap] at hKey
  obtain ⟨access, hAccess, hResolved⟩ := hKey
  obtain ⟨bytes, hBytes, rfl⟩ := resolve_address (hAddr access hAccess) hResolved
  rw [DepurgeScheduler.mem_contextKeys, map_map, map_map]
  rcases mem_append.mp hAccess with hRead | hWrite
  · exact Or.inl (mem_map.mpr ⟨bytes, mem_append_left _ (mem_accessKeys hRead hBytes), rfl⟩)
  · exact Or.inr (mem_map.mpr ⟨bytes, mem_append_left _ (mem_accessKeys hWrite hBytes), rfl⟩)

end Nezha
