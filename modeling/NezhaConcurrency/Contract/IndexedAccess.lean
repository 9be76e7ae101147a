import NezhaConcurrency.Contract.StorageKeys
import NezhaConcurrency.Evm.PooledInstance

/-! Accesses to a mapping at the value of a global variable. The variable is read from the
committed state as a number without leading zeros, whatever its type, and decoded as a short
string. -/
namespace Nezha

open BigEndian ContractManager

/-- The word of a short string: the text, zeros, and twice the length. -/
def solidityShortString (text : List UInt8) : List UInt8 :=
  text ++ List.replicate (31 - text.length) 0 ++ [UInt8.ofNat (2 * text.length)]

/-- The value of a global variable. -/
inductive GlobalValue where
  | text (bytes : List UInt8)
  | number (n : Nat)

namespace GlobalValue

/-- The bytes that `updateCommittedState` stores. -/
def stored : GlobalValue → List UInt8
  | text content => bytes (value (solidityShortString content))
  | number n => bytes n

/-- What Solidity hashes in front of the slot of the mapping. -/
def keyBytes : GlobalValue → List UInt8
  | text content => content
  | number n => wordBytes32 n

/-- The value can index a mapping with keys of this type. -/
def Indexes (keyType : KeyType) : GlobalValue → Prop
  | text content => keyType = .string ∧ content.length ≤ 31
  | number n => keyType ≠ .simple ∧ keyType ≠ .string ∧ n < 2 ^ 256

/-- The decoder gives the value back: a text that does not start with a zero byte, and the
number zero. -/
def Decodes : GlobalValue → Prop
  | text content => content.head? ≠ some 0
  | number n => n = 0

end GlobalValue

theorem decode_prefix (data : List UInt8) : decodeSolidityShortString data <+: data := by
  unfold decodeSolidityShortString
  split
  · exact List.nil_prefix
  · dsimp only
    split_ifs
    · exact List.nil_prefix
    · exact List.take_prefix _ _
    · exact List.take_prefix _ _

/-- The last byte is the marker, so it is never part of the text. -/
theorem length_decode_lt {data : List UInt8} (h : data ≠ []) :
    (decodeSolidityShortString data).length < data.length := by
  have hPos := List.length_pos_iff.mpr h
  unfold decodeSolidityShortString
  split
  · exact hPos
  · dsimp only
    split_ifs
    · exact hPos
    · rw [List.length_take]
      omega
    · rw [List.length_take]
      omega

theorem decode_shortString {text : List UInt8} (h : text.length ≤ 31) :
    decodeSolidityShortString (solidityShortString text) = text := by
  have hHalf : (UInt8.ofNat (2 * text.length) / 2).toNat = text.length := by
    rw [UInt8.toNat_div, UInt8.toNat_ofNat', Nat.mod_eq_of_lt (by omega)]
    exact Nat.mul_div_cancel_left _ (by norm_num)
  have hLength : (solidityShortString text).length = 32 := by
    simp [solidityShortString]
    omega
  have hLast : (solidityShortString text).getLast? = some (UInt8.ofNat (2 * text.length)) := by
    simp [solidityShortString]
  rw [decodeSolidityShortString, hLast]
  dsimp only
  rw [hHalf, hLength, if_neg (by omega : ¬text.length > 32 - 1)]
  split_ifs with hEmpty
  · exact (List.length_eq_zero_iff.mp hEmpty).symm
  · rw [solidityShortString, List.append_assoc, List.take_left]

/-- A number loses at least its last byte. -/
theorem value_decode_lt {n : Nat} (h : 0 < n) :
    value (decodeSolidityShortString (bytes n)) < n := by
  have hBytes : bytes n ≠ [] := fun hNil => by
    have hValue := value_bytes n
    rw [hNil] at hValue
    exact h.ne hValue
  obtain ⟨rest, hRest⟩ := decode_prefix (bytes n)
  have hShort := length_decode_lt hBytes
  have hValue := value_append (decodeSolidityShortString (bytes n)) rest
  have hOne : 256 ^ 1 ≤ 256 ^ rest.length := by
    refine Nat.pow_le_pow_right (by norm_num) ?_
    have hLength := congrArg List.length hRest
    rw [List.length_append] at hLength
    omega
  rw [hRest, value_bytes] at hValue
  nlinarith

/-- What `GetStorageKeyWithValue` hashes in front of the slot. -/
def keyValueBytes (keyType : KeyType) (keyValue : List UInt8) : List UInt8 :=
  if keyType = .string then keyValue else leftPad 32 keyValue

namespace GlobalValue

theorem text_decodes_iff {content : List UInt8} (h : content.length ≤ 31) :
    content = decodeSolidityShortString (text content).stored ∨ content = [] ↔
      (text content).Decodes := by
  constructor
  · rintro (hDecoded | rfl) hZero
    · obtain ⟨rest, hRest⟩ := decode_prefix (text content).stored
      refine head?_bytes (value (solidityShortString content)) ?_
      change (text content).stored.head? = some 0
      rw [← hRest, ← hDecoded, List.head?_append, hZero]
      rfl
    · cases hZero
  · intro hFirst
    by_cases hNil : content = []
    · exact Or.inr hNil
    · left
      have hHead : (solidityShortString content).head? ≠ some 0 := by
        rw [solidityShortString, List.append_assoc, List.head?_append_of_ne_nil _ hNil]
        exact hFirst
      rw [stored, bytes_value hHead, decode_shortString h]

theorem number_decodes_iff (n : Nat) :
    wordBytes32 n = leftPad 32 (decodeSolidityShortString (number n).stored) ∨
      wordBytes32 n = leftPad 32 [] ↔ (number n).Decodes := by
  constructor
  · rintro (h | h)
    · have hValue := congrArg value h
      rw [wordBytes32, value_leftPad, value_bytes, value_leftPad] at hValue
      by_contra hne
      exact absurd hValue (value_decode_lt (Nat.pos_of_ne_zero hne)).ne'
    · have hValue := congrArg value h
      rwa [wordBytes32, value_leftPad, value_bytes, value_leftPad] at hValue
  · rintro rfl
    exact Or.inr rfl

/-- The two keys that the code tries are those of the decoded value and of the empty one. -/
theorem keyBytes_iff {v : GlobalValue} {keyType : KeyType} (hv : v.Indexes keyType) :
    v.keyBytes = keyValueBytes keyType (decodeSolidityShortString v.stored) ∨
      v.keyBytes = keyValueBytes keyType [] ↔ v.Decodes := by
  cases v with
  | text content =>
    rw [hv.1]
    exact text_decodes_iff hv.2
  | number n =>
    rw [keyValueBytes, keyValueBytes, if_neg hv.2.1, if_neg hv.2.1]
    exact number_decodes_iff n

end GlobalValue

theorem mem_addKeys_iff {keys : List (Except String (List UInt8))} {key : List UInt8} :
    byteString key ∈ addKeys keys ↔ .ok key ∈ keys ∧ key ≠ [] := by
  have hEmpty : byteString key = "" ↔ key = [] :=
    byteString_injective.eq_iff' rfl
  constructor
  · intro h
    obtain ⟨bytes, hMem, hKey⟩ := mem_addKeys h
    rw [byteString_injective hKey]
    refine ⟨hMem, fun hNil => ?_⟩
    rw [addKeys, mem_uniqueKeys, List.mem_filter, hKey, hNil] at h
    exact absurd h.2 (by decide)
  · rintro ⟨hMem, hne⟩
    rw [addKeys, mem_uniqueKeys, List.mem_filter, List.mem_filterMap]
    exact ⟨⟨_, hMem, rfl⟩, by simpa [hEmpty] using hne⟩

section Resolve

variable {cm : ContractManager} {contractName : String} {access : LLMAccess} {addr1 addr2 : Nat}
  {currentState : String → Option (List UInt8)} {globalDef mappingDef : StorageMapping}
  {v : GlobalValue}

/-- The account of the access names a simple global variable, its field a mapping, and the state
holds the value of the variable. -/
structure IndexedBy (cm : ContractManager) (contractName : String) (access : LLMAccess)
    (currentState : String → Option (List UInt8)) (globalDef mappingDef : StorageMapping)
    (v : GlobalValue) : Prop where
  account : access.Account ≠ "global" ∧ access.Account ≠ "addr1" ∧ access.Account ≠ "addr2"
  named : cm.findMapping "variable" contractName access.Account = .ok globalDef
  simple : globalDef.KeyType = .simple
  mapping : cm.findMapping "mapping" contractName access.Field = .ok mappingDef
  indexes : v.Indexes mappingDef.KeyType
  held : currentState (byteString (slotBytes globalDef)) = some v.stored
  slots : globalDef.Slot < 2 ^ 64 ∧ mappingDef.Slot < 2 ^ 64

/-- The four keys, an empty value being decoded as the empty text. -/
theorem mem_resolve_iff
    (indexed : IndexedBy cm contractName access currentState globalDef mappingDef v)
    {key : List UInt8} :
    byteString key ∈ resolveAccessKeys cm contractName access addr1 addr2 currentState ↔ key ≠ [] ∧
        (key = cm.entryKey mappingDef
            (keyValueBytes mappingDef.KeyType (decodeSolidityShortString v.stored)) ∨
          key = cm.entryKey mappingDef (keyValueBytes mappingDef.KeyType []) ∨
          key = slotBytes globalDef ∨ key = cm.keccak256 (slotBytes globalDef)) := by
  have hVar : cm.GetGlobalVarKey contractName access.Account = .ok (slotBytes globalDef) := by
    rw [GetGlobalVarKey, indexed.named]
    simp [indexed.simple]
  have hData : cm.GetGlobalVarKeccakSlotKey contractName access.Account =
      .ok (cm.keccak256 (slotBytes globalDef)) := by
    rw [GetGlobalVarKeccakSlotKey, indexed.named]
    rfl
  have hWith : ∀ keyValue, cm.GetStorageKeyWithValue contractName access.Field keyValue =
      .ok (cm.entryKey mappingDef (keyValueBytes mappingDef.KeyType keyValue)) :=
    GetStorageKeyWithValue_eq indexed.mapping
  obtain ⟨hGlobal, hFirst, hSecond⟩ := indexed.account
  rw [resolveAccessKeys, if_neg hGlobal, if_neg (not_or.mpr ⟨hFirst, hSecond⟩), hVar]
  dsimp only
  rw [hData, indexed.held, Option.getD_some, hWith, hWith, and_comm]
  by_cases hEmpty : v.stored = []
  · rw [if_pos hEmpty, mem_addKeys_iff, hEmpty]
    simp [decodeSolidityShortString]
  · rw [if_neg hEmpty, mem_addKeys_iff]
    simp

theorem slot_eq_magnitude_iff {n : Nat} (h : n < 2 ^ 64) :
    wordBytes32 n = wordBytes32 (int64Magnitude n) ↔ n ≤ 2 ^ 63 := by
  rw [wordBytes32_inj, eq_comm, int64Magnitude_eq_self_iff h]

end Resolve

section Pools

/-- Amounts by name and by number, each indexed by a variable. The hash puts a byte in front. -/
def pools : ContractManager :=
  ⟨[("Pools", [⟨"pool", 0, .simple⟩, ⟨"amounts", 1, .string⟩, ⟨"round", 2, .simple⟩,
    ⟨"totals", 3, .other "uint256"⟩])], fun data => 255 :: data⟩

/-- The state in which a variable has a value. -/
def holding (slot : Nat) (v : GlobalValue) : String → Option (List UInt8) := fun key =>
  if key = byteString (wordBytes32 slot) then some v.stored else none

theorem pools_indexed : IndexedBy pools "Pools" ⟨"pool", "amounts"⟩ (holding 0 (.text [97, 98]))
    ⟨"pool", 0, .simple⟩ ⟨"amounts", 1, .string⟩ (.text [97, 98]) :=
  ⟨by decide, rfl, rfl, rfl, ⟨rfl, by decide⟩, if_pos rfl, by decide⟩

theorem pools_hash (data : List UInt8) : pools.keccak256 data ≠ [] ∧
    pools.keccak256 data ≠ slotBytes ⟨"pool", 0, .simple⟩ :=
  have hFirst : some 255 ≠ (slotBytes ⟨"pool", 0, .simple⟩).head? := by decide
  ⟨List.cons_ne_nil _ _, fun h => hFirst (congrArg List.head? h)⟩

end Pools

end Nezha
