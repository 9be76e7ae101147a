import NezhaConcurrency.Contract.AccessKeys

/-! Storage keys over all 64-bit slots and account numbers. Both numbers are converted to
signed ones on the way to their bytes, and the bytes of a negative number are those of its
magnitude. -/
namespace Nezha

/-- What `int64Bytes` writes down. -/
def int64Magnitude (n : Nat) : Nat := (Int.bmod n (2 ^ 64)).natAbs

theorem int64Magnitude_eq {n : Nat} (h : n < 2 ^ 64) :
    int64Magnitude n = if n ≤ 2 ^ 63 then n else 2 ^ 64 - n := by
  have hBmod : Int.bmod n (2 ^ 64) = if n < 2 ^ 63 then (n : Int) else n - 2 ^ 64 := by
    rw [Int.bmod_def]
    omega
  unfold int64Magnitude
  rw [hBmod]
  split_ifs <;> omega

theorem int64Magnitude_eq_self_iff {n : Nat} (h : n < 2 ^ 64) :
    int64Magnitude n = n ↔ n ≤ 2 ^ 63 := by
  rw [int64Magnitude_eq h]
  split_ifs <;> omega

/-- A small number shares its magnitude with the number that is negative and as large. -/
theorem int64Magnitude_inj_iff {n n' : Nat} (h : n ≤ 2 ^ 63) (h' : n' < 2 ^ 64) :
    int64Magnitude n = int64Magnitude n' ↔ n = n' ∨ n + n' = 2 ^ 64 := by
  rw [int64Magnitude_eq (lt_of_le_of_lt h (by norm_num)), int64Magnitude_eq h', if_pos h]
  split_ifs <;> omega

/-- A number as a word of 32 bytes. -/
def wordBytes32 (n : Nat) : List UInt8 := BigEndian.leftPad 32 (BigEndian.bytes n)

theorem wordBytes32_inj {n n' : Nat} : wordBytes32 n = wordBytes32 n' ↔ n = n' :=
  BigEndian.leftPad_bytes_inj

theorem length_wordBytes32 {n : Nat} (h : n < 2 ^ 64) : (wordBytes32 n).length = 32 :=
  BigEndian.length_leftPad (BigEndian.length_bytes_le (lt_of_lt_of_le h (by norm_num)))

theorem int64Magnitude_lt {n : Nat} (h : n < 2 ^ 64) : int64Magnitude n < 2 ^ 64 := by
  rw [int64Magnitude_eq h]
  split_ifs <;> omega

theorem char_of_decimal {n : Nat} {c : Char} (h : c ∈ (toString n).toList) :
    Char.ofNat (UInt8.ofNat c.toNat).toNat = c := by
  have hDigit : c.isDigit = true :=
    Nat.isDigit_of_mem_toDigits (by norm_num) (le_refl 10) (by simpa [Nat.repr] using h)
  have hNine : c.val ≤ 57 := by simpa [Char.isDigit] using (Bool.and_eq_true_iff.mp hDigit).2
  have hSmall : c.toNat ≤ 57 := UInt32.le_iff_toNat_le.mp hNine
  rw [UInt8.toNat_ofNat', Nat.mod_eq_of_lt (by omega), Char.ofNat_toNat]

theorem decimalBytes_injective : Function.Injective decimalBytes := by
  have hBack : ∀ m, (decimalBytes m).map (fun b => Char.ofNat b.toNat) = (toString m).toList := by
    intro m
    rw [decimalBytes, List.map_map]
    exact (List.map_congr_left fun c hc => char_of_decimal hc).trans (List.map_id _)
  intro n n' h
  refine Nat.repr_inj.mp (String.toList_inj.mp ?_)
  exact (hBack n).symm.trans ((congrArg _ h).trans (hBack n'))

namespace ContractManager

variable (cm : ContractManager)

/-- The key by the storage layout of Solidity. -/
def solidityKey (mappingDef : StorageMapping) (n : Nat) : List UInt8 :=
  match mappingDef.KeyType with
  | .simple => wordBytes32 mappingDef.Slot
  | .string => cm.keccak256 (decimalBytes n ++ wordBytes32 mappingDef.Slot)
  | .other _ => cm.keccak256 (wordBytes32 n ++ wordBytes32 mappingDef.Slot)

theorem slotBytes_eq (mappingDef : StorageMapping) :
    slotBytes mappingDef = wordBytes32 (int64Magnitude mappingDef.Slot) := rfl

/-- What is hashed for an account in front of the slot. -/
def accountBytes (keyType : KeyType) (n : Nat) : List UInt8 :=
  if keyType = .string then decimalBytes n else wordBytes32 (int64Magnitude n)

section Keys

variable {cm} {contractName mappingName : String} {mappingDef : StorageMapping}
  (hEntry : cm.findMapping "mapping" contractName mappingName = .ok mappingDef)

include hEntry

theorem GetStorageKey_eq (n : Nat) : cm.GetStorageKey contractName mappingName n =
    .ok (cm.entryKey mappingDef (accountBytes mappingDef.KeyType n)) := by
  rw [GetStorageKey, hEntry]
  rfl

theorem GetStorageKeyWithValue_eq (keyValue : List UInt8) :
    cm.GetStorageKeyWithValue contractName mappingName keyValue =
      .ok (cm.entryKey mappingDef (if mappingDef.KeyType = .string then keyValue
        else BigEndian.leftPad 32 keyValue)) := by
  rw [GetStorageKeyWithValue, hEntry]
  rfl

end Keys

section Mapping

variable {cm} (hKeccak : Function.Injective cm.keccak256) {mappingDef : StorageMapping}
  (hMapping : mappingDef.KeyType ≠ .simple)

include hKeccak hMapping

theorem entryKey_inj {front front' : List UInt8} :
    cm.entryKey mappingDef front = cm.entryKey mappingDef front' ↔ front = front' := by
  rw [entryKey, entryKey, if_neg hMapping, if_neg hMapping, hKeccak.eq_iff, List.append_left_inj]

end Mapping

/-- The value for which the other function should give the same key. -/
def keyValueOf (keyType : KeyType) (n : Nat) : List UInt8 :=
  if keyType = .string then decimalBytes n else BigEndian.bytes n

/-- The key is Solidity's, and that of the value. Another account has another key. -/
structure StorageKeyRight (contractName mappingName : String) (mappingDef : StorageMapping)
    (n n' : Nat) : Prop where
  solidity : cm.GetStorageKey contractName mappingName n = .ok (cm.solidityKey mappingDef n)
  withValue : cm.GetStorageKey contractName mappingName n =
    cm.GetStorageKeyWithValue contractName mappingName (keyValueOf mappingDef.KeyType n)
  distinct : mappingDef.KeyType ≠ .simple → n ≠ n' →
    cm.GetStorageKey contractName mappingName n ≠ cm.GetStorageKey contractName mappingName n'

section Right

variable {cm} (hKeccak : Function.Injective cm.keccak256) {contractName mappingName : String}
  {mappingDef : StorageMapping}
  (hEntry : cm.findMapping "mapping" contractName mappingName = .ok mappingDef)
  (hSlot : mappingDef.Slot < 2 ^ 64) {n n' : Nat} (hn : n < 2 ^ 64) (hn' : n' < 2 ^ 64)

/-- The entry is a mapping with keys that are numbers. -/
def NumberKeyed (mappingDef : StorageMapping) : Prop :=
  mappingDef.KeyType ≠ .simple ∧ mappingDef.KeyType ≠ .string

include hKeccak hEntry hSlot hn in
theorem GetStorageKey_eq_solidity_iff :
    cm.GetStorageKey contractName mappingName n = .ok (cm.solidityKey mappingDef n) ↔
      mappingDef.Slot ≤ 2 ^ 63 ∧ (NumberKeyed mappingDef → n ≤ 2 ^ 63) := by
  have hSlotIff : wordBytes32 (int64Magnitude mappingDef.Slot) = wordBytes32 mappingDef.Slot ↔
      mappingDef.Slot ≤ 2 ^ 63 := wordBytes32_inj.trans (int64Magnitude_eq_self_iff hSlot)
  rw [GetStorageKey_eq hEntry, Except.ok.injEq, entryKey, slotBytes_eq, solidityKey, NumberKeyed]
  cases hType : mappingDef.KeyType with
  | simple => simpa using hSlotIff
  | string => simpa [accountBytes, hKeccak.eq_iff] using hSlotIff
  | other name =>
    have hLength : (wordBytes32 (int64Magnitude n)).length = (wordBytes32 n).length := by
      rw [length_wordBytes32 (int64Magnitude_lt hn), length_wordBytes32 hn]
    simp only [accountBytes, reduceCtorEq, if_false, hKeccak.eq_iff, ne_eq, not_false_eq_true,
      and_self, forall_const]
    rw [List.append_eq_append_iff_of_size_eq_left hLength, hSlotIff, wordBytes32_inj,
      int64Magnitude_eq_self_iff hn, and_comm]

include hKeccak hEntry hn in
theorem GetStorageKey_eq_withValue_iff : cm.GetStorageKey contractName mappingName n =
        cm.GetStorageKeyWithValue contractName mappingName (keyValueOf mappingDef.KeyType n) ↔
      (NumberKeyed mappingDef → n ≤ 2 ^ 63) := by
  rw [GetStorageKey_eq hEntry, GetStorageKeyWithValue_eq hEntry, Except.ok.injEq, NumberKeyed]
  by_cases hSimple : mappingDef.KeyType = .simple
  · simp [entryKey, hSimple]
  rw [entryKey_inj hKeccak hSimple, accountBytes, keyValueOf]
  by_cases hString : mappingDef.KeyType = .string
  · simp [hString]
  · rw [if_neg hString, if_neg hString, if_neg hString]
    change wordBytes32 (int64Magnitude n) = wordBytes32 n ↔ _
    rw [wordBytes32_inj, int64Magnitude_eq_self_iff hn]
    exact ⟨fun h _ => h, fun h => h ⟨hSimple, hString⟩⟩

include hKeccak hEntry hn' in
theorem GetStorageKey_inj_iff (hSmall : NumberKeyed mappingDef → n ≤ 2 ^ 63) :
    (mappingDef.KeyType ≠ .simple → n ≠ n' →
      cm.GetStorageKey contractName mappingName n ≠ cm.GetStorageKey contractName mappingName n') ↔
      (NumberKeyed mappingDef → n + n' = 2 ^ 64 → n = n') := by
  rw [GetStorageKey_eq hEntry, GetStorageKey_eq hEntry, ne_eq, ne_eq, not_imp_not, Except.ok.injEq,
    NumberKeyed, and_imp]
  refine imp_congr_right fun hMapping => ?_
  rw [entryKey_inj hKeccak hMapping, accountBytes, accountBytes]
  by_cases hString : mappingDef.KeyType = .string
  · simp [hString, decimalBytes_injective.eq_iff]
  · rw [if_neg hString, if_neg hString, wordBytes32_inj,
      int64Magnitude_inj_iff (hSmall ⟨hMapping, hString⟩) hn']
    exact ⟨fun h _ hSum => h (Or.inr hSum), fun h hSame => hSame.elim id (h hString)⟩

include hKeccak hEntry hSlot hn hn' in
/-- The key is right for the slots and the numbers up to `2 ^ 63`. A larger number that
is the key of a mapping gets the key of a smaller one. -/
theorem storageKeyRight_iff : cm.StorageKeyRight contractName mappingName mappingDef n n' ↔
    mappingDef.Slot ≤ 2 ^ 63 ∧
      (NumberKeyed mappingDef → n ≤ 2 ^ 63 ∧ (n + n' = 2 ^ 64 → n = n')) := by
  have hSolidity := GetStorageKey_eq_solidity_iff hKeccak hEntry hSlot hn
  have hValue := GetStorageKey_eq_withValue_iff hKeccak hEntry hn
  constructor
  · rintro ⟨hKey, _, hDistinct⟩
    obtain ⟨hSmallSlot, hSmall⟩ := hSolidity.mp hKey
    have hOther := (GetStorageKey_inj_iff hKeccak hEntry hn' hSmall).mp hDistinct
    exact ⟨hSmallSlot, fun hNumber => ⟨hSmall hNumber, hOther hNumber⟩⟩
  · rintro ⟨hSmallSlot, hSmall⟩
    refine ⟨hSolidity.mpr ⟨hSmallSlot, fun h => (hSmall h).1⟩, hValue.mpr fun h => (hSmall h).1, ?_⟩
    exact (GetStorageKey_inj_iff hKeccak hEntry hn' fun h => (hSmall h).1).mpr fun h => (hSmall h).2

end Right

end ContractManager

section Ledger

/-- A contract with one mapping from numbers. The hash is the identity. -/
def ledger : ContractManager :=
  ⟨[("Ledger", [⟨"balances", 3, .other "uint256"⟩])], id⟩

theorem ledger_key_right :
    ledger.StorageKeyRight "Ledger" "balances" ⟨"balances", 3, .other "uint256"⟩ 7 8 :=
  (ContractManager.storageKeyRight_iff Function.injective_id rfl (by decide) (by decide)
    (by decide)).mpr ⟨by decide, fun _ => ⟨by decide, by decide⟩⟩

/-- The last account and the first share a key. -/
theorem ledger_keys_collide : Function.Injective ledger.keccak256 ∧
      ledger.GetStorageKey "Ledger" "balances" (2 ^ 64 - 1) =
        ledger.GetStorageKey "Ledger" "balances" 1 :=
  ⟨Function.injective_id, by decide +kernel⟩

end Ledger

end Nezha
