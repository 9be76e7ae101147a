import NezhaConcurrency.Library.HexText
import NezhaConcurrency.State.StateOverride

/-! The texts of addresses, slots and canonical keys, and what the parsers make of them. -/
namespace Nezha.State

open GoString HexText List

/-- The lowercase text of a byte string. -/
def zeroX (bytes : List UInt8) : String := "0x" ++ String.ofList (chars bytes)

@[simp] theorem toList_zeroX (bytes : List UInt8) :
    (zeroX bytes).toList = '0' :: 'x' :: chars bytes := by
  simp [zeroX]

/-- The 20 bytes of an address. -/
def addressBytes (addr : Address) : List UInt8 := BigEndian.leftPad 20 (BigEndian.bytes addr)

/-- The 32 bytes of a slot or a value. -/
def hashBytes (hash : Hash) : List UInt8 := BigEndian.leftPad 32 (BigEndian.bytes hash)

variable {addr : Address}

theorem length_addressBytes (h : addr < 2 ^ 160) : (addressBytes addr).length = 20 :=
  BigEndian.length_leftPad (BigEndian.length_bytes_le (by norm_num at h ⊢; exact h))

theorem length_hashBytes {hash : Hash} (h : hash < 2 ^ 256) : (hashBytes hash).length = 32 :=
  BigEndian.length_leftPad (BigEndian.length_bytes_le (by norm_num at h ⊢; exact h))

/-! ### Reading hexadecimal texts -/

theorem bytesOf_ofList {cs : List Char} (h : ∀ c ∈ cs, c.toNat < 128) :
    bytesOf (String.ofList cs) = cs.map fun c => UInt8.ofNat c.toNat := by
  have hChar : ∀ c ∈ cs, String.utf8EncodeChar c = [UInt8.ofNat c.toNat] := by
    intro c hc
    have hSmall : c.val.toNat ≤ 127 := Nat.le_of_lt_succ (h c hc)
    rw [String.utf8EncodeChar]
    exact if_pos hSmall
  have hBytes : bytesOf (String.ofList cs) = cs.flatMap String.utf8EncodeChar := by
    rw [bytesOf, String.toUTF8, String.toByteArray_ofList, List.utf8Encode]
    simp
  rw [hBytes, flatMap_congr hChar]
  exact flatMap_pure_eq_map _ _

theorem fromHexChar_of_toLower {c : Char} {n : Nat} (hn : n < 16) (h : c.toLower = digit n) :
    isHexCharacter (UInt8.ofNat c.toNat) = true ∧
      fromHexChar (UInt8.ofNat c.toNat) = UInt8.ofNat n := by
  rcases eq_of_toLower_eq_digit hn h with rfl | rfl
  · interval_cases n <;> decide
  · interval_cases n <;> decide

theorem hex2Bytes_of_spells {text : List Char} {bytes : List UInt8} (h : Spells text bytes) :
    Hex2Bytes (text.map fun c => UInt8.ofNat c.toNat) = bytes := by
  induction bytes generalizing text with
  | nil =>
    rw [Spells, chars, flatMap_nil, map_eq_nil_iff] at h
    rw [h]
    rfl
  | cons b bytes ih =>
    have hb := b.toNat_lt
    obtain ⟨high, low, rest, rfl, hHigh, hLow, hRest⟩ := h.cons
    obtain ⟨hIsHigh, hHighValue⟩ := fromHexChar_of_toLower (by omega) hHigh
    obtain ⟨hIsLow, hLowValue⟩ := fromHexChar_of_toLower (by omega) hLow
    rw [map_cons, map_cons, Hex2Bytes, hIsHigh, hIsLow, hHighValue, hLowValue, ih hRest]
    have hByte : UInt8.ofNat (b.toNat / 16) * 16 + UInt8.ofNat (b.toNat % 16) = b := by
      apply UInt8.toNat_inj.mp
      simp
      omega
    simp [hByte]

/-- A text that starts with `0x` or `0X`, with digits in any letter case. -/
theorem chars_of_toLower_eq_zeroX {text : String} {bytes : List UInt8}
    (h : ToLower text = zeroX bytes) :
    ∃ x rest, text.toList = '0' :: x :: rest ∧ (x = 'x' ∨ x = 'X') ∧ Spells rest bytes := by
  have hChars := congrArg String.toList h
  rw [toList_toLower, toList_zeroX] at hChars
  obtain ⟨zero, tail, hText, hZero, hTail⟩ := map_eq_cons_iff.mp hChars
  obtain ⟨x, rest, rfl, hX, hRest⟩ := map_eq_cons_iff.mp hTail
  refine ⟨x, rest, ?_, ?_, hRest⟩
  · rw [hText]
    rcases eq_of_toLower_eq_digit (by norm_num : 0 < 16) hZero with rfl | rfl
    · rfl
    · rfl
  · have hNat := congrArg Char.toNat hX
    rw [toNat_toLower] at hNat
    rw [← Char.toNat_inj, ← Char.toNat_inj]
    change x.toNat = 120 ∨ x.toNat = 88
    change _ = 120 at hNat
    split_ifs at hNat <;> omega

theorem fromHex_of_toLower {text : String} {bytes : List UInt8} (h : ToLower text = zeroX bytes) :
    FromHex text = bytes := by
  obtain ⟨x, rest, hText, hX, hRest⟩ := chars_of_toLower_eq_zeroX h
  have hAscii : ∀ c ∈ text.toList, c.toNat < 128 := by
    rw [hText]
    refine forall_mem_cons.mpr ⟨by decide, forall_mem_cons.mpr ⟨?_, hRest.ascii⟩⟩
    rcases hX with rfl | rfl <;> decide
  have hBytes : bytesOf text =
      48 :: UInt8.ofNat x.toNat :: rest.map fun c => UInt8.ofNat c.toNat := by
    rw [← String.ofList_toList (s := text), bytesOf_ofList hAscii, hText]
    rfl
  have hDigits : digits text = rest.map fun c => UInt8.ofNat c.toNat := by
    have hStart : has0xPrefix (bytesOf text) = true := by
      rw [hBytes]
      rcases hX with rfl | rfl <;> rfl
    rw [digits, if_pos hStart, hBytes]
    rfl
  have hEven : ¬ (digits text).length % 2 = 1 := by
    rw [hDigits, length_map, hRest.length]
    omega
  rw [FromHex, if_neg hEven, hDigits, hex2Bytes_of_spells hRest]

theorem hexToAddress_of_toLower {text : String} (hAddr : addr < 2 ^ 160)
    (h : ToLower text = zeroX (addressBytes addr)) : HexToAddress text = addr := by
  rw [HexToAddress, fromHex_of_toLower h, cropped, length_addressBytes hAddr, Nat.sub_self,
    drop_zero, addressBytes, BigEndian.value_leftPad, BigEndian.value_bytes]

theorem hexToHash_of_toLower {text : String} {hash : Hash} (hHash : hash < 2 ^ 256)
    (h : ToLower text = zeroX (hashBytes hash)) : HexToHash text = hash := by
  rw [HexToHash, fromHex_of_toLower h, cropped, length_hashBytes hHash, Nat.sub_self,
    drop_zero, hashBytes, BigEndian.value_leftPad, BigEndian.value_bytes]

theorem toLower_zeroX (bytes : List UInt8) : ToLower (zeroX bytes) = zeroX bytes := by
  apply String.toList_inj.mp
  rw [toList_toLower, toList_zeroX, map_cons, map_cons, chars_lower]
  rfl

/-! ### The texts of addresses and hashes -/

/-- A letter is in uppercase if the hash has a high digit at its place. -/
def checksumChar (hash : List UInt8) (i : Nat) (c : Char) : Char :=
  let hashByte := hash.getD (i / 2) 0
  let hashDigit := if i % 2 = 0 then hashByte.toNat / 16 else hashByte.toNat % 16
  if '9' < c ∧ 7 < hashDigit then Char.ofNat (c.toNat - 32) else c

/-- `common.Address.Hex`. The hash is that of the lowercase digits. -/
def checksumHex (keccak256 : List UInt8 → Fin 32 → UInt8) (addr : Address) : String :=
  let lower := chars (addressBytes addr)
  let hash := List.ofFn (keccak256 (lower.map fun c => UInt8.ofNat c.toNat))
  "0x" ++ String.ofList (lower.mapIdx (checksumChar hash))

/-- `common.Hash.Hex` -/
def hashHex (hash : Hash) : String := zeroX (hashBytes hash)

theorem toLower_uppercase {n : Nat} (hn : n < 16) (h : '9' < digit n) :
    (Char.ofNat ((digit n).toNat - 32)).toLower = digit n := by
  interval_cases n
  all_goals first | rfl | exact absurd h (by decide)

theorem toLower_checksumChar (hash : List UInt8) (i : Nat) {n : Nat} (hn : n < 16) :
    (checksumChar hash i (digit n)).toLower = digit n := by
  unfold checksumChar
  extract_lets hashByte hashDigit
  by_cases hUpper : '9' < digit n ∧ 7 < hashDigit
  · rw [if_pos hUpper]
    exact toLower_uppercase hn hUpper.1
  · rw [if_neg hUpper]
    exact digit_lower hn

theorem toLower_checksumHex (keccak256 : List UInt8 → Fin 32 → UInt8) (addr : Address) :
    ToLower (checksumHex keccak256 addr) = zeroX (addressBytes addr) := by
  have hLower : ∀ (hash : List UInt8) (bytes : List UInt8),
      ((chars bytes).mapIdx (checksumChar hash)).map Char.toLower = chars bytes := by
    intro hash bytes
    refine ext_getElem (by simp) fun i hi hi' => ?_
    obtain ⟨n, hn, hDigit⟩ := exists_digit_of_mem_chars (getElem_mem hi')
    rw [getElem_map, getElem_mapIdx, hDigit, toLower_checksumChar hash i hn]
  apply String.toList_inj.mp
  simp [checksumHex, hLower]

/-! ### Canonical keys -/

theorem colon_notMem_zeroX (bytes : List UInt8) : ':' ∉ (zeroX bytes).toList := by
  rw [toList_zeroX, mem_cons, mem_cons]
  rintro (h | h | h)
  · cases h
  · cases h
  · obtain ⟨n, hn, hDigit⟩ := exists_digit_of_mem_chars h
    have hNat := congrArg Char.toNat hDigit
    rw [toNat_digit hn] at hNat
    change 58 = _ at hNat
    split_ifs at hNat <;> omega

/-- The key of a field of an account. -/
def acctKeyText (addr : Address) (field : String) : String :=
  "acct:" ++ zeroX (addressBytes addr) ++ ":" ++ field

/-- The key of a slot. -/
def slotKeyText (addr : Address) (slot : Hash) : String :=
  "slot:" ++ zeroX (addressBytes addr) ++ ":" ++ zeroX (hashBytes slot)

theorem SplitN_acctKeyText (addr : Address) (field : String) :
    SplitN (acctKeyText addr field) ':' 3 = ["acct", zeroX (addressBytes addr), field] :=
  SplitN_three (by decide) (colon_notMem_zeroX _) (by simp [acctKeyText])

theorem SplitN_slotKeyText (addr : Address) (slot : Hash) : SplitN (slotKeyText addr slot) ':' 3 =
      ["slot", zeroX (addressBytes addr), zeroX (hashBytes slot)] :=
  SplitN_three (by decide) (colon_notMem_zeroX _) (by simp [slotKeyText])

theorem hexToAddress_zeroX (h : addr < 2 ^ 160) : HexToAddress (zeroX (addressBytes addr)) = addr :=
  hexToAddress_of_toLower h (toLower_zeroX _)

theorem hexToHash_zeroX {hash : Hash} (h : hash < 2 ^ 256) :
    HexToHash (zeroX (hashBytes hash)) = hash :=
  hexToHash_of_toLower h (toLower_zeroX _)

theorem parseLevmCanonicalKey_acct (h : addr < 2 ^ 160) (field : String) :
    parseLevmCanonicalKey (acctKeyText addr field) = some (.acct addr field) := by
  rw [parseLevmCanonicalKey, SplitN_acctKeyText]
  simp [hexToAddress_zeroX h]

theorem parseLevmCanonicalKey_slot {slot : Hash} (hAddr : addr < 2 ^ 160) (hSlot : slot < 2 ^ 256) :
    parseLevmCanonicalKey (slotKeyText addr slot) = some (.slot addr slot) := by
  rw [parseLevmCanonicalKey, SplitN_slotKeyText]
  simp [hexToAddress_zeroX hAddr, hexToHash_zeroX hSlot]

/-- The canonical key of a field or a slot. -/
def Tracked.text : Tracked → String
  | .balance addr => acctKeyText addr "balance"
  | .nonce addr => acctKeyText addr "nonce"
  | .code addr => acctKeyText addr "code"
  | .exist addr => acctKeyText addr "exist"
  | .slot addr index => slotKeyText addr index

/-- The address has 20 bytes, and the slot 32. -/
structure Tracked.Sized (key : Tracked) : Prop where
  addr : key.addr < 2 ^ 160
  slot : ∀ addr index, key = .slot addr index → index < 2 ^ 256

theorem trackedKey_text {key : Tracked} (h : key.Sized) : trackedKey key.text = some key := by
  obtain ⟨hAddr, hSlot⟩ := h
  cases key with
  | slot addr index =>
    change addr < 2 ^ 160 at hAddr
    rw [trackedKey, Tracked.text, parseLevmCanonicalKey_slot hAddr (hSlot addr index rfl)]
    rfl
  | balance addr | nonce addr | code addr | exist addr =>
    change addr < 2 ^ 160 at hAddr
    rw [trackedKey, Tracked.text, parseLevmCanonicalKey_acct hAddr]
    rfl

theorem Tracked.text_inj {key other : Tracked} (h : key.Sized) (hOther : other.Sized)
    (hText : key.text = other.text) : key = other := by
  have hKey := congrArg trackedKey hText
  rw [trackedKey_text h, trackedKey_text hOther] at hKey
  exact Option.some.inj hKey

/-- The keys of the slots of a contract. -/
def storageKeysToStrings (keccak256 : List UInt8 → Fin 32 → UInt8) (m : List Hash)
    (contractAddr : Address) : List String :=
  m.map fun k => "slot:" ++ ToLower (checksumHex keccak256 contractAddr) ++ ":" ++ hashHex k

theorem storageKeysToStrings_eq (keccak256 : List UInt8 → Fin 32 → UInt8) (m : List Hash)
    (contractAddr : Address) :
    storageKeysToStrings keccak256 m contractAddr = m.map (slotKeyText contractAddr) := by
  rw [storageKeysToStrings, toLower_checksumHex]
  rfl

/-- The address in the key of a slot. -/
def slotKeyContractAddr (key : String) : Option String :=
  match SplitN key ':' 3 with
  | [start, addr, _] =>
    if start ≠ "slot" then none
    else if addr.toList.length ≠ 42 ∨ HasPrefix addr "0x" = false then none
    else some (ToLower addr)
  | _ => none

theorem hasPrefix_zeroX (bytes : List UInt8) : HasPrefix (zeroX bytes) "0x" = true := by
  rw [HasPrefix, toList_zeroX]
  simp

theorem slotKeyContractAddr_slotKeyText (h : addr < 2 ^ 160) (slot : Hash) :
    slotKeyContractAddr (slotKeyText addr slot) = some (zeroX (addressBytes addr)) := by
  have hLength : (zeroX (addressBytes addr)).toList.length = 42 := by
    rw [toList_zeroX, length_cons, length_cons, length_chars, length_addressBytes h]
  rw [slotKeyContractAddr, SplitN_slotKeyText]
  simp only [hLength, hasPrefix_zeroX, toLower_zeroX]
  rfl

end Nezha.State
