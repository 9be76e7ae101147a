import NezhaConcurrency.Contract.KeyDerive
import NezhaConcurrency.Replayd.PreExecute
import NezhaConcurrency.State.KeyTexts

/-! Canonical keys. They are written by the exporter, by the replay daemon, from the storage
that the EVM captures and from the storage layouts of contracts, and they are parsed by the
daemon and by the fallback. Sets of keys from different sources are compared as texts. -/
namespace Nezha.Replayd

open GoString

export State (Tracked)

def AcctKey (addr field : String) : String := "acct:" ++ with0x addr ++ ":" ++ field

def SlotKey (addr slot : String) : String := "slot:" ++ with0x addr ++ ":" ++ with0x slot

theorem acctKey_eq_exporter (addr field : String) : AcctKey addr field = Nezha.AcctKey addr field :=
  rfl

theorem slotKey_eq_exporter (addr slot : String) : SlotKey addr slot = Nezha.SlotKey addr slot := rfl

/-- The parser of the daemon has the parts of the one of the fallback. -/
def parseCanonicalKey (key : String) : Option State.LevmKey :=
  match SplitN key ':' 3 with
  | [start, addr, rest] =>
    if start = "acct" then some (.acct (State.HexToAddress addr) rest)
    else if start = "slot" then some (.slot (State.HexToAddress addr) (State.HexToHash rest))
    else none
  | _ => none

theorem parseCanonicalKey_eq (key : String) :
    parseCanonicalKey key = State.parseLevmCanonicalKey key := rfl

/-- The fields of an account that have keys. -/
def acctFields : List String := ["balance", "nonce", "code", "exist"]

section Texts

/-- The digits of a byte string, with or without `0x`, in any letter case. -/
def HexOf (text : String) (bytes : List UInt8) : Prop :=
  ToLower text = State.zeroX bytes ∨ ToLower text = String.ofList (HexText.chars bytes)

theorem not_hasPrefix_chars (bytes : List UInt8) :
    ¬ HasPrefix (String.ofList (HexText.chars bytes)) "0x" = true := by
  intro h
  have hStart : "0x".toList <+: HexText.chars bytes := by
    simpa only [HasPrefix, String.toList_ofList, List.isPrefixOf_iff_prefix] using h
  have hMem : 'x' ∈ HexText.chars bytes := hStart.subset (show 'x' ∈ "0x".toList by decide)
  obtain ⟨n, hn, hDigit⟩ := HexText.exists_digit_of_mem_chars hMem
  have hNat := congrArg Char.toNat hDigit
  rw [HexText.toNat_digit hn] at hNat
  change 120 = _ at hNat
  split_ifs at hNat <;> omega

theorem HexOf.with0x {text : String} {bytes : List UInt8} (h : HexOf text bytes) :
    Nezha.with0x text = State.zeroX bytes := by
  rcases h with h | h
  · rw [Nezha.with0x, h, if_pos (State.hasPrefix_zeroX bytes)]
  · rw [Nezha.with0x, h, if_neg (not_hasPrefix_chars bytes)]
    rfl

theorem leftPad_leftPad {bytes : List UInt8} (h : bytes.length ≤ 8) :
    BigEndian.leftPad 32 (BigEndian.leftPad 8 bytes) = BigEndian.leftPad 32 bytes := by
  rw [BigEndian.leftPad, BigEndian.length_leftPad h, BigEndian.leftPad, BigEndian.leftPad,
    ← List.append_assoc, List.replicate_append_replicate]
  congr 2
  omega

theorem slotToBytes_eq (n : UInt64) : slotToBytes n = State.hashBytes n.toNat := by
  have hLength : (BigEndian.bytes n.toNat).length ≤ 8 :=
    BigEndian.length_bytes_le (lt_of_lt_of_eq n.toNat_lt (by norm_num))
  rw [slotToBytes, pad32, BigEndian.length_leftPad hLength, if_neg (by norm_num),
    leftPad_leftPad hLength]
  rfl

variable {addr : Address} {slot : Nat} {addrText slotText : String}

theorem acctKey_eq (hAddrText : HexOf addrText (State.addressBytes addr)) (field : String) :
    AcctKey addrText field = State.acctKeyText addr field := by
  rw [AcctKey, hAddrText.with0x]
  rfl

theorem slotKey_eq (hAddrText : HexOf addrText (State.addressBytes addr))
    (hSlotText : HexOf slotText (State.hashBytes slot)) :
    SlotKey addrText slotText = State.slotKeyText addr slot := by
  rw [SlotKey, hAddrText.with0x, hSlotText.with0x]
  rfl

theorem simpleSlotKey_eq (hAddrText : ToLower addrText = State.zeroX (State.addressBytes addr))
    (n : UInt64) :
    simpleSlotKey addrText n = State.slotKeyText addr n.toNat := by
  rw [simpleSlotKey, slotText, hAddrText, slotToBytes_eq]
  rfl

end Texts

section Injectivity

variable {addr other : Address} {slot otherSlot : Nat} {field otherField : String}
  (hAddr : addr < 2 ^ 160) (hOther : other < 2 ^ 160)

include hAddr hOther

theorem acctKeyText_inj (h : State.acctKeyText addr field = State.acctKeyText other otherField) :
    addr = other ∧ field = otherField := by
  have hParts := congrArg State.parseLevmCanonicalKey h
  rw [State.parseLevmCanonicalKey_acct hAddr, State.parseLevmCanonicalKey_acct hOther] at hParts
  exact State.LevmKey.acct.inj (Option.some.inj hParts)

theorem slotKeyText_inj (hSlot : slot < 2 ^ 256) (hOtherSlot : otherSlot < 2 ^ 256)
    (h : State.slotKeyText addr slot = State.slotKeyText other otherSlot) :
    addr = other ∧ slot = otherSlot := by
  have hParts := congrArg State.parseLevmCanonicalKey h
  rw [State.parseLevmCanonicalKey_slot hAddr hSlot,
    State.parseLevmCanonicalKey_slot hOther hOtherSlot] at hParts
  exact State.LevmKey.slot.inj (Option.some.inj hParts)

theorem slotKeyText_ne_acctKeyText (hSlot : slot < 2 ^ 256) (field : String) :
    State.slotKeyText addr slot ≠ State.acctKeyText other field := by
  intro h
  have hParts := congrArg State.parseLevmCanonicalKey h
  rw [State.parseLevmCanonicalKey_slot hAddr hSlot,
    State.parseLevmCanonicalKey_acct hOther] at hParts
  cases Option.some.inj hParts

end Injectivity

/-- The functions that write the keys of an account and of a slot agree, and the parsers
take the keys apart. Other accounts, slots and fields have other keys. -/
structure OneKey (keccak256 : List UInt8 → Fin 32 → UInt8) (addr : Address) (slot : Nat) :
    Prop where
  captured : State.storageKeysToStrings keccak256 [slot] addr = [State.slotKeyText addr slot]
  slotKeys : ∀ addrText slotText, HexOf addrText (State.addressBytes addr) →
    HexOf slotText (State.hashBytes slot) →
      Nezha.SlotKey addrText slotText = State.slotKeyText addr slot ∧
        SlotKey addrText slotText = State.slotKeyText addr slot
  simpleSlotKeys : ∀ addrText (n : UInt64),
    ToLower addrText = State.zeroX (State.addressBytes addr) → n.toNat = slot →
      simpleSlotKey addrText n = State.slotKeyText addr slot
  acctKeys : ∀ addrText field, AcctKey addrText field = Nezha.AcctKey addrText field ∧
    (HexOf addrText (State.addressBytes addr) →
      AcctKey addrText field = State.acctKeyText addr field)
  slotParsed : State.parseLevmCanonicalKey (State.slotKeyText addr slot) = some (.slot addr slot) ∧
    parseCanonicalKey (State.slotKeyText addr slot) = some (.slot addr slot)
  acctParsed : ∀ field ∈ acctFields,
    State.parseLevmCanonicalKey (State.acctKeyText addr field) = some (.acct addr field) ∧
      parseCanonicalKey (State.acctKeyText addr field) = some (.acct addr field)
  contract : State.slotKeyContractAddr (State.slotKeyText addr slot) =
    some (State.zeroX (State.addressBytes addr))
  slotsDistinct : ∀ other otherSlot, other < 2 ^ 160 → otherSlot < 2 ^ 256 →
    State.slotKeyText addr slot = State.slotKeyText other otherSlot →
      addr = other ∧ slot = otherSlot
  fieldsDistinct : ∀ field ∈ acctFields, ∀ other, other < 2 ^ 160 → ∀ otherField ∈ acctFields,
    State.acctKeyText addr field = State.acctKeyText other otherField →
      addr = other ∧ field = otherField
  kindsDistinct : ∀ other, other < 2 ^ 160 → ∀ field ∈ acctFields,
    State.slotKeyText addr slot ≠ State.acctKeyText other field

theorem canonical_keys_agree (keccak256 : List UInt8 → Fin 32 → UInt8) {addr : Address} {slot : Nat}
    (hAddr : addr < 2 ^ 160) (hSlot : slot < 2 ^ 256) : OneKey keccak256 addr slot where
  captured := by rw [State.storageKeysToStrings_eq, List.map_singleton]
  slotKeys _ _ hAddrText hSlotText :=
    ⟨(slotKey_eq_exporter _ _).symm.trans (slotKey_eq hAddrText hSlotText),
      slotKey_eq hAddrText hSlotText⟩
  simpleSlotKeys _ n hAddrText hn := by rw [simpleSlotKey_eq hAddrText, hn]
  acctKeys _ field := ⟨acctKey_eq_exporter _ field, fun hAddrText => acctKey_eq hAddrText field⟩
  slotParsed := ⟨State.parseLevmCanonicalKey_slot hAddr hSlot,
    (parseCanonicalKey_eq _).trans (State.parseLevmCanonicalKey_slot hAddr hSlot)⟩
  acctParsed field _ := ⟨State.parseLevmCanonicalKey_acct hAddr field,
    (parseCanonicalKey_eq _).trans (State.parseLevmCanonicalKey_acct hAddr field)⟩
  contract := State.slotKeyContractAddr_slotKeyText hAddr slot
  slotsDistinct _ _ hOther hOtherSlot := slotKeyText_inj hAddr hOther hSlot hOtherSlot
  fieldsDistinct _ _ _ hOther _ _ := acctKeyText_inj hAddr hOther
  kindsDistinct _ hOther field _ := slotKeyText_ne_acctKeyText hAddr hOther hSlot field

/-- The key of the last slot of the last address, with every letter in uppercase. -/
theorem uppercase_slot_key : SlotKey "0XFFFFFFFFFFFFFFFFFFFFFFFFFFFFFFFFFFFFFFFF"
        "0xFFFFFFFFFFFFFFFFFFFFFFFFFFFFFFFFFFFFFFFFFFFFFFFFFFFFFFFFFFFFFFFF" =
      State.slotKeyText (2 ^ 160 - 1) (2 ^ 256 - 1) :=
  ((canonical_keys_agree (fun _ _ => 0) (by norm_num) (by norm_num)).slotKeys _ _
    (.inl (by decide +kernel)) (.inl (by decide +kernel))).2

end Nezha.Replayd
