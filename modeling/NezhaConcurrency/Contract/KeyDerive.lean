import NezhaConcurrency.Library.BigEndian
import NezhaConcurrency.Library.CallTree
import NezhaConcurrency.Library.GoString

/-! Storage slot keys of mainnet contracts, and the derivers that read a key from the
calldata of a transaction. Offsets and lengths in calldata are chosen by the sender of
the transaction, and the bounds of a dynamic argument are computed in 64 bits. -/
namespace Nezha

open CallTree Outcome

/-- A byte slice, with the bytes between its length and its capacity. -/
structure ByteSlice where
  data : List UInt8
  spare : List UInt8
  capacity_lt : data.length + spare.length < 2 ^ 63

namespace ByteSlice

/-- `uint64(len(raw))` -/
def len (raw : ByteSlice) : UInt64 := .ofNat raw.data.length

/-- `raw[low:high]`. The upper bound may go up to the capacity. -/
def slice (raw : ByteSlice) (low high : UInt64) : Outcome Unit (List UInt8) :=
  if low ≤ high ∧ high.toNat ≤ raw.data.length + raw.spare.length then
    .value (((raw.data ++ raw.spare).take high.toNat).drop low.toNat)
  else .panic

@[simp] theorem toNat_len (raw : ByteSlice) : raw.len.toNat = raw.data.length := by
  have h := raw.capacity_lt
  rw [len, UInt64.toNat_ofNat', Nat.mod_eq_of_lt (by omega)]

end ByteSlice

structure LLMFieldAccess where
  Account : String
  Field : String
  deriving DecidableEq

/-- The address arguments that are decoded from the calldata of a transaction. An
argument that is absent is the empty text. `MsgSender` is the sender of the transaction. -/
structure MainnetTxArgs where
  Addr1 : String
  Addr2 : String
  MsgSender : String
  Selector : String
  RawCalldata : ByteSlice

/-- The hash function, and the public key of a signature over a digest if there is one. -/
structure Crypto where
  keccak256 : List UInt8 → Fin 32 → UInt8
  RecoverCompact : List UInt8 → List UInt8 → Option (Fin 64 → UInt8)

/-! ### Texts of slots -/

def hexDigits : List Char := "0123456789abcdef".toList

/-- `hex.EncodeToString` -/
def EncodeToString (bytes : List UInt8) : String :=
  String.ofList (bytes.flatMap fun b =>
    [hexDigits.getD (b.toNat / 16) '0', hexDigits.getD (b.toNat % 16) '0'])

def fromHexChar (c : Char) : Option Nat :=
  (hexDigits.zipIdx.find? fun digit => digit.1 = c.toLower).map Prod.snd

/-- `hex.DecodeString`. What comes before the first text that is not a byte is kept. -/
def DecodeString : List Char → List UInt8
  | high :: low :: rest =>
    match fromHexChar high, fromHexChar low with
    | some h, some l => UInt8.ofNat (h * 16 + l) :: DecodeString rest
    | _, _ => []
  | _ => []

def pad32 (data : List UInt8) : List UInt8 :=
  if 32 ≤ data.length then data.take 32 else BigEndian.leftPad 32 data

def hexSlot (hash : List UInt8) : String := "0x" ++ EncodeToString hash

def addrToBytes (addr : String) : List UInt8 :=
  if GoString.HasPrefix addr "0x" || GoString.HasPrefix addr "0X" then
    DecodeString (addr.toList.drop 2)
  else DecodeString addr.toList

def slotToBytes (slot : UInt64) : List UInt8 :=
  pad32 (BigEndian.leftPad 8 (BigEndian.bytes slot.toNat))

/-- `slot:<contractAddr>:<hash>` -/
def slotText (contractAddr : String) (hash : List UInt8) : String :=
  "slot:" ++ GoString.ToLower contractAddr ++ ":" ++ hexSlot hash

def simpleSlotKey (contractAddr : String) (slot : UInt64) : String :=
  slotText contractAddr (slotToBytes slot)

section Keys

variable (crypto : Crypto)

def keccak256Bytes (data : List UInt8) : List UInt8 := List.ofFn (crypto.keccak256 data)

def mappingSlotKeyBytes32 (contractAddr : String) (key32 : List UInt8) (slot : UInt64) : String :=
  slotText contractAddr (keccak256Bytes crypto (pad32 key32 ++ slotToBytes slot))

def mappingSlotKey (contractAddr addr : String) (slot : UInt64) : String :=
  slotText contractAddr (keccak256Bytes crypto (pad32 (addrToBytes addr) ++ slotToBytes slot))

def nestedMappingSlotKey (contractAddr outerAddr innerAddr : String) (slot : UInt64) : String :=
  let innerSlot := keccak256Bytes crypto (pad32 (addrToBytes outerAddr) ++ slotToBytes slot)
  slotText contractAddr (keccak256Bytes crypto (pad32 (addrToBytes innerAddr) ++ innerSlot))

def nestedBytesMappingSlotKey (contractAddr outerAddr : String) (innerBytes : List UInt8)
    (slot : UInt64) : String :=
  let innerSlot := keccak256Bytes crypto (pad32 (addrToBytes outerAddr) ++ slotToBytes slot)
  slotText contractAddr (keccak256Bytes crypto (innerBytes ++ innerSlot))

/-! ### Derivers -/

/-- The address that an account tag stands for. -/
def resolveAccountAddr (account : String) (args : MainnetTxArgs) : Option String :=
  let present (addr : String) : Option String := if addr ≠ "" then some addr else none
  if account = "addr1" then present args.Addr1
  else if account = "addr2" then present args.Addr2
  else if account = "msg.sender" then present args.MsgSender
  -- "global", and the name of a global variable
  else none

/-- `binary.BigEndian.Uint64` -/
def Uint64 (bytes : List UInt8) : UInt64 := .ofNat (BigEndian.value (bytes.take 8))

def abiOffsetWord (raw : ByteSlice) (pos : Nat) : UInt64 :=
  if raw.data.length < pos + 32 then 0 else Uint64 ((raw.data.drop (pos + 24)).take 8)

/-- The `bytes` value at an offset. It is an error that the value is not inside the
calldata. -/
def parseDynamicBytes (raw : ByteSlice) (off : UInt64) : Outcome Unit (List UInt8) :=
  if raw.len < off + 32 then .error ()
  else do
    let word ← raw.slice (off + 24) (off + 32)
    let length := Uint64 word
    let padded := (length + 31) / 32 * 32
    if raw.len < off + 32 + padded then .error ()
    else raw.slice (off + 32) (off + 32 + length)

/-- The address that signed, or none if the signature is not a valid one. -/
def recoverAttesterAddress (digest sig : List UInt8) : Option (List UInt8) := do
  if sig.length ≠ 65 then none
  let v := sig.getD 64 0
  let recid ← if v = 27 ∨ v = 28 then some (v - 27) else if v ≤ 3 then some v else none
  let publicKey ← crypto.RecoverCompact ((recid + 27) :: sig.take 64) digest
  return (keccak256Bytes crypto (List.ofFn publicKey)).drop 12

structure DerivedKey where
  ReadKeys : List String
  WriteKeys : List String

def DerivedKey.keys (dk : DerivedKey) (write : Bool) : List String :=
  if write then dk.WriteKeys else dk.ReadKeys

/-- It is an error that the access is not one that the deriver handles, or that the
calldata cannot be parsed. -/
abbrev KeyDeriver := String → LLMFieldAccess → MainnetTxArgs → Outcome Unit DerivedKey

/-- The keys of the attesters of all whole signatures. -/
def attesterKeys (contractAddr : String) (digest attData : List UInt8) : Option (List String) :=
  (List.range (attData.length / 65)).mapM fun i =>
    (recoverAttesterAddress crypto digest ((attData.drop (65 * i)).take 65)).map fun attester =>
      mappingSlotKey crypto contractAddr ("0x" ++ EncodeToString attester) 6

/-- The keys of a message and its attestation: the hash of source domain and nonce, and
the attesters. -/
def receiveMessageKeys (contractAddr : String) (msgData attData : List UInt8) :
    Outcome Unit DerivedKey :=
  if msgData.length < 20 then .error ()
  else
    let srcAndNonce := (msgData.drop 4).take 4 ++ (msgData.drop 12).take 8
    let usedNonceKey :=
      mappingSlotKeyBytes32 crypto contractAddr (keccak256Bytes crypto srcAndNonce) 10
    match attesterKeys crypto contractAddr (keccak256Bytes crypto msgData) attData with
    | none => .error ()
    | some indexKeys =>
      if indexKeys = [] then .error ()
      else .value ⟨usedNonceKey :: indexKeys, [usedNonceKey]⟩

def deriveReceiveMessageKeys : KeyDeriver := fun contractAddr acc args =>
  if acc.Field ≠ "usedNonces" ∨ acc.Account ≠ "global" then .error ()
  else if args.RawCalldata.data.length < 68 then .error ()
  else do
    let raw := args.RawCalldata
    let msgData ← parseDynamicBytes raw (4 + abiOffsetWord raw 4)
    let attData ← parseDynamicBytes raw (4 + abiOffsetWord raw 36)
    receiveMessageKeys crypto contractAddr msgData attData

def deriveCoinToolTKeys : KeyDeriver := fun contractAddr acc args =>
  if acc.Field ≠ "map" then .error ()
  else
    match resolveAccountAddr acc.Account args with
    | none => .error ()
    | some outerAddr =>
      if args.RawCalldata.data.length < 100 then .error ()
      else do
        let raw := args.RawCalldata
        let salt ← parseDynamicBytes raw (4 + abiOffsetWord raw 68)
        let key := nestedBytesMappingSlotKey crypto contractAddr outerAddr salt 1
        return ⟨[key], [key]⟩

/-- The deriver that is registered for a contract and a selector. -/
def derivedKeyDerivers (key : String) : Option KeyDeriver :=
  if key = "0x0a992d191deec32afe36203ad87d7d289a738f81:0x57ecfd28" then
    some (deriveReceiveMessageKeys crypto)
  else if key = "0x0de8bf93da2f7eecb3d9169422413a9bef4ef628:0xb1ae2ed1" then
    some (deriveCoinToolTKeys crypto)
  else none

end Keys

/-! ### Dynamic arguments beyond the calldata -/

/-- The length of the value at an offset, as its word states it. -/
def lengthAt (raw : ByteSlice) (off : UInt64) : UInt64 :=
  Uint64 (((raw.data ++ raw.spare).take (off + 32).toNat).drop (off + 24).toNat)

/-- Where the padded value at an offset ends, without a bound on the number. -/
def endOf (raw : ByteSlice) (off : UInt64) : Nat :=
  (off + 32).toNat + ((lengthAt raw off).toNat + 31) / 32 * 32

/-- The length word starts before `2 ^ 64` and ends at or beyond it. -/
def Straddles (off : UInt64) : Prop := off.toNat + 24 < 2 ^ 64 ∧ 2 ^ 64 ≤ off.toNat + 32

instance (off : UInt64) : Decidable (Straddles off) := inferInstanceAs (Decidable (_ ∧ _))

/-- The bounds of the value at an offset pass `2 ^ 64` and come back into the calldata. -/
def Wraps (raw : ByteSlice) (off : UInt64) : Prop :=
  (off + 32).toNat ≤ raw.data.length ∧ (Straddles off ∨
    2 ^ 64 ≤ endOf raw off ∧ endOf raw off % 2 ^ 64 ≤ raw.data.length)

/-- The value at an offset is inside the calldata. -/
def Inside (raw : ByteSlice) (off : UInt64) : Prop :=
  ¬ Straddles off ∧ endOf raw off ≤ raw.data.length

variable {raw : ByteSlice}

theorem slice_of_le {low high : UInt64} (hLow : low.toNat ≤ high.toNat)
    (hHigh : high.toNat ≤ raw.data.length + raw.spare.length) : raw.slice low high =
      .value (((raw.data ++ raw.spare).take high.toNat).drop low.toNat) :=
  if_pos ⟨UInt64.le_iff_toNat_le.mpr hLow, hHigh⟩

theorem slice_of_not_le {low high : UInt64}
    (h : high.toNat < low.toNat ∨ raw.data.length + raw.spare.length < high.toNat) :
    raw.slice low high = .panic := by
  refine if_neg fun hBounds => ?_
  have hLow := UInt64.le_iff_toNat_le.mp hBounds.1
  omega

theorem toNat_add_32 (off : UInt64) : (off + 32).toNat = (off.toNat + 32) % 2 ^ 64 :=
  UInt64.toNat_add off 32

theorem toNat_add_24 (off : UInt64) : (off + 24).toNat = (off.toNat + 24) % 2 ^ 64 :=
  UInt64.toNat_add off 24

theorem slice_word {off : UInt64} (hStart : (off + 32).toNat ≤ raw.data.length) :
    raw.slice (off + 24) (off + 32) = if Straddles off then .panic else
      .value (((raw.data ++ raw.spare).take (off + 32).toNat).drop (off + 24).toNat) := by
  have hOff := off.toNat_lt
  have h32 := toNat_add_32 off
  have h24 := toNat_add_24 off
  by_cases hStraddles : Straddles off
  · rw [if_pos hStraddles]
    unfold Straddles at hStraddles
    exact slice_of_not_le (by omega)
  · rw [if_neg hStraddles]
    unfold Straddles at hStraddles
    exact slice_of_le (by omega) (by omega)

theorem toNat_end (start length : UInt64) : (start + (length + 31) / 32 * 32).toNat =
    (start.toNat + (length.toNat + 31) / 32 * 32) % 2 ^ 64 := by
  have hLength := length.toNat_lt
  have h31 : (length + 31).toNat = (length.toNat + 31) % 2 ^ 64 := UInt64.toNat_add length 31
  rw [UInt64.toNat_add, UInt64.toNat_mul, UInt64.toNat_div, h31]
  change (start.toNat + (length.toNat + 31) % 2 ^ 64 / 32 * 32 % 2 ^ 64) % 2 ^ 64 = _
  omega

/-- A value that ends inside the calldata is read, and one that only seems to is not. -/
theorem slice_value {start length : UInt64} (hStart : start.toNat ≤ raw.data.length)
    (hEnd : (start.toNat + (length.toNat + 31) / 32 * 32) % 2 ^ 64 ≤ raw.data.length) :
    raw.slice start (start + length) =
      if 2 ^ 64 ≤ start.toNat + (length.toNat + 31) / 32 * 32 then .panic else
        .value (((raw.data ++ raw.spare).take (start.toNat + length.toNat)).drop start.toNat) := by
  have hCapacity := raw.capacity_lt
  have hLength := length.toNat_lt
  have hHigh : (start + length).toNat = (start.toNat + length.toNat) % 2 ^ 64 :=
    UInt64.toNat_add start length
  by_cases hWraps : 2 ^ 64 ≤ start.toNat + (length.toNat + 31) / 32 * 32
  · rw [if_pos hWraps]
    exact slice_of_not_le (by omega)
  · rw [if_neg hWraps, slice_of_le (by omega) (by omega), hHigh, Nat.mod_eq_of_lt (by omega)]

/-- What `parseDynamicBytes` returns, with bounds that are not reduced. -/
theorem parseDynamicBytes_eq (raw : ByteSlice) (off : UInt64) : parseDynamicBytes raw off =
    if raw.data.length < (off + 32).toNat then .error ()
    else if Straddles off then .panic
    else if raw.data.length < endOf raw off % 2 ^ 64 then .error ()
    else if 2 ^ 64 ≤ endOf raw off then .panic
    else .value (((raw.data ++ raw.spare).take ((off + 32).toNat + (lengthAt raw off).toNat)).drop
      (off + 32).toNat) := by
  have hEndIff : raw.len < off + 32 + (lengthAt raw off + 31) / 32 * 32 ↔
      raw.data.length < endOf raw off % 2 ^ 64 := by
    rw [UInt64.lt_iff_toNat_lt, ByteSlice.toNat_len, toNat_end]
    rfl
  unfold parseDynamicBytes
  by_cases hShort : raw.data.length < (off + 32).toNat
  · rw [if_pos (by rwa [UInt64.lt_iff_toNat_lt, ByteSlice.toNat_len]), if_pos hShort]
  rw [if_neg (by rwa [UInt64.lt_iff_toNat_lt, ByteSlice.toNat_len]), if_neg hShort,
    slice_word (Nat.le_of_not_lt hShort)]
  by_cases hStraddles : Straddles off
  · rw [if_pos hStraddles, if_pos hStraddles]
    rfl
  rw [if_neg hStraddles, if_neg hStraddles, value_bind]
  by_cases hEnd : raw.data.length < endOf raw off % 2 ^ 64
  · rw [if_pos hEnd]
    exact if_pos (hEndIff.mpr hEnd)
  rw [if_neg hEnd]
  refine (if_neg fun h => hEnd (hEndIff.mp h)).trans ?_
  exact slice_value (Nat.le_of_not_lt hShort) (Nat.le_of_not_lt hEnd)

theorem parseDynamicBytes_eq_panic {off : UInt64} :
    parseDynamicBytes raw off = .panic ↔ Wraps raw off := by
  rw [parseDynamicBytes_eq, Wraps]
  split_ifs with hShort hStraddles hEnd hWraps
  · exact iff_of_false nofun fun h => absurd h.1 (Nat.not_le_of_lt hShort)
  · exact iff_of_true rfl ⟨Nat.le_of_not_lt hShort, Or.inl hStraddles⟩
  · refine iff_of_false nofun ?_
    rintro ⟨_, h | h⟩
    · exact hStraddles h
    · exact absurd h.2 (Nat.not_le_of_lt hEnd)
  · exact iff_of_true rfl ⟨Nat.le_of_not_lt hShort, Or.inr ⟨hWraps, Nat.le_of_not_lt hEnd⟩⟩
  · refine iff_of_false nofun ?_
    rintro ⟨_, h | h⟩
    · exact hStraddles h
    · exact hWraps h.1

theorem parseDynamicBytes_eq_value {off : UInt64} :
    (∃ value, parseDynamicBytes raw off = .value value) ↔ Inside raw off := by
  have hCapacity := raw.capacity_lt
  have hStart : (off + 32).toNat ≤ endOf raw off := Nat.le_add_right _ _
  rw [parseDynamicBytes_eq, Inside]
  split_ifs with hShort hStraddles hEnd hWraps
  · exact iff_of_false (fun ⟨_, h⟩ => nomatch h) fun h => by omega
  · exact iff_of_false (fun ⟨_, h⟩ => nomatch h) fun h => h.1 hStraddles
  · exact iff_of_false (fun ⟨_, h⟩ => nomatch h) fun h => by omega
  · exact iff_of_false (fun ⟨_, h⟩ => nomatch h) fun h => by omega
  · exact iff_of_true ⟨_, rfl⟩ ⟨hStraddles, by omega⟩

/-! ### What the derivers return -/

section Derivers

variable {crypto : Crypto} {contractAddr : String} {acc : LLMFieldAccess} {args : MainnetTxArgs}

/-- The arguments of `receiveMessage` lie so that reading them goes wrong. -/
def ReceiveMessageWraps (acc : LLMFieldAccess) (args : MainnetTxArgs) : Prop :=
  acc.Field = "usedNonces" ∧ acc.Account = "global" ∧ 68 ≤ args.RawCalldata.data.length ∧
    (Wraps args.RawCalldata (4 + abiOffsetWord args.RawCalldata 4) ∨
      Inside args.RawCalldata (4 + abiOffsetWord args.RawCalldata 4) ∧
        Wraps args.RawCalldata (4 + abiOffsetWord args.RawCalldata 36))

/-- The salt argument of `t` lies so that reading it goes wrong. -/
def CoinToolTWraps (acc : LLMFieldAccess) (args : MainnetTxArgs) : Prop :=
  acc.Field = "map" ∧ (resolveAccountAddr acc.Account args).isSome ∧
    100 ≤ args.RawCalldata.data.length ∧
      Wraps args.RawCalldata (4 + abiOffsetWord args.RawCalldata 68)

/-- A deriver is registered under this key, and reading the calldata goes wrong. -/
def CalldataWraps (key : String) (acc : LLMFieldAccess) (args : MainnetTxArgs) : Prop :=
  key = "0x0a992d191deec32afe36203ad87d7d289a738f81:0x57ecfd28" ∧ ReceiveMessageWraps acc args ∨
    key = "0x0de8bf93da2f7eecb3d9169422413a9bef4ef628:0xb1ae2ed1" ∧ CoinToolTWraps acc args

theorem receiveMessageKeys_ne_panic (msgData attData : List UInt8) :
    receiveMessageKeys crypto contractAddr msgData attData ≠ .panic := by
  unfold receiveMessageKeys
  split_ifs
  · simp
  · dsimp only
    split
    · simp
    · split_ifs <;> simp

theorem receiveMessageKeys_nonempty {msgData attData : List UInt8} {dk : DerivedKey}
    (h : receiveMessageKeys crypto contractAddr msgData attData = .value dk) (write : Bool) :
    dk.keys write ≠ [] := by
  unfold receiveMessageKeys at h
  split_ifs at h
  dsimp only at h
  split at h
  · cases h
  · split_ifs at h
    cases h
    cases write <;> simp [DerivedKey.keys]

theorem deriveReceiveMessageKeys_eq_panic :
    deriveReceiveMessageKeys crypto contractAddr acc args = .panic ↔
      ReceiveMessageWraps acc args := by
  unfold deriveReceiveMessageKeys ReceiveMessageWraps
  split_ifs with hAccess hShort
  · exact iff_of_false nofun fun h => hAccess.elim (absurd h.1) (absurd h.2.1)
  · exact iff_of_false nofun fun h => absurd h.2.2.1 (Nat.not_le_of_lt hShort)
  · push Not at hAccess
    simp only [bind_eq_panic, parseDynamicBytes_eq_panic, receiveMessageKeys_ne_panic, and_false,
      exists_false, or_false, ← parseDynamicBytes_eq_value]
    constructor
    · rintro (h | ⟨msgData, hMsg, h⟩)
      · exact ⟨hAccess.1, hAccess.2, Nat.le_of_not_lt hShort, Or.inl h⟩
      · exact ⟨hAccess.1, hAccess.2, Nat.le_of_not_lt hShort, Or.inr ⟨⟨msgData, hMsg⟩, h⟩⟩
    · rintro ⟨_, _, _, h | ⟨⟨msgData, hMsg⟩, h⟩⟩
      · exact Or.inl h
      · exact Or.inr ⟨msgData, hMsg, h⟩

theorem deriveCoinToolTKeys_eq_panic :
    deriveCoinToolTKeys crypto contractAddr acc args = .panic ↔ CoinToolTWraps acc args := by
  unfold deriveCoinToolTKeys CoinToolTWraps
  cases hOuter : resolveAccountAddr acc.Account args with
  | none =>
    refine iff_of_false ?_ fun h => absurd h.2.1 (by simp)
    split_ifs <;> simp
  | some outerAddr =>
    dsimp only
    split_ifs with hField hShort
    · exact iff_of_false nofun fun h => hField h.1
    · exact iff_of_false nofun fun h => absurd h.2.2.1 (Nat.not_le_of_lt hShort)
    · rw [bind_eq_panic, parseDynamicBytes_eq_panic]
      constructor
      · rintro (h | ⟨_, _, h⟩)
        · exact ⟨not_not.mp hField, rfl, Nat.le_of_not_lt hShort, h⟩
        · cases h
      · exact fun h => Or.inl h.2.2.2

variable {key : String} {deriver : KeyDeriver}

theorem deriver_eq_panic (h : derivedKeyDerivers crypto key = some deriver) :
    deriver contractAddr acc args = .panic ↔ CalldataWraps key acc args := by
  unfold derivedKeyDerivers at h
  split_ifs at h with hMessage hTool
  · cases h
    simp [CalldataWraps, deriveReceiveMessageKeys_eq_panic, hMessage]
  · cases h
    simp [CalldataWraps, deriveCoinToolTKeys_eq_panic, hTool]

theorem not_calldataWraps (h : derivedKeyDerivers crypto key = none) :
    ¬ CalldataWraps key acc args := by
  unfold derivedKeyDerivers at h
  split_ifs at h with hMessage hTool
  simp [CalldataWraps, hMessage, hTool]

theorem deriver_keys_nonempty (h : derivedKeyDerivers crypto key = some deriver)
    {dk : DerivedKey} (hKeys : deriver contractAddr acc args = .value dk) (write : Bool) :
    dk.keys write ≠ [] := by
  unfold derivedKeyDerivers at h
  split_ifs at h
  · cases h
    unfold deriveReceiveMessageKeys at hKeys
    split_ifs at hKeys
    obtain ⟨msgData, _, hKeys⟩ := bind_eq_value.mp hKeys
    obtain ⟨attData, _, hKeys⟩ := bind_eq_value.mp hKeys
    exact receiveMessageKeys_nonempty hKeys write
  · cases h
    unfold deriveCoinToolTKeys at hKeys
    cases hOuter : resolveAccountAddr acc.Account args with
    | none =>
      simp only [hOuter] at hKeys
      split_ifs at hKeys
    | some outerAddr =>
      simp only [hOuter] at hKeys
      split_ifs at hKeys
      obtain ⟨salt, _, hKeys⟩ := bind_eq_value.mp hKeys
      cases hKeys
      cases write <;> simp [DerivedKey.keys]

end Derivers

end Nezha
