import NezhaConcurrency.Contract.KeyDerive
import NezhaConcurrency.Library.AbiEncoding

/-! The dynamic arguments that the derivers read from the calldata. What a standard encoding
holds is read back. On other calldata the bounds can pass `2 ^ 64`: then the parser panics, or
reads at another place. -/
namespace Nezha

open CallTree Outcome List

/-! ### Exactness on any calldata -/

/-- The low 64 bits of the word at an offset, over the numbers. -/
def statedLength (raw : ByteSlice) (off : Nat) : Nat :=
  BigEndian.value ((raw.data.drop (off + 24)).take 8)

/-- The parser does not panic, and a value is what stands behind the length word. -/
def ExactParse (raw : ByteSlice) (off : UInt64) : Prop :=
  match parseDynamicBytes raw off with
  | .panic => False
  | .error _ => True
  | .value content =>
    off.toNat + 32 + statedLength raw off.toNat ≤ raw.data.length ∧
      content = (raw.data.drop (off.toNat + 32)).take (statedLength raw off.toNat)

/-- The bounds pass `2 ^ 64` at the end of the value, or already at its start. -/
def Misread (raw : ByteSlice) (off : UInt64) : Prop :=
  Wraps raw off ∨ 2 ^ 64 ≤ off.toNat + 32 ∧ Inside raw off

section Exact

variable {raw : ByteSlice} {off : UInt64}

theorem toNat_lengthAt (hWord : off.toNat + 32 ≤ raw.data.length) :
    (lengthAt raw off).toNat = statedLength raw off.toNat := by
  have hCapacity := raw.capacity_lt
  have h32 : (off + 32).toNat = off.toNat + 32 := by
    rw [toNat_add_32, Nat.mod_eq_of_lt (by omega)]
  have h24 : (off + 24).toNat = off.toNat + 24 := by
    rw [toNat_add_24, Nat.mod_eq_of_lt (by omega)]
  have hWordBytes : ((raw.data ++ raw.spare).take (off + 32).toNat).drop (off + 24).toNat =
      (raw.data.drop (off.toNat + 24)).take 8 := by
    rw [h32, h24, take_append_of_le_length hWord, drop_take]
    congr 1
    omega
  have hSmall := BigEndian.value_lt ((raw.data.drop (off.toNat + 24)).take 8)
  have hLength : ((raw.data.drop (off.toNat + 24)).take 8).length ≤ 8 := length_take_le _ _
  have hPow : 256 ^ ((raw.data.drop (off.toNat + 24)).take 8).length ≤ 2 ^ 64 :=
    (Nat.pow_le_pow_right (by norm_num) hLength).trans_eq (by norm_num)
  rw [lengthAt, Uint64, hWordBytes, take_take, Nat.min_self, UInt64.toNat_ofNat',
    Nat.mod_eq_of_lt (hSmall.trans_le hPow)]
  rfl

theorem endOf_eq (hWord : off.toNat + 32 ≤ raw.data.length) :
    endOf raw off = off.toNat + 32 + (statedLength raw off.toNat + 31) / 32 * 32 := by
  have hCapacity := raw.capacity_lt
  rw [endOf, toNat_add_32, toNat_lengthAt hWord, Nat.mod_eq_of_lt (by omega)]

theorem parseDynamicBytes_of_inside
    (hEnd : off.toNat + 32 + (statedLength raw off.toNat + 31) / 32 * 32 ≤ raw.data.length) :
    parseDynamicBytes raw off =
      .value ((raw.data.drop (off.toNat + 32)).take (statedLength raw off.toNat)) := by
  have hCapacity := raw.capacity_lt
  have hWord : off.toNat + 32 ≤ raw.data.length := by omega
  have h32 : (off + 32).toNat = off.toNat + 32 := by
    rw [toNat_add_32, Nat.mod_eq_of_lt (by omega)]
  have hStraddles : ¬ Straddles off := by
    unfold Straddles
    omega
  rw [parseDynamicBytes_eq, endOf_eq hWord, h32, if_neg (by omega), if_neg hStraddles,
    if_neg (by omega), if_neg (by omega), toNat_lengthAt hWord,
    take_append_of_le_length (by omega), drop_take, Nat.add_sub_cancel_left]

theorem exactParse_iff : ExactParse raw off ↔ ¬ Misread raw off := by
  have hCapacity := raw.capacity_lt
  cases hParse : parseDynamicBytes raw off with
  | panic =>
    have hWraps := parseDynamicBytes_eq_panic.mp hParse
    simp [ExactParse, hParse, Misread, hWraps]
  | error err =>
    have hWraps : ¬ Wraps raw off := by
      rw [← parseDynamicBytes_eq_panic, hParse]
      nofun
    have hInside : ¬ Inside raw off := by
      rw [← parseDynamicBytes_eq_value, hParse]
      nofun
    simp [ExactParse, hParse, Misread, hWraps, hInside]
  | value content =>
    have hWraps : ¬ Wraps raw off := by
      rw [← parseDynamicBytes_eq_panic, hParse]
      nofun
    have hInside := parseDynamicBytes_eq_value.mp ⟨content, hParse⟩
    simp only [ExactParse, hParse, Misread, hWraps, hInside, and_true, false_or, not_le]
    constructor
    · rintro ⟨hEnd, _⟩
      omega
    · intro hOff
      have h32 : (off + 32).toNat = off.toNat + 32 := by
        rw [toNat_add_32, Nat.mod_eq_of_lt hOff]
      have hWord : off.toNat + 32 ≤ raw.data.length := by
        rw [← h32]
        exact (Nat.le_add_right _ _).trans hInside.2
      have hEnd := hInside.2
      rw [endOf_eq hWord] at hEnd
      rw [parseDynamicBytes_of_inside hEnd] at hParse
      cases hParse
      exact ⟨by omega, rfl⟩

end Exact

/-- The parser is exact unless the bounds pass `2 ^ 64`, and a deriver returns unless this
happens at one of the arguments that it reads. -/
theorem dynamicBytes_total_iff (crypto : Crypto) (contractAddr : String) (acc : LLMFieldAccess)
    (args : MainnetTxArgs) (raw : ByteSlice) (off : UInt64) :
    (ExactParse raw off ↔ ¬ Misread raw off) ∧
      (deriveReceiveMessageKeys crypto contractAddr acc args ≠ .panic ↔
        ¬ ReceiveMessageWraps acc args) ∧
      (deriveCoinToolTKeys crypto contractAddr acc args ≠ .panic ↔ ¬ CoinToolTWraps acc args) :=
  ⟨exactParse_iff, not_congr deriveReceiveMessageKeys_eq_panic,
    not_congr deriveCoinToolTKeys_eq_panic⟩

/-- Calldata of which each byte behind the selector is `0xff`. -/
def allOnes : ByteSlice := ⟨List.replicate 4 0 ++ List.replicate 64 255, [], by decide⟩

def allOnesArgs : MainnetTxArgs := ⟨"", "", "", "0x57ecfd28", allOnes⟩

theorem allOnes_wraps : Wraps allOnes (4 + abiOffsetWord allOnes 4) :=
  ⟨by decide, .inr ⟨by decide, by decide⟩⟩

/-- The offset is reduced to a place inside the calldata, and so is the end of a value of
`2 ^ 64 - 1` bytes. The end of the slice is then before its start. -/
theorem allOnes_panics : ¬ ExactParse allOnes (4 + abiOffsetWord allOnes 4) ∧
      deriveReceiveMessageKeys ⟨fun _ _ => 0, fun _ _ => none⟩ "" ⟨"global", "usedNonces"⟩
        allOnesArgs = .panic := by
  refine ⟨fun hExact => exactParse_iff.mp hExact (.inl allOnes_wraps), ?_⟩
  exact deriveReceiveMessageKeys_eq_panic.mpr ⟨rfl, rfl, by decide, .inl allOnes_wraps⟩

/-! ### Standard encodings -/

section Standard

variable {raw : ByteSlice} {selector body content : List UInt8} {head : Nat}

theorem value_low_bytes {bytes : List UInt8} {n : Nat} (hWord : bytes.take 32 = Abi.word n)
    (hn : n < 2 ^ 64) : BigEndian.value ((bytes.drop 24).take 8) = n := by
  have hLow : (bytes.drop 24).take 8 = (Abi.word n).drop 24 := by rw [← hWord, drop_take]
  rw [hLow, BigEndian.value_drop, Abi.length_word, Abi.value_word (hn.trans (by norm_num))]
  exact Nat.mod_eq_of_lt (hn.trans_eq (by norm_num))

theorem Located.bounds (h : Abi.Located body head content) :
    head + 32 ≤ body.length ∧ ∃ offset rest, (body.drop head).take 32 = Abi.word offset ∧
      body.drop offset = Abi.bytesCode content ++ rest ∧
      offset + 32 + (content.length + 31) / 32 * 32 ≤ body.length := by
  obtain ⟨offset, rest, hHead, hCode⟩ := h
  have hHeadLength := congrArg List.length hHead
  have hCodeLength := congrArg List.length hCode
  rw [Abi.length_word, length_take, length_drop] at hHeadLength
  rw [Abi.bytesCode, length_append, length_append, Abi.length_word,
    Abi.length_padRight, length_drop] at hCodeLength
  exact ⟨by omega, offset, rest, hHead, hCode, by omega⟩

/-- An argument in a standard encoding is read. Its head is at `pos` in the calldata. -/
theorem parseDynamicBytes_located (hRaw : raw.data = selector ++ body)
    (hSelector : selector.length = 4) (hLocated : Abi.Located body head content) {pos : Nat}
    (hPos : pos = 4 + head) :
    parseDynamicBytes raw (4 + abiOffsetWord raw pos) = .value content := by
  subst hPos
  obtain ⟨hHead, offset, rest, hOffset, hCode, hEnd⟩ := Located.bounds hLocated
  have hCapacity := raw.capacity_lt
  have hLength : raw.data.length = 4 + body.length := by
    rw [hRaw, length_append, hSelector]
  have hDrop (count : Nat) : raw.data.drop (4 + count) = body.drop count := by
    rw [hRaw, ← drop_drop, drop_left' hSelector]
  have hOff : (4 + abiOffsetWord raw (4 + head)).toNat = 4 + offset := by
    have hWord : abiOffsetWord raw (4 + head) = UInt64.ofNat offset := by
      rw [abiOffsetWord, if_neg (by omega), Uint64, take_take, Nat.min_self, Nat.add_assoc,
        hDrop, ← drop_drop, value_low_bytes hOffset (by omega)]
    rw [hWord, UInt64.toNat_add, UInt64.toNat_ofNat', Nat.mod_eq_of_lt (by omega : offset < 2 ^ 64)]
    exact Nat.mod_eq_of_lt (by omega : 4 + offset < 2 ^ 64)
  have hStated : statedLength raw (4 + offset) = content.length := by
    have hWord : (body.drop offset).take 32 = Abi.word content.length := by
      rw [hCode, Abi.bytesCode, append_assoc, take_left' (Abi.length_word _)]
    rw [statedLength, Nat.add_assoc, hDrop, ← drop_drop, value_low_bytes hWord (by omega)]
  have hContent : (raw.data.drop (4 + offset + 32)).take content.length = content := by
    rw [Nat.add_assoc, hDrop, ← drop_drop, hCode, Abi.bytesCode, append_assoc,
      drop_left' (Abi.length_word _), Abi.padRight, append_assoc, take_left]
  have hInside : (4 + abiOffsetWord raw (4 + head)).toNat + 32 +
      (statedLength raw (4 + abiOffsetWord raw (4 + head)).toNat + 31) / 32 * 32 ≤
        raw.data.length := by
    rw [hOff, hStated]
    omega
  rw [parseDynamicBytes_of_inside hInside, hOff, hStated, hContent]

end Standard

section RoundTrip

variable (crypto : Crypto) (contractAddr : String) {acc : LLMFieldAccess} {args : MainnetTxArgs}
  {selector body : List UInt8}

/-- The calldata of a call, with the encoded arguments behind the selector. -/
structure Calls (args : MainnetTxArgs) (selector body : List UInt8) : Prop where
  calldata : args.RawCalldata.data = selector ++ body
  length_selector : selector.length = 4

theorem deriveReceiveMessageKeys_located {message attestation : List UInt8}
    (hField : acc.Field = "usedNonces") (hAccount : acc.Account = "global")
    (hCalls : Calls args selector body) (hMessage : Abi.Located body 0 message)
    (hAttestation : Abi.Located body 32 attestation) :
    deriveReceiveMessageKeys crypto contractAddr acc args =
      receiveMessageKeys crypto contractAddr message attestation := by
  obtain ⟨hRaw, hSelector⟩ := hCalls
  have hShort : ¬ args.RawCalldata.data.length < 68 := by
    have hHead := (Located.bounds hAttestation).1
    rw [hRaw, length_append, hSelector]
    omega
  have hMsg := parseDynamicBytes_located hRaw hSelector hMessage (rfl : 4 = 4 + 0)
  have hAtt := parseDynamicBytes_located hRaw hSelector hAttestation (rfl : 36 = 4 + 32)
  rw [deriveReceiveMessageKeys, if_neg (by simp [hField, hAccount]), if_neg hShort]
  dsimp only
  rw [hMsg, value_bind, hAtt, value_bind]

theorem deriveCoinToolTKeys_located {salt : List UInt8} {outerAddr : String}
    (hField : acc.Field = "map") (hOuter : resolveAccountAddr acc.Account args = some outerAddr)
    (hCalls : Calls args selector body) (hSalt : Abi.Located body 64 salt) :
    deriveCoinToolTKeys crypto contractAddr acc args =
      .value ⟨[nestedBytesMappingSlotKey crypto contractAddr outerAddr salt 1],
        [nestedBytesMappingSlotKey crypto contractAddr outerAddr salt 1]⟩ := by
  obtain ⟨hRaw, hSelector⟩ := hCalls
  have hShort : ¬ args.RawCalldata.data.length < 100 := by
    have hHead := (Located.bounds hSalt).1
    rw [hRaw, length_append, hSelector]
    omega
  have hParse := parseDynamicBytes_located hRaw hSelector hSalt (rfl : 68 = 4 + 64)
  rw [deriveCoinToolTKeys, if_neg (by simp [hField]), hOuter]
  dsimp only
  rw [if_neg hShort, hParse, value_bind]
  rfl

variable (acc) in
/-- From every encoding of `receiveMessage(message, attestation)` both byte strings are read,
and from every encoding of `t(total, data, salt)` the salt is. -/
theorem derivers_round_trip (hCalls : Calls args selector body) :
    (∀ message attestation, Abi.Encodes body [.bytes message, .bytes attestation] →
      parseDynamicBytes args.RawCalldata (4 + abiOffsetWord args.RawCalldata 4) = .value message ∧
        parseDynamicBytes args.RawCalldata (4 + abiOffsetWord args.RawCalldata 36) =
          .value attestation ∧
        (acc.Field = "usedNonces" → acc.Account = "global" →
          deriveReceiveMessageKeys crypto contractAddr acc args =
            receiveMessageKeys crypto contractAddr message attestation)) ∧
      ∀ total data salt, Abi.Encodes body [.word total, .bytes data, .bytes salt] →
        parseDynamicBytes args.RawCalldata (4 + abiOffsetWord args.RawCalldata 68) = .value salt ∧
          ∀ outerAddr, acc.Field = "map" → resolveAccountAddr acc.Account args = some outerAddr →
            deriveCoinToolTKeys crypto contractAddr acc args =
              .value ⟨[nestedBytesMappingSlotKey crypto contractAddr outerAddr salt 1],
                [nestedBytesMappingSlotKey crypto contractAddr outerAddr salt 1]⟩ := by
  refine ⟨fun message attestation hEncodes => ?_, fun total data salt hEncodes => ?_⟩
  · have hMessage : Abi.Located body 0 message := hEncodes 0 _ rfl
    have hAttestation : Abi.Located body 32 attestation := hEncodes 1 _ rfl
    exact ⟨parseDynamicBytes_located hCalls.calldata hCalls.length_selector hMessage rfl,
      parseDynamicBytes_located hCalls.calldata hCalls.length_selector hAttestation rfl,
      fun hField hAccount => deriveReceiveMessageKeys_located crypto contractAddr hField hAccount
        hCalls hMessage hAttestation⟩
  · have hSalt : Abi.Located body 64 salt := hEncodes 2 _ rfl
    exact ⟨parseDynamicBytes_located hCalls.calldata hCalls.length_selector hSalt rfl,
      fun outerAddr hField hOuter => deriveCoinToolTKeys_located crypto contractAddr hField hOuter
        hCalls hSalt⟩

end RoundTrip

/-- The arguments of a mint with an empty salt. -/
def mintArguments : List Abi.Argument := [.word 5, .bytes [1, 2, 3], .bytes []]

def mintBody : List UInt8 := Abi.layout (mintArguments.map Abi.Argument.part)

theorem length_mintBody : mintBody.length = 192 := by
  simp [mintBody, mintArguments, Abi.length_layout, Abi.Argument.part, Abi.Part.headSize,
    Abi.Part.tail, Abi.bytesCode, Abi.length_padRight]

def mintArgs : MainnetTxArgs where
  Addr1 := ""
  Addr2 := ""
  MsgSender := "0xab"
  Selector := "0xb1ae2ed1"
  RawCalldata := ⟨[0xb1, 0xae, 0x2e, 0xd1] ++ mintBody, [], by
    rw [length_append, length_mintBody]
    decide⟩

/-- The empty salt is read behind data that is padded. -/
theorem mint_round_trip :
    parseDynamicBytes mintArgs.RawCalldata (4 + abiOffsetWord mintArgs.RawCalldata 68) = .value [] ∧
      deriveCoinToolTKeys ⟨fun _ _ => 0, fun _ _ => none⟩ "0xcd" ⟨"msg.sender", "map"⟩ mintArgs =
        .value ⟨[nestedBytesMappingSlotKey ⟨fun _ _ => 0, fun _ _ => none⟩ "0xcd" "0xab" [] 1],
          [nestedBytesMappingSlotKey ⟨fun _ _ => 0, fun _ _ => none⟩ "0xcd" "0xab" [] 1]⟩ := by
  have hCalls : Calls mintArgs [0xb1, 0xae, 0x2e, 0xd1] mintBody := ⟨rfl, rfl⟩
  have hBoth := (derivers_round_trip ⟨fun _ _ => 0, fun _ _ => none⟩ "0xcd"
    ⟨"msg.sender", "map"⟩ hCalls).2 5 [1, 2, 3] [] (Abi.encodes_layout mintArguments)
  exact ⟨hBoth.1, hBoth.2 "0xab" rfl (by decide)⟩

end Nezha
