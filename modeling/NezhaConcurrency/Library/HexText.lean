import NezhaConcurrency.Library.GoString

/-! Hexadecimal texts of byte strings. A text may mix lowercase and uppercase digits. -/
namespace HexText

open List

def digit (n : Nat) : Char := "0123456789abcdef".toList.getD n '0'

def upperDigit (n : Nat) : Char := "0123456789ABCDEF".toList.getD n '0'

/-- The digits of a byte string. -/
def chars (bytes : List UInt8) : List Char :=
  bytes.flatMap fun b => [digit (b.toNat / 16), digit (b.toNat % 16)]

/-- The text has these digits, in any letter case. -/
def Spells (text : List Char) (bytes : List UInt8) : Prop := text.map Char.toLower = chars bytes

theorem chars_cons (b : UInt8) (bytes : List UInt8) :
    chars (b :: bytes) = digit (b.toNat / 16) :: digit (b.toNat % 16) :: chars bytes := rfl

@[simp] theorem length_chars (bytes : List UInt8) : (chars bytes).length = 2 * bytes.length := by
  induction bytes with
  | nil => rfl
  | cons b bytes ih =>
    rw [chars_cons, length_cons, length_cons, length_cons, ih]
    omega

variable {bytes : List UInt8}

theorem exists_digit_of_mem_chars {c : Char} (h : c ∈ chars bytes) : ∃ n, n < 16 ∧ c = digit n := by
  obtain ⟨b, _, hc⟩ := mem_flatMap.mp h
  have hb := b.toNat_lt
  rcases mem_pair.mp hc with rfl | rfl
  · exact ⟨b.toNat / 16, by omega, rfl⟩
  · exact ⟨b.toNat % 16, by omega, rfl⟩

theorem toNat_toLower (c : Char) :
    c.toLower.toNat = if 65 ≤ c.toNat ∧ c.toNat ≤ 90 then c.toNat + 32 else c.toNat := by
  have hBounds : (c.val ≥ 'A'.val ∧ c.val ≤ 'Z'.val) ↔ 65 ≤ c.toNat ∧ c.toNat ≤ 90 :=
    and_congr UInt32.le_iff_toNat_le UInt32.le_iff_toNat_le
  unfold Char.toLower
  split_ifs with h h' h'
  · have hSmall : c.val.toNat + 32 < 2 ^ 32 := by
      change c.toNat + 32 < 2 ^ 32
      omega
    change (c.val + 32).toNat = c.val.toNat + 32
    exact (UInt32.toNat_add _ _).trans (Nat.mod_eq_of_lt hSmall)
  · exact absurd (hBounds.mp h) h'
  · exact absurd (hBounds.mpr h') h
  · rfl

theorem toNat_digit {n : Nat} (h : n < 16) :
    (digit n).toNat = if n < 10 then 48 + n else 87 + n := by
  interval_cases n <;> rfl

theorem toNat_upperDigit {n : Nat} (h : n < 16) :
    (upperDigit n).toNat = if n < 10 then 48 + n else 55 + n := by
  interval_cases n <;> rfl

theorem digit_lower {n : Nat} (h : n < 16) : (digit n).toLower = digit n := by
  interval_cases n <;> rfl

theorem eq_of_toLower_eq_digit {c : Char} {n : Nat} (hn : n < 16) (h : c.toLower = digit n) :
    c = digit n ∨ c = upperDigit n := by
  have hNat := congrArg Char.toNat h
  rw [toNat_toLower, toNat_digit hn] at hNat
  rw [← Char.toNat_inj, ← Char.toNat_inj, toNat_digit hn, toNat_upperDigit hn]
  split_ifs at hNat ⊢ <;> omega

variable {text : List Char}

theorem Spells.cons {b : UInt8} (h : Spells text (b :: bytes)) :
    ∃ high low rest, text = high :: low :: rest ∧ high.toLower = digit (b.toNat / 16) ∧
      low.toLower = digit (b.toNat % 16) ∧ Spells rest bytes := by
  rw [Spells, chars_cons] at h
  obtain ⟨high, tail, rfl, hHigh, hTail⟩ := map_eq_cons_iff.mp h
  obtain ⟨low, rest, rfl, hLow, hRest⟩ := map_eq_cons_iff.mp hTail
  exact ⟨high, low, rest, rfl, hHigh, hLow, hRest⟩

theorem Spells.ascii (h : Spells text bytes) : ∀ c ∈ text, c.toNat < 128 := by
  have hDigit : ∀ {c : Char} {n : Nat}, n < 16 → c.toLower = digit n → c.toNat < 128 := by
    intro c n hn hc
    rcases eq_of_toLower_eq_digit hn hc with rfl | rfl
    · rw [toNat_digit hn]
      split_ifs <;> omega
    · rw [toNat_upperDigit hn]
      split_ifs <;> omega
  induction bytes generalizing text with
  | nil =>
    rw [map_eq_nil_iff.mp h]
    exact fun c hc => absurd hc not_mem_nil
  | cons b bytes ih =>
    have hb := b.toNat_lt
    obtain ⟨high, low, rest, rfl, hHigh, hLow, hRest⟩ := h.cons
    exact forall_mem_cons.mpr ⟨hDigit (by omega) hHigh,
      forall_mem_cons.mpr ⟨hDigit (by omega) hLow, ih hRest⟩⟩

theorem chars_lower (bytes : List UInt8) : (chars bytes).map Char.toLower = chars bytes := by
  induction bytes with
  | nil => rfl
  | cons b bytes ih =>
    have hb := b.toNat_lt
    rw [chars_cons, map_cons, map_cons, ih, digit_lower (by omega), digit_lower (by omega)]

theorem Spells.length (h : Spells text bytes) : text.length = 2 * bytes.length := by
  rw [← length_chars, ← h, length_map]

end HexText
