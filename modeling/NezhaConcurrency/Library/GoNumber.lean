import Mathlib

/-! Texts of numbers in Go. `fmt` writes the hexadecimal digits of a number behind `0x`,
without leading zeros. `big.Int` reads the base from the start of a text, and `uint256.Int`
reads hexadecimal texts of at most 64 digits. -/
namespace GoNumber

def digitValue (c : Char) : Option Nat :=
  if 48 ≤ c.toNat ∧ c.toNat ≤ 57 then some (c.toNat - 48)
  else if 97 ≤ c.toNat ∧ c.toNat ≤ 122 then some (c.toNat - 87)
  else if 65 ≤ c.toNat ∧ c.toNat ≤ 90 then some (c.toNat - 55)
  else none

/-- The digits are read behind those that make up `acc`. -/
def readFrom (base : Nat) (acc : Nat) : List Char → Option Nat
  | [] => some acc
  | c :: cs => (digitValue c).bind fun d =>
    if d < base then readFrom base (acc * base + d) cs else none

def numeral (base : Nat) (cs : List Char) : Option Nat :=
  if cs = [] then none else readFrom base 0 cs

/-- A number without a sign, in the base that its first characters name. -/
def unsigned : List Char → Option Nat
  | '0' :: 'x' :: cs | '0' :: 'X' :: cs => numeral 16 cs
  | '0' :: 'b' :: cs | '0' :: 'B' :: cs => numeral 2 cs
  | '0' :: 'o' :: cs | '0' :: 'O' :: cs => numeral 8 cs
  | '0' :: c :: cs => numeral 8 (c :: cs)
  | cs => numeral 10 cs

/-- `SetString` of `big.Int` for the base 0, for texts without underscores. -/
def SetString (text : String) : Option Int :=
  match text.toList with
  | '-' :: cs => (unsigned cs).map fun n => -Int.ofNat n
  | '+' :: cs => (unsigned cs).map Int.ofNat
  | cs => (unsigned cs).map Int.ofNat

/-- `SetFromHex` of `uint256.Int`. -/
def SetFromHex (text : String) : Option (BitVec 256) :=
  match text.toList with
  | '0' :: x :: cs =>
    if x ≠ 'x' ∧ x ≠ 'X' then none
    else if 1 < cs.length ∧ cs.head? = some '0' then none
    else if 64 < cs.length then none
    else (numeral 16 cs).map (BitVec.ofNat 256)
  | _ => none

/-- `fmt.Sprintf("0x%x", n)`, and `Hex` of `uint256.Int`. -/
def hexNumeral (n : Nat) : String := "0x" ++ String.ofList (Nat.toDigits 16 n)

theorem toList_hexNumeral (n : Nat) : (hexNumeral n).toList = '0' :: 'x' :: Nat.toDigits 16 n := by
  simp [hexNumeral]

theorem readFrom_append (base acc : Nat) (front back : List Char) :
    readFrom base acc (front ++ back) =
      (readFrom base acc front).bind fun acc => readFrom base acc back := by
  induction front generalizing acc with
  | nil => rfl
  | cons c front ih =>
    simp only [List.cons_append, readFrom, Option.bind_assoc]
    refine Option.bind_congr fun d _ => ?_
    split_ifs
    · exact ih _
    · rfl

theorem digitValue_digitChar {d : Nat} (h : d < 16) : digitValue d.digitChar = some d := by
  interval_cases d <;> rfl

theorem readFrom_digitChar (acc : Nat) {d : Nat} (h : d < 16) :
    readFrom 16 acc [d.digitChar] = some (acc * 16 + d) := by
  rw [readFrom, digitValue_digitChar h, Option.bind_some, if_pos h]
  rfl

theorem readFrom_toDigits (n : Nat) : readFrom 16 0 (Nat.toDigits 16 n) = some n := by
  induction n using Nat.strong_induction_on with
  | _ n ih =>
    by_cases hSmall : n < 16
    · rw [Nat.toDigits_of_lt_base hSmall, readFrom_digitChar 0 hSmall, Nat.zero_mul, Nat.zero_add]
    · rw [Nat.toDigits_of_base_le (by norm_num) (Nat.le_of_not_lt hSmall), readFrom_append,
        ih (n / 16) (by omega), Option.bind_some, readFrom_digitChar _ (by omega)]
      congr 1
      omega

theorem numeral_toDigits (n : Nat) : numeral 16 (Nat.toDigits 16 n) = some n := by
  have hDigits : Nat.toDigits 16 n ≠ [] := List.ne_nil_of_length_pos Nat.length_toDigits_pos
  rw [numeral, if_neg hDigits, readFrom_toDigits]

theorem head_toDigits {n : Nat} (h : 16 ≤ n) : (Nat.toDigits 16 n).head? ≠ some '0' := by
  induction n using Nat.strong_induction_on with
  | _ n ih =>
    rw [Nat.toDigits_of_base_le (by norm_num) h]
    by_cases hSmall : n / 16 < 16
    · rw [Nat.toDigits_of_lt_base hSmall]
      have hPos : 0 < n / 16 := by omega
      generalize n / 16 = d at hSmall hPos
      interval_cases d <;> simp
    · have hFront := ih (n / 16) (by omega) (Nat.le_of_not_lt hSmall)
      have hDigits : Nat.toDigits 16 (n / 16) ≠ [] :=
        List.ne_nil_of_length_pos Nat.length_toDigits_pos
      rwa [List.head?_append_of_ne_nil _ hDigits]

theorem SetString_hexNumeral (n : Nat) : SetString (hexNumeral n) = some (Int.ofNat n) := by
  rw [SetString, toList_hexNumeral]
  exact congrArg (Option.map Int.ofNat) (numeral_toDigits n)

theorem SetFromHex_hexNumeral (value : BitVec 256) :
    SetFromHex (hexNumeral value.toNat) = some value := by
  have hLength : (Nat.toDigits 16 value.toNat).length ≤ 64 :=
    (Nat.length_toDigits_le_iff (by norm_num) (by norm_num)).mpr
      (lt_of_lt_of_eq value.isLt (by norm_num))
  have hZeros : ¬ (1 < (Nat.toDigits 16 value.toNat).length ∧
      (Nat.toDigits 16 value.toNat).head? = some '0') := by
    rintro ⟨hLong, hHead⟩
    by_cases hSmall : value.toNat < 16
    · rw [Nat.toDigits_of_lt_base hSmall] at hLong
      exact absurd hLong (by simp)
    · exact head_toDigits (Nat.le_of_not_lt hSmall) hHead
  rw [SetFromHex, toList_hexNumeral]
  simp only [ne_eq, not_true_eq_false, false_and, if_false, if_neg hZeros,
    if_neg (Nat.not_lt.mpr hLength), numeral_toDigits, Option.map_some, BitVec.ofNat_toNat]
  rw [BitVec.setWidth_eq]

end GoNumber
