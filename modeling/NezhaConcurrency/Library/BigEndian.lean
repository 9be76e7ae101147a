import Mathlib

/-! Natural numbers as big-endian byte strings without leading zeros, and their
reading back. -/
namespace BigEndian

open List

/-- The number that a byte string denotes. -/
def value (bytes : List UInt8) : Nat := bytes.foldl (fun n b => n * 256 + b.toNat) 0

/-- The shortest byte string that denotes a number. -/
def bytes (n : Nat) : List UInt8 := (Nat.digits 256 n).reverse.map UInt8.ofNat

/-- Zeros in front, up to a length. -/
def leftPad (length : Nat) (bytes : List UInt8) : List UInt8 :=
  List.replicate (length - bytes.length) 0 ++ bytes

theorem value_concat (front : List UInt8) (last : UInt8) :
    value (front ++ [last]) = value front * 256 + last.toNat :=
  foldl_append

theorem value_append (front back : List UInt8) :
    value (front ++ back) = value front * 256 ^ back.length + value back := by
  induction back using List.reverseRecOn with
  | nil => simp [value]
  | append_singleton back last ih =>
    rw [← append_assoc, value_concat, ih, value_concat, length_append, length_singleton]
    ring

theorem value_lt (bytes : List UInt8) : value bytes < 256 ^ bytes.length := by
  induction bytes using List.reverseRecOn with
  | nil => simp [value]
  | append_singleton front last ih =>
    have hLast := last.toNat_lt
    rw [value_concat, length_append, length_singleton, Nat.pow_succ]
    omega

theorem value_drop (bytes : List UInt8) (count : Nat) :
    value (bytes.drop count) = value bytes % 256 ^ (bytes.length - count) := by
  have hSplit := value_append (bytes.take count) (bytes.drop count)
  have hLow := value_lt (bytes.drop count)
  rw [take_append_drop] at hSplit
  rw [length_drop] at hSplit hLow
  rw [hSplit, Nat.mul_add_mod', Nat.mod_eq_of_lt hLow]

theorem value_eq_ofDigits (bytes : List UInt8) :
    value bytes = Nat.ofDigits 256 (bytes.reverse.map UInt8.toNat) := by
  induction bytes using List.reverseRecOn with
  | nil => rfl
  | append_singleton front last ih =>
    rw [value_concat, reverse_append, reverse_singleton, singleton_append, map_cons,
      Nat.ofDigits_cons, ih]
    ring

@[simp] theorem value_bytes (n : Nat) : value (bytes n) = n := by
  have hDigits : (Nat.digits 256 n).map (UInt8.toNat ∘ UInt8.ofNat) = Nat.digits 256 n := by
    refine (map_congr_left fun d hd => ?_).trans (map_id _)
    exact UInt8.toNat_ofNat_of_lt' (Nat.digits_lt_base (by norm_num) hd)
  rw [value_eq_ofDigits, bytes, ← map_reverse, reverse_reverse, map_map, hDigits,
    Nat.ofDigits_digits]

/-- A byte string without a leading zero is the shortest one. -/
theorem bytes_value {text : List UInt8} (h : text.head? ≠ some 0) : bytes (value text) = text := by
  have hDigits : Nat.digits 256 (value text) = text.reverse.map UInt8.toNat := by
    rw [value_eq_ofDigits]
    refine Nat.digits_ofDigits 256 (by norm_num) _ ?_ ?_
    · intro d hd
      obtain ⟨byte, _, rfl⟩ := mem_map.mp hd
      exact byte.toNat_lt
    · intro hNil hLast
      rw [getLast_map, getLast_reverse] at hLast
      have hText : text ≠ [] := by simpa using hNil
      rw [head?_eq_some_head hText, (UInt8.toNat_inj (b := 0)).mp hLast] at h
      exact h rfl
  rw [bytes, hDigits, ← map_reverse, reverse_reverse, map_map]
  exact (map_congr_left fun byte _ => UInt8.ofNat_toNat).trans (map_id _)

@[simp] theorem value_leftPad (length : Nat) (bytes : List UInt8) :
    value (leftPad length bytes) = value bytes := by
  have hZeros : ∀ count, value (List.replicate count 0) = 0 := by
    intro count
    induction count with
    | zero => rfl
    | succ count ih =>
      rw [replicate_succ', value_append, ih]
      rfl
  rw [leftPad, value_append, hZeros, Nat.zero_mul, Nat.zero_add]

/-- A number with a shortest byte string behind it is spelled by both, one after the other. -/
theorem bytes_append (n m : Nat) : bytes (value (bytes n ++ bytes m)) = bytes n ++ bytes m := by
  have hLength : (bytes m).length = (Nat.digits 256 m).length := by simp [bytes]
  rw [value_append, value_bytes, value_bytes, hLength, add_comm, mul_comm]
  simp only [bytes]
  rw [← Nat.digits_append_digits (by norm_num), reverse_append, map_append]

theorem length_bytes_le {n length : Nat} (h : n < 256 ^ length) : (bytes n).length ≤ length := by
  rw [bytes, length_map, length_reverse]
  exact (Nat.digits_length_le_iff (by norm_num) n).mpr h

theorem head?_bytes (n : Nat) : (bytes n).head? ≠ some 0 := by
  intro h
  obtain ⟨rest, hBytes⟩ := head?_eq_some_iff.mp h
  -- without the zero it would be shorter
  have hRest : value rest = n := by
    rw [← value_bytes n, hBytes]
    rfl
  have hShort := length_bytes_le (hRest ▸ value_lt rest)
  rw [hBytes, length_cons] at hShort
  omega

@[simp] theorem length_leftPad {length : Nat} {bytes : List UInt8} (h : bytes.length ≤ length) :
    (leftPad length bytes).length = length := by
  rw [leftPad, length_append, length_replicate, Nat.sub_add_cancel h]

theorem leftPad_bytes_inj {length n n' : Nat} :
    leftPad length (bytes n) = leftPad length (bytes n') ↔ n = n' := by
  refine ⟨fun h => ?_, fun h => by rw [h]⟩
  simpa using congrArg value h

end BigEndian
