import NezhaConcurrency.Library.BigEndian

/-! The bytes of a signature. `Sign` puts the shortest byte strings of the two components one
after the other, and `SignatureVerify` cuts the number they spell in the middle. -/
namespace Nezha

open BigEndian

/-- The bytes that `Sign` stores. -/
def signatureBytes (r s : Nat) : List UInt8 := bytes r ++ bytes s

/-- The bytes that `splitBig` cuts: a zero in front makes their number even. -/
def evenBytes (b : Nat) : List UInt8 :=
  let bs := bytes b
  if bs.length % 2 ≠ 0 then 0 :: bs else bs

/-- Every call has two parts. -/
def splitBig (b parts : Nat) : List Nat :=
  let bs := evenBytes b
  let l := bs.length / parts
  (List.range parts).map fun i => value ((bs.take ((i + 1) * l)).drop (i * l))

theorem value_evenBytes (b : Nat) : value (evenBytes b) = b := by
  unfold evenBytes
  dsimp only
  split_ifs <;> exact value_bytes b

theorem half_evenBytes (b : Nat) : (evenBytes b).length = 2 * (((bytes b).length + 1) / 2) := by
  unfold evenBytes
  dsimp only
  split_ifs with h
  · rw [List.length_cons]
    omega
  · omega

/-- The two parts are the quotient and the remainder. -/
theorem splitBig_two (b : Nat) : splitBig b 2 =
    [b / 256 ^ (((bytes b).length + 1) / 2), b % 256 ^ (((bytes b).length + 1) / 2)] := by
  obtain ⟨l, hl⟩ : ∃ l, l = ((bytes b).length + 1) / 2 := ⟨_, rfl⟩
  have hLength := half_evenBytes b
  rw [← hl] at hLength ⊢
  have hHalf : ((evenBytes b).drop l).length = l := by
    rw [List.length_drop]
    omega
  have hLow := value_lt ((evenBytes b).drop l)
  have hJoin := value_append ((evenBytes b).take l) ((evenBytes b).drop l)
  rw [List.take_append_drop, value_evenBytes, hHalf] at hJoin
  rw [hHalf] at hLow
  rw [add_comm, mul_comm] at hJoin
  obtain ⟨hQuotient, hRemainder⟩ :=
    (Nat.div_mod_unique (pow_pos (by norm_num) l)).mpr ⟨hJoin.symm, hLow⟩
  have hAll : (evenBytes b).take (2 * l) = evenBytes b := by
    rw [← hLength, List.take_length]
  simp [splitBig, hLength, hQuotient, hRemainder, List.range_succ, hAll]

/-- The two components are read back exactly if the second needs as many bytes as the first, or
one more. -/
theorem signature_splits_iff {r s : Nat} (hr : 0 < r) :
    splitBig (value (signatureBytes r s)) 2 = [r, s] ↔
      (bytes s).length = (bytes r).length ∨ (bytes s).length = (bytes r).length + 1 := by
  have hValue : value (signatureBytes r s) = r * 256 ^ (bytes s).length + s := by
    rw [signatureBytes, value_append, value_bytes, value_bytes]
  have hLow : s < 256 ^ (bytes s).length := by
    simpa using value_lt (bytes s)
  have hBytes : (bytes (value (signatureBytes r s))).length =
      (bytes r).length + (bytes s).length := by
    rw [signatureBytes, bytes_append, List.length_append]
  rw [splitBig_two, hBytes, hValue]
  constructor
  · intro h
    have hParts := Nat.div_add_mod (r * 256 ^ (bytes s).length + s)
      (256 ^ (((bytes r).length + (bytes s).length + 1) / 2))
    rw [(List.cons.inj h).1, (List.cons.inj (List.cons.inj h).2).1, mul_comm] at hParts
    -- the cut is where the bytes of `s` begin, since `r` is not zero
    have hCut := Nat.pow_right_injective (by norm_num : 2 ≤ 256)
      (Nat.eq_of_mul_eq_mul_left hr (Nat.add_right_cancel hParts))
    omega
  · intro h
    have hCut : ((bytes r).length + (bytes s).length + 1) / 2 = (bytes s).length := by omega
    rw [hCut, mul_comm, Nat.mul_add_div (by positivity), Nat.div_eq_of_lt hLow, add_zero,
      Nat.mul_add_mod, Nat.mod_eq_of_lt hLow]

theorem ones_split : 0 < 1 ∧ splitBig (value (signatureBytes 1 1)) 2 = [1, 1] :=
  ⟨Nat.one_pos, (signature_splits_iff Nat.one_pos).mpr (Or.inl rfl)⟩

/-- The second component is a byte shorter: its half takes the last byte of the first. -/
theorem short_second_lost : splitBig (value (signatureBytes 256 1)) 2 = [1, 1] := by
  decide +kernel

end Nezha
