import Mathlib

/-! Running sums of signed amounts modulo a number, corrected below zero but not above the
modulus. The sum may leave the range, and by how much depends on the order of the amounts:
it is largest if the negative ones come first. -/
namespace OneSidedWrap

open List

/-- Add an amount, and the modulus if the sum is negative. -/
def add (modulus value amount : Int) : Int :=
  if value + amount < 0 then value + amount + modulus else value + amount

/-- Add amounts one after the other. -/
def run (modulus value : Int) (amounts : List Int) : Int := amounts.foldl (add modulus) value

/-- The sum of the negative amounts. -/
def debits (amounts : List Int) : Int := (amounts.filter (· < 0)).sum

/-- The sum of the other amounts. -/
def credits (amounts : List Int) : Int := (amounts.filter (0 ≤ ·)).sum

variable {modulus value amount : Int} {amounts : List Int}

theorem run_concat : run modulus value (amounts ++ [amount]) =
    add modulus (run modulus value amounts) amount := by
  rw [run, foldl_append]
  rfl

theorem debits_concat : debits (amounts ++ [amount]) =
    debits amounts + if amount < 0 then amount else 0 := by
  by_cases h : amount < 0 <;> simp [debits, filter_append, h]

theorem credits_concat : credits (amounts ++ [amount]) =
    credits amounts + if amount < 0 then 0 else amount := by
  by_cases h : amount < 0
  · have hNot : ¬ 0 ≤ amount := by omega
    simp [credits, filter_append, h, hNot]
  · have hPos : 0 ≤ amount := by omega
    simp [credits, filter_append, h, hPos]

theorem credits_nonneg (amounts : List Int) : 0 ≤ credits amounts :=
  sum_nonneg fun _ hm => of_decide_eq_true (mem_filter.mp hm).2

theorem debits_add_credits (amounts : List Int) :
    debits amounts + credits amounts = amounts.sum := by
  induction amounts using List.reverseRecOn with
  | nil => rfl
  | append_singleton amounts amount ih =>
    rw [debits_concat, credits_concat, sum_append, sum_singleton, ← ih]
    split <;> omega

theorem emod_add_debit (hLow : -modulus ≤ amount) (hDebit : amount < 0) (base : Int) :
    (base + amount) % modulus = base % modulus + amount ∨
      (base + amount) % modulus = base % modulus + amount + modulus ∧
        base % modulus + amount < 0 := by
  have hPos : 0 < modulus := by omega
  have hNonneg := Int.emod_nonneg base hPos.ne'
  have hLess := Int.emod_lt_of_pos base hPos
  rw [← Int.emod_add_emod]
  rcases lt_or_ge (base % modulus + amount) 0 with hNeg | hNotNeg
  · refine Or.inr ⟨?_, hNeg⟩
    rw [← Int.add_emod_right, Int.emod_eq_of_lt (by omega) (by omega)]
  · exact Or.inl (Int.emod_eq_of_lt hNotNeg (by omega))

theorem add_nonneg (hValue : 0 ≤ value) (hLow : -modulus ≤ amount) :
    0 ≤ add modulus value amount := by
  unfold add
  split <;> omega

theorem run_nonneg (hValue : 0 ≤ value) (hLow : ∀ amount ∈ amounts, -modulus ≤ amount) :
    0 ≤ run modulus value amounts := by
  induction amounts generalizing value with
  | nil => exact hValue
  | cons amount amounts ih =>
    exact ih (add_nonneg hValue (hLow amount mem_cons_self))
      fun later hm => hLow later (mem_cons_of_mem _ hm)

/-- The sum falls short of what the debits alone and the credits after them make of the
value by a multiple of the modulus. -/
theorem run_short (hValue : 0 ≤ value) (hRange : value < modulus)
    (hLow : ∀ amount ∈ amounts, -modulus ≤ amount) :
    ∃ k : Nat, run modulus value amounts + k * modulus =
      (value + debits amounts) % modulus + credits amounts := by
  induction amounts using List.reverseRecOn with
  | nil =>
    refine ⟨0, ?_⟩
    have hMod : value % modulus = value := Int.emod_eq_of_lt hValue hRange
    simp [run, debits, credits, hMod]
  | append_singleton amounts amount ih =>
    have hFront : ∀ amount ∈ amounts, -modulus ≤ amount :=
      fun earlier hm => hLow earlier (mem_append_left _ hm)
    have hLast := hLow amount (mem_append_right _ mem_cons_self)
    obtain ⟨k, hShort⟩ := ih hFront
    have hNonneg := run_nonneg hValue hFront
    have hCredits := credits_nonneg amounts
    rw [run_concat, debits_concat, credits_concat, add]
    by_cases hDebit : amount < 0
    · rw [if_pos hDebit, if_pos hDebit, ← add_assoc value, add_zero]
      -- A correction of the sum without one of the canonical value uses up a multiple.
      rcases emod_add_debit hLast hDebit (value + debits amounts) with hMod | ⟨hMod, hNeg⟩
      · split
        · next hBelow =>
            have hk : k ≠ 0 := by
              rintro rfl
              have hCanonical := Int.emod_nonneg (value + debits amounts + amount)
                (show modulus ≠ 0 by omega)
              simp only [Nat.cast_zero, zero_mul] at hShort
              omega
            obtain ⟨k, rfl⟩ := Nat.exists_eq_succ_of_ne_zero hk
            refine ⟨k, ?_⟩
            push_cast at hShort
            linarith
        · exact ⟨k, by linarith⟩
      · split
        · exact ⟨k, by linarith⟩
        · refine ⟨k + 1, ?_⟩
          push_cast
          linarith
    · rw [if_neg hDebit, if_neg hDebit, add_zero, if_neg (by omega)]
      exact ⟨k, by linarith⟩

/-- With the debits first there is nothing missing. -/
theorem run_debits_first (hValue : 0 ≤ value) (hRange : value < modulus)
    (hLow : ∀ amount ∈ amounts, -modulus ≤ amount) :
    run modulus value (amounts.filter (· < 0) ++ amounts.filter (0 ≤ ·)) =
      (value + debits amounts) % modulus + credits amounts := by
  have hDebits : ∀ amounts : List Int, (∀ amount ∈ amounts, -modulus ≤ amount ∧ amount < 0) →
      run modulus value amounts = (value + amounts.sum) % modulus := by
    intro amounts hAmounts
    induction amounts using List.reverseRecOn with
    | nil => simp [run, Int.emod_eq_of_lt hValue hRange]
    | append_singleton amounts amount ih =>
      obtain ⟨hLast, hDebit⟩ := hAmounts amount (mem_append_right _ mem_cons_self)
      have hCanonical := Int.emod_nonneg (value + amounts.sum + amount) (show modulus ≠ 0 by omega)
      rw [run_concat, ih fun earlier hm => hAmounts earlier (mem_append_left _ hm),
        sum_append, sum_singleton, ← add_assoc, add]
      rcases emod_add_debit hLast hDebit (value + amounts.sum) with hMod | ⟨hMod, hNeg⟩
      · rw [if_neg (by omega), hMod]
      · rw [if_pos hNeg, hMod]
  have hCredits : ∀ (amounts : List Int) (value : Int), 0 ≤ value →
      (∀ amount ∈ amounts, 0 ≤ amount) → run modulus value amounts = value + amounts.sum := by
    intro amounts
    induction amounts with
    | nil => simp [run]
    | cons amount amounts ih =>
      intro value hValue hAmounts
      have hFirst := hAmounts amount mem_cons_self
      have hAdd : add modulus value amount = value + amount := if_neg (by omega)
      change run modulus (add modulus value amount) amounts = _
      rw [hAdd, ih _ (by omega) fun later hm => hAmounts later (mem_cons_of_mem _ hm),
        sum_cons, add_assoc]
  have hSplit : run modulus value (amounts.filter (· < 0) ++ amounts.filter (0 ≤ ·)) =
      run modulus (run modulus value (amounts.filter (· < 0))) (amounts.filter (0 ≤ ·)) :=
    foldl_append
  rw [hSplit, hDebits, hCredits]
  · rfl
  · exact Int.emod_nonneg _ (by omega)
  · exact fun amount hm => of_decide_eq_true (mem_filter.mp hm).2
  · intro amount hm
    obtain ⟨hMem, hDebit⟩ := mem_filter.mp hm
    exact ⟨hLow amount hMem, of_decide_eq_true hDebit⟩

/-- If the debits and then the credits stay in the range, then the sum is canonical in
every order. -/
theorem run_canonical (hValue : 0 ≤ value) (hRange : value < modulus)
    (hLow : ∀ amount ∈ amounts, -modulus ≤ amount)
    (hBound : (value + debits amounts) % modulus + credits amounts < modulus)
    {order : List Int} (hPerm : order.Perm amounts) :
    run modulus value order = (value + amounts.sum) % modulus := by
  have hOrder : ∀ amount ∈ order, -modulus ≤ amount :=
    fun amount hm => hLow amount (hPerm.mem_iff.mp hm)
  obtain ⟨k, hShort⟩ := run_short hValue hRange hOrder
  have hNonneg := run_nonneg hValue hOrder
  have hDebits : debits order = debits amounts := (hPerm.filter _).sum_eq
  have hCredits : credits order = credits amounts := (hPerm.filter _).sum_eq
  rw [hDebits, hCredits] at hShort
  have hk : k = 0 := by
    by_contra hne
    have hOne : (1 : Int) ≤ k := by omega
    nlinarith
  subst hk
  rw [Nat.cast_zero, zero_mul, add_zero] at hShort
  rw [← debits_add_credits, ← add_assoc, ← Int.emod_add_emod, ← hShort]
  exact (Int.emod_eq_of_lt hNonneg (hShort ▸ hBound)).symm

end OneSidedWrap
