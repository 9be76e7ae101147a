import Mathlib

/-! Ledgers. An entry credits an amount to a key. A key that was never credited has no
balance, and is told apart from one whose credits cancel. -/
namespace Ledger

open List

variable {Key Amount : Type} [DecidableEq Key]

section Credits

variable [AddCommMonoid Amount]

/-- The ledger after one entry. A key without a balance starts from zero. -/
def credit (ledger : Key → Option Amount) (entry : Key × Amount) : Key → Option Amount :=
  Function.update ledger entry.1 (some ((ledger entry.1).getD 0 + entry.2))

/-- What the entries credit to a key, in total. -/
def total (entries : List (Key × Amount)) (key : Key) : Amount :=
  ((entries.filter (·.1 = key)).map Prod.snd).sum

theorem total_cons (entry : Key × Amount) (entries : List (Key × Amount)) (key : Key) :
    total (entry :: entries) key = (if entry.1 = key then entry.2 else 0) + total entries key := by
  by_cases h : entry.1 = key
  · simp [total, h]
  · simp [total, h]

theorem total_append (entries entries' : List (Key × Amount)) (key : Key) :
    total (entries ++ entries') key = total entries key + total entries' key := by
  simp [total]

theorem total_perm {entries entries' : List (Key × Amount)} (h : entries.Perm entries')
    (key : Key) : total entries key = total entries' key :=
  ((h.filter _).map _).sum_eq

theorem total_of_not_mem {entries : List (Key × Amount)} {key : Key}
    (h : key ∉ entries.map Prod.fst) : total entries key = 0 := by
  have hNone : entries.filter (·.1 = key) = [] := by
    refine filter_eq_nil_iff.mpr fun entry hEntry hKey => h ?_
    exact mem_map.mpr ⟨entry, hEntry, of_decide_eq_true hKey⟩
  simp [total, hNone]

/-- The balance of a key after a run of entries. -/
theorem credit_foldl (ledger : Key → Option Amount) (entries : List (Key × Amount)) (key : Key) :
    entries.foldl credit ledger key =
      if key ∈ entries.map Prod.fst then some ((ledger key).getD 0 + total entries key)
      else ledger key := by
  induction entries generalizing ledger with
  | nil => simp
  | cons entry entries ih =>
    rw [foldl_cons, ih, total_cons, map_cons]
    by_cases hKey : entry.1 = key
    · subst hKey
      by_cases hLater : entry.1 ∈ entries.map Prod.fst
      · simp [hLater, credit, add_assoc]
      · simp [hLater, credit, total_of_not_mem hLater]
    · have hne : key ≠ entry.1 := Ne.symm hKey
      simp only [mem_cons, hne, false_or, if_neg hKey, zero_add, credit, ne_eq,
        not_false_eq_true, Function.update_of_ne]

end Credits

/-- Two runs of entries that differ in who else credits. They leave the same balance if and
only if the others credit the same in total and, at a key with no shared entry, both
credit or neither does. -/
theorem credit_foldl_eq_iff [AddCommGroup Amount] {own own' shared entries entries' :
    List (Key × Amount)} (h : entries.Perm (own ++ shared)) (h' : entries'.Perm (own' ++ shared))
    (key : Key) :
    entries.foldl credit (fun _ => none) key = entries'.foldl credit (fun _ => none) key ↔
      total own key = total own' key ∧ (key ∈ shared.map Prod.fst ∨
        (key ∈ own.map Prod.fst ↔ key ∈ own'.map Prod.fst)) := by
  have hMem : key ∈ entries.map Prod.fst ↔ key ∈ own.map Prod.fst ∨ key ∈ shared.map Prod.fst := by
    rw [(h.map Prod.fst).mem_iff, map_append, mem_append]
  have hMem' : key ∈ entries'.map Prod.fst ↔
      key ∈ own'.map Prod.fst ∨ key ∈ shared.map Prod.fst := by
    rw [(h'.map Prod.fst).mem_iff, map_append, mem_append]
  rw [credit_foldl, credit_foldl, total_perm h, total_perm h', total_append, total_append]
  by_cases hShared : key ∈ shared.map Prod.fst
  · rw [if_pos (hMem.mpr (Or.inr hShared)), if_pos (hMem'.mpr (Or.inr hShared))]
    simp [hShared]
  · simp only [hMem, hMem', hShared, or_false, false_or]
    by_cases hOwn : key ∈ own.map Prod.fst
    · by_cases hOwn' : key ∈ own'.map Prod.fst
      · simp [hOwn, hOwn']
      · simp [hOwn, hOwn']
    · by_cases hOwn' : key ∈ own'.map Prod.fst
      · simp [hOwn, hOwn']
      · simp [hOwn, hOwn', total_of_not_mem hOwn, total_of_not_mem hOwn']

end Ledger
