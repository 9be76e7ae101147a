import Mathlib

/-! The functions of Go's `strings` package that the texts of addresses and keys go
through, on ASCII text. -/
namespace GoString

open List

def ToLower (s : String) : String := String.ofList (s.toList.map Char.toLower)

def HasPrefix (s start : String) : Bool := start.toList.isPrefixOf s.toList

def TrimPrefix (s start : String) : String :=
  if HasPrefix s start then String.ofList (s.toList.drop start.length) else s

/-- The text after the last cut is not split any further. -/
def splitChars (sep : Char) : Nat → List Char → List (List Char)
  | 0, _ => []
  | 1, chars => [chars]
  | n + 2, chars =>
    if sep ∈ chars then
      chars.takeWhile (· ≠ sep) :: splitChars sep (n + 1) (chars.dropWhile (· ≠ sep)).tail
    else [chars]

/-- At most `n` parts, cut at a separator of one character. -/
def SplitN (s : String) (sep : Char) (n : Nat) : List String :=
  (splitChars sep n s.toList).map String.ofList

/-- Two texts without the separator are recovered from their joined form. -/
theorem join_inj {sep : Char} {a b c d : String} (ha : sep ∉ a.toList) (hb : sep ∉ b.toList)
    (h : a ++ String.singleton sep ++ b = c ++ String.singleton sep ++ d) : a = c ∧ b = d := by
  have hChars : a.toList ++ sep :: b.toList = c.toList ++ sep :: d.toList := by
    simpa using congrArg String.toList h
  have hLists : ∀ {as bs cs ds : List Char}, sep ∉ as → sep ∉ bs →
      as ++ sep :: bs = cs ++ sep :: ds → as = cs ∧ bs = ds := by
    intro as bs cs ds has hbs hEq
    rcases append_eq_append_iff.mp hEq with ⟨more, rfl, hMore⟩ | ⟨more, rfl, hMore⟩
    · cases more with
      | nil =>
        rw [nil_append] at hMore
        exact ⟨(append_nil _).symm, tail_eq_of_cons_eq hMore⟩
      | cons head more =>
        rw [tail_eq_of_cons_eq hMore] at hbs
        simp at hbs
    · cases more with
      | nil =>
        rw [nil_append] at hMore
        exact ⟨append_nil _, (tail_eq_of_cons_eq hMore).symm⟩
      | cons head more =>
        rw [← head_eq_of_cons_eq hMore] at has
        simp at has
  obtain ⟨hFirst, hSecond⟩ := hLists ha hb hChars
  exact ⟨String.toList_inj.mp hFirst, String.toList_inj.mp hSecond⟩

theorem splitChars_cut {sep : Char} {front : List Char} (h : sep ∉ front) (n : Nat)
    (back : List Char) :
    splitChars sep (n + 2) (front ++ sep :: back) = front :: splitChars sep (n + 1) back := by
  have hAll : ∀ c ∈ front, (decide (c ≠ sep)) = true :=
    fun c hc => decide_eq_true fun hSep => h (hSep ▸ hc)
  rw [splitChars, if_pos (by simp), takeWhile_append_of_pos hAll, dropWhile_append_of_pos hAll]
  simp

/-- The separator cuts a text where it first occurs, whatever follows. -/
theorem cut_inj {sep : Char} {a b c d : String} (ha : sep ∉ a.toList) (hc : sep ∉ c.toList)
    (h : a ++ String.singleton sep ++ b = c ++ String.singleton sep ++ d) : a = c ∧ b = d := by
  have hChars : a.toList ++ sep :: b.toList = c.toList ++ sep :: d.toList := by
    simpa using congrArg String.toList h
  have hParts := congrArg (splitChars sep 2) hChars
  rw [splitChars_cut ha, splitChars_cut hc] at hParts
  simpa [splitChars, String.toList_inj] using hParts

/-- Three parts that are joined are split again, if the first two have no separator. -/
theorem SplitN_three {sep : Char} {text a b c : String} (ha : sep ∉ a.toList) (hb : sep ∉ b.toList)
    (h : text.toList = a.toList ++ sep :: (b.toList ++ sep :: c.toList)) :
    SplitN text sep 3 = [a, b, c] := by
  rw [SplitN, h, splitChars_cut ha, splitChars_cut hb]
  simp [splitChars]

@[simp] theorem toList_toLower (s : String) : (ToLower s).toList = s.toList.map Char.toLower :=
  String.toList_ofList

@[simp] theorem ToLower_append (a b : String) : ToLower (a ++ b) = ToLower a ++ ToLower b := by
  apply String.toList_inj.mp
  simp

end GoString
