import NezhaConcurrency.Library.BigEndian

/-! The standard encoding of arguments for contracts. A sequence of values is laid out as
their heads and then their tails: the head of a static value is its code, and that of a dynamic
value is the offset of its code in the tails. -/
namespace Abi

open List

/-! ### Words -/

def word (n : Nat) : List UInt8 := BigEndian.leftPad 32 (BigEndian.bytes (n % 2 ^ 256))

@[simp] theorem length_word (n : Nat) : (word n).length = 32 := by
  refine BigEndian.length_leftPad (BigEndian.length_bytes_le ?_)
  exact (Nat.mod_lt n (Nat.two_pow_pos 256)).trans_eq (by norm_num)

theorem value_word {n : Nat} (h : n < 2 ^ 256) : BigEndian.value (word n) = n := by
  rw [word, BigEndian.value_leftPad, BigEndian.value_bytes, Nat.mod_eq_of_lt h]

/-- Zeros behind, up to a whole number of words. -/
def padRight (content : List UInt8) : List UInt8 :=
  content ++ List.replicate ((content.length + 31) / 32 * 32 - content.length) 0

theorem length_padRight (content : List UInt8) :
    (padRight content).length = (content.length + 31) / 32 * 32 := by
  rw [padRight, length_append, length_replicate]
  omega

/-- The code of a byte string. -/
def bytesCode (content : List UInt8) : List UInt8 := word content.length ++ padRight content

/-! ### Heads and tails -/

structure Part where
  dynamic : Bool
  code : List UInt8

def Part.headSize (part : Part) : Nat := if part.dynamic then 32 else part.code.length

def Part.tail (part : Part) : List UInt8 := if part.dynamic then part.code else []

def headSizes (parts : List Part) : Nat := (parts.map Part.headSize).sum

/-- The heads, where the next tail starts at `offset`. -/
def heads (offset : Nat) : List Part → List UInt8
  | [] => []
  | part :: parts =>
    (if part.dynamic then word offset else part.code) ++ heads (offset + part.tail.length) parts

def tails (parts : List Part) : List UInt8 := parts.flatMap Part.tail

def layout (parts : List Part) : List UInt8 := heads (headSizes parts) parts ++ tails parts

section Layout

variable {front back parts : List Part} {code : List UInt8}

theorem headSizes_cons (part : Part) (parts : List Part) :
    headSizes (part :: parts) = part.headSize + headSizes parts := by
  rw [headSizes, map_cons, sum_cons]
  rfl

@[simp] theorem length_heads (offset : Nat) (parts : List Part) :
    (heads offset parts).length = headSizes parts := by
  induction parts generalizing offset with
  | nil => rfl
  | cons part parts ih =>
    rw [heads, length_append, ih, headSizes_cons, Part.headSize]
    congr 1
    split_ifs
    · exact length_word offset
    · rfl

theorem headSizes_append (front back : List Part) :
    headSizes (front ++ back) = headSizes front + headSizes back := by
  rw [headSizes, map_append, sum_append]
  rfl

theorem tails_append (front back : List Part) : tails (front ++ back) = tails front ++ tails back :=
  flatMap_append

theorem tails_cons (part : Part) (parts : List Part) :
    tails (part :: parts) = part.tail ++ tails parts :=
  flatMap_cons

theorem heads_append (offset : Nat) (front back : List Part) : heads offset (front ++ back) =
      heads offset front ++ heads (offset + (tails front).length) back := by
  induction front generalizing offset with
  | nil => rfl
  | cons part front ih =>
    rw [cons_append, heads, heads, ih, tails_cons, length_append, append_assoc, Nat.add_assoc]

/-- Around a static part of a given size, the layout does not depend on it. -/
theorem layout_static (front back : List Part) (size : Nat) :
    ∃ before after, before.length = headSizes front ∧ ∀ code : List UInt8, code.length = size →
      layout (front ++ ⟨false, code⟩ :: back) = before ++ (code ++ after) := by
  refine ⟨heads (headSizes front + (size + headSizes back)) front,
    heads (headSizes front + (size + headSizes back) + (tails front).length) back ++
      (tails front ++ tails back), length_heads _ _, fun code hCode => ?_⟩
  have hSizes : headSizes (front ++ ⟨false, code⟩ :: back) =
      headSizes front + (size + headSizes back) := by
    rw [headSizes_append, headSizes_cons, ← hCode]
    rfl
  rw [layout, hSizes, heads_append, heads, tails_append, tails_cons]
  simp [Part.tail]

/-- The head of a dynamic part has the offset of its code. -/
theorem layout_dynamic (front back : List Part) (code : List UInt8) : ∃ offset rest,
      ((layout (front ++ ⟨true, code⟩ :: back)).drop (headSizes front)).take 32 = word offset ∧
        (layout (front ++ ⟨true, code⟩ :: back)).drop offset = code ++ rest := by
  refine ⟨headSizes (front ++ ⟨true, code⟩ :: back) + (tails front).length, tails back, ?_, ?_⟩
  · rw [layout, heads_append, heads, append_assoc, drop_left' (length_heads _ _), append_assoc]
    exact take_left' (length_word _)
  · rw [layout, ← drop_drop, drop_left' (length_heads _ _), tails_append, drop_left, tails_cons]
    rfl

theorem length_tails (parts : List Part) :
    (tails parts).length = (parts.map fun part => part.tail.length).sum := by
  rw [tails, length_flatMap]

theorem length_layout (parts : List Part) :
    (layout parts).length = (parts.map fun part => part.headSize + part.tail.length).sum := by
  rw [layout, length_append, length_heads, length_tails, headSizes, sum_map_add]

end Layout

/-! ### Words and byte strings -/

/-- The byte string `content` is an argument with its head at `head`: the word there is the
offset of its code. -/
def Located (body : List UInt8) (head : Nat) (content : List UInt8) : Prop :=
  ∃ offset rest, (body.drop head).take 32 = word offset ∧
    body.drop offset = bytesCode content ++ rest

/-- An argument whose head is one word. -/
inductive Argument where
  | word (n : Nat)
  | bytes (content : List UInt8)

def Argument.part : Argument → Part
  | .word n => ⟨false, Abi.word n⟩
  | .bytes content => ⟨true, bytesCode content⟩

/-- The argument stands in `body` with its head at `head`. -/
def Argument.HeldAt (body : List UInt8) (head : Nat) : Argument → Prop
  | .word n => (body.drop head).take 32 = Abi.word n
  | .bytes content => Located body head content

/-- An encoding of arguments. The codes of the byte strings may stand anywhere, also with gaps
or shared. -/
def Encodes (body : List UInt8) (arguments : List Argument) : Prop :=
  ∀ (i : Nat) (argument : Argument), arguments[i]? = some argument → argument.HeldAt body (32 * i)

theorem headSizes_arguments (arguments : List Argument) :
    headSizes (arguments.map Argument.part) = 32 * arguments.length := by
  induction arguments with
  | nil => rfl
  | cons argument arguments ih =>
    rw [map_cons, headSizes_cons, ih, length_cons]
    cases argument with
    | word n =>
      rw [Argument.part, Part.headSize, if_neg (by simp), length_word]
      omega
    | bytes content =>
      rw [Argument.part, Part.headSize, if_pos rfl]
      omega

theorem encodes_layout (arguments : List Argument) :
    Encodes (layout (arguments.map Argument.part)) arguments := by
  intro i argument hArgument
  obtain ⟨hi, rfl⟩ := List.getElem?_eq_some_iff.mp hArgument
  have hFront : headSizes ((arguments.take i).map Argument.part) = 32 * i := by
    rw [headSizes_arguments, length_take, Nat.min_eq_left hi.le]
  have hSplit : arguments.map Argument.part = (arguments.take i).map Argument.part ++
      arguments[i].part :: (arguments.drop (i + 1)).map Argument.part := by
    rw [← map_cons, ← map_append, cons_getElem_drop_succ, take_append_drop]
  rw [hSplit, ← hFront]
  cases arguments[i] with
  | word n =>
    obtain ⟨before, after, hBefore, hLayout⟩ := layout_static
      ((arguments.take i).map Argument.part) ((arguments.drop (i + 1)).map Argument.part) 32
    dsimp only [Argument.part, Argument.HeldAt]
    rw [hLayout _ (length_word n), drop_left' hBefore, take_left' (length_word n)]
  | bytes content => exact layout_dynamic _ _ _

end Abi
