import NezhaConcurrency.Library.GoString
import NezhaConcurrency.Library.PartialLoop

/-! JSON values, and how Go decodes them into the fields of a struct. A key goes to the
field of the same name whatever its case, and keys without a field are skipped. A
value of the wrong kind is an error. -/
namespace GoJson

open GoString

inductive Value where
  | null
  | bool (b : Bool)
  | num (n : Int)
  | str (s : String)
  | arr (items : List Value)
  | obj (entries : List (String × Value))

/-- Decodes into a variable with a value. -/
abbrev Decoder (T : Type) := T → Value → Option T

def string : Decoder String
  | current, .null => some current
  | _, .str s => some s
  | _, _ => none

def int : Decoder Int
  | current, .null => some current
  | _, .num n => if -9223372036854775808 ≤ n ∧ n < 9223372036854775808 then some n else none
  | _, _ => none

def uint64 : Decoder UInt64
  | current, .null => some current
  | _, .num n => if 0 ≤ n ∧ n < 18446744073709551616 then some (UInt64.ofNat n.toNat) else none
  | _, _ => none

def slice {T : Type} (decode : Decoder T) (zero : T) : Decoder (List T)
  | _, .null => some []
  | _, .arr items => items.mapM (decode zero)
  | _, _ => none

/-- Decodes an object by its entries. -/
def struct {T : Type} (fields : List (String × Value) → Option T) : Decoder T
  | current, .null => some current
  | _, .obj entries => fields entries
  | _, _ => none

/-- The values under the keys that match a name. -/
def matching (name : String) (entries : List (String × Value)) : List Value :=
  (entries.filter fun entry => ToLower entry.1 = ToLower name).map Prod.snd

/-- The value of a field; a later key overwrites an earlier one. -/
def field {T : Type} (name : String) (decode : Decoder T) (zero : T)
    (entries : List (String × Value)) : Option T :=
  (matching name entries).foldlM decode zero

variable {T Item : Type} {name : String} {decode : Decoder T} {zero : T}
  {entries : List (String × Value)}

theorem int_natCast (current : Int) {n : Nat} (h : n < 2 ^ 63) :
    int current (.num n) = some (n : Int) := by
  have hRange : -9223372036854775808 ≤ (n : Int) ∧ (n : Int) < 9223372036854775808 := by omega
  simp only [int, hRange, and_self, if_true]

theorem struct_obj (fields : List (String × Value) → Option T) (current : T) :
    struct fields current (.obj entries) = fields entries := rfl

theorem matching_nil : matching name [] = [] := rfl

theorem matching_cons_self {key : String} {value : Value} (h : ToLower key = ToLower name) :
    matching name ((key, value) :: entries) = value :: matching name entries := by
  simp [matching, h]

theorem matching_cons_of_ne {key : String} {value : Value} (h : ToLower key ≠ ToLower name) :
    matching name ((key, value) :: entries) = matching name entries := by
  simp [matching, h]

theorem matching_append (entries' : List (String × Value)) :
    matching name (entries ++ entries') = matching name entries ++ matching name entries' := by
  simp [matching]

theorem field_of_matching {value : Value} (h : matching name entries = [value]) :
    field name decode zero entries = decode zero value := by
  rw [field, h, List.foldlM_cons]
  cases decode zero value <;> rfl

theorem slice_map {items : List Item} {encode : Item → Value} (result : Item → T)
    (h : ∀ item ∈ items, decode zero (encode item) = some (result item)) (current : List T) :
    slice decode zero current (.arr (items.map encode)) = some (items.map result) := by
  change (items.map encode).mapM (decode zero) = _
  rw [List.mapM_map]
  exact PartialLoop.mapM_eq_some h

theorem slice_str (items : List String) (current : List String) :
    slice string "" current (.arr (items.map Value.str)) = some items := by
  rw [slice_map id fun _ _ => rfl, List.map_id]

end GoJson
