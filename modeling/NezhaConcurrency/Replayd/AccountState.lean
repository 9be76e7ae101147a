import NezhaConcurrency.Replayd.CanonicalKeys

/-! The accounts of a state database through its canonical keys: what each key reads, and what
the operations of the database do to it. An operation on a missing account makes the account,
and a missing account reads as an empty one that does not exist. -/
namespace Nezha.Replayd

open Function

open State (Tracked Value)

def emptyAccount : Account := ⟨0, 0, [], fun _ => 0⟩

/-- What a key reads of an account that exists or not. -/
def Account.read (acct : Account) (exist : Bool) : Tracked → Value
  | .balance _ => .number acct.Balance.toNat
  | .nonce _ => .number acct.Nonce.toNat
  | .code _ => .bytes acct.Code
  | .exist _ => .flag exist
  | .slot _ index => .number (acct.Storage index)

namespace StateDB

section Operations

variable (db : StateDB) (addr : Address)

def GetCode : List UInt8 := (db.getOrNewStateObject addr).Code

def GetState (index : Nat) : Nat := (db.getOrNewStateObject addr).Storage index

def Exist : Bool := (db addr).isSome

def SetCode (code : List UInt8) : StateDB :=
  update db addr (some { db.getOrNewStateObject addr with Code := code })

def SetState (index value : Nat) : StateDB :=
  update db addr (some { db.getOrNewStateObject addr with
    Storage := update (db.getOrNewStateObject addr).Storage index value })

/-- An account that exists is overwritten. -/
def CreateAccount : StateDB := update db addr (some emptyAccount)

/-- The account exists until the end of the transaction. -/
def SelfDestruct : StateDB :=
  match db addr with
  | none => db
  | some acct => update db addr (some { acct with Balance := 0 })

/-- What a key reads. -/
def value (key : Tracked) : Value :=
  (db.getOrNewStateObject key.addr).read (db.Exist key.addr) key

end Operations

variable {db db' : StateDB} {addr : Address} {key : Tracked} {acct : Account}

theorem value_congr (h : db key.addr = db' key.addr) : db.value key = db'.value key := by
  rw [value, value, getOrNewStateObject, getOrNewStateObject, Exist, Exist, h]

theorem value_update_of_ne (h : key.addr ≠ addr) :
    value (update db addr (some acct)) key = db.value key :=
  value_congr (update_of_ne h _ _)

theorem value_update_self (h : key.addr = addr) :
    value (update db addr (some acct)) key = acct.read true key := by
  rw [value, getOrNewStateObject, Exist, h, update_self]
  rfl

theorem read_of_ne_exist (hKey : ∀ addr, key ≠ .exist addr) (exist : Bool) :
    acct.read exist key = acct.read true key := by
  cases key with
  | exist addr => exact absurd rfl (hKey addr)
  | balance | nonce | code | slot => rfl

end StateDB

end Nezha.Replayd
