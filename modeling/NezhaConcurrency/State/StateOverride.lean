import NezhaConcurrency.Library.AccessProgram
import NezhaConcurrency.Library.GoString
import NezhaConcurrency.State.WitnessTrie

/-! The override of a state database by a map from canonical keys to values in hexadecimal.
A key names the balance, the nonce, the code, the existence or a slot of an account. Each
entry is set through the operations of the state database, and these make the account if
there is none: an entry for one key of an account also decides whether the account exists. -/
namespace Nezha.State

open GoString List

/-! ### Keys -/

/-- The parts of a canonical key. -/
inductive LevmKey where
  | acct (addr : Address) (field : String)
  | slot (addr : Address) (slot : Hash)
  deriving DecidableEq

def parseLevmCanonicalKey (key : String) : Option LevmKey :=
  match SplitN key ':' 3 with
  | [start, addr, rest] =>
    if start = "acct" then some (.acct (HexToAddress addr) rest)
    else if start = "slot" then some (.slot (HexToAddress addr) (HexToHash rest))
    else none
  | _ => none

/-- What is read and written of the accounts. -/
inductive Tracked where
  | balance (addr : Address)
  | nonce (addr : Address)
  | code (addr : Address)
  | exist (addr : Address)
  | slot (addr : Address) (slot : Hash)
  deriving DecidableEq

def Tracked.addr : Tracked → Address
  | .balance addr => addr
  | .nonce addr => addr
  | .code addr => addr
  | .exist addr => addr
  | .slot addr _ => addr

/-- The case of the switch over prefixes and fields. -/
def LevmKey.tracked : LevmKey → Option Tracked
  | .acct addr field =>
    if field = "balance" then some (.balance addr)
    else if field = "nonce" then some (.nonce addr)
    else if field = "code" then some (.code addr)
    else if field = "exist" then some (.exist addr)
    else none
  | .slot addr index => some (.slot addr index)

def trackedKey (key : String) : Option Tracked := (parseLevmCanonicalKey key).bind LevmKey.tracked

/-! ### Reads and writes -/

inductive Value where
  | number (n : Int)
  | bytes (code : Code)
  | flag (exist : Bool)
  deriving DecidableEq

/-- An update of one tracked key. An account is only ever made to exist. -/
inductive Write where
  | balance (addr : Address) (amount : Int)
  | nonce (addr : Address) (nonce : Nat)
  | code (addr : Address) (code : Code)
  | exist (addr : Address)
  | slot (addr : Address) (slot value : Hash)
  deriving DecidableEq

def Write.addr : Write → Address
  | .balance addr _ => addr
  | .nonce addr _ => addr
  | .code addr _ => addr
  | .exist addr => addr
  | .slot addr _ _ => addr

def Write.key : Write → Tracked
  | .balance addr _ => .balance addr
  | .nonce addr _ => .nonce addr
  | .code addr _ => .code addr
  | .exist addr => .exist addr
  | .slot addr index _ => .slot addr index

theorem Write.key_addr (write : Write) : write.key.addr = write.addr := by
  cases write <;> rfl

def Write.value : Write → Value
  | .balance _ amount => .number amount
  | .nonce _ n => .number n
  | .code _ bytes => .bytes bytes
  | .exist _ => .flag true
  | .slot _ _ value => .number value

/-- A transaction chooses each access from the values that it has read. -/
abbrev TxProgram := AccessProgram.Program Tracked Value Write

abbrev TxAccess := AccessProgram.Access Tracked Value Write

section Model

variable {Root CodeHash : Type} [DecidableEq CodeHash] (hashing : Hashing Root CodeHash)
  (shared : Shared Root CodeHash)

/-- The value of a key, and the state database with what the read has loaded. -/
def StateDB.readTracked (s : StateDB Root CodeHash) : Tracked → Value × StateDB Root CodeHash
  | .balance addr => (.number (s.GetBalance shared addr), (s.getStateObject shared addr).2)
  | .nonce addr => (.number (s.GetNonce shared addr), (s.getStateObject shared addr).2)
  | .code addr => (.bytes (s.GetCode hashing shared addr), s.loadCode hashing shared addr)
  | .exist addr => (.flag (s.Exist shared addr), (s.getStateObject shared addr).2)
  | .slot addr slot =>
    (.number (s.GetState shared noFaults addr slot), s.loadState shared noFaults addr slot)

def StateDB.writeTracked (s : StateDB Root CodeHash) : Write → StateDB Root CodeHash
  | .balance addr amount => s.SetBalance hashing shared addr amount
  | .nonce addr nonce => s.SetNonce hashing shared addr nonce
  | .code addr code => s.SetCode hashing shared addr code
  | .exist addr => if s.Exist shared addr then s else s.CreateAccount hashing shared addr
  | .slot addr slot value => s.SetState hashing shared noFaults addr slot value

/-- The machine on which a transaction runs. -/
def levm : AccessProgram.Machine (StateDB Root CodeHash) Tracked Value Write :=
  ⟨StateDB.readTracked hashing shared, StateDB.writeTracked hashing shared⟩

variable (SetString : String → Option Int)

/-- What an entry sets. `SetString` is that of `big.Int` for the base 16. An entry without a
number, or with an existence that is zero, sets nothing. -/
def overrideWrite : Tracked → String → Option Write
  | .balance addr, valHex => (SetString (TrimPrefix valHex "0x")).map fun bal => .balance addr bal
  | .nonce addr, valHex =>
    (SetString (TrimPrefix valHex "0x")).map fun n => .nonce addr (Uint64 n)
  | .code addr, valHex => some (.code addr (FromHex valHex))
  | .exist addr, valHex =>
    if valHex ≠ "" ∧ valHex ≠ "0x0" ∧ valHex ≠ "0" then some (.exist addr) else none
  | .slot addr slot, valHex => some (.slot addr slot (HexToHash valHex))

def entryWrite (entry : String × String) : Option Write :=
  (trackedKey entry.1).bind fun key => overrideWrite SetString key entry.2

/-- The entries come in the order in which the map is ranged over. Keys that are not
recognised are skipped. -/
def applyStateOverride (s : StateDB Root CodeHash) (stateOverride : List (String × String)) :
    StateDB Root CodeHash :=
  stateOverride.foldl (fun s entry =>
    match entryWrite SetString entry with
    | some write => s.writeTracked hashing shared write
    | none => s) s

end Model

theorem overrideWrite_key {SetString : String → Option Int} {key : Tracked} {valHex : String}
    {write : Write} (h : overrideWrite SetString key valHex = some write) : write.key = key := by
  cases key with
  | balance addr | nonce addr =>
    obtain ⟨_, _, rfl⟩ := Option.map_eq_some_iff.mp h
    rfl
  | exist addr =>
    rw [overrideWrite, Option.ite_none_right_eq_some] at h
    cases h.2
    rfl
  | code addr | slot addr slot =>
    cases h
    rfl

theorem entryWrite_key {SetString : String → Option Int} {text valHex : String} {write : Write}
    (h : entryWrite SetString (text, valHex) = some write) :
    trackedKey text = some write.key := by
  obtain ⟨key, hKey, hWrite⟩ := Option.bind_eq_some_iff.mp h
  rw [overrideWrite_key hWrite]
  exact hKey

/-! ### The state -/

/-- An address without an account reads as an empty one. -/
def viewAt (state : Address → Option View) (addr : Address) : View :=
  (state addr).getD ⟨0, 0, [], fun _ => 0⟩

def valueAt (state : Address → Option View) : Tracked → Value
  | .balance addr => .number (viewAt state addr).balance
  | .nonce addr => .number (viewAt state addr).nonce
  | .code addr => .bytes (viewAt state addr).code
  | .exist addr => .flag (state addr).isSome
  | .slot addr slot => .number ((viewAt state addr).slots slot)

def Write.onView (view : View) : Write → View
  | .balance _ amount => { view with balance := amount }
  | .nonce _ n => { view with nonce := n }
  | .code _ bytes => { view with code := bytes }
  | .exist _ => view
  | .slot _ index value => { view with slots := Function.update view.slots index value }

/-- Every write makes the account. -/
def written (state : Address → Option View) (write : Write) : Address → Option View :=
  Function.update state write.addr (some (write.onView (viewAt state write.addr)))

section State

variable {state : Address → Option View} {write : Write} {key : Tracked}

theorem isSome_written (state : Address → Option View) (write : Write) (addr : Address) :
    (written state write addr).isSome ↔ (state addr).isSome ∨ write.addr = addr := by
  by_cases hAddr : addr = write.addr
  · subst hAddr
    simp [written]
  · simp [written, hAddr, Ne.symm hAddr]

theorem valueAt_congr {state' : Address → Option View} (h : state key.addr = state' key.addr) :
    valueAt state key = valueAt state' key := by
  cases key <;> simp only [Tracked.addr] at h <;> simp [valueAt, viewAt, h]

/-- Apart from the existence of the account, a write changes its own key only. -/
theorem valueAt_written (state : Address → Option View) (write : Write)
    (hKey : ∀ addr, key ≠ .exist addr) :
    valueAt (written state write) key =
      if write.key = key then write.value else valueAt state key := by
  by_cases hAddr : key.addr = write.addr
  · cases key with
    | exist addr => exact absurd rfl (hKey addr)
    | balance addr | nonce addr | code addr =>
      obtain rfl : addr = write.addr := hAddr
      cases write <;> simp [valueAt, viewAt, written, Write.addr, Write.key, Write.value,
        Write.onView]
    | slot addr index =>
      obtain rfl : addr = write.addr := hAddr
      cases write with
      | slot addr other value =>
        by_cases hSlot : index = other <;>
          simp [valueAt, viewAt, written, Write.addr, Write.key, Write.value, Write.onView,
            hSlot, Ne.symm]
      | _ => simp [valueAt, viewAt, written, Write.addr, Write.key, Write.onView]
  · have hOther : write.key ≠ key := by
      rintro rfl
      exact hAddr (Write.key_addr write)
    rw [if_neg hOther]
    exact valueAt_congr (Function.update_of_ne hAddr ..)

/-- An account exists after a series of writes if it did, or if one of them was to it. -/
theorem isSome_foldl (state : Address → Option View) (writes : List Write) (addr : Address) :
    ((writes.foldl written state) addr).isSome ↔
      (state addr).isSome ∨ ∃ write ∈ writes, write.addr = addr := by
  induction writes generalizing state with
  | nil => simp
  | cons write writes ih =>
    rw [foldl_cons, ih, isSome_written, or_assoc]
    simp only [mem_cons, exists_eq_or_imp]

/-- The value of a key after a series of writes is that of a write to it, if there is one. -/
theorem valueAt_foldl (state : Address → Option View) (writes : List Write) (hKey : ∀ addr, key ≠ .exist addr) :
    (∃ write ∈ writes, write.key = key ∧ valueAt (writes.foldl written state) key = write.value) ∨
      (∀ write ∈ writes, write.key ≠ key) ∧
        valueAt (writes.foldl written state) key = valueAt state key := by
  induction writes using List.reverseRecOn with
  | nil => exact .inr ⟨nofun, rfl⟩
  | append_singleton writes last ih =>
    rw [foldl_append, foldl_cons, foldl_nil, valueAt_written _ _ hKey]
    split_ifs with hLast
    · exact .inl ⟨last, by simp, hLast, rfl⟩
    · rcases ih with ⟨write, hWrite, hSame⟩ | ⟨hNone, hSame⟩
      · exact .inl ⟨write, mem_append_left _ hWrite, hSame⟩
      · refine .inr ⟨fun write hWrite => ?_, hSame⟩
        rcases mem_append.mp hWrite with hWrite | hWrite
        · exact hNone write hWrite
        · exact mem_singleton.mp hWrite ▸ hLast

theorem valueAt_foldl_congr {writes writes' : List Write} (hKey : ∀ addr, key ≠ .exist addr)
    (hSame : ∀ write, write.key = key → (write ∈ writes ↔ write ∈ writes'))
    (hOnly : ∀ write ∈ writes, write.key = key → ∀ other ∈ writes, other.key = key →
      write = other) :
    valueAt (writes.foldl written state) key = valueAt (writes'.foldl written state) key := by
  rcases valueAt_foldl state writes hKey with
    ⟨write, hWrite, hTo, hValue⟩ | ⟨hNone, hValue⟩ <;>
  rcases valueAt_foldl state writes' hKey with
    ⟨other, hOther, hTo', hValue'⟩ | ⟨hNone', hValue'⟩
  · rw [hValue, hValue', hOnly write hWrite hTo other ((hSame other hTo').mpr hOther) hTo']
  · exact absurd hTo (hNone' write ((hSame write hTo).mp hWrite))
  · exact absurd hTo' (hNone other ((hSame other hTo').mpr hOther))
  · rw [hValue, hValue']

end State

/-! ### The state database -/

section Represents

variable {Root CodeHash : Type} [DecidableEq CodeHash] {hashing : Hashing Root CodeHash}
  {shared : Shared Root CodeHash} {state : Address → Option View} {s : StateDB Root CodeHash}
  {addr : Address}

theorem Represents.readTracked (h : Represents hashing shared state s) (key : Tracked) :
    (s.readTracked hashing shared key).1 = valueAt state key ∧
      Represents hashing shared state (s.readTracked hashing shared key).2 := by
  have hView := h.reads key.addr
  have hLoaded : Represents hashing shared state (s.getStateObject shared key.addr).2 := by
    rw [h.getStateObject]
    exact h.congr object_getDeletedStateObject
  cases key with
  | balance addr => exact ⟨congrArg (fun view : View => Value.number view.balance) hView, hLoaded⟩
  | nonce addr => exact ⟨congrArg (fun view : View => Value.number view.nonce) hView, hLoaded⟩
  | code addr => exact ⟨congrArg (fun view : View => Value.bytes view.code) hView, h.loadCode addr⟩
  | exist addr => exact ⟨congrArg Value.flag (h.exist addr), hLoaded⟩
  | slot addr index =>
    exact ⟨congrArg (fun view : View => Value.number (view.slots index)) hView,
      h.loadState addr index⟩

theorem Represents.getDeletedStateObject_absent (h : Represents hashing shared state s)
    (hState : state addr = none) : s.getDeletedStateObject shared addr = (none, s) := by
  obtain ⟨hObject, hTrie⟩ := Option.or_eq_none_iff.mp (h.absent addr hState)
  rw [StateDB.getDeletedStateObject, hObject, Option.map_eq_none_iff.mp hTrie]

theorem Represents.getOrNew_createAccount (h : Represents hashing shared state s)
    (hState : state addr = none) :
    (s.CreateAccount hashing shared addr).GetOrNewStateObject hashing shared addr =
      s.GetOrNewStateObject hashing shared addr := by
  have hAbsent := h.getDeletedStateObject_absent hState
  have hCreated : s.CreateAccount hashing shared addr =
      (s.append (.createObjectChange addr)).setStateObject addr (newObject hashing.emptyAccount) := by
    simp only [StateDB.CreateAccount, StateDB.createObject, hAbsent]
  have hNew : s.GetOrNewStateObject hashing shared addr =
      (newObject hashing.emptyAccount, s.CreateAccount hashing shared addr) := by
    rw [hCreated]
    simp [StateDB.GetOrNewStateObject, StateDB.getStateObject, StateDB.createObject, hAbsent]
  have hFound : (s.CreateAccount hashing shared addr).getStateObject shared addr =
      (some (newObject hashing.emptyAccount), s.CreateAccount hashing shared addr) := by
    rw [hCreated]
    simp [StateDB.getStateObject, StateDB.getDeletedStateObject, StateDB.setStateObject, newObject]
  rw [hNew, StateDB.GetOrNewStateObject, hFound]

theorem Represents.writeTracked_createAccount (h : Represents hashing shared state s)
    (hEmpty : shared.nodes (hashing.rootOf fun _ => 0) = some fun _ => 0) {write : Write}
    (hState : state write.addr = none) :
    (s.CreateAccount hashing shared write.addr).writeTracked hashing shared write =
      s.writeTracked hashing shared write := by
  have hGet := h.getOrNew_createAccount hState
  cases write with
  | exist addr =>
    replace hState : state addr = none := hState
    have hExist : (s.CreateAccount hashing shared addr).Exist shared addr = true := by
      rw [(h.createAccount hEmpty hState).exist, Function.update_self]
      rfl
    have hAbsent : ¬ s.Exist shared addr = true := by
      rw [h.exist]
      simpa using hState
    rw [StateDB.writeTracked, StateDB.writeTracked, if_neg hAbsent]
    exact if_pos hExist
  | balance addr amount | nonce addr n | code addr bytes | slot addr index value =>
    simp only [Write.addr] at hGet
    simp only [Write.addr, StateDB.writeTracked, StateDB.SetBalance, StateDB.SetNonce,
      StateDB.SetCode, StateDB.SetState, hGet]

theorem Represents.writeTracked_present (h : Represents hashing shared state s) {write : Write}
    {view : View} (hState : state write.addr = some view) :
    Represents hashing shared (Function.update state write.addr (some (write.onView view)))
      (s.writeTracked hashing shared write) := by
  cases write with
  | balance addr amount => exact h.setBalance hState amount
  | nonce addr n => exact h.setNonce hState n
  | code addr bytes => exact h.setCode hState bytes
  | slot addr index value => exact h.setState hState index value
  | exist addr =>
    have hExist : s.Exist shared addr = true := by
      rw [h.exist]
      exact Option.isSome_of_mem hState
    rw [StateDB.writeTracked, if_pos hExist]
    rwa [Write.onView, ← hState, Function.update_eq_self]

theorem Represents.writeTracked (h : Represents hashing shared state s)
    (hEmpty : shared.nodes (hashing.rootOf fun _ => 0) = some fun _ => 0) (write : Write) :
    Represents hashing shared (written state write) (s.writeTracked hashing shared write) := by
  unfold written viewAt
  cases hState : state write.addr with
  | some view => exact h.writeTracked_present hState
  | none =>
    have hMade := (h.createAccount hEmpty hState).writeTracked_present (Function.update_self ..)
    rw [← h.writeTracked_createAccount hEmpty hState]
    rwa [Function.update_idem] at hMade

theorem Represents.applyStateOverride (SetString : String → Option Int)
    (hEmpty : shared.nodes (hashing.rootOf fun _ => 0) = some fun _ => 0)
    (h : Represents hashing shared state s) (stateOverride : List (String × String)) :
    Represents hashing shared ((stateOverride.filterMap (entryWrite SetString)).foldl written state)
      (applyStateOverride hashing shared SetString s stateOverride) := by
  induction stateOverride generalizing state s with
  | nil => exact h
  | cons entry stateOverride ih =>
    cases hWrite : entryWrite SetString entry with
    | none =>
      rw [State.applyStateOverride, foldl_cons, hWrite, filterMap_cons_none hWrite]
      exact ih h
    | some write =>
      rw [State.applyStateOverride, foldl_cons, hWrite, filterMap_cons_some hWrite]
      exact ih (h.writeTracked hEmpty write)

end Represents

end Nezha.State
