import NezhaConcurrency.State.SharedTrie

/-! The state database of a worker in shared-trie mode. Objects of accounts are loaded
from the account trie that all workers share. Updates are made on the objects and
recorded in a journal, from which they can be undone up to a snapshot. A flush finalises
the objects, commits their storage tries to the trie database and then writes the
accounts into the account trie. -/
namespace Nezha.State

open Function

abbrev Code := List UInt8

/-- A Go map from slots to values. -/
abbrev Storage := AList fun _ : Hash => Hash

/-- What a storage trie holds. A slot that is absent is zero. -/
abbrev Slots := Hash → Hash

/-- The root of a storage trie determines what the trie holds. -/
structure Hashing (Root CodeHash : Type) where
  rootOf : Slots → Root
  keccak256 : Code → CodeHash
  root_injective : Function.Injective rootOf

structure Account (Root CodeHash : Type) where
  Nonce : Nat
  Balance : Int
  Root : Root
  CodeHash : CodeHash
  deriving DecidableEq

/-- The account trie, and the storage tries and contract codes of the trie database. -/
structure Shared (Root CodeHash : Type) where
  trie : Address → Option (Account Root CodeHash)
  nodes : Root → Option Slots
  codes : CodeHash → Option Code

/-- `trie` is nil until the storage trie is opened, and `code` until the code is loaded. -/
structure stateObject (Root CodeHash : Type) where
  data : Account Root CodeHash
  dbErr : Option String
  trie : Option Slots
  code : Option Code
  originStorage : Storage
  pendingStorage : Storage
  dirtyStorage : Storage
  dirtyCode : Bool
  suicided : Bool
  deleted : Bool

inductive journalEntry (Root CodeHash : Type) where
  | createObjectChange (account : Address)
  | resetObjectChange (account : Address) (prev : stateObject Root CodeHash)
  | suicideChange (account : Address) (prev : Bool) (prevbalance : Int)
  | balanceChange (account : Address) (prev : Int)
  | nonceChange (account : Address) (prev : Nat)
  | storageChange (account : Address) (key prevalue : Hash)
  | codeChange (account : Address) (prevcode : Option Code) (prevhash : CodeHash)
  | touchChange (account : Address)

structure revision where
  id : Nat
  journalIndex : Nat

/-- The sets of addresses are Go maps, and so are the counts of `dirties`. -/
structure StateDB (Root CodeHash : Type) where
  stateObjects : Address → Option (stateObject Root CodeHash)
  stateObjectsPending : Address → Bool
  stateObjectsDirty : Address → Bool
  entries : List (journalEntry Root CodeHash)
  dirties : Address → Nat
  validRevisions : List revision
  nextRevisionId : Nat

/-- The slots whose node is missing from the database, and the storage tries that cannot be
committed. -/
structure Faults where
  slot : Address → Hash → Bool
  commit : Address → Bool

section Model

variable {Root CodeHash : Type} [DecidableEq Root] [DecidableEq CodeHash]

def ripemd : Address := 3

namespace journalEntry

/-- The address that a change makes dirty. A reset makes none dirty. -/
def dirtied : journalEntry Root CodeHash → Option Address
  | createObjectChange account => some account
  | resetObjectChange _ _ => none
  | suicideChange account _ _ => some account
  | balanceChange account _ => some account
  | nonceChange account _ => some account
  | storageChange account _ _ => some account
  | codeChange account _ _ => some account
  | touchChange account => some account

end journalEntry

section Objects

variable (hashing : Hashing Root CodeHash) (shared : Shared Root CodeHash) (faults : Faults)

def Hashing.emptyAccount : Account Root CodeHash :=
  ⟨0, 0, hashing.rootOf fun _ => 0, hashing.keccak256 []⟩

def newObject (data : Account Root CodeHash) : stateObject Root CodeHash :=
  { data := data, dbErr := none, trie := none, code := none, originStorage := ∅,
    pendingStorage := ∅, dirtyStorage := ∅, dirtyCode := false, suicided := false, deleted := false }

namespace stateObject

variable (obj : stateObject Root CodeHash)

def empty : Bool :=
  obj.data.Nonce = 0 && obj.data.Balance = 0 && obj.data.CodeHash = hashing.keccak256 []

/-- The first error is kept. -/
def setError (err : String) : stateObject Root CodeHash :=
  { obj with dbErr := some (obj.dbErr.getD err) }

/-- The object with its storage trie open. -/
def getTrie : stateObject Root CodeHash :=
  match obj.trie with
  | some _ => obj
  | none =>
    match shared.nodes obj.data.Root with
    | some slots => { obj with trie := some slots }
    | none => { obj with trie := some fun _ => 0 }.setError "can't create storage trie"

/-- What the storage trie holds, once it is open. -/
def slots : Slots := obj.trie.getD fun _ => 0

def GetCommittedState (addr : Address) (key : Hash) : Hash × stateObject Root CodeHash :=
  match obj.pendingStorage.lookup key with
  | some value => (value, obj)
  | none =>
    match obj.originStorage.lookup key with
    | some value => (value, obj)
    | none =>
      let opened := obj.getTrie shared
      if faults.slot addr key then (0, opened.setError "missing trie node")
      else (opened.slots key,
        { opened with originStorage := opened.originStorage.insert key (opened.slots key) })

def GetState (addr : Address) (key : Hash) : Hash × stateObject Root CodeHash :=
  match obj.dirtyStorage.lookup key with
  | some value => (value, obj)
  | none => obj.GetCommittedState shared faults addr key

/-- The code, and the object with the code loaded. -/
def Code : Option State.Code × stateObject Root CodeHash :=
  match obj.code with
  | some code => (some code, obj)
  | none =>
    if obj.data.CodeHash = hashing.keccak256 [] then (none, obj)
    else
      match shared.codes obj.data.CodeHash with
      | some code => (some code, { obj with code := some code })
      | none => (none, obj.setError "can't load code hash")

/-- The dirty slots become pending ones. -/
def finalise : stateObject Root CodeHash :=
  { obj with
    pendingStorage := obj.dirtyStorage.entries.foldl (fun pending slot =>
      pending.insert slot.1 slot.2) obj.pendingStorage
    dirtyStorage := ∅ }

/-- A pending slot goes into the storage trie, unless it has its original value. -/
def updateSlot (addr : Address) (obj : stateObject Root CodeHash)
    (slot : Sigma fun _ : Hash => Hash) : stateObject Root CodeHash :=
  if slot.2 = (obj.originStorage.lookup slot.1).getD 0 then obj
  else
    let written := { obj with originStorage := obj.originStorage.insert slot.1 slot.2 }
    if faults.slot addr slot.1 then written.setError "missing trie node"
    else { written with trie := some (update obj.slots slot.1 slot.2) }

def updateTrie (addr : Address) : stateObject Root CodeHash :=
  let opened := obj.finalise.getTrie shared
  { opened.pendingStorage.entries.foldl (updateSlot faults addr) opened with pendingStorage := ∅ }

/-- The storage trie goes into the trie database, and its root into the account. -/
def CommitTrie (addr : Address) :
    Option String × Shared Root CodeHash × stateObject Root CodeHash :=
  let updated := obj.updateTrie shared faults addr
  match updated.dbErr with
  | some err => (some err, shared, updated)
  | none =>
    if faults.commit addr then (some "trie commit", shared, updated)
    else
      let root := hashing.rootOf updated.slots
      (none, { shared with nodes := update shared.nodes root (some updated.slots) },
        { updated with data := { updated.data with Root := root } })

end stateObject

end Objects

namespace StateDB

section Operations

variable (hashing : Hashing Root CodeHash) (shared : Shared Root CodeHash) (faults : Faults)
  (s : StateDB Root CodeHash)

/-- A state database over the shared trie, with nothing loaded. -/
def NewWithTrie : StateDB Root CodeHash :=
  { stateObjects := fun _ => none, stateObjectsPending := fun _ => false,
    stateObjectsDirty := fun _ => false, entries := [], dirties := fun _ => 0,
    validRevisions := [], nextRevisionId := 0 }

/-- The journal stays as it is. -/
def ResetObjectCache : StateDB Root CodeHash :=
  { s with
    stateObjects := fun _ => none
    stateObjectsPending := fun _ => false
    stateObjectsDirty := fun _ => false }

def dirty (addr : Address) : StateDB Root CodeHash :=
  { s with dirties := update s.dirties addr (s.dirties addr + 1) }

def append (entry : journalEntry Root CodeHash) : StateDB Root CodeHash :=
  let appended := { s with entries := s.entries ++ [entry] }
  match entry.dirtied with
  | some addr => appended.dirty addr
  | none => appended

def setStateObject (addr : Address) (obj : stateObject Root CodeHash) : StateDB Root CodeHash :=
  { s with stateObjects := update s.stateObjects addr (some obj) }

def getDeletedStateObject (addr : Address) :
    Option (stateObject Root CodeHash) × StateDB Root CodeHash :=
  match s.stateObjects addr with
  | some obj => (some obj, s)
  | none =>
    match shared.trie addr with
    | none => (none, s)
    | some data => (some (newObject data), s.setStateObject addr (newObject data))

def getStateObject (addr : Address) : Option (stateObject Root CodeHash) × StateDB Root CodeHash :=
  let (obj, s) := s.getDeletedStateObject shared addr
  (obj.filter fun obj => !obj.deleted, s)

/-- The new object, the one before it, and the state with the new one. -/
def createObject (addr : Address) : stateObject Root CodeHash ×
    Option (stateObject Root CodeHash) × StateDB Root CodeHash :=
  let (prev, s) := s.getDeletedStateObject shared addr
  let newobj := newObject hashing.emptyAccount
  let entry := match prev with
    | none => journalEntry.createObjectChange addr
    | some prev => journalEntry.resetObjectChange addr prev
  (newobj, prev, (s.append entry).setStateObject addr newobj)

def GetOrNewStateObject (addr : Address) : stateObject Root CodeHash × StateDB Root CodeHash :=
  match s.getStateObject shared addr with
  | (some obj, s) => (obj, s)
  | (none, s) =>
    let (newobj, _, s) := s.createObject hashing shared addr
    (newobj, s)

/-- A balance that is set is journaled, also where it does not change. -/
def writeBalance (addr : Address) (obj : stateObject Root CodeHash) (amount : Int) :
    StateDB Root CodeHash :=
  (s.append (.balanceChange addr obj.data.Balance)).setStateObject addr
    { obj with data := { obj.data with Balance := amount } }

def SetBalance (addr : Address) (amount : Int) : StateDB Root CodeHash :=
  let (obj, s) := s.GetOrNewStateObject hashing shared addr
  s.writeBalance addr obj amount

def touch (addr : Address) : StateDB Root CodeHash :=
  let touched := s.append (.touchChange addr)
  if addr = ripemd then touched.dirty addr else touched

def AddBalance (addr : Address) (amount : Int) : StateDB Root CodeHash :=
  let (obj, s) := s.GetOrNewStateObject hashing shared addr
  if amount = 0 then
    if obj.empty hashing then s.touch addr else s
  else s.writeBalance addr obj (obj.data.Balance + amount)

def SubBalance (addr : Address) (amount : Int) : StateDB Root CodeHash :=
  let (obj, s) := s.GetOrNewStateObject hashing shared addr
  if amount = 0 then s else s.writeBalance addr obj (obj.data.Balance - amount)

def SetNonce (addr : Address) (nonce : Nat) : StateDB Root CodeHash :=
  let (obj, s) := s.GetOrNewStateObject hashing shared addr
  (s.append (.nonceChange addr obj.data.Nonce)).setStateObject addr
    { obj with data := { obj.data with Nonce := nonce } }

def SetCode (addr : Address) (code : Code) : StateDB Root CodeHash :=
  let (obj, s) := s.GetOrNewStateObject hashing shared addr
  let (prevcode, obj) := obj.Code hashing shared
  (s.append (.codeChange addr prevcode obj.data.CodeHash)).setStateObject addr
    { obj with
      code := some code
      data := { obj.data with CodeHash := hashing.keccak256 code }
      dirtyCode := true }

def SetState (addr : Address) (key value : Hash) : StateDB Root CodeHash :=
  let (obj, s) := s.GetOrNewStateObject hashing shared addr
  let (prev, obj) := obj.GetState shared faults addr key
  if prev = value then s.setStateObject addr obj
  else (s.append (.storageChange addr key prev)).setStateObject addr
    { obj with dirtyStorage := obj.dirtyStorage.insert key value }

/-- The balance of the account that is replaced is carried over, without a journal entry. -/
def CreateAccount (addr : Address) : StateDB Root CodeHash :=
  let (newobj, prev, s) := s.createObject hashing shared addr
  match prev with
  | none => s
  | some prev => s.setStateObject addr
      { newobj with data := { newobj.data with Balance := prev.data.Balance } }

def Suicide (addr : Address) : StateDB Root CodeHash :=
  match s.getStateObject shared addr with
  | (none, s) => s
  | (some obj, s) =>
    (s.append (.suicideChange addr obj.suicided obj.data.Balance)).setStateObject addr
      { obj with suicided := true, data := { obj.data with Balance := 0 } }

/-! ### Reads -/

def Exist (addr : Address) : Bool := (s.getStateObject shared addr).1.isSome

def GetBalance (addr : Address) : Int :=
  ((s.getStateObject shared addr).1.map fun obj => obj.data.Balance).getD 0

def GetNonce (addr : Address) : Nat :=
  ((s.getStateObject shared addr).1.map fun obj => obj.data.Nonce).getD 0

/-- A code that is nil is no code. -/
def GetCode (addr : Address) : Code :=
  ((s.getStateObject shared addr).1.bind fun obj => (obj.Code hashing shared).1).getD []

def GetState (addr : Address) (key : Hash) : Hash :=
  ((s.getStateObject shared addr).1.map fun obj => (obj.GetState shared faults addr key).1).getD 0

/-- What reading a slot leaves in the object. -/
def loadState (addr : Address) (key : Hash) : StateDB Root CodeHash :=
  match s.getStateObject shared addr with
  | (none, s) => s
  | (some obj, s) => s.setStateObject addr (obj.GetState shared faults addr key).2

/-- What reading the code leaves in the object. -/
def loadCode (addr : Address) : StateDB Root CodeHash :=
  match s.getStateObject shared addr with
  | (none, s) => s
  | (some obj, s) => s.setStateObject addr (obj.Code hashing shared).2

/-! ### Snapshots -/

def Snapshot : Nat × StateDB Root CodeHash :=
  (s.nextRevisionId, { s with
    nextRevisionId := s.nextRevisionId + 1
    validRevisions := s.validRevisions ++ [⟨s.nextRevisionId, s.entries.length⟩] })

/-- A change of the object that an entry is about. Without an object it panics. -/
def undoObject (addr : Address) (undo : stateObject Root CodeHash → stateObject Root CodeHash) :
    Option (StateDB Root CodeHash) :=
  match s.getStateObject shared addr with
  | (none, _) => none
  | (some obj, s) => some (s.setStateObject addr (undo obj))

/-- What undoing an entry makes of the state. -/
def undo : journalEntry Root CodeHash → Option (StateDB Root CodeHash)
  | .createObjectChange account => some { s with
      stateObjects := update s.stateObjects account none
      stateObjectsDirty := update s.stateObjectsDirty account false }
  | .resetObjectChange account prev => some (s.setStateObject account prev)
  | .suicideChange account prev prevbalance =>
    match s.getStateObject shared account with
    | (none, s) => some s
    | (some obj, s) => some (s.setStateObject account
        { obj with suicided := prev, data := { obj.data with Balance := prevbalance } })
  | .balanceChange account prev => s.undoObject shared account fun obj =>
    { obj with data := { obj.data with Balance := prev } }
  | .nonceChange account prev => s.undoObject shared account fun obj =>
    { obj with data := { obj.data with Nonce := prev } }
  | .storageChange account key prevalue => s.undoObject shared account fun obj =>
    { obj with dirtyStorage := obj.dirtyStorage.insert key prevalue }
  | .codeChange account prevcode prevhash => s.undoObject shared account fun obj =>
    { obj with code := prevcode, data := { obj.data with CodeHash := prevhash }, dirtyCode := true }
  | .touchChange _ => some s

/-- The entries from the last one down, each with its dirty count. -/
def revertEntries : List (journalEntry Root CodeHash) → StateDB Root CodeHash →
    Option (StateDB Root CodeHash)
  | [], s => some s
  | entry :: earlier, s => do
      let s ← s.undo shared entry
      let s := match entry.dirtied with
        | some addr => { s with dirties := update s.dirties addr (s.dirties addr - 1) }
        | none => s
      revertEntries earlier s

/-- A revision that is not valid panics. -/
def RevertToSnapshot (revid : Nat) : Option (StateDB Root CodeHash) :=
  let idx := s.validRevisions.findIdx fun rev => revid ≤ rev.id
  match s.validRevisions[idx]? with
  | none => none
  | some rev =>
    if rev.id ≠ revid then none
    else do
      let reverted ← revertEntries shared (s.entries.drop rev.journalIndex).reverse s
      return { reverted with
        entries := s.entries.take rev.journalIndex
        validRevisions := s.validRevisions.take idx }

/-! ### The flush -/

/-- Every revision is discarded. -/
def clearJournalAndRefund : StateDB Root CodeHash :=
  { s with
    entries := []
    dirties := if s.entries.length > 0 then fun _ => 0 else s.dirties
    validRevisions := [] }

def Finalise (deleteEmptyObjects : Bool) : StateDB Root CodeHash :=
  let visited (addr : Address) : Bool := 0 < s.dirties addr && (s.stateObjects addr).isSome
  clearJournalAndRefund { s with
    stateObjects := fun addr => if 0 < s.dirties addr then
        (s.stateObjects addr).map fun obj =>
          if obj.suicided || (deleteEmptyObjects && obj.empty hashing) then { obj with deleted := true }
          else obj.finalise
      else s.stateObjects addr
    stateObjectsPending := fun addr => s.stateObjectsPending addr || visited addr
    stateObjectsDirty := fun addr => s.stateObjectsDirty addr || visited addr }

/-- The storage tries of the dirty objects, in the order in which they are visited, up to
the first error. -/
def commitObjects : List Address → Shared Root CodeHash → StateDB Root CodeHash →
    Option String × Shared Root CodeHash × StateDB Root CodeHash
  | [], shared, s => (none, shared, s)
  | addr :: rest, shared, s =>
    match s.stateObjects addr with
    | none => commitObjects rest shared s
    | some obj =>
      if obj.deleted then commitObjects rest shared s
      else
        match obj.CommitTrie hashing shared faults addr with
        | (some err, shared, obj) => (some err, shared, s.setStateObject addr obj)
        | (none, shared, obj) => commitObjects rest shared (s.setStateObject addr obj)

def CommitDirtyStorage (order : List Address) :
    Option String × Shared Root CodeHash × StateDB Root CodeHash :=
  match commitObjects hashing faults order shared s with
  | (some err, shared, s) => (some err, shared, s)
  | (none, shared, s) => (none, shared, { s with stateObjectsDirty := fun _ => false })

/-- The account of an object in the trie. An account with a negative balance cannot be
encoded, and panics. -/
def writeAccount (trie : Address → Option (Account Root CodeHash)) (addr : Address)
    (obj : stateObject Root CodeHash) : Option (Address → Option (Account Root CodeHash)) :=
  if obj.deleted then some (update trie addr none)
  else if obj.data.Balance < 0 then none
  else some (update trie addr (some obj.data))

def writeAccounts : List Address → (Address → Option (Account Root CodeHash)) →
    Option (Address → Option (Account Root CodeHash))
  | [], trie => some trie
  | addr :: rest, trie =>
    match s.stateObjects addr with
    | none => writeAccounts rest trie
    | some obj => writeAccount trie addr obj >>= writeAccounts rest

/-- The error of the flush, what is shared after it, and the state database. The lists are
the orders in which the dirty and the pending objects are visited. No result is a panic. -/
def IntermediateShared_Re (dirtyOrder pendingOrder : List Address) :
    Option (Option String × Shared Root CodeHash × StateDB Root CodeHash) :=
  match (s.Finalise hashing false).CommitDirtyStorage hashing shared faults dirtyOrder with
  | (some err, shared, s) => some (some err, shared, s)
  | (none, shared, s) => do
      let trie ← s.writeAccounts pendingOrder shared.trie
      return (none, { shared with trie := trie }, { s with stateObjectsPending := fun _ => false })

end Operations

/-! ### Runs of operations -/

/-- What a transaction does to the state database. -/
inductive Op where
  | AddBalance (addr : Address) (amount : Int)
  | SubBalance (addr : Address) (amount : Int)
  | SetBalance (addr : Address) (amount : Int)
  | SetNonce (addr : Address) (nonce : Nat)
  | SetCode (addr : Address) (code : Code)
  | SetState (addr : Address) (key value : Hash)
  | CreateAccount (addr : Address)
  | Suicide (addr : Address)
  | GetAccount (addr : Address)
  | GetCode (addr : Address)
  | GetState (addr : Address) (key : Hash)
  | Snapshot
  | RevertToSnapshot (revid : Nat)

variable (hashing : Hashing Root CodeHash) (shared : Shared Root CodeHash) (faults : Faults)

def apply (s : StateDB Root CodeHash) : Op → Option (StateDB Root CodeHash)
  | .AddBalance addr amount => some (s.AddBalance hashing shared addr amount)
  | .SubBalance addr amount => some (s.SubBalance hashing shared addr amount)
  | .SetBalance addr amount => some (s.SetBalance hashing shared addr amount)
  | .SetNonce addr nonce => some (s.SetNonce hashing shared addr nonce)
  | .SetCode addr code => some (s.SetCode hashing shared addr code)
  | .SetState addr key value => some (s.SetState hashing shared faults addr key value)
  | .CreateAccount addr => some (s.CreateAccount hashing shared addr)
  | .Suicide addr => some (s.Suicide shared addr)
  | .GetAccount addr => some (s.getStateObject shared addr).2
  | .GetCode addr => some (s.loadCode hashing shared addr)
  | .GetState addr key => some (s.loadState shared faults addr key)
  | .Snapshot => some s.Snapshot.2
  | .RevertToSnapshot revid => s.RevertToSnapshot shared revid

/-- The state after all operations, unless one of them panics. -/
def run (s : StateDB Root CodeHash) (ops : List Op) : Option (StateDB Root CodeHash) :=
  ops.foldlM (apply hashing shared faults) s

end StateDB

end Model

/-! ### What a commit of storage tries leaves as it is -/

variable {Root CodeHash : Type}

/-- What is read of an address. -/
@[ext] structure View where
  balance : Int
  nonce : Nat
  code : Code
  slots : Slots

def StateDB.view [DecidableEq CodeHash] (hashing : Hashing Root CodeHash)
    (shared : Shared Root CodeHash) (faults : Faults) (s : StateDB Root CodeHash) (addr : Address) :
    View :=
  ⟨s.GetBalance shared addr, s.GetNonce shared addr, s.GetCode hashing shared addr,
    s.GetState shared faults addr⟩

/-- Two state databases read the same accounts. -/
def SameReads [DecidableEq CodeHash] (hashing : Hashing Root CodeHash) (faults : Faults)
    (shared : Shared Root CodeHash) (s : StateDB Root CodeHash)
    (shared' : Shared Root CodeHash) (s' : StateDB Root CodeHash) : Prop :=
  ∀ addr, s.view hashing shared faults addr = s'.view hashing shared' faults addr

/-- The trie database finds what was committed under a root, and has the storage trie of
every account. -/
structure Shared.Intact (hashing : Hashing Root CodeHash) (shared : Shared Root CodeHash) :
    Prop where
  rooted : ∀ root slots, shared.nodes root = some slots → hashing.rootOf slots = root
  empty : shared.nodes (hashing.rootOf fun _ => 0) = some fun _ => 0
  resolves : ∀ addr account, shared.trie addr = some account →
    ∃ slots, shared.nodes account.Root = some slots

/-- Storage tries have been added, and nothing else has changed. -/
structure Extends (hashing : Hashing Root CodeHash) (shared shared' : Shared Root CodeHash) :
    Prop where
  trie : shared'.trie = shared.trie
  codes : shared'.codes = shared.codes
  nodes : ∀ root slots, shared.nodes root = some slots → hashing.rootOf slots = root →
    shared'.nodes root = some slots

section Extends

variable {hashing : Hashing Root CodeHash} {faults : Faults}
  {shared shared' shared'' : Shared Root CodeHash}

theorem Extends.refl (shared : Shared Root CodeHash) : Extends hashing shared shared :=
  ⟨rfl, rfl, fun _ _ h _ => h⟩

theorem Extends.trans (h : Extends hashing shared shared')
    (h' : Extends hashing shared' shared'') : Extends hashing shared shared'' where
  trie := h'.trie.trans h.trie
  codes := h'.codes.trans h.codes
  nodes root slots hNode hRoot := h'.nodes root slots (h.nodes root slots hNode hRoot) hRoot

variable (hashing faults shared) in
theorem extends_commitTrie [DecidableEq Root] (obj : stateObject Root CodeHash) (addr : Address) :
    Extends hashing shared (obj.CommitTrie hashing shared faults addr).2.1 := by
  unfold stateObject.CommitTrie
  dsimp only
  split
  · exact .refl shared
  · split_ifs
    · exact .refl shared
    · refine ⟨rfl, rfl, fun root slots hNode hRoot => ?_⟩
      by_cases hSame : root = hashing.rootOf (obj.updateTrie shared faults addr).slots
      · -- a trie that is there already is the one that is committed
        have hSlots := hashing.root_injective (hRoot.trans hSame)
        rw [hSame, hSlots]
        exact update_self ..
      · exact (update_of_ne hSame ..).trans hNode

variable (hashing faults) in
theorem extends_commitObjects [DecidableEq Root] (order : List Address) (shared : Shared Root CodeHash)
    (s : StateDB Root CodeHash) :
    Extends hashing shared (StateDB.commitObjects hashing faults order shared s).2.1 := by
  fun_induction StateDB.commitObjects hashing faults order shared s with
  | case1 => exact .refl _
  | case2 _ _ _ _ _ ih => exact ih
  | case3 _ _ _ _ _ _ _ ih => exact ih
  | case4 addr _ shared _ obj _ _ _ _ _ hCommit =>
    have h := extends_commitTrie hashing faults shared obj addr
    rw [hCommit] at h
    exact h
  | case5 addr _ shared _ obj _ _ _ _ hCommit ih =>
    have h := extends_commitTrie hashing faults shared obj addr
    rw [hCommit] at h
    exact h.trans ih

/-- The code under a hash. -/
def readCode [DecidableEq CodeHash] (hashing : Hashing Root CodeHash) (shared : Shared Root CodeHash)
    (codeHash : CodeHash) : Option Code :=
  if codeHash = hashing.keccak256 [] then none else shared.codes codeHash

theorem getStateObject_reset (s : StateDB Root CodeHash) (addr : Address) :
    (s.ResetObjectCache.getStateObject shared addr).1 = (shared.trie addr).map newObject := by
  unfold StateDB.getStateObject StateDB.getDeletedStateObject
  change (Option.filter _ (match shared.trie addr with
    | none => _
    | some data => _ : Option (stateObject _ _) × _).1) = _
  cases shared.trie addr <;> rfl

section Reads

variable [DecidableEq CodeHash] {s : StateDB Root CodeHash} {addr : Address}
  {obj : stateObject Root CodeHash}

theorem view_of_none (h : (s.getStateObject shared addr).1 = none) :
    s.view hashing shared faults addr = ⟨0, 0, [], fun _ => 0⟩ := by
  ext <;> simp [StateDB.view, StateDB.GetBalance, StateDB.GetNonce, StateDB.GetCode,
    StateDB.GetState, h]

theorem view_of_some (h : (s.getStateObject shared addr).1 = some obj) :
    s.view hashing shared faults addr = ⟨obj.data.Balance, obj.data.Nonce,
      (obj.Code hashing shared).1.getD [], fun key => (obj.GetState shared faults addr key).1⟩ := by
  ext <;> simp [StateDB.view, StateDB.GetBalance, StateDB.GetNonce, StateDB.GetCode,
    StateDB.GetState, h]

/-- What is read of an account with nothing loaded. -/
def Account.view (hashing : Hashing Root CodeHash) (shared : Shared Root CodeHash)
    (faults : Faults) (addr : Address) (account : Account Root CodeHash) (slots : Slots) : View :=
  ⟨account.Balance, account.Nonce, (readCode hashing shared account.CodeHash).getD [],
    fun key => if faults.slot addr key then 0 else slots key⟩

theorem code_newObject (data : Account Root CodeHash) :
    ((newObject data).Code hashing shared).1 = readCode hashing shared data.CodeHash := by
  unfold stateObject.Code readCode
  change (if data.CodeHash = _ then _ else _ : Option Code × _).1 = _
  split_ifs
  · rfl
  · change (match shared.codes data.CodeHash with | some code => _ | none => _ : Option Code × _).1 = _
    cases shared.codes data.CodeHash <;> rfl

theorem view_newObject {account : Account Root CodeHash} {slots : Slots}
    (h : (s.getStateObject shared addr).1 = some (newObject account))
    (hSlots : shared.nodes account.Root = some slots) :
    s.view hashing shared faults addr = account.view hashing shared faults addr slots := by
  have hTrie : (newObject account).getTrie shared = { newObject account with trie := some slots } := by
    change (match shared.nodes account.Root with | some slots => _ | none => _ : stateObject _ _) = _
    rw [hSlots]
  rw [view_of_some h, code_newObject]
  refine View.ext rfl rfl rfl (funext fun key => ?_)
  change (if faults.slot addr key then _ else _ : Hash × _).1 = _
  rw [hTrie]
  split_ifs <;> rename_i hFault <;> simp [Account.view, hFault, stateObject.slots]

theorem view_reset_none (h : shared.trie addr = none) (s : StateDB Root CodeHash) :
    s.ResetObjectCache.view hashing shared faults addr = ⟨0, 0, [], fun _ => 0⟩ :=
  view_of_none (by rw [getStateObject_reset, h]; rfl)

theorem view_reset_some {account : Account Root CodeHash} {slots : Slots}
    (h : shared.trie addr = some account) (hSlots : shared.nodes account.Root = some slots)
    (s : StateDB Root CodeHash) : s.ResetObjectCache.view hashing shared faults addr =
      account.view hashing shared faults addr slots :=
  view_newObject (by rw [getStateObject_reset, h]; rfl) hSlots

/-- Who has nothing loaded reads the same accounts after storage tries have been added. -/
theorem sameReads_of_extends (intact : shared.Intact hashing)
    (h : Extends hashing shared shared') (s : StateDB Root CodeHash) :
    SameReads hashing faults shared' s.ResetObjectCache shared s.ResetObjectCache := by
  intro addr
  cases hAccount : shared.trie addr with
  | none => rw [view_reset_none hAccount, view_reset_none (by rw [h.trie, hAccount])]
  | some account =>
    obtain ⟨slots, hSlots⟩ := intact.resolves addr account hAccount
    have hSlots' := h.nodes _ _ hSlots (intact.rooted _ _ hSlots)
    rw [view_reset_some hAccount hSlots, view_reset_some (by rw [h.trie, hAccount]) hSlots',
      Account.view, Account.view, readCode, readCode, h.codes]

end Reads

end Extends

end Nezha.State
