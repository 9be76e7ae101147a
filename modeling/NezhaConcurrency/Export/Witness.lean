import NezhaConcurrency.Core.DepurgeSetup
import NezhaConcurrency.Library.GoString
import NezhaConcurrency.Library.RangeLoop

/-! The block witness of the dataset exporter. The prestate traces of a block are
scanned in the order of the transactions. An account enters the witness with the
trace that first lists it, and a slot with the trace that first lists the slot. -/
namespace Nezha

/-- A Go map from slots to values. A nil map is an empty one. -/
abbrev StorageMap := AList fun _ : String => String

structure PrestateAccount where
  Balance : String
  Nonce : String
  Code : String
  CodeHash : String
  Storage : StorageMap

/-- A Go map from addresses to accounts, in the order in which a `range` statement
visits it. The pointer to an account may be nil. -/
abbrev AccountMap := AList fun _ : String => Option PrestateAccount

/-- The account under an address, if there is one. -/
def AccountMap.account (accounts : AccountMap) (addr : String) : Option PrestateAccount :=
  (accounts.lookup addr).join

/-- In diff mode `Accounts` is the state before the transaction and `Added` the one after. -/
structure PrestateTracerResult where
  Accounts : AccountMap
  Added : AccountMap

structure WitnessAccount where
  Balance : String
  Nonce : String
  CodeHash : String
  Code : String
  Storage : StorageMap

structure BlockWitness where
  Accounts : AList fun _ : String => WitnessAccount

structure TxRWSets where
  TxHash : String
  TxIndex : Nat
  ReadKeys : List String
  WriteKeys : List String

structure Receipt where
  TxHash : String
  Status : Nat
  GasUsed : Nat
  Logs : List String

structure CanonicalReceipt where
  TxHash : String
  TxIndex : Nat
  Status : Nat
  GasUsed : Nat
  LogsCount : Nat

open GoString

/-- The lowercase text, with `0x` in front. -/
def with0x (s : String) : String :=
  if HasPrefix (ToLower s) "0x" then ToLower s else "0x" ++ ToLower s

def AcctKey (addr field : String) : String := "acct:" ++ with0x addr ++ ":" ++ field

def SlotKey (addr slot : String) : String := "slot:" ++ with0x addr ++ ":" ++ with0x slot

/-- The account as the first trace that lists it has it. -/
def firstSeen (acct : PrestateAccount) : WitnessAccount where
  Balance := acct.Balance
  Nonce := acct.Nonce
  CodeHash := acct.CodeHash
  Code := acct.Code
  Storage := acct.Storage

/-- A slot that is not there yet is added. -/
def addSlot (existing : StorageMap) (slot : Sigma fun _ : String => String) : StorageMap :=
  if slot.1 ∈ existing then existing else existing.insert slot.1 slot.2

def addSlots (existing storage : StorageMap) : StorageMap :=
  storage.entries.foldl addSlot existing

def addAccount (accounts : AList fun _ : String => WitnessAccount)
    (entry : Sigma fun _ : String => Option PrestateAccount) :
    AList fun _ : String => WitnessAccount :=
  match entry.2 with
  | none => accounts
  | some acct =>
    match accounts.lookup entry.1 with
    | none => accounts.insert entry.1 (firstSeen acct)
    | some existing => accounts.insert entry.1
        { existing with Storage := addSlots existing.Storage acct.Storage }

/-- The keys that a listed account adds to the read keys. -/
def prestateKeys (addr : String) (acct : PrestateAccount) : List String :=
  acct.Storage.keys.map (SlotKey addr) ++
    (if acct.Balance ≠ "" ∧ acct.Balance ≠ "0x0" then [AcctKey addr "balance"] else []) ++
    (if acct.Nonce ≠ "" then [AcctKey addr "nonce"] else []) ++
    (if acct.CodeHash ≠ "" ∧ acct.CodeHash ≠ "0x0" then [AcctKey addr "code"] else [])

/-- The witness after a trace, and the read keys of the transaction. -/
def processPrestate (witness : BlockWitness) (accounts : AccountMap) : BlockWitness × List String :=
  (⟨accounts.entries.foldl addAccount witness.Accounts⟩, accounts.entries.flatMap fun entry =>
      match entry.2 with
      | none => []
      | some acct => prestateKeys entry.1 acct)

/-- The keys of an account that is in both states, or only in the one after. -/
def changedKeys (addr : String) (preAcct : Option PrestateAccount) (postAcct : PrestateAccount) :
    List String :=
  match preAcct with
  | none =>
    [AcctKey addr "balance", AcctKey addr "nonce"] ++
      (if postAcct.Code ≠ "" ∧ postAcct.Code ≠ "0x" then [AcctKey addr "code"] else []) ++
      postAcct.Storage.keys.map (SlotKey addr)
  | some preAcct =>
    (if preAcct.Balance ≠ postAcct.Balance then [AcctKey addr "balance"] else []) ++
      (if preAcct.Nonce ≠ postAcct.Nonce then [AcctKey addr "nonce"] else []) ++
      (if preAcct.CodeHash ≠ postAcct.CodeHash then [AcctKey addr "code"] else []) ++
      (postAcct.Storage.entries.filter fun slot =>
        preAcct.Storage.lookup slot.1 ≠ some slot.2).map fun slot => SlotKey addr slot.1

def postKeys (pre : AccountMap) (entry : Sigma fun _ : String => Option PrestateAccount) :
    List String :=
  match entry.2 with
  | none => []
  | some postAcct => changedKeys entry.1 (pre.account entry.1) postAcct

/-- The keys of an account that is only in the state before. -/
def removedKeys (post : AccountMap) (addr : String) : List String :=
  if addr ∈ post then []
  else [AcctKey addr "balance", AcctKey addr "nonce", AcctKey addr "code"]

def computeWriteKeys (pre post : AccountMap) : List String :=
  post.entries.flatMap (postKeys pre) ++ pre.keys.flatMap (removedKeys post)

/-- The keys of a Go map are distinct. -/
def sortedKeys (keys : List String) : List String := sortStrings (uniqueKeys keys)

/-- `txs` are the hashes of the transactions of the block. -/
def txHash (txs : List (Option String)) (txIndex : Nat) : String :=
  (txs[txIndex]?.join).getD ""

def diffKeys (diffTraces : List (Option PrestateTracerResult)) (txIndex : Nat) : List String :=
  match diffTraces[txIndex]?.join with
  | none => []
  | some diff => computeWriteKeys diff.Accounts diff.Added

/-- One round of the loop over the traces. -/
def traceStep (txs : List (Option String)) (diffTraces : List (Option PrestateTracerResult))
    (state : BlockWitness × List TxRWSets) (trace : Option PrestateTracerResult × Nat) :
    BlockWitness × List TxRWSets :=
  match trace.1 with
  | none => (state.1, state.2 ++ [⟨txHash txs trace.2, trace.2, [], []⟩])
  | some result =>
    let (witness, readKeys) := processPrestate state.1 result.Accounts
    (witness, state.2 ++ [⟨txHash txs trace.2, trace.2, sortedKeys readKeys,
      sortedKeys (diffKeys diffTraces trace.2)⟩])

def canonicalReceipts (receipts : List (Option Receipt)) : List CanonicalReceipt :=
  receipts.zipIdx.filterMap fun receipt => receipt.1.map fun r =>
    ⟨r.TxHash, receipt.2, r.Status, r.GasUsed, r.Logs.length⟩

def BuildBlockWitness (txs : List (Option String))
    (traces diffTraces : List (Option PrestateTracerResult)) (receipts : List (Option Receipt)) :
    BlockWitness × List TxRWSets × List CanonicalReceipt :=
  let (witness, txRWSets) := traces.zipIdx.foldl (traceStep txs diffTraces) (⟨∅⟩, [])
  (witness, txRWSets, canonicalReceipts receipts)

end Nezha
