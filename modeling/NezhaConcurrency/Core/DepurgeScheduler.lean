import NezhaConcurrency.Core.TransactionQueue

/-! The Depurge scheduler of `core/Depurge.go`. Every transaction waits in the
queue of each of its conservative keys and becomes ready once it is at the
front of all of them. Go maps that are read with their zero value are total
functions here. A key without a queue reads as an empty queue: `addTransaction`
creates the queue of every key it files a transaction under, so the other
methods never meet a missing one. -/
namespace Nezha

open Function

/-- The part of a transaction's context that the scheduler reads. The two maps
are listed in the order in which one `range` statement visits them. -/
structure TransactionContext where
  TxID : String
  PreReadSet : List (String × List UInt8)
  PreWriteSet : List (String × List UInt8)

structure DepurgeScheduler where
  keyQueues : String → TransactionQueue
  txKeyMap : String → List String
  txExecuted : String → Bool
  readyQueue : List String
  pruneReadyQueue : List String
  txReadyCount : String → Int
  inReady : String → Bool
  inPruneReady : String → Bool

/-- `sort.Strings`. -/
def sortStrings (keys : List String) : List String := keys.insertionSort (· ≤ ·)

/-- The first occurrence of every key, in order. This is the `seen`/`uniq` loop. -/
def uniqueKeys (keys : List String) : List String :=
  keys.foldl (fun uniq k => if k ∈ uniq then uniq else uniq ++ [k]) []

namespace DepurgeScheduler

def NewDepurgeScheduler : DepurgeScheduler where
  keyQueues := fun _ => TransactionQueue.newTransactionQueue
  txKeyMap := fun _ => []
  txExecuted := fun _ => false
  readyQueue := []
  pruneReadyQueue := []
  txReadyCount := fun _ => 0
  inReady := fun _ => false
  inPruneReady := fun _ => false

def setQueue (ds : DepurgeScheduler) (key : String) (queue : TransactionQueue) :
    DepurgeScheduler :=
  { ds with keyQueues := update ds.keyQueues key queue }

def decrement (ds : DepurgeScheduler) (txID : String) : DepurgeScheduler :=
  { ds with
    txReadyCount := update ds.txReadyCount txID (ds.txReadyCount txID - 1) }

def pushReadyQueue (ds : DepurgeScheduler) (txID : String) : DepurgeScheduler :=
  { ds with
    readyQueue := ds.readyQueue ++ [txID]
    inReady := update ds.inReady txID true }

def pushPruneReadyQueue (ds : DepurgeScheduler) (txID : String) : DepurgeScheduler :=
  { ds with
    pruneReadyQueue := ds.pruneReadyQueue ++ [txID]
    inPruneReady := update ds.inPruneReady txID true }

/-- File one key of a transaction under construction. -/
def addKey (txID : String) (ds : DepurgeScheduler) (key : String) : DepurgeScheduler :=
  let ds := ds.setQueue key ((ds.keyQueues key).push txID)
  if (ds.keyQueues key).front = txID then ds.decrement txID else ds

/-- Enter a transaction and its sorted keys into the three maps. -/
def enter (ds : DepurgeScheduler) (txID : String) (keys : List String) : DepurgeScheduler :=
  { ds with
    txKeyMap := update ds.txKeyMap txID keys
    txExecuted := update ds.txExecuted txID false
    txReadyCount := update ds.txReadyCount txID keys.length }

def addTransaction (ds : DepurgeScheduler) (txID : String) (keys : List String) :
    DepurgeScheduler :=
  let keys := sortStrings (uniqueKeys keys)
  let ds := keys.foldl (addKey txID) (ds.enter txID keys)
  if ds.txReadyCount txID = 0 then ds.pushReadyQueue txID else ds

/-- What `Execute` does with the transaction that has become the front. -/
def releaseReady (ds : DepurgeScheduler) (nextTx : String) : DepurgeScheduler :=
  if nextTx ≠ "" ∧ ds.txExecuted nextTx = false then
    let ds := ds.decrement nextTx
    if ds.txReadyCount nextTx = 0 ∧ ds.inReady nextTx = false then
      ds.pushReadyQueue nextTx
    else ds
  else ds

/-- What `Abort` and `Prune` do with it. Unlike `Execute` they also look at
`inPruneReady`, and they push on the other list. -/
def releasePruneReady (ds : DepurgeScheduler) (nextTx : String) : DepurgeScheduler :=
  if nextTx ≠ "" ∧ ds.txExecuted nextTx = false then
    let ds := ds.decrement nextTx
    if ds.txReadyCount nextTx = 0 ∧ ds.inReady nextTx = false ∧ ds.inPruneReady nextTx = false then
      ds.pushPruneReadyQueue nextTx
    else ds
  else ds

/-- One round of the loop that `Execute` and `Abort` share: leave the queue of
`key` if at its front, and release the new front. -/
def finishKey (release : DepurgeScheduler → String → DepurgeScheduler) (txID : String)
    (ds : DepurgeScheduler) (key : String) : DepurgeScheduler :=
  let queue := ds.keyQueues key
  if queue.front = txID then
    let ds := ds.setQueue key queue.pop.1
    release ds (ds.keyQueues key).front
  else ds

def finish (release : DepurgeScheduler → String → DepurgeScheduler)
    (ds : DepurgeScheduler) (txID : String) : DepurgeScheduler :=
  if ds.txExecuted txID then ds
  else
    (ds.txKeyMap txID).foldl (finishKey release txID)
      { ds with txExecuted := update ds.txExecuted txID true }

def Execute (ds : DepurgeScheduler) (txID : String) : DepurgeScheduler :=
  ds.finish releaseReady txID

def Abort (ds : DepurgeScheduler) (txID : String) : DepurgeScheduler :=
  ds.finish releasePruneReady txID

/-- One round of `Prune`: only keys that the execution did not touch are left. -/
def pruneKey (realKeys : List String) (txID : String) (ds : DepurgeScheduler)
    (key : String) : DepurgeScheduler :=
  if key ∉ realKeys then
    let queue := ds.keyQueues key
    if queue.contains txID then
      let wasFront := queue.front = txID
      let ds := ds.setQueue key (queue.remove txID).1
      if wasFront then releasePruneReady ds (ds.keyQueues key).front else ds
    else ds
  else ds

def Prune (ds : DepurgeScheduler) (txID : String) (realKeys : List String) :
    DepurgeScheduler :=
  (ds.txKeyMap txID).foldl (pruneKey realKeys txID) ds

def GetReadyCount (ds : DepurgeScheduler) (txID : String) : Int := ds.txReadyCount txID

def GetConservativeKeys (ds : DepurgeScheduler) (txID : String) : List String :=
  ds.txKeyMap txID

def IsExecuted (ds : DepurgeScheduler) (txID : String) : Bool := ds.txExecuted txID

def GetReadyQueueLen (ds : DepurgeScheduler) : Nat := ds.readyQueue.length

def GetPruneReadyQueueLen (ds : DepurgeScheduler) : Nat := ds.pruneReadyQueue.length

def PopReady (ds : DepurgeScheduler) : DepurgeScheduler × String :=
  match ds.readyQueue with
  | [] => (ds, "")
  | txID :: rest =>
    ({ ds with readyQueue := rest, inReady := update ds.inReady txID false }, txID)

def PushReady (ds : DepurgeScheduler) (txID : String) : DepurgeScheduler :=
  ds.pushReadyQueue txID

def PopPruneReady (ds : DepurgeScheduler) : DepurgeScheduler × String :=
  match ds.pruneReadyQueue with
  | [] => (ds, "")
  | txID :: rest =>
    ({ ds with
        pruneReadyQueue := rest
        inPruneReady := update ds.inPruneReady txID false }, txID)

/-- The contexts in the order in which `Depurge_schedule` adds them. -/
def sortContexts (contexts : List TransactionContext) : List TransactionContext :=
  contexts.insertionSort fun ctx ctx' => ctx.TxID ≤ ctx'.TxID

/-- The sorted union of the two key sets of a context. -/
def contextKeys (ctx : TransactionContext) : List String :=
  sortStrings (uniqueKeys (ctx.PreReadSet.map Prod.fst ++ ctx.PreWriteSet.map Prod.fst))

/-- The scheduler that `Depurge_schedule` returns. The context map is listed in
the order in which one `range` statement visits it. -/
def Depurge_schedule (contexts : List TransactionContext) : DepurgeScheduler :=
  (sortContexts contexts).foldl (fun ds ctx => ds.addTransaction ctx.TxID (contextKeys ctx))
    NewDepurgeScheduler

end DepurgeScheduler
end Nezha
