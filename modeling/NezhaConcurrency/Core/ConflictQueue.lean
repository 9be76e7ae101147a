import NezhaConcurrency.Core.ClassicalGraph

/-! Nezha's conflict queues. Every composite key has a queue of the nodes that
read and write it. The queues are ranked by their dependencies and sorted one
after the other; sorting a queue numbers whole transactions, in all the queues
they belong to, and aborts some. Nodes are shared by pointers, so the model keeps
them in a heap. -/
namespace Nezha

/-- A pointer to a node: its transaction and its place there. -/
structure Ref where
  tx : Nat
  pos : Nat
  deriving DecidableEq, Repr

structure Queue where
  rSlice : List Ref
  wSlice : List Ref
  maxRead : Int
  maxWrite : Int

structure Edge where
  set : List Ref
  isAborted : Bool

/-- The nodes are those of the captured transactions, as they are now. The two
maps are given by their keys and their values; a value outside the keys means
nothing. -/
structure QueueGraph where
  nodes : List (List RWNode)
  keys : List String
  Queues : String → Queue
  ids : List String
  Edges : String → Edge

def initialSequence : Int := 10

/-- `math.MaxInt32`. -/
def maxInt32 : Int := 2 ^ 31 - 1

/-- Sequence numbers are 32 bits wide. -/
def int32 (x : Int) : Int := Int.bmod x (2 ^ 32)

section CreateGraph

variable (txs : List (List RWNode))

def nodeAt (n : Ref) : RWNode := (((txs[n.tx]?).getD [])[n.pos]?).getD default

def setNode (n : Ref) (rw : RWNode) : List (List RWNode) :=
  txs.modify n.tx fun tx => tx.set n.pos rw

/-- The pointers to the nodes of a transaction. -/
def refsOf (i : Nat) : List Ref := (List.range ((txs[i]?).getD []).length).map (Ref.mk i)

def refs : List Ref := (List.range txs.length).flatMap (refsOf txs)

def queueArray (key : String) : List Ref :=
  (refs txs).filter fun n => (nodeAt txs n).CompositeKey = key

/-- Put all the write operations behind the read operations. -/
def initialSorting (queue : List Ref) : List Ref × List Ref :=
  (queue.filter fun rw => (nodeAt txs rw).Label = .r,
    queue.filter fun rw => (nodeAt txs rw).Label ≠ .r)

/-- A transaction without nodes has no edge. -/
def CreateGraph : QueueGraph where
  nodes := txs
  keys := ((refs txs).map fun n => (nodeAt txs n).CompositeKey).dedup
  Queues := fun key =>
    { rSlice := (initialSorting txs (queueArray txs key)).1
      wSlice := (initialSorting txs (queueArray txs key)).2
      maxRead := 0
      maxWrite := 0 }
  ids := (((List.range txs.length).filter fun i => refsOf txs i ≠ []).map fun i =>
    (nodeAt txs ⟨i, 0⟩).TransInfo.ID).dedup
  Edges := (List.range txs.length).foldl (fun edges i =>
    if refsOf txs i = [] then edges
    else Function.update edges (nodeAt txs ⟨i, 0⟩).TransInfo.ID ⟨refsOf txs i, false⟩)
    fun _ => ⟨[], false⟩

end CreateGraph

namespace QueueGraph

def node (cq : QueueGraph) (n : Ref) : RWNode := nodeAt cq.nodes n

/-- The edge of the transaction that a node belongs to. -/
def edgeOf (cq : QueueGraph) (rw : Ref) : Edge := cq.Edges (cq.node rw).TransInfo.ID

/-- The keys that the writers of `key` read besides it. -/
def temp (cq : QueueGraph) (key : String) : List String :=
  ((cq.Queues key).wSlice.flatMap fun w =>
    ((cq.edgeOf w).set.filter fun n =>
      (cq.node n).Label = .r ∧ (cq.node n).CompositeKey ≠ (cq.node w).CompositeKey).map
      fun n => (cq.node n).CompositeKey).dedup

def sortedStrings (cq : QueueGraph) : List String := cq.keys.insertionSort (· ≤ ·)

/-- The places of the queues that each queue depends on. `range` is the order in
which the map of a queue's dependencies is visited. -/
def deps (cq : QueueGraph) (range : String → List String → List String) : List (List Nat) :=
  cq.sortedStrings.map fun key => (range key (cq.temp key)).map fun kk => cq.sortedStrings.idxOf kk

/-- The queues in the order of their ranks. -/
def QueuesSort (cq : QueueGraph) (range : String → List String → List String) :
    Option (List String) :=
  (AlGraph.Init (cq.deps range)).AdvancedTopologicalSort.map fun order =>
    order.map fun o => (cq.sortedStrings[o]?).getD ""

/-- Copy the number of `rw` to the nodes of its edge. -/
def assignSequence (nodes : List (List RWNode)) (rw : Ref) (edge : List Ref) : List (List RWNode) :=
  edge.foldl (fun nodes e =>
    if nodeAt nodes rw = nodeAt nodes e then nodes
    else setNode nodes e { nodeAt nodes e with Sequence := (nodeAt nodes rw).Sequence }) nodes

/-- Number a node, and with it its transaction. -/
def number (cq : QueueGraph) (rw : Ref) (sequence : Int) : QueueGraph :=
  { cq with
    nodes := assignSequence
      (setNode cq.nodes rw { cq.node rw with Sequence := sequence, isAssigned := true }) rw
      (cq.edgeOf rw).set }

def abort (cq : QueueGraph) (rw : Ref) : QueueGraph :=
  { cq with
    Edges := Function.update cq.Edges (cq.node rw).TransInfo.ID
      { cq.edgeOf rw with isAborted := true } }

def assign (cq : QueueGraph) (rw : Ref) : QueueGraph :=
  { cq with nodes := setNode cq.nodes rw { cq.node rw with isAssigned := true } }

/-- The reads of a queue, and the largest number among them. If none is numbered
yet all start with `initialSequence`, otherwise the others get the least number. -/
def sortReads (cq : QueueGraph) (queue : Queue) : QueueGraph × Int :=
  let tmpRQueue := queue.rSlice.filter fun r =>
    decide ((cq.node r).Sequence ≠ 0) && !(cq.edgeOf r).isAborted
  if tmpRQueue = [] then
    queue.rSlice.foldl (fun s r => (s.1.number r initialSequence, initialSequence))
      (cq, queue.maxRead)
  else
    let min := tmpRQueue.foldl
      (fun min tr => if (cq.node tr).Sequence < min then (cq.node tr).Sequence else min) maxInt32
    let maxRead := tmpRQueue.foldl
      (fun max tr => if (cq.node tr).Sequence > max then (cq.node tr).Sequence else max)
      queue.maxRead
    (queue.rSlice.foldl (fun cq r => if (cq.node r).Sequence ≠ 0 then cq else cq.number r min)
      (tmpRQueue.foldl assign cq), maxRead)

/-- The numbered writes, with those that also read the key apart. -/
structure Checked where
  cq : QueueGraph
  tmpWQueue : List Ref
  tmpWQueue2 : List (Int × Ref)

/-- A write that is numbered before a read must move behind it, unless its
transaction has another read that was sorted: then it is aborted. -/
def checkWrite (maxRead : Int) (s : Checked) (w : Ref) : Checked :=
  let cq := s.cq
  if (cq.node w).Sequence = 0 then s
  else if (cq.edgeOf w).isAborted then s
  else if (cq.node w).Sequence ≤ maxRead then
    let assigned := (cq.edgeOf w).set.filter fun rw =>
      (cq.node rw).Label = .r ∧ (cq.node rw).isAssigned = true
    let isSame := assigned.any fun rw => (cq.node w).CompositeKey = (cq.node rw).CompositeKey
    let isBefore := assigned ≠ []
    if isSame then { s with tmpWQueue := s.tmpWQueue ++ [w] }
    else if isBefore then { s with cq := cq.abort w }
    else { s with tmpWQueue2 := s.tmpWQueue2 ++ [((cq.node w).Sequence, w)] }
  else { s with tmpWQueue2 := s.tmpWQueue2 ++ [((cq.node w).Sequence, w)] }

/-- The first transaction that reads and writes the key moves behind the reads;
the others are aborted. -/
def sortSame (cq : QueueGraph) (maxRead maxWrite : Int) : List Ref → QueueGraph × Int × Int
  | [] => (cq, maxRead, maxWrite)
  | w :: others =>
    let next := int32 (maxWrite + 1)
    (others.foldl abort (cq.number w next), next, next)

/-- The first number from `i` on that is not taken. -/
def firstFree (keys : List Int) : Nat → Int → Option Int
  | 0, _ => none
  | tries + 1, i =>
    if i < maxInt32 then if i ∈ keys then firstFree keys tries (i + 1) else some i else none

/-- Number a write that has no number. One of the first `keys.length + 1` numbers is free. -/
def newWrite (keys : List Int) (s : QueueGraph × Int) (w : Ref) : QueueGraph × Int :=
  if (s.1.node w).Sequence ≠ 0 then s
  else
    match firstFree keys (keys.length + 1) (int32 (s.2 + 1)) with
    | some i => (s.1.number w i, i)
    | none => s

/-- The number to go on from: that of the last new write, or the largest in `keys`. -/
def lastWrite (keys : List Int) (maxWrite : Int) : Int :=
  match keys.getLast? with
  | some maxSeq => if maxWrite < maxSeq then maxSeq else maxWrite
  | none => maxWrite

/-- The first write of a number above the reads keeps it, the others move to the end. -/
def adjustWrite (maxRead n : Int) (s : QueueGraph × Int) (ww : Ref × Nat) : QueueGraph × Int :=
  if n > maxRead ∧ ww.2 = 0 then s
  else (s.1.number ww.1 (int32 (s.2 + 1)), int32 (s.2 + 1))

/-- Sort each read and write of a queue. -/
def sortInQueue (cq : QueueGraph) (key : String) : QueueGraph :=
  let queue := cq.Queues key
  let reads := cq.sortReads queue
  let checked := queue.wSlice.foldl (checkWrite reads.2) ⟨reads.1, [], []⟩
  let keys := (checked.tmpWQueue2.map Prod.fst).dedup.insertionSort (· ≤ ·)
  let maxWrite := if reads.2 = 0 then initialSequence - 1 else reads.2
  let same := sortSame checked.cq reads.2 maxWrite checked.tmpWQueue
  let new := queue.wSlice.foldl (newWrite keys) (same.1, same.2.2)
  let maxWrite := lastWrite keys new.2
  let adjusted := keys.foldl (fun s n =>
    ((checked.tmpWQueue2.filter fun ww => ww.1 = n).map Prod.snd).zipIdx.foldl
      (adjustWrite same.2.1 n) s) (new.1, maxWrite)
  { adjusted.1 with
    Queues := Function.update adjusted.1.Queues key
      { queue with maxRead := same.2.1, maxWrite := adjusted.2 } }

/-- Sort the queues one after the other. -/
def DeSS (cq : QueueGraph) (sequence : List String) : QueueGraph := sequence.foldl sortInQueue cq

/-- The commit order: the write nodes of the transactions with a number, in the
order `ids` in which the map of the edges is visited. -/
def commitOrder (cq : QueueGraph) (ids : List String) (seq : Int) : List (List Ref) :=
  (ids.filter fun t => !(cq.Edges t).isAborted &&
    decide ((((cq.Edges t).set.head?).map fun n => (cq.node n).Sequence) = some seq)).map
    fun t => (cq.Edges t).set.filter fun e => (cq.node e).Label = .w

end QueueGraph

end Nezha
