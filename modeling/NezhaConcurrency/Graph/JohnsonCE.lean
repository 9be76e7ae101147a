import NezhaConcurrency.Graph.TarjanSCC

/-! Cycle breaking by `JohnsonCE`. Johnson's search lists the elementary cycles of
each strongly connected component, and a greedy loop removes vertices until every
listed cycle is hit. Recursions are given a depth and the greedy loop a number of
rounds; a run that exceeds them has no result. -/
namespace Nezha

open Function

/-- Which vertices a search may not enter, and who waits for whom. -/
structure Blocking where
  blocked : Nat → Bool
  blockedMap : Nat → List Nat

/-- What one search from a start vertex works on, and the cycles found so far,
with their matrix, its column sums and its total. The top of `stack` is first. -/
structure JohnsonSearch extends Blocking where
  stack : List Nat
  cycles : List (List Nat)
  cyclesMap : List (Nat → Int)
  sumArray : Nat → Int
  sum : Int

/-- The list of `v` does not change in the loop, since `v` itself is not blocked
any more. -/
def Unblock : Nat → Nat → Blocking → Option Blocking
  | 0, _, _ => none
  | depth + 1, v, b =>
    ((b.blockedMap v).foldlM
      (fun (b : Blocking) n => if b.blocked n then Unblock depth n b else some b)
      { b with blocked := update b.blocked v false }).map
      fun b => { b with blockedMap := update b.blockedMap v [] }

namespace JohnsonSearch

/-- No vertex is blocked yet; the cycles of earlier searches are kept. -/
def restart (s : JohnsonSearch) : JohnsonSearch :=
  { s with blocked := fun _ => false, stack := [], blockedMap := fun _ => [] }

def empty : JohnsonSearch where
  blocked := fun _ => false
  stack := []
  blockedMap := fun _ => []
  cycles := []
  cyclesMap := []
  sumArray := fun _ => 0
  sum := 0

def push (s : JohnsonSearch) (v : Nat) : JohnsonSearch :=
  { s with stack := v :: s.stack, blocked := update s.blocked v true }

/-- The row of the matrix that marks the vertices of a cycle. -/
def indicator (cycle : List Nat) (v : Nat) : Int := if v ∈ cycle then 1 else 0

def addOne (sumArray : Nat → Int) (v : Nat) : Nat → Int :=
  update sumArray v (sumArray v + 1)

/-- The stack is a cycle. -/
def record (s : JohnsonSearch) : JohnsonSearch :=
  { s with
    cycles := s.cycles ++ [s.stack.reverse]
    cyclesMap := s.cyclesMap ++ [indicator s.stack.reverse]
    sumArray := s.stack.reverse.foldl addOne s.sumArray
    sum := s.sum + s.stack.length }

/-- No cycle was found, so `v` waits for each of its neighbours. -/
def await (graph : Graph) (explore : Nat → Bool) (v : Nat) (blockedMap : Nat → List Nat) :
    Nat → List Nat :=
  (graph.succ v).foldl
    (fun blockedMap n => if explore n then update blockedMap n (blockedMap n ++ [v])
      else blockedMap) blockedMap

/-- The end of a call on `v`. -/
def finish (graph : Graph) (explore : Nat → Bool) (v : Nat) (s : JohnsonSearch)
    (foundCycle : Bool) : Option (JohnsonSearch × Bool) :=
  if foundCycle then
    (Unblock graph.nvertices v s.toBlocking).map fun unblocked =>
      ({ s with toBlocking := unblocked, stack := s.stack.tail }, true)
  else
    some ({ s with
      blockedMap := await graph explore v s.blockedMap
      stack := s.stack.tail }, false)

/-- One neighbour `n`, with the recursive call as a parameter. -/
def visit (explore : Nat → Bool) (startV : Nat)
    (recurse : Nat → JohnsonSearch → Option (JohnsonSearch × Bool))
    (s : JohnsonSearch × Bool) (n : Nat) : Option (JohnsonSearch × Bool) :=
  if explore n = false then some s
  else if n = startV then some (s.1.record, true)
  else if s.1.blocked n = false then
    (recurse n s.1).map fun result => (result.1, s.2 || result.2)
  else some s

def FindCyclesRecur (graph : Graph) (explore : Nat → Bool) (startV : Nat) :
    Nat → Nat → JohnsonSearch → Option (JohnsonSearch × Bool)
  | 0, _, _ => none
  | depth + 1, currentV, s =>
    ((graph.succ currentV).foldlM
      (visit explore startV (FindCyclesRecur graph explore startV depth))
      (s.push currentV, false)).bind fun result =>
        finish graph explore currentV result.1 result.2

/-- The search from one start vertex, which is not explored afterwards. -/
def searchFrom (graph : Graph) (s : (Nat → Bool) × JohnsonSearch) (v : Nat) :
    Option ((Nat → Bool) × JohnsonSearch) :=
  (FindCyclesRecur graph s.1 v graph.nvertices v s.2.restart).map fun result =>
    (update s.1 v false, result.1)

end JohnsonSearch

namespace JohnsonCE

open JohnsonSearch

/-- The cycles of a component. A component of two vertices has the one cycle. -/
def FindCycles (graph : Graph) (component : SCC) : Option JohnsonSearch :=
  match component.Vertices with
  | [_] => some empty
  | [a, b] => some { empty with
      cycles := [[a, b]]
      cyclesMap := [indicator [a, b]]
      sumArray := update (update empty.sumArray a 1) b 1
      sum := 2 }
  | vertices =>
    (vertices.foldlM (searchFrom graph) (component.Member, empty)).map Prod.snd

/-- What the greedy loop works on. -/
structure Breaking where
  boolMap : List (Nat → Int)
  sumArray : Nat → Int
  sum : Int
  removeSetSize : Nat
  invalidVertices : Nat → Bool

/-- The first vertex with the largest column sum. -/
def maxVertex (graph : Graph) (sumArray : Nat → Int) : Nat :=
  (List.range graph.nvertices).foldl (fun max i => if sumArray i > sumArray max then i else max) 0

/-- Remove the rows that mark `max`, one after the other. -/
def clearRow (graph : Graph) (max : Nat) (b : Breaking) (row : Nat → Int) : Breaking :=
  if row max = 1 then
    { b with
      boolMap := b.boolMap ++ [fun _ => 0]
      sumArray := fun k => if k < graph.nvertices then b.sumArray k - row k else b.sumArray k
      sum := (List.range graph.nvertices).foldl (fun sum k => sum - row k) b.sum }
  else { b with boolMap := b.boolMap ++ [row] }

def removeVertex (graph : Graph) (b : Breaking) : Breaking :=
  let max := maxVertex graph b.sumArray
  let cleared := b.boolMap.foldl (clearRow graph max) { b with boolMap := [] }
  { cleared with
    removeSetSize := cleared.removeSetSize + 1
    invalidVertices := update cleared.invalidVertices max true }

def breakLoop (graph : Graph) : Nat → Breaking → Option Breaking
  | 0, _ => none
  | rounds + 1, b => if b.sum = 0 then some b else breakLoop graph rounds (removeVertex graph b)

/-- Every round lowers the total, so it bounds the number of rounds. -/
def BreakCycles (graph : Graph) (removeSetSize : Nat) (component : SCC) : Option Breaking :=
  (FindCycles graph component).bind fun found =>
    breakLoop graph (found.sum.toNat + 1)
      { boolMap := found.cyclesMap
        sumArray := found.sumArray
        sum := found.sum
        removeSetSize := removeSetSize
        invalidVertices := fun _ => false }

/-- The components one after the other; each decides about its own vertices. -/
def runComponent (graph : Graph) (s : Nat × (Nat → Bool)) (scc : SCC) :
    Option (Nat × (Nat → Bool)) :=
  (BreakCycles graph s.1 scc).map fun b =>
    (b.removeSetSize, scc.Vertices.foldl (fun invalid vertex =>
        update invalid vertex (b.invalidVertices vertex)) s.2)

/-- The size of the removed set and the flags of its vertices. -/
def Run (graph : Graph) : Option (Nat × (Nat → Bool)) :=
  (TarjanSCC.SCC graph).bind fun sccGen =>
    sccGen.GetSCCs.foldlM (runComponent graph) (0, fun _ => false)

end JohnsonCE
end Nezha
