import NezhaConcurrency.Library.Walk

/-! Tarjan's strongly connected components. The recursion of `SCCUtil` is given
a depth, and a run that exceeds it, or that pops an empty stack, has no result.
Stacks are lists with the top first. -/
namespace Nezha

/-- Adjacency lists over the vertices `0 .. nvertices - 1`. -/
structure Graph where
  adj : List (List Nat)
  inRange : ∀ row ∈ adj, ∀ v ∈ row, v < adj.length

namespace Graph

def nvertices (graph : Graph) : Nat := graph.adj.length

def succ (graph : Graph) (u : Nat) : List Nat := (graph.adj[u]?).getD []

def Edge (graph : Graph) (u v : Nat) : Prop := v ∈ graph.succ u

instance (graph : Graph) (u v : Nat) : Decidable (graph.Edge u v) :=
  inferInstanceAs (Decidable (v ∈ graph.succ u))

abbrev Reach (graph : Graph) : Nat → Nat → Prop := Relation.ReflTransGen graph.Edge

theorem Edge.lt {graph : Graph} {u v : Nat} (h : graph.Edge u v) :
    u < graph.nvertices ∧ v < graph.nvertices := by
  unfold Edge succ at h
  cases hRow : graph.adj[u]? with
  | none => simp [hRow] at h
  | some row =>
    rw [hRow] at h
    obtain ⟨hu, hGet⟩ := List.getElem?_eq_some_iff.mp hRow
    exact ⟨hu, graph.inRange row (hGet ▸ List.getElem_mem hu) v h⟩

end Graph

structure SCC where
  Vertices : List Nat
  Member : Nat → Bool

/-- The fields of `tarjanscc`. An undiscovered vertex has `disc` minus one. -/
structure TarjanSCC where
  nscc : Nat
  time : Int
  st : List Nat
  sccList : List SCC
  low : Nat → Int
  disc : Nat → Int
  stackMember : Nat → Bool

namespace TarjanSCC

/-- A new search, with all vertices marked as not visited. -/
def start : TarjanSCC where
  nscc := 0
  time := 0
  st := []
  sccList := []
  low := fun _ => -1
  disc := fun _ => -1
  stackMember := fun _ => false

def enter (t : TarjanSCC) (u : Nat) : TarjanSCC :=
  { t with
    low := Function.update t.low u t.time
    disc := Function.update t.disc u t.time
    time := t.time + 1
    stackMember := Function.update t.stackMember u true
    st := u :: t.st }

def lower (t : TarjanSCC) (u : Nat) (bound : Int) : TarjanSCC :=
  { t with low := Function.update t.low u (min (t.low u) bound) }

/-- The vertices popped up to and including `u`, and the rest of the stack. -/
def popUntil (u : Nat) : List Nat → Option (List Nat × List Nat)
  | [] => none
  | w :: rest =>
    if w = u then some ([w], rest)
    else (popUntil u rest).map fun popped => (w :: popped.1, popped.2)

/-- The popped vertices become a component. -/
def addSCC (t : TarjanSCC) (vertices rest : List Nat) : TarjanSCC :=
  { t with
    st := rest
    stackMember := fun w => if w ∈ vertices then false else t.stackMember w
    sccList := t.sccList ++ [⟨vertices.insertionSort (· ≤ ·), fun w => decide (w ∈ vertices)⟩]
    nscc := t.nscc + 1 }

def leave (t : TarjanSCC) (u : Nat) : Option TarjanSCC :=
  if t.low u = t.disc u then
    (popUntil u t.st).map fun popped => t.addSCC popped.1 popped.2
  else some t

/-- One neighbour `v` of `u`, with the recursive call as a parameter. -/
def visit (recurse : TarjanSCC → Nat → Option TarjanSCC) (u : Nat) (t : TarjanSCC) (v : Nat) :
    Option TarjanSCC :=
  if t.disc v = -1 then (recurse t v).map fun t => t.lower u (t.low v)
  else if t.stackMember v then some (t.lower u (t.disc v))
  else some t

def SCCUtil (graph : Graph) : Nat → TarjanSCC → Nat → Option TarjanSCC
  | 0, _, _ => none
  | depth + 1, t, u =>
    ((graph.succ u).foldlM (visit (SCCUtil graph depth) u) (t.enter u)).bind fun t => t.leave u

/-- The driver. No call goes deeper than there are vertices. -/
def SCC (graph : Graph) : Option TarjanSCC :=
  (List.range graph.nvertices).foldlM
    (fun t i => if t.disc i = -1 then SCCUtil graph graph.nvertices t i else some t) start

def GetSCCs (t : TarjanSCC) : List Nezha.SCC := t.sccList

end TarjanSCC
end Nezha
