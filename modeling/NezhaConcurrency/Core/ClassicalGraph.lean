import NezhaConcurrency.Core.RWNode
import NezhaConcurrency.Graph.JohnsonCE
import NezhaConcurrency.Library.Kahn
import NezhaConcurrency.Library.RangeLoop

/-! The conflict graph of a list of transactions and its topological sort. An arc
`i → j` says that transaction `i` must come before transaction `j`. -/
namespace Nezha

open List

section NewBuildConflictGraph

/-- The composite keys of the nodes with a label. -/
def keysOf (label : Label) (tx : List RWNode) : List String :=
  (tx.filter fun rw => rw.Label = label).map RWNode.CompositeKey

/-- The transactions that write the key, once for each write node. -/
def wSet (txs : List (List RWNode)) (key : String) : List Nat :=
  (txs.mapIdx fun i tx => ((keysOf .w tx).filter (· = key)).map fun _ => i).flatten

/-- The arcs from `i` to later writers of the same key, once for each of their nodes. -/
def writeArcs (txs : List (List RWNode)) (i : Nat) (tx : List RWNode) : List Nat :=
  (txs.mapIdx fun j other =>
    if i < j then ((keysOf .w other).filter (· ∈ keysOf .w tx)).map fun _ => j else []).flatten

/-- The arcs from `i` to the writers of what it reads, unless they are there already. -/
def readArcs (txs : List (List RWNode)) (i : Nat) (tx : List RWNode) (arcs : List Nat) :
    List Nat :=
  (keysOf .r tx).foldl (fun arcs key =>
    (wSet txs key).foldl (fun arcs v => if v ≠ i ∧ v ∉ arcs then arcs ++ [v] else arcs) arcs) arcs

/-- The arcs of one transaction are made by two loops over all transactions; the
loops of different transactions do not touch each other's arcs. -/
def NewBuildConflictGraph (txs : List (List RWNode)) : List (List Nat) :=
  txs.mapIdx fun i tx => readArcs txs i tx (writeArcs txs i tx)

/-- Transaction `i` has a node with this label and key. -/
def Touches (txs : List (List RWNode)) (label : Label) (i : Nat) (key : String) : Prop :=
  ∃ tx, txs[i]? = some tx ∧ key ∈ keysOf label tx

instance (txs : List (List RWNode)) (label : Label) (i : Nat) (key : String) :
    Decidable (Touches txs label i key) :=
  decidable_of_iff (key ∈ ((txs[i]?).map (keysOf label)).getD []) <| by
    unfold Touches
    cases txs[i]? <;> simp

theorem Touches.lt {txs : List (List RWNode)} {label : Label} {i : Nat} {key : String}
    (h : Touches txs label i key) : i < txs.length := by
  obtain ⟨tx, hTx, _⟩ := h
  exact (List.getElem?_eq_some_iff.mp hTx).1

theorem touches_iff {txs : List (List RWNode)} {label : Label} {i : Nat} {key : String} :
    Touches txs label i key ↔ key ∈ keysOf label ((txs[i]?).getD []) := by
  unfold Touches
  cases txs[i]? <;> simp [keysOf]

theorem touches_own {txs : List (List RWNode)} {tx : List RWNode} {i : Nat}
    (hTx : txs[i]? = some tx) (label : Label) (key : String) :
    Touches txs label i key ↔ key ∈ keysOf label tx := by
  rw [touches_iff, hTx, Option.getD_some]

theorem mem_flatten_mapIdx {Item Result : Type} {items : List Item}
    {f : Nat → Item → List Result} {x : Result} :
    x ∈ (items.mapIdx f).flatten ↔ ∃ i item, items[i]? = some item ∧ x ∈ f i item := by
  rw [mem_flatten]
  constructor
  · rintro ⟨l, hl, hx⟩
    obtain ⟨i, hi, rfl⟩ := mem_mapIdx.mp hl
    exact ⟨i, items[i], getElem?_eq_getElem hi, hx⟩
  · rintro ⟨i, item, hItem, hx⟩
    obtain ⟨hi, rfl⟩ := List.getElem?_eq_some_iff.mp hItem
    exact ⟨f i items[i], mem_mapIdx.mpr ⟨i, hi, rfl⟩, hx⟩

variable {txs : List (List RWNode)} {tx : List RWNode} {i j : Nat}

theorem mem_wSet {key : String} : j ∈ wSet txs key ↔ Touches txs .w j key := by
  unfold wSet Touches
  rw [mem_flatten_mapIdx]
  constructor
  · rintro ⟨k, other, hOther, hj⟩
    obtain ⟨x, hx, rfl⟩ := mem_map.mp hj
    obtain ⟨hKey, hEq⟩ := mem_filter.mp hx
    rw [decide_eq_true_eq] at hEq
    exact ⟨other, hOther, hEq ▸ hKey⟩
  · rintro ⟨other, hOther, hKey⟩
    refine ⟨j, other, hOther, mem_map.mpr ⟨key, mem_filter.mpr ⟨hKey, ?_⟩, rfl⟩⟩
    exact decide_eq_true rfl

theorem mem_writeArcs :
    j ∈ writeArcs txs i tx ↔ i < j ∧ ∃ key ∈ keysOf .w tx, Touches txs .w j key := by
  unfold writeArcs Touches
  rw [mem_flatten_mapIdx]
  constructor
  · rintro ⟨k, other, hOther, hj⟩
    split at hj
    · next hLess =>
        obtain ⟨key, hKey, rfl⟩ := mem_map.mp hj
        obtain ⟨hOwn, hShared⟩ := mem_filter.mp hKey
        exact ⟨hLess, key, of_decide_eq_true hShared, other, hOther, hOwn⟩
    · cases hj
  · rintro ⟨hLess, key, hKey, other, hOther, hOwn⟩
    refine ⟨j, other, hOther, ?_⟩
    rw [if_pos hLess]
    exact mem_map.mpr ⟨key, mem_filter.mpr ⟨hOwn, decide_eq_true hKey⟩, rfl⟩

theorem mem_readArcs {arcs : List Nat} : j ∈ readArcs txs i tx arcs ↔
      j ∈ arcs ∨ j ≠ i ∧ ∃ key ∈ keysOf .r tx, Touches txs .w j key := by
  have hInner : ∀ (arcs writers : List Nat),
      j ∈ writers.foldl (fun arcs v => if v ≠ i ∧ v ∉ arcs then arcs ++ [v] else arcs) arcs ↔
        j ∈ arcs ∨ ∃ v ∈ writers, j ≠ i ∧ v = j := by
    intro arcs writers
    refine RangeLoop.mem_foldl_iff (fun arcs v => ?_) writers arcs
    split <;> grind
  have hOuter := RangeLoop.mem_foldl_iff (fun (arcs : List Nat) key => hInner arcs (wSet txs key))
    (keysOf .r tx) arcs
  rw [readArcs, hOuter]
  simp only [exists_eq_right_right, ← mem_wSet]
  tauto

/-- An arc goes from a reader to every writer of the key, and between two writers
from the earlier to the later. -/
theorem mem_newBuildConflictGraph {arcs : List Nat} (hArcs : (NewBuildConflictGraph txs)[i]? = some arcs) :
    j ∈ arcs ↔ i ≠ j ∧ ((∃ key, Touches txs .r i key ∧ Touches txs .w j key) ∨
      i < j ∧ ∃ key, Touches txs .w i key ∧ Touches txs .w j key) := by
  unfold NewBuildConflictGraph at hArcs
  rw [getElem?_mapIdx, Option.map_eq_some_iff] at hArcs
  obtain ⟨tx, hTx, rfl⟩ := hArcs
  rw [mem_readArcs, mem_writeArcs]
  simp only [touches_own hTx]
  constructor
  · rintro (⟨hLess, h⟩ | ⟨hne, h⟩)
    · exact ⟨Nat.ne_of_lt hLess, Or.inr ⟨hLess, h⟩⟩
    · exact ⟨hne.symm, Or.inl h⟩
  · rintro ⟨hne, h | h⟩
    · exact Or.inr ⟨hne.symm, h⟩
    · exact Or.inl h

theorem length_newBuildConflictGraph (txs : List (List RWNode)) :
    (NewBuildConflictGraph txs).length = txs.length := length_mapIdx

/-- The conflict graph; its arcs lead to transactions. -/
def conflictGraph (txs : List (List RWNode)) : Graph where
  adj := NewBuildConflictGraph txs
  inRange := by
    intro arcs hm j hj
    obtain ⟨i, hArcs⟩ := mem_iff_getElem?.mp hm
    rw [length_newBuildConflictGraph]
    obtain ⟨_, ⟨_, _, h⟩ | ⟨_, _, _, h⟩⟩ := (mem_newBuildConflictGraph hArcs).mp hj
    · exact h.lt
    · exact h.lt

theorem conflictGraph_edge_iff : (conflictGraph txs).Edge i j ↔ i ≠ j ∧
      ((∃ key, Touches txs .r i key ∧ Touches txs .w j key) ∨
        i < j ∧ ∃ key, Touches txs .w i key ∧ Touches txs .w j key) := by
  unfold Graph.Edge Graph.succ
  cases hArcs : (conflictGraph txs).adj[i]? with
  | some arcs => exact mem_newBuildConflictGraph hArcs
  | none =>
    have hOut : txs.length ≤ i := by
      rw [← length_newBuildConflictGraph]
      exact List.getElem?_eq_none_iff.mp hArcs
    constructor
    · intro h
      exact absurd h not_mem_nil
    · rintro ⟨_, ⟨_, h, _⟩ | ⟨_, _, h, _⟩⟩
      · exact absurd h.lt (Nat.not_lt.mpr hOut)
      · exact absurd h.lt (Nat.not_lt.mpr hOut)

theorem conflictGraph_noLoop (txs : List (List RWNode)) (i : Nat) :
    ¬ (conflictGraph txs).Edge i i :=
  fun hEdge => (conflictGraph_edge_iff.mp hEdge).1 rfl

end NewBuildConflictGraph

section BuildConflictGraph

/-- Add an arc to `j` unless there is one. -/
def addArc (arcs : List Nat) (j : Nat) : List Nat :=
  if j ∈ arcs then arcs else arcs ++ [j]

/-- The loop over the nodes of a later transaction `j`. -/
def laterArcs (rKeys wKeys : List String) (j : Nat) (other : List RWNode) (arcs : List Nat) :
    List Nat :=
  other.foldl (fun arcs rw =>
    if rw.Label = .w ∧ rw.CompositeKey ∈ rKeys then addArc arcs j
    else if rw.Label = .w ∧ rw.CompositeKey ∈ wKeys then addArc arcs j
    else arcs) arcs

/-- The loop over the nodes of an earlier transaction `k`. -/
def earlierArcs (rKeys : List String) (k : Nat) (other : List RWNode) (arcs : List Nat) :
    List Nat :=
  other.foldl (fun arcs rw =>
    if rw.Label = .w ∧ rw.CompositeKey ∈ rKeys then addArc arcs k else arcs) arcs

/-- Each transaction looks forwards from the next one and then backwards to the first. -/
def BuildConflictGraph (txs : List (List RWNode)) : List (List Nat) :=
  txs.mapIdx fun i tx =>
    let rKeys := keysOf .r tx
    let wKeys := keysOf .w tx
    let later := (List.range' (i + 1) (txs.length - (i + 1))).foldl
      (fun arcs j => laterArcs rKeys wKeys j ((txs[j]?).getD []) arcs) []
    (List.range i).reverse.foldl (fun arcs k => earlierArcs rKeys k ((txs[k]?).getD []) arcs) later

variable {txs : List (List RWNode)} {i j k : Nat} {arcs : List Nat}

theorem mem_addArc : j ∈ addArc arcs k ↔ j ∈ arcs ∨ k = j := by
  unfold addArc
  split
  · next hMem =>
      refine ⟨Or.inl, ?_⟩
      rintro (h | rfl)
      · exact h
      · exact hMem
  · rw [mem_append, mem_singleton, eq_comm]

theorem mem_keysOf {label : Label} {tx : List RWNode} {key : String} :
    key ∈ keysOf label tx ↔ ∃ rw ∈ tx, rw.Label = label ∧ rw.CompositeKey = key := by
  simp [keysOf, and_assoc]

theorem mem_laterArcs {rKeys wKeys : List String} {other : List RWNode} :
    j ∈ laterArcs rKeys wKeys k other arcs ↔
      j ∈ arcs ∨ k = j ∧ ∃ key ∈ keysOf .w other, key ∈ rKeys ∨ key ∈ wKeys := by
  have hNode : ∀ (arcs : List Nat) (rw : RWNode),
      (j ∈ if rw.Label = .w ∧ rw.CompositeKey ∈ rKeys then addArc arcs k
        else if rw.Label = .w ∧ rw.CompositeKey ∈ wKeys then addArc arcs k else arcs) ↔
      j ∈ arcs ∨ k = j ∧ rw.Label = .w ∧ (rw.CompositeKey ∈ rKeys ∨ rw.CompositeKey ∈ wKeys) := by
    intro arcs rw
    split_ifs
    · rw [mem_addArc]
      tauto
    · rw [mem_addArc]
      tauto
    · tauto
  rw [laterArcs, RangeLoop.mem_foldl_iff hNode]
  simp only [mem_keysOf]
  grind

theorem mem_earlierArcs {rKeys : List String} {other : List RWNode} :
    j ∈ earlierArcs rKeys k other arcs ↔
      j ∈ arcs ∨ k = j ∧ ∃ key ∈ keysOf .w other, key ∈ rKeys := by
  have hNode : ∀ (arcs : List Nat) (rw : RWNode),
      (j ∈ if rw.Label = .w ∧ rw.CompositeKey ∈ rKeys then addArc arcs k else arcs) ↔
        j ∈ arcs ∨ k = j ∧ rw.Label = .w ∧ rw.CompositeKey ∈ rKeys := by
    intro arcs rw
    split_ifs
    · rw [mem_addArc]
      tauto
    · tauto
  rw [earlierArcs, RangeLoop.mem_foldl_iff hNode]
  simp only [mem_keysOf]
  grind

theorem mem_buildConflictGraph (hArcs : (BuildConflictGraph txs)[i]? = some arcs) :
    j ∈ arcs ↔ i ≠ j ∧ ((∃ key, Touches txs .r i key ∧ Touches txs .w j key) ∨
      i < j ∧ ∃ key, Touches txs .w i key ∧ Touches txs .w j key) := by
  unfold BuildConflictGraph at hArcs
  rw [getElem?_mapIdx, Option.map_eq_some_iff] at hArcs
  obtain ⟨tx, hTx, hLoops⟩ := hArcs
  have hLater : ∀ (js arcs : List Nat), j ∈ js.foldl (fun arcs k =>
        laterArcs (keysOf .r tx) (keysOf .w tx) k ((txs[k]?).getD []) arcs) arcs ↔
      j ∈ arcs ∨ ∃ k ∈ js, k = j ∧ ∃ key ∈ keysOf .w ((txs[k]?).getD []),
        key ∈ keysOf .r tx ∨ key ∈ keysOf .w tx := by
    intro js arcs
    refine RangeLoop.mem_foldl_iff (fun arcs k => ?_) js arcs
    exact mem_laterArcs
  have hEarlier : ∀ (ks arcs : List Nat), j ∈ ks.foldl (fun arcs k =>
        earlierArcs (keysOf .r tx) k ((txs[k]?).getD []) arcs) arcs ↔
      j ∈ arcs ∨ ∃ k ∈ ks, k = j ∧ ∃ key ∈ keysOf .w ((txs[k]?).getD []), key ∈ keysOf .r tx := by
    intro ks arcs
    refine RangeLoop.mem_foldl_iff (fun arcs k => ?_) ks arcs
    exact mem_earlierArcs
  rw [← hLoops, hEarlier, hLater]
  simp only [← touches_iff, ← touches_own hTx, mem_range'_1, mem_reverse, mem_range,
    not_mem_nil, false_or]
  constructor
  · rintro (⟨_, hRange, rfl, key, hj, hi | hi⟩ | ⟨_, hRange, rfl, key, hj, hi⟩)
    · exact ⟨by omega, Or.inl ⟨key, hi, hj⟩⟩
    · exact ⟨by omega, Or.inr ⟨by omega, key, hi, hj⟩⟩
    · exact ⟨by omega, Or.inl ⟨key, hi, hj⟩⟩
  · rintro ⟨hne, ⟨key, hi, hj⟩ | ⟨hLess, key, hi, hj⟩⟩
    · have hLength := hj.lt
      rcases Nat.lt_or_gt_of_ne hne with hLess | hLess
      · exact Or.inl ⟨j, by omega, rfl, key, hj, Or.inl hi⟩
      · exact Or.inr ⟨j, hLess, rfl, key, hj, hi⟩
    · have hLength := hj.lt
      exact Or.inl ⟨j, by omega, rfl, key, hj, Or.inr hi⟩

/-- Vertex `j` is in the adjacency list of `i`. -/
def HasArc (gSlice : List (List Nat)) (i j : Nat) : Prop :=
  ∃ arcs, gSlice[i]? = some arcs ∧ j ∈ arcs

theorem hasArc_iff {gSlice : List (List Nat)} (hLength : gSlice.length = txs.length)
    (hArcs : ∀ arcs, gSlice[i]? = some arcs → (j ∈ arcs ↔ i ≠ j ∧
      ((∃ key, Touches txs .r i key ∧ Touches txs .w j key) ∨
        i < j ∧ ∃ key, Touches txs .w i key ∧ Touches txs .w j key))) :
    HasArc gSlice i j ↔ i ≠ j ∧ ((∃ key, Touches txs .r i key ∧ Touches txs .w j key) ∨
      i < j ∧ ∃ key, Touches txs .w i key ∧ Touches txs .w j key) := by
  constructor
  · rintro ⟨arcs, hGet, hj⟩
    exact (hArcs arcs hGet).mp hj
  · intro h
    have hi : i < gSlice.length := by
      rw [hLength]
      obtain ⟨_, ⟨_, hi, _⟩ | ⟨_, _, hi, _⟩⟩ := h
      · exact hi.lt
      · exact hi.lt
    have hGet := getElem?_eq_getElem hi
    exact ⟨_, hGet, (hArcs _ hGet).mpr h⟩

/-- Both builders make the same arcs: from each reader to the other writers of the key, and
from each writer to the later writers of the key. -/
theorem conflictGraph_builders_agree (txs : List (List RWNode)) :
    (BuildConflictGraph txs).length = txs.length ∧ (NewBuildConflictGraph txs).length = txs.length ∧
      ∀ i j, (HasArc (BuildConflictGraph txs) i j ↔ HasArc (NewBuildConflictGraph txs) i j) ∧
        (HasArc (BuildConflictGraph txs) i j ↔ i ≠ j ∧
          ((∃ key, Touches txs .r i key ∧ Touches txs .w j key) ∨
            i < j ∧ ∃ key, Touches txs .w i key ∧ Touches txs .w j key)) ∧
        ¬ HasArc (BuildConflictGraph txs) i i ∧ ¬ HasArc (NewBuildConflictGraph txs) i i := by
  have hLength : (BuildConflictGraph txs).length = txs.length := length_mapIdx
  have hBuild : ∀ i j, HasArc (BuildConflictGraph txs) i j ↔ _ :=
    fun i j => hasArc_iff hLength fun _ => mem_buildConflictGraph
  have hNew : ∀ i j, HasArc (NewBuildConflictGraph txs) i j ↔ _ :=
    fun i j => hasArc_iff (length_newBuildConflictGraph txs) fun _ => mem_newBuildConflictGraph
  refine ⟨hLength, length_newBuildConflictGraph txs, fun i j => ⟨?_, hBuild i j, ?_, ?_⟩⟩
  · rw [hBuild, hNew]
  · exact fun hLoop => ((hBuild i i).mp hLoop).1 rfl
  · exact fun hLoop => ((hNew i i).mp hLoop).1 rfl

end BuildConflictGraph

/-- An arc of an adjacency list. -/
structure ArcNode where
  adj : Nat
  isAborted : Bool
  deriving DecidableEq

/-- A vertex; `first` is the linked list of its arcs. -/
structure VNode where
  data : Nat
  first : List ArcNode
  deriving DecidableEq

structure AlGraph where
  vertices : List VNode
  outDegree : Nat → Nat
  inDegree : Nat → Int

namespace AlGraph

/-- Change a degree by a number of arcs. -/
def shift (amount : Int) (inDegree : Nat → Int) (v : Nat) : Nat → Int :=
  Function.update inDegree v (inDegree v + amount)

/-- The graph of adjacency lists, on an `AlGraph` that was empty. -/
def Init (gSlice : List (List Nat)) : AlGraph :=
  let vertices := gSlice.mapIdx fun i v => ⟨i, v.map (⟨·, false⟩)⟩
  { vertices
    outDegree := fun i => ((gSlice[i]?).getD []).length
    inDegree := vertices.foldl (fun inDegree ver =>
      (ver.first.map ArcNode.adj).foldl (shift 1) inDegree) fun _ => 0 }

/-- The arcs of an aborted vertex leave the degrees; the arcs of any other vertex
are marked when they lead to an aborted one. -/
def RebuildGraph (al : AlGraph) (abortedTx : List Nat) : AlGraph :=
  { al with
    vertices := al.vertices.map fun v =>
      if v.data ∈ abortedTx then v
      else { v with first := v.first.map fun farc =>
        if farc.adj ∈ abortedTx then { farc with isAborted := true } else farc }
    inDegree := al.vertices.foldl (fun inDegree v =>
      if v.data ∈ abortedTx then (v.first.map ArcNode.adj).foldl (shift (-1)) inDegree
      else inDegree) al.inDegree }

def arcs (al : AlGraph) (v : Nat) : List ArcNode := ((al.vertices[v]?).map VNode.first).getD []

/-- What `BasicTopologicalSort` works on. -/
structure Sorting where
  inDegree : Nat → Int
  emptyInDegreeVex : List Nat
  topologicalOrder : List Nat

def visitArc (s : Sorting) (farc : ArcNode) : Sorting :=
  if farc.isAborted then s
  else
    { s with
      inDegree := shift (-1) s.inDegree farc.adj
      emptyInDegreeVex :=
        if shift (-1) s.inDegree farc.adj farc.adj = 0 then s.emptyInDegreeVex ++ [farc.adj]
        else s.emptyInDegreeVex }

def sortLoop (al : AlGraph) : Nat → Sorting → Option (List Nat)
  | 0, _ => none
  | rounds + 1, s =>
    match s.emptyInDegreeVex with
    | [] => some s.topologicalOrder
    | top :: _ =>
      let visited := (al.arcs top).foldl visitArc
        { s with topologicalOrder := s.topologicalOrder ++ [top] }
      sortLoop al rounds { visited with emptyInDegreeVex := visited.emptyInDegreeVex.tail }

/-- No vertex is queued twice, so the number of vertices bounds the rounds. -/
def BasicTopologicalSort (al : AlGraph) : Option (List Nat) :=
  sortLoop al (al.vertices.length + 1)
    { inDegree := al.inDegree
      emptyInDegreeVex := (List.range al.vertices.length).filter fun i => al.inDegree i = 0
      topologicalOrder := [] }

/-- `math.MaxInt64`, the start value of a minimum. -/
def maxInt64 : Int := 2 ^ 63 - 1

/-- What `AdvancedTopologicalSort` works on. -/
structure Ranking where
  inDegree : Nat → Int
  isSorted : Nat → Bool
  zeroDegreeVex : List Nat
  topologicalOrder : List Nat
  min : Int

/-- The least degree among the vertices that satisfy a test. -/
def leastDegree (al : AlGraph) (inDegree : Nat → Int) (test : Nat → Bool) : Int :=
  ((List.range al.vertices.length).filter test).foldl
    (fun min i => if inDegree i < min then inDegree i else min) maxInt64

/-- Among the unsorted vertices of the given degree, the first with the most arcs;
vertex zero if there is none. -/
def findMaxNode (al : AlGraph) (inDegree : Nat → Int) (isSorted : Nat → Bool) (min : Int) : Nat :=
  let inDegreeVex := (List.range al.vertices.length).filter fun i =>
    !isSorted i && decide (inDegree i = min)
  let max := inDegreeVex.foldl (fun max v => if al.outDegree v > max then al.outDegree v else max) 0
  (inDegreeVex.find? fun v => al.outDegree v = max).getD 0

def rankArc (s : Ranking) (farc : ArcNode) : Ranking :=
  if s.isSorted farc.adj then s
  else
    { s with
      inDegree := shift (-1) s.inDegree farc.adj
      zeroDegreeVex :=
        if shift (-1) s.inDegree farc.adj farc.adj = 0 then s.zeroDegreeVex ++ [farc.adj]
        else s.zeroDegreeVex }

/-- One round. The minimum of the round before is used again when all are sorted. -/
def rankVertex (al : AlGraph) (s : Ranking) (top : Nat) : Ranking :=
  let visited := (al.arcs top).foldl rankArc
    { s with
      topologicalOrder := s.topologicalOrder ++ [top]
      isSorted := Function.update s.isSorted top true }
  let min :=
    if visited.topologicalOrder.length < al.vertices.length then
      al.leastDegree visited.inDegree fun i => !visited.isSorted i
    else visited.min
  { visited with
    min
    zeroDegreeVex :=
      if min > 0 then
        visited.zeroDegreeVex.tail ++ [al.findMaxNode visited.inDegree visited.isSorted min]
      else visited.zeroDegreeVex.tail }

/-- A vertex that does not exist is an index out of range. -/
def rankLoop (al : AlGraph) : Nat → Ranking → Option (List Nat)
  | 0, _ => none
  | rounds + 1, s =>
    match s.zeroDegreeVex with
    | [] => some s.topologicalOrder
    | top :: _ => if top < al.vertices.length then rankLoop al rounds (al.rankVertex s top) else none

def AdvancedTopologicalSort (al : AlGraph) : Option (List Nat) :=
  let zeroDegreeVex := (List.range al.vertices.length).filter fun i => al.inDegree i = 0
  let min := al.leastDegree al.inDegree fun _ => true
  rankLoop al (al.vertices.length + 1)
    { inDegree := al.inDegree
      isSorted := fun _ => false
      zeroDegreeVex :=
        if zeroDegreeVex = [] then [al.findMaxNode al.inDegree (fun _ => false) min]
        else zeroDegreeVex
      topologicalOrder := []
      min }

end AlGraph

/-- The pipeline of `TestConflictGraph`: the aborted transactions and the commit order. -/
def commitOrder (txs : List (List RWNode)) : Option (List Nat × List Nat) :=
  (JohnsonCE.Run (conflictGraph txs)).bind fun result =>
    let inValidTxs := (List.range txs.length).filter result.2
    (((AlGraph.Init (NewBuildConflictGraph txs)).RebuildGraph inValidTxs).BasicTopologicalSort).map
      fun order => (inValidTxs, order)

end Nezha
