import NezhaConcurrency.Core.ClassicalGraph
import NezhaConcurrency.Graph.CycleBreaking

/-! The commit order of the conflict graph. `BasicTopologicalSort` is Kahn's sort
over the arcs that are not marked. After `RebuildGraph` the degree of a vertex
counts the arcs from vertices that stay, also for an aborted vertex, which is
kept out of the order only by such arcs. -/
namespace Nezha

open List

namespace AlGraph

/-- The arcs that the sort follows. -/
def followed (al : AlGraph) (v : Nat) : List Nat :=
  ((al.arcs v).filter fun farc => !farc.isAborted).map ArcNode.adj

def Sorting.toKahn (s : Sorting) : Kahn.State Nat :=
  ⟨s.topologicalOrder, s.emptyInDegreeVex, s.inDegree⟩

theorem foldl_visitArc (farcs : List ArcNode) (s : Sorting) : (farcs.foldl visitArc s).toKahn =
      ((farcs.filter fun farc => !farc.isAborted).map ArcNode.adj).foldl Kahn.release
        s.toKahn := by
  induction farcs generalizing s with
  | nil => rfl
  | cons farc farcs ih =>
    rw [foldl_cons, ih]
    cases hAborted : farc.isAborted with
    | true => simp [visitArc, hAborted]
    | false =>
      simp only [filter_cons, hAborted, Bool.not_false, if_true, map_cons, foldl_cons]
      congr 1
      by_cases hZero : s.inDegree farc.adj + -1 = 0
      · simp [visitArc, hAborted, Sorting.toKahn, Kahn.release, shift, Int.sub_eq_add_neg, hZero]
      · simp [visitArc, hAborted, Sorting.toKahn, Kahn.release, shift, Int.sub_eq_add_neg, hZero]

theorem foldl_release_cons (targets : List Nat) (top : Nat) (s : Kahn.State Nat) :
    targets.foldl Kahn.release { s with queue := top :: s.queue } =
      { targets.foldl Kahn.release s with
        queue := top :: (targets.foldl Kahn.release s).queue } := by
  induction targets generalizing s with
  | nil => rfl
  | cons w targets ih =>
    rw [foldl_cons, foldl_cons, ← ih]
    congr 1
    by_cases hZero : s.degree w - 1 = 0
    · simp [Kahn.release, hZero]
    · simp [Kahn.release, hZero]

theorem sortLoop_eq_run (al : AlGraph) (rounds : Nat) (s : Sorting) :
    sortLoop al rounds s = Kahn.run al.followed rounds s.toKahn := by
  induction rounds generalizing s with
  | zero => rfl
  | succ rounds ih =>
    obtain ⟨inDegree, queue, order⟩ := s
    cases queue with
    | nil => rfl
    | cons top rest =>
      let visited := (al.arcs top).foldl visitArc ⟨inDegree, top :: rest, order ++ [top]⟩
      let popped := Kahn.pop al.followed ⟨order, top :: rest, inDegree⟩ top rest
      have hVisited : visited.toKahn = { popped with queue := top :: popped.queue } :=
        (foldl_visitArc _ _).trans
          (foldl_release_cons (al.followed top) top ⟨order ++ [top], rest, inDegree⟩)
      have hOrder := congrArg Kahn.State.order hVisited
      have hFront := congrArg (fun t => t.queue.tail) hVisited
      have hDegree := congrArg Kahn.State.degree hVisited
      have hTail : (Sorting.mk visited.inDegree visited.emptyInDegreeVex.tail
          visited.topologicalOrder).toKahn = popped := Kahn.State.ext hOrder hFront hDegree
      calc sortLoop al (rounds + 1) ⟨inDegree, top :: rest, order⟩ = sortLoop al rounds
              ⟨visited.inDegree, visited.emptyInDegreeVex.tail, visited.topologicalOrder⟩ := rfl
        _ = Kahn.run al.followed rounds popped := by rw [ih, hTail]

theorem foldl_shift (amount : Int) (targets : List Nat) (inDegree : Nat → Int) (v : Nat) :
    targets.foldl (shift amount) inDegree v = inDegree v + amount * targets.count v := by
  induction targets generalizing inDegree with
  | nil => simp
  | cons w targets ih =>
    rw [foldl_cons, ih]
    by_cases hne : v = w
    · subst hne
      simp only [shift, Function.update_self, count_cons_self]
      push_cast
      ring
    · rw [count_cons_of_ne (Ne.symm hne)]
      simp only [shift, Function.update_of_ne hne]

variable (graph : Graph) (abortedTx : List Nat)

theorem init_vertices : (Init graph.adj).vertices = (List.range graph.nvertices).map fun u =>
      ⟨u, (graph.succ u).map (⟨·, false⟩)⟩ := by
  refine ext_getElem (by simp [Init, Graph.nvertices]) fun i hi _ => ?_
  have hAdj : i < graph.adj.length := by simpa [Init] using hi
  simp [Init, Graph.succ, hAdj]

theorem foldl_targets (amount : Int) (test : Nat → Bool) (inDegree : Nat → Int) (v : Nat) :
    (Init graph.adj).vertices.foldl (fun inDegree ver =>
        if test ver.data then (ver.first.map ArcNode.adj).foldl (shift amount) inDegree
        else inDegree) inDegree v =
      inDegree v + amount * ((List.range graph.nvertices).map fun u =>
          if test u then (graph.succ u).count v else 0).sum := by
  rw [init_vertices, foldl_map]
  generalize List.range graph.nvertices = us
  induction us generalizing inDegree with
  | nil => simp
  | cons u us ih =>
    rw [foldl_cons, ih, map_cons, sum_cons]
    cases test u with
    | false => simp
    | true =>
      simp only [if_true, map_map, Function.comp_def, map_id']
      rw [foldl_shift]
      push_cast
      ring

theorem rebuild_inDegree (v : Nat) : ((Init graph.adj).RebuildGraph abortedTx).inDegree v =
      Kahn.incoming graph.succ (List.range graph.nvertices) abortedTx v := by
  have hInit : (Init graph.adj).inDegree v =
      ((List.range graph.nvertices).map fun u => (graph.succ u).count v).sum := by
    have hFold := foldl_targets graph 1 (fun _ => true) (fun _ => 0) v
    simpa [Init] using hFold
  have hRebuild := foldl_targets graph (-1) (fun u => decide (u ∈ abortedTx))
    (Init graph.adj).inDegree v
  simp only [decide_eq_true_eq] at hRebuild
  refine hRebuild.trans ?_
  rw [hInit]
  unfold Kahn.incoming
  generalize List.range graph.nvertices = us
  induction us with
  | nil => rfl
  | cons u us ih =>
    simp only [map_cons, sum_cons, Nat.cast_add]
    split <;> omega

theorem followed_rebuild {v : Nat} (hv : v < graph.nvertices) :
    ((Init graph.adj).RebuildGraph abortedTx).followed v =
      if v ∈ abortedTx then graph.succ v
      else (graph.succ v).filter fun w => decide (w ∉ abortedTx) := by
  unfold followed arcs RebuildGraph
  simp only [init_vertices, map_map, getElem?_map, getElem?_range hv,
    Option.map_some, Option.getD_some, Function.comp_apply]
  split
  · induction graph.succ v with
    | nil => rfl
    | cons w targets ih => simpa using ih
  · induction graph.succ v with
    | nil => rfl
    | cons w targets ih =>
      by_cases hw : w ∈ abortedTx
      · simpa [hw] using ih
      · simpa [hw] using ih

theorem length_rebuild :
    ((Init graph.adj).RebuildGraph abortedTx).vertices.length = graph.nvertices := by
  simp [RebuildGraph, init_vertices]

theorem basicTopologicalSort_rebuild :
    ((Init graph.adj).RebuildGraph abortedTx).BasicTopologicalSort =
      Kahn.run ((Init graph.adj).RebuildGraph abortedTx).followed (graph.nvertices + 1)
        { order := []
          queue := (List.range graph.nvertices).filter fun v =>
            ((Init graph.adj).RebuildGraph abortedTx).inDegree v = 0
          degree := ((Init graph.adj).RebuildGraph abortedTx).inDegree } := by
  rw [BasicTopologicalSort, sortLoop_eq_run, length_rebuild]
  rfl

end AlGraph

section CommitOrder

variable (graph : Graph) (abortedTx : List Nat)

/-- Every aborted vertex has an arc from a vertex that stays. -/
def Guarded : Prop := ∀ v ∈ abortedTx, ∃ u, u ∉ abortedTx ∧ graph.Edge u v

/-- The order lists every vertex that stays exactly once and no other, along the edges. -/
structure CommitsAll (order : List Nat) : Prop where
  once : ∀ v < graph.nvertices, v ∉ abortedTx → order.count v = 1
  noAborted : ∀ v ∈ abortedTx, v ∉ order
  sorted : ∀ i j, graph.Edge i j → i ∉ abortedTx → j ∉ abortedTx → order.idxOf i < order.idxOf j

open AlGraph

/-- The sort ends on every graph, and lists every vertex without an arc from one
that stays. -/
theorem sort_ends : ∃ order,
    ((Init graph.adj).RebuildGraph abortedTx).BasicTopologicalSort = some order ∧
      ∀ v < graph.nvertices, Kahn.incoming graph.succ (List.range graph.nvertices) abortedTx v = 0 →
        v ∈ order := by
  have hClosed : ∀ v ∈ List.range graph.nvertices,
      ((Init graph.adj).RebuildGraph abortedTx).followed v ⊆ List.range graph.nvertices := by
    intro v hv w hw
    rw [followed_rebuild graph abortedTx (mem_range.mp hv)] at hw
    have hEdge : graph.Edge v w := by
      split at hw
      · exact hw
      · exact (mem_filter.mp hw).1
    exact mem_range.mpr hEdge.lt.2
  have hStart : Kahn.Bounded (List.range graph.nvertices)
      { order := []
        queue := (List.range graph.nvertices).filter fun v =>
          ((Init graph.adj).RebuildGraph abortedTx).inDegree v = 0
        degree := ((Init graph.adj).RebuildGraph abortedTx).inDegree } := by
    refine ⟨nodup_range.filter _, fun v hv => (mem_filter.mp hv).1, fun v hv => ?_⟩
    have hZero := (mem_filter.mp hv).2
    rw [decide_eq_true_eq] at hZero
    exact le_of_eq hZero
  obtain ⟨order, hRun, hSeen⟩ := hStart.run hClosed (graph.nvertices + 1) (by simp)
  refine ⟨order, (basicTopologicalSort_rebuild graph abortedTx).trans hRun, ?_⟩
  intro v hv hZero
  refine hSeen (mem_filter.mpr ⟨mem_range.mpr hv, ?_⟩)
  rw [decide_eq_true_eq, rebuild_inDegree, hZero]
  rfl

/-- The vertices that stay. -/
def staying : List Nat := (List.range graph.nvertices).filter fun v => decide (v ∉ abortedTx)

theorem mem_staying {v : Nat} :
    v ∈ staying graph abortedTx ↔ v < graph.nvertices ∧ v ∉ abortedTx := by
  simp [staying]

theorem followed_staying {u v : Nat} (hu : u ∈ staying graph abortedTx) :
    v ∈ ((Init graph.adj).RebuildGraph abortedTx).followed u ↔ graph.Edge u v ∧ v ∉ abortedTx := by
  obtain ⟨hRange, hStays⟩ := (mem_staying graph abortedTx).mp hu
  rw [followed_rebuild graph abortedTx hRange, if_neg hStays, mem_filter, decide_eq_true_eq]
  rfl

theorem incoming_staying {v : Nat} (hv : v ∉ abortedTx) :
    Kahn.incoming graph.succ (List.range graph.nvertices) abortedTx v =
      Kahn.incoming ((Init graph.adj).RebuildGraph abortedTx).followed (staying graph abortedTx)
        [] v := by
  have hCount : ∀ u < graph.nvertices, u ∉ abortedTx →
      (((Init graph.adj).RebuildGraph abortedTx).followed u).count v = (graph.succ u).count v := by
    intro u hu hStays
    rw [followed_rebuild graph abortedTx hu, if_neg hStays, count_filter (by simpa using hv)]
  have hAll : ∀ u ∈ List.range graph.nvertices, u < graph.nvertices :=
    fun u hu => mem_range.mp hu
  unfold Kahn.incoming staying
  generalize List.range graph.nvertices = us at hAll
  induction us with
  | nil => rfl
  | cons u us ih =>
    have hRest := ih fun w hw => hAll w (mem_cons_of_mem _ hw)
    by_cases hu : u ∈ abortedTx
    · simpa [hu] using hRest
    · have hHead := hCount u (hAll u mem_cons_self) hu
      simp only [not_mem_nil, if_false] at hRest
      simp [hu, hRest, hHead]

/-- If every aborted vertex is guarded, the sort is Kahn's on the vertices that stay. -/
theorem balanced_start (guarded : Guarded graph abortedTx) :
    Kahn.Balanced ((Init graph.adj).RebuildGraph abortedTx).followed (staying graph abortedTx) []
      { order := []
        queue := (List.range graph.nvertices).filter fun v =>
          ((Init graph.adj).RebuildGraph abortedTx).inDegree v = 0
        degree := ((Init graph.adj).RebuildGraph abortedTx).inDegree } := by
  have hQueue : ∀ v, v ∈ (List.range graph.nvertices).filter (fun v =>
      decide (((Init graph.adj).RebuildGraph abortedTx).inDegree v = 0)) ↔
      v ∈ staying graph abortedTx ∧ ((Init graph.adj).RebuildGraph abortedTx).inDegree v = 0 := by
    intro v
    rw [mem_filter, mem_range, decide_eq_true_eq, mem_staying]
    constructor
    · rintro ⟨hv, hZero⟩
      refine ⟨⟨hv, fun hm => ?_⟩, hZero⟩
      obtain ⟨u, hu, hEdge⟩ := guarded v hm
      rw [rebuild_inDegree, Int.natCast_eq_zero, Kahn.incoming_eq_zero_iff] at hZero
      exact hu (hZero u (mem_range.mpr hEdge.lt.1) hEdge)
    · rintro ⟨⟨hv, _⟩, hZero⟩
      exact ⟨hv, hZero⟩
  refine ⟨nodup_range.filter _, fun v hv => ((hQueue v).mp hv).1, fun v hv => ?_,
    fun v hv => ?_, fun before v after h => ?_⟩
  · have hStays := ((mem_staying graph abortedTx).mp hv).2
    change ((Init graph.adj).RebuildGraph abortedTx).inDegree v = _
    rw [rebuild_inDegree, incoming_staying graph abortedTx hStays]
    simp
  · change _ ↔ v ∈ [] ++ _
    rw [nil_append, hQueue]
    exact ⟨fun h => ⟨hv, h⟩, fun h => h.2⟩
  · simp at h

theorem commitsAll_of_guarded (guarded : Guarded graph abortedTx)
    (acyclic : Walk.Acyclic fun u v => graph.Edge u v ∧ u ∉ abortedTx ∧ v ∉ abortedTx)
    {order : List Nat}
    (hSort : ((Init graph.adj).RebuildGraph abortedTx).BasicTopologicalSort = some order) :
    CommitsAll graph abortedTx order := by
  rw [basicTopologicalSort_rebuild] at hSort
  have hNodup : (staying graph abortedTx).Nodup := nodup_range.filter _
  have hEdges : ∀ u v, u ∈ staying graph abortedTx ∧
      v ∈ ((Init graph.adj).RebuildGraph abortedTx).followed u →
      graph.Edge u v ∧ u ∉ abortedTx ∧ v ∉ abortedTx := by
    rintro u v ⟨hu, hv⟩
    obtain ⟨hEdge, hStays⟩ := (followed_staying graph abortedTx hu).mp hv
    exact ⟨hEdge, ((mem_staying graph abortedTx).mp hu).2, hStays⟩
  obtain ⟨hPerm, hBefore⟩ := (balanced_start graph abortedTx guarded).run hNodup (by
      intro u hu v hv
      obtain ⟨hEdge, hStays⟩ := (followed_staying graph abortedTx hu).mp hv
      exact (mem_staying graph abortedTx).mpr ⟨hEdge.lt.2, hStays⟩)
    (fun v hWalk => acyclic v (Relation.TransGen.mono hEdges _ _ hWalk)) (graph.nvertices + 1) hSort
  have hOrder : order.Nodup := hPerm.nodup_iff.mpr hNodup
  refine ⟨fun v hv hStays => ?_, fun v hv hm => ?_, fun i j hEdge hi hj => ?_⟩
  · exact count_eq_one_of_mem hOrder
      (hPerm.mem_iff.mpr ((mem_staying graph abortedTx).mpr ⟨hv, hStays⟩))
  · exact ((mem_staying graph abortedTx).mp (hPerm.mem_iff.mp hm)).2 hv
  · have hiStays := (mem_staying graph abortedTx).mpr ⟨hEdge.lt.1, hi⟩
    have hjStays := (mem_staying graph abortedTx).mpr ⟨hEdge.lt.2, hj⟩
    exact Walk.idxOf_lt_of_before hOrder (hPerm.mem_iff.mpr hjStays) fun before after hSplit =>
      hBefore before j after hSplit i hiStays
        ((followed_staying graph abortedTx hiStays).mpr ⟨hEdge, hj⟩)

end CommitOrder

/-- The commit order is right exactly if every aborted transaction has a
predecessor in the conflict graph that is not aborted. Without one its degree is
zero after the rebuild, so it is sorted like a transaction that stays. -/
theorem commitOrder_correct_iff (txs : List (List RWNode)) :
    ∃ inValidTxs order, commitOrder txs = some (inValidTxs, order) ∧
      (CommitsAll (conflictGraph txs) inValidTxs order ↔
        Guarded (conflictGraph txs) inValidTxs) := by
  obtain ⟨count, abortedTx, hRun, hAcyclic, _, _⟩ :=
    JohnsonCE.run_spec (conflictGraph_noLoop txs)
  let inValidTxs := (List.range txs.length).filter abortedTx
  have hLength : (conflictGraph txs).nvertices = txs.length := length_newBuildConflictGraph txs
  obtain ⟨order, hSort, hSources⟩ := sort_ends (conflictGraph txs) inValidTxs
  refine ⟨inValidTxs, order, ?_, ?_, ?_⟩
  · rw [commitOrder, hRun, Option.bind_some]
    change Option.map _ ((AlGraph.Init _).RebuildGraph inValidTxs).BasicTopologicalSort = _
    rw [show NewBuildConflictGraph txs = (conflictGraph txs).adj from rfl, hSort]
    rfl
  · intro commits v hv
    by_contra hNone
    have hRange : v < (conflictGraph txs).nvertices := by
      rw [hLength]
      exact mem_range.mp (mem_filter.mp hv).1
    refine commits.noAborted v hv (hSources v hRange ?_)
    refine Kahn.incoming_eq_zero_iff.mpr fun u _ hArc => ?_
    by_contra hu
    exact hNone ⟨u, hu, hArc⟩
  · intro guarded
    refine commitsAll_of_guarded _ _ guarded ?_ hSort
    have hFlags : ∀ v < txs.length, v ∉ inValidTxs → abortedTx v = false := by
      intro v hv hOut
      exact Bool.of_not_eq_true fun h => hOut (mem_filter.mpr ⟨mem_range.mpr hv, h⟩)
    refine fun v hWalk => hAcyclic v (Relation.TransGen.mono ?_ _ _ hWalk)
    rintro u w ⟨hEdge, hu, hw⟩
    have hRange := hEdge.lt
    rw [hLength] at hRange
    exact ⟨hEdge, hFlags u hRange.1 hu, hFlags w hRange.2 hw⟩

/-- Transaction 0 conflicts both ways with 1 and 2, 1 with 3, and 2 with 4. -/
def conflictPath : List (List RWNode) :=
  let key (name : String) : RWSet := ⟨name, ""⟩
  [ CreateRWNode "0" 0 "c" [key "01", key "02"] [key "10", key "20"],
    CreateRWNode "1" 0 "c" [key "10", key "13"] [key "01", key "31"],
    CreateRWNode "2" 0 "c" [key "20", key "24"] [key "02", key "42"],
    CreateRWNode "3" 0 "c" [key "31"] [key "13"],
    CreateRWNode "4" 0 "c" [key "42"] [key "24"] ]

/-- All three aborted transactions are committed. -/
theorem commitOrder_commits_aborted : commitOrder conflictPath = some ([0, 1, 2], [0, 3, 4, 1, 2]) ∧
      ¬ CommitsAll (conflictGraph conflictPath) [0, 1, 2] [0, 3, 4, 1, 2] :=
  ⟨by decide +kernel, fun commits => commits.noAborted 0 (by simp) (by simp)⟩

end Nezha
