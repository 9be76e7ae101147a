import NezhaConcurrency.Core.SequenceOrder

/-! The order of the queues and the iteration of Go maps. The dependencies of a queue
come out of a map, so the arcs of the dependency graph have no fixed order, and the
queues that one round of the sort releases are ranked in that order. Two runs number
and abort the same transactions if every round releases its queues in the same order. -/
namespace Nezha

open Function List

namespace AlGraph

/-- The vertices that the arcs of `top` release, in the order of the arcs. -/
def released (al : AlGraph) (s : Ranking) (top : Nat) : List Nat :=
  ((al.arcs top).map ArcNode.adj).filter fun v =>
    !update s.isSorted top true v && decide (s.inDegree v = 1)

/-- Each round of the first sort releases its vertices in the order of the second. -/
def sameReleases (al al' : AlGraph) : Nat → Ranking → Bool
  | 0, _ => true
  | rounds + 1, s =>
    match s.zeroDegreeVex with
    | [] => true
    | top :: _ => decide (al.released s top = al'.released s top) &&
        sameReleases al al' rounds (al.rankVertex s top)

/-- The arcs of each vertex lead to different vertices, and those of the second graph
are the same in some order. -/
structure Rearranged (al al' : AlGraph) : Prop where
  length : al.vertices.length = al'.vertices.length
  inDegree : al.inDegree = al'.inDegree
  outDegree : al.outDegree = al'.outDegree
  arcs : ∀ v, ((al.arcs v).map ArcNode.adj).Perm ((al'.arcs v).map ArcNode.adj)
  nodup : ∀ v, ((al.arcs v).map ArcNode.adj).Nodup

theorem foldl_rankArc (farcs : List ArcNode) (nodup : (farcs.map ArcNode.adj).Nodup) (s : Ranking) :
    farcs.foldl rankArc s =
      { s with
        inDegree := fun v => if v ∈ farcs.map ArcNode.adj ∧ s.isSorted v = false
          then s.inDegree v - 1 else s.inDegree v
        zeroDegreeVex := s.zeroDegreeVex ++ (farcs.map ArcNode.adj).filter fun v =>
          !s.isSorted v && decide (s.inDegree v = 1) } := by
  induction farcs generalizing s with
  | nil => simp
  | cons farc farcs ih =>
    rw [map_cons, nodup_cons] at nodup
    rw [foldl_cons, ih nodup.2]
    cases hSorted : s.isSorted farc.adj with
    | true =>
      rw [show rankArc s farc = s by rw [rankArc, if_pos hSorted]]
      congr 1
      · funext v
        by_cases hv : v = farc.adj
        · simp [hv, hSorted]
        · simp [hv]
      · simp [hSorted]
    | false =>
      have hSelf : shift (-1) s.inDegree farc.adj farc.adj = s.inDegree farc.adj - 1 := by
        simp [shift, Int.sub_eq_add_neg]
      have hOther : ∀ v, v ≠ farc.adj → shift (-1) s.inDegree farc.adj v = s.inDegree v :=
        fun v hne => update_of_ne hne ..
      simp only [rankArc, hSorted, Bool.false_eq_true, if_false, hSelf]
      congr 1
      · funext v
        by_cases hv : v = farc.adj
        · subst hv
          simp [nodup.1, hSorted, hSelf]
        · simp [hv, hOther v hv]
      · have hRest : ((farcs.map ArcNode.adj).filter fun v => !s.isSorted v &&
            decide (shift (-1) s.inDegree farc.adj v = 1)) =
            (farcs.map ArcNode.adj).filter fun v =>
              !s.isSorted v && decide (s.inDegree v = 1) := by
          refine filter_congr fun v hv => ?_
          rw [hOther v fun h => nodup.1 (h ▸ hv)]
        have hOne : s.inDegree farc.adj - 1 = 0 ↔ s.inDegree farc.adj = 1 := by omega
        rw [hRest, map_cons]
        by_cases hDegree : s.inDegree farc.adj = 1
        · rw [if_pos (hOne.mpr hDegree), filter_cons_of_pos (by simp [hSorted, hDegree]),
            append_assoc, singleton_append]
        · rw [if_neg (mt hOne.mp hDegree), filter_cons_of_neg (by simp [hSorted, hDegree])]

section Runs

variable {al al' : AlGraph} {s : Ranking} {top : Nat} {rest : List Nat}

/-- The queue after the arcs of `top`. -/
def visit (al : AlGraph) (s : Ranking) (top : Nat) : Ranking :=
  (al.arcs top).foldl rankArc
    { s with
      topologicalOrder := s.topologicalOrder ++ [top]
      isSorted := update s.isSorted top true }

/-- The minimum after a round, and the vertex that is queued for want of a released one. -/
def nextMin (al : AlGraph) (visited : Ranking) : Int :=
  if visited.topologicalOrder.length < al.vertices.length then
    al.leastDegree visited.inDegree fun i => !visited.isSorted i
  else visited.min

def fallback (al : AlGraph) (visited : Ranking) : List Nat :=
  if al.nextMin visited > 0 then
    [al.findMaxNode visited.inDegree visited.isSorted (al.nextMin visited)]
  else []

theorem rankVertex_eq (al : AlGraph) (s : Ranking) (top : Nat) : al.rankVertex s top =
      { al.visit s top with
        min := al.nextMin (al.visit s top)
        zeroDegreeVex := (al.visit s top).zeroDegreeVex.tail ++ al.fallback (al.visit s top) } := by
  unfold rankVertex fallback
  change { al.visit s top with
    min := al.nextMin (al.visit s top)
    zeroDegreeVex :=
      if al.nextMin (al.visit s top) > 0 then
        (al.visit s top).zeroDegreeVex.tail ++ [al.findMaxNode (al.visit s top).inDegree
          (al.visit s top).isSorted (al.nextMin (al.visit s top))]
      else (al.visit s top).zeroDegreeVex.tail } = _
  split
  · rfl
  · rw [append_nil]

theorem visit_eq (nodup : ((al.arcs top).map ArcNode.adj).Nodup) : al.visit s top =
      { s with
        topologicalOrder := s.topologicalOrder ++ [top]
        isSorted := update s.isSorted top true
        inDegree := fun v => if v ∈ (al.arcs top).map ArcNode.adj ∧
          update s.isSorted top true v = false then s.inDegree v - 1 else s.inDegree v
        zeroDegreeVex := s.zeroDegreeVex ++ al.released s top } :=
  foldl_rankArc _ nodup _

theorem Rearranged.visit (rearranged : Rearranged al al') (s : Ranking) (top : Nat) :
    al'.visit s top =
      { al.visit s top with zeroDegreeVex := s.zeroDegreeVex ++ al'.released s top } := by
  have hNodup := (rearranged.arcs top).nodup_iff.mp (rearranged.nodup top)
  rw [visit_eq (rearranged.nodup top), visit_eq hNodup]
  congr 1
  funext v
  simp only [(rearranged.arcs top).mem_iff]

theorem Rearranged.nextMin (rearranged : Rearranged al al') (visited : Ranking) :
    al.nextMin visited = al'.nextMin visited := by
  unfold AlGraph.nextMin leastDegree
  rw [rearranged.length]

theorem Rearranged.fallback (rearranged : Rearranged al al') (visited : Ranking) :
    al.fallback visited = al'.fallback visited := by
  unfold AlGraph.fallback findMaxNode
  rw [rearranged.nextMin, rearranged.length, rearranged.outDegree]

theorem Rearranged.rankVertex_iff (rearranged : Rearranged al al')
    (hQueue : s.zeroDegreeVex = top :: rest) :
    (al.rankVertex s top).topologicalOrder = (al'.rankVertex s top).topologicalOrder ∧
      (al.rankVertex s top).zeroDegreeVex.length = (al'.rankVertex s top).zeroDegreeVex.length ∧
      (al.released s top = al'.released s top → al.rankVertex s top = al'.rankVertex s top) ∧
      ((al.rankVertex s top).zeroDegreeVex = (al'.rankVertex s top).zeroDegreeVex →
        al.released s top = al'.released s top) := by
  have hVisit : (al.visit s top).zeroDegreeVex = s.zeroDegreeVex ++ al.released s top := by
    rw [visit_eq (rearranged.nodup top)]
  have hLength : (al.released s top).length = (al'.released s top).length :=
    ((rearranged.arcs top).filter _).length_eq
  have hFallback : al'.fallback (al'.visit s top) = al.fallback (al.visit s top) := by
    rw [← rearranged.fallback, rearranged.visit]
    rfl
  have hFirst : (al.rankVertex s top).zeroDegreeVex =
      rest ++ (al.released s top ++ al.fallback (al.visit s top)) := by
    rw [rankVertex_eq, hVisit, hQueue, cons_append, tail_cons, append_assoc]
  have hSecond : (al'.rankVertex s top).zeroDegreeVex =
      rest ++ (al'.released s top ++ al.fallback (al.visit s top)) := by
    rw [rankVertex_eq, hFallback, rearranged.visit, hQueue, cons_append, tail_cons, append_assoc]
  refine ⟨?_, ?_, fun hSame => ?_, fun hSame => ?_⟩
  · rw [rankVertex_eq, rankVertex_eq, rearranged.visit]
  · rw [hFirst, hSecond]
    simp [hLength]
  · have hEqual : al'.visit s top = al.visit s top := by
      rw [rearranged.visit, ← hSame, ← hVisit]
    rw [rankVertex_eq, rankVertex_eq, hEqual, rearranged.nextMin, rearranged.fallback]
  · rw [hFirst, hSecond] at hSame
    exact (append_inj (append_cancel_left hSame) hLength).1

/-- What is sorted and queued stays at the front of the order. -/
theorem sorted_front (nodup : ∀ v, ((al.arcs v).map ArcNode.adj).Nodup) (rounds : Nat)
    (s : Ranking) {order : List Nat} (h : al.rankLoop rounds s = some order) :
    ∃ later, order = s.topologicalOrder ++ s.zeroDegreeVex ++ later := by
  induction rounds generalizing s with
  | zero => cases h
  | succ rounds ih =>
    rw [rankLoop] at h
    cases hQueue : s.zeroDegreeVex with
    | nil =>
      rw [hQueue] at h
      exact ⟨[], by simpa using (Option.some.inj h).symm⟩
    | cons top rest =>
      rw [hQueue] at h
      simp only at h
      split at h
      · obtain ⟨later, hOrder⟩ := ih _ h
        refine ⟨al.released s top ++ al.fallback (al.visit s top) ++ later, ?_⟩
        rw [hOrder, rankVertex_eq, visit_eq (nodup top), hQueue]
        simp
      · cases h

/-- Two sorts that release the same vertices in the same order rank them alike. -/
theorem Rearranged.rankLoop (rearranged : Rearranged al al') (rounds : Nat) (s : Ranking)
    (hSame : sameReleases al al' rounds s = true) :
    al.rankLoop rounds s = al'.rankLoop rounds s := by
  induction rounds generalizing s with
  | zero => rfl
  | succ rounds ih =>
    rw [sameReleases] at hSame
    rw [AlGraph.rankLoop, AlGraph.rankLoop]
    cases hQueue : s.zeroDegreeVex with
    | nil => rfl
    | cons top rest =>
      rw [hQueue] at hSame
      simp only [Bool.and_eq_true, decide_eq_true_eq] at hSame
      have hRound := (rearranged.rankVertex_iff hQueue).2.2.1 hSame.1
      simp only [rearranged.length, ← hRound, ih _ hSame.2]

/-- Two sorts that rank the vertices alike release them in the same order. -/
theorem Rearranged.sameReleases (rearranged : Rearranged al al') (rounds : Nat) (s : Ranking)
    {order : List Nat} (hFirst : al.rankLoop rounds s = some order)
    (hSecond : al'.rankLoop rounds s = some order) : sameReleases al al' rounds s = true := by
  induction rounds generalizing s with
  | zero => rfl
  | succ rounds ih =>
    rw [AlGraph.sameReleases]
    rw [AlGraph.rankLoop] at hFirst hSecond
    cases hQueue : s.zeroDegreeVex with
    | nil => rfl
    | cons top rest =>
      rw [hQueue] at hFirst hSecond
      simp only at hFirst hSecond
      split at hFirst
      · next hTop =>
          rw [if_pos (rearranged.length ▸ hTop)] at hSecond
          obtain ⟨hOrder, hLength, hRound, hReleased⟩ := rearranged.rankVertex_iff hQueue
          have hNodup := fun v => (rearranged.arcs v).nodup_iff.mp (rearranged.nodup v)
          obtain ⟨later, hLater⟩ := sorted_front rearranged.nodup rounds _ hFirst
          obtain ⟨later', hLater'⟩ := sorted_front hNodup rounds _ hSecond
          rw [hLater, ← hOrder, append_assoc, append_assoc] at hLater'
          have hSame := hReleased (append_inj (append_cancel_left hLater') hLength).1
          rw [← hRound hSame] at hSecond
          simp only [Bool.and_eq_true, decide_eq_true_eq]
          exact ⟨hSame, ih _ hFirst hSecond⟩
      · cases hFirst

/-- Where the sort starts. -/
def unranked (al : AlGraph) : Ranking where
  inDegree := al.inDegree
  isSorted := fun _ => false
  zeroDegreeVex :=
    if ((List.range al.vertices.length).filter fun i => al.inDegree i = 0) = [] then
      [al.findMaxNode al.inDegree (fun _ => false) (al.leastDegree al.inDegree fun _ => true)]
    else (List.range al.vertices.length).filter fun i => al.inDegree i = 0
  topologicalOrder := []
  min := al.leastDegree al.inDegree fun _ => true

theorem advancedTopologicalSort_eq (al : AlGraph) :
    al.AdvancedTopologicalSort = al.rankLoop (al.vertices.length + 1) al.unranked := rfl

theorem Rearranged.unranked (rearranged : Rearranged al al') : al.unranked = al'.unranked := by
  unfold AlGraph.unranked findMaxNode leastDegree
  rw [rearranged.length, rearranged.inDegree, rearranged.outDegree]

theorem rearranged_init {graph graph' : Graph} (hLength : graph.nvertices = graph'.nvertices)
    (hPerm : ∀ v, (graph.succ v).Perm (graph'.succ v)) (hNodup : ∀ v, (graph.succ v).Nodup) :
    Rearranged (Init graph.adj) (Init graph'.adj) where
  length := by rw [length_init, length_init, hLength]
  inDegree := by
    funext v
    rw [inDegree_init, inDegree_init, hLength]
    unfold Kahn.incoming
    congr 3
    funext u
    rw [(hPerm u).count_eq]
  outDegree := by
    funext v
    exact (hPerm v).length_eq
  arcs := by
    intro v
    rw [arcs_init, arcs_init, map_map, map_map]
    exact (hPerm v).map _
  nodup := by
    intro v
    rw [arcs_init, map_map]
    exact (hNodup v).map fun _ _ h => h

end Runs

end AlGraph

namespace QueueGraph

variable {txs : List (List RWNode)}

/-- Both iteration orders release the queues of each round in the same order. -/
def sameReleases (txs : List (List RWNode)) (range range' : String → List String → List String) :
    Bool :=
  let al := AlGraph.Init ((CreateGraph txs).deps range)
  al.sameReleases (AlGraph.Init ((CreateGraph txs).deps range')) (al.vertices.length + 1) al.unranked

section Determinism

variable (captured : Captured txs) {range range' : String → List String → List String}
  (hRange : ∀ key kks, (range key kks).Perm kks) (hRange' : ∀ key kks, (range' key kks).Perm kks)

include captured hRange hRange'

theorem perm_succ (v : Nat) :
    ((dependencies captured hRange).succ v).Perm ((dependencies captured hRange').succ v) := by
  cases hv : (CreateGraph txs).sortedStrings[v]? with
  | none =>
    have hNil : ∀ {order : String → List String → List String}
        (hOrder : ∀ key kks, (order key kks).Perm kks),
        (dependencies captured hOrder).succ v = [] := by
      intro order hOrder
      refine eq_nil_iff_forall_not_mem.mpr fun w hw => ?_
      obtain ⟨key, hKey⟩ := dependencies_key captured hOrder hw
      cases hv.symm.trans hKey
    rw [hNil hRange, hNil hRange']
  | some key =>
    rw [succ_dependencies captured hRange hv, succ_dependencies captured hRange' hv]
    exact ((hRange key _).trans (hRange' key _).symm).map _

theorem rearranged_deps : AlGraph.Rearranged (AlGraph.Init ((CreateGraph txs).deps range))
    (AlGraph.Init ((CreateGraph txs).deps range')) := by
  have hLength := (nvertices_dependencies captured hRange).trans
    (nvertices_dependencies captured hRange').symm
  exact AlGraph.rearranged_init hLength (perm_succ captured hRange hRange')
    (dependencies_nodup captured hRange)

omit captured hRange hRange' in
theorem map_idxOf_sortedStrings {order : List Nat}
    (hOrder : order.Perm (List.range (CreateGraph txs).sortedStrings.length)) :
    (order.map fun o => ((CreateGraph txs).sortedStrings[o]?).getD "").map
      (CreateGraph txs).sortedStrings.idxOf = order := by
  have hNodup : (CreateGraph txs).sortedStrings.Nodup :=
    (perm_sortedStrings _).nodup_iff.mpr nodup_keys
  rw [map_map]
  refine (map_congr_left fun o ho => ?_).trans (map_id _)
  have hLess := mem_range.mp (hOrder.mem_iff.mp ho)
  simp [hLess, hNodup.idxOf_getElem]

theorem sameReleases_of_queuesSort (hNonempty : refs txs ≠ [])
    (hFits : ((writeNodes txs).length : Int) ≤ AlGraph.maxInt64)
    (hSort : (CreateGraph txs).QueuesSort range = (CreateGraph txs).QueuesSort range') :
    sameReleases txs range range' = true := by
  have rearranged := rearranged_deps captured hRange hRange'
  obtain ⟨order, hOrder, hPerm⟩ := rankedQueues captured hRange hNonempty hFits
  obtain ⟨order', hOrder', hPerm'⟩ := rankedQueues captured hRange' hNonempty hFits
  unfold QueuesSort at hSort
  rw [hOrder, hOrder', Option.map_some, Option.map_some, Option.some_inj] at hSort
  have hEqual : order = order' := by
    rw [← map_idxOf_sortedStrings hPerm, hSort, map_idxOf_sortedStrings hPerm']
  rw [AlGraph.advancedTopologicalSort_eq] at hOrder hOrder'
  rw [← rearranged.length, ← rearranged.unranked, ← hEqual] at hOrder'
  exact rearranged.sameReleases _ _ hOrder hOrder'

end Determinism

/-- Transaction 0 reads keys 1 and 2 and writes 1 and 3, transaction 1 reads 0 and 3,
transaction 2 reads 0 and 2 and writes 1, and 3 reads all of 1, 2, 3 and writes 1 and 3. -/
def releasedTogether : List (List RWNode) :=
  let key (name : String) : RWSet := ⟨name, ""⟩
  [ CreateRWNode "0" 0 "c" [key "1", key "2"] [key "1", key "3"],
    CreateRWNode "1" 0 "c" [key "0", key "3"] [],
    CreateRWNode "2" 0 "c" [key "0", key "2"] [key "1"],
    CreateRWNode "3" 0 "c" [key "1", key "2", key "3"] [key "1", key "3"] ]

end QueueGraph

end Nezha
