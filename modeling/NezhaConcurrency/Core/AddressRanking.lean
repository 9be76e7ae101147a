import NezhaConcurrency.Core.TopologicalOrder
import NezhaConcurrency.Library.Extremum

/-! `AdvancedTopologicalSort` ranks every vertex, also on a cycle. As long as a
vertex is unsorted the queue is not empty: either some vertex has no unsorted
predecessor, or one of the least degree is chosen. When the last vertex is
sorted the minimum of the round before is zero, because only an arc of the
vertex to itself could be left. -/
namespace Nezha.AlGraph

open List

variable {graph : Graph}

/-- The sum of degrees fits, so a minimum is never cut off. -/
def DegreesFit (graph : Graph) : Prop :=
  ∀ v, (Kahn.incoming graph.succ (List.range graph.nvertices) [] v : Int) ≤ maxInt64

theorem arcs_init (v : Nat) : (Init graph.adj).arcs v = (graph.succ v).map (⟨·, false⟩) := by
  unfold arcs
  rw [init_vertices]
  by_cases hv : v < graph.nvertices
  · simp [hv]
  · have hNone : graph.succ v = [] := by
      unfold Graph.succ
      rw [getElem?_eq_none (Nat.not_lt.mp hv)]
      rfl
    simp [hv, hNone]

theorem length_init : (Init graph.adj).vertices.length = graph.nvertices := by
  simp [init_vertices]

theorem inDegree_init (v : Nat) : (Init graph.adj).inDegree v =
      Kahn.incoming graph.succ (List.range graph.nvertices) [] v := by
  have hRebuild := rebuild_inDegree graph [] v
  have hSame : ((Init graph.adj).RebuildGraph []).inDegree v = (Init graph.adj).inDegree v := by
    simp [RebuildGraph]
  rw [← hSame, hRebuild]

theorem incoming_le_nil (order : List Nat) (v : Nat) :
    Kahn.incoming graph.succ (List.range graph.nvertices) order v ≤
      Kahn.incoming graph.succ (List.range graph.nvertices) [] v := by
  unfold Kahn.incoming
  refine sum_le_sum fun u _ => ?_
  split
  · exact Nat.zero_le _
  · simp

theorem leastDegree_spec {inDegree : Nat → Int} (test : Nat → Bool) {w : Nat}
    (hw : w < graph.nvertices) (hTest : test w = true) (hFits : inDegree w ≤ maxInt64) :
    (∀ v < graph.nvertices, test v = true → (Init graph.adj).leastDegree inDegree test ≤ inDegree v) ∧
      ∃ v < graph.nvertices, test v = true ∧
        inDegree v = (Init graph.adj).leastDegree inDegree test := by
  unfold leastDegree
  rw [length_init]
  obtain ⟨hAll, hStart, hAttained⟩ :=
    Extremum.foldl_min inDegree ((List.range graph.nvertices).filter test) maxInt64
  have hMem : ∀ v, v ∈ (List.range graph.nvertices).filter test ↔
      v < graph.nvertices ∧ test v = true := by
    intro v
    rw [mem_filter, mem_range]
  refine ⟨fun v hv h => hAll v ((hMem v).mpr ⟨hv, h⟩), ?_⟩
  rcases hAttained with hSame | ⟨v, hv, hEq⟩
  · refine ⟨w, hw, hTest, ?_⟩
    have := hAll w ((hMem w).mpr ⟨hw, hTest⟩)
    omega
  · obtain ⟨hRange, hv⟩ := (hMem v).mp hv
    exact ⟨v, hRange, hv, hEq⟩

theorem findMaxNode_spec {inDegree : Nat → Int} {isSorted : Nat → Bool} {min : Int} {w : Nat}
    (hw : w < graph.nvertices) (hUnsorted : isSorted w = false) (hDegree : inDegree w = min) :
    (Init graph.adj).findMaxNode inDegree isSorted min < graph.nvertices ∧
      isSorted ((Init graph.adj).findMaxNode inDegree isSorted min) = false ∧
      inDegree ((Init graph.adj).findMaxNode inDegree isSorted min) = min := by
  simp only [findMaxNode, length_init]
  generalize hVex : (List.range graph.nvertices).filter (fun i =>
    !isSorted i && decide (inDegree i = min)) = inDegreeVex
  have hMem : ∀ v, v ∈ inDegreeVex ↔
      v < graph.nvertices ∧ isSorted v = false ∧ inDegree v = min := by
    intro v
    rw [← hVex]
    simp
  obtain ⟨hAll, _, hAttained⟩ := Extremum.foldl_max (Init graph.adj).outDegree inDegreeVex 0
  generalize inDegreeVex.foldl (fun max v => if (Init graph.adj).outDegree v > max
    then (Init graph.adj).outDegree v else max) 0 = max at hAll hAttained ⊢
  obtain ⟨v, hv, hMax⟩ : ∃ v ∈ inDegreeVex, (Init graph.adj).outDegree v = max := by
    rcases hAttained with rfl | h
    · have hwMem := (hMem w).mpr ⟨hw, hUnsorted, hDegree⟩
      exact ⟨w, hwMem, Nat.le_zero.mp (hAll w hwMem)⟩
    · exact h
  cases hFind : inDegreeVex.find? fun v => decide ((Init graph.adj).outDegree v = max) with
  | none => exact absurd (decide_eq_true hMax) (find?_eq_none.mp hFind v hv)
  | some u => exact (hMem u).mp (mem_of_find?_eq_some hFind)

/-- In the middle of a round: the arcs `owed` of `top`, which is already sorted but
still in front of the queue, are not yet released. -/
structure Releasing (graph : Graph) (top : Nat) (owed : List Nat) (s : Ranking) : Prop where
  sorted_iff : ∀ v, s.isSorted v = true ↔ v ∈ s.topologicalOrder
  degree : ∀ v < graph.nvertices, v ∉ s.topologicalOrder → s.inDegree v =
      Kahn.incoming graph.succ (List.range graph.nvertices) s.topologicalOrder v + owed.count v
  front : s.zeroDegreeVex.head? = some top
  nodup : s.zeroDegreeVex.tail.Nodup
  rest : ∀ v, v ∈ s.zeroDegreeVex.tail ↔
    v < graph.nvertices ∧ v ∉ s.topologicalOrder ∧ s.inDegree v = 0

variable {top : Nat} {s : Ranking}

theorem Releasing.rankArc {w : Nat} {owed : List Nat}
    (releasing : Releasing graph top (w :: owed) s) (hw : w < graph.nvertices) :
    Releasing graph top owed (rankArc s ⟨w, false⟩) ∧
      (AlGraph.rankArc s ⟨w, false⟩).topologicalOrder = s.topologicalOrder ∧
      (AlGraph.rankArc s ⟨w, false⟩).min = s.min := by
  unfold AlGraph.rankArc
  by_cases hSorted : s.isSorted w = true
  · rw [if_pos hSorted]
    refine ⟨⟨releasing.sorted_iff, fun v hv hOut => ?_, releasing.front, releasing.nodup,
      releasing.rest⟩, rfl, rfl⟩
    have hne : w ≠ v := by
      rintro rfl
      exact hOut ((releasing.sorted_iff w).mp hSorted)
    rw [releasing.degree v hv hOut, count_cons_of_ne hne]
  · rw [if_neg hSorted]
    have hOut : w ∉ s.topologicalOrder := fun h => hSorted ((releasing.sorted_iff w).mpr h)
    have hDegree := releasing.degree w hw hOut
    rw [count_cons_self] at hDegree
    have hNotQueued : w ∉ s.zeroDegreeVex.tail := by
      intro h
      have := ((releasing.rest w).mp h).2.2
      omega
    have hSelf : shift (-1) s.inDegree w w = s.inDegree w - 1 := by
      simp [shift, Int.sub_eq_add_neg]
    have hOther : ∀ v, v ≠ w → shift (-1) s.inDegree w v = s.inDegree v :=
      fun v hne => Function.update_of_ne hne ..
    obtain ⟨rest, hQueue⟩ : ∃ rest, s.zeroDegreeVex = top :: rest := by
      have hFront := releasing.front
      cases hq : s.zeroDegreeVex with
      | nil => simp [hq] at hFront
      | cons head rest =>
        rw [hq] at hFront
        exact ⟨rest, by rw [Option.some.inj hFront]⟩
    have hNodup := releasing.nodup
    have hRest := releasing.rest
    rw [hQueue, tail_cons] at hNodup hNotQueued
    rw [hQueue] at hRest
    refine ⟨⟨releasing.sorted_iff, fun v hv hvOut => ?_, ?_, ?_, fun v => ?_⟩, rfl, rfl⟩
    · by_cases hne : v = w
      · subst hne
        change shift (-1) s.inDegree v v = (Kahn.incoming graph.succ (List.range graph.nvertices)
          s.topologicalOrder v : Int) + owed.count v
        omega
      · have hOld := releasing.degree v hv hvOut
        rw [count_cons_of_ne (Ne.symm hne)] at hOld
        exact (hOther v hne).trans hOld
    · simp only [hQueue]
      split <;> rfl
    · simp only [hQueue]
      split
      · simp only [cons_append, tail_cons]
        exact nodup_append'.mpr ⟨hNodup, nodup_singleton w, by simpa using hNotQueued⟩
      · exact hNodup
    · have hOld := hRest v
      rw [tail_cons] at hOld
      simp only [hQueue]
      by_cases hne : v = w
      · subst hne
        rw [hSelf]
        split
        · next hZero => simp [hw, hOut, hZero]
        · next hZero => simp [hw, hOut, hZero, hNotQueued]
      · rw [hOther v hne]
        split
        · simp [hne, hOld]
        · simp [hOld]

theorem Releasing.loop (owed : List Nat) (releasing : Releasing graph top owed s)
    (hOwed : ∀ w ∈ owed, w < graph.nvertices) :
    let visited := (owed.map (⟨·, false⟩)).foldl AlGraph.rankArc s
    Releasing graph top [] visited ∧ visited.topologicalOrder = s.topologicalOrder ∧
      visited.min = s.min := by
  induction owed generalizing s with
  | nil => exact ⟨releasing, rfl, rfl⟩
  | cons w owed ih =>
    obtain ⟨hNext, hOrder, hMin⟩ := releasing.rankArc (hOwed w mem_cons_self)
    obtain ⟨hLast, hOrder', hMin'⟩ := ih hNext fun v hv => hOwed v (mem_cons_of_mem _ hv)
    exact ⟨hLast, hOrder'.trans hOrder, hMin'.trans hMin⟩

/-- What holds between two rounds. Before the last round, `min` is the degree of an
unsorted vertex. -/
structure Ranked (graph : Graph) (s : Ranking) : Prop where
  nodup : s.topologicalOrder.Nodup
  range : ∀ v ∈ s.topologicalOrder, v < graph.nvertices
  sorted_iff : ∀ v, s.isSorted v = true ↔ v ∈ s.topologicalOrder
  degree : ∀ v < graph.nvertices, v ∉ s.topologicalOrder →
    s.inDegree v = Kahn.incoming graph.succ (List.range graph.nvertices) s.topologicalOrder v
  done : s.zeroDegreeVex = [] → s.topologicalOrder.length = graph.nvertices
  queue : ∀ top rest, s.zeroDegreeVex = top :: rest →
    top < graph.nvertices ∧ top ∉ s.topologicalOrder ∧ rest.Nodup ∧
      ∀ v, v ∈ rest ↔ v < graph.nvertices ∧ v ∉ s.topologicalOrder ∧ v ≠ top ∧ s.inDegree v = 0
  attained : s.topologicalOrder.length < graph.nvertices →
    ∃ v < graph.nvertices, v ∉ s.topologicalOrder ∧ s.inDegree v = s.min

theorem perm_range {order : List Nat} (nodup : order.Nodup)
    (range : ∀ v ∈ order, v < graph.nvertices) (hLength : graph.nvertices ≤ order.length) :
    order.Perm (List.range graph.nvertices) :=
  (nodup.subperm fun v hv => mem_range.mpr (range v hv)).perm_of_length_le (by rwa [length_range])

theorem exists_unsorted {order : List Nat} (hLength : order.length < graph.nvertices) :
    ∃ v < graph.nvertices, v ∉ order := by
  by_contra hNone
  push Not at hNone
  have hSubset : List.range graph.nvertices ⊆ order := fun v hv => hNone v (mem_range.mp hv)
  have := (nodup_range.subperm hSubset).length_le
  rw [length_range] at this
  omega

theorem choose_spec (fits : DegreesFit graph) (inDegree : Nat → Int) (isSorted : Nat → Bool)
    (order : List Nat) {rest : List Nat} (hLength : order.length < graph.nvertices)
    (sorted_iff : ∀ v, isSorted v = true ↔ v ∈ order)
    (degree : ∀ v < graph.nvertices, v ∉ order →
      inDegree v = Kahn.incoming graph.succ (List.range graph.nvertices) order v)
    (nodup : rest.Nodup)
    (hRest : ∀ v, v ∈ rest ↔ v < graph.nvertices ∧ v ∉ order ∧ inDegree v = 0) :
    let min := (Init graph.adj).leastDegree inDegree fun i => !isSorted i
    let queue := if min > 0 then rest ++ [(Init graph.adj).findMaxNode inDegree isSorted min]
      else rest
    queue ≠ [] ∧ (∃ v < graph.nvertices, v ∉ order ∧ inDegree v = min) ∧
      ∀ top tail, queue = top :: tail → top < graph.nvertices ∧ top ∉ order ∧ tail.Nodup ∧
        ∀ v, v ∈ tail ↔ v < graph.nvertices ∧ v ∉ order ∧ v ≠ top ∧ inDegree v = 0 := by
  have hFree : ∀ v, isSorted v = false ↔ v ∉ order := by
    intro v
    rw [← sorted_iff, Bool.not_eq_true]
  obtain ⟨w, hw, hwOut⟩ := exists_unsorted hLength
  have hFits : inDegree w ≤ maxInt64 := by
    rw [degree w hw hwOut]
    exact (Int.ofNat_le.mpr (incoming_le_nil order w)).trans (fits w)
  have hwTest : (!isSorted w) = true := by simpa using (hFree w).mpr hwOut
  obtain ⟨hLeast, v, hv, hvTest, hvMin⟩ :=
    leastDegree_spec (fun i => !isSorted i) hw hwTest hFits
  have hvOut : v ∉ order := (hFree v).mp (by simpa using hvTest)
  intro min queue
  have hNonneg : 0 ≤ min := by
    have hEq : inDegree v = min := hvMin
    rw [← hEq, degree v hv hvOut]
    exact Int.natCast_nonneg _
  by_cases hMin : min > 0
  · -- No unsorted vertex is free, so one of the least degree is alone in the queue.
    have hPositive : ∀ u < graph.nvertices, u ∉ order → inDegree u ≠ 0 := by
      intro u hu huOut
      have hLe : min ≤ inDegree u := hLeast u hu (by simpa using (hFree u).mpr huOut)
      omega
    have hEmpty : rest = [] := eq_nil_iff_forall_not_mem.mpr fun u hu =>
      hPositive u ((hRest u).mp hu).1 ((hRest u).mp hu).2.1 ((hRest u).mp hu).2.2
    obtain ⟨hc, hcFree, _⟩ := findMaxNode_spec hv ((hFree v).mpr hvOut) hvMin
    have hQueue : queue = [(Init graph.adj).findMaxNode inDegree isSorted min] := by
      simp only [queue, if_pos hMin, hEmpty, nil_append]
    refine ⟨by simp [hQueue], ⟨v, hv, hvOut, hvMin⟩, fun top tail hCons => ?_⟩
    rw [hQueue] at hCons
    obtain ⟨rfl, rfl⟩ := List.cons.inj hCons
    refine ⟨hc, (hFree _).mp hcFree, nodup_nil, fun u => ?_⟩
    constructor
    · exact fun h => absurd h not_mem_nil
    · rintro ⟨hu, huOut, _, hZero⟩
      exact absurd hZero (hPositive u hu huOut)
  · have hQueue : queue = rest := if_neg hMin
    have hZero : inDegree v = 0 := by
      have hEq : inDegree v = min := hvMin
      omega
    have hvRest : v ∈ rest := (hRest v).mpr ⟨hv, hvOut, hZero⟩
    refine ⟨?_, ⟨v, hv, hvOut, hvMin⟩, fun top tail hCons => ?_⟩
    · rw [hQueue]
      exact ne_nil_of_mem hvRest
    · rw [hQueue] at hCons
      rw [hCons, nodup_cons] at nodup
      have hTop := (hRest top).mp (by rw [hCons]; exact mem_cons_self)
      refine ⟨hTop.1, hTop.2.1, nodup.2, fun u => ?_⟩
      have hu := hRest u
      rw [hCons, mem_cons] at hu
      constructor
      · intro hm
        have hFacts := hu.mp (Or.inr hm)
        refine ⟨hFacts.1, hFacts.2.1, ?_, hFacts.2.2⟩
        rintro rfl
        exact nodup.1 hm
      · rintro ⟨hLt, huOut, hne, huZero⟩
        exact (hu.mpr ⟨hLt, huOut, huZero⟩).resolve_left hne

theorem incoming_last (noLoop : ∀ v, ¬ graph.Edge v v) {order : List Nat}
    (hAll : ∀ v < graph.nvertices, v ∈ order ∨ v = top) :
    Kahn.incoming graph.succ (List.range graph.nvertices) order top = 0 := by
  refine Kahn.incoming_eq_zero_iff.mpr fun u hu hArc => ?_
  rcases hAll u (mem_range.mp hu) with h | rfl
  · exact h
  · exact absurd hArc (noLoop u)

/-- A round sorts the vertex in front and then releases its arcs. -/
def visited (graph : Graph) (s : Ranking) (top : Nat) : Ranking :=
  ((graph.succ top).map (⟨·, false⟩)).foldl rankArc
    { s with
      topologicalOrder := s.topologicalOrder ++ [top]
      isSorted := Function.update s.isSorted top true }

theorem rankVertex_init (s : Ranking) (top : Nat) : (Init graph.adj).rankVertex s top =
      let visited := visited graph s top
      let min :=
        if visited.topologicalOrder.length < graph.nvertices then
          (Init graph.adj).leastDegree visited.inDegree fun i => !visited.isSorted i
        else visited.min
      { visited with
        min
        zeroDegreeVex :=
          if min > 0 then visited.zeroDegreeVex.tail ++
            [(Init graph.adj).findMaxNode visited.inDegree visited.isSorted min]
          else visited.zeroDegreeVex.tail } := by
  unfold rankVertex
  rw [arcs_init, length_init]
  rfl

theorem Ranked.visited (ranked : Ranked graph s) {rest : List Nat}
    (hQueue : s.zeroDegreeVex = top :: rest) :
    Releasing graph top [] (visited graph s top) ∧
      (AlGraph.visited graph s top).topologicalOrder = s.topologicalOrder ++ [top] ∧
      (AlGraph.visited graph s top).min = s.min := by
  obtain ⟨hTop, hNew, hNodup, hRest⟩ := ranked.queue top rest hQueue
  have hStart : Releasing graph top (graph.succ top)
      { s with
        topologicalOrder := s.topologicalOrder ++ [top]
        isSorted := Function.update s.isSorted top true } := by
    refine ⟨fun v => ?_, fun v hv hOut => ?_, by simp [hQueue], by simpa [hQueue] using hNodup,
      fun v => ?_⟩
    · by_cases hne : v = top
      · subst hne
        simp
      · simp [hne, ranked.sorted_iff v]
    · rw [mem_append, not_or] at hOut
      change s.inDegree v = _
      rw [ranked.degree v hv hOut.1, Kahn.incoming_append nodup_range (mem_range.mpr hTop) hNew]
      push_cast
      ring
    · simp only [hQueue, tail_cons, mem_append, mem_singleton, not_or]
      rw [hRest v]
      tauto
  exact hStart.loop (graph.succ top) fun w hw => Graph.Edge.lt hw |>.2

theorem Releasing.inDegree (releasing : Releasing graph top [] s) {v : Nat}
    (hv : v < graph.nvertices) (hOut : v ∉ s.topologicalOrder) :
    s.inDegree v = Kahn.incoming graph.succ (List.range graph.nvertices) s.topologicalOrder v := by
  have hDegree := releasing.degree v hv hOut
  rwa [count_nil, Nat.cast_zero, add_zero] at hDegree

theorem Ranked.rankVertex (noLoop : ∀ v, ¬ graph.Edge v v) (fits : DegreesFit graph)
    (ranked : Ranked graph s) {rest : List Nat} (hQueue : s.zeroDegreeVex = top :: rest) :
    Ranked graph ((Init graph.adj).rankVertex s top) ∧
      ((Init graph.adj).rankVertex s top).topologicalOrder = s.topologicalOrder ++ [top] := by
  obtain ⟨hTop, hNew, _, _⟩ := ranked.queue top rest hQueue
  obtain ⟨released, hOrder, hMin⟩ := ranked.visited hQueue
  rw [rankVertex_init]
  generalize AlGraph.visited graph s top = visited at released hOrder hMin ⊢
  have hDegree : ∀ v < graph.nvertices, v ∉ visited.topologicalOrder → visited.inDegree v =
      Kahn.incoming graph.succ (List.range graph.nvertices) visited.topologicalOrder v :=
    fun v hv hOut => released.inDegree hv hOut
  have hOrderNodup : visited.topologicalOrder.Nodup := by
    rw [hOrder]
    exact nodup_append'.mpr ⟨ranked.nodup, nodup_singleton top, by simpa using hNew⟩
  have hRange : ∀ v ∈ visited.topologicalOrder, v < graph.nvertices := by
    rw [hOrder]
    intro v hv
    rcases mem_append.mp hv with hv | hv
    · exact ranked.range v hv
    · rw [mem_singleton.mp hv]
      exact hTop
  refine ⟨?_, hOrder⟩
  by_cases hLength : visited.topologicalOrder.length < graph.nvertices
  · simp only [if_pos hLength]
    obtain ⟨hNonempty, hAttained, hChosen⟩ := choose_spec fits visited.inDegree visited.isSorted
      visited.topologicalOrder hLength released.sorted_iff hDegree released.nodup released.rest
    exact ⟨hOrderNodup, hRange, released.sorted_iff, hDegree, fun h => absurd h hNonempty, hChosen,
      fun _ => hAttained⟩
  · simp only [if_neg hLength]
    have hPerm := perm_range hOrderNodup hRange (Nat.not_lt.mp hLength)
    have hAll : ∀ v < graph.nvertices, v ∈ visited.topologicalOrder :=
      fun v hv => hPerm.mem_iff.mpr (mem_range.mpr hv)
    have hTail : visited.zeroDegreeVex.tail = [] := eq_nil_iff_forall_not_mem.mpr fun v hv =>
      ((released.rest v).mp hv).2.1 (hAll v ((released.rest v).mp hv).1)
    have hOld : ∀ v < graph.nvertices, v ∈ s.topologicalOrder ∨ v = top := by
      intro v hv
      have hm := hAll v hv
      rwa [hOrder, mem_append, mem_singleton] at hm
    have hFull : visited.topologicalOrder.length = graph.nvertices := by
      rw [hPerm.length_eq, length_range]
    -- Only `top` was unsorted before, so the old minimum is its degree.
    have hZero : visited.min = 0 := by
      have hShort : s.topologicalOrder.length < graph.nvertices := by
        rw [hOrder, length_append, length_singleton] at hFull
        omega
      obtain ⟨v, hv, hOut, hvMin⟩ := ranked.attained hShort
      obtain rfl := (hOld v hv).resolve_left hOut
      rw [hMin]
      change s.min = 0
      rw [← hvMin, ranked.degree v hv hOut, incoming_last noLoop hOld]
      rfl
    have hNot : ¬ visited.min > 0 := by omega
    simp only [if_neg hNot, hTail]
    exact ⟨hOrderNodup, hRange, released.sorted_iff, hDegree, fun _ => hFull,
      fun _ _ h => absurd h.symm (cons_ne_nil _ _), fun h => absurd h hLength⟩

theorem Ranked.loop (noLoop : ∀ v, ¬ graph.Edge v v) (fits : DegreesFit graph) (rounds : Nat)
    (ranked : Ranked graph s) (hRounds : graph.nvertices < rounds + s.topologicalOrder.length) :
    ∃ order, (Init graph.adj).rankLoop rounds s = some order ∧
      order.Perm (List.range graph.nvertices) := by
  induction rounds generalizing s with
  | zero =>
    have hSubperm := ranked.nodup.subperm fun v hv =>
      mem_range.mpr (ranked.range v hv)
    have := hSubperm.length_le
    rw [length_range] at this
    omega
  | succ rounds ih =>
    cases hQueue : s.zeroDegreeVex with
    | nil =>
      refine ⟨s.topologicalOrder, by rw [rankLoop, hQueue], ?_⟩
      exact perm_range ranked.nodup ranked.range (ranked.done hQueue).ge
    | cons top rest =>
      obtain ⟨hNext, hOrder⟩ := ranked.rankVertex noLoop fits hQueue
      obtain ⟨order, hRun, hPerm⟩ := ih hNext (by
        rw [hOrder, length_append, length_singleton]
        omega)
      refine ⟨order, ?_, hPerm⟩
      rw [rankLoop, hQueue]
      simp only [length_init, if_pos (ranked.queue top rest hQueue).1, hRun]

/-- The state before the first round. -/
def start (graph : Graph) : Ranking :=
  let zeroDegreeVex :=
    (List.range graph.nvertices).filter fun i => decide ((Init graph.adj).inDegree i = 0)
  let min := (Init graph.adj).leastDegree (Init graph.adj).inDegree fun _ => true
  { inDegree := (Init graph.adj).inDegree
    isSorted := fun _ => false
    zeroDegreeVex :=
      if zeroDegreeVex = [] then
        [(Init graph.adj).findMaxNode (Init graph.adj).inDegree (fun _ => false) min]
      else zeroDegreeVex
    topologicalOrder := []
    min }

theorem advancedTopologicalSort_init : (Init graph.adj).AdvancedTopologicalSort =
    (Init graph.adj).rankLoop (graph.nvertices + 1) (start graph) := by
  rw [AdvancedTopologicalSort, length_init]
  rfl

theorem ranked_start (fits : DegreesFit graph) (hNonempty : 0 < graph.nvertices) :
    Ranked graph (start graph) := by
  let degrees := (Init graph.adj).inDegree
  let free := (List.range graph.nvertices).filter fun i => decide (degrees i = 0)
  let min := (Init graph.adj).leastDegree degrees fun _ => true
  let chosen := (Init graph.adj).findMaxNode degrees (fun _ => false) min
  have hFree : ∀ v, v ∈ free ↔ v < graph.nvertices ∧ v ∉ ([] : List Nat) ∧ degrees v = 0 := by
    intro v
    simp [free]
  obtain ⟨hQueue, hAttained, hChosen⟩ := choose_spec fits degrees (fun _ => false) []
    (by simpa using hNonempty) (by simp) (fun v _ _ => inDegree_init v)
    (nodup_range.filter _) hFree
  have hSame : (if min > 0 then free ++ [chosen] else free) =
      if free = [] then [chosen] else free := by
    by_cases hMin : min > 0
    · have hEmpty : free = [] := by
        refine eq_nil_iff_forall_not_mem.mpr fun v hv => ?_
        obtain ⟨hRange, _, hZero⟩ := (hFree v).mp hv
        have hFits : degrees v ≤ maxInt64 := by
          rw [hZero]
          decide
        have hLeast : min ≤ degrees v :=
          (leastDegree_spec (fun _ => true) hRange rfl hFits).1 v hRange rfl
        omega
      rw [if_pos hMin, if_pos hEmpty, hEmpty, nil_append]
    · have hNone : free ≠ [] := by
        intro hEmpty
        exact hQueue ((if_neg hMin).trans hEmpty)
      rw [if_neg hMin, if_neg hNone]
  exact ⟨nodup_nil, fun _ h => absurd h not_mem_nil, by simp [start],
    fun v _ _ => inDegree_init v, fun h => absurd (hSame.trans h) hQueue,
    fun top tail h => hChosen top tail (hSame.trans h), fun _ => hAttained⟩

theorem advancedTopologicalSort_total (noLoop : ∀ v, ¬ graph.Edge v v) (fits : DegreesFit graph)
    (hNonempty : 0 < graph.nvertices) :
    ∃ order, (Init graph.adj).AdvancedTopologicalSort = some order ∧
      order.Perm (List.range graph.nvertices) := by
  rw [advancedTopologicalSort_init]
  exact (ranked_start fits hNonempty).loop noLoop fits (graph.nvertices + 1) (by simp [start])

section Acyclic

variable (acyclic : Walk.Acyclic graph.Edge) (noLoop : ∀ v, ¬ graph.Edge v v)
  (fits : DegreesFit graph)

/-- Nothing was forced: every vertex in the queue is free, and every sorted vertex
comes after the vertices that point to it. -/
structure Unforced (graph : Graph) (s : Ranking) : Prop where
  free : ∀ v ∈ s.zeroDegreeVex, s.inDegree v = 0
  sorted : ∀ before v after, s.topologicalOrder = before ++ v :: after →
    ∀ u, graph.Edge u v → u ∈ before

include acyclic in
/-- Without a cycle some unsorted vertex has no unsorted predecessor. -/
theorem exists_free (order : List Nat) (hLength : order.length < graph.nvertices) :
    ∃ v < graph.nvertices, v ∉ order ∧
      Kahn.incoming graph.succ (List.range graph.nvertices) order v = 0 := by
  obtain ⟨v, hv, hOut⟩ := exists_unsorted hLength
  let left := (Finset.range graph.nvertices).filter (· ∉ order)
  have hLeft : left.Nonempty := ⟨v, by simp [left, hv, hOut]⟩
  obtain ⟨first, hFirst, hSource⟩ := Walk.exists_source acyclic hLeft
  obtain ⟨hIn, hNew⟩ : first < graph.nvertices ∧ first ∉ order := by simpa [left] using hFirst
  refine ⟨first, hIn, hNew, Kahn.incoming_eq_zero_iff.mpr fun u hu hArc => ?_⟩
  by_contra hNot
  exact hSource u (by simp [left, mem_range.mp hu, hNot]) hArc

include acyclic in
/-- So no vertex is forced as long as one is unsorted. -/
theorem leastDegree_le_zero (inDegree : Nat → Int) (isSorted : Nat → Bool) {order : List Nat}
    (hLength : order.length < graph.nvertices) (sorted_iff : ∀ v, isSorted v = true ↔ v ∈ order)
    (degree : ∀ v < graph.nvertices, v ∉ order →
      inDegree v = Kahn.incoming graph.succ (List.range graph.nvertices) order v) :
    (Init graph.adj).leastDegree inDegree (fun i => !isSorted i) ≤ 0 := by
  obtain ⟨v, hv, hOut, hZero⟩ := exists_free acyclic order hLength
  have hDegree : inDegree v = 0 := by
    rw [degree v hv hOut, hZero]
    rfl
  have hTest : (!isSorted v) = true := by
    rw [Bool.not_eq_true', ← Bool.not_eq_true, sorted_iff]
    exact hOut
  have hFits : inDegree v ≤ maxInt64 := by
    rw [hDegree]
    decide
  rw [← hDegree]
  exact (leastDegree_spec (fun i => !isSorted i) hv hTest hFits).1 v hv hTest

include acyclic noLoop fits in
theorem Unforced.rankVertex {s : Ranking} (ranked : Ranked graph s) (unforced : Unforced graph s)
    {top : Nat} {rest : List Nat} (hQueue : s.zeroDegreeVex = top :: rest) :
    Unforced graph ((Init graph.adj).rankVertex s top) := by
  obtain ⟨hNext, hOrder⟩ := ranked.rankVertex noLoop fits hQueue
  obtain ⟨hTop, hNew, _, _⟩ := ranked.queue top rest hQueue
  refine ⟨fun v hv => ?_, ?_⟩
  · by_cases hLength : ((Init graph.adj).rankVertex s top).topologicalOrder.length < graph.nvertices
    · obtain ⟨released, hReleased, _⟩ := ranked.visited hQueue
      rw [hOrder, ← hReleased] at hLength
      have hLeast := leastDegree_le_zero acyclic _ _ hLength released.sorted_iff
        fun v hv hOut => released.inDegree hv hOut
      rw [rankVertex_init] at hv ⊢
      simp only [if_pos hLength, if_neg hLeast.not_gt] at hv
      exact ((released.rest v).mp hv).2.2
    · -- Everything is sorted, so the queue is empty.
      have hPerm := perm_range hNext.nodup hNext.range (Nat.not_lt.mp hLength)
      cases hEmpty : ((Init graph.adj).rankVertex s top).zeroDegreeVex with
      | nil =>
        rw [hEmpty] at hv
        exact absurd hv not_mem_nil
      | cons front others =>
        obtain ⟨hFront, hUnsorted, _, _⟩ := hNext.queue front others hEmpty
        exact absurd (hPerm.mem_iff.mpr (mem_range.mpr hFront)) hUnsorted
  · -- The new vertex is free, so all vertices that point to it are sorted.
    have hReady : ∀ u, graph.Edge u top → u ∈ s.topologicalOrder := by
      intro u hEdge
      have hZero := unforced.free top (by simp [hQueue])
      rw [ranked.degree top hTop hNew] at hZero
      exact Kahn.incoming_eq_zero_iff.mp (Int.natCast_eq_zero.mp hZero) u
        (mem_range.mpr hEdge.lt.1) hEdge
    rw [hOrder]
    exact Walk.forall_split_append unforced.sorted hReady

include acyclic noLoop fits in
theorem Unforced.loop (rounds : Nat) {s : Ranking} (ranked : Ranked graph s)
    (unforced : Unforced graph s) {order : List Nat}
    (hRun : (Init graph.adj).rankLoop rounds s = some order) :
    ∀ before v after, order = before ++ v :: after → ∀ u, graph.Edge u v → u ∈ before := by
  induction rounds generalizing s with
  | zero => cases hRun
  | succ rounds ih =>
    cases hQueue : s.zeroDegreeVex with
    | nil =>
      rw [rankLoop, hQueue, Option.some.injEq] at hRun
      rw [← hRun]
      exact unforced.sorted
    | cons top rest =>
      rw [rankLoop, hQueue] at hRun
      simp only [length_init, if_pos (ranked.queue top rest hQueue).1] at hRun
      exact ih (ranked.rankVertex noLoop fits hQueue).1
        (unforced.rankVertex acyclic noLoop fits ranked hQueue) hRun

include acyclic in
theorem unforced_start (hNonempty : 0 < graph.nvertices) : Unforced graph (start graph) := by
  refine ⟨fun v hv => ?_, fun before v after hSplit => ?_⟩
  · obtain ⟨free, hFree, _, hZero⟩ := exists_free acyclic [] hNonempty
    have hQueue : (List.range graph.nvertices).filter
        (fun i => decide ((Init graph.adj).inDegree i = 0)) ≠ [] := by
      refine ne_nil_of_mem (mem_filter.mpr ⟨mem_range.mpr hFree, ?_⟩)
      rw [decide_eq_true_eq, inDegree_init, hZero]
      rfl
    simp only [start, if_neg hQueue] at hv
    exact of_decide_eq_true (mem_filter.mp hv).2
  · exact absurd hSplit.symm (by simp [start])

end Acyclic

theorem degreesFit_of_nodup (nodup : ∀ u, (graph.succ u).Nodup)
    (hLength : (graph.nvertices : Int) ≤ maxInt64) : DegreesFit graph := by
  intro v
  refine le_trans (Int.ofNat_le.mpr ?_) hLength
  unfold Kahn.incoming
  calc _ ≤ ((List.range graph.nvertices).map fun _ => 1).sum := by
        refine sum_le_sum fun u _ => ?_
        simpa using nodup_iff_count_le_one.mp (nodup u) v
    _ = graph.nvertices := by simp

/-- The ranking of addresses is total: on a graph without loops and with each arc
once, the sort ends with every vertex ranked once, and if there is no cycle each
vertex comes before its successors. The length of a slice is an `int`. -/
theorem advancedTopologicalSort_ranks (graph : Graph) (noLoop : ∀ v, ¬ graph.Edge v v)
    (nodup : ∀ u, (graph.succ u).Nodup) (hNonempty : 0 < graph.nvertices)
    (hLength : (graph.nvertices : Int) ≤ maxInt64) :
    ∃ order, (Init graph.adj).AdvancedTopologicalSort = some order ∧
      order.Perm (List.range graph.nvertices) ∧
      (Walk.Acyclic graph.Edge → ∀ u v, graph.Edge u v → order.idxOf u < order.idxOf v) := by
  have fits := degreesFit_of_nodup nodup hLength
  obtain ⟨order, hRun, hPerm⟩ := advancedTopologicalSort_total noLoop fits hNonempty
  refine ⟨order, hRun, hPerm, fun acyclic u v hEdge => ?_⟩
  rw [advancedTopologicalSort_init] at hRun
  have hBefore := (unforced_start acyclic hNonempty).loop acyclic noLoop fits _
    (ranked_start fits hNonempty) hRun
  exact Walk.idxOf_lt_of_before (hPerm.nodup_iff.mpr nodup_range)
    (hPerm.mem_iff.mpr (mem_range.mpr hEdge.lt.2)) fun before after hSplit =>
      hBefore before v after hSplit u hEdge

/-- A vertex that points into a cycle of two. -/
def intoCycle : Graph where
  adj := [[1], [0], [0]]
  inRange := by decide

/-- A path, with an arc that skips its middle. -/
def skippedPath : Graph where
  adj := [[], [0], [1, 0]]
  inRange := by decide

theorem acyclic_skippedPath : Walk.Acyclic skippedPath.Edge := by
  have hDown : ∀ u < 3, ∀ v < 3, skippedPath.Edge u v → v < u := by decide
  intro v hWalk
  have hLess : ∀ w, Relation.TransGen skippedPath.Edge v w → w < v := by
    intro w hw
    induction hw with
    | single hEdge => exact hDown _ hEdge.lt.1 _ hEdge.lt.2 hEdge
    | tail _ hEdge ih => exact (hDown _ hEdge.lt.1 _ hEdge.lt.2 hEdge).trans ih
  exact absurd (hLess v hWalk) (Nat.lt_irrefl v)

/-- The cycle is broken, and the path is ranked along its arcs. -/
theorem cycle_and_path_ranked :
    (∃ order, (Init intoCycle.adj).AdvancedTopologicalSort = some order ∧ order.Perm [0, 1, 2]) ∧
    ∃ order, (Init skippedPath.adj).AdvancedTopologicalSort = some order ∧
      order.idxOf 2 < order.idxOf 1 ∧ order.idxOf 1 < order.idxOf 0 := by
  have hNodup : ∀ graph : Graph, (∀ u < graph.nvertices, (graph.succ u).Nodup) →
      ∀ u, (graph.succ u).Nodup := by
    intro graph hRange u
    by_cases hu : u < graph.nvertices
    · exact hRange u hu
    · rw [Graph.succ, getElem?_eq_none (Nat.not_lt.mp hu)]
      exact nodup_nil
  have hLoop : ∀ graph : Graph, (∀ u < graph.nvertices, ¬ graph.Edge u u) → ∀ u, ¬ graph.Edge u u :=
    fun graph hRange u hEdge => hRange u hEdge.lt.1 hEdge
  constructor
  · obtain ⟨order, hRun, hPerm, _⟩ := advancedTopologicalSort_ranks intoCycle
      (hLoop _ (by decide)) (hNodup _ (by decide)) (by decide) (by decide)
    exact ⟨order, hRun, hPerm⟩
  · obtain ⟨order, hRun, _, hOrder⟩ := advancedTopologicalSort_ranks skippedPath
      (hLoop _ (by decide)) (hNodup _ (by decide)) (by decide) (by decide)
    exact ⟨order, hRun, hOrder acyclic_skippedPath 2 1 (by decide),
      hOrder acyclic_skippedPath 1 0 (by decide)⟩

end Nezha.AlGraph
