import NezhaConcurrency.Library.Walk

/-! Kahn's topological sort, with parallel arcs. A vertex is queued when the
number of arcs still pointing to it drops to zero; the front of the queue is
appended to the order and its arcs are released one by one. -/
namespace Kahn

open Function List

variable {Vertex : Type} [DecidableEq Vertex]

@[ext]
structure State (Vertex : Type) where
  order : List Vertex
  queue : List Vertex
  degree : Vertex → Int

/-- One arc into `w` is gone. -/
def release (s : State Vertex) (w : Vertex) : State Vertex :=
  { s with
    degree := update s.degree w (s.degree w - 1)
    queue := if s.degree w - 1 = 0 then s.queue ++ [w] else s.queue }

/-- The front of the queue moves to the order. -/
def pop (succ : Vertex → List Vertex) (s : State Vertex) (top : Vertex) (rest : List Vertex) :
    State Vertex :=
  (succ top).foldl release { s with order := s.order ++ [top], queue := rest }

def run (succ : Vertex → List Vertex) : Nat → State Vertex → Option (List Vertex)
  | 0, _ => none
  | rounds + 1, s =>
    match s.queue with
    | [] => some s.order
    | top :: rest => run succ rounds (pop succ s top rest)

section Termination

/-- No vertex is queued twice, because its degree is not positive afterwards. -/
structure Bounded (vertices : List Vertex) (s : State Vertex) : Prop where
  nodup : (s.order ++ s.queue).Nodup
  subset : s.order ++ s.queue ⊆ vertices
  degree : ∀ v ∈ s.order ++ s.queue, s.degree v ≤ 0

variable {vertices : List Vertex} {succ : Vertex → List Vertex} {s : State Vertex}

theorem Bounded.release (bounded : Bounded vertices s) {w : Vertex} (hw : w ∈ vertices) :
    Bounded vertices (release s w) := by
  have hDegree : ∀ v ∈ s.order ++ s.queue, (Kahn.release s w).degree v ≤ 0 := by
    intro v hv
    have hOld := bounded.degree v hv
    by_cases hne : v = w
    · subst hne
      simp only [Kahn.release, update_self]
      omega
    · simpa only [Kahn.release, update_of_ne hne] using hOld
  by_cases hZero : s.degree w - 1 = 0
  · have hQueue : (Kahn.release s w).order ++ (Kahn.release s w).queue =
        (s.order ++ s.queue) ++ [w] := by
      simp only [Kahn.release, if_pos hZero, append_assoc]
    have hNew : w ∉ s.order ++ s.queue := by
      intro hm
      have := bounded.degree w hm
      omega
    refine ⟨?_, ?_, ?_⟩
    · rw [hQueue, nodup_append']
      exact ⟨bounded.nodup, nodup_singleton w, by simpa using hNew⟩
    · rw [hQueue]
      exact append_subset.mpr ⟨bounded.subset, by simpa using hw⟩
    · rw [hQueue]
      intro v hv
      rcases mem_append.mp hv with hv | hv
      · exact hDegree v hv
      · rw [mem_singleton.mp hv]
        simp only [Kahn.release, update_self, hZero, le_refl]
  · have hQueue : (Kahn.release s w).queue = s.queue := if_neg hZero
    exact ⟨hQueue.symm ▸ bounded.nodup, hQueue.symm ▸ bounded.subset, hQueue.symm ▸ hDegree⟩

theorem release_queue (s : State Vertex) (w : Vertex) :
    (release s w).order = s.order ∧ s.queue ⊆ (release s w).queue := by
  refine ⟨rfl, fun v hv => ?_⟩
  unfold release
  split
  · exact mem_append_left _ hv
  · exact hv

theorem foldl_release_queue (arcs : List Vertex) (s : State Vertex) :
    (arcs.foldl release s).order = s.order ∧ s.queue ⊆ (arcs.foldl release s).queue := by
  induction arcs generalizing s with
  | nil => exact ⟨rfl, fun _ h => h⟩
  | cons w arcs ih =>
    obtain ⟨hOrder, hQueue⟩ := ih (release s w)
    obtain ⟨hOrder', hQueue'⟩ := release_queue s w
    exact ⟨hOrder.trans hOrder', fun v hv => hQueue (hQueue' hv)⟩

/-- What every release of an arc keeps, where `holds` also sees the arcs still to come. -/
theorem foldl_release_induct (holds : List Vertex → State Vertex → Prop)
    (hRelease : ∀ w arcs t, w ∈ vertices → holds (w :: arcs) t → holds arcs (release t w))
    {arcs : List Vertex} (hArcs : arcs ⊆ vertices) (hStart : holds arcs s) :
    holds [] (arcs.foldl release s) := by
  induction arcs generalizing s with
  | nil => exact hStart
  | cons w arcs ih =>
    obtain ⟨hw, hRest⟩ := cons_subset.mp hArcs
    exact ih hRest (hRelease w arcs s hw hStart)

theorem Bounded.pop (bounded : Bounded vertices s)
    (closed : ∀ v ∈ vertices, succ v ⊆ vertices) {top : Vertex} {rest : List Vertex}
    (hQueue : s.queue = top :: rest) : Bounded vertices (pop succ s top rest) := by
  have hSeen : (s.order ++ [top]) ++ rest = s.order ++ s.queue := by rw [hQueue]; simp
  have hStart : Bounded vertices { s with order := s.order ++ [top], queue := rest } :=
    ⟨hSeen ▸ bounded.nodup, hSeen ▸ bounded.subset, hSeen ▸ bounded.degree⟩
  have hTop : top ∈ vertices := bounded.subset (by rw [hQueue]; simp)
  exact foldl_release_induct (fun _ t => Bounded vertices t) (fun _ _ _ hw h => h.release hw)
    (closed top hTop) hStart

/-- The sort ends within as many rounds as there are vertices, and everything
that was queued is in its result. -/
theorem Bounded.run (closed : ∀ v ∈ vertices, succ v ⊆ vertices) (rounds : Nat)
    (bounded : Bounded vertices s) (hRounds : vertices.length < rounds + s.order.length) :
    ∃ last, run succ rounds s = some last ∧ s.order ++ s.queue ⊆ last := by
  induction rounds generalizing s with
  | zero =>
    have hOrder : s.order.Nodup := (nodup_append.mp bounded.nodup).1
    have hSubset : s.order ⊆ vertices := (append_subset.mp bounded.subset).1
    have := (hOrder.subperm hSubset).length_le
    omega
  | succ rounds ih =>
    cases hQueue : s.queue with
    | nil =>
      refine ⟨s.order, by simp only [Kahn.run, hQueue], ?_⟩
      rw [append_nil]
      exact fun _ h => h
    | cons top rest =>
      obtain ⟨hOrder, hKept⟩ := foldl_release_queue (succ top)
        { s with order := s.order ++ [top], queue := rest }
      obtain ⟨last, hRun, hLast⟩ := ih (bounded.pop closed hQueue) (by
        change _ < rounds + ((succ top).foldl Kahn.release _).order.length
        rw [hOrder, length_append, length_singleton]
        omega)
      refine ⟨last, by simp only [Kahn.run, hQueue, hRun], fun v hv => hLast ?_⟩
      change v ∈ ((succ top).foldl Kahn.release _).order ++ ((succ top).foldl Kahn.release _).queue
      rw [hOrder]
      rw [append_cons] at hv
      rcases mem_append.mp hv with hv | hv
      · exact mem_append_left _ hv
      · exact mem_append_right _ (hKept hv)

end Termination

section Correctness

/-- The arcs into `v` from vertices that are not yet in the order. -/
def incoming (succ : Vertex → List Vertex) (vertices order : List Vertex) (v : Vertex) : Nat :=
  (vertices.map fun u => if u ∈ order then 0 else (succ u).count v).sum

theorem incoming_append {succ : Vertex → List Vertex} {vertices order : List Vertex}
    (nodup : vertices.Nodup) {top : Vertex} (hTop : top ∈ vertices) (hNew : top ∉ order)
    (v : Vertex) :
    incoming succ vertices order v =
      (succ top).count v + incoming succ vertices (order ++ [top]) v := by
  unfold incoming
  induction vertices with
  | nil => cases hTop
  | cons u vertices ih =>
    obtain ⟨hu, hRest⟩ := nodup_cons.mp nodup
    rw [map_cons, map_cons, sum_cons, sum_cons]
    rcases mem_cons.mp hTop with rfl | hTop
    · have hSame : vertices.map (fun u => if u ∈ order ++ [top] then 0 else (succ u).count v) =
          vertices.map (fun u => if u ∈ order then 0 else (succ u).count v) := by
        refine map_congr_left fun w hw => ?_
        have hne : w ≠ top := fun he => hu (he ▸ hw)
        simp [hne]
      rw [hSame, if_neg hNew, if_pos (by simp)]
      omega
    · have hne : u ≠ top := fun he => hu (he ▸ hTop)
      rw [ih hRest hTop]
      simp only [mem_append, mem_singleton, hne, or_false]
      omega

theorem incoming_eq_zero_iff {succ : Vertex → List Vertex} {vertices order : List Vertex}
    {v : Vertex} :
    incoming succ vertices order v = 0 ↔ ∀ u ∈ vertices, v ∈ succ u → u ∈ order := by
  unfold incoming
  rw [sum_eq_zero_iff]
  constructor
  · intro h u hu hArc
    have hZero := h _ (mem_map_of_mem hu)
    by_contra hNew
    rw [if_neg hNew, count_eq_zero] at hZero
    exact hZero hArc
  · intro h count hCount
    obtain ⟨u, hu, rfl⟩ := mem_map.mp hCount
    split
    · rfl
    · next hNew => exact count_eq_zero.mpr fun hArc => hNew (h u hu hArc)

/-- The books in the middle of releasing the arcs `owed` of the last vertex of
the order. -/
structure Balanced (succ : Vertex → List Vertex) (vertices owed : List Vertex)
    (s : State Vertex) : Prop where
  nodup : (s.order ++ s.queue).Nodup
  subset : s.order ++ s.queue ⊆ vertices
  degree : ∀ v ∈ vertices, s.degree v = incoming succ vertices s.order v + owed.count v
  zero_iff : ∀ v ∈ vertices, s.degree v = 0 ↔ v ∈ s.order ++ s.queue
  sorted : ∀ before v after, s.order = before ++ v :: after →
    ∀ u ∈ vertices, v ∈ succ u → u ∈ before

variable {vertices owed : List Vertex} {succ : Vertex → List Vertex} {s : State Vertex}

theorem Balanced.bounded (balanced : Balanced succ vertices owed s) : Bounded vertices s :=
  ⟨balanced.nodup, balanced.subset,
    fun v hv => le_of_eq ((balanced.zero_iff v (balanced.subset hv)).mpr hv)⟩

theorem Balanced.release {w : Vertex} (balanced : Balanced succ vertices (w :: owed) s)
    (hw : w ∈ vertices) : Balanced succ vertices owed (release s w) := by
  have hPositive : 0 < s.degree w := by
    rw [balanced.degree w hw, count_cons_self]
    omega
  have hNew : w ∉ s.order ++ s.queue := by
    intro hm
    have := (balanced.zero_iff w hw).mpr hm
    omega
  have hBounded := balanced.bounded.release hw
  refine ⟨hBounded.nodup, hBounded.subset, fun v hv => ?_, fun v hv => ?_, balanced.sorted⟩
  · have hOld := balanced.degree v hv
    by_cases hne : v = w
    · subst hne
      rw [count_cons_self] at hOld
      simp only [Kahn.release, update_self]
      omega
    · rw [count_cons_of_ne (Ne.symm hne)] at hOld
      simpa only [Kahn.release, update_of_ne hne] using hOld
  · have hOld := balanced.zero_iff v hv
    by_cases hne : v = w
    · subst hne
      simp only [Kahn.release, update_self]
      by_cases hZero : s.degree v - 1 = 0
      · simp [hZero]
      · simp only [hZero, if_false, false_iff]
        exact hNew
    · simp only [Kahn.release, update_of_ne hne]
      rw [hOld]
      split
      · simp [hne]
      · rfl

theorem Balanced.pop (nodup : vertices.Nodup) (closed : ∀ v ∈ vertices, succ v ⊆ vertices)
    (balanced : Balanced succ vertices [] s) {top : Vertex} {rest : List Vertex}
    (hQueue : s.queue = top :: rest) : Balanced succ vertices [] (pop succ s top rest) := by
  have hSeen : (s.order ++ [top]) ++ rest = s.order ++ s.queue := by rw [hQueue]; simp
  have hMem : top ∈ s.order ++ s.queue := by rw [hQueue]; simp
  have hTop : top ∈ vertices := balanced.subset hMem
  have hNew : top ∉ s.order := by
    have hDisjoint := (nodup_append.mp balanced.nodup).2.2
    intro hm
    exact hDisjoint top hm top (by rw [hQueue]; exact mem_cons_self) rfl
  -- Everything that points to the next vertex is already in the order.
  have hReady : ∀ u ∈ vertices, top ∈ succ u → u ∈ s.order := by
    apply incoming_eq_zero_iff.mp
    have hZero := (balanced.zero_iff top hTop).mpr hMem
    rw [balanced.degree top hTop] at hZero
    simp only [count_nil] at hZero
    omega
  have hStart : Balanced succ vertices (succ top)
      { s with order := s.order ++ [top], queue := rest } := by
    refine ⟨hSeen ▸ balanced.nodup, hSeen ▸ balanced.subset, fun v hv => ?_, fun v hv => ?_, ?_⟩
    · have hOld := balanced.degree v hv
      rw [incoming_append nodup hTop hNew, count_nil] at hOld
      change s.degree v = (incoming succ vertices (s.order ++ [top]) v : Int) + (succ top).count v
      push_cast at hOld
      omega
    · change s.degree v = 0 ↔ v ∈ (s.order ++ [top]) ++ rest
      rw [hSeen]
      exact balanced.zero_iff v hv
    · exact Walk.forall_split_append balanced.sorted hReady
  exact foldl_release_induct (Balanced succ vertices) (fun _ _ _ hw h => h.release hw)
    (closed top hTop) hStart

/-- With an empty queue every vertex is in the order: a first one outside would
have no arc left into it. -/
theorem Balanced.complete (acyclic : Walk.Acyclic fun u v => u ∈ vertices ∧ v ∈ succ u)
    (balanced : Balanced succ vertices [] s) (hQueue : s.queue = []) : vertices ⊆ s.order := by
  intro v hv
  by_contra hOut
  let left := vertices.toFinset.filter (· ∉ s.order)
  have hLeft : left.Nonempty := ⟨v, by simp [left, hv, hOut]⟩
  obtain ⟨first, hFirst, hSource⟩ := Walk.exists_source acyclic hLeft
  obtain ⟨hIn, hNew⟩ : first ∈ vertices ∧ first ∉ s.order := by simpa [left] using hFirst
  apply hNew
  have hZero : s.degree first = 0 := by
    rw [balanced.degree first hIn, count_nil, incoming_eq_zero_iff.mpr]
    · rfl
    · intro u hu hArc
      by_contra hNot
      exact hSource u (by simp [left, hu, hNot]) ⟨hu, hArc⟩
  have hSeen := (balanced.zero_iff first hIn).mp hZero
  rwa [hQueue, append_nil] at hSeen

/-- A result lists every vertex once, each after all vertices that point to it. -/
theorem Balanced.run (nodup : vertices.Nodup) (closed : ∀ v ∈ vertices, succ v ⊆ vertices)
    (acyclic : Walk.Acyclic fun u v => u ∈ vertices ∧ v ∈ succ u) (rounds : Nat)
    (balanced : Balanced succ vertices [] s) {last : List Vertex}
    (hRun : run succ rounds s = some last) :
    last.Perm vertices ∧ ∀ before v after, last = before ++ v :: after →
      ∀ u ∈ vertices, v ∈ succ u → u ∈ before := by
  induction rounds generalizing s with
  | zero => cases hRun
  | succ rounds ih =>
    cases hQueue : s.queue with
    | nil =>
      simp only [Kahn.run, hQueue, Option.some.injEq] at hRun
      subst hRun
      refine ⟨?_, balanced.sorted⟩
      have hOrder := (nodup_append.mp balanced.nodup).1
      have hSubset := (append_subset.mp balanced.subset).1
      refine (perm_ext_iff_of_nodup hOrder nodup).mpr fun v => ?_
      exact ⟨fun h => hSubset h, fun h => balanced.complete acyclic hQueue h⟩
    | cons top rest =>
      simp only [Kahn.run, hQueue] at hRun
      exact ih (balanced.pop nodup closed hQueue) hRun

end Correctness

end Kahn
