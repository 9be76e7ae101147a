import NezhaConcurrency.Graph.CycleBreaking

/-! The cycles of a component are enumerated exactly. A cycle is found by the search from
the first of its vertices in the list of the component, since only the vertices searched
before are not explored any more. -/
namespace Nezha.JohnsonCE

open JohnsonSearch List

/-- A strongly connected component: the class of each of its vertices, in any order. -/
structure IsComponent (graph : Graph) (scc : SCC) : Prop where
  nodup : scc.Vertices.Nodup
  member : ∀ v, scc.Member v = true ↔ v ∈ scc.Vertices
  classes : ∀ u ∈ scc.Vertices, ∀ v, v ∈ scc.Vertices ↔ graph.Reach u v ∧ graph.Reach v u

/-- An elementary cycle through vertices of the list, up to rotation. -/
structure ElementaryCycle (graph : Graph) (vertices : List Nat) (cycle : Cycle Nat) : Prop where
  nonempty : cycle ≠ Cycle.nil
  nodup : cycle.Nodup
  chain : cycle.Chain graph.Edge
  within : ∀ v ∈ cycle, v ∈ vertices

variable {graph : Graph} {scc : SCC}

theorem IsComponent.exists_edge (component : IsComponent graph scc) {u v : Nat}
    (hu : u ∈ scc.Vertices) (hv : v ∈ scc.Vertices) (hne : u ≠ v) :
    ∃ w ∈ scc.Vertices, graph.Edge u w := by
  obtain ⟨huv, hvu⟩ := (component.classes u hu v).mp hv
  rcases huv.cases_head with rfl | ⟨w, hEdge, hwv⟩
  · exact absurd rfl hne
  · exact ⟨w, (component.classes u hu w).mpr ⟨.single hEdge, hwv.trans hvu⟩, hEdge⟩

theorem IsComponent.lt (component : IsComponent graph scc) (hSize : 2 ≤ scc.Vertices.length)
    {u : Nat} (hu : u ∈ scc.Vertices) : u < graph.nvertices := by
  obtain ⟨v, hv, hne⟩ : ∃ v ∈ scc.Vertices, u ≠ v := by
    by_contra hAlone
    push Not at hAlone
    have hSub : scc.Vertices ⊆ [u] := fun v hv => mem_singleton.mpr (hAlone v hv).symm
    have hLength : scc.Vertices.length ≤ 1 := (component.nodup.subperm hSub).length_le
    omega
  obtain ⟨w, _, hEdge⟩ := component.exists_edge hu hv hne
  exact hEdge.lt.1

theorem ElementaryCycle.exists_first {vertices : List Nat} {cycle : Cycle Nat}
    (elementary : ElementaryCycle graph vertices cycle) :
    ∃ before v after rest, vertices = before ++ v :: after ∧ cycle = Cycle.ofList (v :: rest) ∧
      ∀ w ∈ before, w ∉ v :: rest := by
  obtain ⟨list, rfl⟩ := Quotient.exists_rep cycle
  have hNonempty : list ≠ [] := fun h => elementary.nonempty ((Cycle.coe_eq_nil list).mpr h)
  obtain ⟨x, hx⟩ := exists_mem_of_ne_nil _ hNonempty
  have hFound : (vertices.find? (· ∈ list)).isSome := by
    rw [find?_isSome]
    exact ⟨x, elementary.within x hx, decide_eq_true hx⟩
  obtain ⟨v, hFind⟩ := Option.isSome_iff_exists.mp hFound
  obtain ⟨hv, before, after, hSplit, hBefore⟩ := find?_eq_some_iff_append.mp hFind
  obtain ⟨front, back, rfl⟩ := append_of_mem (of_decide_eq_true hv)
  have hRotated : (front ++ v :: back) ~r (v :: (back ++ front)) := isRotated_append
  refine ⟨before, v, after, back ++ front, hSplit, Cycle.coe_eq_coe.mpr hRotated, ?_⟩
  intro w hw hm
  have hNot := hBefore w hw
  simp only [decide_eq_true (hRotated.mem_iff.mpr hm)] at hNot
  cases hNot

theorem elementary_of_cycleFrom {explore : Nat → Bool} {vertices : List Nat}
    (hExplore : ∀ w, explore w = true → w ∈ vertices) {v : Nat} {cycle : List Nat}
    (h : CycleFrom graph explore v cycle) : ElementaryCycle graph vertices (cycle : Cycle Nat) where
  nonempty := by
    intro hNil
    have hv := h.start_mem
    rw [(Cycle.coe_eq_nil cycle).mp hNil] at hv
    cases hv
  nodup := Cycle.nodup_coe_iff.mpr h.nodup
  chain := h.chain
  within := fun w hw => hExplore w (h.explored hw)

/-- The cycles found by the searches from all vertices of a component. -/
theorem mem_searches_iff (component : IsComponent graph scc) {cycles : List (List Nat)}
    (hCycles : ∀ cycle, cycle ∈ cycles ↔ ∃ before v after, scc.Vertices = before ++ v :: after ∧
        CycleFrom graph (exploredAfter scc.Member before) v cycle) (cycle : Cycle Nat) :
    cycle ∈ cycles.map Cycle.ofList ↔ ElementaryCycle graph scc.Vertices cycle := by
  constructor
  · intro hm
    obtain ⟨list, hList, rfl⟩ := mem_map.mp hm
    obtain ⟨before, v, after, _, hFrom⟩ := (hCycles list).mp hList
    refine elementary_of_cycleFrom (fun w hw => ?_) hFrom
    exact (component.member w).mp (Bool.and_eq_true_iff.mp hw).1
  · intro elementary
    obtain ⟨before, v, after, rest, hSplit, rfl, hBefore⟩ := elementary.exists_first
    refine mem_map_of_mem ((hCycles _).mpr ⟨before, v, after, hSplit, ?_⟩)
    refine cycleFrom_of_chain elementary.chain elementary.nodup fun w hw => ?_
    refine Bool.and_eq_true_iff.mpr ⟨(component.member w).mpr (elementary.within w hw), ?_⟩
    exact decide_eq_true fun hm => hBefore w hm hw

/-- Without self-loops there is one cycle through two vertices that reach each other. -/
theorem elementary_two_iff (noLoop : ∀ v, ¬ graph.Edge v v) {a b : Nat} (hne : a ≠ b)
    (hab : graph.Edge a b) (hba : graph.Edge b a) (cycle : Cycle Nat) :
    ElementaryCycle graph [a, b] cycle ↔ cycle = Cycle.ofList [a, b] := by
  constructor
  · intro elementary
    obtain ⟨list, rfl⟩ := Quotient.exists_rep cycle
    have hWithin : list ⊆ [a, b] := elementary.within
    have hLength : list.length ≤ 2 :=
      (List.Nodup.subperm elementary.nodup hWithin).length_le
    rcases list with _ | ⟨v, _ | ⟨w, _ | ⟨x, rest⟩⟩⟩
    · exact absurd rfl elementary.nonempty
    · exact absurd ((Cycle.chain_singleton graph.Edge v).mp elementary.chain) (noLoop v)
    · have hvw : v ≠ w := by
        rintro rfl
        exact (nodup_cons.mp elementary.nodup).1 mem_cons_self
      have hv : v = a ∨ v = b := by simpa using hWithin mem_cons_self
      have hw : w = a ∨ w = b := by simpa using hWithin (mem_cons_of_mem v mem_cons_self)
      rcases hv with rfl | rfl
      · obtain rfl := hw.resolve_left hvw.symm
        rfl
      · obtain rfl := hw.resolve_right hvw.symm
        exact Cycle.coe_eq_coe.mpr ⟨1, rfl⟩
    · simp at hLength
  · rintro rfl
    refine ⟨by simp, ?_, ?_, fun v hv => hv⟩
    · exact Cycle.nodup_coe_iff.mpr (by simp [hne])
    · exact (Cycle.chain_coe_cons graph.Edge a [b]).mpr (by simp [hab, hba])

/-- What `FindCycles` reports about a component. -/
structure Enumerated (graph : Graph) (vertices : List Nat) (found : JohnsonSearch) : Prop where
  tallied : found.Tallied
  once : (found.cycles.map Cycle.ofList).Nodup
  exact : ∀ cycle, cycle ∈ found.cycles.map Cycle.ofList ↔ ElementaryCycle graph vertices cycle

theorem enumerated_two (noLoop : ∀ v, ¬ graph.Edge v v) (component : IsComponent graph scc)
    {a b : Nat} (hTwo : scc.Vertices = [a, b]) :
    Enumerated graph [a, b] { empty with
      cycles := [[a, b]]
      cyclesMap := [indicator [a, b]]
      sumArray := Function.update (Function.update empty.sumArray a 1) b 1
      sum := 2 } := by
  have hne : a ≠ b := by
    have hNodup := component.nodup
    rw [hTwo] at hNodup
    simpa using hNodup
  have hEdge : ∀ {u v : Nat}, u ∈ scc.Vertices → v ∈ scc.Vertices → u ≠ v → graph.Edge u v := by
    intro u v hu hv huv
    obtain ⟨w, hw, hEdge⟩ := component.exists_edge hu hv huv
    have hwu : w ≠ u := by
      rintro rfl
      exact noLoop w hEdge
    obtain rfl : w = v := by
      rw [hTwo] at hu hv hw
      simp only [mem_cons, not_mem_nil, or_false] at hu hv hw
      omega
    exact hEdge
  have ha : a ∈ scc.Vertices := by simp [hTwo]
  have hb : b ∈ scc.Vertices := by simp [hTwo]
  refine ⟨(listed_two noLoop hne).tallied, nodup_singleton _, fun cycle => ?_⟩
  rw [elementary_two_iff noLoop hne (hEdge ha hb hne) (hEdge hb ha hne.symm)]
  exact mem_singleton

theorem enumerated_searches (noDuplicates : NoDuplicateArcs graph)
    (component : IsComponent graph scc) (hRange : ∀ v ∈ scc.Vertices, v < graph.nvertices) :
    ∃ found, (scc.Vertices.foldlM (searchFrom graph) (scc.Member, empty)).map Prod.snd =
        some found ∧ Enumerated graph scc.Vertices found := by
  obtain ⟨explore', found, more, hRun, tallied, hCycles, hMore, hOnce⟩ :=
    searchFrom_all scc.Vertices hRange scc.Member empty tallied_empty
  change found.cycles = more at hCycles
  subst hCycles
  refine ⟨found, by rw [hRun]; rfl, tallied, hOnce noDuplicates, ?_⟩
  exact mem_searches_iff component hMore

theorem findCycles_enumerated (noLoop : ∀ v, ¬ graph.Edge v v)
    (noDuplicates : NoDuplicateArcs graph) (component : IsComponent graph scc)
    (hSize : 2 ≤ scc.Vertices.length) :
    ∃ found, FindCycles graph scc = some found ∧ Enumerated graph scc.Vertices found := by
  have hGeneral := enumerated_searches noDuplicates component fun v hv => component.lt hSize hv
  unfold FindCycles
  split
  · next a hOne => simp [hOne] at hSize
  · next a b hTwo =>
      rw [hTwo]
      exact ⟨_, rfl, enumerated_two noLoop component hTwo⟩
  · exact hGeneral

theorem Enumerated.total {vertices : List Nat} {found : JohnsonSearch}
    (enumerated : Enumerated graph vertices found)
    (hRange : ∀ v ∈ vertices, v < graph.nvertices) :
    found.sum =
      (found.cyclesMap.map fun row => ((List.range graph.nvertices).map row).sum).sum := by
  rw [enumerated.tallied.total, enumerated.tallied.rows, map_map]
  refine congrArg List.sum (map_congr_left fun cycle hm => ?_)
  have elementary := (enumerated.exact cycle).mp (mem_map_of_mem hm)
  exact (sum_indicator elementary.nodup fun v hv => hRange v (elementary.within v hv)).symm

/-- In a graph without self-loops and without duplicate arcs the cycles reported for a
component of two or more vertices are its elementary cycles, each once up to rotation, and
the matrix, its columns and its total are those of the reported cycles. -/
theorem findCycles_exact (graph : Graph) (scc : SCC) (noLoop : ∀ v, ¬ graph.Edge v v)
    (noDuplicates : NoDuplicateArcs graph) (component : IsComponent graph scc)
    (hSize : 2 ≤ scc.Vertices.length) :
    ∃ found, FindCycles graph scc = some found ∧ (found.cycles.map Cycle.ofList).Nodup ∧
      (∀ cycle, cycle ∈ found.cycles.map Cycle.ofList ↔ ElementaryCycle graph scc.Vertices cycle) ∧
      found.cyclesMap = found.cycles.map indicator ∧
      (∀ k, found.sumArray k = (found.cyclesMap.map fun row => row k).sum) ∧
      found.sum =
        (found.cyclesMap.map fun row => ((List.range graph.nvertices).map row).sum).sum := by
  obtain ⟨found, hFound, enumerated⟩ :=
    findCycles_enumerated noLoop noDuplicates component hSize
  refine ⟨found, hFound, enumerated.once, enumerated.exact, enumerated.tallied.rows, ?_, ?_⟩
  · intro k
    rw [enumerated.tallied.columns, enumerated.tallied.rows, map_map]
    rfl
  · exact enumerated.total fun v hv => component.lt hSize hv

/-- A triangle with one arc also in the other direction. -/
def chordedTriangle : Graph where
  adj := [[1], [2, 0], [0]]
  inRange := by decide

theorem chordedTriangle_arcs : (∀ v, ¬ chordedTriangle.Edge v v) ∧
    NoDuplicateArcs chordedTriangle := by
  constructor
  · intro v hEdge
    have hRange : v < 3 := hEdge.lt.1
    interval_cases v <;> exact absurd hEdge (by decide)
  · intro v
    match v with
    | 0 | 1 | 2 => decide
    | _ + 3 => exact nodup_nil

def chordedTriangleComponent : SCC where
  Vertices := [0, 1, 2]
  Member := fun v => decide (v < 3)

theorem chordedTriangle_component : IsComponent chordedTriangle chordedTriangleComponent where
  nodup := by decide
  member := by
    intro v
    simp [chordedTriangleComponent]
    omega
  classes := by
    have hNext : ∀ u ∈ chordedTriangleComponent.Vertices,
        chordedTriangle.Reach 0 u ∧ chordedTriangle.Reach u 0 := by
      have h01 : chordedTriangle.Reach 0 1 := .single (by decide)
      have h12 : chordedTriangle.Reach 1 2 := .single (by decide)
      have h20 : chordedTriangle.Reach 2 0 := .single (by decide)
      intro u hu
      simp only [chordedTriangleComponent, mem_cons, not_mem_nil, or_false] at hu
      rcases hu with rfl | rfl | rfl
      · exact ⟨.refl, .refl⟩
      · exact ⟨h01, h12.trans h20⟩
      · exact ⟨h01.trans h12, h20⟩
    intro u hu v
    constructor
    · intro hv
      exact ⟨(hNext u hu).2.trans (hNext v hv).1, (hNext v hv).2.trans (hNext u hu).1⟩
    · rintro ⟨huv, _⟩
      refine Walk.reach_closed (· ∈ chordedTriangleComponent.Vertices) ?_ huv hu
      intro x y _ hEdge
      have hRange : y < 3 := hEdge.lt.2
      simp only [chordedTriangleComponent, mem_cons, not_mem_nil, or_false]
      omega

theorem findCycles_chordedTriangle :
    (FindCycles chordedTriangle chordedTriangleComponent).map (·.cycles) =
        some [[0, 1, 2], [0, 1]] ∧
      ∃ found, FindCycles chordedTriangle chordedTriangleComponent = some found ∧
        ∀ cycle, cycle ∈ found.cycles.map Cycle.ofList ↔
          ElementaryCycle chordedTriangle [0, 1, 2] cycle := by
  obtain ⟨found, hFound, _, hExact, _⟩ := findCycles_exact chordedTriangle
    chordedTriangleComponent chordedTriangle_arcs.1 chordedTriangle_arcs.2
    chordedTriangle_component (by decide)
  exact ⟨by decide +kernel, found, hFound, hExact⟩

end Nezha.JohnsonCE
