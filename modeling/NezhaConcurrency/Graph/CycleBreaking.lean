import NezhaConcurrency.Graph.JohnsonSearch
import NezhaConcurrency.Graph.TarjanCorrectness

/-! Cycle breaking is sound. The searches of one component list every elementary
cycle at its smallest vertex; the greedy loop ends with a removed vertex on every
listed cycle; so no cycle is left among the vertices that stay. -/
namespace Nezha

open Function List

namespace JohnsonSearch

variable {graph : Graph}

/-- The elementary cycles from `v` through explored vertices. -/
def CycleFrom (graph : Graph) (explore : Nat → Bool) (v : Nat) (cycle : List Nat) : Prop :=
  Extends graph explore v [] v cycle

/-- The vertices still explored once the searches from `done` are over. -/
def exploredAfter (explore : Nat → Bool) (done : List Nat) (w : Nat) : Bool :=
  explore w && decide (w ∉ done)

theorem exploredAfter_update (explore : Nat → Bool) (v : Nat) (done : List Nat) :
    exploredAfter (update explore v false) done = exploredAfter explore (v :: done) := by
  funext w
  unfold exploredAfter
  by_cases hne : w = v
  · subst hne
    simp
  · simp [hne]

variable {explore : Nat → Bool} {v : Nat} {cycle : List Nat}

theorem CycleFrom.nodup (h : CycleFrom graph explore v cycle) : cycle.Nodup := by
  obtain ⟨rest, rfl, closes⟩ := h
  refine nodup_cons.mpr ⟨fun hm => ?_, closes.nodup⟩
  exact closes.off v hm mem_cons_self

theorem CycleFrom.explored (h : CycleFrom graph explore v cycle) {w : Nat} (hw : w ∈ cycle) :
    explore w = true := by
  obtain ⟨rest, rfl, closes⟩ := h
  have hTail : ∀ (rest : List Nat) (u : Nat), List.IsChain (Arc graph explore) (u :: rest) →
      ∀ x ∈ rest, explore x = true := by
    intro rest
    induction rest with
    | nil => intro _ _ x hx; cases hx
    | cons y rest ih =>
      intro u hChain x hx
      obtain ⟨hArc, hRest⟩ := isChain_cons_cons.mp hChain
      rcases mem_cons.mp hx with rfl | hx
      · exact hArc.2
      · exact ih y hRest x hx
  refine hTail (rest ++ [v]) v closes.chain w ?_
  rcases mem_cons.mp hw with rfl | hw
  · exact mem_append_right _ mem_cons_self
  · exact mem_append_left _ hw

/-- One search finds exactly the cycles from its start. -/
theorem searchFrom_spec (explore : Nat → Bool) (s : JohnsonSearch) (tallied : s.Tallied)
    (hv : v < graph.nvertices) :
    ∃ s' more, searchFrom graph (explore, s) v = some (update explore v false, s') ∧
      s'.Tallied ∧ s'.cycles = s.cycles ++ more ∧
      (∀ cycle, cycle ∈ more ↔ CycleFrom graph explore v cycle) ∧
      (NoDuplicateArcs graph → more.Nodup) := by
  obtain ⟨s', found, hRun, searched⟩ := findCyclesRecur_spec graph explore v graph.nvertices v
    s.restart (invariant_restart graph explore v s) rfl hv mem_cons_self
    ⟨tallied.rows, tallied.columns, tallied.total⟩ (Nat.le_add_left _ _)
  obtain ⟨more, hCycles, hMore, hNodup⟩ := searched.cycles
  refine ⟨s', more, ?_, searched.tallied, hCycles, hMore, hNodup⟩
  unfold searchFrom
  rw [hRun]
  rfl

theorem CycleFrom.start_mem (h : CycleFrom graph explore v cycle) : v ∈ cycle := by
  obtain ⟨rest, rfl, _⟩ := h
  exact mem_cons_self

/-- A closed walk through different explored vertices is a cycle from its first vertex. -/
theorem cycleFrom_of_chain {rest : List Nat} (chain : List.IsChain graph.Edge (v :: (rest ++ [v])))
    (nodup : (v :: rest).Nodup) (hExplored : ∀ w ∈ v :: rest, explore w = true) :
    CycleFrom graph explore v (v :: rest) := by
  obtain ⟨hv, hRest⟩ := nodup_cons.mp nodup
  refine ⟨rest, rfl, ?_, hRest, fun w hw hm => ?_⟩
  · refine List.IsChain.imp_of_mem_imp (fun u w _ hw hEdge => ⟨hEdge, hExplored w ?_⟩) chain
    simpa [or_comm] using hw
  · rw [mem_singleton.mp hm] at hw
    exact hv hw

theorem CycleFrom.chain (h : CycleFrom graph explore v cycle) :
    Cycle.Chain graph.Edge (cycle : Cycle Nat) := by
  obtain ⟨rest, rfl, closes⟩ := h
  exact closes.chain.imp fun _ _ hArc => hArc.1

theorem CycleFrom.eq_of_isRotated {other : List Nat} (h : CycleFrom graph explore v cycle)
    (h' : CycleFrom graph explore v other) (hRotated : cycle ~r other) : cycle = other := by
  have hNodup := h.nodup
  obtain ⟨rest, rfl, _⟩ := h
  obtain ⟨rest', rfl, _⟩ := h'
  exact Walk.eq_of_isRotated_of_head hNodup hRotated

theorem searchFrom_all (vertices : List Nat) (hRange : ∀ v ∈ vertices, v < graph.nvertices)
    (explore : Nat → Bool) (s : JohnsonSearch) (tallied : s.Tallied) :
    ∃ explore' s' more, vertices.foldlM (searchFrom graph) (explore, s) = some (explore', s') ∧
      s'.Tallied ∧ s'.cycles = s.cycles ++ more ∧
      (∀ cycle, cycle ∈ more ↔ ∃ before v after, vertices = before ++ v :: after ∧
        CycleFrom graph (exploredAfter explore before) v cycle) ∧
      (NoDuplicateArcs graph → (more.map Cycle.ofList).Nodup) := by
  induction vertices generalizing explore s with
  | nil => exact ⟨explore, s, [], rfl, tallied, (append_nil _).symm, by simp, by simp⟩
  | cons v vertices ih =>
    obtain ⟨s₁, more₁, hFirst, tallied₁, hCycles₁, hMore₁, hNodup₁⟩ :=
      searchFrom_spec explore s tallied (hRange v mem_cons_self)
    obtain ⟨explore', s', more, hRest, tallied', hCycles, hMore, hNodup⟩ :=
      ih (fun w hw => hRange w (mem_cons_of_mem _ hw)) (update explore v false) s₁ tallied₁
    have hStart : exploredAfter explore [] = explore := by
      funext w
      simp [exploredAfter]
    refine ⟨explore', s', more₁ ++ more, ?_, tallied', ?_, fun cycle => ?_, fun hArcs => ?_⟩
    · rw [foldlM_cons, hFirst]
      exact hRest
    · rw [hCycles, hCycles₁, append_assoc]
    · rw [mem_append, hMore₁, hMore]
      constructor
      · rintro (h | ⟨before, w, after, rfl, h⟩)
        · exact ⟨[], v, vertices, rfl, hStart.symm ▸ h⟩
        · exact ⟨v :: before, w, after, rfl, exploredAfter_update explore v before ▸ h⟩
      · rintro ⟨before, w, after, hSplit, h⟩
        cases before with
        | nil =>
          obtain ⟨rfl, rfl⟩ := List.cons.inj hSplit
          exact Or.inl (hStart ▸ h)
        | cons x before =>
          obtain ⟨rfl, rfl⟩ := List.cons.inj hSplit
          exact Or.inr ⟨before, w, after, rfl, (exploredAfter_update explore v before).symm ▸ h⟩
    · rw [map_append]
      refine List.Nodup.append ?_ (hNodup hArcs) ?_
      · refine List.Nodup.map_on (fun cycle hc other ho hSame => ?_) (hNodup₁ hArcs)
        exact ((hMore₁ _).mp hc).eq_of_isRotated ((hMore₁ _).mp ho) (Cycle.coe_eq_coe.mp hSame)
      -- The start of this search is on its cycles and not explored by the later ones.
      · intro cycle hc hLater
        obtain ⟨first, hFirst, rfl⟩ := mem_map.mp hc
        obtain ⟨later, hLater, hSame⟩ := mem_map.mp hLater
        obtain ⟨before, w, after, rfl, h⟩ := (hMore _).mp hLater
        have hv : v ∈ later :=
          (Cycle.coe_eq_coe.mp hSame).mem_iff.mpr ((hMore₁ _).mp hFirst).start_mem
        have hExplored := h.explored hv
        simp [exploredAfter] at hExplored

end JohnsonSearch

namespace JohnsonCE

open JohnsonSearch

variable {graph : Graph}

/-- What `FindCycles` reports about a set of vertices: every reported cycle is a
non-empty list of different vertices of the set, and every elementary cycle of
the set, read from its smallest vertex, contains a reported one. -/
structure Listed (graph : Graph) (vertices : List Nat) (found : JohnsonSearch) : Prop where
  tallied : found.Tallied
  nodup : ∀ cycle ∈ found.cycles, cycle.Nodup
  nonempty : ∀ cycle ∈ found.cycles, cycle ≠ []
  within : ∀ cycle ∈ found.cycles, ∀ w ∈ cycle, w ∈ vertices
  complete : ∀ v rest, List.IsChain graph.Edge (v :: (rest ++ [v])) → (v :: rest).Nodup →
    (∀ w ∈ v :: rest, w ∈ vertices ∧ v ≤ w) → ∃ cycle ∈ found.cycles, cycle ⊆ v :: rest

theorem tallied_empty : empty.Tallied := ⟨rfl, fun _ => rfl, rfl⟩

theorem listed_one (noLoop : ∀ v, ¬ graph.Edge v v) (a : Nat) : Listed graph [a] empty := by
  refine ⟨tallied_empty, ?_, ?_, ?_, ?_⟩
  · exact fun cycle h => absurd h not_mem_nil
  · exact fun cycle h => absurd h not_mem_nil
  · exact fun cycle h => absurd h not_mem_nil
  · intro v rest hChain hNodup hWithin
    cases rest with
    | nil => exact absurd (isChain_cons_cons.mp hChain).1 (noLoop v)
    | cons w rest =>
      have hv := mem_singleton.mp (hWithin v mem_cons_self).1
      have hw := mem_singleton.mp (hWithin w (by simp)).1
      subst hv hw
      simp at hNodup

theorem listed_two (noLoop : ∀ v, ¬ graph.Edge v v) {a b : Nat} (hne : a ≠ b) :
    Listed graph [a, b] { empty with
      cycles := [[a, b]]
      cyclesMap := [indicator [a, b]]
      sumArray := update (update empty.sumArray a 1) b 1
      sum := 2 } := by
  refine ⟨⟨rfl, fun k => ?_, rfl⟩, ?_, ?_, ?_, ?_⟩
  · by_cases hb : k = b
    · subst hb
      simp [indicator]
    · by_cases ha : k = a
      · subst ha
        simp [indicator, hne]
      · simp [indicator, ha, hb, empty]
  · simp [hne]
  · simp
  · simp
  · intro v rest hChain hNodup hWithin
    refine ⟨[a, b], mem_singleton.mpr rfl, ?_⟩
    cases rest with
    | nil => exact absurd (isChain_cons_cons.mp hChain).1 (noLoop v)
    | cons w rest =>
      have hv := (hWithin v mem_cons_self).1
      have hw := (hWithin w (by simp)).1
      have hvw : v ≠ w := by
        rintro rfl
        simp at hNodup
      intro x hx
      simp only [mem_cons, not_mem_nil, or_false] at hv hw hx ⊢
      omega

theorem listed_searches {scc : SCC} (sorted : scc.Vertices.Pairwise (· < ·))
    (member : ∀ v, scc.Member v = true ↔ v ∈ scc.Vertices)
    (hRange : ∀ v ∈ scc.Vertices, v < graph.nvertices) :
    ∃ found, (scc.Vertices.foldlM (searchFrom graph) (scc.Member, empty)).map Prod.snd =
        some found ∧ Listed graph scc.Vertices found := by
  obtain ⟨explore', found, more, hRun, tallied, hCycles, hMore, _⟩ :=
    searchFrom_all scc.Vertices hRange scc.Member empty tallied_empty
  have hIff : ∀ cycle, cycle ∈ found.cycles ↔ ∃ before v after,
      scc.Vertices = before ++ v :: after ∧
        CycleFrom graph (exploredAfter scc.Member before) v cycle := by
    intro cycle
    rw [hCycles]
    exact hMore cycle
  refine ⟨found, by rw [hRun]; rfl, tallied, ?_, ?_, ?_, ?_⟩
  · intro cycle hm
    obtain ⟨_, _, _, _, h⟩ := (hIff cycle).mp hm
    exact h.nodup
  · intro cycle hm
    obtain ⟨_, v, _, _, rest, rfl, _⟩ := (hIff cycle).mp hm
    exact cons_ne_nil _ _
  · intro cycle hm w hw
    obtain ⟨_, _, _, _, h⟩ := (hIff cycle).mp hm
    exact (member w).mp (Bool.and_eq_true_iff.mp (h.explored hw)).1
  · intro v rest hChain hNodup hWithin
    obtain ⟨before, after, hSplit⟩ := append_of_mem (hWithin v mem_cons_self).1
    -- The smaller vertices were searched before, and the cycle has none of them.
    have hExplored : ∀ w ∈ v :: rest, exploredAfter scc.Member before w = true := by
      intro w hw
      refine Bool.and_eq_true_iff.mpr ⟨(member w).mpr (hWithin w hw).1, decide_eq_true ?_⟩
      intro hBefore
      rw [hSplit] at sorted
      have hLess := (pairwise_append.mp sorted).2.2 w hBefore v mem_cons_self
      exact absurd hLess (Nat.not_lt.mpr (hWithin w hw).2)
    exact ⟨v :: rest, (hIff _).mpr ⟨before, v, after, hSplit,
      cycleFrom_of_chain hChain hNodup hExplored⟩, fun _ h => h⟩

theorem findCycles_spec (noLoop : ∀ v, ¬ graph.Edge v v) {scc : SCC}
    (sorted : scc.Vertices.Pairwise (· < ·))
    (member : ∀ v, scc.Member v = true ↔ v ∈ scc.Vertices)
    (hRange : ∀ v ∈ scc.Vertices, v < graph.nvertices) :
    ∃ found, FindCycles graph scc = some found ∧ Listed graph scc.Vertices found := by
  have hGeneral := listed_searches sorted member hRange
  unfold FindCycles
  split
  · next a hOne =>
      rw [hOne]
      exact ⟨empty, rfl, listed_one noLoop a⟩
  · next a b hTwo =>
      rw [hTwo] at sorted ⊢
      have hLess : a < b := (pairwise_cons.mp sorted).1 b mem_cons_self
      exact ⟨_, rfl, listed_two noLoop (Nat.ne_of_lt hLess)⟩
  · exact hGeneral

section Greedy

/-- No vertex of the cycle is removed. -/
def live (invalid : Nat → Bool) (cycle : List Nat) : Bool := !cycle.any invalid

theorem live_update (invalid : Nat → Bool) (max : Nat) (cycle : List Nat) :
    live (update invalid max true) cycle = (live invalid cycle && decide (max ∉ cycle)) := by
  unfold live
  rw [Bool.eq_iff_iff]
  simp only [Bool.not_eq_true', any_eq_false, Bool.and_eq_true, decide_eq_true_eq]
  constructor
  · intro h
    refine ⟨fun w hw hInvalid => h w hw ?_, fun hm => h max hm (update_self ..)⟩
    by_cases hne : w = max
    · rw [hne]
      exact update_self ..
    · exact (update_of_ne hne ..).trans hInvalid
  · rintro ⟨h, hMax⟩ w hw hInvalid
    have hne : w ≠ max := by
      rintro rfl
      exact hMax hw
    exact h w hw ((update_of_ne hne ..).symm.trans hInvalid)

/-- The sum of a quantity over the cycles that satisfy a test. -/
def tally (cycles : List (List Nat)) (test : List Nat → Bool) (value : List Nat → Int) : Int :=
  (cycles.map fun cycle => if test cycle then value cycle else 0).sum

theorem tally_cons (cycle : List Nat) (cycles : List (List Nat)) (test : List Nat → Bool)
    (value : List Nat → Int) :
    tally (cycle :: cycles) test value =
      (if test cycle then value cycle else 0) + tally cycles test value := by
  simp [tally]

theorem tally_split (cycles : List (List Nat)) (p q : List Nat → Bool) (value : List Nat → Int) :
    tally cycles p value =
      tally cycles (fun c => p c && q c) value + tally cycles (fun c => p c && !q c) value := by
  induction cycles with
  | nil => rfl
  | cons cycle cycles ih =>
    rw [tally_cons, tally_cons, tally_cons, ih]
    cases p cycle <;> cases q cycle <;> simp <;> omega

variable {test : List Nat → Bool} {value : List Nat → Int}

theorem tally_nonneg {cycles : List (List Nat)} (hValue : ∀ cycle ∈ cycles, 0 ≤ value cycle) :
    0 ≤ tally cycles test value := by
  induction cycles with
  | nil => exact le_refl 0
  | cons cycle cycles ih =>
    have hRest := ih fun c hc => hValue c (mem_cons_of_mem _ hc)
    have hHead := hValue cycle mem_cons_self
    rw [tally_cons]
    split <;> omega

variable {cycle : List Nat}

theorem tally_pos {cycles : List (List Nat)} (hValue : ∀ cycle ∈ cycles, 0 ≤ value cycle)
    (hm : cycle ∈ cycles) (hTest : test cycle = true) (hPos : 0 < value cycle) :
    0 < tally cycles test value := by
  induction cycles with
  | nil => cases hm
  | cons head cycles ih =>
    have hTail : ∀ c ∈ cycles, 0 ≤ value c := fun c hc => hValue c (mem_cons_of_mem _ hc)
    have hHead := hValue head mem_cons_self
    rw [tally_cons]
    rcases mem_cons.mp hm with rfl | hm
    · have hRest : 0 ≤ tally cycles test value := tally_nonneg hTail
      rw [if_pos hTest]
      omega
    · have hRest := ih hTail hm
      split <;> omega

theorem exists_of_tally_pos {cycles : List (List Nat)} (hPos : 0 < tally cycles test value) :
    ∃ cycle ∈ cycles, test cycle = true ∧ 0 < value cycle := by
  induction cycles with
  | nil => exact absurd hPos (Int.lt_irrefl 0)
  | cons head cycles ih =>
    rw [tally_cons] at hPos
    by_cases hHead : test head = true ∧ 0 < value head
    · exact ⟨head, mem_cons_self, hHead⟩
    · have hRest : 0 < tally cycles test value := by
        split at hPos <;> [skip; omega]
        rename_i hTest
        have : ¬ 0 < value head := fun h => hHead ⟨hTest, h⟩
        omega
      obtain ⟨cycle, hm, h⟩ := ih hRest
      exact ⟨cycle, mem_cons_of_mem _ hm, h⟩

theorem indicator_nonneg (cycle : List Nat) (k : Nat) : 0 ≤ indicator cycle k := by
  unfold indicator
  split <;> omega

theorem indicator_pos_iff {k : Nat} : 0 < indicator cycle k ↔ k ∈ cycle := by
  unfold indicator
  split <;> simp_all

theorem sum_indicator (nodup : cycle.Nodup) (hRange : ∀ w ∈ cycle, w < graph.nvertices) :
    ((List.range graph.nvertices).map (indicator cycle)).sum = cycle.length := by
  have hCount : ∀ ks : List Nat,
      (ks.map (indicator cycle)).sum = (ks.filter fun k => decide (k ∈ cycle)).length := by
    intro ks
    induction ks with
    | nil => rfl
    | cons k ks ih =>
      rw [map_cons, sum_cons, ih]
      by_cases hk : k ∈ cycle
      · simp [indicator, hk]
        omega
      · simp [indicator, hk]
  have hPerm : ((List.range graph.nvertices).filter fun k => decide (k ∈ cycle)).Perm cycle := by
    refine (perm_ext_iff_of_nodup (nodup_range.filter _) nodup).mpr fun w => ?_
    simp only [mem_filter, mem_range, decide_eq_true_eq]
    exact ⟨fun h => h.2, fun h => ⟨hRange w h, h⟩⟩
  rw [hCount, hPerm.length_eq]

theorem foldl_sub_indicator (nodup : cycle.Nodup) (hRange : ∀ w ∈ cycle, w < graph.nvertices)
    (sum : Int) :
    (List.range graph.nvertices).foldl (fun sum k => sum - indicator cycle k) sum =
      sum - cycle.length := by
  have hFold : ∀ (ks : List Nat) (sum : Int), ks.foldl (fun sum k => sum - indicator cycle k) sum =
        sum - (ks.map (indicator cycle)).sum := by
    intro ks
    induction ks with
    | nil => simp
    | cons k ks ih =>
      intro sum
      rw [foldl_cons, ih, map_cons, sum_cons]
      omega
  rw [hFold, sum_indicator nodup hRange]

/-- The rows of a matrix whose removed cycles are cleared. -/
def row (invalid : Nat → Bool) (cycle : List Nat) : Nat → Int :=
  if live invalid cycle then indicator cycle else fun _ => 0

/-- What the greedy loop keeps. `base` is the size of the removed set before. -/
structure Breaks (graph : Graph) (cycles : List (List Nat)) (base : Nat) (b : Breaking) : Prop where
  rows : b.boolMap = cycles.map (row b.invalidVertices)
  columns : ∀ k, b.sumArray k = tally cycles (live b.invalidVertices) fun c => indicator c k
  total : b.sum = tally cycles (live b.invalidVertices) fun c => c.length
  size : b.removeSetSize = base + (List.range graph.nvertices).countP b.invalidVertices
  onCycle : ∀ v, b.invalidVertices v = true → ∃ cycle ∈ cycles, v ∈ cycle

theorem foldl_clearRow {cycles : List (List Nat)} (nodup : ∀ cycle ∈ cycles, cycle.Nodup)
    (hRange : ∀ cycle ∈ cycles, ∀ w ∈ cycle, w < graph.nvertices) (invalid : Nat → Bool)
    (max : Nat) (b : Breaking) :
    (cycles.map (row invalid)).foldl (clearRow graph max) b =
      { b with
        boolMap := b.boolMap ++ cycles.map (row (update invalid max true))
        sumArray := fun k => b.sumArray k -
          tally cycles (fun c => live invalid c && decide (max ∈ c)) fun c => indicator c k
        sum := b.sum -
          tally cycles (fun c => live invalid c && decide (max ∈ c)) fun c => c.length } := by
  induction cycles generalizing b with
  | nil => simp [tally]
  | cons cycle cycles ih =>
    have hTail := ih (fun c hc => nodup c (mem_cons_of_mem _ hc))
      (fun c hc => hRange c (mem_cons_of_mem _ hc))
    rw [map_cons, foldl_cons, hTail]
    simp only [tally_cons, map_cons]
    by_cases hHit : live invalid cycle = true ∧ max ∈ cycle
    · have hRow : row invalid cycle = indicator cycle := by rw [row, if_pos hHit.1]
      have hRow' : row (update invalid max true) cycle = fun _ => 0 := by
        rw [row, live_update]
        simp [hHit.2]
      have hClear : clearRow graph max b (row invalid cycle) =
          { b with
            boolMap := b.boolMap ++ [fun _ => 0]
            sumArray := fun k => b.sumArray k - indicator cycle k
            sum := b.sum - cycle.length } := by
        rw [hRow, clearRow, if_pos (by simp [indicator, hHit.2]),
          foldl_sub_indicator (nodup cycle mem_cons_self) (hRange cycle mem_cons_self)]
        congr 1
        funext k
        split
        · rfl
        · next hk =>
            have hOut : k ∉ cycle := fun h => hk (hRange cycle mem_cons_self k h)
            simp [indicator, hOut]
      rw [hClear, hRow']
      simp only [hHit.1, hHit.2, decide_true, Bool.and_self, if_true, append_assoc,
        singleton_append, sub_sub]
    · have hRow : row invalid cycle max ≠ 1 := by
        unfold row
        split
        · next hLive =>
            have hOff : max ∉ cycle := fun h => hHit ⟨hLive, h⟩
            simp [indicator, hOff]
        · simp
      have hRow' : row (update invalid max true) cycle = row invalid cycle := by
        unfold row
        rw [live_update]
        by_cases hLive : live invalid cycle = true
        · have hOff : max ∉ cycle := fun h => hHit ⟨hLive, h⟩
          simp [hOff]
        · simp [hLive]
      have hTest : (live invalid cycle && decide (max ∈ cycle)) = false := by
        rw [← Bool.not_eq_true, Bool.and_eq_true, decide_eq_true_eq]
        exact hHit
      rw [clearRow, if_neg hRow, hRow', hTest]
      simp

theorem maxVertex_le (sumArray : Nat → Int) {k : Nat} (hk : k < graph.nvertices) :
    sumArray k ≤ sumArray (maxVertex graph sumArray) := by
  have hFold : ∀ (ks : List Nat) (start : Nat),
      let last := ks.foldl (fun max i => if sumArray i > sumArray max then i else max) start
      sumArray start ≤ sumArray last ∧ ∀ k ∈ ks, sumArray k ≤ sumArray last := by
    intro ks
    induction ks with
    | nil => exact fun start => ⟨le_refl _, fun k hk => absurd hk not_mem_nil⟩
    | cons i ks ih =>
      intro start
      obtain ⟨hStart, hRest⟩ := ih (if sumArray i > sumArray start then i else start)
      have hNext : sumArray start ≤ sumArray (if sumArray i > sumArray start then i else start) ∧
          sumArray i ≤ sumArray (if sumArray i > sumArray start then i else start) := by
        split <;> omega
      refine ⟨hNext.1.trans hStart, fun k hk => ?_⟩
      rcases mem_cons.mp hk with rfl | hk
      · exact hNext.2.trans hStart
      · exact hRest k hk
  exact (hFold (List.range graph.nvertices) 0).2 k (mem_range.mpr hk)

variable {cycles : List (List Nat)} {base : Nat} {b : Breaking}

/-- While the total is not zero, the chosen vertex is on a cycle that is not yet hit. -/
theorem Breaks.maxVertex_live (breaks : Breaks graph cycles base b)
    (nonempty : ∀ cycle ∈ cycles, cycle ≠ [])
    (hRange : ∀ cycle ∈ cycles, ∀ w ∈ cycle, w < graph.nvertices) (hSum : b.sum ≠ 0) :
    ∃ cycle ∈ cycles, live b.invalidVertices cycle = true ∧ maxVertex graph b.sumArray ∈ cycle := by
  have hLengths : ∀ cycle ∈ cycles, (0 : Int) ≤ cycle.length := fun c _ => Int.natCast_nonneg _
  have hTotal : 0 < tally cycles (live b.invalidVertices) fun c => (c.length : Int) := by
    have hNonneg : 0 ≤ b.sum := breaks.total ▸ tally_nonneg hLengths
    rw [← breaks.total]
    omega
  obtain ⟨cycle, hm, hLive, _⟩ := exists_of_tally_pos hTotal
  obtain ⟨w, hw⟩ := exists_mem_of_ne_nil cycle (nonempty cycle hm)
  have hColumn : 0 < b.sumArray w := by
    rw [breaks.columns w]
    exact tally_pos (fun c _ => indicator_nonneg c w) hm hLive (indicator_pos_iff.mpr hw)
  have hMax : 0 < b.sumArray (maxVertex graph b.sumArray) :=
    hColumn.trans_le (maxVertex_le b.sumArray (hRange cycle hm w hw))
  rw [breaks.columns] at hMax
  obtain ⟨hit, hHit, hHitLive, hPos⟩ := exists_of_tally_pos hMax
  exact ⟨hit, hHit, hHitLive, indicator_pos_iff.mp hPos⟩

theorem Breaks.removeVertex (breaks : Breaks graph cycles base b)
    (nodup : ∀ cycle ∈ cycles, cycle.Nodup) (nonempty : ∀ cycle ∈ cycles, cycle ≠ [])
    (hRange : ∀ cycle ∈ cycles, ∀ w ∈ cycle, w < graph.nvertices) (hSum : b.sum ≠ 0) :
    Breaks graph cycles base (removeVertex graph b) ∧
      (JohnsonCE.removeVertex graph b).sum < b.sum := by
  obtain ⟨hit, hm, hLive, hMax⟩ := breaks.maxVertex_live nonempty hRange hSum
  simp only [JohnsonCE.removeVertex, breaks.rows, foldl_clearRow nodup hRange]
  generalize maxVertex graph b.sumArray = max at hMax
  have hSplit : ∀ value : List Nat → Int, tally cycles (live b.invalidVertices) value -
      tally cycles (fun c => live b.invalidVertices c && decide (max ∈ c)) value =
      tally cycles (live (update b.invalidVertices max true)) value := by
    intro value
    have hTest : live (update b.invalidVertices max true) =
        fun c => live b.invalidVertices c && !decide (max ∈ c) := by
      funext c
      rw [live_update, decide_not]
    rw [tally_split cycles (live b.invalidVertices) (fun c => decide (max ∈ c)) value, hTest]
    omega
  have hFree : b.invalidVertices max = false := by
    have hNone := hLive
    rw [live, Bool.not_eq_true', any_eq_false] at hNone
    exact Bool.of_not_eq_true (hNone max hMax)
  refine ⟨⟨rfl, fun k => ?_, ?_, ?_, ?_⟩, ?_⟩
  · rw [← hSplit, ← breaks.columns]
  · rw [← hSplit, ← breaks.total]
  · have hCount : (List.range graph.nvertices).countP (update b.invalidVertices max true) =
        (List.range graph.nvertices).countP b.invalidVertices + 1 :=
      Count.countP_eq_succ nodup_range (mem_range.mpr (hRange hit hm max hMax))
        (update_self ..) hFree fun w _ hne => update_of_ne hne ..
    change b.removeSetSize + 1 = _
    rw [hCount, breaks.size, Nat.add_assoc]
  · intro v hv
    by_cases hne : v = max
    · rw [hne]
      exact ⟨hit, hm, hMax⟩
    · exact breaks.onCycle v ((update_of_ne hne ..).symm.trans hv)
  · have hPos : 0 < tally cycles (fun c => live b.invalidVertices c && decide (max ∈ c))
        fun c => (c.length : Int) := by
      refine tally_pos (fun c _ => Int.natCast_nonneg _) hm (by simp [hLive, hMax]) ?_
      exact Int.natCast_pos.mpr (length_pos_of_mem hMax)
    change b.sum - _ < b.sum
    omega

/-- The loop ends when every cycle has a removed vertex. -/
theorem Breaks.breakLoop (nodup : ∀ cycle ∈ cycles, cycle.Nodup)
    (nonempty : ∀ cycle ∈ cycles, cycle ≠ [])
    (hRange : ∀ cycle ∈ cycles, ∀ w ∈ cycle, w < graph.nvertices) (rounds : Nat)
    (breaks : Breaks graph cycles base b) (hRounds : b.sum < rounds) :
    ∃ last, breakLoop graph rounds b = some last ∧ Breaks graph cycles base last ∧
      ∀ cycle ∈ cycles, ∃ w ∈ cycle, last.invalidVertices w = true := by
  have hLengths : ∀ cycle ∈ cycles, (0 : Int) ≤ cycle.length := fun c _ => Int.natCast_nonneg _
  induction rounds generalizing b with
  | zero =>
    have hNonneg : 0 ≤ b.sum := breaks.total ▸ tally_nonneg hLengths
    omega
  | succ rounds ih =>
    by_cases hSum : b.sum = 0
    · refine ⟨b, by rw [JohnsonCE.breakLoop, if_pos hSum], breaks, fun cycle hm => ?_⟩
      by_contra hNone
      have hLive : live b.invalidVertices cycle = true := by
        rw [live, Bool.not_eq_true', any_eq_false]
        exact fun w hw hInvalid => hNone ⟨w, hw, hInvalid⟩
      have hPos := tally_pos hLengths hm hLive
        (Int.natCast_pos.mpr (length_pos_of_ne_nil (nonempty cycle hm)))
      rw [← breaks.total, hSum] at hPos
      exact Int.lt_irrefl 0 hPos
    · obtain ⟨hNext, hLess⟩ := breaks.removeVertex nodup nonempty hRange hSum
      rw [JohnsonCE.breakLoop, if_neg hSum]
      exact ih hNext (by omega)

end Greedy

section Run

open TarjanSCC (Component Components SCC_spec)

/-- Every elementary cycle of the vertices, read from its smallest vertex, has a
removed vertex. -/
def Broken (graph : Graph) (vertices : List Nat) (invalid : Nat → Bool) : Prop :=
  ∀ v rest, List.IsChain graph.Edge (v :: (rest ++ [v])) → (v :: rest).Nodup →
    (∀ w ∈ v :: rest, w ∈ vertices ∧ v ≤ w) → ∃ w ∈ v :: rest, invalid w = true

theorem breakCycles_spec (noLoop : ∀ v, ¬ graph.Edge v v) {scc : SCC}
    (sorted : scc.Vertices.Pairwise (· < ·))
    (member : ∀ v, scc.Member v = true ↔ v ∈ scc.Vertices)
    (hRange : ∀ v ∈ scc.Vertices, v < graph.nvertices) (removeSetSize : Nat) :
    ∃ b, BreakCycles graph removeSetSize scc = some b ∧
      b.removeSetSize = removeSetSize + (List.range graph.nvertices).countP b.invalidVertices ∧
      (∀ v, b.invalidVertices v = true → v ∈ scc.Vertices) ∧
      Broken graph scc.Vertices b.invalidVertices := by
  obtain ⟨found, hFound, listed⟩ := findCycles_spec noLoop sorted member hRange
  have hCycles : ∀ cycle ∈ found.cycles, ∀ w ∈ cycle, w < graph.nvertices :=
    fun cycle hm w hw => hRange w (listed.within cycle hm w hw)
  have hLive : live (fun _ => false) = fun _ => true := by
    funext cycle
    simp [live]
  have hStart : Breaks graph found.cycles removeSetSize
      { boolMap := found.cyclesMap
        sumArray := found.sumArray
        sum := found.sum
        removeSetSize := removeSetSize
        invalidVertices := fun _ => false } := by
    refine ⟨?_, fun k => ?_, ?_, by simp, fun v h => absurd h Bool.false_ne_true⟩
    · rw [listed.tallied.rows]
      exact map_congr_left fun cycle _ => by rw [row, hLive, if_pos rfl]
    · rw [hLive]
      exact listed.tallied.columns k
    · rw [hLive]
      exact listed.tallied.total
  obtain ⟨b, hLoop, breaks, hHit⟩ := Breaks.breakLoop listed.nodup listed.nonempty hCycles
    (found.sum.toNat + 1) hStart (by change found.sum < _; omega)
  refine ⟨b, ?_, breaks.size, fun v hv => ?_, ?_⟩
  · rw [BreakCycles, hFound]
    exact hLoop
  · obtain ⟨cycle, hm, hv⟩ := breaks.onCycle v hv
    exact listed.within cycle hm v hv
  · intro v rest hChain hNodup hWithin
    obtain ⟨cycle, hm, hSubset⟩ := listed.complete v rest hChain hNodup hWithin
    obtain ⟨w, hw, hInvalid⟩ := hHit cycle hm
    exact ⟨w, hSubset hw, hInvalid⟩

theorem foldl_update (flags : Nat → Bool) (vertices : List Nat) (invalid : Nat → Bool) (w : Nat) :
    vertices.foldl (fun invalid v => update invalid v (flags v)) invalid w =
      if w ∈ vertices then flags w else invalid w := by
  induction vertices generalizing invalid with
  | nil => rfl
  | cons v vertices ih =>
    rw [foldl_cons, ih]
    by_cases hne : w = v
    · subst hne
      simp
    · simp [hne]

/-- What holds after the components `done`. -/
structure RunInvariant (graph : Graph) (done : List SCC) (s : Nat × (Nat → Bool)) : Prop where
  size : s.1 = (List.range graph.nvertices).countP s.2
  flagged : ∀ v, s.2 v = true → ∃ scc ∈ done, v ∈ scc.Vertices
  broken : ∀ scc ∈ done, Broken graph scc.Vertices s.2

theorem RunInvariant.runComponent (noLoop : ∀ v, ¬ graph.Edge v v) {done : List SCC} {scc : SCC}
    {s : Nat × (Nat → Bool)} (inv : RunInvariant graph done s)
    (component : Component graph done scc) (hRange : ∀ v ∈ scc.Vertices, v < graph.nvertices) :
    ∃ s', runComponent graph s scc = some s' ∧ RunInvariant graph (done ++ [scc]) s' := by
  obtain ⟨b, hRun, hSize, hWithin, hBroken⟩ :=
    breakCycles_spec noLoop component.sorted component.member hRange s.1
  refine ⟨_, by rw [JohnsonCE.runComponent, hRun]; rfl, ?_⟩
  have hFlags : ∀ w, scc.Vertices.foldl (fun invalid vertex =>
      update invalid vertex (b.invalidVertices vertex)) s.2 w = (s.2 w || b.invalidVertices w) := by
    intro w
    rw [foldl_update]
    split
    · next hw =>
        have hFree : s.2 w = false := by
          by_contra hNot
          obtain ⟨other, ho, hOther⟩ := inv.flagged w (Bool.of_not_eq_false hNot)
          exact component.disjoint w hw other ho hOther
        rw [hFree, Bool.false_or]
    · next hw =>
        have hFree : b.invalidVertices w = false :=
          Bool.of_not_eq_true fun h => hw (hWithin w h)
        rw [hFree, Bool.or_false]
  refine ⟨?_, fun v hv => ?_, fun other ho => ?_⟩
  · have hDisjoint : ∀ w ∈ List.range graph.nvertices,
        ¬ (s.2 w = true ∧ b.invalidVertices w = true) := by
      rintro w _ ⟨hOld, hNew⟩
      obtain ⟨other, ho, hOther⟩ := inv.flagged w hOld
      exact component.disjoint w (hWithin w hNew) other ho hOther
    simp only [funext hFlags, hSize, inv.size]
    exact (Count.countP_or hDisjoint).symm
  · change scc.Vertices.foldl _ s.2 v = true at hv
    rw [hFlags, Bool.or_eq_true] at hv
    rcases hv with hv | hv
    · obtain ⟨other, ho, hOther⟩ := inv.flagged v hv
      exact ⟨other, mem_append_left _ ho, hOther⟩
    · exact ⟨scc, mem_append_right _ mem_cons_self, hWithin v hv⟩
  · intro v rest hChain hNodup hIn
    have hOne : ∃ w ∈ v :: rest, s.2 w = true ∨ b.invalidVertices w = true := by
      rcases mem_append.mp ho with ho | ho
      · obtain ⟨w, hw, h⟩ := inv.broken other ho v rest hChain hNodup hIn
        exact ⟨w, hw, Or.inl h⟩
      · rw [mem_singleton.mp ho] at hIn
        obtain ⟨w, hw, h⟩ := hBroken v rest hChain hNodup hIn
        exact ⟨w, hw, Or.inr h⟩
    obtain ⟨w, hw, h⟩ := hOne
    exact ⟨w, hw, (hFlags w).trans (Bool.or_eq_true_iff.mpr h)⟩

theorem RunInvariant.all (noLoop : ∀ v, ¬ graph.Edge v v) (sccs : List SCC) {done : List SCC}
    {s : Nat × (Nat → Bool)} (inv : RunInvariant graph done s)
    (components : Components graph (done ++ sccs))
    (hRange : ∀ scc ∈ sccs, ∀ v ∈ scc.Vertices, v < graph.nvertices) :
    ∃ s', sccs.foldlM (JohnsonCE.runComponent graph) s = some s' ∧
      RunInvariant graph (done ++ sccs) s' := by
  induction sccs generalizing done s with
  | nil => exact ⟨s, rfl, by rwa [append_nil]⟩
  | cons scc sccs ih =>
    obtain ⟨s₁, hFirst, inv₁⟩ := inv.runComponent noLoop (components done scc sccs rfl)
      (hRange scc mem_cons_self)
    rw [append_cons] at components ⊢
    obtain ⟨s', hRest, inv'⟩ := ih inv₁ components fun other ho =>
      hRange other (mem_cons_of_mem _ ho)
    refine ⟨s', ?_, inv'⟩
    rw [foldlM_cons, hFirst]
    exact hRest

/-- The edges between vertices that are not removed. -/
def Remaining (graph : Graph) (invalid : Nat → Bool) (u v : Nat) : Prop :=
  graph.Edge u v ∧ invalid u = false ∧ invalid v = false

/-- A closed walk of what remains would contain an elementary cycle through its
smallest vertex, all within one component. -/
theorem acyclic_of_broken {sccs : List SCC} {invalid : Nat → Bool}
    (components : Components graph sccs)
    (hAll : ∀ v, v < graph.nvertices ↔ ∃ scc ∈ sccs, v ∈ scc.Vertices)
    (hBroken : ∀ scc ∈ sccs, Broken graph scc.Vertices invalid) :
    Walk.Acyclic (Remaining graph invalid) := by
  classical
  intro u hWalk
  obtain ⟨next, hFirst, _⟩ := Relation.TransGen.head'_iff.mp hWalk
  obtain ⟨scc, hScc, hu⟩ := (hAll u).mp hFirst.1.lt.1
  let onCycle : Nat → Prop := fun v =>
    v ∈ scc.Vertices ∧ Relation.TransGen (Remaining graph invalid) v v
  have hSome : ∃ v, onCycle v := ⟨u, hu, hWalk⟩
  obtain ⟨hv, hvWalk⟩ := Nat.find_spec hSome
  have hLeast : ∀ w, onCycle w → Nat.find hSome ≤ w := fun w hw => Nat.find_min' hSome hw
  generalize Nat.find hSome = v at hv hvWalk hLeast
  obtain ⟨rest, hChain, hNodup⟩ := Walk.exists_elementary_cycle hvWalk
  have hEdges : List.IsChain graph.Edge (v :: (rest ++ [v])) := hChain.imp fun _ _ h => h.1
  have hIn : ∀ w ∈ v :: rest, w ∈ scc.Vertices ∧ v ≤ w := by
    intro w hw
    have hwWalk := Walk.transGen_of_closed_chain hChain hw
    have hBoth : graph.Reach v w ∧ graph.Reach w v := by
      rcases mem_cons.mp hw with rfl | hw
      · exact ⟨.refl, .refl⟩
      · obtain ⟨before, after, rfl⟩ := append_of_mem hw
        rw [append_assoc, cons_append, isChain_cons_split] at hEdges
        exact ⟨(Walk.transGen_of_chain hEdges.1).to_reflTransGen,
          (Walk.transGen_of_chain hEdges.2).to_reflTransGen⟩
    have hSame : w ∈ scc.Vertices := components.same hScc hv hBoth.1 hBoth.2
    exact ⟨hSame, hLeast w ⟨hSame, hwWalk⟩⟩
  obtain ⟨w, hw, hInvalid⟩ := hBroken scc hScc v rest hEdges hNodup hIn
  obtain ⟨_, hOut, _⟩ :=
    Relation.TransGen.head'_iff.mp (Walk.transGen_of_closed_chain hChain hw)
  exact Bool.false_ne_true (hOut.2.1.symm.trans hInvalid)

/-- `Run` ends; the vertices it does not flag induce an acyclic graph, and the
count is the number of flags. -/
theorem run_spec (noLoop : ∀ v, ¬ graph.Edge v v) :
    ∃ count invalid, Run graph = some (count, invalid) ∧ Walk.Acyclic (Remaining graph invalid) ∧
      count = (List.range graph.nvertices).countP invalid ∧
      ∀ v, invalid v = true → v < graph.nvertices := by
  obtain ⟨t, hTarjan, _, components, hAll⟩ := SCC_spec graph
  have hStart : RunInvariant graph [] (0, fun _ => false) :=
    ⟨by simp, fun _ h => absurd h Bool.false_ne_true, fun _ h => absurd h not_mem_nil⟩
  obtain ⟨⟨count, invalid⟩, hRun, inv⟩ := hStart.all noLoop t.GetSCCs components
    fun scc hm v hv => (hAll v).mpr ⟨scc, hm, hv⟩
  refine ⟨count, invalid, ?_, acyclic_of_broken components hAll inv.broken, inv.size,
    fun v hv => (hAll v).mpr (inv.flagged v hv)⟩
  rw [Run, hTarjan]
  exact hRun

/-- Cycle breaking is sound and terminates, duplicate arcs or not. -/
theorem run_breaks_every_cycle (graph : Graph) (noLoop : ∀ v, ¬ graph.Edge v v) :
    ∃ count invalid, Run graph = some (count, invalid) ∧ Walk.Acyclic (Remaining graph invalid) ∧
      count = (List.range graph.nvertices).countP invalid := by
  obtain ⟨count, invalid, hRun, hAcyclic, hCount, _⟩ := run_spec noLoop
  exact ⟨count, invalid, hRun, hAcyclic, hCount⟩

/-- A path of five vertices with every arc in both directions, one of them twice. -/
def twoWayPath : Graph where
  adj := [[1, 2, 2], [0, 3], [0, 4], [1], [2]]
  inRange := by decide

theorem twoWayPath_noLoop (v : Nat) : ¬ twoWayPath.Edge v v := by
  intro hEdge
  have hRange : v < 5 := hEdge.lt.1
  interval_cases v <;> exact absurd hEdge (by decide)

theorem run_twoWayPath :
    (Run twoWayPath).map (fun result => (result.1, (List.range 5).map result.2)) =
        some (3, [true, true, true, false, false]) ∧
      ∃ count invalid, Run twoWayPath = some (count, invalid) ∧
        Walk.Acyclic (Remaining twoWayPath invalid) ∧
        count = (List.range 5).countP invalid :=
  ⟨by decide +kernel, run_breaks_every_cycle twoWayPath twoWayPath_noLoop⟩

end Run

end JohnsonCE
end Nezha
