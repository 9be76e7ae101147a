import NezhaConcurrency.Graph.TarjanSCC
import NezhaConcurrency.Library.Count

/-! Correctness of Tarjan's search. The vertices on the stack are ordered by their
discovery; earlier ones reach later ones, and each reaches a vertex of the
current recursion path. A finished component is closed except for edges into
earlier components. -/
namespace Nezha

open Function List

/-- The vertices up to mutual reachability. -/
def Graph.mutual (graph : Graph) : Setoid (Fin graph.nvertices) where
  r u v := graph.Reach u v ∧ graph.Reach v u
  iseqv := ⟨fun _ => ⟨.refl, .refl⟩, And.symm, fun h h' => ⟨h.1.trans h'.1, h'.2.trans h.2⟩⟩

namespace TarjanSCC

variable {graph : Graph}

/-- A component, given the components that were finished before it. -/
structure Component (graph : Graph) (earlier : List Nezha.SCC) (scc : Nezha.SCC) : Prop where
  nonempty : scc.Vertices ≠ []
  sorted : scc.Vertices.Pairwise (· < ·)
  member : ∀ v, scc.Member v = true ↔ v ∈ scc.Vertices
  reach : ∀ u ∈ scc.Vertices, ∀ v ∈ scc.Vertices, graph.Reach u v
  closed : ∀ u ∈ scc.Vertices, ∀ v, graph.Edge u v →
    v ∈ scc.Vertices ∨ ∃ other ∈ earlier, v ∈ other.Vertices
  disjoint : ∀ u ∈ scc.Vertices, ∀ other ∈ earlier, u ∉ other.Vertices

def Components (graph : Graph) (sccs : List Nezha.SCC) : Prop :=
  ∀ earlier scc later, sccs = earlier ++ scc :: later → Component graph earlier scc

/-- The vertex is in a finished component. -/
def Finished (t : TarjanSCC) (v : Nat) : Prop := ∃ scc ∈ t.sccList, v ∈ scc.Vertices

theorem Components.append {sccs : List Nezha.SCC} {scc : Nezha.SCC}
    (components : Components graph sccs) (last : Component graph sccs scc) :
    Components graph (sccs ++ [scc]) := by
  exact Walk.forall_split_append components last

theorem Components.closed {sccs : List Nezha.SCC} (components : Components graph sccs)
    {u v : Nat} (hu : ∃ scc ∈ sccs, u ∈ scc.Vertices) (hEdge : graph.Edge u v) :
    ∃ scc ∈ sccs, v ∈ scc.Vertices := by
  obtain ⟨scc, hm, hu⟩ := hu
  obtain ⟨earlier, later, rfl⟩ := append_of_mem hm
  rcases (components earlier scc later rfl).closed u hu v hEdge with hv | ⟨other, ho, hv⟩
  · exact ⟨scc, hm, hv⟩
  · exact ⟨other, mem_append_left _ ho, hv⟩

/-- What holds between two calls of `SCCUtil`, with `path` the vertices whose
calls have not returned. -/
structure Invariant (graph : Graph) (path : List Nat) (t : TarjanSCC) : Prop where
  count : t.nscc = t.sccList.length
  disc_lt : ∀ v, t.disc v ≠ -1 → 0 ≤ t.disc v ∧ t.disc v < t.time ∧ v < graph.nvertices
  time_nonneg : 0 ≤ t.time
  stack_sorted : t.st.Pairwise fun x y => t.disc y < t.disc x
  stackMember_iff : ∀ v, t.stackMember v = true ↔ v ∈ t.st
  path_subset : path ⊆ t.st
  visited_iff : ∀ v, t.disc v ≠ -1 ↔ v ∈ t.st ∨ t.Finished v
  unfinished : ∀ v ∈ t.st, ¬ t.Finished v
  components : Components graph t.sccList
  stack_reach : ∀ x ∈ t.st, ∀ y ∈ t.st, t.disc x ≤ t.disc y → graph.Reach x y
  stack_path : ∀ y ∈ t.st, ∃ p ∈ path, t.disc p ≤ t.disc y ∧ graph.Reach y p
  scanned : ∀ v, t.disc v ≠ -1 → v ∉ path → ∀ w, graph.Edge v w → t.disc w ≠ -1

/-- The number of vertices not yet discovered. -/
def undiscovered (graph : Graph) (t : TarjanSCC) : Nat :=
  (List.range graph.nvertices).countP fun v => t.disc v = -1

/-- The outcome of a call of `SCCUtil` on `u`: the vertices `new` stay on the
stack. Either there are none, or `low` of `u` is the discovery of an earlier
stack vertex that `u` reaches. No edge from them goes below `low`. -/
structure Visited (graph : Graph) (path : List Nat) (t : TarjanSCC) (u : Nat)
    (new : List Nat) (t' : TarjanSCC) : Prop where
  inv : Invariant graph path t'
  stack : t'.st = new ++ t.st
  kept : ∀ v, t.disc v ≠ -1 → t'.disc v = t.disc v ∧ t'.low v = t.low v
  root : t'.disc u ≠ -1
  cross : ∀ x ∈ new, ∀ y, graph.Edge x y → y ∈ t.st → t'.low u ≤ t'.disc y
  low : new = [] ∧ t.time ≤ t'.low u ∨ ∃ y ∈ t.st, t'.disc y = t'.low u ∧ graph.Reach u y

/-- In the middle of the call on `u` that started in `t`, with the neighbours
`seen` done and the vertices `new` above `u` on the stack. -/
structure Scanning (graph : Graph) (path : List Nat) (t : TarjanSCC) (u : Nat)
    (seen new : List Nat) (t' : TarjanSCC) : Prop where
  fresh : t.disc u = -1
  path_subset : path ⊆ t.st
  inv : Invariant graph (u :: path) t'
  stack : t'.st = new ++ u :: t.st
  kept : ∀ v, t.disc v ≠ -1 → t'.disc v = t.disc v ∧ t'.low v = t.low v
  root : t'.disc u = t.time
  cross : ∀ x ∈ new, ∀ y, graph.Edge x y → y ∈ t.st → t'.low u ≤ t'.disc y
  cross_root : ∀ y ∈ seen, y ∈ t.st → t'.low u ≤ t'.disc y
  scanned : ∀ y ∈ seen, t'.disc y ≠ -1
  low : ∃ y ∈ t'.st, t'.disc y = t'.low u ∧ graph.Reach u y
  low_le : t'.low u ≤ t'.disc u

section Steps

variable {path seen new : List Nat} {t t' : TarjanSCC} {u v : Nat}

theorem Invariant.lower (inv : Invariant graph path t) (u : Nat) (bound : Int) :
    Invariant graph path (t.lower u bound) :=
  ⟨inv.count, inv.disc_lt, inv.time_nonneg, inv.stack_sorted, inv.stackMember_iff,
    inv.path_subset, inv.visited_iff, inv.unfinished, inv.components, inv.stack_reach,
    inv.stack_path, inv.scanned⟩

theorem Invariant.visited_of_stack (inv : Invariant graph path t) (h : v ∈ t.st) : t.disc v ≠ -1 :=
  (inv.visited_iff v).mpr (Or.inl h)

theorem Invariant.stack_nodup (inv : Invariant graph path t) : t.st.Nodup := by
  apply inv.stack_sorted.imp
  rintro x y hLess rfl
  exact lt_irrefl _ hLess

theorem undiscovered_mono (h : ∀ v, t.disc v ≠ -1 → t'.disc v ≠ -1) :
    t'.undiscovered graph ≤ t.undiscovered graph := by
  apply countP_mono_left
  intro v _ hv
  by_contra hNot
  exact h v (by simpa using hNot) (by simpa using hv)

theorem undiscovered_enter (hu : u < graph.nvertices) (hNew : t.disc u = -1) (hTime : 0 ≤ t.time) :
    t.undiscovered graph = (t.enter u).undiscovered graph + 1 := by
  apply Count.countP_eq_succ nodup_range (mem_range.mpr hu)
  · simp [hNew]
  · rw [decide_eq_false_iff_not, show (t.enter u).disc u = t.time from update_self ..]
    omega
  · intro v _ hne
    rw [show (t.enter u).disc v = t.disc v from update_of_ne hne ..]

theorem Scanning.above (scanning : Scanning graph path t u seen new t') :
    (∀ x ∈ new, t'.disc u < t'.disc x) ∧ (∀ y ∈ t.st, t'.disc y < t'.disc u) := by
  have hSorted := scanning.inv.stack_sorted
  rw [scanning.stack, pairwise_append, pairwise_cons] at hSorted
  exact ⟨fun x hx => hSorted.2.2 x hx u mem_cons_self, hSorted.2.1.1⟩

theorem Invariant.enter (inv : Invariant graph path t) (hu : u < graph.nvertices)
    (hNew : t.disc u = -1) (hPath : ∀ p ∈ path, graph.Reach p u) :
    Scanning graph path t u [] [] (t.enter u) := by
  have hSelf : (t.enter u).disc u = t.time := update_self ..
  have hLow : (t.enter u).low u = t.time := update_self ..
  have hOther : ∀ v, v ≠ u → (t.enter u).disc v = t.disc v :=
    fun v hne => update_of_ne hne ..
  have hNotStack : u ∉ t.st := fun h => inv.visited_of_stack h hNew
  have hNotFinished : ¬ t.Finished u := fun h => (inv.visited_iff u).mpr (Or.inr h) hNew
  have hStack : ∀ v ∈ t.st, v ≠ u := fun v hv he => hNotStack (he ▸ hv)
  have hOld : ∀ v ∈ t.st, (t.enter u).disc v = t.disc v := fun v hv => hOther v (hStack v hv)
  have hLess : ∀ v ∈ t.st, t.disc v < t.time :=
    fun v hv => (inv.disc_lt v (inv.visited_of_stack hv)).2.1
  have hVisited : ∀ v, (t.enter u).disc v ≠ -1 ↔ v = u ∨ t.disc v ≠ -1 := by
    intro v
    by_cases hne : v = u
    · have hNonneg := inv.time_nonneg
      rw [hne, hSelf]
      exact ⟨fun _ => Or.inl rfl, fun _ => by omega⟩
    · rw [hOther v hne]
      simp [hne]
  -- Everything on the stack reaches the path, and the path reaches `u`.
  have hReach : ∀ x ∈ t.st, graph.Reach x u := by
    intro x hx
    obtain ⟨p, hp, _, hxp⟩ := inv.stack_path x hx
    exact hxp.trans (hPath p hp)
  have inv' : Invariant graph (u :: path) (t.enter u) := by
    refine ⟨inv.count, ?_, ?_, ?_, ?_, ?_, ?_, ?_, inv.components, ?_, ?_, ?_⟩
    · intro v hv
      change 0 ≤ _ ∧ _ < t.time + 1 ∧ _
      by_cases hne : v = u
      · rw [hne, hSelf]
        exact ⟨inv.time_nonneg, by omega, hu⟩
      · rw [hOther v hne] at hv ⊢
        obtain ⟨h0, h1, h2⟩ := inv.disc_lt v hv
        exact ⟨h0, by omega, h2⟩
    · change 0 ≤ t.time + 1
      have hNonneg := inv.time_nonneg
      omega
    · change (u :: t.st).Pairwise _
      refine pairwise_cons.mpr ⟨fun v hv => ?_, ?_⟩
      · rw [hSelf, hOld v hv]
        exact hLess v hv
      · apply inv.stack_sorted.imp_of_mem
        intro x y hx hy h
        rwa [hOld x hx, hOld y hy]
    · intro v
      change update t.stackMember u true v = true ↔ v ∈ u :: t.st
      by_cases hne : v = u
      · simp [hne]
      · rw [update_of_ne hne, inv.stackMember_iff, mem_cons]
        simp [hne]
    · exact cons_subset_cons u inv.path_subset
    · intro v
      rw [hVisited, inv.visited_iff]
      change _ ↔ v ∈ u :: t.st ∨ t.Finished v
      rw [mem_cons, or_assoc]
    · intro v hv
      rcases mem_cons.mp hv with rfl | hv
      · exact hNotFinished
      · exact inv.unfinished v hv
    · intro x hx y hy hLe
      rcases mem_cons.mp hx with hxu | hx'
      · rcases mem_cons.mp hy with hyu | hy'
        · rw [hxu, hyu]
        · rw [hxu, hSelf, hOld y hy'] at hLe
          exact absurd hLe (hLess y hy').not_ge
      · rcases mem_cons.mp hy with hyu | hy'
        · rw [hyu]
          exact hReach x hx'
        · rw [hOld x hx', hOld y hy'] at hLe
          exact inv.stack_reach x hx' y hy' hLe
    · intro y hy
      rcases mem_cons.mp hy with hyu | hy'
      · exact ⟨u, mem_cons_self, by rw [hyu], by rw [hyu]⟩
      · obtain ⟨p, hp, hLe, hyp⟩ := inv.stack_path y hy'
        refine ⟨p, mem_cons_of_mem _ hp, ?_, hyp⟩
        rwa [hOld p (inv.path_subset hp), hOld y hy']
    · intro v hv hNotPath w hEdge
      rw [mem_cons, not_or] at hNotPath
      rw [hOther v hNotPath.1] at hv
      exact (hVisited w).mpr (Or.inr (inv.scanned v hv hNotPath.2 w hEdge))
  refine ⟨hNew, inv.path_subset, inv', rfl, ?_, hSelf, ?_, ?_, ?_, ?_, ?_⟩
  · intro v hv
    have hne : v ≠ u := by
      rintro rfl
      exact hv hNew
    exact ⟨hOther v hne, update_of_ne hne ..⟩
  · exact fun x hx => absurd hx not_mem_nil
  · exact fun y hy => absurd hy not_mem_nil
  · exact fun y hy => absurd hy not_mem_nil
  · exact ⟨u, mem_cons_self, hSelf.trans hLow.symm, .refl⟩
  · exact (hLow.trans hSelf.symm).le

theorem Scanning.seenBefore (scanning : Scanning graph path t u seen new t')
    (hEdge : graph.Edge u v) (hVisited : t'.disc v ≠ -1)
    (recurse : TarjanSCC → Nat → Option TarjanSCC) :
    ∃ t'', visit recurse u t' v = some t'' ∧ Scanning graph path t u (seen ++ [v]) new t'' := by
  have hSeen : ∀ y ∈ seen ++ [v], t'.disc y ≠ -1 := by
    intro y hy
    rcases mem_append.mp hy with hy | hy
    · exact scanning.scanned y hy
    · rw [mem_singleton.mp hy]
      exact hVisited
  by_cases hStack : t'.stackMember v = true
  · refine ⟨t'.lower u (t'.disc v), ?_, ?_⟩
    · unfold visit
      rw [if_neg hVisited, if_pos hStack]
    · have hLow : (t'.lower u (t'.disc v)).low u = min (t'.low u) (t'.disc v) :=
        update_self ..
      refine ⟨scanning.fresh, scanning.path_subset, scanning.inv.lower u _, scanning.stack, ?_,
        scanning.root, ?_, ?_, hSeen, ?_, ?_⟩
      · intro w hw
        have hne : w ≠ u := by
          rintro rfl
          exact hw scanning.fresh
        exact ⟨(scanning.kept w hw).1, (update_of_ne hne ..).trans (scanning.kept w hw).2⟩
      · intro x hx y hxy hy
        rw [hLow]
        exact (min_le_left _ _).trans (scanning.cross x hx y hxy hy)
      · intro y hy hOld
        rw [hLow]
        rcases mem_append.mp hy with hy | hy
        · exact (min_le_left _ _).trans (scanning.cross_root y hy hOld)
        · rw [mem_singleton.mp hy]
          exact min_le_right _ _
      · rw [hLow]
        rcases min_choice (t'.low u) (t'.disc v) with hMin | hMin
        · rw [hMin]
          exact scanning.low
        · rw [hMin]
          exact ⟨v, (scanning.inv.stackMember_iff v).mp hStack, rfl, .single hEdge⟩
      · rw [hLow]
        exact (min_le_left _ _).trans scanning.low_le
  · refine ⟨t', ?_, ?_⟩
    · unfold visit
      rw [if_neg hVisited, if_neg hStack]
    · refine ⟨scanning.fresh, scanning.path_subset, scanning.inv, scanning.stack, scanning.kept,
        scanning.root, scanning.cross, ?_, hSeen, scanning.low, scanning.low_le⟩
      intro y hy hOld
      rcases mem_append.mp hy with hy | hy
      · exact scanning.cross_root y hy hOld
      · rw [mem_singleton.mp hy] at hOld
        refine absurd ((scanning.inv.stackMember_iff v).mpr ?_) hStack
        rw [scanning.stack]
        exact mem_append_right _ (mem_cons_of_mem _ hOld)

theorem Scanning.recurse (scanning : Scanning graph path t u seen new t')
    (hEdge : graph.Edge u v) (hNew : t'.disc v = -1) {recursed : TarjanSCC} {added : List Nat}
    (visited : Visited graph (u :: path) t' v added recursed) :
    Scanning graph path t u (seen ++ [v]) (added ++ new) (recursed.lower u (recursed.low v)) := by
  have hLow : (recursed.lower u (recursed.low v)).low u = min (recursed.low u) (recursed.low v) :=
    update_self ..
  have hRoot : t'.disc u ≠ -1 := by
    apply scanning.inv.visited_of_stack
    rw [scanning.stack]
    exact mem_append_right _ mem_cons_self
  have hKept : ∀ w, t.disc w ≠ -1 → t'.disc w ≠ -1 := by
    intro w hw
    rwa [(scanning.kept w hw).1]
  have hStack : ∀ y ∈ t.st, y ∈ t'.st := by
    intro y hy
    rw [scanning.stack]
    exact mem_append_right _ (mem_cons_of_mem _ hy)
  have hDisc : ∀ y ∈ t'.st, recursed.disc y = t'.disc y :=
    fun y hy => (visited.kept y (scanning.inv.visited_of_stack hy)).1
  have hStill : ∀ y ∈ t'.st, y ∈ recursed.st := by
    intro y hy
    rw [visited.stack]
    exact mem_append_right _ hy
  obtain ⟨hRootDisc, hRootLow⟩ := visited.kept u hRoot
  refine ⟨scanning.fresh, scanning.path_subset, visited.inv.lower u _, ?_, ?_, ?_, ?_, ?_, ?_, ?_, ?_⟩
  · change recursed.st = _
    rw [visited.stack, scanning.stack, append_assoc]
  · intro w hw
    have hne : w ≠ u := by
      rintro rfl
      exact hw scanning.fresh
    obtain ⟨hd, hl⟩ := scanning.kept w hw
    obtain ⟨hd', hl'⟩ := visited.kept w (hKept w hw)
    exact ⟨hd'.trans hd, (update_of_ne hne ..).trans (hl'.trans hl)⟩
  · exact hRootDisc.trans scanning.root
  · intro x hx y hxy hy
    rw [hLow]
    rcases mem_append.mp hx with hx | hx
    · exact (min_le_right _ _).trans (visited.cross x hx y hxy (hStack y hy))
    · apply (min_le_left _ _).trans
      rw [hRootLow, show (recursed.lower u (recursed.low v)).disc y = t'.disc y from
        hDisc y (hStack y hy)]
      exact scanning.cross x hx y hxy hy
  · intro y hy hOld
    rw [hLow]
    rcases mem_append.mp hy with hy | hy
    · apply (min_le_left _ _).trans
      rw [hRootLow, show (recursed.lower u (recursed.low v)).disc y = t'.disc y from
        hDisc y (hStack y hOld)]
      exact scanning.cross_root y hy hOld
    · rw [mem_singleton.mp hy] at hOld
      exact absurd hNew (scanning.inv.visited_of_stack (hStack v hOld))
  · intro y hy
    rcases mem_append.mp hy with hy | hy
    · have hSeen := scanning.scanned y hy
      change recursed.disc y ≠ -1
      rwa [(visited.kept y hSeen).1]
    · rw [mem_singleton.mp hy]
      exact visited.root
  · rw [hLow]
    rcases min_choice (recursed.low u) (recursed.low v) with hMin | hMin
    · obtain ⟨y, hy, hyLow, hReach⟩ := scanning.low
      refine ⟨y, hStill y hy, ?_, hReach⟩
      rw [hMin, hRootLow]
      exact (hDisc y hy).trans hyLow
    · rcases visited.low with ⟨_, hTime⟩ | ⟨y, hy, hyLow, hReach⟩
      · have hBefore := (scanning.inv.disc_lt u hRoot).2.1
        have hLe := scanning.low_le
        have hMinLe := min_le_left (recursed.low u) (recursed.low v)
        omega
      · exact ⟨y, hStill y hy, hyLow.trans hMin.symm, hReach.head hEdge⟩
  · rw [hLow]
    apply (min_le_left _ _).trans
    rw [hRootLow]
    exact scanning.low_le.trans hRootDisc.ge

theorem popUntil_append {above below : List Nat} (h : u ∉ above) :
    popUntil u (above ++ u :: below) = some (above ++ [u], below) := by
  induction above with
  | nil => simp [popUntil]
  | cons w rest ih =>
    rw [mem_cons, not_or] at h
    rw [cons_append, popUntil, if_neg (Ne.symm h.1), ih h.2]
    rfl

/-- The call on `u` returns without a component: `u` reaches an earlier vertex of
the stack, and through it the rest of the path. -/
theorem Scanning.stay (scanning : Scanning graph path t u (graph.succ u) new t')
    (hLow : t'.low u ≠ t'.disc u) : Visited graph path t u (new ++ [u]) t' := by
  obtain ⟨hAbove, hBelow⟩ := scanning.above
  have inv := scanning.inv
  have hStack : t'.st = (new ++ [u]) ++ t.st := by
    rw [scanning.stack, append_assoc, singleton_append]
  have hMem : ∀ y ∈ t'.st, t'.disc y < t'.disc u → y ∈ t.st := by
    intro y hy hLess
    rw [hStack] at hy
    rcases mem_append.mp hy with hy | hy
    · rcases mem_append.mp hy with hy | hy
      · exact absurd (hAbove y hy) hLess.not_gt
      · rw [mem_singleton.mp hy] at hLess
        exact absurd hLess (lt_irrefl _)
    · exact hy
  obtain ⟨y, hy, hyLow, hReach⟩ := scanning.low
  have hLess : t'.disc y < t'.disc u := by
    rw [hyLow]
    exact lt_of_le_of_ne scanning.low_le hLow
  refine ⟨?_, hStack, scanning.kept, ?_, ?_, Or.inr ⟨y, hMem y hy hLess, hyLow, hReach⟩⟩
  · refine ⟨inv.count, inv.disc_lt, inv.time_nonneg, inv.stack_sorted, inv.stackMember_iff,
      fun p hp => inv.path_subset (mem_cons_of_mem _ hp), inv.visited_iff, inv.unfinished,
      inv.components, inv.stack_reach, ?_, ?_⟩
    · -- A vertex that reaches only `u` on the path goes on from `u` to `y`.
      intro x hx
      obtain ⟨p, hp, hLe, hxp⟩ := inv.stack_path x hx
      rcases mem_cons.mp hp with rfl | hp
      · obtain ⟨p', hp', hLe', hyp⟩ := inv.stack_path y hy
        rcases mem_cons.mp hp' with rfl | hp'
        · exact absurd hLe' hLess.not_ge
        · exact ⟨p', hp', hLe'.trans (hLess.le.trans hLe), hxp.trans (hReach.trans hyp)⟩
      · exact ⟨p, hp, hLe, hxp⟩
    · intro w hw hNotPath x hEdge
      by_cases hwu : w = u
      · exact scanning.scanned x (hwu ▸ hEdge)
      · exact inv.scanned w hw (by simp [hwu, hNotPath]) x hEdge
  · apply inv.visited_of_stack
    rw [hStack]
    exact mem_append_left _ (mem_append_right _ mem_cons_self)
  · intro x hx z hxz hz
    rcases mem_append.mp hx with hx | hx
    · exact scanning.cross x hx z hxz hz
    · rw [mem_singleton.mp hx] at hxz
      exact scanning.cross_root z hxz hz

theorem finished_addSCC (t : TarjanSCC) (vertices rest : List Nat) (v : Nat) :
    (t.addSCC vertices rest).Finished v ↔ v ∈ vertices ∨ t.Finished v := by
  unfold Finished addSCC
  simp [or_comm, or_and_right, exists_or]

/-- With `low` at its own discovery, nothing at or above `u` leads below it. -/
theorem Scanning.region_closed (scanning : Scanning graph path t u (graph.succ u) new t')
    (hLow : t'.low u = t'.disc u) {x y : Nat} (hx : x ∈ new ++ [u] ∨ t'.Finished x)
    (hEdge : graph.Edge x y) : y ∈ new ++ [u] ∨ t'.Finished y := by
  obtain ⟨hAbove, hBelow⟩ := scanning.above
  have inv := scanning.inv
  rcases hx with hx | hx
  swap
  · exact Or.inr (inv.components.closed hx hEdge)
  have hVisited : t'.disc y ≠ -1 := by
    rcases mem_append.mp hx with hx | hx
    · refine inv.scanned x (inv.visited_of_stack ?_) ?_ y hEdge
      · rw [scanning.stack]
        exact mem_append_left _ hx
      · rw [mem_cons, not_or]
        refine ⟨fun he => ?_, fun hp => ?_⟩
        · exact lt_irrefl _ (he ▸ hAbove x hx)
        · exact (hAbove x hx).not_gt (hBelow x (scanning.path_subset hp))
    · rw [mem_singleton.mp hx] at hEdge
      exact scanning.scanned y hEdge
  rcases (inv.visited_iff y).mp hVisited with hy | hy
  swap
  · exact Or.inr hy
  rw [scanning.stack, append_cons] at hy
  rcases mem_append.mp hy with hy | hy
  · exact Or.inl hy
  · have hCross : t'.low u ≤ t'.disc y := by
      rcases mem_append.mp hx with hx | hx
      · exact scanning.cross x hx y hEdge hy
      · rw [mem_singleton.mp hx] at hEdge
        exact scanning.cross_root y hEdge hy
    exact absurd (hBelow y hy) (hLow ▸ hCross).not_gt

/-- The vertices at and above `u` are a component. -/
theorem Scanning.component (scanning : Scanning graph path t u (graph.succ u) new t')
    (hLow : t'.low u = t'.disc u) :
    Component graph t'.sccList
      ⟨(new ++ [u]).insertionSort (· ≤ ·), fun w => decide (w ∈ new ++ [u])⟩ := by
  obtain ⟨hAbove, hBelow⟩ := scanning.above
  have inv := scanning.inv
  have hPerm := perm_insertionSort (· ≤ ·) (new ++ [u])
  have hNodup : (new ++ [u] ++ t.st).Nodup := by
    rw [← append_cons, ← scanning.stack]
    exact inv.stack_nodup
  have hStack : ∀ x ∈ new ++ [u], x ∈ t'.st := by
    intro x hx
    rw [scanning.stack, append_cons]
    exact mem_append_left _ hx
  have hRoot : u ∈ new ++ [u] := mem_append_right _ mem_cons_self
  have hFrom : ∀ x ∈ new ++ [u], graph.Reach u x := by
    intro x hx
    apply inv.stack_reach u (hStack u hRoot) x (hStack x hx)
    rcases mem_append.mp hx with hx | hx
    · exact (hAbove x hx).le
    · rw [mem_singleton.mp hx]
  have hTo : ∀ x ∈ new ++ [u], graph.Reach x u := by
    intro x hx
    obtain ⟨p, hp, _, hxp⟩ := inv.stack_path x (hStack x hx)
    rcases mem_cons.mp hp with rfl | hp
    · exact hxp
    · -- The component cannot be left towards the rest of the path.
      have hpStack := scanning.path_subset hp
      rcases Walk.reach_closed (fun y => y ∈ new ++ [u] ∨ t'.Finished y)
        (fun _ _ h hEdge => scanning.region_closed hLow h hEdge) hxp (Or.inl hx) with h | h
      · exact absurd rfl ((nodup_append.mp hNodup).2.2 p h p hpStack)
      · refine absurd h (inv.unfinished p ?_)
        rw [scanning.stack]
        exact mem_append_right _ (mem_cons_of_mem _ hpStack)
  refine ⟨?_, ?_, ?_, ?_, ?_, ?_⟩
  · intro h
    exact ne_nil_of_mem (hPerm.mem_iff.mpr hRoot) h
  · have hSorted := pairwise_insertionSort (· ≤ ·) (new ++ [u])
    have hDistinct : ((new ++ [u]).insertionSort (· ≤ ·)).Nodup :=
      hPerm.nodup_iff.mpr (nodup_append.mp hNodup).1
    exact (hSorted.and hDistinct).imp fun h => lt_of_le_of_ne h.1 h.2
  · intro v
    rw [decide_eq_true_eq, hPerm.mem_iff]
  · intro x hx y hy
    exact (hTo x (hPerm.mem_iff.mp hx)).trans (hFrom y (hPerm.mem_iff.mp hy))
  · intro x hx y hEdge
    rw [hPerm.mem_iff]
    exact scanning.region_closed hLow (Or.inl (hPerm.mem_iff.mp hx)) hEdge
  · intro x hx other hOther hm
    exact inv.unfinished x (hStack x (hPerm.mem_iff.mp hx)) ⟨other, hOther, hm⟩

theorem Scanning.pop (scanning : Scanning graph path t u (graph.succ u) new t')
    (hLow : t'.low u = t'.disc u) :
    Visited graph path t u [] (t'.addSCC (new ++ [u]) t.st) := by
  obtain ⟨hAbove, hBelow⟩ := scanning.above
  have inv := scanning.inv
  have hStack : t'.st = (new ++ [u]) ++ t.st := by
    rw [scanning.stack, append_cons]
  have hNodup : (new ++ [u] ++ t.st).Nodup := by
    rw [← hStack]
    exact inv.stack_nodup
  have hKept : ∀ v ∈ t.st, v ∈ t'.st := by
    intro v hv
    rw [hStack]
    exact mem_append_right _ hv
  have hApart : ∀ v ∈ t.st, v ∉ new ++ [u] :=
    fun v hv hPopped => (nodup_append.mp hNodup).2.2 v hPopped v hv rfl
  have hRootVisited : t'.disc u ≠ -1 := by
    apply inv.visited_of_stack
    rw [scanning.stack]
    exact mem_append_right _ mem_cons_self
  refine ⟨?_, rfl, scanning.kept, hRootVisited, ?_, Or.inl ⟨rfl, ?_⟩⟩
  · refine ⟨?_, inv.disc_lt, inv.time_nonneg, ?_, ?_, scanning.path_subset, ?_, ?_,
      inv.components.append (scanning.component hLow), ?_, ?_, ?_⟩
    · change t'.nscc + 1 = (t'.sccList ++ _).length
      rw [length_append, inv.count]
      rfl
    · have hSorted := inv.stack_sorted
      rw [hStack] at hSorted
      exact (pairwise_append.mp hSorted).2.1
    · intro v
      change (if v ∈ new ++ [u] then false else t'.stackMember v) = true ↔ v ∈ t.st
      by_cases hv : v ∈ new ++ [u]
      · rw [if_pos hv]
        exact ⟨fun h => absurd h Bool.false_ne_true, fun h => absurd hv (hApart v h)⟩
      · rw [if_neg hv, inv.stackMember_iff, hStack, mem_append]
        simp [hv]
    · intro v
      rw [finished_addSCC]
      change t'.disc v ≠ -1 ↔ v ∈ t.st ∨ _
      rw [inv.visited_iff, hStack, mem_append]
      tauto
    · intro v hv
      rw [finished_addSCC]
      rintro (h | h)
      · exact hApart v hv h
      · exact inv.unfinished v (hKept v hv) h
    · exact fun x hx y hy => inv.stack_reach x (hKept x hx) y (hKept y hy)
    · intro y hy
      obtain ⟨p, hp, hLe, hyp⟩ := inv.stack_path y (hKept y hy)
      rcases mem_cons.mp hp with rfl | hp
      · exact absurd (hBelow y hy) hLe.not_gt
      · exact ⟨p, hp, hLe, hyp⟩
    · intro w hw hNotPath x hEdge
      by_cases hwu : w = u
      · exact scanning.scanned x (hwu ▸ hEdge)
      · exact inv.scanned w hw (by simp [hwu, hNotPath]) x hEdge
  · exact fun x hx => absurd hx not_mem_nil
  · change t.time ≤ t'.low u
    rw [hLow, scanning.root]

end Steps

/-- What a call with this much depth does. -/
def SCCUtilSpec (graph : Graph) (depth : Nat) : Prop :=
  ∀ path t u, Invariant graph path t → u < graph.nvertices → t.disc u = -1 →
    (∀ p ∈ path, graph.Reach p u) → t.undiscovered graph ≤ depth →
    ∃ t' new, SCCUtil graph depth t u = some t' ∧ Visited graph path t u new t'

theorem Scanning.scan {depth : Nat} (spec : SCCUtilSpec graph depth) {path : List Nat}
    {t : TarjanSCC} {u : Nat} (hPath : ∀ p ∈ path, graph.Reach p u) (rest : List Nat) :
    ∀ (seen new : List Nat) (t' : TarjanSCC), graph.succ u = seen ++ rest →
      Scanning graph path t u seen new t' → t'.undiscovered graph ≤ depth →
      ∃ t'' new', rest.foldlM (visit (SCCUtil graph depth) u) t' = some t'' ∧
        Scanning graph path t u (graph.succ u) new' t'' := by
  induction rest with
  | nil =>
    intro seen new t' hSucc scanning _
    rw [append_nil] at hSucc
    exact ⟨t', new, rfl, hSucc ▸ scanning⟩
  | cons v rest ih =>
    intro seen new t' hSucc scanning hDepth
    have hEdge : graph.Edge u v := by
      unfold Graph.Edge
      rw [hSucc]
      exact mem_append_right _ mem_cons_self
    rw [append_cons] at hSucc
    rw [foldlM_cons]
    by_cases hNew : t'.disc v = -1
    · have hReach : ∀ p ∈ u :: path, graph.Reach p v := by
        intro p hp
        rcases mem_cons.mp hp with rfl | hp
        · exact .single hEdge
        · exact (hPath p hp).tail hEdge
      obtain ⟨recursed, added, hRun, visited⟩ :=
        spec (u :: path) t' v scanning.inv hEdge.lt.2 hNew hReach hDepth
      have hVisit : visit (SCCUtil graph depth) u t' v =
          some (recursed.lower u (recursed.low v)) := by
        unfold visit
        rw [if_pos hNew, hRun]
        rfl
      rw [hVisit]
      refine ih (seen ++ [v]) (added ++ new) _ hSucc (scanning.recurse hEdge hNew visited) ?_
      apply le_trans (undiscovered_mono ?_) hDepth
      intro w hw
      change recursed.disc w ≠ -1
      rwa [(visited.kept w hw).1]
    · obtain ⟨t'', hVisit, scanning'⟩ :=
        scanning.seenBefore hEdge hNew (SCCUtil graph depth)
      rw [hVisit]
      refine ih (seen ++ [v]) new t'' hSucc scanning' (le_trans (undiscovered_mono ?_) hDepth)
      intro w hw
      unfold visit at hVisit
      rw [if_neg hNew] at hVisit
      split at hVisit
      · cases hVisit
        exact hw
      · cases hVisit
        exact hw

theorem sccUtil_spec (graph : Graph) (depth : Nat) : SCCUtilSpec graph depth := by
  induction depth with
  | zero =>
    intro path t u inv hu hNew _ hDepth
    have hEnter := undiscovered_enter hu hNew inv.time_nonneg
    omega
  | succ depth ih =>
    intro path t u inv hu hNew hPath hDepth
    have hEnter := undiscovered_enter hu hNew inv.time_nonneg
    obtain ⟨t', new, hScan, scanning⟩ := Scanning.scan ih hPath (graph.succ u) [] []
      (t.enter u) rfl (inv.enter hu hNew hPath) (by omega)
    have hRun : SCCUtil graph (depth + 1) t u = t'.leave u := by
      rw [SCCUtil, hScan]
      rfl
    rw [hRun]
    unfold leave
    by_cases hLow : t'.low u = t'.disc u
    · have hNotAbove : u ∉ new :=
        fun h => lt_irrefl _ (scanning.above.1 u h)
      rw [if_pos hLow, scanning.stack, popUntil_append hNotAbove]
      exact ⟨_, [], rfl, scanning.pop hLow⟩
    · rw [if_neg hLow]
      exact ⟨t', _, rfl, scanning.stay hLow⟩

theorem invariant_start (graph : Graph) : Invariant graph [] start where
  count := rfl
  disc_lt := fun _ h => absurd rfl h
  time_nonneg := le_refl 0
  stack_sorted := List.Pairwise.nil
  stackMember_iff := fun _ => ⟨fun h => absurd h Bool.false_ne_true, fun h => absurd h not_mem_nil⟩
  path_subset := nil_subset _
  visited_iff := fun _ => ⟨fun h => absurd rfl h, fun h => by
    rcases h with h | ⟨_, h, _⟩
    · cases h
    · cases h⟩
  unfinished := fun _ h => absurd h not_mem_nil
  components := fun earlier scc later h => by simp [start] at h
  stack_reach := fun _ h => absurd h not_mem_nil
  stack_path := fun _ h => absurd h not_mem_nil
  scanned := fun _ h => absurd rfl h

theorem driver_spec (vertices : List Nat) (hRange : ∀ v ∈ vertices, v < graph.nvertices)
    (t : TarjanSCC) (inv : Invariant graph [] t) :
    ∃ t', vertices.foldlM (fun t i => if t.disc i = -1 then
        SCCUtil graph graph.nvertices t i else some t) t = some t' ∧
      Invariant graph [] t' ∧ (∀ v, t.disc v ≠ -1 → t'.disc v ≠ -1) ∧
      ∀ v ∈ vertices, t'.disc v ≠ -1 := by
  induction vertices generalizing t with
  | nil => exact ⟨t, rfl, inv, fun _ h => h, fun _ h => absurd h not_mem_nil⟩
  | cons i rest ih =>
    have hRest : ∀ v ∈ rest, v < graph.nvertices :=
      fun v hv => hRange v (mem_cons_of_mem _ hv)
    rw [foldlM_cons]
    by_cases hNew : t.disc i = -1
    · have hDepth : t.undiscovered graph ≤ graph.nvertices := by
        have hLe := countP_le_length
          (p := fun v => decide (t.disc v = -1)) (l := List.range graph.nvertices)
        rwa [length_range] at hLe
      obtain ⟨t₁, new, hRun, visited⟩ := sccUtil_spec graph graph.nvertices [] t i inv
        (hRange i mem_cons_self) hNew (fun _ h => absurd h not_mem_nil) hDepth
      obtain ⟨t', hFold, inv', hMono, hAll⟩ := ih hRest t₁ visited.inv
      rw [if_pos hNew, hRun]
      refine ⟨t', hFold, inv', ?_, ?_⟩
      · intro v hv
        apply hMono
        rwa [(visited.kept v hv).1]
      · intro v hv
        rcases mem_cons.mp hv with rfl | hv
        · exact hMono v visited.root
        · exact hAll v hv
    · obtain ⟨t', hFold, inv', hMono, hAll⟩ := ih hRest t inv
      rw [if_neg hNew]
      refine ⟨t', hFold, inv', hMono, ?_⟩
      intro v hv
      rcases mem_cons.mp hv with rfl | hv
      · exact hMono v hNew
      · exact hAll v hv

/-- The search ends, and it ends with components that cover all vertices. -/
theorem SCC_spec (graph : Graph) :
    ∃ t, SCC graph = some t ∧ t.nscc = t.GetSCCs.length ∧ Components graph t.GetSCCs ∧
      ∀ v, v < graph.nvertices ↔ ∃ scc ∈ t.GetSCCs, v ∈ scc.Vertices := by
  obtain ⟨t, hRun, inv, _, hAll⟩ := driver_spec (List.range graph.nvertices)
    (fun v hv => mem_range.mp hv) start (invariant_start graph)
  refine ⟨t, hRun, inv.count, inv.components, fun v => ?_⟩
  have hEmpty : v ∉ t.st := by
    intro hv
    obtain ⟨_, h, _⟩ := inv.stack_path v hv
    cases h
  constructor
  · intro hv
    exact ((inv.visited_iff v).mp (hAll v (mem_range.mpr hv))).resolve_left hEmpty
  · intro hv
    exact (inv.disc_lt v ((inv.visited_iff v).mpr (Or.inr hv))).2.2

variable {sccs : List Nezha.SCC}

theorem Components.same (components : Components graph sccs) {scc : Nezha.SCC} (hScc : scc ∈ sccs)
    {u v : Nat} (hu : u ∈ scc.Vertices) (huv : graph.Reach u v) (hvu : graph.Reach v u) :
    v ∈ scc.Vertices := by
  obtain ⟨earlier, later, rfl⟩ := append_of_mem hScc
  have component := components earlier scc later rfl
  have hEarlier : Components graph earlier := by
    intro first mid last hSplit
    exact components first mid (last ++ scc :: later) (by simp [hSplit])
  have hClosed : v ∈ scc.Vertices ∨ ∃ other ∈ earlier, v ∈ other.Vertices := by
    refine Walk.reach_closed (fun x => x ∈ scc.Vertices ∨
      ∃ other ∈ earlier, x ∈ other.Vertices) ?_ huv (Or.inl hu)
    rintro x y (hx | hx) hEdge
    · exact component.closed x hx y hEdge
    · exact Or.inr (hEarlier.closed hx hEdge)
  rcases hClosed with h | h
  · exact h
  · obtain ⟨first, hm, hFirst⟩ := Walk.reach_closed (fun x => ∃ other ∈ earlier, x ∈ other.Vertices)
      (fun _ _ hx hEdge => hEarlier.closed hx hEdge) hvu h
    exact absurd hFirst (component.disjoint u hu first hm)

/-- A component is the class of each of its vertices. -/
theorem Components.mem_iff (components : Components graph sccs) {scc : Nezha.SCC}
    (hScc : scc ∈ sccs) {u v : Nat} (hu : u ∈ scc.Vertices) :
    v ∈ scc.Vertices ↔ graph.Reach u v ∧ graph.Reach v u := by
  constructor
  · intro hv
    obtain ⟨earlier, later, rfl⟩ := append_of_mem hScc
    have component := components earlier scc later rfl
    exact ⟨component.reach u hu v hv, component.reach v hv u hu⟩
  · exact fun h => components.same hScc hu h.1 h.2

theorem Components.disjoint (components : Components graph sccs) :
    sccs.Pairwise fun scc other => scc.Vertices.Disjoint other.Vertices := by
  induction sccs using List.reverseRecOn with
  | nil => exact List.Pairwise.nil
  | append_singleton earlier last ih =>
    have hLast := components earlier last [] rfl
    refine pairwise_append.mpr ⟨ih ?_, pairwise_singleton .., ?_⟩
    · intro first scc later hSplit
      exact components first scc (later ++ [last]) (by simp [hSplit])
    · intro scc hScc other hOther v hv hvLast
      rw [mem_singleton.mp hOther] at hvLast
      exact hLast.disjoint v hvLast scc hScc hv

/-- There are as many components as classes: the component of a vertex is the kernel of a
surjection onto the positions of the list. -/
theorem Components.card (components : Components graph sccs)
    (hCover : ∀ v, v < graph.nvertices ↔ ∃ scc ∈ sccs, v ∈ scc.Vertices) :
    Nat.card (Quotient graph.mutual) = sccs.length := by
  have hPlace : ∀ v : Fin graph.nvertices, ∃ i : Fin sccs.length, v.1 ∈ (sccs.get i).Vertices := by
    intro v
    obtain ⟨scc, hScc, hv⟩ := (hCover v).mp v.2
    obtain ⟨i, rfl⟩ := get_of_mem hScc
    exact ⟨i, hv⟩
  choose place hMem using hPlace
  have hPlaced : ∀ (i : Fin sccs.length) (v : Fin graph.nvertices),
      v.1 ∈ (sccs.get i).Vertices → place v = i := by
    intro i v hv
    by_contra hne
    rcases lt_or_gt_of_ne hne with hLess | hLess
    · exact pairwise_iff_get.mp components.disjoint _ _ hLess (hMem v) hv
    · exact pairwise_iff_get.mp components.disjoint _ _ hLess hv (hMem v)
  have hKer : graph.mutual = Setoid.ker place := by
    refine Setoid.ext fun u v => ?_
    rw [Setoid.ker_def]
    change graph.Reach u v ∧ graph.Reach v u ↔ _
    rw [← components.mem_iff (get_mem sccs (place u)) (hMem u)]
    constructor
    · exact fun hv => (hPlaced _ v hv).symm
    · exact fun hSame => hSame ▸ hMem v
  have hSurjective : Function.Surjective place := by
    intro i
    obtain ⟨earlier, later, hSplit⟩ := append_of_mem (get_mem sccs i)
    have hNonempty := (components earlier (sccs.get i) later hSplit).nonempty
    obtain ⟨v, hv⟩ := exists_mem_of_ne_nil _ hNonempty
    have hLess : v < graph.nvertices := (hCover v).mpr ⟨_, get_mem sccs i, hv⟩
    exact ⟨⟨v, hLess⟩, hPlaced i ⟨v, hLess⟩ hv⟩
  rw [hKer, Nat.card_congr (Setoid.quotientKerEquivOfSurjective place hSurjective), Nat.card_fin]

/-- The search ends on every graph, and its components are the classes of mutual reachability:
each vertex is in one of them, no vertex in two, and there are as many as classes. -/
theorem SCC_classes (graph : Graph) : ∃ t, SCC graph = some t ∧
      (∀ v, v < graph.nvertices ↔ ∃ scc ∈ t.GetSCCs, v ∈ scc.Vertices) ∧
      (t.GetSCCs.Pairwise fun scc other => scc.Vertices.Disjoint other.Vertices) ∧
      (∀ scc ∈ t.GetSCCs, scc.Vertices ≠ [] ∧ scc.Vertices.Pairwise (· < ·) ∧
        (∀ v, scc.Member v = true ↔ v ∈ scc.Vertices) ∧
        ∀ u ∈ scc.Vertices, ∀ v, v ∈ scc.Vertices ↔ graph.Reach u v ∧ graph.Reach v u) ∧
      t.nscc = Nat.card (Quotient graph.mutual) := by
  obtain ⟨t, hRun, hCount, components, hCover⟩ := SCC_spec graph
  refine ⟨t, hRun, hCover, components.disjoint, ?_, hCount.trans (components.card hCover).symm⟩
  intro scc hScc
  obtain ⟨earlier, later, hSplit⟩ := append_of_mem hScc
  have component := components earlier scc later hSplit
  exact ⟨component.nonempty, component.sorted, component.member,
    fun _ hu _ => components.mem_iff hScc hu⟩

end TarjanSCC
end Nezha
