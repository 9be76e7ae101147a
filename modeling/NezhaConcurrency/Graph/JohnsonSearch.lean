import NezhaConcurrency.Graph.JohnsonCE
import NezhaConcurrency.Library.Count

/-! Johnson's search lists every elementary cycle through its start vertex. A
blocked vertex that is not on the stack has only blocked neighbours and waits for
each of them, so no walk from it returns to the start without meeting the stack.
`Unblock` never reaches the stack below the vertex it starts from: what waits
there was sealed off before that vertex was entered. -/
namespace Nezha

open Function List

namespace Blocking

/-- The number of blocked vertices. -/
def count (graph : Graph) (b : Blocking) : Nat :=
  (List.range graph.nvertices).countP b.blocked

def Frees (b b' : Blocking) (v : Nat) : Prop := b.blocked v = true ∧ b'.blocked v = false

/-- On the way from `b` to `b'` vertices are unblocked. Their lists are emptied,
whoever waited for them is unblocked, and each was reached from a root. -/
structure Unblocked (roots : Nat → Prop) (b b' : Blocking) : Prop where
  mono : ∀ v, b'.blocked v = true → b.blocked v = true
  emptied : ∀ v, b.Frees b' v → b'.blockedMap v = []
  kept : ∀ v, ¬ b.Frees b' v → b'.blockedMap v = b.blockedMap v
  closed : ∀ v, b.Frees b' v → ∀ w ∈ b.blockedMap v, b'.blocked w = false
  reached : ∀ Reached : Nat → Prop, (∀ v, roots v → Reached v) →
    (∀ v w, Reached v → w ∈ b.blockedMap v → Reached w) → ∀ v, b.Frees b' v → Reached v

variable {graph : Graph} {roots : Nat → Prop} {b b' b'' : Blocking}

theorem not_frees_self (b : Blocking) (v : Nat) : ¬ b.Frees b v := by
  rintro ⟨h, h'⟩
  rw [h] at h'
  cases h'

theorem Unblocked.refl (roots : Nat → Prop) (b : Blocking) : Unblocked roots b b where
  mono := fun _ h => h
  emptied := fun v h => absurd h (b.not_frees_self v)
  kept := fun _ _ => rfl
  closed := fun v h => absurd h (b.not_frees_self v)
  reached := fun _ _ _ v h => absurd h (b.not_frees_self v)

theorem Unblocked.blockedMap_subset (unblocked : Unblocked roots b b') (v : Nat) :
    b'.blockedMap v ⊆ b.blockedMap v := by
  by_cases h : b.Frees b' v
  · rw [unblocked.emptied v h]
    exact nil_subset _
  · rw [unblocked.kept v h]
    exact List.Subset.refl _

theorem Unblocked.stays (unblocked : Unblocked roots b b') {v : Nat}
    (h : b.blocked v = false) : b'.blocked v = false := by
  by_contra hNot
  rw [unblocked.mono v (Bool.of_not_eq_false hNot)] at h
  cases h

theorem Unblocked.trans (first : Unblocked roots b b') (second : Unblocked roots b' b'') :
    Unblocked roots b b'' := by
  -- A vertex is freed in one of the two parts.
  have hCases : ∀ v, b.Frees b'' v → b.Frees b' v ∨ ¬ b.Frees b' v ∧ b'.Frees b'' v := by
    rintro v ⟨h, h''⟩
    cases h' : b'.blocked v with
    | false => exact Or.inl ⟨h, h'⟩
    | true =>
      refine Or.inr ⟨fun hFree => ?_, h', h''⟩
      rw [hFree.2] at h'
      cases h'
  refine ⟨fun v h => first.mono v (second.mono v h), ?_, ?_, ?_, ?_⟩
  · intro v h
    rcases hCases v h with hFirst | ⟨_, hSecond⟩
    · have hSubset := second.blockedMap_subset v
      rw [first.emptied v hFirst] at hSubset
      exact subset_nil.mp hSubset
    · exact second.emptied v hSecond
  · intro v h
    have hFirst : ¬ b.Frees b' v := fun hFree => h ⟨hFree.1, second.stays hFree.2⟩
    have hSecond : ¬ b'.Frees b'' v := fun hFree => h ⟨first.mono v hFree.1, hFree.2⟩
    rw [second.kept v hSecond, first.kept v hFirst]
  · intro v h w hw
    rcases hCases v h with hFirst | ⟨hNot, hSecond⟩
    · exact second.stays (first.closed v hFirst w hw)
    · exact second.closed v hSecond w (by rwa [first.kept v hNot])
  · intro Reached hRoots hStep v h
    rcases hCases v h with hFirst | ⟨_, hSecond⟩
    · exact first.reached Reached hRoots hStep v hFirst
    · refine second.reached Reached hRoots ?_ v hSecond
      exact fun x w hx hw => hStep x w hx (first.blockedMap_subset x hw)

theorem Unblocked.weaken {roots' : Nat → Prop} (unblocked : Unblocked roots b b')
    (h : ∀ v, roots v → roots' v) : Unblocked roots' b b' :=
  ⟨unblocked.mono, unblocked.emptied, unblocked.kept, unblocked.closed,
    fun Reached hRoots hStep => unblocked.reached Reached (fun v hv => hRoots v (h v hv)) hStep⟩

theorem Unblocked.count_le (unblocked : Unblocked roots b b') : b'.count graph ≤ b.count graph :=
  countP_mono_left fun v _ h => unblocked.mono v h

theorem unblock_loop {depth : Nat} (ih : ∀ (v : Nat) (b : Blocking), b.blocked v = true →
      (∀ w, b.blocked w = true → w < graph.nvertices) → b.count graph ≤ depth →
      ∃ b', Unblock depth v b = some b' ∧ Unblocked (· = v) b b' ∧ b'.blocked v = false)
    (waiting : List Nat) (b : Blocking)
    (hRange : ∀ w, b.blocked w = true → w < graph.nvertices) (hCount : b.count graph ≤ depth) :
    ∃ b', waiting.foldlM (fun (b : Blocking) n =>
        if b.blocked n then Unblock depth n b else some b) b = some b' ∧
      Unblocked (· ∈ waiting) b b' ∧ ∀ n ∈ waiting, b'.blocked n = false := by
  induction waiting generalizing b with
  | nil => exact ⟨b, rfl, .refl _ b, fun n h => absurd h not_mem_nil⟩
  | cons n rest ihRest =>
    rw [foldlM_cons]
    have hStep : ∃ b₁, (if b.blocked n then Unblock depth n b else some b) = some b₁ ∧
        Unblocked (· = n) b b₁ ∧ b₁.blocked n = false := by
      by_cases hBlocked : b.blocked n = true
      · rw [if_pos hBlocked]
        exact ih n b hBlocked hRange hCount
      · rw [if_neg hBlocked]
        exact ⟨b, rfl, .refl _ b, Bool.of_not_eq_true hBlocked⟩
    obtain ⟨b₁, hRun, hFirst, hFree⟩ := hStep
    obtain ⟨b₂, hFold, hRest, hFrees⟩ := ihRest b₁ (fun w hw => hRange w (hFirst.mono w hw))
      (hFirst.count_le.trans hCount)
    rw [hRun]
    refine ⟨b₂, hFold, ?_, ?_⟩
    · apply (hFirst.weaken ?_).trans (hRest.weaken ?_)
      · rintro v rfl
        exact mem_cons_self
      · exact fun v hv => mem_cons_of_mem _ hv
    · intro v hv
      rcases mem_cons.mp hv with rfl | hv
      · exact hRest.stays hFree
      · exact hFrees v hv

/-- `Unblock` ends, and frees what was reached from `v`. -/
theorem unblock_spec (graph : Graph) (depth : Nat) (v : Nat) (b : Blocking)
    (hBlocked : b.blocked v = true) (hRange : ∀ w, b.blocked w = true → w < graph.nvertices)
    (hCount : b.count graph ≤ depth) :
    ∃ b', Unblock depth v b = some b' ∧ Unblocked (· = v) b b' ∧ b'.blocked v = false := by
  induction depth generalizing v b with
  | zero =>
    have hPos : 0 < b.count graph :=
      countP_pos_iff.mpr ⟨v, mem_range.mpr (hRange v hBlocked), hBlocked⟩
    omega
  | succ depth ih =>
    let opened : Blocking := { b with blocked := update b.blocked v false }
    have hSelf : opened.blocked v = false := update_self ..
    have hOther : ∀ w, w ≠ v → opened.blocked w = b.blocked w :=
      fun w hne => update_of_ne hne ..
    have hOpened : ∀ w, opened.blocked w = true → b.blocked w = true := by
      intro w hw
      by_cases hne : w = v
      · rw [hne]
        exact hBlocked
      · rwa [hOther w hne] at hw
    have hLess : b.count graph = opened.count graph + 1 :=
      Count.countP_eq_succ nodup_range (mem_range.mpr (hRange v hBlocked)) hBlocked
        hSelf fun w _ hne => (hOther w hne).symm
    obtain ⟨b₁, hRun, hFreed, hWaiting⟩ := unblock_loop ih (b.blockedMap v) opened
      (fun w hw => hRange w (hOpened w hw)) (by omega)
    have hFinal : b₁.blocked v = false := hFreed.stays hSelf
    refine ⟨{ b₁ with blockedMap := update b₁.blockedMap v [] }, ?_, ?_, hFinal⟩
    · rw [Unblock]
      change Option.map _ (List.foldlM _ opened _) = _
      rw [hRun]
      rfl
    · have hFrees : ∀ w, w ≠ v → (b.Frees b₁ w ↔ opened.Frees b₁ w) := by
        intro w hne
        unfold Frees
        rw [hOther w hne]
      refine ⟨fun w hw => hOpened w (hFreed.mono w hw), ?_, ?_, ?_, ?_⟩
      · intro w hw
        by_cases hne : w = v
        · rw [hne]
          exact update_self ..
        · exact (update_of_ne hne ..).trans (hFreed.emptied w ((hFrees w hne).mp hw))
      · intro w hw
        have hne : w ≠ v := by
          rintro rfl
          exact hw ⟨hBlocked, hFinal⟩
        exact (update_of_ne hne ..).trans (hFreed.kept w fun h => hw ((hFrees w hne).mpr h))
      · intro w hw x hx
        by_cases hne : w = v
        · rw [hne] at hx
          exact hWaiting x hx
        · exact hFreed.closed w ((hFrees w hne).mp hw) x hx
      · intro Reached hRoots hStep w hw
        have hRoot : Reached v := hRoots v rfl
        by_cases hne : w = v
        · rw [hne]
          exact hRoot
        · exact hFreed.reached Reached (fun x hx => hStep v x hRoot hx) hStep w
            ((hFrees w hne).mp hw)

end Blocking

namespace JohnsonSearch

/-- An edge into a vertex that is still explored. -/
def Arc (graph : Graph) (explore : Nat → Bool) (v w : Nat) : Prop :=
  graph.Edge v w ∧ explore w = true

/-- Blocked vertices off the stack that lead only to each other and to `below`. -/
structure Sealed (graph : Graph) (explore : Nat → Bool) (s : JohnsonSearch) (below : List Nat)
    (inside : Nat → Prop) : Prop where
  blocked : ∀ v, inside v → s.blocked v = true
  off : ∀ v, inside v → v ∉ s.stack
  closed : ∀ v w, inside v → Arc graph explore v w → inside w ∨ w ∈ below

/-- What holds at every moment of a search from `startV`. The last field says
that a vertex which was unblocked while it still waited for another, and was then
entered again, waits only for vertices that nothing above it on the stack frees. -/
structure Invariant (graph : Graph) (explore : Nat → Bool) (startV : Nat) (s : JohnsonSearch) :
    Prop where
  stack_nodup : s.stack.Nodup
  stack_blocked : ∀ v ∈ s.stack, s.blocked v = true
  range : ∀ v, s.blocked v = true → v < graph.nvertices
  unblocked : ∀ v, s.blocked v = false → s.blockedMap v = []
  waits : ∀ v w, w ∈ s.blockedMap v → Arc graph explore w v
  closed : ∀ v w, s.blocked v = true → v ∉ s.stack → Arc graph explore v w →
    w ≠ startV ∧ s.blocked w = true ∧ v ∈ s.blockedMap w
  sealed : ∀ above v below, s.stack = above ++ v :: below → ∀ w, v ∈ s.blockedMap w →
    w ∈ below ∨ ∃ inside, inside w ∧ Sealed graph explore s below inside

section Search

variable {graph : Graph} {explore : Nat → Bool} {startV v : Nat} {s : JohnsonSearch}

theorem invariant_restart (graph : Graph) (explore : Nat → Bool) (startV : Nat)
    (s : JohnsonSearch) : Invariant graph explore startV s.restart where
  stack_nodup := nodup_nil
  stack_blocked := fun _ h => absurd h not_mem_nil
  range := fun _ h => absurd h Bool.false_ne_true
  unblocked := fun _ _ => rfl
  waits := fun _ _ h => absurd h not_mem_nil
  closed := fun _ _ h => absurd h Bool.false_ne_true
  sealed := fun above v below h => by simp [restart] at h

theorem Invariant.record (inv : Invariant graph explore startV s) :
    Invariant graph explore startV s.record :=
  ⟨inv.stack_nodup, inv.stack_blocked, inv.range, inv.unblocked, inv.waits, inv.closed,
    fun above v below hStack w hw => (inv.sealed above v below hStack w hw).imp_right
      fun ⟨inside, hInside, h⟩ => ⟨inside, hInside, h.blocked, h.off, h.closed⟩⟩

/-- The search enters an unblocked vertex. Everything that is blocked at this
moment seals off what the vertex may still wait for. -/
theorem Invariant.push (inv : Invariant graph explore startV s) (hv : v < graph.nvertices)
    (hFree : s.blocked v = false) : Invariant graph explore startV (s.push v) := by
  have hSelf : (s.push v).blocked v = true := update_self ..
  have hOther : ∀ w, w ≠ v → (s.push v).blocked w = s.blocked w :=
    fun w hne => update_of_ne hne ..
  have hStill : ∀ w, s.blocked w = true → (s.push v).blocked w = true := by
    intro w hw
    by_cases hne : w = v
    · rw [hne]
      exact hSelf
    · rwa [hOther w hne]
  have hNe : ∀ w, s.blocked w = true → w ≠ v := by
    rintro w hw rfl
    rw [hFree] at hw
    cases hw
  have hNotStack : v ∉ s.stack := fun h => hNe v (inv.stack_blocked v h) rfl
  refine ⟨nodup_cons.mpr ⟨hNotStack, inv.stack_nodup⟩, ?_, ?_, ?_, inv.waits, ?_, ?_⟩
  · intro w hw
    rcases mem_cons.mp hw with rfl | hw
    · exact hSelf
    · exact hStill w (inv.stack_blocked w hw)
  · intro w hw
    by_cases hne : w = v
    · rw [hne]
      exact hv
    · rw [hOther w hne] at hw
      exact inv.range w hw
  · intro w hw
    by_cases hne : w = v
    · rw [hne, hSelf] at hw
      cases hw
    · rw [hOther w hne] at hw
      exact inv.unblocked w hw
  · intro w x hw hOff hArc
    have hOff' := ne_and_not_mem_of_not_mem_cons hOff
    rw [hOther w hOff'.1] at hw
    obtain ⟨hStart, hBlocked, hWaits⟩ := inv.closed w x hw hOff'.2 hArc
    exact ⟨hStart, hStill x hBlocked, hWaits⟩
  · intro above z below hStack w hw
    rcases cons_eq_append_iff.mp hStack with ⟨rfl, hCons⟩ | ⟨above', rfl, hStack'⟩
    · obtain ⟨rfl, rfl⟩ := List.cons.inj hCons
      have hBlocked : s.blocked w = true := by
        by_contra hNot
        change _ ∈ s.blockedMap w at hw
        rw [inv.unblocked w (Bool.of_not_eq_true hNot)] at hw
        cases hw
      by_cases hOn : w ∈ s.stack
      · exact Or.inl hOn
      · refine Or.inr ⟨fun x => s.blocked x = true ∧ x ∉ s.stack, ⟨hBlocked, hOn⟩, ?_, ?_, ?_⟩
        · exact fun x hx => hStill x hx.1
        · exact fun x hx => not_mem_cons_of_ne_of_not_mem (hNe x hx.1) hx.2
        · intro x y hx hArc
          have hy := (inv.closed x y hx.1 hx.2 hArc).2.1
          by_cases hyOn : y ∈ s.stack
          · exact Or.inr hyOn
          · exact Or.inl ⟨hy, hyOn⟩
    · rcases inv.sealed above' z below hStack' w hw with hBelow | ⟨inside, hInside, h⟩
      · exact Or.inl hBelow
      · refine Or.inr ⟨inside, hInside, fun x hx => hStill x (h.blocked x hx), ?_, h.closed⟩
        exact fun x hx => not_mem_cons_of_ne_of_not_mem (hNe x (h.blocked x hx)) (h.off x hx)

/-- No walk from a blocked vertex off the stack returns to the start without
meeting the stack. -/
theorem Invariant.no_return (inv : Invariant graph explore startV s)
    (hBlocked : s.blocked v = true) (hOff : v ∉ s.stack) {rest : List Nat}
    (hRest : ∀ w ∈ rest, w ∉ s.stack) :
    ¬ List.IsChain (Arc graph explore) (v :: (rest ++ [startV])) := by
  induction rest generalizing v with
  | nil =>
    intro hChain
    exact (inv.closed v startV hBlocked hOff (isChain_cons_cons.mp hChain).1).1 rfl
  | cons w rest ih =>
    intro hChain
    obtain ⟨hArc, hTail⟩ := isChain_cons_cons.mp hChain
    exact ih (inv.closed v w hBlocked hOff hArc).2.1 (hRest w mem_cons_self)
      (fun x hx => hRest x (mem_cons_of_mem _ hx)) hTail

theorem mem_await (blockedMap : Nat → List Nat) (w x : Nat) :
    x ∈ await graph explore v blockedMap w ↔ x ∈ blockedMap w ∨ x = v ∧ Arc graph explore v w := by
  have hFold : ∀ (neighbours : List Nat) (blockedMap : Nat → List Nat),
      x ∈ neighbours.foldl (fun blockedMap n =>
        if explore n then update blockedMap n (blockedMap n ++ [v])
        else blockedMap) blockedMap w ↔
      x ∈ blockedMap w ∨ x = v ∧ w ∈ neighbours ∧ explore w = true := by
    intro neighbours
    induction neighbours with
    | nil => simp
    | cons n rest ih =>
      intro blockedMap
      rw [foldl_cons, ih]
      by_cases hExplore : explore n = true
      · rw [if_pos hExplore]
        by_cases hne : w = n
        · subst hne
          simp [hExplore]
          tauto
        · simp [hne]
      · rw [if_neg hExplore]
        by_cases hne : w = n
        · subst hne
          simp [hExplore]
        · simp [hne]
  exact hFold (graph.succ v) blockedMap

/-- The search leaves `v` without a cycle: `v` stays blocked and waits for each of
its neighbours, all of which are blocked. -/
theorem Invariant.await (inv : Invariant graph explore startV s) {below : List Nat}
    (hStack : s.stack = v :: below)
    (hNeighbours : ∀ w, Arc graph explore v w → w ≠ startV ∧ s.blocked w = true) :
    Invariant graph explore startV
      { s with
        blockedMap := await graph explore v s.blockedMap
        stack := below } := by
  have hNodup := inv.stack_nodup
  rw [hStack, nodup_cons] at hNodup
  refine ⟨hNodup.2, ?_, inv.range, ?_, ?_, ?_, ?_⟩
  · intro w hw
    exact inv.stack_blocked w (hStack ▸ mem_cons_of_mem _ hw)
  · intro w hw
    apply eq_nil_iff_forall_not_mem.mpr
    intro x hx
    rcases (mem_await s.blockedMap w x).mp hx with hx | ⟨_, hArc⟩
    · rw [inv.unblocked w hw] at hx
      cases hx
    · have hBlocked := (hNeighbours w hArc).2
      rw [show s.blocked w = false from hw] at hBlocked
      cases hBlocked
  · intro w x hx
    rcases (mem_await s.blockedMap w x).mp hx with hx | ⟨rfl, hArc⟩
    · exact inv.waits w x hx
    · exact hArc
  · intro w x hw hOff hArc
    by_cases hne : w = v
    · subst hne
      obtain ⟨hStart, hBlocked⟩ := hNeighbours x hArc
      exact ⟨hStart, hBlocked, (mem_await s.blockedMap x w).mpr (Or.inr ⟨rfl, hArc⟩)⟩
    · obtain ⟨hStart, hBlocked, hWaits⟩ := inv.closed w x hw
        (by rw [hStack]; exact not_mem_cons_of_ne_of_not_mem hne hOff) hArc
      exact ⟨hStart, hBlocked, (mem_await s.blockedMap x w).mpr (Or.inl hWaits)⟩
  · intro above z after hBelow w hw
    change below = above ++ z :: after at hBelow
    have hz : z ≠ v := by
      rintro rfl
      exact hNodup.1 (by rw [hBelow]; simp)
    have hw' : z ∈ s.blockedMap w := by
      rcases (mem_await s.blockedMap w z).mp hw with hw | ⟨h, _⟩
      · exact hw
      · exact absurd h hz
    rcases inv.sealed (v :: above) z after (by rw [hStack, hBelow]; rfl) w hw' with
      hAfter | ⟨inside, hInside, h⟩
    · exact Or.inl hAfter
    · refine Or.inr ⟨inside, hInside, h.blocked, fun x hx hm => h.off x hx ?_, h.closed⟩
      rw [hStack]
      exact mem_cons_of_mem _ hm

/-- Unblocking the top of the stack frees nothing below it, and nothing that is
sealed off by what is below some vertex of the stack. -/
theorem Invariant.unblock_apart (inv : Invariant graph explore startV s) {top : Nat}
    {above below : List Nat} (hStack : s.stack = top :: (above ++ v :: below)) {b : Blocking}
    (unblocked : Blocking.Unblocked (· = top) s.toBlocking b) {w : Nat}
    (hFrees : s.toBlocking.Frees b w) :
    w ≠ v ∧ w ∉ below ∧ ∀ inside, Sealed graph explore s below inside → ¬ inside w := by
  have hNodup := inv.stack_nodup
  rw [hStack, nodup_cons] at hNodup
  have hTop : top ∈ s.stack := by
    rw [hStack]
    exact mem_cons_self
  refine unblocked.reached (fun w => w ≠ v ∧ w ∉ below ∧
    ∀ inside, Sealed graph explore s below inside → ¬ inside w) ?_ ?_ w hFrees
  · rintro w rfl
    refine ⟨?_, ?_, fun inside h hInside => h.off w hInside hTop⟩
    · rintro rfl
      exact hNodup.1 (by simp)
    · intro hm
      exact hNodup.1 (by simp [hm])
  · -- Whoever waits for a vertex outside the protected region is outside as well.
    rintro w x ⟨hwv, hwBelow, hwSealed⟩ hx
    refine ⟨?_, ?_, ?_⟩
    · rintro rfl
      rcases inv.sealed (top :: above) x below (by rw [hStack]; rfl) w hx with
        h | ⟨inside, hInside, h⟩
      · exact hwBelow h
      · exact hwSealed inside h hInside
    · intro hxBelow
      obtain ⟨before, after, rfl⟩ := append_of_mem hxBelow
      rcases inv.sealed (top :: (above ++ v :: before)) x after (by rw [hStack]; simp) w hx with
        h | ⟨inside, hInside, h⟩
      · exact hwBelow (by simp [h])
      · refine hwSealed inside ⟨h.blocked, h.off, fun y z hy hArc => ?_⟩ hInside
        rcases h.closed y z hy hArc with hz | hz
        · exact Or.inl hz
        · exact Or.inr (by simp [hz])
    · intro inside h hInside
      rcases h.closed x w hInside (inv.waits w x hx) with hw | hw
      · exact hwSealed inside h hw
      · exact hwBelow hw

theorem Invariant.unblock (inv : Invariant graph explore startV s) {below : List Nat}
    (hStack : s.stack = v :: below) {b : Blocking}
    (unblocked : Blocking.Unblocked (· = v) s.toBlocking b) (hFree : b.blocked v = false) :
    Invariant graph explore startV { s with toBlocking := b, stack := below } := by
  have hNodup := inv.stack_nodup
  rw [hStack, nodup_cons] at hNodup
  have hKept : ∀ w ∈ below, b.blocked w = true := by
    intro w hw
    by_contra hNot
    obtain ⟨above, after, rfl⟩ := append_of_mem hw
    have hBlocked := inv.stack_blocked w (by rw [hStack]; simp)
    exact (inv.unblock_apart hStack unblocked ⟨hBlocked, Bool.of_not_eq_true hNot⟩).1 rfl
  refine ⟨hNodup.2, hKept, fun w hw => inv.range w (unblocked.mono w hw), ?_, ?_, ?_, ?_⟩
  · intro w hw
    by_cases hFrees : s.toBlocking.Frees b w
    · exact unblocked.emptied w hFrees
    · have hBefore : s.blocked w = false := by
        by_contra hNot
        exact hFrees ⟨Bool.of_not_eq_false hNot, hw⟩
      exact (unblocked.kept w hFrees).trans (inv.unblocked w hBefore)
  · exact fun w x hx => inv.waits w x (unblocked.blockedMap_subset w hx)
  · intro w x hw hOff hArc
    have hne : w ≠ v := by
      rintro rfl
      rw [show b.blocked w = true from hw] at hFree
      cases hFree
    obtain ⟨hStart, hBlocked, hWaits⟩ := inv.closed w x (unblocked.mono w hw)
      (by rw [hStack]; exact not_mem_cons_of_ne_of_not_mem hne hOff) hArc
    have hx : ¬ s.toBlocking.Frees b x := by
      intro hFrees
      have hFreed := unblocked.closed x hFrees w hWaits
      rw [show b.blocked w = true from hw] at hFreed
      cases hFreed
    refine ⟨hStart, ?_, ?_⟩
    · by_contra hNot
      exact hx ⟨hBlocked, Bool.of_not_eq_true hNot⟩
    · change w ∈ b.blockedMap x
      rw [unblocked.kept x hx]
      exact hWaits
  · intro above z after hBelow w hw
    change below = above ++ z :: after at hBelow
    have hStack' : s.stack = v :: (above ++ z :: after) := by rw [hStack, hBelow]
    rcases inv.sealed (v :: above) z after (by rw [hStack']; rfl) w
      (unblocked.blockedMap_subset w hw) with hAfter | ⟨inside, hInside, h⟩
    · exact Or.inl hAfter
    · refine Or.inr ⟨inside, hInside, fun x hx => ?_, fun x hx hm => h.off x hx ?_, h.closed⟩
      · by_contra hNot
        exact (inv.unblock_apart hStack' unblocked
          ⟨h.blocked x hx, Bool.of_not_eq_true hNot⟩).2.2 inside h hx
      · rw [hStack]
        exact mem_cons_of_mem _ hm

/-- The matrix marks the cycles, and the sums are those of the matrix. -/
structure Tallied (s : JohnsonSearch) : Prop where
  rows : s.cyclesMap = s.cycles.map indicator
  columns : ∀ k, s.sumArray k = (s.cycles.map fun cycle => indicator cycle k).sum
  total : s.sum = (s.cycles.map fun cycle => (cycle.length : Int)).sum

theorem foldl_addOne {cycle : List Nat} (nodup : cycle.Nodup) (sumArray : Nat → Int) (k : Nat) :
    cycle.foldl addOne sumArray k = sumArray k + indicator cycle k := by
  induction cycle generalizing sumArray with
  | nil => simp [indicator]
  | cons v rest ih =>
    obtain ⟨hv, hRest⟩ := nodup_cons.mp nodup
    rw [foldl_cons, ih hRest]
    by_cases hne : k = v
    · subst hne
      simp [addOne, indicator, hv]
    · simp [addOne, indicator, hne]

theorem Tallied.record (tallied : s.Tallied) (nodup : s.stack.Nodup) : s.record.Tallied where
  rows := by
    change s.cyclesMap ++ [_] = (s.cycles ++ [_]).map indicator
    rw [tallied.rows, map_append]
    rfl
  columns := by
    intro k
    change s.stack.reverse.foldl addOne s.sumArray k = ((s.cycles ++ [_]).map _).sum
    rw [foldl_addOne (nodup_reverse.mpr nodup), tallied.columns, map_append, sum_append]
    simp
  total := by
    change s.sum + s.stack.length = ((s.cycles ++ [_]).map _).sum
    rw [tallied.total, map_append, sum_append]
    simp

/-- The vertices of `rest` lead from `currentV`, above the stack, to the start. -/
structure Closes (graph : Graph) (explore : Nat → Bool) (startV : Nat) (stack : List Nat)
    (currentV : Nat) (rest : List Nat) : Prop where
  chain : List.IsChain (Arc graph explore) (currentV :: (rest ++ [startV]))
  nodup : rest.Nodup
  off : ∀ w ∈ rest, w ∉ currentV :: stack

/-- The elementary cycles that start with the stack and `currentV`. -/
def Extends (graph : Graph) (explore : Nat → Bool) (startV : Nat) (stack : List Nat)
    (currentV : Nat) (cycle : List Nat) : Prop :=
  ∃ rest, cycle = stack.reverse ++ currentV :: rest ∧
    Closes graph explore startV stack currentV rest

/-- The cycles of `Extends` whose next vertex is `n`. -/
def ExtendsVia (graph : Graph) (explore : Nat → Bool) (startV : Nat) (stack : List Nat)
    (currentV n : Nat) (cycle : List Nat) : Prop :=
  ∃ rest, cycle = stack.reverse ++ currentV :: rest ∧
    Closes graph explore startV stack currentV rest ∧ (rest ++ [startV]).head? = some n

/-- No arc is listed twice. -/
def NoDuplicateArcs (graph : Graph) : Prop := ∀ v, (graph.succ v).Nodup

/-- The outcome of a call: exactly the cycles that extend the path are new. -/
structure Searched (graph : Graph) (explore : Nat → Bool) (startV : Nat) (s : JohnsonSearch)
    (currentV : Nat) (s' : JohnsonSearch) (found : Bool) : Prop where
  inv : Invariant graph explore startV s'
  stack : s'.stack = s.stack
  tallied : s'.Tallied
  cycles : ∃ more, s'.cycles = s.cycles ++ more ∧
    (∀ cycle, cycle ∈ more ↔ Extends graph explore startV s.stack currentV cycle) ∧
    (NoDuplicateArcs graph → more.Nodup)
  quiet : found = false → (∀ w, s.blocked w = true → s'.blocked w = true) ∧
    s'.blocked currentV = true

/-- In the middle of the call on `currentV` that started in `s`, with the
neighbours `seen` done. -/
structure Scanned (graph : Graph) (explore : Nat → Bool) (startV : Nat) (s : JohnsonSearch)
    (currentV : Nat) (seen : List Nat) (s' : JohnsonSearch) (found : Bool) : Prop where
  inv : Invariant graph explore startV s'
  stack : s'.stack = currentV :: s.stack
  tallied : s'.Tallied
  cycles : ∃ more, s'.cycles = s.cycles ++ more ∧ (∀ cycle, cycle ∈ more ↔
      ∃ n ∈ seen, ExtendsVia graph explore startV s.stack currentV n cycle) ∧
    (NoDuplicateArcs graph → seen.Nodup → more.Nodup)
  quiet : found = false → (∀ w, s.blocked w = true → s'.blocked w = true) ∧
    ∀ w ∈ seen, explore w = true → w ≠ startV ∧ s'.blocked w = true

section Neighbours

variable {stack seen cycle : List Nat} {currentV n : Nat}

theorem ExtendsVia.arc (h : ExtendsVia graph explore startV stack currentV n cycle) :
    Arc graph explore currentV n := by
  obtain ⟨rest, _, closes, hHead⟩ := h
  exact (isChain_cons.mp closes.chain).1 n hHead

theorem ExtendsVia.unique {m : Nat} (hm : ExtendsVia graph explore startV stack currentV m cycle)
    (hn : ExtendsVia graph explore startV stack currentV n cycle) : m = n := by
  obtain ⟨rest, rfl, _, hHead⟩ := hm
  obtain ⟨rest', hCycle, _, hHead'⟩ := hn
  obtain ⟨_, rfl⟩ := List.cons.inj (append_cancel_left hCycle)
  exact Option.some.inj (hHead.symm.trans hHead')

theorem extendsVia_start (hStart : startV ∈ currentV :: stack)
    (hArc : Arc graph explore currentV startV) :
    ExtendsVia graph explore startV stack currentV startV cycle ↔
      cycle = (currentV :: stack).reverse := by
  rw [reverse_cons]
  constructor
  · rintro ⟨rest, rfl, closes, hHead⟩
    cases rest with
    | nil => rfl
    | cons w rest =>
      obtain rfl : w = startV := Option.some.inj hHead
      exact absurd hStart (closes.off w mem_cons_self)
  · rintro rfl
    refine ⟨[], rfl, ⟨?_, nodup_nil, fun w h => absurd h not_mem_nil⟩, rfl⟩
    exact isChain_cons_cons.mpr ⟨hArc, isChain_singleton _⟩

theorem extendsVia_iff (hArc : Arc graph explore currentV n) (hStart : n ≠ startV)
    (hOff : n ∉ currentV :: stack) :
    ExtendsVia graph explore startV stack currentV n cycle ↔
      Extends graph explore startV (currentV :: stack) n cycle := by
  constructor
  · rintro ⟨rest, rfl, closes, hHead⟩
    cases rest with
    | nil => exact absurd (Option.some.inj hHead).symm hStart
    | cons w rest =>
      obtain rfl : w = n := Option.some.inj hHead
      obtain ⟨hw, hNodup⟩ := nodup_cons.mp closes.nodup
      refine ⟨rest, by simp, (isChain_cons_cons.mp closes.chain).2, hNodup, ?_⟩
      intro x hx
      refine not_mem_cons_of_ne_of_not_mem ?_ (closes.off x (mem_cons_of_mem _ hx))
      rintro rfl
      exact hw hx
  · rintro ⟨rest, rfl, closes⟩
    refine ⟨n :: rest, by simp, ⟨?_, ?_, ?_⟩, rfl⟩
    · exact isChain_cons_cons.mpr ⟨hArc, closes.chain⟩
    · refine nodup_cons.mpr ⟨fun hm => ?_, closes.nodup⟩
      exact closes.off n hm mem_cons_self
    · intro x hx
      rcases mem_cons.mp hx with rfl | hx
      · exact hOff
      · exact (ne_and_not_mem_of_not_mem_cons (closes.off x hx)).2

/-- No cycle goes on with a blocked vertex. -/
theorem Invariant.not_extendsVia (inv : Invariant graph explore startV s)
    (hStack : s.stack = currentV :: stack) (hStart : n ≠ startV) (hBlocked : s.blocked n = true) :
    ¬ ExtendsVia graph explore startV stack currentV n cycle := by
  rintro ⟨rest, _, closes, hHead⟩
  cases rest with
  | nil => exact hStart (Option.some.inj hHead).symm
  | cons w rest =>
    obtain rfl : w = n := Option.some.inj hHead
    have hOff : ∀ x ∈ w :: rest, x ∉ s.stack := by
      rw [hStack]
      exact closes.off
    exact inv.no_return hBlocked (hOff w mem_cons_self) (fun x hx => hOff x (mem_cons_of_mem _ hx))
      (isChain_cons_cons.mp closes.chain).2

variable {found : Bool} {s' : JohnsonSearch}

theorem Scanned.next (scanned : Scanned graph explore startV s currentV seen s' found)
    {next : JohnsonSearch} {found' : Bool} (inv : Invariant graph explore startV next)
    (hStack : next.stack = s'.stack) (hTallied : next.Tallied) {more : List (List Nat)}
    (hCycles : next.cycles = s'.cycles ++ more)
    (hMore : ∀ cycle, cycle ∈ more ↔ ExtendsVia graph explore startV s.stack currentV n cycle)
    (hNodup : NoDuplicateArcs graph → more.Nodup)
    (hQuiet : found' = false → found = false ∧ (∀ w, s'.blocked w = true → next.blocked w = true) ∧
      (explore n = true → n ≠ startV ∧ next.blocked n = true)) :
    Scanned graph explore startV s currentV (seen ++ [n]) next found' := by
  refine ⟨inv, hStack.trans scanned.stack, hTallied, ?_, ?_⟩
  · obtain ⟨before, hBefore, hIff, hBeforeNodup⟩ := scanned.cycles
    refine ⟨before ++ more, by rw [hCycles, hBefore, append_assoc], fun cycle => ?_, ?_⟩
    · rw [mem_append, hIff, hMore]
      constructor
      · rintro (⟨m, hm, h⟩ | h)
        · exact ⟨m, mem_append_left _ hm, h⟩
        · exact ⟨n, mem_append_right _ mem_cons_self, h⟩
      · rintro ⟨m, hm, h⟩
        rcases mem_append.mp hm with hm | hm
        · exact Or.inl ⟨m, hm, h⟩
        · exact Or.inr (mem_singleton.mp hm ▸ h)
    · intro simple hSeen
      have hn := nodup_append.mp hSeen
      refine nodup_append'.mpr ⟨hBeforeNodup simple hn.1, hNodup simple, ?_⟩
      intro cycle hOld hNew
      obtain ⟨m, hm, hVia⟩ := (hIff cycle).mp hOld
      exact hn.2.2 m hm n mem_cons_self (hVia.unique ((hMore cycle).mp hNew))
  · intro hFound
    obtain ⟨hBefore, hMono, hNew⟩ := hQuiet hFound
    obtain ⟨hOld, hSeen⟩ := scanned.quiet hBefore
    refine ⟨fun w hw => hMono w (hOld w hw), ?_⟩
    intro w hw hExplore
    rcases mem_append.mp hw with hw | hw
    · exact ⟨(hSeen w hw hExplore).1, hMono w (hSeen w hw hExplore).2⟩
    · rw [mem_singleton.mp hw] at hExplore ⊢
      exact hNew hExplore

theorem Scanned.skip (scanned : Scanned graph explore startV s currentV seen s' found)
    (hNone : ∀ cycle, ¬ ExtendsVia graph explore startV s.stack currentV n cycle)
    (hQuiet : explore n = true → n ≠ startV ∧ s'.blocked n = true) :
    Scanned graph explore startV s currentV (seen ++ [n]) s' found :=
  scanned.next scanned.inv rfl scanned.tallied (append_nil _).symm
    (fun cycle => ⟨fun hm => absurd hm not_mem_nil, fun h => absurd h (hNone cycle)⟩)
    (fun _ => nodup_nil) fun hFound => ⟨hFound, fun _ h => h, hQuiet⟩

/-- What a call with this much depth does. -/
def RecurSpec (graph : Graph) (explore : Nat → Bool) (startV depth : Nat) : Prop :=
  ∀ currentV s, Invariant graph explore startV s → s.blocked currentV = false →
    currentV < graph.nvertices → startV ∈ currentV :: s.stack → s.Tallied →
    graph.nvertices ≤ s.stack.length + depth →
    ∃ s' found, FindCyclesRecur graph explore startV depth currentV s = some (s', found) ∧
      Searched graph explore startV s currentV s' found

theorem Scanned.visit {depth : Nat} (spec : RecurSpec graph explore startV depth)
    (scanned : Scanned graph explore startV s currentV seen s' found)
    (hEdge : graph.Edge currentV n) (hStart : startV ∈ currentV :: s.stack)
    (hDepth : graph.nvertices ≤ s.stack.length + 1 + depth) :
    ∃ next found', visit explore startV (FindCyclesRecur graph explore startV depth)
        (s', found) n = some (next, found') ∧
      Scanned graph explore startV s currentV (seen ++ [n]) next found' := by
  unfold JohnsonSearch.visit
  by_cases hExplore : explore n = false
  · rw [if_pos hExplore]
    refine ⟨s', found, rfl, scanned.skip ?_ ?_⟩
    · intro cycle h
      exact Bool.false_ne_true (hExplore.symm.trans h.arc.2)
    · intro h
      exact absurd (hExplore.symm.trans h) Bool.false_ne_true
  rw [if_neg hExplore]
  have hArc : Arc graph explore currentV n := ⟨hEdge, Bool.of_not_eq_false hExplore⟩
  by_cases hn : n = startV
  · subst hn
    rw [if_pos rfl]
    refine ⟨s'.record, true, rfl, scanned.next scanned.inv.record rfl
      (scanned.tallied.record scanned.inv.stack_nodup) rfl ?_ (fun _ => nodup_singleton _)
      fun h => absurd h.symm Bool.false_ne_true⟩
    intro cycle
    rw [extendsVia_start hStart hArc, mem_singleton, scanned.stack]
  rw [if_neg hn]
  by_cases hFree : s'.blocked n = false
  · rw [if_pos hFree]
    have hOff : n ∉ currentV :: s.stack := by
      intro hm
      rw [← scanned.stack] at hm
      exact Bool.false_ne_true (hFree.symm.trans (scanned.inv.stack_blocked n hm))
    obtain ⟨next, found', hRun, searched⟩ := spec n s' scanned.inv hFree hEdge.lt.2
      (by rw [scanned.stack]; exact mem_cons_of_mem _ hStart) scanned.tallied
      (by rw [scanned.stack, length_cons]; exact hDepth)
    obtain ⟨more, hCycles, hMore, hNodup⟩ := searched.cycles
    refine ⟨next, found || found', by simp only [hRun, Option.map_some],
      scanned.next searched.inv searched.stack searched.tallied hCycles ?_ hNodup ?_⟩
    · intro cycle
      rw [hMore, extendsVia_iff hArc hn hOff, scanned.stack]
    · intro hFound
      obtain ⟨hBefore, hAfter⟩ := Bool.or_eq_false_iff.mp hFound
      exact ⟨hBefore, (searched.quiet hAfter).1, fun _ => ⟨hn, (searched.quiet hAfter).2⟩⟩
  · rw [if_neg hFree]
    have hBlocked := Bool.of_not_eq_false hFree
    exact ⟨s', found, rfl, scanned.skip
      (fun cycle => scanned.inv.not_extendsVia scanned.stack hn hBlocked) fun _ => ⟨hn, hBlocked⟩⟩

theorem Scanned.loop {depth : Nat} (spec : RecurSpec graph explore startV depth)
    (hStart : startV ∈ currentV :: s.stack)
    (hDepth : graph.nvertices ≤ s.stack.length + 1 + depth) (rest : List Nat)
    (scanned : Scanned graph explore startV s currentV seen s' found)
    (hRest : ∀ n ∈ rest, graph.Edge currentV n) :
    ∃ next found', rest.foldlM (JohnsonSearch.visit explore startV
        (FindCyclesRecur graph explore startV depth)) (s', found) = some (next, found') ∧
      Scanned graph explore startV s currentV (seen ++ rest) next found' := by
  induction rest generalizing seen s' found with
  | nil => exact ⟨s', found, rfl, by rwa [append_nil]⟩
  | cons n rest ih =>
    obtain ⟨next, found', hVisit, hNext⟩ :=
      scanned.visit spec (hRest n mem_cons_self) hStart hDepth
    obtain ⟨last, found'', hRun, hLast⟩ :=
      ih hNext fun m hm => hRest m (mem_cons_of_mem _ hm)
    refine ⟨last, found'', ?_, by rwa [append_cons]⟩
    rw [foldlM_cons, hVisit]
    exact hRun

theorem scanned_push (inv : Invariant graph explore startV s) (hFree : s.blocked currentV = false)
    (hv : currentV < graph.nvertices) (tallied : s.Tallied) :
    Scanned graph explore startV s currentV [] (s.push currentV) false where
  inv := inv.push hv hFree
  stack := rfl
  tallied := ⟨tallied.rows, tallied.columns, tallied.total⟩
  cycles := ⟨[], (append_nil _).symm, by simp, fun _ _ => nodup_nil⟩
  quiet := by
    refine fun _ => ⟨fun w hw => ?_, fun w hw => absurd hw not_mem_nil⟩
    by_cases hne : w = currentV
    · rw [hne]
      exact update_self ..
    · exact (update_of_ne hne ..).trans hw

theorem Scanned.finish
    (scanned : Scanned graph explore startV s currentV (graph.succ currentV) s' found) :
    ∃ last, finish graph explore currentV s' found = some (last, found) ∧
      Searched graph explore startV s currentV last found := by
  have hCycles : ∃ more, s'.cycles = s.cycles ++ more ∧
      (∀ cycle, cycle ∈ more ↔ Extends graph explore startV s.stack currentV cycle) ∧
      (NoDuplicateArcs graph → more.Nodup) := by
    obtain ⟨more, hMore, hIff, hNodup⟩ := scanned.cycles
    refine ⟨more, hMore, fun cycle => (hIff cycle).trans ⟨?_, ?_⟩,
      fun simple => hNodup simple (simple currentV)⟩
    · rintro ⟨n, _, rest, hCycle, closes, _⟩
      exact ⟨rest, hCycle, closes⟩
    · rintro ⟨rest, hCycle, closes⟩
      obtain ⟨n, hn⟩ : ∃ n, (rest ++ [startV]).head? = some n := by cases rest <;> simp
      have hVia : ExtendsVia graph explore startV s.stack currentV n cycle :=
        ⟨rest, hCycle, closes, hn⟩
      exact ⟨n, hVia.arc.1, hVia⟩
  have hTail : s'.stack.tail = s.stack := by rw [scanned.stack, tail_cons]
  have hTallied := scanned.tallied
  unfold JohnsonSearch.finish
  cases found with
  | true =>
    have hBlocked : s'.blocked currentV = true :=
      scanned.inv.stack_blocked currentV (by rw [scanned.stack]; exact mem_cons_self)
    obtain ⟨b, hRun, unblocked, hFree⟩ := Blocking.unblock_spec graph graph.nvertices currentV
      s'.toBlocking hBlocked scanned.inv.range
      (countP_le_length.trans_eq length_range)
    refine ⟨_, by rw [if_pos rfl, hRun, hTail]; rfl,
      scanned.inv.unblock scanned.stack unblocked hFree, rfl,
      ⟨hTallied.rows, hTallied.columns, hTallied.total⟩, hCycles, fun h => absurd h.symm Bool.false_ne_true⟩
  | false =>
    obtain ⟨hMono, hSeen⟩ := scanned.quiet rfl
    refine ⟨_, by rw [if_neg Bool.false_ne_true, hTail], scanned.inv.await scanned.stack ?_, rfl,
      ⟨hTallied.rows, hTallied.columns, hTallied.total⟩, hCycles, fun _ => ⟨hMono, ?_⟩⟩
    · exact fun w hArc => hSeen w hArc.1 hArc.2
    · exact scanned.inv.stack_blocked currentV (by rw [scanned.stack]; exact mem_cons_self)

/-- The search is complete and ends: a path is never longer than the graph. -/
theorem findCyclesRecur_spec (graph : Graph) (explore : Nat → Bool) (startV depth : Nat) :
    RecurSpec graph explore startV depth := by
  induction depth with
  | zero =>
    intro currentV s inv hFree hv _ _ hDepth
    have hStack : (currentV :: s.stack).Nodup := (inv.push hv hFree).stack_nodup
    have hLength : (currentV :: s.stack).length ≤ (List.range graph.nvertices).length := by
      refine (hStack.subperm fun w hw => ?_).length_le
      exact mem_range.mpr ((inv.push hv hFree).range w ((inv.push hv hFree).stack_blocked w hw))
    rw [length_range, length_cons] at hLength
    omega
  | succ depth ih =>
    intro currentV s inv hFree hv hStart tallied hDepth
    obtain ⟨scannedState, found, hScan, scanned⟩ :=
      (scanned_push inv hFree hv tallied).loop ih hStart (by omega) (graph.succ currentV)
        fun n hn => hn
    obtain ⟨last, hFinish, searched⟩ := scanned.finish
    refine ⟨last, found, ?_, searched⟩
    rw [FindCyclesRecur, hScan]
    exact hFinish

end Neighbours

end Search

end JohnsonSearch

end Nezha
