import Mathlib

/-! A value with numbered copies that can be brought back. A revert to a copy forgets the
later ones, and a number that is not known is an error. What a run makes of the value is what
the operations make of it that no revert undid. -/
namespace Revisions

open List

variable {α β Op : Type*}

/-- The copies stand in the order in which they were taken. -/
structure Store (α : Type*) where
  current : α
  validRevisions : List (Nat × α)
  nextRevisionId : Nat

namespace Store

def new (value : α) : Store α := ⟨value, [], 0⟩

def snapshot (s : Store α) : Store α where
  current := s.current
  validRevisions := s.validRevisions ++ [(s.nextRevisionId, s.current)]
  nextRevisionId := s.nextRevisionId + 1

def revert (s : Store α) (revid : Nat) : Option (Store α) :=
  let idx := s.validRevisions.findIdx fun rev => revid ≤ rev.1
  match s.validRevisions[idx]? with
  | none => none
  | some rev =>
    if rev.1 ≠ revid then none
    else some ⟨rev.2, s.validRevisions.take idx, s.nextRevisionId⟩

def map (f : α → β) (s : Store α) : Store β :=
  ⟨f s.current, s.validRevisions.map (Prod.map id f), s.nextRevisionId⟩

theorem map_snapshot (f : α → β) (s : Store α) : (s.map f).snapshot = s.snapshot.map f := by
  simp [map, snapshot]

theorem map_revert (f : α → β) (s : Store α) (revid : Nat) :
    (s.map f).revert revid = (s.revert revid).map (map f) := by
  have hIdx : (s.map f).validRevisions.findIdx (fun rev => decide (revid ≤ rev.1)) =
      s.validRevisions.findIdx fun rev => decide (revid ≤ rev.1) := by
    rw [map, findIdx_map]
    rfl
  simp only [revert, hIdx]
  simp only [map, getElem?_map]
  cases s.validRevisions[s.validRevisions.findIdx fun rev => decide (revid ≤ rev.1)]? with
  | none => rfl
  | some rev =>
    by_cases hId : rev.1 = revid
    · simp [hId, map, map_take]
    · simp [hId]

/-- A property of the value and of all copies. -/
def All (P : α → Prop) (s : Store α) : Prop := P s.current ∧ ∀ rev ∈ s.validRevisions, P rev.2

variable {P : α → Prop} {s s' : Store α}

theorem All.snapshot (h : s.All P) : s.snapshot.All P := by
  refine ⟨h.1, fun rev hRev => ?_⟩
  rcases mem_append.mp hRev with hRev | hRev
  · exact h.2 rev hRev
  · rw [mem_singleton.mp hRev]
    exact h.1

theorem All.revert {revid : Nat} (h : s.All P) (hRevert : s.revert revid = some s') :
    s'.All P := by
  simp only [Store.revert] at hRevert
  split at hRevert
  · cases hRevert
  · rename_i rev hRev
    split_ifs at hRevert
    cases hRevert
    exact ⟨h.2 rev (mem_of_getElem? hRev), fun other hOther =>
      h.2 other (mem_of_mem_take hOther)⟩

end Store

inductive Command (Op : Type*) where
  | op (operation : Op)
  | snapshot
  | revert (revid : Nat)

/-- An operation without a result is an error. -/
def step (effect : α → Op → Option α) (s : Store α) : Command Op → Option (Store α)
  | .op operation => (effect s.current operation).map fun value => { s with current := value }
  | .snapshot => some s.snapshot
  | .revert revid => s.revert revid

def run (effect : α → Op → Option α) (s : Store α) (cmds : List (Command Op)) : Option (Store α) :=
  cmds.foldlM (step effect) s

theorem run_cons (effect : α → Op → Option α) (s : Store α) (cmd : Command Op)
    (cmds : List (Command Op)) :
    run effect s (cmd :: cmds) = (step effect s cmd).bind fun s => run effect s cmds :=
  foldlM_cons

/-- The operations alone, as the value that a run is about. -/
def note (ops : List Op) (operation : Op) : Option (List Op) := some (ops ++ [operation])

/-- The operations that no revert undid. -/
def surviving (cmds : List (Command Op)) : List Op :=
  ((run note (.new []) cmds).map Store.current).getD []

section Surviving

variable {effect : α → Op → Option α} {apply : α → Op → α}
  (hEffect : ∀ value operation value', effect value operation = some value' →
    value' = apply value operation)

include hEffect

theorem step_note {start : α} {noted : Store (List Op)} {s' : Store α} {cmd : Command Op}
    (h : step effect (noted.map (List.foldl apply start)) cmd = some s') :
    ∃ noted', step note noted cmd = some noted' ∧ s' = noted'.map (List.foldl apply start) := by
  cases cmd with
  | op operation =>
    obtain ⟨value, hValue, rfl⟩ := Option.map_eq_some_iff.mp h
    refine ⟨{ noted with current := noted.current ++ [operation] }, rfl, ?_⟩
    simp [Store.map, hEffect _ _ _ hValue]
  | snapshot =>
    cases h
    exact ⟨noted.snapshot, rfl, Store.map_snapshot _ _⟩
  | revert revid =>
    obtain ⟨noted', hNoted, rfl⟩ :=
      Option.map_eq_some_iff.mp ((Store.map_revert _ _ _).symm.trans h)
    exact ⟨noted', hNoted, rfl⟩

theorem run_note {start : α} {noted : Store (List Op)} {s' : Store α} {cmds : List (Command Op)}
    (h : run effect (noted.map (List.foldl apply start)) cmds = some s') :
    ∃ noted', run note noted cmds = some noted' ∧ s' = noted'.map (List.foldl apply start) := by
  induction cmds generalizing noted with
  | nil =>
    cases h
    exact ⟨noted, rfl, rfl⟩
  | cons cmd cmds ih =>
    rw [run_cons] at h
    obtain ⟨middle, hStep, hRest⟩ := Option.bind_eq_some_iff.mp h
    obtain ⟨noted', hNoted, rfl⟩ := step_note hEffect hStep
    obtain ⟨last, hLast, hMap⟩ := ih hRest
    exact ⟨last, by rw [run_cons, hNoted, Option.bind_some, hLast], hMap⟩

/-- A run leaves what the surviving operations make of the value. -/
theorem run_current {start : α} {s' : Store α} {cmds : List (Command Op)}
    (h : run effect (.new start) cmds = some s') :
    s'.current = (surviving cmds).foldl apply start := by
  have hStart : run effect ((Store.new []).map (List.foldl apply start)) cmds = some s' := h
  obtain ⟨noted, hNoted, rfl⟩ := run_note hEffect hStart
  rw [surviving, hNoted]
  rfl

end Surviving

theorem run_note_mem {cmds : List (Command Op)} {P : Op → Prop} {noted noted' : Store (List Op)}
    (hCmds : ∀ operation, .op operation ∈ cmds → P operation)
    (hNoted : noted.All fun ops => ∀ operation ∈ ops, P operation)
    (h : run note noted cmds = some noted') :
    noted'.All fun ops => ∀ operation ∈ ops, P operation := by
  induction cmds generalizing noted with
  | nil =>
    cases h
    exact hNoted
  | cons cmd cmds ih =>
    rw [run_cons] at h
    obtain ⟨middle, hStep, hRest⟩ := Option.bind_eq_some_iff.mp h
    refine ih (fun operation hMem => hCmds operation (mem_cons_of_mem _ hMem)) ?_ hRest
    cases cmd with
    | op operation =>
      cases hStep
      refine ⟨fun other hOther => ?_, hNoted.2⟩
      rcases mem_append.mp hOther with hOther | hOther
      · exact hNoted.1 other hOther
      · rw [mem_singleton.mp hOther]
        exact hCmds operation mem_cons_self
    | snapshot =>
      cases hStep
      exact hNoted.snapshot
    | revert revid => exact hNoted.revert hStep

theorem mem_of_mem_surviving {cmds : List (Command Op)} {operation : Op}
    (h : operation ∈ surviving cmds) : .op operation ∈ cmds := by
  rw [surviving] at h
  cases hRun : run note (.new []) cmds with
  | none => simp [hRun] at h
  | some noted =>
    rw [hRun] at h
    have hStart : (Store.new ([] : List Op)).All
        fun ops => ∀ operation ∈ ops, .op operation ∈ cmds :=
      ⟨fun _ h => absurd h not_mem_nil, fun _ h => absurd h not_mem_nil⟩
    exact (run_note_mem (fun _ hMem => hMem) hStart hRun).1 operation h

end Revisions
