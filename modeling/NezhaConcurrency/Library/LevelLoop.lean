import Mathlib

/-! A queue that is worked off level by level. The length of the queue is taken once at the
start of a level, so what a visit appends belongs to the next level. -/
namespace LevelLoop

variable {State Item : Type} (queue : State → List Item) (visit : State → Item → State)

/-- One round of the inner loop. A visit also takes its item off the queue. -/
def visitFront (s : State × List Item) : State × List Item :=
  match queue s.1 with
  | [] => s
  | item :: _ => (visit s.1 item, s.2 ++ [item])

/-- The inner loop, with the level it collects. -/
def level (s : State) : State × List Item :=
  (visitFront queue visit)^[(queue s).length] (s, [])

/-- The outer loop. There is no result if the queue is not empty after so many levels. -/
def levels (arrange : List Item → List Item) : Nat → State → Option (State × List (List Item))
  | 0, _ => none
  | rounds + 1, s =>
    if queue s = [] then some (s, [])
    else
      (levels arrange rounds (level queue visit s).1).map fun rest =>
        (rest.1, arrange (level queue visit s).2 :: rest.2)

/-- A visit takes the front off the queue and may append to it. -/
def Fifo : Prop :=
  ∀ s item rest, queue s = item :: rest → ∃ new, queue (visit s item) = rest ++ new

variable {queue visit}

theorem Fifo.iterate (fifo : Fifo queue visit) (pending : List Item) {more done : List Item}
    {s : State} (hQueue : queue s = pending ++ more) :
    (visitFront queue visit)^[pending.length] (s, done) =
      (pending.foldl visit s, done ++ pending) := by
  induction pending generalizing s more done with
  | nil => simp
  | cons item pending ih =>
    obtain ⟨new, hNew⟩ := fifo s item (pending ++ more) hQueue
    have hFront : visitFront queue visit (s, done) = (visit s item, done ++ [item]) := by
      simp [visitFront, hQueue]
    rw [List.length_cons, Function.iterate_succ_apply, hFront,
      ih (hNew.trans (List.append_assoc ..)), List.foldl_cons, List.append_assoc,
      List.singleton_append]

/-- A level is the queue as it was at its start. -/
theorem Fifo.level_eq (fifo : Fifo queue visit) (s : State) :
    level queue visit s = ((queue s).foldl visit s, queue s) :=
  fifo.iterate (queue s) (List.append_nil _).symm

theorem Fifo.levels_succ (fifo : Fifo queue visit) (arrange : List Item → List Item)
    (rounds : Nat) {s : State} (hQueue : queue s ≠ []) :
    levels queue visit arrange (rounds + 1) s =
      (levels queue visit arrange rounds ((queue s).foldl visit s)).map fun rest =>
        (rest.1, arrange (queue s) :: rest.2) := by
  rw [levels, if_neg hQueue, fifo.level_eq]

theorem levels_nil (arrange : List Item → List Item) (rounds : Nat) {s : State}
    (hQueue : queue s = []) :
    levels queue visit arrange (rounds + 1) s = some (s, []) := by
  rw [levels, if_pos hQueue]

/-- More rounds than needed make no difference. -/
theorem levels_mono {arrange : List Item → List Item} {rounds more : Nat} (h : rounds ≤ more)
    {s : State} {result : State × List (List Item)}
    (hResult : levels queue visit arrange rounds s = some result) :
    levels queue visit arrange more s = some result := by
  induction rounds generalizing more s result with
  | zero => cases hResult
  | succ rounds ih =>
    obtain ⟨more, rfl⟩ := Nat.exists_eq_add_of_le' (Nat.le_of_add_left_le h)
    rw [levels] at hResult ⊢
    split at hResult
    · next hQueue => rwa [if_pos hQueue]
    · next hQueue =>
        rw [if_neg hQueue]
        obtain ⟨rest, hRest, rfl⟩ := Option.map_eq_some_iff.mp hResult
        rw [ih (Nat.le_of_succ_le_succ h) hRest, Option.map_some]

end LevelLoop
