import Mathlib

/-! Interleavings of sequential tasks. When the operations of different tasks
commute, every interleaving has the effect of running the tasks one after the
other, in any order. -/
namespace Interleaving

open List

variable {Item State : Type}

/-- The operations of the tasks, each task in its own order. -/
inductive Trace : List (List Item) → List Item → Prop where
  | done {tasks : List (List Item)} (h : ∀ task ∈ tasks, task = []) : Trace tasks []
  | step {before after : List (List Item)} {item : Item} {rest trace : List Item}
      (later : Trace (before ++ rest :: after) trace) :
      Trace (before ++ (item :: rest) :: after) (item :: trace)

variable {tasks : List (List Item)}

theorem Trace.mem {trace : List Item} (h : Trace tasks trace) {item : Item} (hm : item ∈ trace) :
    ∃ task ∈ tasks, item ∈ task := by
  induction h with
  | done => cases hm
  | step later ih =>
    rcases mem_cons.mp hm with rfl | hm
    · exact ⟨_, mem_append_right _ mem_cons_self, mem_cons_self⟩
    · obtain ⟨task, hTask, hItem⟩ := ih hm
      rcases mem_append.mp hTask with hBefore | hAfter
      · exact ⟨task, mem_append_left _ hBefore, hItem⟩
      rcases mem_cons.mp hAfter with rfl | hAfter
      · exact ⟨_, mem_append_right _ mem_cons_self, mem_cons_of_mem _ hItem⟩
      · exact ⟨task, mem_append_right _ (mem_cons_of_mem _ hAfter), hItem⟩

/-- The operations of two tasks can be exchanged. -/
def Commute (apply : State → Item → State) (task task' : List Item) : Prop :=
  ∀ x ∈ task, ∀ y ∈ task', ∀ state, apply (apply state x) y = apply (apply state y) x

instance (apply : State → Item → State) : Std.Symm (Commute apply) where
  symm := fun _ _ h x hx y hy state => (h y hy x hx state).symm

variable {apply : State → Item → State}

/-- An operation that commutes with all of `items` may come first. -/
theorem foldl_apply {x : Item} {items : List Item}
    (h : ∀ y ∈ items, ∀ state, apply (apply state x) y = apply (apply state y) x) (state : State) :
    items.foldl apply (apply state x) = apply (items.foldl apply state) x := by
  induction items generalizing state with
  | nil => rfl
  | cons y items ih =>
    rw [foldl_cons, foldl_cons, h y mem_cons_self, ih fun z hz => h z (mem_cons_of_mem _ hz)]

theorem foldl_foldl {task task' : List Item} (h : Commute apply task task') (state : State) :
    task'.foldl apply (task.foldl apply state) = task.foldl apply (task'.foldl apply state) := by
  induction task generalizing state with
  | nil => rfl
  | cons x task ih =>
    rw [foldl_cons, foldl_cons, ih fun y hy => h y (mem_cons_of_mem _ hy),
      foldl_apply fun y hy => h x mem_cons_self y hy]

/-- The tasks one after the other. -/
def sequential (apply : State → Item → State) (tasks : List (List Item)) (state : State) : State :=
  tasks.foldl (fun state task => task.foldl apply state) state

theorem sequential_append (apply : State → Item → State) (tasks tasks' : List (List Item))
    (state : State) :
    sequential apply (tasks ++ tasks') state =
      sequential apply tasks' (sequential apply tasks state) :=
  foldl_append

theorem sequential_apply {x : Item}
    (h : ∀ task ∈ tasks, ∀ y ∈ task, ∀ state, apply (apply state x) y = apply (apply state y) x)
    (state : State) :
    sequential apply tasks (apply state x) = apply (sequential apply tasks state) x := by
  induction tasks generalizing state with
  | nil => rfl
  | cons task tasks ih =>
    change sequential apply tasks (task.foldl apply (apply state x)) = _
    rw [foldl_apply (h task mem_cons_self)]
    exact ih (fun other ho => h other (mem_cons_of_mem _ ho)) _

theorem trace_sequential (tasks : List (List Item)) : Trace tasks tasks.flatten := by
  have hCons : ∀ (task : List Item) (tasks : List (List Item)) (trace : List Item),
      Trace tasks trace → Trace (task :: tasks) (task ++ trace) := by
    intro task tasks trace hTrace
    induction task with
    | nil =>
      -- An empty task does not change the traces.
      rw [nil_append]
      induction hTrace with
      | done h => exact .done fun task hm => (mem_cons.mp hm).elim id (h task)
      | @step before after item rest trace _ ih =>
        exact @Trace.step _ ([] :: before) after item rest trace ih
    | cons item task ih => exact @Trace.step _ [] tasks item task (task ++ trace) ih
  induction tasks with
  | nil => exact .done fun _ h => absurd h not_mem_nil
  | cons task tasks ih => exact hCons task tasks _ ih

/-- Every interleaving of commuting tasks has the effect of running them in turn. -/
theorem Trace.foldl_eq {trace : List Item} (hTrace : Trace tasks trace)
    (hCommute : tasks.Pairwise (Commute apply)) (state : State) :
    trace.foldl apply state = sequential apply tasks state := by
  induction hTrace generalizing state with
  | @done tasks h =>
    symm
    unfold sequential
    induction tasks with
    | nil => rfl
    | cons task tasks ih =>
      rw [foldl_cons, h task mem_cons_self]
      exact ih (fun other ho => h other (mem_cons_of_mem _ ho)) (pairwise_cons.mp hCommute).2
  | @step before after item rest trace _ ih =>
    obtain ⟨hBefore, hAfter, hCross⟩ := pairwise_append.mp hCommute
    obtain ⟨hFirst, hRest⟩ := pairwise_cons.mp hAfter
    have hSmaller : (before ++ rest :: after).Pairwise (Commute apply) := by
      refine pairwise_append.mpr ⟨hBefore, pairwise_cons.mpr ⟨fun task ht x hx =>
        hFirst task ht x (mem_cons_of_mem _ hx), hRest⟩, fun task ht other ho => ?_⟩
      rcases mem_cons.mp ho with rfl | ho
      · exact fun x hx y hy => hCross task ht _ mem_cons_self x hx y (mem_cons_of_mem _ hy)
      · exact hCross task ht other (mem_cons_of_mem _ ho)
    -- The first operation of the trace moves behind the tasks before its own.
    have hPast : ∀ task ∈ before, ∀ y ∈ task, ∀ state,
        apply (apply state item) y = apply (apply state y) item :=
      fun task ht y hy state => (hCross task ht _ mem_cons_self y hy item mem_cons_self state).symm
    rw [foldl_cons, ih hSmaller, sequential_append, sequential_append, sequential_apply hPast]
    rfl

theorem sequential_perm {tasks' : List (List Item)} (hPerm : tasks.Perm tasks')
    (hCommute : tasks.Pairwise (Commute apply)) (state : State) :
    sequential apply tasks state = sequential apply tasks' state := by
  refine hPerm.foldl_eq' (fun task ht other ho state => ?_) state
  by_cases hSame : task = other
  · rw [hSame]
  · exact foldl_foldl (hCommute.forall ht ho hSame) state

end Interleaving
