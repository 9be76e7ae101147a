import Mathlib

/-! Computations that end with a value, an error or a panic, and the expansion of a call
graph by such a computation, down to a number of nested calls. The graph may have
cycles: an expansion that ends with a value has visited every node that is reachable. -/
namespace CallTree

open List

/-- How a call ends. -/
inductive Outcome (Err Value : Type) where
  | value (result : Value)
  | error (err : Err)
  | panic
  deriving DecidableEq

namespace Outcome

variable {Err Value Next Item Result : Type}

def bind (first : Outcome Err Value) (next : Value → Outcome Err Next) : Outcome Err Next :=
  match first with
  | .value result => next result
  | .error err => .error err
  | .panic => .panic

instance : Inhabited (Outcome Err Value) := ⟨.panic⟩

instance : Monad (Outcome Err) where
  pure := .value
  bind := Outcome.bind

@[simp] theorem value_bind (result : Value) (next : Value → Outcome Err Next) :
    (Outcome.value result : Outcome Err Value) >>= next = next result := rfl

@[simp] theorem error_bind (err : Err) (next : Value → Outcome Err Next) :
    (Outcome.error err : Outcome Err Value) >>= next = .error err := rfl

@[simp] theorem panic_bind (next : Value → Outcome Err Next) :
    (Outcome.panic : Outcome Err Value) >>= next = .panic := rfl

theorem bind_eq_value {first : Outcome Err Value} {next : Value → Outcome Err Next}
    {result : Next} : first >>= next = .value result ↔
      ∃ mid, first = .value mid ∧ next mid = .value result := by
  cases first with
  | value mid => exact ⟨fun h => ⟨mid, rfl, h⟩, fun ⟨_, h, h'⟩ => by cases h; exact h'⟩
  | error err => exact ⟨fun h => (by cases h), fun ⟨_, h, _⟩ => by cases h⟩
  | panic => exact ⟨fun h => (by cases h), fun ⟨_, h, _⟩ => by cases h⟩

theorem bind_eq_panic {first : Outcome Err Value} {next : Value → Outcome Err Next} :
    first >>= next = .panic ↔ first = .panic ∨ ∃ mid, first = .value mid ∧ next mid = .panic := by
  cases first with
  | value mid => exact ⟨fun h => Or.inr ⟨mid, rfl, h⟩, by
      rintro (h | ⟨_, h, h'⟩)
      · cases h
      · cases h
        exact h'⟩
  | error err => exact ⟨fun h => (by cases h), by
      rintro (h | ⟨_, h, _⟩)
      · cases h
      · cases h⟩
  | panic => exact ⟨fun _ => Or.inl rfl, fun _ => rfl⟩

/-- The results of a list of calls, one after the other, up to the first that fails. -/
def collect [Append Result] [EmptyCollection Result] (call : Item → Outcome Err Result) :
    List Item → Outcome Err Result
  | [] => .value ∅
  | item :: rest => do
      let result ← call item
      let more ← collect call rest
      return result ++ more

/-- A property that parts have or have not. -/
structure Additive [Append Result] [EmptyCollection Result] (holds : Result → Prop) : Prop where
  empty : ¬ holds ∅
  append : ∀ first second, holds (first ++ second) ↔ holds first ∨ holds second

section Collect

variable [Append Result] [EmptyCollection Result] {call : Item → Outcome Err Result}

theorem collect_cons (item : Item) (rest : List Item) : collect call (item :: rest) =
    call item >>= fun result => collect call rest >>= fun more => .value (result ++ more) := rfl

theorem collect_cons_eq_value {item : Item} {rest : List Item} {result : Result} :
    collect call (item :: rest) = .value result ↔ ∃ first more, call item = .value first ∧
      collect call rest = .value more ∧ result = first ++ more := by
  rw [collect_cons]
  simp only [bind_eq_value]
  constructor
  · rintro ⟨first, hFirst, more, hMore, hResult⟩
    exact ⟨first, more, hFirst, hMore, (Outcome.value.inj hResult).symm⟩
  · rintro ⟨first, more, hFirst, hMore, rfl⟩
    exact ⟨first, hFirst, more, hMore, rfl⟩

theorem collect_value {items : List Item} {result : Result}
    (h : collect call items = .value result) :
    (∀ item ∈ items, ∃ own, call item = .value own) ∧ ∀ holds : Result → Prop, Additive holds →
        (holds result ↔ ∃ item ∈ items, ∃ own, call item = .value own ∧ holds own) := by
  induction items generalizing result with
  | nil =>
    cases h
    exact ⟨by simp, fun holds additive => by simp [additive.empty]⟩
  | cons item rest ih =>
    obtain ⟨first, more, hFirst, hMore, rfl⟩ := collect_cons_eq_value.mp h
    obtain ⟨hAll, hParts⟩ := ih hMore
    refine ⟨?_, fun holds additive => ?_⟩
    · intro other hOther
      rcases mem_cons.mp hOther with rfl | hOther
      · exact ⟨first, hFirst⟩
      · exact hAll other hOther
    · rw [additive.append, hParts holds additive]
      simp only [exists_mem_cons_iff, hFirst, Outcome.value.injEq, exists_eq_left']

theorem collect_of_value {items : List Item} (h : ∀ item ∈ items, ∃ own, call item = .value own) :
    ∃ result, collect call items = .value result := by
  induction items with
  | nil => exact ⟨∅, rfl⟩
  | cons item rest ih =>
    obtain ⟨first, hFirst⟩ := h item mem_cons_self
    obtain ⟨more, hMore⟩ := ih fun other hOther => h other (mem_cons_of_mem _ hOther)
    exact ⟨first ++ more, collect_cons_eq_value.mpr ⟨first, more, hFirst, hMore, rfl⟩⟩

theorem collect_eq_panic {items : List Item} :
    collect call items = .panic ↔ ∃ before item after, items = before ++ item :: after ∧
      (∀ other ∈ before, ∃ own, call other = .value own) ∧ call item = .panic := by
  induction items with
  | nil =>
    refine ⟨fun h => (by cases h), ?_⟩
    rintro ⟨before, item, after, h, _⟩
    simp at h
  | cons item rest ih =>
    have hStep : collect call (item :: rest) = .panic ↔ call item = .panic ∨
        ∃ first, call item = .value first ∧ collect call rest = .panic := by
      rw [collect_cons]
      simp only [bind_eq_panic]
      refine or_congr_right (exists_congr fun first => and_congr_right fun _ => ?_)
      refine ⟨?_, Or.inl⟩
      rintro (h | ⟨more, _, h⟩)
      · exact h
      · cases h
    rw [hStep, ih]
    constructor
    · rintro (h | ⟨first, hFirst, before, other, after, rfl, hBefore, hPanic⟩)
      · exact ⟨[], item, rest, rfl, by simp, h⟩
      · refine ⟨item :: before, other, after, rfl, ?_, hPanic⟩
        intro y hy
        rcases mem_cons.mp hy with rfl | hy
        · exact ⟨first, hFirst⟩
        · exact hBefore y hy
    · rintro ⟨before, other, after, hSplit, hBefore, hPanic⟩
      cases before with
      | nil =>
        obtain ⟨rfl, rfl⟩ := cons_eq_cons.mp hSplit
        exact Or.inl hPanic
      | cons head before =>
        obtain ⟨rfl, rfl⟩ := cons_eq_cons.mp hSplit
        obtain ⟨first, hFirst⟩ := hBefore item mem_cons_self
        exact Or.inr ⟨first, hFirst, before, other, after, rfl,
          fun y hy => hBefore y (mem_cons_of_mem _ hy), hPanic⟩

end Collect

end Outcome

/-- What a node contributes itself, and what it calls. A call may have no target. -/
structure Graph (Err Node Call Result : Type) where
  own : Node → Outcome Err Result
  calls : Node → List Call
  target : Call → Except Err Node
  tooDeep : Node → Err

namespace Graph

open Outcome

variable {Err Node Call Result : Type} (g : Graph Err Node Call Result)

/-- A call continues with its target. -/
def enter (call : Call) (next : Node → Outcome Err Result) : Outcome Err Result :=
  match g.target call with
  | .ok callee => next callee
  | .error err => .error err

variable {g} in
theorem enter_eq {call : Call} {next : Node → Outcome Err Result} {outcome : Outcome Err Result}
    (hOutcome : ∀ err, outcome ≠ .error err) : g.enter call next = outcome ↔
      ∃ callee, g.target call = .ok callee ∧ next callee = outcome := by
  rw [enter]
  cases g.target call with
  | ok callee => exact ⟨fun h => ⟨callee, rfl, h⟩, fun ⟨_, h, h'⟩ => by cases h; exact h'⟩
  | error err => exact ⟨fun h => absurd h.symm (hOutcome err), fun ⟨_, h, _⟩ => by cases h⟩

def Edge (node callee : Node) : Prop := ∃ call ∈ g.calls node, g.target call = .ok callee

def Reaches (node callee : Node) : Prop := Relation.ReflTransGen g.Edge node callee

/-- Everything that is reachable contributes, within so many levels. -/
structure Complete (levels : Nat) (node : Node) : Prop where
  own : ∀ reached, g.Reaches node reached → ∃ result, g.own reached = .value result
  target : ∀ reached, g.Reaches node reached → ∀ call ∈ g.calls reached,
    ∃ callee, g.target call = .ok callee
  shallow : ∀ walk, List.IsChain g.Edge (node :: walk) → walk.length ≤ levels

variable {g} in
theorem Complete.of_edge {levels : Nat} {node callee : Node} (h : g.Complete levels node)
    (hEdge : g.Edge node callee) : ∃ fewer, levels = fewer + 1 ∧ g.Complete fewer callee := by
  cases levels with
  | zero =>
    have hShort := h.shallow [callee] (isChain_pair.mpr hEdge)
    simp at hShort
  | succ fewer =>
    refine ⟨fewer, rfl, ?_, ?_, ?_⟩
    · exact fun reached hReach => h.own reached (.head hEdge hReach)
    · exact fun reached hReach => h.target reached (.head hEdge hReach)
    · intro walk hWalk
      exact Nat.le_of_succ_le_succ
        (h.shallow (callee :: walk) (isChain_cons_cons.mpr ⟨hEdge, hWalk⟩))

variable [Append Result] [EmptyCollection Result]

/-- A node and then its calls, if it has any. -/
def visitWith (expand : Node → Outcome Err Result) (node : Node) : Outcome Err Result := do
  let result ← g.own node
  if (g.calls node).isEmpty then return result
  else
    let more ← expand node
    return result ++ more

/-- The calls of a node, with at most so many more levels below them. -/
def expand : Nat → Node → Outcome Err Result
  | 0, node => .error (g.tooDeep node)
  | levels + 1, node =>
    collect (fun call => g.enter call (g.visitWith (expand levels))) (g.calls node)

def visit (levels : Nat) (node : Node) : Outcome Err Result :=
  g.visitWith (g.expand levels) node

variable {g} {levels : Nat} {node callee : Node} {call : Call} {result : Result}

theorem visit_eq_value : g.visit levels node = .value result ↔ ∃ own, g.own node = .value own ∧
    (g.calls node = [] ∧ result = own ∨ g.calls node ≠ [] ∧
      ∃ more, g.expand levels node = .value more ∧ result = own ++ more) := by
  unfold visit visitWith
  rw [bind_eq_value]
  refine exists_congr fun own => and_congr_right fun _ => ?_
  by_cases hCalls : g.calls node = []
  · rw [if_pos (by rw [hCalls]; rfl)]
    constructor
    · intro h
      exact Or.inl ⟨hCalls, (Outcome.value.inj h).symm⟩
    · rintro (⟨_, rfl⟩ | ⟨h, _⟩)
      · rfl
      · exact absurd hCalls h
  · rw [if_neg (by rwa [List.isEmpty_iff]), bind_eq_value]
    constructor
    · rintro ⟨more, hMore, h⟩
      exact Or.inr ⟨hCalls, more, hMore, (Outcome.value.inj h).symm⟩
    · rintro (⟨h, _⟩ | ⟨_, more, hMore, rfl⟩)
      · exact absurd h hCalls
      · exact ⟨more, hMore, rfl⟩

theorem visit_callee (h : g.visit levels node = .value result) (hCall : call ∈ g.calls node) :
    ∃ fewer callee own, levels = fewer + 1 ∧ g.target call = .ok callee ∧
      g.visit fewer callee = .value own := by
  obtain ⟨_, _, ⟨hNil, _⟩ | ⟨_, more, hMore, _⟩⟩ := visit_eq_value.mp h
  · rw [hNil] at hCall
    cases hCall
  · cases levels with
    | zero => cases hMore
    | succ fewer =>
      obtain ⟨own, hOwn⟩ := (collect_value hMore).1 call hCall
      obtain ⟨callee, hTarget, hVisit⟩ := (enter_eq (by simp)).mp hOwn
      exact ⟨fewer, callee, own, rfl, hTarget, hVisit⟩

theorem length_le_of_visit (h : g.visit levels node = .value result) {walk : List Node}
    (hWalk : List.IsChain g.Edge (node :: walk)) : walk.length ≤ levels := by
  induction walk generalizing levels node result with
  | nil => exact Nat.zero_le _
  | cons next walk ih =>
    obtain ⟨⟨call, hCall, hTarget⟩, hRest⟩ := isChain_cons_cons.mp hWalk
    obtain ⟨fewer, callee, own, rfl, hTarget', hVisit⟩ := visit_callee h hCall
    rw [hTarget] at hTarget'
    cases hTarget'
    exact Nat.succ_le_succ (ih hVisit hRest)

/-- Every node that is reachable has been visited. -/
theorem visit_of_reaches (h : g.visit levels node = .value result)
    (hReach : g.Reaches node callee) :
    ∃ fewer own, g.visit fewer callee = .value own := by
  induction hReach with
  | refl => exact ⟨levels, result, h⟩
  | tail _ hEdge ih =>
    obtain ⟨fewer, own, hVisit⟩ := ih
    obtain ⟨call, hCall, hTarget⟩ := hEdge
    obtain ⟨_, _, own', _, hTarget', hVisit'⟩ := visit_callee hVisit hCall
    rw [hTarget] at hTarget'
    cases hTarget'
    exact ⟨_, own', hVisit'⟩

/-- The result consists of what the reachable nodes contribute. -/
theorem visit_value (h : g.visit levels node = .value result) {holds : Result → Prop}
    (additive : Additive holds) :
    holds result ↔ ∃ reached own, g.Reaches node reached ∧ g.own reached = .value own ∧
      holds own := by
  induction levels generalizing node result with
  | zero =>
    obtain ⟨own, hOwn, ⟨hNil, rfl⟩ | ⟨_, more, hMore, _⟩⟩ := visit_eq_value.mp h
    · refine ⟨fun hHolds => ⟨node, _, .refl, hOwn, hHolds⟩, ?_⟩
      rintro ⟨reached, own', hReach, hOwn', hHolds⟩
      rcases Relation.ReflTransGen.cases_head hReach with rfl | ⟨_, ⟨call, hCall, _⟩, _⟩
      · rw [hOwn] at hOwn'
        cases hOwn'
        exact hHolds
      · rw [hNil] at hCall
        cases hCall
    · cases hMore
  | succ levels ih =>
    obtain ⟨own, hOwn, hCases⟩ := visit_eq_value.mp h
    have hCalls : holds result ↔ holds own ∨ ∃ call ∈ g.calls node, ∃ part,
        g.enter call (g.visit levels) = .value part ∧ holds part := by
      rcases hCases with ⟨hNil, rfl⟩ | ⟨_, more, hMore, rfl⟩
      · simp [hNil]
      · rw [additive.append]
        exact or_congr_right ((collect_value hMore).2 holds additive)
    rw [hCalls]
    constructor
    · rintro (hHolds | ⟨call, hCall, part, hPart, hHolds⟩)
      · exact ⟨node, own, .refl, hOwn, hHolds⟩
      · obtain ⟨callee, hTarget, hVisit⟩ := (enter_eq (by simp)).mp hPart
        obtain ⟨reached, own', hReach, hOwn', hHolds'⟩ := (ih hVisit).mp hHolds
        exact ⟨reached, own', .head ⟨call, hCall, hTarget⟩ hReach, hOwn', hHolds'⟩
    · rintro ⟨reached, own', hReach, hOwn', hHolds⟩
      rcases Relation.ReflTransGen.cases_head hReach with rfl | ⟨callee, hEdge, hRest⟩
      · rw [hOwn] at hOwn'
        cases hOwn'
        exact Or.inl hHolds
      · obtain ⟨call, hCall, hTarget⟩ := hEdge
        obtain ⟨fewer, callee', part, hLevels, hTarget', hVisit⟩ := visit_callee h hCall
        obtain rfl : levels = fewer := Nat.succ.inj hLevels
        rw [hTarget] at hTarget'
        cases hTarget'
        exact Or.inr ⟨call, hCall, part, (enter_eq (by simp)).mpr ⟨callee, hTarget, hVisit⟩,
          (ih hVisit).mpr ⟨reached, own', hRest, hOwn', hHolds⟩⟩

theorem visit_of_complete (h : g.Complete levels node) :
    ∃ result, g.visit levels node = .value result := by
  induction levels generalizing node with
  | zero =>
    obtain ⟨own, hOwn⟩ := h.own node .refl
    refine ⟨own, visit_eq_value.mpr ⟨own, hOwn, Or.inl ⟨?_, rfl⟩⟩⟩
    refine eq_nil_iff_forall_not_mem.mpr fun call hCall => ?_
    obtain ⟨callee, hTarget⟩ := h.target node .refl call hCall
    obtain ⟨_, hLevels, _⟩ := h.of_edge ⟨call, hCall, hTarget⟩
    cases hLevels
  | succ levels ih =>
    obtain ⟨own, hOwn⟩ := h.own node .refl
    have hCalls : ∀ call ∈ g.calls node,
        ∃ part, g.enter call (g.visitWith (g.expand levels)) = .value part := by
      intro call hCall
      obtain ⟨callee, hTarget⟩ := h.target node .refl call hCall
      obtain ⟨fewer, hLevels, hComplete⟩ := h.of_edge ⟨call, hCall, hTarget⟩
      obtain rfl : levels = fewer := Nat.succ.inj hLevels
      obtain ⟨part, hPart⟩ := ih hComplete
      exact ⟨part, (enter_eq (by simp)).mpr ⟨callee, hTarget, hPart⟩⟩
    obtain ⟨more, hMore⟩ := collect_of_value hCalls
    by_cases hNil : g.calls node = []
    · exact ⟨own, visit_eq_value.mpr ⟨own, hOwn, Or.inl ⟨hNil, rfl⟩⟩⟩
    · exact ⟨own ++ more, visit_eq_value.mpr ⟨own, hOwn, Or.inr ⟨hNil, more, hMore, rfl⟩⟩⟩

theorem complete_of_visit (h : g.visit levels node = .value result) :
    g.Complete levels node := by
  refine ⟨fun reached hReach => ?_, fun reached hReach call hCall => ?_,
    fun walk hWalk => length_le_of_visit h hWalk⟩
  · obtain ⟨_, _, hVisit⟩ := visit_of_reaches h hReach
    obtain ⟨own, hOwn, _⟩ := visit_eq_value.mp hVisit
    exact ⟨own, hOwn⟩
  · obtain ⟨_, _, hVisit⟩ := visit_of_reaches h hReach
    obtain ⟨_, callee, _, _, hTarget, _⟩ := visit_callee hVisit hCall
    exact ⟨callee, hTarget⟩

/-- The expansion comes to a node that panics, everything before it being complete. -/
inductive Crashes (g : Graph Err Node Call Result) : Nat → Node → Prop where
  | own {levels : Nat} {node : Node} (h : g.own node = .panic) : Crashes g levels node
  | call {levels : Nat} {node callee : Node} {result : Result} {before after : List Call}
      {call : Call} (hOwn : g.own node = .value result)
      (hCalls : g.calls node = before ++ call :: after)
      (hBefore : ∀ other ∈ before, ∃ callee, g.target other = .ok callee ∧ g.Complete levels callee)
      (hTarget : g.target call = .ok callee) (hCrash : Crashes g levels callee) :
      Crashes g (levels + 1) node

theorem enter_of_complete : (∃ part, g.enter call (g.visit levels) = .value part) ↔
    ∃ callee, g.target call = .ok callee ∧ g.Complete levels callee := by
  constructor
  · rintro ⟨part, hPart⟩
    obtain ⟨callee, hTarget, hVisit⟩ := (enter_eq (by simp)).mp hPart
    exact ⟨callee, hTarget, complete_of_visit hVisit⟩
  · rintro ⟨callee, hTarget, hComplete⟩
    obtain ⟨part, hPart⟩ := visit_of_complete hComplete
    exact ⟨part, (enter_eq (by simp)).mpr ⟨callee, hTarget, hPart⟩⟩

theorem visit_eq_panic : g.visit levels node = .panic ↔ g.Crashes levels node := by
  have hVisit : ∀ levels node, g.visit levels node = .panic ↔ g.own node = .panic ∨
      ∃ own, g.own node = .value own ∧ g.calls node ≠ [] ∧ g.expand levels node = .panic := by
    intro levels node
    unfold visit visitWith
    rw [bind_eq_panic]
    refine or_congr_right (exists_congr fun own => and_congr_right fun _ => ?_)
    by_cases hCalls : g.calls node = []
    · rw [if_pos (by rw [hCalls]; rfl)]
      exact ⟨fun h => (by cases h), fun h => absurd hCalls h.1⟩
    · rw [if_neg (by rwa [List.isEmpty_iff]), bind_eq_panic]
      constructor
      · rintro (h | ⟨_, _, h⟩)
        · exact ⟨hCalls, h⟩
        · cases h
      · exact fun h => Or.inl h.2
  constructor
  · intro h
    induction levels generalizing node with
    | zero =>
      rcases (hVisit 0 node).mp h with hOwn | ⟨_, _, _, hExpand⟩
      · exact .own hOwn
      · cases hExpand
    | succ levels ih =>
      rcases (hVisit _ node).mp h with hOwn | ⟨own, hOwn, _, hExpand⟩
      · exact .own hOwn
      · obtain ⟨before, call, after, hCalls, hBefore, hPanic⟩ := collect_eq_panic.mp hExpand
        obtain ⟨callee, hTarget, hPanic⟩ := (enter_eq (by simp)).mp hPanic
        exact .call hOwn hCalls (fun other hOther => enter_of_complete.mp (hBefore other hOther))
          hTarget (ih hPanic)
  · intro h
    induction h with
    | own h => exact (hVisit _ _).mpr (Or.inl h)
    | call hOwn hCalls hBefore hTarget _ ih =>
      refine (hVisit _ _).mpr (Or.inr ⟨_, hOwn, ?_, ?_⟩)
      · rw [hCalls]
        simp
      · exact collect_eq_panic.mpr ⟨_, _, _, hCalls,
          fun other hOther => enter_of_complete.mpr (hBefore other hOther),
          (enter_eq (by simp)).mpr ⟨_, hTarget, ih⟩⟩

end Graph

end CallTree
