import Mathlib

/-! Counting moves along a run. Each party of a system stands at a place, and a step
takes parties from place to place. Moves of certain kinds are counted for every party.
Where a place tells how many of these moves a party has behind it, the counts of a run
are read off the places at its end. -/
namespace Tally

variable {State Party Place Kind : Type} {step : State → State → Prop}
  {place : State → Party → Place} {makes : Kind → Place → Place → Bool}

/-- The counts after a step. -/
def observe (place : State → Party → Place) (makes : Kind → Place → Place → Bool)
    (counts : Kind → Party → Nat) (s s' : State) : Kind → Party → Nat :=
  fun kind party => counts kind party + (makes kind (place s party) (place s' party)).toNat

/-- A step with its moves counted. -/
def Counted (step : State → State → Prop) (place : State → Party → Place)
    (makes : Kind → Place → Place → Bool) (before after : State × (Kind → Party → Nat)) : Prop :=
  step before.1 after.1 ∧ after.2 = observe place makes before.2 before.1 after.1

theorem exists_counted {s s' : State} (run : Relation.ReflTransGen step s s')
    (counts : Kind → Party → Nat) :
    ∃ counts', Relation.ReflTransGen (Counted step place makes) (s, counts) (s', counts') := by
  induction run with
  | refl => exact ⟨counts, .refl⟩
  | tail _ last ih =>
    obtain ⟨counts', hRun⟩ := ih
    exact ⟨observe place makes counts' _ _, hRun.tail ⟨last, rfl⟩⟩

variable {before after : State × (Kind → Party → Nat)}

/-- Counting does not change what a run does. -/
theorem run_of_counted (run : Relation.ReflTransGen (Counted step place makes) before after) :
    Relation.ReflTransGen step before.1 after.1 := by
  induction run with
  | refl => exact .refl
  | tail _ last ih => exact ih.tail last.1

/-- A quantity that every step raises by its moves of some kinds is raised by a run by
what is counted. -/
theorem total_of_run (kinds : List Kind) (quantity : State → Party → Nat)
    (law : ∀ s s', Relation.ReflTransGen step before.1 s → step s s' → ∀ party, quantity s' party = quantity s party + (kinds.map fun kind => (makes kind (place s party) (place s' party)).toNat).sum)
    (run : Relation.ReflTransGen (Counted step place makes) before after) (party : Party) :
    (kinds.map fun kind => after.2 kind party).sum + quantity before.1 party =
      (kinds.map fun kind => before.2 kind party).sum + quantity after.1 party := by
  induction run with
  | refl => rfl
  | @tail middle after run last ih =>
    obtain ⟨hStep, hCounts⟩ := last
    have hRaise := law _ _ (run_of_counted run) hStep party
    have hSum : (kinds.map fun kind => after.2 kind party).sum =
        (kinds.map fun kind => middle.2 kind party).sum + (kinds.map fun kind =>
          (makes kind (place middle.1 party) (place after.1 party)).toNat).sum := by
      rw [hCounts, ← List.sum_map_add]
      rfl
    omega

theorem count_of_run (kind : Kind) (quantity : State → Party → Nat)
    (law : ∀ s s', Relation.ReflTransGen step before.1 s → step s s' → ∀ party, quantity s' party = quantity s party + (makes kind (place s party) (place s' party)).toNat)
    (run : Relation.ReflTransGen (Counted step place makes) before after) (party : Party) :
    after.2 kind party + quantity before.1 party =
      before.2 kind party + quantity after.1 party := by
  have hTotal := total_of_run [kind] quantity (fun s s' hRun hStep party => by
    simpa using law s s' hRun hStep party) run party
  simpa using hTotal

/-- When one party moves, what holds of standing still and of that move holds of all. -/
theorem forall_of_update [DecidableEq Party] (related : Place → Place → Prop)
    (still : ∀ p, related p p) {before after : Party → Place} {mover : Party} {next : Place}
    (hAfter : after = Function.update before mover next) (hMove : related (before mover) next)
    (party : Party) : related (before party) (after party) := by
  rw [hAfter]
  by_cases h : party = mover
  · rw [h, Function.update_self]
    exact hMove
  · rw [Function.update_of_ne h]
    exact still _

end Tally
