import Mathlib

/-! A store with nested regions that can be undone. Entering a region saves the
store, leaving it keeps what was written, undoing it brings the saved store back. A
log beside the store records every write and undoes none. -/
namespace Rollback

open Function List

variable {Key Value : Type*}

inductive Op (Key Value : Type*) where
  | write (key : Key) (value : Value)
  | enter
  | leave
  | undo

/-- `saved` are the stores with which the open regions were entered, the innermost first. -/
structure State (Key Value : Type*) where
  current : Key → Value
  saved : List (Key → Value)

/-- The store that `ops` brings back in the end, if they undo a region that was open
before them. `saved` belongs to the regions open before, `depth` counts those entered since. -/
def restored : List (Key → Value) → Nat → List (Op Key Value) → Option (Key → Value)
  | _, _, [] => none
  | saved, depth, .write _ _ :: ops => restored saved depth ops
  | saved, depth, .enter :: ops => restored saved (depth + 1) ops
  | saved, 0, .leave :: ops => restored saved.tail 0 ops
  | saved, depth + 1, .leave :: ops => restored saved depth ops
  | saved, 0, .undo :: ops => (restored saved.tail 0 ops).or saved.head?
  | saved, depth + 1, .undo :: ops => restored saved depth ops

variable {ops : List (Op Key Value)}

theorem restored_of_no_undo (h : .undo ∉ ops) (saved : List (Key → Value)) (depth : Nat) :
    restored saved depth ops = none := by
  induction ops generalizing saved depth with
  | nil => rfl
  | cons op ops ih =>
    have hRest : .undo ∉ ops := fun hm => h (mem_cons_of_mem _ hm)
    cases op with
    | write key value => exact ih hRest saved depth
    | enter => exact ih hRest saved (depth + 1)
    | leave =>
      cases depth with
      | zero => exact ih hRest saved.tail 0
      | succ depth => exact ih hRest saved depth
    | undo => exact absurd mem_cons_self h

variable [DecidableEq Key]

def State.step (s : State Key Value) : Op Key Value → State Key Value
  | .write key value => { s with current := update s.current key value }
  | .enter => { s with saved := s.current :: s.saved }
  | .leave => { s with saved := s.saved.tail }
  | .undo => ⟨s.saved.head?.getD s.current, s.saved.tail⟩

def State.run (s : State Key Value) (ops : List (Op Key Value)) : State Key Value :=
  ops.foldl State.step s

/-- What the log of all writes has for each key. -/
def record (written : Key → Option Value) : Op Key Value → Key → Option Value
  | .write key value => update written key (some value)
  | _ => written

theorem State.run_cons (s : State Key Value) (op : Op Key Value) (ops : List (Op Key Value)) :
    s.run (op :: ops) = (s.step op).run ops :=
  rfl

/-- A key that is not written again keeps its value, unless a region around the last
write is undone. The regions entered since, `inner`, do not matter. -/
theorem State.run_current {key : Key} (hLast : ∀ value, .write key value ∉ ops)
    (current : Key → Value) (inner outer : List (Key → Value))
    (hInner : ∀ store ∈ inner, store key = current key) :
    (State.run ⟨current, inner ++ outer⟩ ops).current key =
      ((restored outer inner.length ops).getD current) key := by
  induction ops generalizing current inner outer with
  | nil => rfl
  | cons op ops ih =>
    have hRest : ∀ value, .write key value ∉ ops :=
      fun value h => hLast value (mem_cons_of_mem _ h)
    have hValue : ∀ (found : Option (Key → Value)) (a b : Key → Value), a key = b key →
        (found.getD a) key = (found.getD b) key := by
      intro found a b h
      cases found with
      | none => exact h
      | some store => rfl
    rw [State.run_cons]
    cases op with
    | write other v =>
      have hne : key ≠ other := fun h => hLast v (h ▸ mem_cons_self)
      have hSame : update current other v key = current key :=
        update_of_ne hne ..
      refine (ih hRest _ inner outer fun store hm => ?_).trans (hValue _ _ _ hSame)
      exact (hInner store hm).trans hSame.symm
    | enter =>
      refine ih hRest current (current :: inner) outer fun store hm => ?_
      rcases mem_cons.mp hm with rfl | hm
      · rfl
      · exact hInner store hm
    | leave =>
      cases inner with
      | nil => exact ih hRest current [] outer.tail (by simp)
      | cons store inner =>
        exact ih hRest current inner outer fun store' hm => hInner store' (mem_cons_of_mem _ hm)
    | undo =>
      cases inner with
      | nil =>
        cases outer with
        | nil =>
          have h := ih hRest current [] [] (by simp)
          simpa [restored, State.step] using h
        | cons store outer =>
          have h := ih hRest store [] outer (by simp)
          refine h.trans ?_
          simp only [restored, tail_cons, head?_cons, length_nil]
          cases restored outer 0 ops with
          | none => rfl
          | some found => rfl
      | cons store inner =>
        have hStore := hInner store mem_cons_self
        refine (ih hRest store inner outer fun store' hm => ?_).trans (hValue _ _ _ hStore)
        exact (hInner store' (mem_cons_of_mem _ hm)).trans hStore.symm

/-- A key that is never written keeps its value. -/
theorem State.run_of_not_written {key : Key} (hNever : ∀ value, .write key value ∉ ops)
    {s : State Key Value} (hSaved : ∀ store ∈ s.saved, store key = s.current key) :
    (s.run ops).current key = s.current key := by
  have hNone : ∀ (depth : Nat) (ops : List (Op Key Value)), restored [] depth ops = none := by
    intro depth ops
    induction ops generalizing depth with
    | nil => rfl
    | cons op ops ih => cases op <;> cases depth <;> simp [restored, ih]
  have h := State.run_current hNever s.current s.saved [] hSaved
  rw [hNone, append_nil] at h
  exact h

/-- Two stores that agree on some keys, also in what is saved. -/
def Agree (keys : Set Key) (s s' : State Key Value) : Prop :=
  Set.EqOn s.current s'.current keys ∧ List.Forall₂ (fun a b => Set.EqOn a b keys) s.saved s'.saved

theorem Agree.step {keys : Set Key} {s s' : State Key Value} (h : Agree keys s s')
    (op : Op Key Value) : Agree keys (s.step op) (s'.step op) := by
  obtain ⟨current, saved⟩ := s
  obtain ⟨current', saved'⟩ := s'
  obtain ⟨hCurrent, hSaved⟩ := h
  cases op with
  | write key value =>
    refine ⟨fun k hk => ?_, hSaved⟩
    by_cases hKey : k = key
    · subst hKey
      simp [State.step]
    · simpa [State.step, hKey] using hCurrent hk
  | enter => exact ⟨hCurrent, .cons hCurrent hSaved⟩
  | leave =>
    cases hSaved with
    | nil => exact ⟨hCurrent, .nil⟩
    | cons hStore hRest => exact ⟨hCurrent, hRest⟩
  | undo =>
    cases hSaved with
    | nil => exact ⟨hCurrent, .nil⟩
    | cons hStore hRest => exact ⟨hStore, hRest⟩

theorem Agree.run {keys : Set Key} {s s' : State Key Value} (h : Agree keys s s')
    (ops : List (Op Key Value)) : Agree keys (s.run ops) (s'.run ops) := by
  induction ops generalizing s s' with
  | nil => exact h
  | cons op ops ih => exact ih (h.step op)

theorem record_eq_some {key : Key} {value : Value}
    (h : ops.foldl record (fun _ => none) key = some value) :
    ∃ before after, ops = before ++ .write key value :: after ∧
      ∀ later, .write key later ∉ after := by
  induction ops using List.reverseRecOn with
  | nil => cases h
  | append_singleton ops op ih =>
    have hEarlier : (∀ later, op ≠ .write key later) →
        ops.foldl record (fun _ => none) key = some value →
        ∃ before after, ops ++ [op] = before ++ .write key value :: after ∧
          ∀ later, .write key later ∉ after := by
      intro hOther hBefore
      obtain ⟨before, after, hOps, hLast⟩ := ih hBefore
      refine ⟨before, after ++ [op], by rw [hOps]; simp, fun later hm => ?_⟩
      rcases mem_append.mp hm with hm | hm
      · exact hLast later hm
      · exact hOther later (mem_singleton.mp hm).symm
    rw [foldl_append] at h
    cases op with
    | write other v =>
      by_cases hKey : key = other
      · subst hKey
        have hv : record _ (.write key v) key = some value := h
        rw [record, update_self] at hv
        cases hv
        exact ⟨ops, [], rfl, by simp⟩
      · refine hEarlier (fun later hEq => ?_) ((update_of_ne hKey ..).symm.trans h)
        cases hEq
        exact hKey rfl
    | enter | leave | undo => exact hEarlier (by simp) h

/-- The value in the store, for a recorded one: the store that is brought back decides
after the last write, and without one the record is right. -/
theorem State.run_of_record (s : State Key Value) {key : Key} {value : Value}
    (h : ops.foldl record (fun _ => none) key = some value) :
    ∃ before after, ops = before ++ .write key value :: after ∧ (s.run ops).current key =
        ((restored (s.run before).saved 0 after).map fun store => store key).getD value := by
  obtain ⟨before, after, rfl, hLast⟩ := record_eq_some h
  refine ⟨before, after, rfl, ?_⟩
  have hRun : s.run (before ++ .write key value :: after) =
      State.run ⟨update (s.run before).current key value, (s.run before).saved⟩ after :=
    foldl_append
  rw [hRun]
  refine (State.run_current hLast _ [] _ (by simp)).trans ?_
  cases restored (s.run before).saved 0 after with
  | none => exact update_self ..
  | some store => rfl

end Rollback
