import NezhaConcurrency.Evm.StructLogger

/-! Contract code as an adaptive program over the storage. Two machines run the same
events if their states agree on the slots that the program loads. -/
namespace Nezha

/-- The code of one call, with that of the frames it opens. The next event depends only
on the values loaded so far. -/
inductive Program where
  | sload (slot : Word) (next : Word → Program)
  | sstore (slot value : Word) (rest : Program)
  | call (addr : Address) (rest : Program)
  | ret (rest : Program)
  | revert (rest : Program)
  | done

/-- What a load of the running code sees. -/
def EVM.load (evm : EVM) (slot : Word) : Word :=
  match evm.frames with
  | [] => 0
  | addr :: _ => evm.stateDB.current (addr, slot)

/-- The events of a program on a machine. -/
def Program.trace : Program → EVM → List Event
  | .sload slot next, evm => .sload slot :: (next (evm.load slot)).trace (evm.step (.sload slot))
  | .sstore slot value rest, evm =>
    .sstore slot value :: rest.trace (evm.step (.sstore slot value))
  | .call addr rest, evm => .call addr :: rest.trace (evm.step (.call addr))
  | .ret rest, evm => .ret :: rest.trace (evm.step .ret)
  | .revert rest, evm => .revert :: rest.trace (evm.step .revert)
  | .done, _ => []

namespace EVM

/-- Machines that differ at most in the slots outside `keys`. -/
structure Agree (keys : Set (Address × Word)) (evm evm' : EVM) : Prop where
  stateDB : Rollback.Agree keys evm.stateDB evm'.stateDB
  frames : evm'.frames = evm.frames
  structLogger : evm'.structLogger = evm.structLogger
  vmerr : evm'.vmerr = evm.vmerr

theorem loads_cons (evm : EVM) (event : Event) (trace : List Event) :
    loads evm.frames (event :: trace) =
      loads evm.frames [event] ++ loads (evm.step event).frames trace := by
  cases hFrames : evm.frames with
  | nil =>
    rw [step_of_no_frame hFrames, hFrames]
    simp only [loads, along, List.append_nil]
  | cons addr callers =>
    have hEnd : loads (event.frames addr callers) [] = [] := by
      cases event.frames addr callers <;> rfl
    rw [step_of_frame hFrames]
    simp only [loads, along] at hEnd ⊢
    rw [hEnd, List.append_nil]

variable {keys : Set (Address × Word)} {evm evm' : EVM}

theorem Agree.load (h : Agree keys evm evm') {slot : Word}
    (hLoads : ∀ key ∈ loads evm.frames [.sload slot], key ∈ keys) :
    evm'.load slot = evm.load slot := by
  rw [EVM.load, EVM.load, h.frames]
  cases hFrames : evm.frames with
  | nil => rfl
  | cons addr callers =>
    rw [hFrames] at hLoads
    exact (h.stateDB.1 (hLoads (addr, slot) List.mem_cons_self)).symm

theorem Agree.step (h : Agree keys evm evm') {event : Event}
    (hLoads : ∀ key ∈ loads evm.frames [event], key ∈ keys) :
    Agree keys (evm.step event) (evm'.step event) := by
  cases hFrames : evm.frames with
  | nil =>
    rw [step_of_no_frame hFrames, step_of_no_frame (h.frames.trans hFrames)]
    exact h
  | cons addr callers =>
    rw [step_of_frame hFrames, step_of_frame (h.frames.trans hFrames)]
    refine ⟨h.stateDB.run _, rfl, ?_, rfl⟩
    simp only [h.structLogger]
    cases event with
    | sload slot =>
      rw [hFrames] at hLoads
      have hValue := h.stateDB.1 (hLoads (addr, slot) List.mem_cons_self)
      simp only [StructLogger.CaptureState, hValue]
    | sstore | call | ret | revert => rfl

end EVM

theorem Program.trace_congr {keys : Set (Address × Word)} (program : Program) {evm evm' : EVM}
    (h : EVM.Agree keys evm evm')
    (hLoads : ∀ key ∈ EVM.loads evm.frames (program.trace evm), key ∈ keys) :
    program.trace evm' = program.trace evm ∧
      EVM.Agree keys (evm.run (program.trace evm)) (evm'.run (program.trace evm)) := by
  -- each constructor is one event, followed by a program on the machines after it
  have hCons : ∀ (rest : Program) (event : Event) {evm evm' : EVM}, EVM.Agree keys evm evm' →
      (∀ key ∈ EVM.loads evm.frames (event :: rest.trace (evm.step event)), key ∈ keys) →
      (∀ {evm evm' : EVM}, EVM.Agree keys evm evm' →
        (∀ key ∈ EVM.loads evm.frames (rest.trace evm), key ∈ keys) →
        rest.trace evm' = rest.trace evm ∧
          EVM.Agree keys (evm.run (rest.trace evm)) (evm'.run (rest.trace evm))) →
      event :: rest.trace (evm'.step event) = event :: rest.trace (evm.step event) ∧
        EVM.Agree keys (evm.run (event :: rest.trace (evm.step event)))
          (evm'.run (event :: rest.trace (evm.step event))) := by
    intro rest event evm evm' h hLoads ih
    rw [EVM.loads_cons] at hLoads
    have hNext := h.step fun key hm => hLoads key (List.mem_append_left _ hm)
    obtain ⟨hTrace, hRun⟩ := ih hNext fun key hm => hLoads key (List.mem_append_right _ hm)
    exact ⟨congrArg _ hTrace, hRun⟩
  induction program generalizing evm evm' with
  | sload slot next ih =>
    have hFirst : ∀ key ∈ EVM.loads evm.frames [.sload slot], key ∈ keys := by
      intro key hm
      rw [Program.trace, EVM.loads_cons] at hLoads
      exact hLoads key (List.mem_append_left _ hm)
    simp only [Program.trace, h.load hFirst]
    exact hCons _ _ h hLoads (ih _)
  | sstore slot value rest ih => exact hCons rest _ h hLoads ih
  | call addr rest ih => exact hCons rest _ h hLoads ih
  | ret rest ih => exact hCons rest _ h hLoads ih
  | revert rest ih => exact hCons rest _ h hLoads ih
  | done => exact ⟨rfl, h⟩

end Nezha
