import NezhaConcurrency.Library.Rollback
import NezhaConcurrency.State.SharedTrie

/-! Executions of the EVM and what the read/write logger captures of them. The state
obeys the frames, a frame that reverts undoes its writes. The logger watches the
opcodes before they run and takes nothing back. -/
namespace Nezha

open Function List

abbrev Word := BitVec 256

/-- The storage slots of all contracts. -/
abbrev Slots := Address × Word → Word

/-- A Go map from slots to values. -/
abbrev Storage := AList fun _ : Word => Word

/-- What an execution does to the storage and to the frames. A failing opcode is
captured before it fails, so it is the opcode followed by `revert`. -/
inductive Event where
  | sload (slot : Word)
  | sstore (slot value : Word)
  | call (addr : Address)
  | ret
  | revert
  deriving DecidableEq

/-- What an event does to the state, in a frame of the contract at `addr`. -/
def Event.ops (addr : Address) : Event → List (Rollback.Op (Address × Word) Word)
  | .sload _ => []
  | .sstore slot value => [.write (addr, slot) value]
  | .call _ => [.enter]
  | .ret => [.leave]
  | .revert => [.undo]

/-- The frames after an event in a frame of `addr`. -/
def Event.frames (addr : Address) (callers : List Address) : Event → List Address
  | .call callee => callee :: addr :: callers
  | .ret => callers
  | .revert => callers
  | _ => addr :: callers

def Event.loads (addr : Address) : Event → List (Address × Word)
  | .sload slot => [(addr, slot)]
  | _ => []

def Event.stores (addr : Address) : Event → List (Address × Word)
  | .sstore slot _ => [(addr, slot)]
  | _ => []

/-- The maps of an address that ran no code are empty. -/
structure StructLogger where
  readValues : Address → Storage
  changedValues : Address → Storage

namespace StructLogger

def NewRWSetLogger : StructLogger where
  readValues := fun _ => ∅
  changedValues := fun _ => ∅

/-- One entry of the maps of all contracts, over an earlier one. -/
def setValue (values : Address → Storage) (addr : Address) (slot value : Word) :
    Address → Storage :=
  update values addr ((values addr).insert slot value)

def CaptureState (l : StructLogger) (stateDB : Slots) (addr : Address) : Event → StructLogger
  | .sload slot => { l with readValues := setValue l.readValues addr slot (stateDB (addr, slot)) }
  | .sstore slot value => { l with changedValues := setValue l.changedValues addr slot value }
  | _ => l

def RWSetCapture (l : StructLogger) (addr : Address) : Storage × Storage :=
  (l.readValues addr, l.changedValues addr)

theorem lookup_setValue (values : Address → Storage) (addr : Address) (slot value : Word) :
    (fun key : Address × Word => (setValue values addr slot value key.1).lookup key.2) =
      update (fun key : Address × Word => (values key.1).lookup key.2) (addr, slot)
        (some value) := by
  funext ⟨other, k⟩
  by_cases hAddr : other = addr
  · subst hAddr
    by_cases hSlot : k = slot
    · subst hSlot
      simp [setValue]
    · rw [update_of_ne (by simp [hSlot])]
      simp [setValue, AList.lookup_insert_ne hSlot]
  · rw [update_of_ne (by simp [hAddr])]
    simp [setValue, update_of_ne hAddr]

theorem mem_setValue (values : Address → Storage) (self : Address) (k value : Word)
    (addr : Address) (slot : Word) :
    slot ∈ setValue values self k value addr ↔ (addr, slot) ∈ [(self, k)] ∨ slot ∈ values addr := by
  by_cases hAddr : addr = self
  · subst hAddr
    simp [setValue]
  · simp [setValue, hAddr]

end StructLogger

/-- An execution in progress. `frames` are the contracts whose code runs, the innermost
first; `vmerr` says that the outermost frame has reverted. -/
structure EVM where
  stateDB : Rollback.State (Address × Word) Word
  frames : List Address
  structLogger : StructLogger
  vmerr : Bool

namespace EVM

/-- The outermost frame is entered with a snapshot, as any other. -/
def start (stateDB : Slots) (addr : Address) : EVM where
  stateDB := ⟨stateDB, [stateDB]⟩
  frames := [addr]
  structLogger := StructLogger.NewRWSetLogger
  vmerr := false

/-- Without a frame no code runs. -/
def step (evm : EVM) (event : Event) : EVM :=
  match evm.frames with
  | [] => evm
  | addr :: callers =>
    { stateDB := evm.stateDB.run (event.ops addr)
      frames := event.frames addr callers
      structLogger := evm.structLogger.CaptureState evm.stateDB.current addr event
      vmerr := decide (event = .revert) && callers.isEmpty }

def run (evm : EVM) (trace : List Event) : EVM := trace.foldl step evm

/-- `evm.Call` on a contract. -/
def Call (stateDB : Slots) (addr : Address) (trace : List Event) : EVM :=
  (start stateDB addr).run trace

/-- What the events of a trace amount to, each in its frame. -/
def along {α : Type} (f : Address → Event → List α) : List Address → List Event → List α
  | [], _ => []
  | _ :: _, [] => []
  | addr :: callers, event :: trace =>
    f addr event ++ along f (event.frames addr callers) trace

variable {evm : EVM}

theorem step_of_no_frame (h : evm.frames = []) (event : Event) : evm.step event = evm := by
  rw [step, h]

theorem step_of_frame {addr : Address} {callers : List Address} (h : evm.frames = addr :: callers)
    (event : Event) :
    evm.step event =
      { stateDB := evm.stateDB.run (event.ops addr)
        frames := event.frames addr callers
        structLogger := evm.structLogger.CaptureState evm.stateDB.current addr event
        vmerr := decide (event = .revert) && callers.isEmpty } := by
  rw [step, h]

theorem run_of_no_frame (h : evm.frames = []) (trace : List Event) : evm.run trace = evm := by
  induction trace with
  | nil => rfl
  | cons event trace ih =>
    rw [run, foldl_cons, step_of_no_frame h]
    exact ih

/-- A part of the machine that each event changes by a fold is changed by the fold over
the whole trace. -/
theorem run_along {α β : Type} (f : Address → Event → List α) (part : EVM → β) (change : β → α → β)
    (hStep : ∀ (evm : EVM) (event : Event) (addr : Address) (callers : List Address),
      evm.frames = addr :: callers → part (evm.step event) = (f addr event).foldl change (part evm))
    (evm : EVM) (trace : List Event) :
    part (evm.run trace) = (along f evm.frames trace).foldl change (part evm) := by
  induction trace generalizing evm with
  | nil => cases hFrames : evm.frames <;> rfl
  | cons event trace ih =>
    cases hFrames : evm.frames with
    | nil =>
      rw [run_of_no_frame hFrames]
      rfl
    | cons addr callers =>
      have hNext : (evm.step event).frames = event.frames addr callers := by
        rw [step_of_frame hFrames]
      rw [along, foldl_append, ← hStep evm event addr callers hFrames, ← hNext]
      exact ih (evm.step event)

/-- The writes and the frames of a trace. -/
def ops : List Address → List Event → List (Rollback.Op (Address × Word) Word) :=
  along Event.ops

/-- The slots that a trace loads. -/
def loads : List Address → List Event → List (Address × Word) := along Event.loads

/-- The slots that a trace stores to. -/
def stores : List Address → List Event → List (Address × Word) := along Event.stores

theorem stateDB_run (evm : EVM) (trace : List Event) :
    (evm.run trace).stateDB = evm.stateDB.run (ops evm.frames trace) :=
  run_along Event.ops stateDB Rollback.State.step
    (fun evm event addr callers hFrames => by rw [step_of_frame hFrames]; rfl) evm trace

theorem mem_stores_of_write {frames : List Address} {trace : List Event} {key : Address × Word}
    {value : Word} (h : .write key value ∈ ops frames trace) : key ∈ stores frames trace := by
  induction trace generalizing frames with
  | nil => cases frames <;> simp [ops, along] at h
  | cons event trace ih =>
    cases frames with
    | nil => simp [ops, along] at h
    | cons addr callers =>
      rw [stores, along, mem_append]
      rcases mem_append.mp h with hEvent | hLater
      · cases event <;> simp_all [Event.ops, Event.stores]
      · exact Or.inr (ih hLater)

theorem current_of_not_stored {self : Address} {trace : List Event} {key : Address × Word}
    (h : key ∉ stores [self] trace) (pre : Slots) :
    (Call pre self trace).stateDB.current key = pre key := by
  rw [Call, stateDB_run]
  refine Rollback.State.run_of_not_written (fun value hm => h (mem_stores_of_write hm)) ?_
  intro store hm
  rw [mem_singleton.mp hm]
  rfl

/-- The logger has the last value stored to each slot, whether a frame reverted or not. -/
theorem changedValues_run (evm : EVM) (trace : List Event) (addr : Address) (slot : Word) :
    ((evm.run trace).structLogger.changedValues addr).lookup slot =
      (ops evm.frames trace).foldl Rollback.record
        (fun key => (evm.structLogger.changedValues key.1).lookup key.2) (addr, slot) := by
  refine congrFun (run_along Event.ops
    (fun evm key => (evm.structLogger.changedValues key.1).lookup key.2)
    Rollback.record ?_ evm trace) (addr, slot)
  intro evm event self callers hFrames
  rw [step_of_frame hFrames]
  cases event with
  | sstore slot value => exact StructLogger.lookup_setValue _ self slot value
  | sload | call | ret | revert => rfl

/-- The keys of a captured map are the slots that the trace picks in frames of the
contract, if each event adds its own. -/
theorem mem_run (f : Address → Event → List (Address × Word)) (values : EVM → Address → Storage)
    (hStep : ∀ (evm : EVM) (event : Event) (self : Address) (callers : List Address),
      evm.frames = self :: callers → ∀ (addr : Address) (slot : Word),
        slot ∈ values (evm.step event) addr ↔ (addr, slot) ∈ f self event ∨ slot ∈ values evm addr)
    (evm : EVM) (trace : List Event) (addr : Address) (slot : Word) :
    slot ∈ values (evm.run trace) addr ↔
      (addr, slot) ∈ along f evm.frames trace ∨ slot ∈ values evm addr := by
  induction trace generalizing evm with
  | nil =>
    cases hFrames : evm.frames <;> simp [run, along]
  | cons event trace ih =>
    cases hFrames : evm.frames with
    | nil =>
      rw [run_of_no_frame hFrames]
      simp [along]
    | cons self callers =>
      have hNext : (evm.step event).frames = event.frames self callers := by
        rw [step_of_frame hFrames]
      refine (ih (evm.step event)).trans ?_
      rw [hStep evm event self callers hFrames, along, mem_append, hNext]
      tauto

theorem mem_readValues_run (evm : EVM) (trace : List Event) (addr : Address) (slot : Word) :
    slot ∈ (evm.run trace).structLogger.readValues addr ↔
      (addr, slot) ∈ loads evm.frames trace ∨ slot ∈ evm.structLogger.readValues addr := by
  refine mem_run Event.loads (fun evm => evm.structLogger.readValues) ?_ evm trace addr slot
  intro evm event self callers hFrames addr slot
  rw [step_of_frame hFrames]
  cases event with
  | sload k => exact StructLogger.mem_setValue ..
  | sstore | call | ret | revert => simp [StructLogger.CaptureState, Event.loads]

theorem readValues_run_of_not_mem {trace : List Event} {addr : Address} {slot : Word}
    (h : (addr, slot) ∉ loads evm.frames trace) :
    ((evm.run trace).structLogger.readValues addr).lookup slot =
      (evm.structLogger.readValues addr).lookup slot := by
  induction trace generalizing evm with
  | nil => rfl
  | cons event trace ih =>
    cases hFrames : evm.frames with
    | nil => rw [run_of_no_frame hFrames]
    | cons self callers =>
      have hNext : (evm.step event).frames = event.frames self callers := by
        rw [step_of_frame hFrames]
      rw [hFrames, loads, along, mem_append, not_or, ← hNext] at h
      refine (ih h.2).trans ?_
      rw [step_of_frame hFrames]
      cases event with
      | sload k =>
        have hne : (addr, slot) ≠ (self, k) := by simpa [Event.loads] using h.1
        exact (congrFun (StructLogger.lookup_setValue ..) (addr, slot)).trans (update_of_ne hne ..)
      | sstore | call | ret | revert => rfl

theorem run_append (evm : EVM) (before after : List Event) :
    evm.run (before ++ after) = (evm.run before).run after :=
  foldl_append

/-- The captured value of a slot is the one that its last load saw. -/
theorem readValues_run_of_last {before after : List Event} {addr : Address} {callers : List Address}
    {slot : Word} (hFrames : (evm.run before).frames = addr :: callers)
    (hLast : (addr, slot) ∉ loads (addr :: callers) after) :
    ((evm.run (before ++ Event.sload slot :: after)).structLogger.readValues addr).lookup slot =
      some ((evm.run before).stateDB.current (addr, slot)) := by
  have hNext : ((evm.run before).step (.sload slot)).frames = addr :: callers := by
    rw [step_of_frame hFrames]
    rfl
  rw [run_append, run, foldl_cons]
  refine (readValues_run_of_not_mem (hNext ▸ hLast)).trans ?_
  rw [step_of_frame hFrames]
  exact (congrFun (StructLogger.lookup_setValue ..) (addr, slot)).trans (update_self ..)

theorem mem_changedValues_run (evm : EVM) (trace : List Event) (addr : Address) (slot : Word) :
    slot ∈ (evm.run trace).structLogger.changedValues addr ↔
      (addr, slot) ∈ stores evm.frames trace ∨ slot ∈ evm.structLogger.changedValues addr := by
  refine mem_run Event.stores (fun evm => evm.structLogger.changedValues) ?_ evm trace addr slot
  intro evm event self callers hFrames addr slot
  rw [step_of_frame hFrames]
  cases event with
  | sstore k value => exact StructLogger.mem_setValue ..
  | sload | call | ret | revert => simp [StructLogger.CaptureState, Event.stores]

end EVM

end Nezha
