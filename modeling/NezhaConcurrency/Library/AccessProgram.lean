import Mathlib

/-! Programs that read and write one key after the other on a machine with a state. A
program is adaptive: which access comes next depends on the values read so far. Two machines
run a program in the same way as long as their states stay related and related states give
the same answers to the accesses that are made. -/
namespace AccessProgram

variable {State State' Key Value Write : Type}

/-- A read may change the state too, as one that fills a cache. -/
structure Machine (State Key Value Write : Type) where
  read : State → Key → Value × State
  write : State → Write → State

inductive Program (Key Value Write : Type) where
  | read (key : Key) (next : Value → Program Key Value Write)
  | write (update : Write) (next : Program Key Value Write)
  | done

/-- An access, with the value that was read or written. -/
inductive Access (Key Value Write : Type) where
  | read (key : Key) (value : Value)
  | write (update : Write)
  deriving DecidableEq

/-- The accesses of a run, in order. -/
def Program.run (machine : Machine State Key Value Write) :
    Program Key Value Write → State → List (Access Key Value Write)
  | .read key next, s =>
    .read key (machine.read s key).1 ::
      (next (machine.read s key).1).run machine (machine.read s key).2
  | .write update next, s => .write update :: next.run machine (machine.write s update)
  | .done, _ => []

/-- Related states give the same answers to the accesses that are allowed, and stay
related. -/
structure Lockstep (machine : Machine State Key Value Write)
    (machine' : Machine State' Key Value Write) (allowed : Access Key Value Write → Prop)
    (related : State → State' → Prop) : Prop where
  read : ∀ {s s'}, related s s' → ∀ key, allowed (.read key (machine.read s key).1) →
    (machine'.read s' key).1 = (machine.read s key).1 ∧
      related (machine.read s key).2 (machine'.read s' key).2
  write : ∀ {s s'}, related s s' → ∀ update, allowed (.write update) →
    related (machine.write s update) (machine'.write s' update)

/-- A run that makes only accesses that are allowed is a run of the other machine. -/
theorem Lockstep.run_eq {machine : Machine State Key Value Write}
    {machine' : Machine State' Key Value Write} {allowed : Access Key Value Write → Prop}
    {related : State → State' → Prop} (h : Lockstep machine machine' allowed related)
    (program : Program Key Value Write) {s : State} {s' : State'} (hRelated : related s s')
    (hAllowed : ∀ access ∈ program.run machine s, allowed access) :
    program.run machine' s' = program.run machine s := by
  induction program generalizing s s' with
  | read key next ih =>
    rw [Program.run, List.forall_mem_cons] at hAllowed
    obtain ⟨hValue, hNext⟩ := h.read hRelated key hAllowed.1
    rw [Program.run, Program.run, hValue, ih _ hNext hAllowed.2]
  | write update next ih =>
    rw [Program.run, List.forall_mem_cons] at hAllowed
    rw [Program.run, Program.run, ih (h.write hRelated update hAllowed.1) hAllowed.2]
  | done => rfl

end AccessProgram
