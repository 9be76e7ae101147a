import NezhaConcurrency.Library.PartialLoop

/-! The export loop. It starts a goroutine for each block, two at a time, and saves a
checkpoint when it is interrupted; a goroutine saves one when the count of exported
blocks is a multiple of ten. A later run resumes after the block of the checkpoint. -/
namespace Nezha.Exporter

open List

structure Checkpoint where
  LastBlock : UInt64
  TotalBlocks : Nat
  deriving DecidableEq

/-- The flags of a run. `checkpoint` says that a path is given, and `cp` is what is
found there. -/
structure Export where
  fromBlock : UInt64
  toBlock : UInt64
  checkpoint : Bool
  cp : Option Checkpoint
  ordered : fromBlock ≤ toBlock

/-- Where the loop is: before the select, at the semaphore, after a signal. -/
inductive Loop where
  | select
  | acquire
  | exiting
  | exited
  deriving DecidableEq

/-- Where a goroutine is: in `exportBlock`, before and after the count, and before
`WriteCheckpoint`. -/
inductive Pc where
  | exporting
  | written
  | counted
  | saving
  deriving DecidableEq

structure Goroutine where
  blockNum : UInt64
  pc : Pc
  deriving DecidableEq

/-- The blocks that were written, that failed and that were being exported when a
checkpoint was saved. -/
structure Saved where
  cp : Checkpoint
  written : List UInt64
  failed : List UInt64
  exporting : List UInt64
  deriving DecidableEq

/-- The files written, the errors logged and the checkpoints saved are only added to. -/
structure State where
  bn : UInt64
  loop : Loop
  goroutines : List Goroutine
  blockCount : Nat
  written : List UInt64
  failed : List UInt64
  saved : List Saved
  deriving DecidableEq

/-- `stored` and `ok` say whether a file could be written. -/
inductive Action where
  | interrupt (stored : Bool)
  | proceed
  | start
  | exit
  | work (i : Nat) (ok : Bool)

namespace State

variable (s : State)

def exporting : List UInt64 :=
  (s.goroutines.filter fun g => g.pc = .exporting).map Goroutine.blockNum

def save (lastBlock : UInt64) (stored : Bool) : State :=
  if stored then
    { s with saved := s.saved ++ [⟨⟨lastBlock, s.blockCount⟩, s.written, s.failed, s.exporting⟩] }
  else s

/-- The goroutine returns and gives its place in the semaphore back. -/
def finish (i : Nat) : State := { s with goroutines := s.goroutines.eraseIdx i }

def move (i : Nat) (g : Goroutine) (pc : Pc) : State :=
  { s with goroutines := s.goroutines.set i { g with pc } }

end State

namespace Export

variable (run : Export)

/-- The first block, after the one of a checkpoint in the range. -/
def startBlock : UInt64 :=
  match if run.checkpoint then run.cp else none with
  | some cp =>
    if cp.LastBlock ≥ run.fromBlock ∧ cp.LastBlock < run.toBlock then cp.LastBlock + 1
    else run.fromBlock
  | none => run.fromBlock

def init : State := ⟨run.startBlock, .select, [], 0, [], [], []⟩

/-- The next step of a goroutine. -/
def work (s : State) (i : Nat) (g : Goroutine) (ok : Bool) : State :=
  match g.pc with
  | .exporting =>
    if ok then { s.move i g .written with written := s.written ++ [g.blockNum] }
    else { s.finish i with failed := s.failed ++ [g.blockNum] }
  | .written => { s.move i g .counted with blockCount := s.blockCount + 1 }
  | .counted =>
    if run.checkpoint ∧ s.blockCount % 10 = 0 then s.move i g .saving else s.finish i
  | .saving => (s.save g.blockNum ok).finish i

def step (s : State) : Action → Option State
  | .interrupt stored =>
    if s.loop = .select ∧ s.bn ≤ run.toBlock then
      some (State.save { s with loop := .exiting } (s.bn - 1) (run.checkpoint && stored))
    else none
  | .proceed =>
    if s.loop = .select ∧ s.bn ≤ run.toBlock then some { s with loop := .acquire } else none
  | .start =>
    if s.loop = .acquire ∧ s.goroutines.length < 2 then
      some { s with
        loop := .select
        bn := s.bn + 1
        goroutines := s.goroutines ++ [⟨s.bn, .exporting⟩] }
    else none
  | .exit => if s.loop = .exiting then some { s with loop := .exited } else none
  | .work i ok =>
    if s.loop = .exited then none else (s.goroutines[i]?).map fun g => run.work s i g ok

/-- An interleaving, up to any point. -/
def exec (actions : List Action) : Option State := actions.foldlM run.step run.init

end Export

/-- Every block up to the one of the checkpoint has been written. -/
def Saved.Complete (record : Saved) (first : UInt64) : Prop :=
  ∀ block, first ≤ block → block ≤ record.cp.LastBlock → block ∈ record.written

section Runs

variable {run : Export} {s s' : State}

theorem startBlock_le (run : Export) : run.startBlock ≤ run.toBlock := by
  unfold Export.startBlock
  split
  · split
    · next h =>
        have hLess := UInt64.lt_iff_toNat_lt.mp h.2
        have hMax := run.toBlock.toNat_lt
        rw [UInt64.le_iff_toNat_le, UInt64.toNat_add]
        change (_ + 1) % _ ≤ _
        omega
    · exact run.ordered
  · exact run.ordered

theorem step_cases {a : Action} (h : run.step s a = some s') :
    (∃ stored, s.loop = .select ∧ s.bn ≤ run.toBlock ∧
      s' = State.save { s with loop := .exiting } (s.bn - 1) (run.checkpoint && stored)) ∨
    (s.loop = .select ∧ s.bn ≤ run.toBlock ∧ s' = { s with loop := .acquire }) ∨
    (s.loop = .acquire ∧ s.goroutines.length < 2 ∧ s' = { s with
      loop := .select
      bn := s.bn + 1
      goroutines := s.goroutines ++ [⟨s.bn, .exporting⟩] }) ∨
    (s.loop = .exiting ∧ s' = { s with loop := .exited }) ∨
    ∃ i g ok, s.goroutines[i]? = some g ∧ s' = run.work s i g ok := by
  cases a with
  | interrupt stored =>
    obtain ⟨⟨hLoop, hLe⟩, ⟨⟩⟩ := Option.ite_none_right_eq_some.mp h
    exact Or.inl ⟨stored, hLoop, hLe, rfl⟩
  | proceed =>
    obtain ⟨⟨hLoop, hLe⟩, ⟨⟩⟩ := Option.ite_none_right_eq_some.mp h
    exact Or.inr (Or.inl ⟨hLoop, hLe, rfl⟩)
  | start =>
    obtain ⟨⟨hLoop, hLess⟩, ⟨⟩⟩ := Option.ite_none_right_eq_some.mp h
    exact Or.inr (Or.inr (Or.inl ⟨hLoop, hLess, rfl⟩))
  | exit =>
    obtain ⟨hLoop, ⟨⟩⟩ := Option.ite_none_right_eq_some.mp h
    exact Or.inr (Or.inr (Or.inr (Or.inl ⟨hLoop, rfl⟩)))
  | work i ok =>
    obtain ⟨_, hMap⟩ := Option.ite_none_left_eq_some.mp h
    obtain ⟨g, hg, rfl⟩ := Option.map_eq_some_iff.mp hMap
    exact Or.inr (Or.inr (Or.inr (Or.inr ⟨i, g, ok, hg, rfl⟩)))

section Unsaved

/-- Without a path nothing is saved. -/
structure Unsaved (s : State) : Prop where
  saved : s.saved = []
  goroutines : ∀ g ∈ s.goroutines, g.pc ≠ .saving

theorem Unsaved.step (hPath : run.checkpoint = false) (unsaved : Unsaved s) {a : Action}
    (h : run.step s a = some s') : Unsaved s' := by
  obtain ⟨hSaved, hPc⟩ := unsaved
  have hSet : ∀ (i : Nat) (g : Goroutine) (pc : Pc), pc ≠ .saving →
      ∀ g' ∈ s.goroutines.set i { g with pc }, g'.pc ≠ .saving := by
    intro i g pc hNot g' hg'
    rcases mem_or_eq_of_mem_set hg' with hOld | rfl
    · exact hPc g' hOld
    · exact hNot
  have hErase : ∀ i, ∀ g' ∈ s.goroutines.eraseIdx i, g'.pc ≠ .saving :=
    fun i g' hg' => hPc g' (mem_of_mem_eraseIdx hg')
  rcases step_cases h with ⟨stored, _, _, rfl⟩ | ⟨_, _, rfl⟩ | ⟨_, _, rfl⟩ | ⟨_, rfl⟩ |
    ⟨i, g, ok, hg, rfl⟩
  · simp only [hPath, Bool.false_and, State.save]
    exact ⟨hSaved, hPc⟩
  · exact ⟨hSaved, hPc⟩
  · refine ⟨hSaved, fun g hg => ?_⟩
    rcases mem_append.mp hg with hOld | hNew
    · exact hPc g hOld
    · rw [mem_singleton.mp hNew]
      exact Pc.noConfusion
  · exact ⟨hSaved, hPc⟩
  · have hOwn := hPc g (mem_of_getElem? hg)
    cases hCase : g.pc with
    | exporting =>
      cases ok with
      | true =>
        simpa [Export.work, hCase, State.move] using ⟨hSaved, hSet i g .written (by decide)⟩
      | false => simpa [Export.work, hCase, State.finish] using ⟨hSaved, hErase i⟩
    | written =>
      simpa [Export.work, hCase, State.move] using ⟨hSaved, hSet i g .counted (by decide)⟩
    | counted =>
      simpa [Export.work, hCase, hPath, State.finish] using ⟨hSaved, hErase i⟩
    | saving => exact absurd hCase hOwn

end Unsaved

theorem toNat_succ {block : UInt64} (h : block.toNat < 2 ^ 64 - 1) :
    (block + 1).toNat = block.toNat + 1 := by
  rw [UInt64.toNat_add]
  change (_ + 1) % _ = _
  omega

theorem toNat_pred {block : UInt64} (h : 0 < block.toNat) : (block - 1).toNat = block.toNat - 1 :=
  UInt64.toNat_sub_of_le _ _ (UInt64.le_iff_toNat_le.mpr h)

section Alone

/-- A run of one block: the loop can only be interrupted before it, and the count stays
below ten. -/
inductive Alone (run : Export) (s : State) : Prop where
  | before (hBn : s.bn = run.startBlock) (hNone : s.goroutines = []) (hSaved : s.saved = [])
      (hCount : s.blockCount = 0)
  | started (hBn : s.bn = run.startBlock + 1) (hLoop : s.loop = .select) (hSaved : s.saved = [])
      (hOne : s.goroutines = [] ∨ ∃ g, s.goroutines = [g] ∧
        ((g.pc = .exporting ∨ g.pc = .written) ∧ s.blockCount = 0 ∨
          g.pc = .counted ∧ s.blockCount = 1))
  | interrupted (hLoop : s.loop = .exiting ∨ s.loop = .exited) (hNone : s.goroutines = [])
      (hSaved : ∀ record ∈ s.saved, record.cp.LastBlock = run.startBlock - 1)

variable (hOne : run.startBlock = run.toBlock)

include hOne

theorem Alone.step (hMax : run.toBlock.toNat < 2 ^ 64 - 1) (alone : Alone run s) {a : Action}
    (h : run.step s a = some s') :
    Alone run s' := by
  have hAfter : ¬ run.startBlock + 1 ≤ run.toBlock := by
    rw [hOne, UInt64.le_iff_toNat_le, toNat_succ hMax]
    omega
  cases alone with
  | before hBn hNone hSaved hCount =>
    rcases step_cases h with ⟨stored, _, _, rfl⟩ | ⟨_, _, rfl⟩ | ⟨_, _, rfl⟩ | ⟨_, rfl⟩ |
      ⟨i, g, ok, hg, rfl⟩
    · refine .interrupted (Or.inl ?_) ?_ ?_
      · unfold State.save
        split <;> rfl
      · unfold State.save
        split <;> exact hNone
      · unfold State.save
        split
        · simp [hSaved, hBn]
        · simp [hSaved]
    · exact .before hBn hNone hSaved hCount
    · refine .started (by rw [← hBn]) rfl hSaved
        (Or.inr ⟨⟨s.bn, .exporting⟩, ?_, Or.inl ⟨?_, hCount⟩⟩)
      · simp [hNone]
      · exact Or.inl rfl
    · exact .before hBn hNone hSaved hCount
    · simp [hNone] at hg
  | started hBn hLoop hSaved hGoroutines =>
    rcases step_cases h with ⟨_, _, hLe, _⟩ | ⟨_, hLe, _⟩ | ⟨hAcquire, _⟩ | ⟨hExiting, _⟩ |
      ⟨i, g, ok, hg, rfl⟩
    · exact absurd (hBn ▸ hLe) hAfter
    · exact absurd (hBn ▸ hLe) hAfter
    · cases hLoop.symm.trans hAcquire
    · cases hLoop.symm.trans hExiting
    · rcases hGoroutines with hNone | ⟨g', hOnly, hPc⟩
      · simp [hNone] at hg
      · obtain ⟨rfl, rfl⟩ : i = 0 ∧ g = g' := by
          cases i with
          | zero => exact ⟨rfl, by simpa [hOnly] using hg.symm⟩
          | succ i => simp [hOnly] at hg
        rcases hPc with ⟨hPc | hPc, hCount⟩ | ⟨hPc, hCount⟩
        · cases ok with
          | true =>
            simp only [Export.work, hPc, State.move, hOnly]
            exact .started hBn hLoop hSaved (Or.inr ⟨_, rfl, Or.inl ⟨Or.inr rfl, hCount⟩⟩)
          | false =>
            simp only [Export.work, hPc, State.finish, hOnly]
            exact .started hBn hLoop hSaved (Or.inl rfl)
        · simp only [Export.work, hPc, State.move, hOnly, hCount]
          exact .started hBn hLoop hSaved (Or.inr ⟨_, rfl, Or.inr ⟨rfl, rfl⟩⟩)
        · have hTen : ¬ (run.checkpoint = true ∧ s.blockCount % 10 = 0) := by simp [hCount]
          simp only [Export.work, hPc, if_neg hTen, State.finish, hOnly]
          exact .started hBn hLoop hSaved (Or.inl rfl)
  | interrupted hLoop hNone hSaved =>
    rcases step_cases h with ⟨_, hSelect, _⟩ | ⟨hSelect, _⟩ | ⟨hAcquire, _⟩ | ⟨_, rfl⟩ |
      ⟨i, g, ok, hg, rfl⟩
    · rcases hLoop with hLoop | hLoop <;> cases hLoop.symm.trans hSelect
    · rcases hLoop with hLoop | hLoop <;> cases hLoop.symm.trans hSelect
    · rcases hLoop with hLoop | hLoop <;> cases hLoop.symm.trans hAcquire
    · exact .interrupted (Or.inr rfl) hNone hSaved
    · simp [hNone] at hg

theorem Alone.complete (hPos : 0 < run.toBlock.toNat) (alone : Alone run s) :
    ∀ record ∈ s.saved, record.Complete run.startBlock := by
  cases alone with
  | before _ _ hSaved _ => simp [hSaved]
  | started _ _ hSaved _ => simp [hSaved]
  | interrupted _ _ hSaved =>
    intro record hRecord block hFirst hLast
    rw [hSaved record hRecord, UInt64.le_iff_toNat_le, toNat_pred (hOne ▸ hPos)] at hLast
    rw [UInt64.le_iff_toNat_le] at hFirst
    rw [← hOne] at hPos
    omega

end Alone

section Gap

theorem exec_interrupt_first (hPath : run.checkpoint = true) :
    ∃ s, run.exec [.interrupt true] = some s ∧ ⟨⟨run.startBlock - 1, 0⟩, [], [], []⟩ ∈ s.saved := by
  have hLe := startBlock_le run
  simp [Export.exec, Export.step, Export.init, State.save, State.exporting, hPath, hLe]

theorem exec_interrupt_second (hPath : run.checkpoint = true)
    (hNext : run.startBlock + 1 ≤ run.toBlock) :
    ∃ s, run.exec [.proceed, .start, .interrupt true] = some s ∧
      ⟨⟨run.startBlock, 0⟩, [], [], [run.startBlock]⟩ ∈ s.saved := by
  have hLe := startBlock_le run
  simp [Export.exec, Export.step, Export.init, State.save, State.exporting, hPath, hLe, hNext]

end Gap

/-- A checkpoint is a safe point to resume from if every run saves complete ones only.
That is so without a path, and for a single block that is neither the first nor the
last number of its type. -/
theorem checkpoints_complete_iff (run : Export) :
    (∀ actions s, run.exec actions = some s → ∀ record ∈ s.saved, record.Complete run.startBlock) ↔
      run.checkpoint = false ∨
        run.startBlock = run.toBlock ∧ 0 < run.toBlock.toNat ∧ run.toBlock.toNat < 2 ^ 64 - 1 := by
  constructor
  · intro hSafe
    by_contra hNot
    obtain ⟨hPath, hBlocks⟩ := not_or.mp hNot
    rw [Bool.not_eq_false] at hPath
    by_cases hZero : run.startBlock = 0
    · obtain ⟨s, hRun, hSaved⟩ := exec_interrupt_first hPath
      have hMissing := hSafe _ s hRun _ hSaved run.startBlock (UInt64.le_refl _)
        (by rw [hZero]; decide)
      exact absurd hMissing not_mem_nil
    · have hNext : run.startBlock + 1 ≤ run.toBlock := by
        have hLe := UInt64.le_iff_toNat_le.mp (startBlock_le run)
        have hMax := run.toBlock.toNat_lt
        rw [← UInt64.toNat_inj] at hBlocks hZero
        change run.startBlock.toNat ≠ 0 at hZero
        rw [UInt64.le_iff_toNat_le, UInt64.toNat_add]
        change (_ + 1) % _ ≤ _
        omega
      obtain ⟨s, hRun, hSaved⟩ := exec_interrupt_second hPath hNext
      have hMissing := hSafe _ s hRun _ hSaved run.startBlock (UInt64.le_refl _) (UInt64.le_refl _)
      exact absurd hMissing not_mem_nil
  · rintro (hPath | ⟨hOne, hPos, hMax⟩) actions s hRun
    · have hUnsaved := PartialLoop.foldlM_invariant 
        (fun s a s' (unsaved : Unsaved s) h => unsaved.step hPath h)
        ⟨rfl, by simp [Export.init]⟩ hRun
      simp [hUnsaved.saved]
    · have hAlone := PartialLoop.foldlM_invariant
        (fun s a s' (alone : Alone run s) h => alone.step hOne hMax h)
        (.before rfl rfl rfl rfl) hRun
      exact hAlone.complete hOne hPos

/-- Blocks 1 to 11, with a path. -/
def elevenBlocks : Export := ⟨1, 11, true, none, by decide⟩

/-- The goroutine of the second place exports a block and returns. -/
def exportNext : List Action := [.proceed, .start, .work 1 true, .work 1 true, .work 1 true]

/-- Block 11 is the tenth that is done, and block 1 is still exported; after an
interrupt in its first block the run resumes at the second. -/
theorem slow_block_skipped :
    (elevenBlocks.exec ([.proceed, .start] ++ (List.replicate 10 exportNext).flatten ++
      [.work 1 true])).map State.saved =
        some [⟨⟨11, 10⟩, [2, 3, 4, 5, 6, 7, 8, 9, 10, 11], [], [1]⟩] ∧
    (elevenBlocks.exec [.proceed, .start, .interrupt true]).map State.saved =
        some [⟨⟨1, 0⟩, [], [], [1]⟩] ∧
    (⟨1, 11, true, some ⟨1, 0⟩, by decide⟩ : Export).startBlock = 2 := by
  decide +kernel

section Accounted

/-- What is missing before a checkpoint failed or is being exported. -/
def Saved.Gap (record : Saved) (first : UInt64) : Prop :=
  ∀ block, first ≤ block → block ≤ record.cp.LastBlock →
    block ∈ record.written ∨ block ∈ record.failed ∨ block ∈ record.exporting

/-- Every block that was started is written, failed or being exported. -/
structure Accounted (run : Export) (s : State) : Prop where
  lower : run.startBlock ≤ s.bn
  upper : s.bn.toNat ≤ run.toBlock.toNat + 1
  acquire : s.loop = .acquire → s.bn ≤ run.toBlock
  started : ∀ block, run.startBlock ≤ block → block < s.bn →
    block ∈ s.written ∨ block ∈ s.failed ∨ block ∈ s.exporting
  goroutines : ∀ g ∈ s.goroutines, g.blockNum < s.bn
  semaphore : s.goroutines.length ≤ 2
  saved : ∀ record ∈ s.saved, record.Gap run.startBlock ∧ record.exporting.length ≤ 2

theorem exporting_cases {i : Nat} {g : Goroutine} (hg : s.goroutines[i]? = some g) {block : UInt64}
    (hBlock : block ∈ s.exporting) :
    g.pc = .exporting ∧ g.blockNum = block ∨
      block ∈ (s.finish i).exporting ∧ ∀ pc, block ∈ (s.move i g pc).exporting := by
  obtain ⟨g', hMem, rfl⟩ := mem_map.mp hBlock
  obtain ⟨hMem, hPc⟩ := mem_filter.mp hMem
  obtain ⟨j, hj⟩ := mem_iff_getElem?.mp hMem
  by_cases hij : j = i
  · subst hij
    cases hj.symm.trans hg
    exact Or.inl ⟨of_decide_eq_true hPc, rfl⟩
  · refine Or.inr ⟨mem_map_of_mem (mem_filter.mpr ⟨?_, hPc⟩), fun pc =>
      mem_map_of_mem (mem_filter.mpr ⟨?_, hPc⟩)⟩
    · exact mem_eraseIdx_iff_getElem?.mpr ⟨j, hij, hj⟩
    · refine mem_of_getElem? (i := j) ?_
      rw [State.move, getElem?_set_ne (Ne.symm hij)]
      exact hj

theorem length_exporting_le (s : State) : s.exporting.length ≤ s.goroutines.length := by
  rw [State.exporting, length_map]
  exact length_filter_le _ _

theorem Accounted.update (accounted : Accounted run s) (hBn : s'.bn = s.bn)
    (hLoop : s'.loop = s.loop) (hSaved : s'.saved = s.saved) (hWritten : s.written ⊆ s'.written)
    (hFailed : s.failed ⊆ s'.failed) (hGoroutines : ∀ g ∈ s'.goroutines, g.blockNum < s.bn)
    (hLength : s'.goroutines.length ≤ s.goroutines.length)
    (hExporting : ∀ block ∈ s.exporting,
      block ∈ s'.written ∨ block ∈ s'.failed ∨ block ∈ s'.exporting) : Accounted run s' where
  lower := hBn ▸ accounted.lower
  upper := hBn ▸ accounted.upper
  acquire := by
    rw [hBn, hLoop]
    exact accounted.acquire
  started := by
    intro block hFirst hLess
    rw [hBn] at hLess
    rcases accounted.started block hFirst hLess with h | h | h
    · exact Or.inl (hWritten h)
    · exact Or.inr (Or.inl (hFailed h))
    · exact hExporting block h
  goroutines := by
    rw [hBn]
    exact hGoroutines
  semaphore := le_trans hLength accounted.semaphore
  saved := by
    rw [hSaved]
    exact accounted.saved

theorem Accounted.save (accounted : Accounted run s) {lastBlock : UInt64} (hLast : lastBlock < s.bn)
    (stored : Bool) : Accounted run (s.save lastBlock stored) := by
  unfold State.save
  split
  · refine ⟨accounted.lower, accounted.upper, accounted.acquire, accounted.started,
      accounted.goroutines, accounted.semaphore, fun record hRecord => ?_⟩
    rcases mem_append.mp hRecord with hOld | hNew
    · exact accounted.saved record hOld
    · rw [mem_singleton.mp hNew]
      refine ⟨fun block hFirst hBlock => accounted.started block hFirst ?_, ?_⟩
      · exact UInt64.lt_of_le_of_lt hBlock hLast
      · exact le_trans (length_exporting_le s) accounted.semaphore
  · exact accounted

theorem Accounted.finish (accounted : Accounted run s) {i : Nat} {g : Goroutine}
    (hg : s.goroutines[i]? = some g) (hPc : g.pc ≠ .exporting) : Accounted run (s.finish i) := by
  refine accounted.update rfl rfl rfl (List.Subset.refl _) (List.Subset.refl _) ?_ ?_ ?_
  · exact fun g' hg' => accounted.goroutines g' (mem_of_mem_eraseIdx hg')
  · exact length_eraseIdx_le _ _
  · intro block hBlock
    rcases exporting_cases hg hBlock with ⟨hExporting, _⟩ | ⟨hStays, _⟩
    · exact absurd hExporting hPc
    · exact Or.inr (Or.inr hStays)

theorem Accounted.work (accounted : Accounted run s) {i : Nat} {g : Goroutine}
    (hg : s.goroutines[i]? = some g) (ok : Bool) : Accounted run (run.work s i g ok) := by
  have hOwn := accounted.goroutines g (mem_of_getElem? hg)
  have hMoved : ∀ pc, ∀ g' ∈ (s.move i g pc).goroutines, g'.blockNum < s.bn := by
    intro pc g' hg'
    rcases mem_or_eq_of_mem_set hg' with hOld | rfl
    · exact accounted.goroutines g' hOld
    · exact hOwn
  have hLength : ∀ pc, (s.move i g pc).goroutines.length ≤ s.goroutines.length :=
    fun pc => le_of_eq length_set
  have hStays : g.pc ≠ .exporting → ∀ pc, ∀ block ∈ s.exporting,
      block ∈ (s.move i g pc).exporting := by
    intro hPc pc block hBlock
    rcases exporting_cases hg hBlock with ⟨hExporting, _⟩ | ⟨_, hStays⟩
    · exact absurd hExporting hPc
    · exact hStays pc
  unfold Export.work
  cases hPc : g.pc with
  | exporting =>
    cases ok with
    | true =>
      refine accounted.update rfl rfl rfl (subset_append_left _ _) (List.Subset.refl _)
        (hMoved .written) (hLength .written) fun block hBlock => ?_
      rcases exporting_cases hg hBlock with ⟨_, rfl⟩ | ⟨_, hStays⟩
      · exact Or.inl (mem_append_right _ (mem_singleton_self _))
      · exact Or.inr (Or.inr (hStays .written))
    | false =>
      refine accounted.update rfl rfl rfl (List.Subset.refl _) (subset_append_left _ _)
        (fun g' hg' => accounted.goroutines g' (mem_of_mem_eraseIdx hg'))
        (length_eraseIdx_le _ _) fun block hBlock => ?_
      rcases exporting_cases hg hBlock with ⟨_, rfl⟩ | ⟨hStays, _⟩
      · exact Or.inr (Or.inl (mem_append_right _ (mem_singleton_self _)))
      · exact Or.inr (Or.inr hStays)
  | written =>
    exact accounted.update rfl rfl rfl (List.Subset.refl _) (List.Subset.refl _)
      (hMoved .counted) (hLength .counted)
      fun block hBlock => Or.inr (Or.inr (hStays (by simp [hPc]) .counted block hBlock))
  | counted =>
    simp only
    split
    · exact accounted.update rfl rfl rfl (List.Subset.refl _) (List.Subset.refl _)
        (hMoved .saving) (hLength .saving)
        fun block hBlock => Or.inr (Or.inr (hStays (by simp [hPc]) .saving block hBlock))
    · exact accounted.finish hg (by simp [hPc])
  | saving =>
    have hSaved := accounted.save hOwn ok
    refine hSaved.finish (i := i) (g := g) ?_ (by simp [hPc])
    unfold State.save
    split <;> exact hg

theorem Accounted.start (hMax : run.toBlock.toNat < 2 ^ 64 - 1) (accounted : Accounted run s)
    (hAcquire : s.loop = .acquire) (hLess : s.goroutines.length < 2) :
    Accounted run { s with
      loop := .select
      bn := s.bn + 1
      goroutines := s.goroutines ++ [⟨s.bn, .exporting⟩] } := by
  have hLe := UInt64.le_iff_toNat_le.mp (accounted.acquire hAcquire)
  have hNext : (s.bn + 1).toNat = s.bn.toNat + 1 := toNat_succ (lt_of_le_of_lt hLe hMax)
  have hLess' : ∀ block, block < s.bn → block < s.bn + 1 := by
    intro block h
    rw [UInt64.lt_iff_toNat_lt] at h ⊢
    omega
  refine ⟨?_, ?_, fun h => Loop.noConfusion h, fun block hFirst hBlock => ?_, fun g hg => ?_, ?_,
    accounted.saved⟩
  · have hLower := UInt64.le_iff_toNat_le.mp accounted.lower
    rw [UInt64.le_iff_toNat_le, hNext]
    omega
  · rw [hNext]
    omega
  · rw [UInt64.lt_iff_toNat_lt, hNext] at hBlock
    have hExporting : State.exporting { s with
        loop := .select
        bn := s.bn + 1
        goroutines := s.goroutines ++ [⟨s.bn, .exporting⟩] } = s.exporting ++ [s.bn] := by
      simp [State.exporting, filter_append]
    rw [hExporting, mem_append, mem_singleton]
    by_cases hSame : block = s.bn
    · exact Or.inr (Or.inr (Or.inr hSame))
    · have hBefore : block < s.bn := by
        rw [← UInt64.toNat_inj] at hSame
        rw [UInt64.lt_iff_toNat_lt]
        omega
      exact (accounted.started block hFirst hBefore).imp_right fun h => h.imp_right Or.inl
  · rcases mem_append.mp hg with hOld | hNew
    · exact hLess' _ (accounted.goroutines g hOld)
    · rw [mem_singleton.mp hNew, UInt64.lt_iff_toNat_lt, hNext]
      exact Nat.lt_succ_self _
  · simp only [length_append, length_singleton]
    omega

variable (hPos : 0 < run.startBlock.toNat) (hMax : run.toBlock.toNat < 2 ^ 64 - 1)

include hPos hMax

theorem Accounted.step (accounted : Accounted run s) {a : Action} (h : run.step s a = some s') :
    Accounted run s' := by
  have hBnPos : 0 < s.bn.toNat := lt_of_lt_of_le hPos (UInt64.le_iff_toNat_le.mp accounted.lower)
  rcases step_cases h with ⟨stored, _, _, rfl⟩ | ⟨_, hLe, rfl⟩ | ⟨hAcquire, hLess, rfl⟩ | ⟨_, rfl⟩ |
    ⟨i, g, ok, hg, rfl⟩
  · have hExiting : Accounted run { s with loop := .exiting } :=
      { accounted with acquire := fun h => Loop.noConfusion h }
    refine hExiting.save (UInt64.lt_iff_toNat_lt.mpr ?_) _
    change (s.bn - 1).toNat < s.bn.toNat
    rw [toNat_pred hBnPos]
    omega
  · exact { accounted with acquire := fun _ => hLe }
  · exact accounted.start hMax hAcquire hLess
  · exact { accounted with acquire := fun h => Loop.noConfusion h }
  · exact accounted.work hg ok

/-- What a checkpoint does promise: a block before it that is not written has failed, or is
one of at most two that are being exported. -/
theorem checkpoint_gap {actions : List Action} (hRun : run.exec actions = some s) :
    ∀ record ∈ s.saved, record.Gap run.startBlock ∧ record.exporting.length ≤ 2 := by
  have hInit : Accounted run run.init :=
    { lower := UInt64.le_refl _
      upper := Nat.le_succ_of_le (UInt64.le_iff_toNat_le.mp (startBlock_le run))
      acquire := fun h => Loop.noConfusion h
      started := fun block hFirst hLess => absurd hLess (UInt64.not_lt.mpr hFirst)
      goroutines := by simp [Export.init]
      semaphore := by simp [Export.init]
      saved := by simp [Export.init] }
  exact (PartialLoop.foldlM_invariant (fun s a s' (accounted : Accounted run s) h =>
    accounted.step hPos hMax h) hInit hRun).saved

end Accounted

theorem interrupted_gap : ∃ s, elevenBlocks.exec [.interrupt true] = some s ∧
    ∀ record ∈ s.saved, record.Gap elevenBlocks.startBlock ∧ record.exporting.length ≤ 2 := by
  obtain ⟨s, hRun, _⟩ := @exec_interrupt_first elevenBlocks rfl
  exact ⟨s, hRun, checkpoint_gap (by decide) (by decide) hRun⟩

end Runs

end Nezha.Exporter
