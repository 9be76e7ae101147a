import NezhaConcurrency.State.StateDB

/-! What happens after a flush into the shared trie has failed. The worker goes back to
the snapshot that it took before its transaction. The flush has finalised the journal by
then, and no snapshot is left. The other workers see nothing of the transaction: a flush
that fails has not written any account. -/
namespace Nezha.State

variable {Root CodeHash : Type} [DecidableEq Root] [DecidableEq CodeHash]
  (hashing : Hashing Root CodeHash)

/-- A step while a worker executes its transaction. The other workers may change what is
shared at any time. -/
inductive WorkerStep :
    Shared Root CodeHash × StateDB Root CodeHash →
      Shared Root CodeHash × StateDB Root CodeHash → Prop where
  | op {shared : Shared Root CodeHash} {s s' : StateDB Root CodeHash} (faults : Faults)
      (op : StateDB.Op) (h : StateDB.apply hashing shared faults s op = some s') :
      WorkerStep (shared, s) (shared, s')
  | others {shared : Shared Root CodeHash} {s : StateDB Root CodeHash}
      (shared' : Shared Root CodeHash) : WorkerStep (shared, s) (shared', s)

/-- A transaction of a worker whose flush returns an error. `before` is the state database
when the worker takes the transaction, `s` when it flushes, and `flushed` after that. -/
structure FailedFlush where
  before : StateDB Root CodeHash
  start : Shared Root CodeHash
  shared : Shared Root CodeHash
  s : StateDB Root CodeHash
  executes : Relation.ReflTransGen (WorkerStep hashing)
    (start, before.ResetObjectCache.Snapshot.2) (shared, s)
  faults : Faults
  dirtyOrder : List Address
  pendingOrder : List Address
  err : String
  shared' : Shared Root CodeHash
  flushed : StateDB Root CodeHash
  fails : s.IntermediateShared_Re hashing shared faults dirtyOrder pendingOrder =
    some (some err, shared', flushed)

/-- The worker goes back to its snapshot, and neither its next transaction nor another
worker reads anything that the failed transaction wrote. -/
def RolledBack (run : FailedFlush hashing) : Prop :=
  (∃ reverted, run.flushed.RevertToSnapshot run.shared' run.before.ResetObjectCache.Snapshot.1 =
      some reverted ∧ ∀ faults,
    SameReads hashing faults run.shared' reverted.ResetObjectCache run.shared .NewWithTrie) ∧
  ∀ (other : StateDB Root CodeHash) (faults : Faults),
    SameReads hashing faults run.shared' other.ResetObjectCache run.shared other.ResetObjectCache

section Commits

variable {faults : Faults}

omit [DecidableEq CodeHash] in
theorem commitObjects_validRevisions (faults : Faults) (order : List Address)
    (shared : Shared Root CodeHash) (s : StateDB Root CodeHash) :
    (StateDB.commitObjects hashing faults order shared s).2.2.validRevisions =
      s.validRevisions := by
  fun_induction StateDB.commitObjects hashing faults order shared s with
  | case1 => rfl
  | case2 _ _ _ _ _ ih => exact ih
  | case3 _ _ _ _ _ _ _ ih => exact ih
  | case4 => rfl
  | case5 _ _ _ _ _ _ _ _ _ _ ih => exact ih

variable {hashing}

theorem commit_of_fails {s flushed : StateDB Root CodeHash} {shared shared' : Shared Root CodeHash}
    {dirtyOrder pendingOrder : List Address} {err : String}
    (h : s.IntermediateShared_Re hashing shared faults dirtyOrder pendingOrder =
      some (some err, shared', flushed)) :
    StateDB.commitObjects hashing faults dirtyOrder shared (s.Finalise hashing false) =
      (some err, shared', flushed) := by
  unfold StateDB.IntermediateShared_Re StateDB.CommitDirtyStorage at h
  rcases hCommit : StateDB.commitObjects hashing faults dirtyOrder shared (s.Finalise hashing false)
    with ⟨_ | err', shared'', s''⟩
  · rw [hCommit] at h
    obtain ⟨trie, _, hEq⟩ := Option.bind_eq_some_iff.mp h
    cases hEq
  · rw [hCommit] at h
    cases h
    rfl

theorem FailedFlush.validRevisions (run : FailedFlush hashing) :
    run.flushed.validRevisions = [] := by
  have hCommit := commitObjects_validRevisions hashing run.faults run.dirtyOrder run.shared
    (run.s.Finalise hashing false)
  rw [commit_of_fails run.fails] at hCommit
  exact hCommit

/-- The accounts of the shared trie are as before, so no other worker reads anything that
the transaction wrote. -/
theorem FailedFlush.others (run : FailedFlush hashing) (intact : run.shared.Intact hashing)
    (other : StateDB Root CodeHash) (faults : Faults) :
    SameReads hashing faults run.shared' other.ResetObjectCache run.shared other.ResetObjectCache := by
  have hExtends := extends_commitObjects hashing run.faults run.dirtyOrder run.shared
    (run.s.Finalise hashing false)
  rw [commit_of_fails run.fails] at hExtends
  exact sameReads_of_extends intact hExtends other

end Commits

variable {hashing}

/-- The snapshot of the worker is never there any more. -/
theorem failed_flush_not_rolled_back (run : FailedFlush hashing) :
    run.flushed.RevertToSnapshot run.shared' run.before.ResetObjectCache.Snapshot.1 = none ∧
      ¬ RolledBack hashing run := by
  have hNone : run.flushed.RevertToSnapshot run.shared'
      run.before.ResetObjectCache.Snapshot.1 = none := by
    unfold StateDB.RevertToSnapshot
    rw [run.validRevisions]
    rfl
  refine ⟨hNone, fun ⟨⟨reverted, hReverted, _⟩, _⟩ => ?_⟩
  rw [hNone] at hReverted
  cases hReverted

/-- An account whose storage trie is not in the database. -/
noncomputable def lostTrie : Shared Slots Code where
  trie addr := if addr = 1 then some ⟨0, 0, fun _ => 7, []⟩ else none
  nodes _ := none
  codes _ := none

open Classical in
/-- A transaction writes a slot of that account. The storage trie cannot be opened, and the
flush returns the error. -/
noncomputable def lostTrieFlush :
    FailedFlush (⟨id, id, Function.injective_id⟩ : Hashing Slots Code) where
  before := .NewWithTrie
  start := lostTrie
  shared := lostTrie
  s := StateDB.SetState ⟨id, id, Function.injective_id⟩ lostTrie ⟨fun _ _ => false, fun _ => false⟩
    (StateDB.NewWithTrie.ResetObjectCache.Snapshot.2) 1 0 5
  executes := .single (.op ⟨fun _ _ => false, fun _ => false⟩ (.SetState 1 0 5) rfl)
  faults := ⟨fun _ _ => false, fun _ => false⟩
  dirtyOrder := [1]
  pendingOrder := [1]
  err := "can't create storage trie"
  shared' := _
  flushed := _
  fails := rfl

open Classical in
theorem lostTrieFlush_not_rolled_back : ¬ RolledBack _ lostTrieFlush := by
  rintro ⟨⟨reverted, hReverted, _⟩, _⟩
  have hNone : lostTrieFlush.flushed.RevertToSnapshot lostTrieFlush.shared'
      lostTrieFlush.before.ResetObjectCache.Snapshot.1 = none := rfl
  rw [hNone] at hReverted
  cases hReverted

end Nezha.State
