import NezhaConcurrency.Core.SequenceOrder
import NezhaConcurrency.Library.Interleaving

/-! The concurrent commit of `TestConflictQueue`. The transactions with one
sequence number form a level, the pool stores the writes of a level in any
interleaving, and the levels follow one another. The database is keyed by the
storage key alone, without the contract. -/
namespace Nezha

open List

structure StateAccount where
  Address : Bytes
  Value : Bytes
  deriving DecidableEq

def CreateAccount (addr value : Bytes) : StateAccount := ⟨addr, value⟩

/-- The database maps a key to the account stored there. -/
abbrev DB := String → Option StateAccount

def StoreState (db : DB) (acc : StateAccount) : DB :=
  Function.update db ("a" ++ acc.Address) (some acc)

theorem storeState_comm {acc acc' : StateAccount} (h : acc.Address ≠ acc'.Address) (db : DB) :
    StoreState (StoreState db acc) acc' = StoreState (StoreState db acc') acc := by
  unfold StoreState
  refine Function.update_comm (fun hKey => h ?_) _ _ _
  have hChars : acc.Address.toList = acc'.Address.toList := by
    simpa using congrArg String.toList hKey
  exact String.ext hChars

namespace QueueGraph

variable {txs : List (List RWNode)} {cq : QueueGraph} {ids ids' : List String}

def storeNode (cq : QueueGraph) (db : DB) (rw : Ref) : DB :=
  StoreState db (CreateAccount (cq.node rw).RWSet.Key (cq.node rw).RWSet.Value)

/-- The sequence numbers of the commit order, in ascending order. -/
def commitKeys (cq : QueueGraph) (ids : List String) : List Int :=
  ((ids.filter fun t => !(cq.Edges t).isAborted).filterMap fun t =>
    ((cq.Edges t).set.head?).map fun n => (cq.node n).Sequence).dedup.insertionSort (· ≤ ·)

/-- The tasks of a level: the transactions that write something. -/
def levelTasks (cq : QueueGraph) (ids : List String) (seq : Int) : List (List Ref) :=
  (cq.commitOrder ids seq).filter (· ≠ [])

/-- The pool runs the tasks of each level in some interleaving. -/
inductive CommitLevels (cq : QueueGraph) (ids : List String) : List Int → DB → DB → Prop where
  | done (db : DB) : CommitLevels cq ids [] db db
  | level {seq : Int} {rest : List Int} {db db' : DB} {trace : List Ref}
      (hTrace : Interleaving.Trace (cq.levelTasks ids seq) trace)
      (hRest : CommitLevels cq ids rest (trace.foldl cq.storeNode db) db') :
      CommitLevels cq ids (seq :: rest) db db'

/-- Write nodes with the same storage key are of one contract. -/
def OneContract (txs : List (List RWNode)) : Prop :=
  ∀ m ∈ refs txs, ∀ n ∈ refs txs, (nodeAt txs m).Label = .w → (nodeAt txs n).Label = .w →
    (nodeAt txs m).RWSet.Key = (nodeAt txs n).RWSet.Key →
    (nodeAt txs m).ContractName = (nodeAt txs n).ContractName

/-- Then write nodes with the same storage key are in one queue. -/
theorem OneContract.compositeKey (oneContract : OneContract txs) (valid : Valid txs cq) {m n : Ref}
    (hm : m ∈ refs txs) (hn : n ∈ refs txs) (hmWrites : (cq.node m).Label = .w)
    (hnWrites : (cq.node n).Label = .w)
    (hKey : (cq.node m).RWSet.Key = (cq.node n).RWSet.Key) :
    (nodeAt txs m).CompositeKey = (nodeAt txs n).CompositeKey := by
  rw [valid.label] at hmWrites hnWrites
  rw [valid.rwSet, valid.rwSet] at hKey
  unfold RWNode.CompositeKey
  rw [hKey, oneContract m hm n hn hmWrites hnWrites hKey]

section Tasks

theorem mem_ids {t : String} (ht : t ∈ (CreateGraph txs).ids) :
    ∃ i, ⟨i, 0⟩ ∈ refs txs ∧ (nodeAt txs ⟨i, 0⟩).TransInfo.ID = t := by
  change t ∈ List.dedup _ at ht
  obtain ⟨i, hi, rfl⟩ := mem_map.mp (mem_dedup.mp ht)
  have hNonempty := of_decide_eq_true (mem_filter.mp hi).2
  obtain ⟨n, hn⟩ := exists_mem_of_ne_nil _ hNonempty
  have hFirst := first_mem_refs (refsOf_subset hn)
  rw [(mem_refsOf.mp hn).1] at hFirst
  exact ⟨i, hFirst, rfl⟩

theorem Valid.edges_id (valid : Valid txs cq) {i : Nat} (hi : ⟨i, 0⟩ ∈ refs txs) :
    (cq.Edges (nodeAt txs ⟨i, 0⟩).TransInfo.ID).set = Nezha.refsOf txs i ∧
      (cq.Edges (nodeAt txs ⟨i, 0⟩).TransInfo.ID).isAborted = cq.aborted i := by
  rw [← valid.transInfo]
  exact ⟨valid.edges _ hi, rfl⟩

/-- What a task of a level is made of. -/
theorem Valid.mem_commitOrder (valid : Valid txs cq) (hIds : ids.Perm (CreateGraph txs).ids)
    {seq : Int} {t : String} (ht : t ∈ ids.filter fun t => !(cq.Edges t).isAborted &&
      decide ((((cq.Edges t).set.head?).map fun n => (cq.node n).Sequence) = some seq)) :
    ∃ i, ⟨i, 0⟩ ∈ refs txs ∧ (nodeAt txs ⟨i, 0⟩).TransInfo.ID = t ∧ cq.aborted i = false ∧
      cq.seq i = seq ∧ (cq.Edges t).set = Nezha.refsOf txs i := by
  obtain ⟨hMem, hTest⟩ := mem_filter.mp ht
  obtain ⟨i, hi, rfl⟩ := mem_ids (hIds.mem_iff.mp hMem)
  obtain ⟨hSet, hAborted⟩ := valid.edges_id hi
  rw [Bool.and_eq_true, Bool.not_eq_true', decide_eq_true_eq, hAborted, hSet] at hTest
  refine ⟨i, hi, rfl, hTest.1, ?_, hSet⟩
  rw [head_refsOf hi] at hTest
  exact Option.some.inj hTest.2

/-- The write nodes of different transactions of a level are stored under different keys. -/
theorem Valid.disjoint_tasks (valid : Valid txs cq) (hApart : Apart txs .w (CreateGraph txs).keys cq)
    (oneContract : OneContract txs) {i j : Nat} (hne : i ≠ j) (hiLive : cq.aborted i = false)
    (hjLive : cq.aborted j = false) (hSeq : cq.seq i = cq.seq j) {m n : Ref}
    (hm : m ∈ Nezha.refsOf txs i) (hn : n ∈ Nezha.refsOf txs j) (hmWrites : (cq.node m).Label = .w)
    (hnWrites : (cq.node n).Label = .w) : (cq.node m).RWSet.Key ≠ (cq.node n).RWSet.Key := by
  intro hKey
  have hmRefs := refsOf_subset hm
  have hnRefs := refsOf_subset hn
  have hComposite := oneContract.compositeKey valid hmRefs hnRefs hmWrites hnWrites hKey
  rw [valid.label] at hmWrites hnWrites
  have hiTouches : Touches txs .w i (nodeAt txs m).CompositeKey :=
    touches_iff.mpr ⟨m, hmRefs, (mem_refsOf.mp hm).1, hmWrites, rfl⟩
  have hjTouches : Touches txs .w j (nodeAt txs m).CompositeKey :=
    touches_iff.mpr ⟨n, hnRefs, (mem_refsOf.mp hn).1, hnWrites, hComposite.symm⟩
  exact hApart _ (mem_keys.mpr ⟨m, hmRefs, rfl⟩) i j hne hiTouches hjTouches hiLive hjLive hSeq

/-- No two tasks of a level have a key in common. -/
theorem Valid.levelTasks_disjoint (valid : Valid txs cq)
    (hApart : Apart txs .w (CreateGraph txs).keys cq) (oneContract : OneContract txs)
    (hIds : ids.Perm (CreateGraph txs).ids) (seq : Int) :
    (cq.levelTasks ids seq).Pairwise fun task task' => ∀ m ∈ task, ∀ n ∈ task',
      (cq.node m).RWSet.Key ≠ (cq.node n).RWSet.Key := by
  have hNodup : ids.Nodup := hIds.nodup_iff.mpr (nodup_dedup _)
  unfold levelTasks commitOrder
  refine (pairwise_map.mpr ?_).filter _
  refine (hNodup.filter _).imp_of_mem fun {t t'} ht ht' hne m hm n hn => ?_
  obtain ⟨i, _, hiId, hiLive, hiSeq, hiSet⟩ := valid.mem_commitOrder hIds ht
  obtain ⟨j, _, hjId, hjLive, hjSeq, hjSet⟩ := valid.mem_commitOrder hIds ht'
  obtain ⟨hm, hmWrites⟩ := mem_filter.mp hm
  obtain ⟨hn, hnWrites⟩ := mem_filter.mp hn
  have hij : i ≠ j := by
    rintro rfl
    exact hne (hiId.symm.trans hjId)
  exact valid.disjoint_tasks hApart oneContract hij hiLive hjLive (hiSeq.trans hjSeq.symm)
    (hiSet ▸ hm) (hjSet ▸ hn) (of_decide_eq_true hmWrites) (of_decide_eq_true hnWrites)

/-- At most one write node for each key of a transaction. -/
def WritesOnce (txs : List (List RWNode)) : Prop :=
  ∀ m ∈ refs txs, ∀ n ∈ refs txs, m.tx = n.tx → (nodeAt txs m).Label = .w →
    (nodeAt txs n).Label = .w → (nodeAt txs m).CompositeKey = (nodeAt txs n).CompositeKey → m = n

theorem Valid.nodup_level (valid : Valid txs cq) (hApart : Apart txs .w (CreateGraph txs).keys cq)
    (oneContract : OneContract txs) (once : WritesOnce txs) (hIds : ids.Perm (CreateGraph txs).ids)
    (seq : Int) :
    ((cq.levelTasks ids seq).flatten.map fun n => (cq.node n).RWSet.Key).Nodup := by
  rw [map_flatten, nodup_flatten]
  constructor
  · intro keys hKeys
    obtain ⟨task, hTask, rfl⟩ := mem_map.mp hKeys
    obtain ⟨t, ht, rfl⟩ := mem_map.mp (mem_filter.mp hTask).1
    obtain ⟨i, _, _, _, _, hSet⟩ := valid.mem_commitOrder hIds ht
    rw [hSet]
    refine (nodup_refsOf.filter _).map_on fun m hm n hn hKey => ?_
    obtain ⟨hm, hmWrites⟩ := mem_filter.mp hm
    obtain ⟨hn, hnWrites⟩ := mem_filter.mp hn
    rw [decide_eq_true_eq] at hmWrites hnWrites
    have hComposite := oneContract.compositeKey valid (refsOf_subset hm) (refsOf_subset hn) hmWrites
      hnWrites hKey
    rw [valid.label] at hmWrites hnWrites
    exact once m (refsOf_subset hm) n (refsOf_subset hn)
      ((mem_refsOf.mp hm).1.trans (mem_refsOf.mp hn).1.symm) hmWrites hnWrites hComposite
  · refine pairwise_map.mpr ((valid.levelTasks_disjoint hApart oneContract hIds seq).imp ?_)
    intro task task' hDisjoint key hKey hKey'
    obtain ⟨m, hm, rfl⟩ := mem_map.mp hKey
    obtain ⟨n, hn, hEq⟩ := mem_map.mp hKey'
    exact hDisjoint m hm n hn hEq.symm

end Tasks

section Schedule

/-- The levels one after the other, each as a sequential run of its tasks. -/
def commitInTurn (cq : QueueGraph) (ids : List String) (levels : List Int) (db : DB) : DB :=
  levels.foldl (fun db seq => Interleaving.sequential cq.storeNode (cq.levelTasks ids seq) db) db

/-- Tasks without a common key commute. -/
theorem commute_of_disjoint {task task' : List Ref} (h : ∀ m ∈ task, ∀ n ∈ task',
    (cq.node m).RWSet.Key ≠ (cq.node n).RWSet.Key) :
    Interleaving.Commute cq.storeNode task task' :=
  fun m hm n hn db => storeState_comm (h m hm n hn) db

theorem commitLevels_iff (hCommute : ∀ seq,
    (cq.levelTasks ids seq).Pairwise (Interleaving.Commute cq.storeNode)) (levels : List Int)
    (db db' : DB) : CommitLevels cq ids levels db db' ↔ db' = cq.commitInTurn ids levels db := by
  constructor
  · intro h
    induction h with
    | done => rfl
    | @level seq rest db db' trace hTrace _ ih =>
      rw [ih, hTrace.foldl_eq (hCommute seq)]
      rfl
  · rintro rfl
    induction levels generalizing db with
    | nil => exact .done db
    | cons seq rest ih =>
      have hTrace := Interleaving.trace_sequential (cq.levelTasks ids seq)
      refine .level hTrace ?_
      rw [hTrace.foldl_eq (hCommute seq)]
      exact ih _

/-- The order in which the edges are visited does not matter. -/
theorem commitKeys_perm (hIds : ids.Perm ids') : cq.commitKeys ids = cq.commitKeys ids' := by
  have hPerm := (((hIds.filter fun t => !(cq.Edges t).isAborted).filterMap fun t =>
    ((cq.Edges t).set.head?).map fun n => (cq.node n).Sequence).dedup)
  exact List.Perm.eq_of_pairwise' (pairwise_insertionSort _ _) (pairwise_insertionSort _ _)
    ((perm_insertionSort _ _).trans (hPerm.trans (perm_insertionSort _ _).symm))

theorem commitInTurn_perm (hIds : ids.Perm ids') (hCommute : ∀ seq,
    (cq.levelTasks ids seq).Pairwise (Interleaving.Commute cq.storeNode)) (levels : List Int)
    (db : DB) : cq.commitInTurn ids levels db = cq.commitInTurn ids' levels db := by
  unfold commitInTurn
  congr 1
  funext db seq
  refine Interleaving.sequential_perm ?_ (hCommute seq) db
  exact (((hIds.filter _).map _).filter _)

/-- Transaction 0 reads and writes one key and writes the key that 1 writes. -/
def writeBehind : List (List RWNode) :=
  let key (name value : String) : RWSet := ⟨name, value⟩
  [ CreateRWNode "0" 0 "c" [key "0" ""] [key "0" "x", key "1" "x"],
    CreateRWNode "1" 0 "c" [] [key "1" "y"] ]

end Schedule

end QueueGraph

end Nezha
