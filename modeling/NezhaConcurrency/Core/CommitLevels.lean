import NezhaConcurrency.Core.LevelCommit

/-! The levels of the commit order that `DeSS` returns. A transaction is found by its
ID; as the IDs are different, visiting the edges in any order visits every
transaction with a node once. -/
namespace Nezha

open List

namespace QueueGraph

variable {txs : List (List RWNode)} {cq : QueueGraph} {ids : List String}

/-- The transactions with a node. -/
def nonempty (txs : List (List RWNode)) : List Nat :=
  (List.range txs.length).filter fun i => refsOf txs i ≠ []

theorem mem_nonempty {i : Nat} : i ∈ nonempty txs ↔ ⟨i, 0⟩ ∈ refs txs := by
  have hFirst : ⟨i, 0⟩ ∈ refs txs ↔ refsOf txs i ≠ [] := by
    rw [mem_refs]
    constructor
    · exact ne_nil_of_mem
    · intro hNonempty
      obtain ⟨n, hn⟩ := exists_mem_of_ne_nil _ hNonempty
      have hFirst := first_mem_refs (refsOf_subset hn)
      rwa [(mem_refsOf.mp hn).1, mem_refs] at hFirst
  rw [hFirst]
  unfold nonempty
  rw [mem_filter, decide_eq_true_eq, mem_range]
  refine and_iff_right_of_imp fun hNonempty => ?_
  by_contra hOut
  apply hNonempty
  rw [refsOf, getElem?_eq_none (Nat.not_lt.mp hOut)]
  rfl

/-- The write nodes of a transaction. -/
def wNodes (txs : List (List RWNode)) (i : Nat) : List Ref :=
  (refsOf txs i).filter fun e => (nodeAt txs e).Label = .w

theorem ids_createGraph (captured : Captured txs) : (CreateGraph txs).ids =
    (nonempty txs).map fun i => (nodeAt txs ⟨i, 0⟩).TransInfo.ID := by
  refine dedup_eq_self.mpr (List.Nodup.map_on (fun i hi j hj hId => ?_) (nodup_range.filter _))
  exact (captured.ids _ (mem_nonempty.mp hi) _ (mem_nonempty.mp hj)).mp hId

/-- A level holds the transactions with its number that are not aborted, each once. -/
theorem Valid.commitOrder_perm (captured : Captured txs) (valid : Valid txs cq)
    (hIds : ids.Perm (CreateGraph txs).ids) (level : Int) :
    (cq.commitOrder ids level).Perm
      (((nonempty txs).filter fun i => decide (cq.aborted i = false ∧ cq.seq i = level)).map
        (wNodes txs)) := by
  rw [ids_createGraph captured] at hIds
  refine ((hIds.filter _).map _).trans (List.Perm.of_eq ?_)
  rw [filter_map, map_map]
  have hTest : ∀ i ∈ nonempty txs, ((fun t => !(cq.Edges t).isAborted && decide
      ((((cq.Edges t).set.head?).map fun n => (cq.node n).Sequence) = some level)) ∘
        fun i => (nodeAt txs ⟨i, 0⟩).TransInfo.ID) i =
      decide (cq.aborted i = false ∧ cq.seq i = level) := by
    intro i hi
    obtain ⟨hSet, hAborted⟩ := valid.edges_id (mem_nonempty.mp hi)
    simp only [Function.comp_apply, hSet, hAborted, head_refsOf (mem_nonempty.mp hi),
      Option.map_some, Option.some.injEq]
    rw [Bool.eq_iff_iff, decide_eq_true_eq]
    simp [seq]
  rw [filter_congr hTest]
  refine map_congr_left fun i hi => ?_
  obtain ⟨hSet, _⟩ := valid.edges_id (mem_nonempty.mp (mem_filter.mp hi).1)
  simp only [Function.comp_apply, hSet, wNodes, valid.label]

/-- After `DeSS` over the ranked queues, the nodes of one transaction have one
number, from ten up to ten more than there are write nodes, and each level of the
commit order holds the transactions of its number that are not aborted, once
each and no others. The queues are ranked unless there is no node at all. -/
theorem sequences_uniform_bounded_complete (captured : Captured txs)
    (hFits : (writeNodes txs).length + 11 < 2 ^ 31) (range : String → List String → List String)
    (hRange : ∀ key kks, (range key kks).Perm kks) :
    (refs txs ≠ [] → ∃ sequence, (CreateGraph txs).QueuesSort range = some sequence) ∧
    ∀ sequence, (CreateGraph txs).QueuesSort range = some sequence →
      ∀ cq, (CreateGraph txs).DeSS sequence = cq → (∀ m ∈ refs txs, ∀ n ∈ refs txs, m.tx = n.tx →
          (cq.node m).Sequence = (cq.node n).Sequence) ∧
        (∀ n ∈ refs txs, 10 ≤ (cq.node n).Sequence ∧
          (cq.node n).Sequence ≤ 10 + (writeNodes txs).length) ∧
        ∀ ids, ids.Perm (CreateGraph txs).ids → ∀ level, (cq.commitOrder ids level).Perm
            (((nonempty txs).filter fun i => decide (cq.aborted i = false ∧ cq.seq i = level)).map
              (wNodes txs)) := by
  have hLimit : ((writeNodes txs).length : Int) + 10 < maxInt32 := by
    unfold maxInt32
    omega
  refine ⟨fun hNonempty => ?_, ?_⟩
  · obtain ⟨sequence, hRun, _⟩ := pipeline_spec captured hRange hNonempty hLimit .r
    exact ⟨sequence, hRun⟩
  rintro sequence hRun cq rfl
  by_cases hNonempty : refs txs = []
  · rw [queuesSort_none hNonempty] at hRun
    cases hRun
  · obtain ⟨ranked, hRanked, hPerm, hSorted, _⟩ :=
      pipeline_spec captured hRange hNonempty hLimit .r
    obtain rfl : sequence = ranked := Option.some.inj (hRun.symm.trans hRanked)
    refine ⟨fun m hm n hn hTx => ?_, fun n hn => ?_, fun ids hIds level =>
      hSorted.valid.commitOrder_perm captured hIds level⟩
    · rw [hSorted.valid.uniform m hm, hSorted.valid.uniform n hn, hTx]
    · have hKey := hPerm.mem_iff.mpr (mem_keys.mpr ⟨n, hn, rfl⟩)
      have hNumbered := hSorted.numbered _ hKey (nodeAt txs n).Label n.tx
        (touches_iff.mpr ⟨n, hn, rfl, rfl, rfl⟩)
      rw [hSorted.valid.uniform n hn]
      exact (hSorted.inRange n.tx).resolve_left hNumbered

/-- Transaction 1 is aborted; 2 is alone in its level, 0 and 3 share the next one. -/
theorem oneAborted_levels :
    (∀ n ∈ refs oneAborted, 10 ≤ (((CreateGraph oneAborted).DeSS ["c:1", "c:0"]).node n).Sequence) ∧
      (((CreateGraph oneAborted).DeSS ["c:1", "c:0"]).commitOrder ["3", "1", "2", "0"] 10).Perm
        [[⟨2, 1⟩]] ∧
      (((CreateGraph oneAborted).DeSS ["c:1", "c:0"]).commitOrder ["3", "1", "2", "0"] 11).Perm
        [[⟨0, 1⟩], [⟨3, 0⟩]] := by
  have hSequence :
      (CreateGraph oneAborted).QueuesSort (fun _ kks => kks) = some ["c:1", "c:0"] := by
    decide +kernel
  have hLevel : ∀ level transactions, (((nonempty oneAborted).filter fun i =>
      decide (((CreateGraph oneAborted).DeSS ["c:1", "c:0"]).aborted i = false ∧
        ((CreateGraph oneAborted).DeSS ["c:1", "c:0"]).seq i = level)).map (wNodes oneAborted)) =
      transactions →
      (((CreateGraph oneAborted).DeSS ["c:1", "c:0"]).commitOrder ["3", "1", "2", "0"] level).Perm
        transactions := by
    rintro level transactions rfl
    exact ((sequences_uniform_bounded_complete captured_oneAborted (by decide +kernel)
      (fun _ kks => kks) fun _ _ => List.Perm.refl _).2 _ hSequence _ rfl).2.2 _
        (by decide +kernel) level
  refine ⟨fun n hn => ?_, hLevel 10 _ (by decide +kernel), hLevel 11 _ (by decide +kernel)⟩
  exact (((sequences_uniform_bounded_complete captured_oneAborted (by decide +kernel)
    (fun _ kks => kks) fun _ _ => List.Perm.refl _).2 _ hSequence _ rfl).2.1 n hn).1

end QueueGraph

end Nezha
