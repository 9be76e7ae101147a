import NezhaConcurrency.Core.AddressRanking
import NezhaConcurrency.Core.SortInQueue

/-! `QueuesSort` ranks every queue of a captured list exactly once, also when the
dependencies of the queues have cycles and whatever order the maps are visited
in. -/
namespace Nezha

open List

open scoped List

namespace QueueGraph

variable {txs : List (List RWNode)}

theorem mem_keys {key : String} : key ∈ (CreateGraph txs).keys ↔
    ∃ n ∈ refs txs, (nodeAt txs n).CompositeKey = key := by
  change key ∈ List.dedup _ ↔ _
  rw [mem_dedup, mem_map]

theorem nodup_keys : (CreateGraph txs).keys.Nodup := nodup_dedup _

/-- The write nodes of all transactions. -/
def writeNodes (txs : List (List RWNode)) : List Ref :=
  (refs txs).filter fun n => (nodeAt txs n).Label ≠ .r

theorem sum_wSlice_le {sequence : List String} (nodup : sequence.Nodup) :
    (sequence.map fun key => ((CreateGraph txs).Queues key).wSlice.length).sum ≤
      (writeNodes txs).length := by
  have hCount : ∀ key, ((CreateGraph txs).Queues key).wSlice.length =
      ((writeNodes txs).map fun n => (nodeAt txs n).CompositeKey).count key := by
    intro key
    change (((refs txs).filter _).filter _).length = _
    unfold writeNodes
    rw [filter_comm, ← countP_eq_length_filter, List.count, countP_map]
    exact countP_congr fun n _ => by simp
  simp only [hCount]
  calc _ ≤ ((writeNodes txs).map fun n => (nodeAt txs n).CompositeKey).length :=
        Count.sum_count_le nodup _
    _ = (writeNodes txs).length := length_map _

theorem mem_temp_of_edges
    (hEdges : ∀ w ∈ refs txs, ∀ n ∈ ((CreateGraph txs).edgeOf w).set, n ∈ refs txs)
    {key kk : String} (h : kk ∈ (CreateGraph txs).temp key) :
    kk ∈ (CreateGraph txs).keys ∧ kk ≠ key := by
  unfold temp at h
  rw [mem_dedup, mem_flatMap] at h
  obtain ⟨w, hw, hkk⟩ := h
  obtain ⟨n, hn, rfl⟩ := mem_map.mp hkk
  obtain ⟨hwRefs, hKey, _⟩ := mem_wSlice.mp hw
  obtain ⟨hSet, hOther⟩ := mem_filter.mp hn
  refine ⟨mem_keys.mpr ⟨n, hEdges w hwRefs n hSet, rfl⟩, ?_⟩
  rw [← hKey]
  exact (of_decide_eq_true hOther).2

theorem mem_temp (captured : Captured txs) {key kk : String} (h : kk ∈ (CreateGraph txs).temp key) :
    kk ∈ (CreateGraph txs).keys ∧ kk ≠ key := by
  refine mem_temp_of_edges (fun w hw n hn => ?_) h
  rw [edges_createGraph captured hw] at hn
  exact refsOf_subset hn

theorem perm_sortedStrings (cq : QueueGraph) : cq.sortedStrings.Perm cq.keys :=
  perm_insertionSort _ _

theorem length_sortedStrings (cq : QueueGraph) : cq.sortedStrings.length = cq.keys.length :=
  (perm_sortedStrings cq).length_eq

theorem map_range_sortedStrings (cq : QueueGraph) :
    (List.range cq.sortedStrings.length).map (fun o => (cq.sortedStrings[o]?).getD "") =
      cq.sortedStrings := by
  refine ext_getElem (by simp) fun o h _ => ?_
  rw [length_map, length_range] at h
  simp [h]

/-- Without a node there is no queue, and the sort takes vertex zero of none. -/
theorem queuesSort_none (hEmpty : refs txs = []) (range : String → List String → List String) :
    (CreateGraph txs).QueuesSort range = none := by
  have hKeys : (CreateGraph txs).keys = [] := by simp [CreateGraph, hEmpty]
  have hStrings : (CreateGraph txs).sortedStrings = [] := by simp [sortedStrings, hKeys]
  have hDeps : (CreateGraph txs).deps range = [] := by simp [deps, hStrings]
  rw [QueuesSort, hDeps]
  rfl

section Dependencies

variable (cq : QueueGraph) {range : String → List String → List String}
  (hTemp : ∀ key kk, kk ∈ cq.temp key → kk ∈ cq.keys ∧ kk ≠ key)
  (hRange : ∀ key kks, (range key kks).Perm kks)

include hTemp hRange

theorem mem_visited {key kk : String} (h : kk ∈ range key (cq.temp key)) :
    kk ∈ cq.sortedStrings ∧ kk ≠ key := by
  rw [(perm_sortedStrings _).mem_iff]
  exact hTemp key kk ((hRange key _).mem_iff.mp h)

/-- The dependencies of the queues of any state, each on other queues that exist. -/
def depGraph : Graph where
  adj := cq.deps range
  inRange := by
    intro row hRow v hv
    obtain ⟨key, _, rfl⟩ := mem_map.mp hRow
    obtain ⟨kk, hkk, rfl⟩ := mem_map.mp hv
    unfold deps
    rw [length_map]
    exact idxOf_lt_length_iff.mpr (mem_visited cq hTemp hRange hkk).1

theorem nvertices_depGraph : (depGraph cq hTemp hRange).nvertices = cq.keys.length := by
  change (cq.deps range).length = _
  unfold deps
  rw [length_map, length_sortedStrings]

theorem succ_depGraph {u : Nat} {key : String} (hu : cq.sortedStrings[u]? = some key) :
    (depGraph cq hTemp hRange).succ u =
      (range key (cq.temp key)).map fun kk => cq.sortedStrings.idxOf kk := by
  change ((cq.deps range)[u]?).getD [] = _
  unfold deps
  rw [getElem?_map, hu]
  rfl

theorem depGraph_key {u v : Nat} (h : (depGraph cq hTemp hRange).Edge u v) :
    ∃ key, cq.sortedStrings[u]? = some key := by
  have hu := h.lt.1
  rw [nvertices_depGraph, ← length_sortedStrings] at hu
  exact ⟨_, getElem?_eq_getElem hu⟩

theorem depGraph_noLoop (u : Nat) : ¬ (depGraph cq hTemp hRange).Edge u u := by
  intro h
  obtain ⟨key, hu⟩ := depGraph_key cq hTemp hRange h
  have hEdge : u ∈ (depGraph cq hTemp hRange).succ u := h
  rw [succ_depGraph cq hTemp hRange hu] at hEdge
  obtain ⟨kk, hkk, hIdx⟩ := mem_map.mp hEdge
  obtain ⟨hIn, hne⟩ := mem_visited cq hTemp hRange hkk
  have hGet : cq.sortedStrings[u]? = some kk := by
    rw [← hIdx]
    exact getElem?_idxOf hIn
  exact hne (Option.some.inj (hGet.symm.trans hu))

theorem depGraph_nodup (u : Nat) : ((depGraph cq hTemp hRange).succ u).Nodup := by
  cases hu : cq.sortedStrings[u]? with
  | none =>
    have hNil : (depGraph cq hTemp hRange).succ u = [] := by
      refine eq_nil_iff_forall_not_mem.mpr fun v hv => ?_
      obtain ⟨key, hKey⟩ := depGraph_key cq hTemp hRange hv
      cases hu.symm.trans hKey
    rw [hNil]
    exact nodup_nil
  | some key =>
    rw [succ_depGraph cq hTemp hRange hu]
    refine List.Nodup.map_on (fun x hx y _ hEq => ?_) ((hRange key _).nodup_iff.mpr ?_)
    · exact (idxOf_inj (mem_visited cq hTemp hRange hx).1).mp hEq
    · exact nodup_dedup _

variable (fits : AlGraph.DegreesFit (depGraph cq hTemp hRange)) (hKeys : cq.keys ≠ [])

include fits hKeys

theorem rankedDeps : ∃ order, (AlGraph.Init (cq.deps range)).AdvancedTopologicalSort = some order ∧
      order.Perm (List.range cq.sortedStrings.length) := by
  have hVertices : 0 < (depGraph cq hTemp hRange).nvertices := by
    rw [nvertices_depGraph]
    exact length_pos_iff.mpr hKeys
  obtain ⟨order, hRun, hPerm⟩ := AlGraph.advancedTopologicalSort_total
    (depGraph_noLoop cq hTemp hRange) fits hVertices
  rw [nvertices_depGraph, ← length_sortedStrings] at hPerm
  exact ⟨order, hRun, hPerm⟩

theorem queuesSort_perm :
    ∃ sequence, cq.QueuesSort range = some sequence ∧ sequence.Perm cq.keys := by
  obtain ⟨order, hRun, hPerm⟩ := rankedDeps cq hTemp hRange fits hKeys
  refine ⟨order.map fun o => (cq.sortedStrings[o]?).getD "", ?_, ?_⟩
  · unfold QueuesSort
    exact congrArg (Option.map _) hRun
  · calc order.map _ ~ (List.range cq.sortedStrings.length).map _ := hPerm.map _
      _ = cq.sortedStrings := map_range_sortedStrings _
      _ ~ cq.keys := perm_sortedStrings _

end Dependencies

theorem keys_ne_nil (hNonempty : refs txs ≠ []) : (CreateGraph txs).keys ≠ [] := by
  obtain ⟨n, hn⟩ := exists_mem_of_ne_nil _ hNonempty
  exact ne_nil_of_mem (mem_keys.mpr ⟨n, hn, rfl⟩)

section Ranking

variable (captured : Captured txs) {range : String → List String → List String}
  (hRange : ∀ key kks, (range key kks).Perm kks)

include captured hRange

/-- The dependencies as a graph. -/
def dependencies : Graph where
  adj := (CreateGraph txs).deps range
  inRange := (depGraph _ (fun _ _ => mem_temp captured) hRange).inRange

theorem nvertices_dependencies :
    (dependencies captured hRange).nvertices = (CreateGraph txs).keys.length :=
  nvertices_depGraph _ (fun _ _ => mem_temp captured) hRange

theorem succ_dependencies {u : Nat} {key : String}
    (hu : (CreateGraph txs).sortedStrings[u]? = some key) :
    (dependencies captured hRange).succ u = (range key ((CreateGraph txs).temp key)).map
      fun kk => (CreateGraph txs).sortedStrings.idxOf kk :=
  succ_depGraph _ (fun _ _ => mem_temp captured) hRange hu

theorem dependencies_key {u v : Nat} (h : (dependencies captured hRange).Edge u v) :
    ∃ key, (CreateGraph txs).sortedStrings[u]? = some key :=
  depGraph_key _ (fun _ _ => mem_temp captured) hRange h

theorem dependencies_nodup (u : Nat) : ((dependencies captured hRange).succ u).Nodup :=
  depGraph_nodup _ (fun _ _ => mem_temp captured) hRange u

theorem count_dependencies_le {u : Nat} {key : String}
    (hu : (CreateGraph txs).sortedStrings[u]? = some key) (v : Nat) :
    ((dependencies captured hRange).succ u).count v ≤
      ((CreateGraph txs).Queues key).wSlice.length := by
  cases hWrites : ((CreateGraph txs).Queues key).wSlice with
  | nil =>
    have hTemp : (CreateGraph txs).temp key = [] := by simp [temp, hWrites]
    have hNone := hRange key ((CreateGraph txs).temp key)
    rw [hTemp, perm_nil] at hNone
    rw [succ_dependencies captured hRange hu, hTemp, hNone]
    simp
  | cons w ws =>
    have hOnce := nodup_iff_count_le_one.mp (dependencies_nodup captured hRange u) v
    rw [length_cons]
    omega

theorem dependencies_fit (hFits : ((writeNodes txs).length : Int) ≤ AlGraph.maxInt64) :
    AlGraph.DegreesFit (dependencies captured hRange) := by
  intro v
  have hLe : Kahn.incoming (dependencies captured hRange).succ
      (List.range (dependencies captured hRange).nvertices) [] v ≤ (writeNodes txs).length := by
    unfold Kahn.incoming
    rw [nvertices_dependencies, ← length_sortedStrings]
    calc _ ≤ (((List.range (CreateGraph txs).sortedStrings.length).map fun o =>
            ((CreateGraph txs).sortedStrings[o]?).getD "").map fun key =>
              ((CreateGraph txs).Queues key).wSlice.length).sum := by
          rw [map_map]
          refine sum_le_sum fun u hu => ?_
          have hKey := getElem?_eq_getElem (mem_range.mp hu)
          simpa [hKey] using count_dependencies_le captured hRange hKey v
      _ ≤ _ := by
          rw [map_range_sortedStrings]
          exact sum_wSlice_le ((perm_sortedStrings _).nodup_iff.mpr nodup_keys)
  exact le_trans (Int.ofNat_le.mpr hLe) hFits

theorem rankedQueues (hNonempty : refs txs ≠ [])
    (hFits : ((writeNodes txs).length : Int) ≤ AlGraph.maxInt64) :
    ∃ order, (AlGraph.Init ((CreateGraph txs).deps range)).AdvancedTopologicalSort = some order ∧
      order.Perm (List.range (CreateGraph txs).sortedStrings.length) :=
  rankedDeps _ (fun _ _ => mem_temp captured) hRange (dependencies_fit captured hRange hFits)
    (keys_ne_nil hNonempty)

theorem queuesSort_total (hNonempty : refs txs ≠ [])
    (hFits : ((writeNodes txs).length : Int) ≤ AlGraph.maxInt64) :
    ∃ sequence, (CreateGraph txs).QueuesSort range = some sequence ∧
      sequence.Perm (CreateGraph txs).keys :=
  queuesSort_perm _ (fun _ _ => mem_temp captured) hRange (dependencies_fit captured hRange hFits)
    (keys_ne_nil hNonempty)

end Ranking

end QueueGraph

end Nezha
