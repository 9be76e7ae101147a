import NezhaConcurrency.Core.QueueRanking
import NezhaConcurrency.Core.SortedQueue
import NezhaConcurrency.Library.Overlay

/-! The sequence numbers after `DeSS`. Each queue is in order when it has been
sorted. Sorting a later queue moves whole transactions, so the earlier order
survives only if no reader of an earlier queue is moved past its writers. -/
namespace Nezha

open List

namespace QueueGraph

variable {txs : List (List RWNode)} {cq : QueueGraph} {label : Label} {done : List String}
  {bound : Int}

/-- How two transactions with different operations on one key must be numbered,
if the second one writes it. -/
def InOrder : Label → Int → Int → Prop
  | .r => (· < ·)
  | .w => (· ≠ ·)

/-- The transactions that are not aborted are in order on the queues `done`. -/
def Apart (txs : List (List RWNode)) (label : Label) (done : List String) (cq : QueueGraph) : Prop :=
  ∀ key ∈ done, ∀ i j, i ≠ j → Touches txs label i key → Touches txs .w j key →
    cq.aborted i = false → cq.aborted j = false → InOrder label (cq.seq i) (cq.seq j)

/-- Sorting the queue of `key` does not move a transaction that has an operation
on a key in `done` which another one writes, if both are not aborted. -/
def Settled (txs : List (List RWNode)) (label : Label) (done : List String) (cq : QueueGraph)
    (key : String) : Prop :=
  ∀ sorted ∈ done, ∀ i < txs.length, ∀ j < txs.length, i ≠ j →
    Touches txs label i sorted ∧ Touches txs .w j sorted →
    (cq.sortInQueue key).aborted i = false ∧ (cq.sortInQueue key).aborted j = false →
    (cq.sortInQueue key).seq i = cq.seq i

/-- Every call of `DeSS` leaves the queues before it settled. -/
def Steady (txs : List (List RWNode)) (label : Label) (done : List String) (cq : QueueGraph) :
    List String → Prop
  | [] => True
  | key :: rest =>
    Settled txs label done cq key ∧ Steady txs label (done ++ [key]) (cq.sortInQueue key) rest

instance (key : String) : Decidable (Settled txs label done cq key) :=
  inferInstanceAs (Decidable (∀ sorted ∈ done, ∀ i < txs.length, ∀ j < txs.length, i ≠ j →
    Touches txs label i sorted ∧ Touches txs .w j sorted →
    (cq.sortInQueue key).aborted i = false ∧ (cq.sortInQueue key).aborted j = false →
    (cq.sortInQueue key).seq i = cq.seq i))

instance Steady.decidable (txs : List (List RWNode)) (label : Label) : (done : List String) →
    (cq : QueueGraph) → (sequence : List String) → Decidable (Steady txs label done cq sequence)
  | _, _, [] => isTrue trivial
  | done, cq, key :: rest =>
    have := Steady.decidable txs label (done ++ [key]) (cq.sortInQueue key) rest
    inferInstanceAs (Decidable (Settled txs label done cq key ∧
      Steady txs label (done ++ [key]) (cq.sortInQueue key) rest))

/-- The queues `done` have been sorted and no others. -/
structure Sorted (txs : List (List RWNode)) (done : List String) (bound : Int) (cq : QueueGraph) :
    Prop where
  valid : Valid txs cq
  inRange : cq.InRange bound
  fresh : ∀ key, key ∉ done → (cq.Queues key).maxRead = 0
  numbered : ∀ key ∈ done, ∀ label i, Touches txs label i key → cq.seq i ≠ 0

theorem Sorted.sortInQueue (captured : Captured txs) (sorted : Sorted txs done bound cq)
    (hBound : initialSequence ≤ bound) {key : String} (hNew : key ∉ done)
    (hFits : bound + ((CreateGraph txs).Queues key).wSlice.length < maxInt32) :
    QueueSorted txs key (bound + ((CreateGraph txs).Queues key).wSlice.length) cq
        (cq.sortInQueue key) ∧
      Sorted txs (done ++ [key]) (bound + ((CreateGraph txs).Queues key).wSlice.length)
        (cq.sortInQueue key) := by
  have call := sortInQueue_spec captured sorted.valid sorted.inRange hBound hFits
    (sorted.fresh key hNew)
  refine ⟨call, call.valid, call.inRange, fun other hOther => ?_, fun other hOther label i hi => ?_⟩
  · rw [mem_append, mem_singleton, not_or] at hOther
    rw [call.queues other hOther.2]
    exact sorted.fresh other hOther.1
  · by_cases hTouched : ∃ label, Touches txs label i key
    · obtain ⟨label', hLabel⟩ := hTouched
      exact call.numbered label' i hLabel
    · rw [call.outside i fun label' h => hTouched ⟨label', h⟩]
      rcases mem_append.mp hOther with hOld | hKey
      · exact sorted.numbered other hOld label i hi
      · rw [mem_singleton] at hKey
        exact absurd ⟨label, hKey ▸ hi⟩ hTouched

/-- One more queue is in order, and the earlier ones stay so when they are settled. -/
theorem Apart.sortInQueue {key : String} (apart : Apart txs label done cq)
    (call : QueueSorted txs key bound cq (cq.sortInQueue key))
    (settled : Settled txs label done cq key) :
    Apart txs label (done ++ [key]) (cq.sortInQueue key) := by
  intro sorted hSorted i j hne hi hj hiLive hjLive
  have before : ∀ {label' : Label} {t : Nat}, Touches txs label' t sorted →
      (cq.sortInQueue key).aborted t = false →
      cq.aborted t = false ∧ cq.seq t ≤ (cq.sortInQueue key).seq t := by
    intro label' t ht hLive
    obtain ⟨n, hn, rfl, _⟩ := touches_iff.mp ht
    exact ⟨Bool.of_not_eq_true fun h =>
      Bool.false_ne_true (hLive.symm.trans (call.aborted n hn h)), call.mono n hn hLive⟩
  rcases mem_append.mp hSorted with hOld | hNew
  · have hOrder := apart sorted hOld i j hne hi hj (before hi hiLive).1 (before hj hjLive).1
    have hiSame := settled sorted hOld i hi.lt j hj.lt hne ⟨hi, hj⟩ ⟨hiLive, hjLive⟩
    rw [hiSame]
    cases label with
    | r => exact lt_of_lt_of_le hOrder (before hj hjLive).2
    | w =>
      rw [settled sorted hOld j hj.lt i hi.lt hne.symm ⟨hj, hi⟩ ⟨hjLive, hiLive⟩]
      exact hOrder
  · rw [mem_singleton] at hNew
    subst hNew
    cases label with
    | r => exact call.readWrite i j hne hi hj hiLive hjLive
    | w => exact call.writeWrite i j hne hi hj hiLive hjLive

/-- The largest number that sorting the queues of `sequence` can add. -/
def room (txs : List (List RWNode)) (sequence : List String) : Nat :=
  (sequence.map fun key => ((CreateGraph txs).Queues key).wSlice.length).sum

theorem add_room_cons (bound : Int) (txs : List (List RWNode)) (key : String) (rest : List String) :
    bound + room txs (key :: rest) =
      bound + ((CreateGraph txs).Queues key).wSlice.length + room txs rest := by
  simp only [room, map_cons, sum_cons]
  omega

theorem Sorted.deSS (captured : Captured txs) (sorted : Sorted txs done bound cq)
    (sequence : List String) (hNodup : (done ++ sequence).Nodup)
    (hBound : initialSequence ≤ bound) (hFits : bound + room txs sequence < maxInt32) :
    Sorted txs (done ++ sequence) (bound + room txs sequence) (cq.DeSS sequence) := by
  induction sequence generalizing cq done bound with
  | nil =>
    have hRoom : bound + room txs [] = bound := by simp [room]
    rw [append_nil, hRoom]
    exact sorted
  | cons key rest ih =>
    have hNew : key ∉ done := fun h =>
      (nodup_append'.mp hNodup).2.2 h mem_cons_self
    rw [add_room_cons] at hFits ⊢
    rw [append_cons] at hNodup ⊢
    obtain ⟨_, hSorted⟩ := sorted.sortInQueue captured hBound hNew (by omega)
    exact ih hSorted hNodup (by omega) hFits

theorem Apart.deSS (captured : Captured txs) (sorted : Sorted txs done bound cq)
    (sequence : List String) (hNodup : (done ++ sequence).Nodup)
    (hBound : initialSequence ≤ bound) (hFits : bound + room txs sequence < maxInt32)
    (apart : Apart txs label done cq) (steady : Steady txs label done cq sequence) :
    Apart txs label (done ++ sequence) (cq.DeSS sequence) := by
  induction sequence generalizing cq done bound with
  | nil => rwa [append_nil]
  | cons key rest ih =>
    have hNew : key ∉ done := fun h =>
      (nodup_append'.mp hNodup).2.2 h mem_cons_self
    rw [add_room_cons] at hFits
    rw [append_cons] at hNodup ⊢
    obtain ⟨call, hSorted⟩ := sorted.sortInQueue captured hBound hNew (by omega)
    exact ih hSorted hNodup (by omega) hFits (apart.sortInQueue call steady.1) steady.2

theorem sorted_createGraph (captured : Captured txs) :
    Sorted txs [] initialSequence (CreateGraph txs) where
  valid := valid_createGraph captured
  inRange := by
    intro i
    left
    by_cases hNode : ⟨i, 0⟩ ∈ refs txs
    · exact (captured.fresh _ hNode).1
    · have hEmpty : ((txs[i]?).getD []).length = 0 := by
        rw [mem_refs, mem_refsOf] at hNode
        simp only [true_and, not_lt, Nat.le_zero] at hNode
        exact hNode
      change (nodeAt txs ⟨i, 0⟩).Sequence = 0
      simp only [nodeAt, eq_nil_of_length_eq_zero hEmpty]
      rfl
  fresh := fun _ _ => rfl
  numbered := fun _ h => absurd h not_mem_nil

section Pipeline

variable (captured : Captured txs) {range : String → List String → List String}
  (hRange : ∀ key kks, (range key kks).Perm kks) (hNonempty : refs txs ≠ [])
  (hFits : ((writeNodes txs).length : Int) + 10 < maxInt32)

include captured hRange hNonempty hFits

/-- The whole pipeline. -/
theorem pipeline_spec (label : Label) :
    ∃ sequence, (CreateGraph txs).QueuesSort range = some sequence ∧
      sequence.Perm (CreateGraph txs).keys ∧
      Sorted txs sequence (10 + (writeNodes txs).length) ((CreateGraph txs).DeSS sequence) ∧
      (Steady txs label [] (CreateGraph txs) sequence →
        Apart txs label sequence ((CreateGraph txs).DeSS sequence)) := by
  have hLimits : maxInt32 < AlGraph.maxInt64 := by decide
  obtain ⟨sequence, hRun, hPerm⟩ :=
    queuesSort_total captured hRange hNonempty (by omega)
  have hNodup : sequence.Nodup := hPerm.nodup_iff.mpr nodup_keys
  have hRoom : room txs sequence ≤ (writeNodes txs).length := sum_wSlice_le hNodup
  have hStart := sorted_createGraph captured
  have hFirst : initialSequence = 10 := rfl
  have hSorted := hStart.deSS captured sequence hNodup (le_refl _) (by omega)
  refine ⟨sequence, hRun, hPerm, ⟨hSorted.valid, fun i => ?_, hSorted.fresh, hSorted.numbered⟩, ?_⟩
  · have := hSorted.inRange i
    omega
  · intro steady
    refine Apart.deSS captured hStart sequence hNodup (le_refl _) (by omega) ?_ steady
    exact fun _ h => absurd h not_mem_nil

end Pipeline

section Serial

/-- The writes captured for a transaction. -/
def capturedWrites (txs : List (List RWNode)) (i : Nat) : List (String × Bytes) :=
  (((txs[i]?).getD []).filter fun rw => rw.Label = .w).map fun rw => (rw.CompositeKey, rw.RWSet.Value)

theorem mem_keys_capturedWrites {i : Nat} {key : String} :
    key ∈ Overlay.keys (capturedWrites txs i) ↔ Touches txs .w i key := by
  unfold Overlay.keys capturedWrites Touches keysOf
  rw [map_map]
  cases txs[i]? <;> simp

/-- The nodes of each transaction were captured by simulating it on `state`. -/
def Simulated (txs : List (List RWNode)) (state : String → Bytes)
    (programs : Nat → Overlay.Program String Bytes (List (String × Bytes))) : Prop :=
  ∀ i < txs.length, ∃ reads, (programs i).run state = some (reads, capturedWrites txs i) ∧
    ∀ key ∈ reads, Touches txs .r i key

/-- If reads are numbered below writes, a serial execution in the order of the
numbers writes what was captured. -/
theorem serial_of_apart (hApart : Apart txs .r (CreateGraph txs).keys cq) {state : String → Bytes}
    {programs : Nat → Overlay.Program String Bytes (List (String × Bytes))}
    (simulated : Simulated txs state programs) {order : List Nat}
    (hCommitted : ∀ i ∈ order, i < txs.length ∧ cq.aborted i = false)
    (hOrder : order.Pairwise fun i j => i ≠ j ∧ cq.seq i ≤ cq.seq j) :
    Overlay.serial state programs (fun _ => none) order =
      some (Overlay.mergeAll (fun _ => none) (capturedWrites txs) order) := by
  choose! reads hRun hReads using simulated
  refine Overlay.serial_of_unread order (fun i hi => hRun i (hCommitted i hi).1) ?_ _
    fun _ _ _ _ => rfl
  refine hOrder.imp_of_mem fun {i j} hi hj hij key hWrite hRead => ?_
  have hWriter := mem_keys_capturedWrites.mp hWrite
  have hReader := hReads j (hCommitted j hj).1 key hRead
  obtain ⟨n, hn, _, _, hKey⟩ := touches_iff.mp hReader
  have hLess : cq.seq j < cq.seq i := hApart key (mem_keys.mpr ⟨n, hn, hKey⟩) j i hij.1.symm hReader
    hWriter (hCommitted j hj).2 (hCommitted i hi).2
  exact absurd hij.2 hLess.not_ge

/-- Transactions 0 and 1 read and write one key that 2 reads, and 3 writes as 2 does. -/
def oneAborted : List (List RWNode) :=
  let key (name : String) : RWSet := ⟨name, ""⟩
  [ CreateRWNode "0" 0 "c" [key "0"] [key "0"], CreateRWNode "1" 0 "c" [key "0"] [key "0"],
    CreateRWNode "2" 0 "c" [key "0"] [key "1"],
    CreateRWNode "3" 0 "c" [] [key "1"] ]

theorem captured_oneAborted : Captured oneAborted := ⟨by decide +kernel, by decide +kernel⟩

/-- Transaction 1 reads and writes both keys, 0 writes the first of them. -/
def readBehind : List (List RWNode) :=
  let key (name : String) : RWSet := ⟨name, ""⟩
  [ CreateRWNode "0" 0 "c" [] [key "0"],
    CreateRWNode "1" 0 "c" [key "0", key "1"] [key "0", key "1"] ]

end Serial

end QueueGraph

end Nezha
