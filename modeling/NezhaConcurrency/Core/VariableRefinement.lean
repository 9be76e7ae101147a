import NezhaConcurrency.Core.CommitLevels
import NezhaConcurrency.Core.JustifiedAbort
import NezhaConcurrency.Core.Panicking

/-! The variable algorithm beside Nezha. The two calls differ only in what they do with the
transactions that read and write the key of a queue after the first one. If no two transactions
read and write a common key there are no others, so the two go through the same states. -/
namespace Nezha

open List

namespace QueueGraph

variable {txs : List (List RWNode)} {cq : QueueGraph} {key : String}

section Calls

theorem Valid.sortReads (valid : Valid txs cq) {queue : Queue}
    (hRefs : ∀ r ∈ queue.rSlice, r ∈ refs txs) : Valid txs (cq.sortReads queue).1 := by
  unfold QueueGraph.sortReads
  dsimp only
  split
  · rw [foldl_numberPair]
    exact (numberAll_spec valid _ hRefs initialSequence).1
  · refine List.foldlRecOn _ _ (assignAll_spec valid _ fun r hr => hRefs r (mem_of_mem_filter hr)).1
      fun cq' valid' r hr => ?_
    split
    · exact valid'
    · exact valid'.number (hRefs r hr) _

theorem Valid.slices (valid : Valid txs cq) (key : String) :
    (∀ r ∈ (cq.Queues key).rSlice, r ∈ refs txs) ∧ ∀ w ∈ (cq.Queues key).wSlice, w ∈ refs txs := by
  rw [(valid.queues key).1, (valid.queues key).2]
  exact ⟨fun r hr => (mem_rSlice.mp hr).1, fun w hw => (mem_wSlice.mp hw).1⟩

theorem Valid.checkedWrites (captured : Captured txs) (valid : Valid txs cq) (key : String) :
    Valid txs (checkedWrites cq key).cq := by
  obtain ⟨hReads, hWrites⟩ := valid.slices key
  exact (Valid.checkWrites captured (s := ⟨_, [], []⟩) (valid.sortReads hReads) _ _ hWrites).1

theorem Valid.checkWrite_same {maxRead : Int} {s : Checked} {w : Ref} (valid : Valid txs s.cq)
    (hw : w ∈ ((CreateGraph txs).Queues key).wSlice) :
    ∀ v ∈ (checkWrite maxRead s w).tmpWQueue, v ∈ s.tmpWQueue ∨ Touches txs .r v.tx key := by
  obtain ⟨hRefs, hKey, _⟩ := mem_wSlice.mp hw
  have hSame := any_assigned_iff valid hRefs hKey
  have hKept : ∀ v ∈ s.tmpWQueue, v ∈ s.tmpWQueue ∨ Touches txs .r v.tx key :=
    fun v hv => Or.inl hv
  unfold checkWrite
  dsimp only
  split_ifs with _ _ _ hAssigned
  · exact hKept
  · exact hKept
  · intro v hv
    rcases mem_append.mp hv with hv | hv
    · exact hKept v hv
    · obtain ⟨r, hr, hTx, _⟩ := hSame.mp hAssigned
      rw [mem_singleton.mp hv]
      exact Or.inr (touches_r_iff.mpr ⟨r, hr, hTx⟩)
  · exact hKept
  · exact hKept
  · exact hKept

theorem Valid.checkWrites_same (captured : Captured txs) {maxRead : Int} {s : Checked}
    (valid : Valid txs s.cq) (ws : List Ref)
    (hWrites : ∀ w ∈ ws, w ∈ ((CreateGraph txs).Queues key).wSlice) :
    ∀ v ∈ (ws.foldl (checkWrite maxRead) s).tmpWQueue,
      v ∈ s.tmpWQueue ∨ Touches txs .r v.tx key := by
  induction ws generalizing s with
  | nil => exact fun v hv => Or.inl hv
  | cons w ws ih =>
    have hw := hWrites w mem_cons_self
    have hNext := (Valid.checkWrites captured valid maxRead [w]
      (by simpa using (mem_wSlice.mp hw).1)).1
    intro v hv
    rcases ih hNext (fun x hx => hWrites x (mem_cons_of_mem _ hx)) v hv with hEarlier | hReads
    · exact valid.checkWrite_same hw v hEarlier
    · exact Or.inr hReads

theorem checkedWrites_sublist (cq : QueueGraph) (key : String) :
    (QueueGraph.checkedWrites cq key).tmpWQueue.Sublist (cq.Queues key).wSlice :=
  checkWrites_sublist ..

theorem checkWrites_later (maxRead : Int) (ws : List Ref) (s : Checked) :
    ∀ ww ∈ (ws.foldl (checkWrite maxRead) s).tmpWQueue2, ww ∈ s.tmpWQueue2 ∨ ww.2 ∈ ws := by
  induction ws generalizing s with
  | nil => exact fun ww hww => Or.inl hww
  | cons w ws ih =>
    intro ww hww
    rcases ih _ ww hww with hEarlier | hm
    · rcases checkWrite_tmpWQueue2 maxRead s w with hSame | hMore
      · exact Or.inl (hSame ▸ hEarlier)
      · rw [hMore] at hEarlier
        rcases mem_append.mp hEarlier with hOld | hNew
        · exact Or.inl hOld
        · rw [mem_singleton.mp hNew]
          exact Or.inr mem_cons_self
    · exact Or.inr (mem_cons_of_mem _ hm)

theorem Valid.sortInQueue (captured : Captured txs) (valid : Valid txs cq) (key : String) :
    Valid txs (cq.sortInQueue key) := by
  obtain ⟨_, hWrites⟩ := valid.slices key
  have hSame : ∀ w ∈ (QueueGraph.checkedWrites cq key).tmpWQueue, w ∈ refs txs :=
    fun w hw => hWrites w ((checkedWrites_sublist cq key).subset hw)
  have hLater : ∀ ww ∈ (QueueGraph.checkedWrites cq key).tmpWQueue2, ww.2 ∈ refs txs :=
    fun ww hww => hWrites ww.2 ((checkWrites_later _ _ _ ww hww).resolve_left not_mem_nil)
  obtain ⟨last, queue, hNumbers, ⟨hReadSlice, hWriteSlice⟩, hCall⟩ :=
    sortInQueue_numbers hWrites hLater
  have hMiddle : Valid txs (sameSorted cq key).1 :=
    (valid.checkedWrites captured key).sortSame captured hSame _ _
  have hLast := (hMiddle.numbers hNumbers).1
  rw [hCall]
  refine hLast.updateQueue (hReadSlice.trans ?_) (hWriteSlice.trans ?_)
  · exact (valid.queues key).1.trans (hLast.queues key).1.symm
  · exact (valid.queues key).2.trans (hLast.queues key).2.symm

end Calls

/-- No two transactions read and write a common key. -/
def ReadWriteApart (txs : List (List RWNode)) : Prop :=
  ∀ i j key, Touches txs .r i key → Touches txs .w i key →
    Touches txs .r j key → Touches txs .w j key → i = j

/-- At most one write of a queue is set aside. -/
theorem Valid.length_tmpWQueue (captured : Captured txs) (once : OncePerKey txs)
    (apart : ReadWriteApart txs) (valid : Valid txs cq) (key : String) :
    (QueueGraph.checkedWrites cq key).tmpWQueue.length ≤ 1 := by
  have hSlice := (valid.queues key).2
  have hSublist : (QueueGraph.checkedWrites cq key).tmpWQueue.Sublist
      ((CreateGraph txs).Queues key).wSlice := by
    rw [← hSlice]
    exact checkedWrites_sublist cq key
  have hReads : ∀ w ∈ (QueueGraph.checkedWrites cq key).tmpWQueue, Touches txs .r w.tx key := by
    intro w hw
    refine (Valid.checkWrites_same captured (valid.sortReads (valid.slices key).1) _ ?_ w
      hw).resolve_left not_mem_nil
    rw [hSlice]
    exact fun w hw => hw
  have hNodup := hSublist.nodup nodup_wSlice
  generalize (QueueGraph.checkedWrites cq key).tmpWQueue = tmpWQueue at hSublist hReads hNodup
  match tmpWQueue with
  | [] => exact Nat.zero_le 1
  | [_] => exact Nat.le_refl 1
  | first :: second :: rest =>
    have hFirst := hSublist.subset (mem_cons_self : first ∈ first :: second :: rest)
    have hSecond := hSublist.subset
      (mem_cons_of_mem first mem_cons_self : second ∈ first :: second :: rest)
    have hTx := apart first.tx second.tx key (hReads first (by simp))
      (touches_w_iff.mpr ⟨first, hFirst, rfl⟩) (hReads second (by simp))
      (touches_w_iff.mpr ⟨second, hSecond, rfl⟩)
    obtain ⟨hFirstRefs, hFirstKey, hFirstLabel⟩ := mem_wSlice.mp hFirst
    obtain ⟨hSecondRefs, hSecondKey, hSecondLabel⟩ := mem_wSlice.mp hSecond
    have hEq := once first hFirstRefs second hSecondRefs hTx
      (hFirstLabel.trans hSecondLabel.symm) (hFirstKey.trans hSecondKey.symm)
    exact absurd (hEq ▸ mem_cons_self) (nodup_cons.mp hNodup).1

end QueueGraph

/-! `NezhaVariableData` has the fields of `QueueGraph`, and its functions are written out
again in the source. -/
namespace NezhaVariableData

open QueueGraph

/-- Every transaction that reads and writes the key moves behind the reads, each with a number
of its own. -/
def sortSame (nv : QueueGraph) (maxRead maxWrite : Int) (tmpWQueue : List Ref) :
    QueueGraph × Int × Int :=
  Panicking.variableSorted nv maxRead maxWrite tmpWQueue

def sortInQueue (nv : QueueGraph) (key : String) : QueueGraph :=
  Panicking.sortedBy sortSame nv key

def DeSS (nv : QueueGraph) (sequence : List String) : QueueGraph :=
  sequence.foldl sortInQueue nv

def commitOrder (nv : QueueGraph) (ids : List String) (seq : Int) : List (List Ref) :=
  QueueGraph.commitOrder nv ids seq

variable {txs : List (List RWNode)} {cq : QueueGraph}

theorem sortSame_eq {tmpWQueue : List Ref} (hLength : tmpWQueue.length ≤ 1)
    (maxRead maxWrite : Int) :
    sortSame cq maxRead maxWrite tmpWQueue = cq.sortSame maxRead maxWrite tmpWQueue := by
  match tmpWQueue with
  | [] => rfl
  | [w] => rfl
  | _ :: _ :: _ => simp at hLength

theorem sortInQueue_eq (captured : Captured txs) (once : OncePerKey txs)
    (apart : ReadWriteApart txs) (valid : Valid txs cq) (key : String) :
    sortInQueue cq key = cq.sortInQueue key := by
  rw [← Panicking.sortedBy_sortSame]
  have hMiddle : ∀ maxRead maxWrite, sortSame (checkedWrites cq key).cq maxRead maxWrite
      (checkedWrites cq key).tmpWQueue = QueueGraph.sortSame (checkedWrites cq key).cq maxRead
        maxWrite (checkedWrites cq key).tmpWQueue :=
    sortSame_eq (valid.length_tmpWQueue captured once apart key)
  unfold checkedWrites at hMiddle
  unfold sortInQueue Panicking.sortedBy
  dsimp only
  rw [hMiddle]

/-- All the calls. -/
theorem deSS_eq_nezha (captured : Captured txs) (once : OncePerKey txs)
    (apart : ReadWriteApart txs) (valid : Valid txs cq) (sequence : List String) :
    DeSS cq sequence = cq.DeSS sequence := by
  induction sequence generalizing cq with
  | nil => rfl
  | cons key sequence ih =>
    change DeSS (sortInQueue cq key) sequence = (cq.sortInQueue key).DeSS sequence
    rw [sortInQueue_eq captured once apart valid key]
    exact ih (valid.sortInQueue captured key)

/-- If no two transactions read and write a common key, then for every order of the queues the
variable algorithm gives every node the number that Nezha gives it, aborts the same
transactions and returns the same levels, whatever the orders in which the edges are visited. -/
theorem variable_refines_nezha (captured : Captured txs) (hNonempty : [] ∉ txs)
    (once : OncePerKey txs) (apart : ReadWriteApart txs) (sequence : List String) :
    ∃ nv, Panicking.CreateVariableGraph txs = some nv ∧ (∀ n, ((DeSS nv sequence).node n).Sequence =
        (((CreateGraph txs).DeSS sequence).node n).Sequence) ∧
      (∀ i, (DeSS nv sequence).aborted i = ((CreateGraph txs).DeSS sequence).aborted i) ∧
      ∀ ids ids', ids.Perm nv.ids → ids'.Perm (CreateGraph txs).ids → ∀ level,
        (commitOrder (DeSS nv sequence) ids level).Perm
          (((CreateGraph txs).DeSS sequence).commitOrder ids' level) := by
  refine ⟨CreateGraph txs, ?_, ?_⟩
  · rw [Panicking.createVariableGraph_eq, if_neg hNonempty]
  · rw [deSS_eq_nezha captured once apart (valid_createGraph captured)]
    refine ⟨fun _ => rfl, fun _ => rfl, fun ids ids' hIds hIds' level => ?_⟩
    exact ((hIds.trans hIds'.symm).filter _).map _

/-- Each of the two reads what the other one writes. -/
def crossing : List (List RWNode) :=
  [CreateRWNode "0" 0 "c" [⟨"0", ""⟩] [⟨"1", ""⟩], CreateRWNode "1" 0 "c" [⟨"1", ""⟩] [⟨"0", ""⟩]]

theorem readWriteApart_crossing : ReadWriteApart crossing := by
  intro i j key hReads hWrites _ _
  obtain ⟨tx, hTx, hReadKey⟩ := hReads
  obtain ⟨tx', hTx', hWriteKey⟩ := hWrites
  obtain rfl : tx = tx' := Option.some.inj (hTx.symm.trans hTx')
  have hMem : tx ∈ crossing := mem_of_getElem? hTx
  have hNone : ∀ tx ∈ crossing, ∀ key ∈ keysOf .r tx, key ∉ keysOf .w tx := by decide +kernel
  exact absurd hWriteKey (hNone tx hMem key hReadKey)

/-- The first one is aborted and the second one is alone in its level. -/
theorem crossing_refines : (DeSS (CreateGraph crossing) ["c:0", "c:1"]).aborted 0 = true ∧
      ((CreateGraph crossing).DeSS ["c:0", "c:1"]).aborted 0 = true ∧
      (commitOrder (DeSS (CreateGraph crossing) ["c:0", "c:1"]) ["1", "0"] 11).Perm [[⟨1, 1⟩]] := by
  have hOnce : OncePerKey crossing := by
    unfold OncePerKey
    decide +kernel
  obtain ⟨nv, hGraph, _, hAborted, hLevels⟩ := variable_refines_nezha
    ⟨by decide +kernel, by decide +kernel⟩ (by decide) hOnce readWriteApart_crossing ["c:0", "c:1"]
  obtain rfl : CreateGraph crossing = nv := Option.some.inj hGraph
  have hNezha : ((CreateGraph crossing).DeSS ["c:0", "c:1"]).aborted 0 = true := by decide +kernel
  have hLevel : ((CreateGraph crossing).DeSS ["c:0", "c:1"]).commitOrder ["0", "1"] 11 =
      [[⟨1, 1⟩]] := by
    decide +kernel
  refine ⟨(hAborted 0).trans hNezha, hNezha, ?_⟩
  exact (hLevels ["1", "0"] ["0", "1"] (by decide +kernel) (by decide +kernel) 11).trans
    (List.Perm.of_eq hLevel)

end NezhaVariableData
end Nezha
