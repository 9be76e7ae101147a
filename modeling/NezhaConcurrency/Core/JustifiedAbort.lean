import NezhaConcurrency.Core.SequenceOrder

/-! Why a transaction is aborted. A write that is numbered behind a read of its
queue aborts its transaction if that has a sorted read elsewhere, and of the
transactions that read and write the key all but the first are aborted. In both
cases another transaction reads the key, as long as no number is negative: the
numbers are 32 bits wide, and the end of the range is only minded when a write is
numbered for the first time. -/
namespace Nezha

open List

namespace QueueGraph

variable {txs : List (List RWNode)} {cq cq' : QueueGraph} {key : String} {bound maxRead : Int}

/-- The transaction reads a key, and another one reads a key that it writes. -/
def Justified (txs : List (List RWNode)) (i : Nat) : Prop :=
  (∃ key, Touches txs .r i key) ∧ ∃ j, j ≠ i ∧ ∃ key, Touches txs .w i key ∧ Touches txs .r j key

/-- At most one read and one write node for each key of a transaction. -/
def OncePerKey (txs : List (List RWNode)) : Prop :=
  ∀ m ∈ refs txs, ∀ n ∈ refs txs, m.tx = n.tx → (nodeAt txs m).Label = (nodeAt txs n).Label →
    (nodeAt txs m).CompositeKey = (nodeAt txs n).CompositeKey → m = n

section Phases

/-- A node is numbered. -/
def Numbers (txs : List (List RWNode)) (cq cq' : QueueGraph) : Prop :=
  ∃ w ∈ refs txs, ∃ v, cq' = cq.number w v

theorem Valid.numbers (valid : Valid txs cq)
    (hNumbers : Relation.ReflTransGen (Numbers txs) cq cq') :
    Valid txs cq' ∧ cq'.Queues = cq.Queues ∧ (∀ i, cq'.aborted i = cq.aborted i) ∧
      ∀ r, (cq.node r).isAssigned = true → (cq'.node r).isAssigned = true := by
  induction hNumbers with
  | refl => exact ⟨valid, rfl, fun _ => rfl, fun _ h => h⟩
  | tail _ hLast ih =>
    obtain ⟨valid', hQueues, hAborted, hAssigned⟩ := ih
    obtain ⟨w, hw, v, rfl⟩ := hLast
    refine ⟨valid'.number hw v, hQueues,
      fun i => (valid'.aborted_number hw v i).trans (hAborted i), fun r hr => ?_⟩
    rw [valid'.isAssigned_number hw, hAssigned r hr, Bool.or_true]

theorem numbers_foldl {Item : Type} {step : QueueGraph × Int → Item → QueueGraph × Int}
    (items : List Item) (hStep : ∀ item ∈ items, ∀ s,
      Relation.ReflTransGen (Numbers txs) s.1 (step s item).1) (s : QueueGraph × Int) :
    Relation.ReflTransGen (Numbers txs) s.1 (items.foldl step s).1 := by
  induction items generalizing s with
  | nil => exact .refl
  | cons item items ih =>
    exact (hStep item mem_cons_self s).trans (ih (fun x hx => hStep x (mem_cons_of_mem _ hx)) _)

theorem numbers_newWrite (keys : List Int) {w : Ref} (hw : w ∈ refs txs) (s : QueueGraph × Int) :
    Relation.ReflTransGen (Numbers txs) s.1 (newWrite keys s w).1 := by
  unfold newWrite
  split
  · exact .refl
  · split
    · exact .single ⟨w, hw, _, rfl⟩
    · exact .refl

theorem numbers_adjustWrite (maxRead n : Int) {ww : Ref × Nat} (hw : ww.1 ∈ refs txs)
    (s : QueueGraph × Int) :
    Relation.ReflTransGen (Numbers txs) s.1 (adjustWrite maxRead n s ww).1 := by
  unfold adjustWrite
  split
  · exact .refl
  · exact .single ⟨ww.1, hw, _, rfl⟩

/-- The writes of a queue after they have been checked. -/
def checkedWrites (cq : QueueGraph) (key : String) : Checked :=
  (cq.Queues key).wSlice.foldl (checkWrite (cq.sortReads (cq.Queues key)).2)
    ⟨(cq.sortReads (cq.Queues key)).1, [], []⟩

/-- The transactions that read and write the key have been sorted, too. -/
def sameSorted (cq : QueueGraph) (key : String) : QueueGraph × Int × Int :=
  let maxRead := (cq.sortReads (cq.Queues key)).2
  sortSame (checkedWrites cq key).cq maxRead
    (if maxRead = 0 then initialSequence - 1 else maxRead) (checkedWrites cq key).tmpWQueue

/-- From there on the call only numbers nodes. -/
theorem sortInQueue_numbers (hRefs : ∀ w ∈ (cq.Queues key).wSlice, w ∈ refs txs)
    (hLater : ∀ ww ∈ (checkedWrites cq key).tmpWQueue2, ww.2 ∈ refs txs) :
    ∃ cq' queue, Relation.ReflTransGen (Numbers txs) (sameSorted cq key).1 cq' ∧
      (queue.rSlice = (cq.Queues key).rSlice ∧ queue.wSlice = (cq.Queues key).wSlice) ∧
      cq.sortInQueue key = { cq' with Queues := Function.update cq'.Queues key queue } := by
  let keys := ((checkedWrites cq key).tmpWQueue2.map Prod.fst).dedup.insertionSort (· ≤ ·)
  let new := (cq.Queues key).wSlice.foldl (newWrite keys)
    ((sameSorted cq key).1, (sameSorted cq key).2.2)
  let adjusted := keys.foldl (fun s n => (((checkedWrites cq key).tmpWQueue2.filter fun ww =>
    ww.1 = n).map Prod.snd).zipIdx.foldl (adjustWrite (sameSorted cq key).2.1 n) s)
    (new.1, lastWrite keys new.2)
  have hNew : Relation.ReflTransGen (Numbers txs) (sameSorted cq key).1 new.1 :=
    numbers_foldl _ (fun w hw s => numbers_newWrite keys (hRefs w hw) s)
      ((sameSorted cq key).1, (sameSorted cq key).2.2)
  have hAdjusted : Relation.ReflTransGen (Numbers txs) new.1 adjusted.1 := by
    refine numbers_foldl _ (fun n _ s => numbers_foldl _ (fun ww hww s => ?_) s)
      (new.1, lastWrite keys new.2)
    apply numbers_adjustWrite
    obtain ⟨pair, hPair, hEq⟩ := mem_map.mp (fst_mem_of_mem_zipIdx hww)
    rw [← hEq]
    exact hLater pair (mem_filter.mp hPair).1
  exact ⟨adjusted.1, { cq.Queues key with
    maxRead := (sameSorted cq key).2.1
    maxWrite := adjusted.2 }, hNew.trans hAdjusted, ⟨rfl, rfl⟩, rfl⟩

end Phases

section Reasons

theorem checkWrites_sublist (maxRead : Int) (ws : List Ref) (s : Checked) :
    (ws.foldl (checkWrite maxRead) s).tmpWQueue.Sublist (s.tmpWQueue ++ ws) := by
  induction ws generalizing s with
  | nil => simp
  | cons w ws ih =>
    refine (ih _).trans ?_
    rcases checkWrite_tmpWQueue maxRead s w with hSame | hMore
    · rw [hSame]
      exact (sublist_cons_self w ws).append_left _
    · rw [hMore, append_assoc]
      exact List.Sublist.refl _

variable {done : List Ref} {s : Checked} {w : Ref}

theorem WritesChecked.justified_checkWrite (captured : Captured txs)
    (checked : WritesChecked txs key maxRead cq done s)
    (hw : w ∈ ((CreateGraph txs).Queues key).wSlice) (hReads : ReadsDone txs key maxRead cq)
    (hReaders : ∀ i, cq.seq i ≠ 0 → cq.seq i ≤ maxRead → ((CreateGraph txs).Queues key).rSlice ≠ [])
    {n : Ref} (hn : n ∈ refs txs)
    (hAborted : (QueueGraph.checkWrite maxRead s w).cq.aborted n.tx = true) :
    s.cq.aborted n.tx = true ∨ Justified txs n.tx := by
  obtain ⟨hwRefs, hKey, hLabel⟩ := mem_wSlice.mp hw
  have hNode : ∀ n, s.cq.node n = cq.node n := fun n => congrArg (nodeAt · n) checked.nodes
  have valid := checked.valid
  rcases checkWrite_cq maxRead s w with hSame | ⟨hAbort, hZero, hLive, hLe, hBefore, hNone⟩
  · rw [hSame] at hAborted
    exact Or.inl hAborted
  rw [hAbort, valid.aborted_abort captured hwRefs hn, Bool.or_eq_true, decide_eq_true_eq]
    at hAborted
  refine hAborted.symm.imp_right fun hTx => ?_
  rw [hTx]
  have hSeq : (s.cq.node w).Sequence = cq.seq w.tx :=
    (valid.uniform w hwRefs).trans (congrArg RWNode.Sequence (hNode ⟨w.tx, 0⟩))
  rw [hSeq] at hZero hLe
  rw [valid.isAborted_eq captured hwRefs] at hLive
  have hLiveBefore : cq.aborted w.tx = false :=
    Bool.of_not_eq_true fun h => hLive (checked.aborted w hwRefs h)
  refine ⟨?_, ?_⟩
  · obtain ⟨r, hr⟩ := exists_mem_of_ne_nil _ hBefore
    rw [valid.edges w hwRefs] at hr
    obtain ⟨hOwn, hRead⟩ := mem_filter.mp hr
    rw [decide_eq_true_eq, valid.label] at hRead
    exact ⟨_, touches_iff.mpr ⟨r, refsOf_subset hOwn, (mem_refsOf.mp hOwn).1, hRead.1, rfl⟩⟩
  · obtain ⟨r, hr⟩ := exists_mem_of_ne_nil _ (hReaders w.tx hZero hLe)
    refine ⟨r.tx, fun hOwn => hNone ?_, key, touches_w_iff.mpr ⟨w, hw, rfl⟩,
      touches_r_iff.mpr ⟨r, hr, rfl⟩⟩
    obtain ⟨_, other, hOther, hOtherTx, hAssigned⟩ := hReads r hr (hOwn ▸ hLiveBefore)
    exact (any_assigned_iff valid hwRefs hKey).mpr
      ⟨other, hOther, hOtherTx.trans hOwn, (hNode other).symm ▸ hAssigned⟩

theorem justified_checkWrites (captured : Captured txs) (valid : Valid txs cq)
    (hReads : ReadsDone txs key maxRead cq)
    (hReaders : ∀ i, cq.seq i ≠ 0 → cq.seq i ≤ maxRead → ((CreateGraph txs).Queues key).rSlice ≠ [])
    {n : Ref} (hn : n ∈ refs txs)
    (hAborted : (((CreateGraph txs).Queues key).wSlice.foldl (checkWrite maxRead)
      ⟨cq, [], []⟩).cq.aborted n.tx = true) :
    cq.aborted n.tx = true ∨ Justified txs n.tx := by
  have hLoop : ∀ (rest done : List Ref) (s : Checked),
      (∀ w ∈ done ++ rest, w ∈ ((CreateGraph txs).Queues key).wSlice) →
      WritesChecked txs key maxRead cq done s →
      (rest.foldl (checkWrite maxRead) s).cq.aborted n.tx = true →
      s.cq.aborted n.tx = true ∨ Justified txs n.tx := by
    intro rest
    induction rest with
    | nil => exact fun done s _ _ h => Or.inl h
    | cons w rest ih =>
      intro done s hAll checked hEnd
      have hw := hAll w (by simp)
      obtain ⟨hwRefs, hKey, _⟩ := mem_wSlice.mp hw
      have hDone : ∀ x ∈ done, x ∈ refs txs :=
        fun x hx => (mem_wSlice.mp (hAll x (mem_append_left _ hx))).1
      rw [append_cons] at hAll
      rcases ih _ _ hAll (checked.checkWrite captured hwRefs hDone hKey hReads) hEnd with
        hStep | h
      · exact checked.justified_checkWrite captured hw hReads hReaders hn hStep
      · exact Or.inr h
  exact hLoop _ [] _ (fun w hw => hw) (WritesChecked.start valid) hAborted

theorem Valid.sortSame (captured : Captured txs) (valid : Valid txs cq) {tmpWQueue : List Ref}
    (hRefs : ∀ w ∈ tmpWQueue, w ∈ refs txs) (maxRead maxWrite : Int) :
    Valid txs (sortSame cq maxRead maxWrite tmpWQueue).1 := by
  cases tmpWQueue with
  | nil => exact valid
  | cons first others =>
    exact (abortAll_spec captured others (fun w hw => hRefs w (mem_cons_of_mem _ hw))
      (valid.number (hRefs first mem_cons_self) _)).1

/-- Of the transactions that read and write the key, the first one is the reason to
abort the others. -/
theorem justified_sortSame (captured : Captured txs) (once : OncePerKey txs) (valid : Valid txs cq)
    {tmpWQueue : List Ref} (hSublist : tmpWQueue.Sublist ((CreateGraph txs).Queues key).wSlice)
    (hSame : ∀ w ∈ tmpWQueue, Touches txs .r w.tx key) (maxRead maxWrite : Int) {n : Ref}
    (hn : n ∈ refs txs)
    (hAborted : (sortSame cq maxRead maxWrite tmpWQueue).1.aborted n.tx = true) :
    cq.aborted n.tx = true ∨ Justified txs n.tx := by
  cases tmpWQueue with
  | nil => exact Or.inl hAborted
  | cons first others =>
    have hSlice : ∀ w ∈ first :: others, w ∈ ((CreateGraph txs).Queues key).wSlice :=
      fun w hw => hSublist.subset hw
    have hRefs : ∀ w ∈ first :: others, w ∈ refs txs :=
      fun w hw => (mem_wSlice.mp (hSlice w hw)).1
    have hFirst := hRefs first mem_cons_self
    obtain ⟨_, _, _, hIff⟩ := abortAll_spec captured others
      (fun w hw => hRefs w (mem_cons_of_mem _ hw))
      (valid.number hFirst (int32 (maxWrite + 1)))
    rcases (hIff n hn).mp hAborted with hOld | ⟨w, hw, hTx⟩
    · rw [valid.aborted_number hFirst] at hOld
      exact Or.inl hOld
    · have hNodup : (first :: others).Nodup := hSublist.nodup nodup_wSlice
      have hwMem := mem_cons_of_mem first hw
      obtain ⟨hwRefs, hwKey, hwLabel⟩ := mem_wSlice.mp (hSlice w hwMem)
      obtain ⟨_, hFirstKey, hFirstLabel⟩ := mem_wSlice.mp (hSlice first mem_cons_self)
      rw [← hTx]
      refine Or.inr ⟨⟨key, hSame w hwMem⟩, first.tx, fun hOwn => ?_, key,
        touches_w_iff.mpr ⟨w, hSlice w hwMem, rfl⟩, hSame first mem_cons_self⟩
      have hEq := once first hFirst w hwRefs hOwn (hFirstLabel.trans hwLabel.symm)
        (hFirstKey.trans hwKey.symm)
      exact (nodup_cons.mp hNodup).1 (hEq ▸ hw)

end Reasons

section Run

variable {done : List String}

theorem sortReads_nil (cq : QueueGraph) {queue : Queue} (hNone : queue.rSlice = []) :
    cq.sortReads queue = (cq, queue.maxRead) := by
  simp [sortReads, hNone]

theorem Sorted.justified_sortInQueue (captured : Captured txs) (once : OncePerKey txs)
    (sorted : Sorted txs done bound cq) (hBound : initialSequence ≤ bound) (hNew : key ∉ done)
    (hFits : bound + ((CreateGraph txs).Queues key).wSlice.length < maxInt32) {n : Ref}
    (hn : n ∈ refs txs) (hAborted : (cq.sortInQueue key).aborted n.tx = true) :
    cq.aborted n.tx = true ∨ Justified txs n.tx := by
  have hFirst : initialSequence = 10 := rfl
  obtain ⟨hrSlice, hwSlice⟩ := sorted.valid.queues key
  have hReads := sortReads_spec captured sorted.valid sorted.inRange hBound (by omega)
    (cq.Queues key) (fun r hr => (mem_rSlice.mp (hrSlice ▸ hr)).1) (sorted.fresh key hNew)
  rw [hrSlice] at hReads
  have hChecked := checkWrites_spec captured hReads.valid hReads.readsDone
  rw [← hwSlice] at hChecked
  change WritesChecked txs key _ _ _ (checkedWrites cq key) at hChecked
  have hwRefs : ∀ w ∈ (cq.Queues key).wSlice, w ∈ refs txs :=
    fun w hw => (mem_wSlice.mp (hwSlice ▸ hw)).1
  obtain ⟨cq', queue, hNumbers, _, hCall⟩ := sortInQueue_numbers hwRefs
    fun ww hww => hwRefs ww.2 (hChecked.later ww hww).1
  have hValid : Valid txs (sameSorted cq key).1 :=
    hChecked.valid.sortSame captured (fun w hw => hwRefs w (hChecked.same w hw).1) _ _
  rw [hCall] at hAborted
  change cq'.aborted n.tx = true at hAborted
  rw [(hValid.numbers hNumbers).2.2.1] at hAborted
  have hSublist :
      (checkedWrites cq key).tmpWQueue.Sublist ((CreateGraph txs).Queues key).wSlice := by
    rw [← hwSlice]
    exact checkWrites_sublist _ _ _
  rcases justified_sortSame captured once hChecked.valid hSublist
    (fun w hw => (hChecked.same w hw).2.2.2) _ _ hn hAborted with hBefore | h
  · unfold checkedWrites at hBefore
    rw [hwSlice] at hBefore
    rw [← hReads.aborted]
    refine justified_checkWrites captured hReads.valid hReads.readsDone
      (fun i hi hLe hNone => ?_) hn hBefore
    -- A number is at least ten, so there was a read to set `maxRead`.
    have hNoRead : (cq.sortReads (cq.Queues key)).2 = 0 := by
      rw [sortReads_nil cq (hrSlice.trans hNone)]
      exact sorted.fresh key hNew
    have hLow := (hReads.inRange i).resolve_left hi
    omega
  · exact Or.inr h

theorem Sorted.justified_deSS (captured : Captured txs) (once : OncePerKey txs)
    (sorted : Sorted txs done bound cq) (sequence : List String) (hNodup : (done ++ sequence).Nodup)
    (hBound : initialSequence ≤ bound) (hFits : bound + room txs sequence < maxInt32) {n : Ref}
    (hn : n ∈ refs txs) (hAborted : (cq.DeSS sequence).aborted n.tx = true) :
    cq.aborted n.tx = true ∨ Justified txs n.tx := by
  induction sequence generalizing cq done bound with
  | nil => exact Or.inl hAborted
  | cons key rest ih =>
    have hNew : key ∉ done := fun h =>
      (nodup_append'.mp hNodup).2.2 h mem_cons_self
    rw [add_room_cons] at hFits
    rw [append_cons] at hNodup
    obtain ⟨_, hSorted⟩ := sorted.sortInQueue captured hBound hNew (by omega)
    rcases ih hSorted hNodup (by omega) hFits hAborted with hStep | h
    · exact sorted.justified_sortInQueue captured once hBound hNew (by omega) hn hStep
    · exact Or.inr h

/-- As long as the numbers do not reach the end of their range, a transaction is
aborted by `DeSS`, in whatever order it sorts the queues, only if it reads a key
and another transaction reads a key that it writes. -/
theorem aborted_justified (captured : Captured txs) (once : OncePerKey txs)
    (hFits : (writeNodes txs).length + 11 < 2 ^ 31) (sequence : List String)
    (hAll : sequence.Perm (CreateGraph txs).keys) (i : Nat) (hi : ⟨i, 0⟩ ∈ refs txs)
    (hAborted : ((CreateGraph txs).DeSS sequence).aborted i = true) : Justified txs i := by
  have hNodup : sequence.Nodup := hAll.nodup_iff.mpr nodup_keys
  have hRoom : room txs sequence ≤ (writeNodes txs).length := sum_wSlice_le hNodup
  have hFirst : initialSequence = 10 := rfl
  have hLimit : maxInt32 = 2 ^ 31 - 1 := rfl
  rcases (sorted_createGraph captured).justified_deSS captured once sequence hNodup (le_refl _)
    (by omega) hi hAborted with hOld | h
  · unfold aborted at hOld
    rw [edges_createGraph captured hi] at hOld
    cases hOld
  · exact h

/-- Transaction 1 is aborted, and 0 and 2 read the key that it writes. -/
theorem oneAborted_justified :
    ((CreateGraph oneAborted).DeSS ["c:1", "c:0"]).aborted 1 = true ∧ Justified oneAborted 1 := by
  have hAborted : ((CreateGraph oneAborted).DeSS ["c:1", "c:0"]).aborted 1 = true := by
    decide +kernel
  have hOnce : OncePerKey oneAborted := by
    unfold OncePerKey
    decide +kernel
  exact ⟨hAborted, aborted_justified captured_oneAborted hOnce (by decide +kernel) ["c:1", "c:0"]
    (by decide +kernel) 1 (by decide +kernel) hAborted⟩

end Run

section Overflow

/-- Transactions that all read one key and write two others. -/
def crowd (n : Nat) : List (List RWNode) :=
  (List.range n).map fun i =>
    CreateRWNode (String.ofList (List.replicate i '1')) 0 "c" [⟨"0", ""⟩] [⟨"1", ""⟩, ⟨"2", ""⟩]

variable {n i : Nat}

theorem crowd_getElem (hi : i < n) : (crowd n)[i]? =
    some (CreateRWNode (String.ofList (List.replicate i '1')) 0 "c" [⟨"0", ""⟩]
      [⟨"1", ""⟩, ⟨"2", ""⟩]) := by
  simp [crowd, hi]

theorem refsOf_crowd (hi : i < n) : refsOf (crowd n) i = [⟨i, 0⟩, ⟨i, 1⟩, ⟨i, 2⟩] := by
  rw [refsOf, crowd_getElem hi]
  rfl

theorem mem_refs_crowd {m : Ref} : m ∈ refs (crowd n) ↔ m.tx < n ∧ m.pos < 3 := by
  rw [mem_refs]
  by_cases hm : m.tx < n
  · rw [mem_refsOf, crowd_getElem hm]
    simp [hm, CreateRWNode]
  · rw [mem_refsOf, getElem?_eq_none (by simpa [crowd] using hm)]
    simp [hm]

/-- The node in a place of any of the transactions. -/
def crowdNode (i pos : Nat) : RWNode :=
  ((CreateRWNode (String.ofList (List.replicate i '1')) 0 "c" [⟨"0", ""⟩]
    [⟨"1", ""⟩, ⟨"2", ""⟩])[pos]?).getD default

theorem nodeAt_crowd {m : Ref} (hm : m.tx < n) : nodeAt (crowd n) m = crowdNode m.tx m.pos := by
  rw [nodeAt, crowd_getElem hm]
  rfl

theorem crowdNode_id {pos : Nat} (hPos : pos < 3) :
    (crowdNode i pos).TransInfo.ID = String.ofList (List.replicate i '1') := by
  interval_cases pos <;> rfl

theorem captured_crowd : Captured (crowd n) := by
  constructor
  · intro m hm
    obtain ⟨hTx, hPos⟩ := mem_refs_crowd.mp hm
    rw [nodeAt_crowd hTx]
    interval_cases m.pos <;> exact ⟨rfl, rfl⟩
  · intro m hm m' hm'
    obtain ⟨hTx, hPos⟩ := mem_refs_crowd.mp hm
    obtain ⟨hTx', hPos'⟩ := mem_refs_crowd.mp hm'
    rw [nodeAt_crowd hTx, nodeAt_crowd hTx', crowdNode_id hPos, crowdNode_id hPos']
    constructor
    · intro h
      have := congrArg (fun s => s.toList.length) h
      simpa using this
    · intro h
      rw [h]

theorem crowdNode_key {pos : Nat} (hPos : pos < 3) :
    (crowdNode i pos).CompositeKey = ["c:0", "c:1", "c:2"].getD pos "" ∧
      (crowdNode i pos).Label = if pos = 0 then .r else .w := by
  interval_cases pos <;> exact ⟨rfl, rfl⟩

theorem oncePerKey_crowd : OncePerKey (crowd n) := by
  intro m hm m' hm' hTx _ hKey
  obtain ⟨hLt, hPos⟩ := mem_refs_crowd.mp hm
  obtain ⟨hLt', hPos'⟩ := mem_refs_crowd.mp hm'
  rw [nodeAt_crowd hLt, nodeAt_crowd hLt', (crowdNode_key hPos).1, (crowdNode_key hPos').1] at hKey
  have hInj : ∀ p < 3, ∀ p' < 3,
      ["c:0", "c:1", "c:2"].getD p "" = ["c:0", "c:1", "c:2"].getD p' "" →
      p = p' := by decide
  cases m
  cases m'
  cases hTx
  cases hInj _ hPos _ hPos' hKey
  rfl

theorem mem_keys_crowd (hn : 0 < n) :
    key ∈ (CreateGraph (crowd n)).keys ↔ key ∈ ["c:0", "c:1", "c:2"] := by
  rw [mem_keys]
  constructor
  · rintro ⟨m, hm, rfl⟩
    obtain ⟨hTx, hPos⟩ := mem_refs_crowd.mp hm
    rw [nodeAt_crowd hTx, (crowdNode_key hPos).1]
    interval_cases m.pos <;> simp
  · intro hKey
    obtain ⟨pos, hPos, rfl⟩ := mem_iff_getElem.mp hKey
    refine ⟨⟨0, pos⟩, mem_refs_crowd.mpr ⟨hn, hPos⟩, ?_⟩
    rw [nodeAt_crowd (m := ⟨0, pos⟩) hn, (crowdNode_key hPos).1]
    exact getD_eq_getElem _ _ hPos

theorem touches_crowd_r (h : Touches (crowd n) .r i key) : key = "c:0" := by
  obtain ⟨m, hm, _, hLabel, rfl⟩ := touches_iff.mp h
  obtain ⟨hTx, hPos⟩ := mem_refs_crowd.mp hm
  rw [nodeAt_crowd hTx, (crowdNode_key hPos).2] at hLabel
  rw [nodeAt_crowd hTx, (crowdNode_key hPos).1]
  interval_cases m.pos <;> simp_all

theorem touches_crowd_w : ¬ Touches (crowd n) .w i "c:0" := by
  intro h
  obtain ⟨m, hm, _, hLabel, hKey⟩ := touches_iff.mp h
  obtain ⟨hTx, hPos⟩ := mem_refs_crowd.mp hm
  rw [nodeAt_crowd hTx, (crowdNode_key hPos).2] at hLabel
  rw [nodeAt_crowd hTx, (crowdNode_key hPos).1] at hKey
  interval_cases m.pos <;> simp_all

theorem queueArray_crowd {pos : Nat} (hPos : pos < 3) :
    queueArray (crowd n) (["c:0", "c:1", "c:2"].getD pos "") =
      (List.range n).map (Ref.mk · pos) := by
  unfold queueArray refs
  have hLength : (crowd n).length = n := by simp [crowd]
  rw [hLength, filter_flatMap, map_eq_flatMap]
  refine flatMap_congr fun i hi => ?_
  have hLt := mem_range.mp hi
  rw [refsOf_crowd hLt]
  have hKey : ∀ p < 3, (decide ((nodeAt (crowd n) ⟨i, p⟩).CompositeKey =
      ["c:0", "c:1", "c:2"].getD pos "")) = decide (p = pos) := by
    intro p hp
    rw [nodeAt_crowd hLt, (crowdNode_key hp).1]
    revert p pos
    decide
  simp only [filter_cons, filter_nil, hKey 0 (by omega), hKey 1 (by omega), hKey 2 (by omega)]
  interval_cases pos <;> rfl

theorem slices_crowd (n : Nat) {pos : Nat} (hPos : pos < 3) :
    ((CreateGraph (crowd n)).Queues (["c:0", "c:1", "c:2"].getD pos "")).rSlice =
        (if pos = 0 then (List.range n).map (Ref.mk · pos) else []) ∧
      ((CreateGraph (crowd n)).Queues (["c:0", "c:1", "c:2"].getD pos "")).wSlice =
        (if pos = 0 then [] else (List.range n).map (Ref.mk · pos)) := by
  have hLabel : ∀ m ∈ (List.range n).map (Ref.mk · pos),
      (nodeAt (crowd n) m).Label = if pos = 0 then .r else .w := by
    intro m hm
    obtain ⟨i, hi, rfl⟩ := mem_map.mp hm
    rw [nodeAt_crowd (mem_range.mp hi), (crowdNode_key hPos).2]
  change (initialSorting (crowd n) (queueArray _ _)).1 = _ ∧
    (initialSorting (crowd n) (queueArray _ _)).2 = _
  rw [queueArray_crowd hPos]
  unfold initialSorting
  split
  next hZero =>
    subst hZero
    exact ⟨filter_eq_self.mpr fun m hm => by simp [hLabel m hm],
      filter_eq_nil_iff.mpr fun m hm => by simp [hLabel m hm]⟩
  next hZero =>
    rw [if_neg hZero] at hLabel
    exact ⟨filter_eq_nil_iff.mpr fun m hm => by simp [hLabel m hm],
      filter_eq_self.mpr fun m hm => by simp [hLabel m hm]⟩

/-- After the first queue all transactions have the first number, and their reads are
assigned. -/
theorem crowd_first : ∃ cq, (CreateGraph (crowd n)).sortInQueue "c:0" = cq ∧ Valid (crowd n) cq ∧
      (∀ i < n, cq.seq i = 10 ∧ cq.aborted i = false ∧ (cq.node ⟨i, 0⟩).isAssigned = true) ∧
      ∀ key, key ≠ "c:0" → cq.Queues key = (CreateGraph (crowd n)).Queues key := by
  have valid := valid_createGraph (captured_crowd (n := n))
  obtain ⟨hReads, hWrites⟩ := slices_crowd n (show 0 < 3 by omega)
  simp only [getD_cons_zero, if_true] at hReads hWrites
  have hRefs : ∀ r ∈ (List.range n).map (Ref.mk · 0), r ∈ refs (crowd n) := by
    intro r hr
    obtain ⟨i, hi, rfl⟩ := mem_map.mp hr
    exact mem_refs_crowd.mpr ⟨mem_range.mp hi, by simp⟩
  have hTmp : (((List.range n).map (Ref.mk · 0)).filter fun r =>
      decide (((CreateGraph (crowd n)).node r).Sequence ≠ 0) &&
        !((CreateGraph (crowd n)).edgeOf r).isAborted) = [] := by
    refine filter_eq_nil_iff.mpr fun r hr => ?_
    have hZero : ((CreateGraph (crowd n)).node r).Sequence = 0 :=
      (captured_crowd.fresh r (hRefs r hr)).1
    simp [hZero]
  obtain ⟨valid', hQueues, hAborted, _, hNumber, hAssigned⟩ :=
    numberAll_spec valid ((List.range n).map (Ref.mk · 0)) hRefs initialSequence
  have hSorted : ((CreateGraph (crowd n)).sortReads ((CreateGraph (crowd n)).Queues "c:0")).1 =
      ((List.range n).map (Ref.mk · 0)).foldl (fun cq r => cq.number r initialSequence)
        (CreateGraph (crowd n)) := by
    unfold sortReads
    simp only [hReads, hTmp, if_true, foldl_numberPair]
  refine ⟨_, rfl, ?_⟩
  unfold sortInQueue
  simp only [hWrites, hSorted, foldl_nil, sortSame, map_nil, dedup_nil, insertionSort_nil]
  refine ⟨valid'.updateQueue ?_ ?_, fun i hi => ?_, fun key hKey => ?_⟩
  · rw [hQueues]
  · rw [hQueues]
    exact hWrites.symm
  · have hMem : (⟨i, 0⟩ : Ref) ∈ (List.range n).map (Ref.mk · 0) :=
      mem_map.mpr ⟨i, mem_range.mpr hi, rfl⟩
    refine ⟨hNumber _ hMem, (hAborted i).trans ?_, hAssigned _ (Or.inl hMem)⟩
    unfold aborted
    rw [edges_createGraph captured_crowd (hRefs _ hMem)]
  · simp only [Function.update_of_ne hKey, hQueues]

theorem checkWrites_above (maxRead : Int) {v : Int} (ws : List Ref) (s : Checked)
    (hAbove : ∀ w ∈ ws, (s.cq.node w).Sequence = v ∧ (s.cq.edgeOf w).isAborted = false)
    (hZero : v ≠ 0) (hRead : maxRead < v) :
    ws.foldl (checkWrite maxRead) s =
      { s with tmpWQueue2 := s.tmpWQueue2 ++ ws.map fun w => (v, w) } := by
  induction ws generalizing s with
  | nil => simp
  | cons w ws ih =>
    obtain ⟨hSeq, hLive⟩ := hAbove w mem_cons_self
    have hStep : checkWrite maxRead s w = { s with tmpWQueue2 := s.tmpWQueue2 ++ [(v, w)] } := by
      unfold checkWrite
      simp [hSeq, hLive, hZero, hRead.not_ge]
    rw [foldl_cons, hStep, ih]
    · simp
    · exact fun x hx => hAbove x (mem_cons_of_mem _ hx)

theorem newWrites_numbered (keys : List Int) (ws : List Ref) (s : QueueGraph × Int)
    (hNumbered : ∀ w ∈ ws, (s.1.node w).Sequence ≠ 0) : ws.foldl (newWrite keys) s = s := by
  induction ws with
  | nil => rfl
  | cons w ws ih =>
    rw [foldl_cons, newWrite, if_pos (hNumbered w mem_cons_self)]
    exact ih fun x hx => hNumbered x (mem_cons_of_mem _ hx)

theorem int32_succ (x : Int) : int32 (int32 x + 1) = int32 (x + 1) :=
  Int.bmod_add_bmod

theorem adjustWrites_count (maxRead n x : Int) (wws : List (Ref × Nat))
    (hMoved : ∀ ww ∈ wws, ww.2 ≠ 0)
    (s : QueueGraph × Int) (hStart : s.2 = int32 x) :
    (wws.foldl (adjustWrite maxRead n) s).2 = int32 (x + wws.length) := by
  induction wws generalizing s x with
  | nil => simpa using hStart
  | cons ww wws ih =>
    have hStep : (adjustWrite maxRead n s ww).2 = int32 (x + 1) := by
      unfold adjustWrite
      rw [if_neg fun h => hMoved ww mem_cons_self h.2, hStart]
      exact int32_succ x
    rw [foldl_cons, ih (x + 1) (fun y hy => hMoved y (mem_cons_of_mem _ hy)) _ hStep, length_cons]
    congr 1
    push_cast
    ring

theorem zipIdx_crowd (k : Nat) : ((List.range (k + 2)).map (Ref.mk · 1)).zipIdx = (⟨0, 1⟩, 0) ::
      ((List.range k).map (fun i => (⟨i + 1, 1⟩, i + 1)) ++ [(⟨k + 1, 1⟩, k + 1)]) := by
  have hIndexed : ((List.range (k + 2)).map (Ref.mk · 1)).zipIdx =
      (List.range (k + 2)).map fun i => (⟨i, 1⟩, i) :=
    ext_getElem (by simp) fun i _ _ => by simp
  rw [hIndexed, range_succ_eq_map, map_cons, map_map, range_succ, map_append]
  rfl

/-- The second queue has no reads, so the transactions after the first one are numbered
one after the other. -/
theorem crowd_second (k : Nat) (valid : Valid (crowd (k + 2)) cq)
    (hFirst : ∀ i < k + 2, cq.seq i = 10 ∧ cq.aborted i = false ∧
      (cq.node ⟨i, 0⟩).isAssigned = true)
    (hFresh : (cq.Queues "c:1").maxRead = 0) :
    ∃ cq', cq.sortInQueue "c:1" = cq' ∧ Valid (crowd (k + 2)) cq' ∧
      cq'.seq (k + 1) = int32 (11 + k) ∧ (cq'.node ⟨k + 1, 0⟩).isAssigned = true ∧
      ∀ key, key ≠ "c:1" → cq'.Queues key = cq.Queues key := by
  obtain ⟨hReads, hWrites⟩ := slices_crowd (k + 2) (show 1 < 3 by omega)
  rw [if_neg Nat.one_ne_zero] at hReads hWrites
  change ((CreateGraph (crowd (k + 2))).Queues "c:1").rSlice = [] at hReads
  change ((CreateGraph (crowd (k + 2))).Queues "c:1").wSlice = _ at hWrites
  rw [← (valid.queues "c:1").1] at hReads
  rw [← (valid.queues "c:1").2] at hWrites
  have hRefs : ∀ w ∈ (List.range (k + 2)).map (Ref.mk · 1), w ∈ refs (crowd (k + 2)) := by
    intro w hw
    obtain ⟨i, hi, rfl⟩ := mem_map.mp hw
    exact mem_refs_crowd.mpr ⟨mem_range.mp hi, by simp⟩
  have hAbove : ∀ w ∈ (List.range (k + 2)).map (Ref.mk · 1),
      (cq.node w).Sequence = 10 ∧ (cq.edgeOf w).isAborted = false := by
    intro w hw
    have hLt := (mem_refs_crowd.mp (hRefs w hw)).1
    rw [valid.uniform w (hRefs w hw), valid.isAborted_eq captured_crowd (hRefs w hw)]
    exact ⟨(hFirst w.tx hLt).1, (hFirst w.tx hLt).2.1⟩
  have hChecked := checkWrites_above 0 _ ⟨cq, [], []⟩ hAbove (by decide) (by decide)
  have hNew := fun keys => newWrites_numbered keys _ (cq, initialSequence - 1)
    fun w hw => by rw [(hAbove w hw).1]; decide
  have hKeys : ((((List.range (k + 2)).map (Ref.mk · 1)).map fun w => ((10 : Int), w)).map
      Prod.fst).dedup.insertionSort (· ≤ ·) = [10] := by
    have hSame : ((((List.range (k + 2)).map (Ref.mk · 1)).map fun w => ((10 : Int), w)).map
        Prod.fst) = List.replicate (k + 2) 10 := by
      rw [map_map]
      exact eq_replicate_iff.mpr ⟨by simp, by simp⟩
    rw [hSame, replicate_dedup (by omega)]
    rfl
  have hBucket : ((((List.range (k + 2)).map (Ref.mk · 1)).map fun w => ((10 : Int), w)).filter
      fun ww => ww.1 = 10).map Prod.snd = (List.range (k + 2)).map (Ref.mk · 1) := by
    rw [filter_eq_self.mpr (by simp), map_map]
    exact map_id _
  refine ⟨_, rfl, ?_⟩
  unfold sortInQueue
  simp only [sortReads_nil cq hReads, hFresh, hWrites, hChecked, if_true, sortSame, nil_append,
    hKeys, hNew, foldl_cons, foldl_nil, hBucket, zipIdx_crowd]
  have hStart : adjustWrite 0 10 (cq, lastWrite [10] (initialSequence - 1)) (⟨0, 1⟩, 0) =
      (cq, int32 10) := rfl
  rw [hStart, foldl_append]
  have hCount := adjustWrites_count 0 10 10 ((List.range k).map fun i => (⟨i + 1, 1⟩, i + 1))
    (by simp) (cq, int32 10) rfl
  have hMiddle : ∀ ww ∈ (List.range k).map (fun i => ((⟨i + 1, 1⟩ : Ref), i + 1)),
      ww.1 ∈ refs (crowd (k + 2)) := by
    intro ww hww
    obtain ⟨i, hi, rfl⟩ := mem_map.mp hww
    exact mem_refs_crowd.mpr
      ⟨Nat.succ_lt_succ (Nat.lt_succ_of_lt (mem_range.mp hi)), (by decide : 1 < 3)⟩
  have hNumbers := numbers_foldl _ (fun ww hww s => numbers_adjustWrite 0 10 (hMiddle ww hww) s)
    (cq, int32 10)
  generalize ((List.range k).map fun i => ((⟨i + 1, 1⟩ : Ref), i + 1)).foldl (adjustWrite 0 10)
    (cq, int32 10) = moved at hCount hNumbers ⊢
  obtain ⟨hMoved, hQueues, _, hAssigned⟩ := valid.numbers hNumbers
  have hLast : (⟨k + 1, 1⟩ : Ref) ∈ refs (crowd (k + 2)) :=
    mem_refs_crowd.mpr ⟨Nat.lt_succ_self _, (by decide : 1 < 3)⟩
  have hStep : adjustWrite 0 10 moved (⟨k + 1, 1⟩, k + 1) =
      (moved.1.number ⟨k + 1, 1⟩ (int32 (11 + k)), int32 (11 + k)) := by
    have hNext : int32 (moved.2 + 1) = int32 (11 + k) := by
      rw [hCount, int32_succ, length_map, length_range]
      congr 1
      ring
    rw [adjustWrite, if_neg fun h => Nat.succ_ne_zero k h.2, hNext]
  simp only [foldl_cons, foldl_nil, hStep]
  refine ⟨(hMoved.number hLast _).updateQueue ?_ ?_, ?_, ?_, fun key hKey => ?_⟩
  · exact congrArg (fun queues => (queues "c:1").rSlice) hQueues.symm
  · exact hWrites.symm.trans (congrArg (fun queues => (queues "c:1").wSlice) hQueues.symm)
  · exact (hMoved.seq_number hLast _ (k + 1)).trans (if_pos rfl)
  · refine (hMoved.isAssigned_number hLast _ ⟨k + 1, 0⟩).trans ?_
    rw [hAssigned _ (hFirst (k + 1) (by omega)).2.2, Bool.or_true]
  · simp only [Function.update_of_ne hKey]
    exact congrFun hQueues key

theorem WritesChecked.aborted_sortInQueue (captured : Captured txs)
    (checked : WritesChecked txs key maxRead cq' (cq.Queues key).wSlice (checkedWrites cq key))
    (hRefs : ∀ w ∈ (cq.Queues key).wSlice, w ∈ refs txs) {n : Ref} (hn : n ∈ refs txs)
    (hAborted : (checkedWrites cq key).cq.aborted n.tx = true) :
    (cq.sortInQueue key).aborted n.tx = true := by
  obtain ⟨last, queue, hNumbers, _, hCall⟩ := sortInQueue_numbers hRefs
    fun ww hww => hRefs ww.2 (checked.later ww hww).1
  have hSame : ∀ w ∈ (checkedWrites cq key).tmpWQueue, w ∈ refs txs :=
    fun w hw => hRefs w (checked.same w hw).1
  have hValid : Valid txs (sameSorted cq key).1 := checked.valid.sortSame captured hSame _ _
  rw [hCall]
  change last.aborted n.tx = true
  rw [(hValid.numbers hNumbers).2.2.1]
  unfold sameSorted
  generalize (checkedWrites cq key).tmpWQueue = tmpWQueue at hSame ⊢
  cases tmpWQueue with
  | nil => exact hAborted
  | cons first others =>
    have hFirst := hSame first mem_cons_self
    refine ((abortAll_spec captured others (fun w hw => hSame w (mem_cons_of_mem _ hw))
      (checked.valid.number hFirst _)).2.2.2 n hn).mpr (Or.inl ?_)
    rwa [checked.valid.aborted_number hFirst]

theorem Valid.checkWrites (captured : Captured txs) {s : Checked} (valid : Valid txs s.cq)
    (maxRead : Int) (ws : List Ref) (hRefs : ∀ w ∈ ws, w ∈ refs txs) :
    Valid txs (ws.foldl (checkWrite maxRead) s).cq ∧
      (ws.foldl (checkWrite maxRead) s).cq.nodes = s.cq.nodes := by
  induction ws generalizing s with
  | nil => exact ⟨valid, rfl⟩
  | cons w ws ih =>
    have hStep : Valid txs (checkWrite maxRead s w).cq ∧
        (checkWrite maxRead s w).cq.nodes = s.cq.nodes := by
      rcases checkWrite_cq maxRead s w with hSame | ⟨hAbort, _⟩
      · rw [hSame]
        exact ⟨valid, rfl⟩
      · rw [hAbort]
        exact ⟨valid.abort captured (hRefs w mem_cons_self), rfl⟩
    obtain ⟨valid', hNodes⟩ := ih hStep.1 fun x hx => hRefs x (mem_cons_of_mem _ hx)
    exact ⟨valid', hNodes.trans hStep.2⟩

/-- A write that is numbered behind the reads, with an assigned read elsewhere only. -/
theorem checkWrite_aborts (captured : Captured txs) {s : Checked} {w r : Ref}
    (valid : Valid txs s.cq) (hw : w ∈ refs txs) (hZero : s.cq.seq w.tx ≠ 0)
    (hLe : s.cq.seq w.tx ≤ maxRead) (hr : r ∈ refsOf txs w.tx) (hLabel : (nodeAt txs r).Label = .r)
    (hAssigned : (s.cq.node r).isAssigned = true)
    (hNone : ¬ Touches txs .r w.tx (nodeAt txs w).CompositeKey) :
    (checkWrite maxRead s w).cq.aborted w.tx = true := by
  have hBefore : ((s.cq.edgeOf w).set.filter fun rw =>
      (s.cq.node rw).Label = .r ∧ (s.cq.node rw).isAssigned = true) ≠ [] := by
    rw [valid.edges w hw]
    refine ne_nil_of_mem (mem_filter.mpr ⟨hr, ?_⟩)
    rw [decide_eq_true_eq, valid.label]
    exact ⟨hLabel, hAssigned⟩
  have hOther : ¬ (((s.cq.edgeOf w).set.filter fun rw =>
      (s.cq.node rw).Label = .r ∧ (s.cq.node rw).isAssigned = true).any fun rw =>
        (s.cq.node w).CompositeKey = (s.cq.node rw).CompositeKey) = true := by
    rw [any_assigned_iff valid hw rfl]
    rintro ⟨other, hOther, hTx, _⟩
    exact hNone (touches_r_iff.mpr ⟨other, hOther, hTx⟩)
  unfold checkWrite
  simp only [valid.uniform w hw, valid.isAborted_eq captured hw, if_neg hZero, if_pos hLe]
  by_cases hAborted : s.cq.aborted w.tx = true
  · rw [if_pos hAborted]
    exact hAborted
  · rw [if_neg hAborted, if_neg hOther, if_pos hBefore]
    change (s.cq.abort w).aborted w.tx = true
    rw [valid.aborted_abort captured hw hw, decide_eq_true rfl, Bool.true_or]

/-- The last transaction is aborted by the third queue if its number is negative. -/
theorem crowd_third (k : Nat) (valid : Valid (crowd (k + 2)) cq) (hSeq : cq.seq (k + 1) < 0)
    (hAssigned : (cq.node ⟨k + 1, 0⟩).isAssigned = true)
    (hFresh : (cq.Queues "c:2").maxRead = 0) :
    (cq.sortInQueue "c:2").aborted (k + 1) = true := by
  obtain ⟨hReads, hWrites⟩ := slices_crowd (k + 2) (show 2 < 3 by omega)
  rw [if_neg (by decide)] at hReads hWrites
  change ((CreateGraph (crowd (k + 2))).Queues "c:2").rSlice = [] at hReads
  change ((CreateGraph (crowd (k + 2))).Queues "c:2").wSlice = _ at hWrites
  obtain ⟨hrSlice, hwSlice⟩ := valid.queues "c:2"
  have hRefs : ∀ w ∈ (cq.Queues "c:2").wSlice, w ∈ refs (crowd (k + 2)) :=
    fun w hw => (mem_wSlice.mp (hwSlice ▸ hw)).1
  have hNoRead := sortReads_nil cq (hrSlice.trans hReads)
  rw [hFresh] at hNoRead
  have hReadsDone : ReadsDone (crowd (k + 2)) "c:2" 0 cq := by
    intro r hr
    rw [hReads] at hr
    exact absurd hr not_mem_nil
  have hChecked := checkWrites_spec captured_crowd valid hReadsDone
  have hSame : checkedWrites cq "c:2" = ((CreateGraph (crowd (k + 2))).Queues "c:2").wSlice.foldl
      (checkWrite 0) ⟨cq, [], []⟩ := by
    unfold checkedWrites
    rw [hNoRead, hwSlice]
  rw [← hSame, ← hwSlice] at hChecked
  have hLast : (⟨k + 1, 2⟩ : Ref) ∈ refs (crowd (k + 2)) :=
    mem_refs_crowd.mpr ⟨Nat.lt_succ_self _, (by decide : 2 < 3)⟩
  suffices hBefore : (checkedWrites cq "c:2").cq.aborted (k + 1) = true by
    have hAborted := hChecked.aborted_sortInQueue captured_crowd hRefs hLast hBefore
    exact hAborted
  rw [hSame, hWrites, range_succ, map_append, foldl_append]
  obtain ⟨valid', hNodes⟩ := Valid.checkWrites (s := ⟨cq, [], []⟩) captured_crowd valid 0
    ((List.range (k + 1)).map (Ref.mk · 2)) fun w hw => by
      obtain ⟨i, hi, rfl⟩ := mem_map.mp hw
      exact mem_refs_crowd.mpr ⟨Nat.lt_succ_of_lt (mem_range.mp hi), (by decide : 2 < 3)⟩
  rw [map_singleton, foldl_cons, foldl_nil]
  generalize ((List.range (k + 1)).map (Ref.mk · 2)).foldl (checkWrite 0) ⟨cq, [], []⟩ = before
    at valid' hNodes ⊢
  have hSeq' := congrArg (fun nodes => (nodeAt nodes ⟨k + 1, 0⟩).Sequence) hNodes
  have hNode := congrArg (fun nodes => (nodeAt nodes ⟨k + 1, 0⟩).isAssigned) hNodes
  refine checkWrite_aborts captured_crowd (r := ⟨k + 1, 0⟩) valid' hLast ?_ ?_ ?_ ?_ ?_ ?_
  · exact fun h => hSeq.ne (hSeq'.symm.trans h)
  · exact (le_of_eq hSeq').trans hSeq.le
  · rw [refsOf_crowd (Nat.lt_succ_self _)]
    exact mem_cons_self
  · rw [nodeAt_crowd (n := k + 2) (m := ⟨k + 1, 0⟩) (Nat.lt_succ_self _)]
    rfl
  · exact hNode.trans hAssigned
  · have hKey : (nodeAt (crowd (k + 2)) ⟨k + 1, 2⟩).CompositeKey = "c:2" := by
      rw [nodeAt_crowd (n := k + 2) (m := ⟨k + 1, 2⟩) (Nat.lt_succ_self _)]
      rfl
    rw [hKey]
    intro h
    obtain ⟨r, hr, _⟩ := touches_r_iff.mp h
    rw [hReads] at hr
    exact absurd hr not_mem_nil

/-- Behind 2^31 - 10 others, a transaction is numbered below zero. The third queue takes
that for a number before its reads, of which there are none. -/
theorem overflow_aborts_unjustified :
    Captured (crowd (2 ^ 31 - 9)) ∧ OncePerKey (crowd (2 ^ 31 - 9)) ∧
      ["c:0", "c:1", "c:2"].Perm (CreateGraph (crowd (2 ^ 31 - 9))).keys ∧
      ⟨2 ^ 31 - 10, 0⟩ ∈ refs (crowd (2 ^ 31 - 9)) ∧
      ((CreateGraph (crowd (2 ^ 31 - 9))).DeSS ["c:0", "c:1", "c:2"]).aborted (2 ^ 31 - 10) = true ∧
      ¬ Justified (crowd (2 ^ 31 - 9)) (2 ^ 31 - 10) := by
  obtain ⟨k, hk, hk'⟩ : ∃ k, 2 ^ 31 - 9 = k + 2 ∧ 2 ^ 31 - 10 = k + 1 :=
    ⟨2 ^ 31 - 11, by decide, by decide⟩
  have hWrap : int32 (11 + k) < 0 := by
    have hValue : (11 + k : Int) = 2 ^ 31 := by omega
    rw [hValue]
    decide
  rw [hk, hk']
  clear hk hk'
  refine ⟨captured_crowd, oncePerKey_crowd, ?_,
    mem_refs_crowd.mpr ⟨Nat.lt_succ_self _, (by decide : 0 < 3)⟩, ?_, ?_⟩
  · refine (perm_ext_iff_of_nodup (by decide) nodup_keys).mpr fun key => ?_
    exact (mem_keys_crowd (Nat.succ_pos _)).symm
  · obtain ⟨first, hFirst, valid₁, hAll, hQueues₁⟩ := crowd_first (n := k + 2)
    obtain ⟨second, hSecond, valid₂, hSeq, hAssigned, hQueues₂⟩ := crowd_second k valid₁ hAll
      (by rw [hQueues₁ "c:1" (by decide)]; rfl)
    change (((((CreateGraph (crowd (k + 2))).sortInQueue "c:0").sortInQueue "c:1").sortInQueue
      "c:2")).aborted (k + 1) = true
    rw [hFirst, hSecond]
    refine crowd_third k valid₂ (hSeq ▸ hWrap) hAssigned ?_
    rw [hQueues₂ "c:2" (by decide), hQueues₁ "c:2" (by decide)]
    rfl
  · rintro ⟨_, j, _, key, hWrites, hReads⟩
    rw [touches_crowd_r hReads] at hWrites
    exact touches_crowd_w hWrites

end Overflow

end QueueGraph

end Nezha
