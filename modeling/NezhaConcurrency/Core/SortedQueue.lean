import NezhaConcurrency.Core.SortInQueue

/-! What one call of `sortInQueue` establishes for its own queue, put together from
its phases: every read is below every write of another transaction, no two
writes have the same number, and no number of a transaction that is not aborted
goes down. -/
namespace Nezha

open List

namespace QueueGraph

variable {txs : List (List RWNode)} {cq : QueueGraph} {key : String} {bound : Int}

/-- The outcome of sorting the queue of `key`. -/
structure QueueSorted (txs : List (List RWNode)) (key : String) (bound : Int)
    (cq cq' : QueueGraph) : Prop where
  valid : Valid txs cq'
  queues : ∀ other, other ≠ key → cq'.Queues other = cq.Queues other
  inRange : cq'.InRange bound
  aborted : ∀ n ∈ refs txs, cq.aborted n.tx = true → cq'.aborted n.tx = true
  outside : ∀ i, (∀ label, ¬ Touches txs label i key) → cq'.seq i = cq.seq i
  mono : ∀ n ∈ refs txs, cq'.aborted n.tx = false → cq.seq n.tx ≤ cq'.seq n.tx
  numbered : ∀ label i, Touches txs label i key → cq'.seq i ≠ 0
  readWrite : ∀ i j, i ≠ j → Touches txs .r i key → Touches txs .w j key →
    cq'.aborted i = false → cq'.aborted j = false → cq'.seq i < cq'.seq j
  writeWrite : ∀ i j, i ≠ j → Touches txs .w i key → Touches txs .w j key →
    cq'.aborted i = false → cq'.aborted j = false → cq'.seq i ≠ cq'.seq j

theorem mem_numbers {wws : List (Int × Ref)} {n : Int} :
    n ∈ (wws.map Prod.fst).dedup.insertionSort (· ≤ ·) ↔ n ∈ wws.map Prod.fst := by
  rw [mem_insertionSort, mem_dedup]

/-- The states between the phases of a call, up to the one that differs from the
result in the queue of `key` only. -/
structure Stages (txs : List (List RWNode)) (key : String) (bound : Int) (cq cq' : QueueGraph) where
  reads : QueueGraph
  maxRead : Int
  checked : Checked
  same : QueueGraph
  maxSame : Int
  maxWrite : Int
  ws : List Nat
  new : QueueGraph
  maxNew : Int
  maxLast : Int
  ws' : List Nat
  maxAdjusted : Int
  readsSorted : ReadsSorted txs ((CreateGraph txs).Queues key).rSlice bound cq reads maxRead
  writesChecked : WritesChecked txs key maxRead reads ((CreateGraph txs).Queues key).wSlice checked
  sameSorted : SameSorted txs checked.tmpWQueue checked.cq maxRead
    (if maxRead = 0 then initialSequence - 1 else maxRead) same maxSame maxWrite
  newNumbered : Numbered txs ((checked.tmpWQueue2.map Prod.fst).dedup.insertionSort (· ≤ ·)) same
    maxWrite ws new maxNew
  new_iff : ∀ i, i ∈ ws ↔ ∃ w ∈ ((CreateGraph txs).Queues key).wSlice, w.tx = i ∧ same.seq i = 0
  last : maxNew ≤ maxLast ∧ ∀ ww ∈ checked.tmpWQueue2, ww.1 ≤ maxLast
  adjusted : Numbered txs [] new maxLast ws' cq' maxAdjusted
  adjusted_mem : ∀ i ∈ ws', ∃ ww ∈ checked.tmpWQueue2, ww.2.tx = i
  kept : ∀ ww ∈ checked.tmpWQueue2, ww.2.tx ∉ ws' → maxSame < ww.1
  kept_unique : ∀ ww ∈ checked.tmpWQueue2, ∀ xx ∈ checked.tmpWQueue2, ww.2.tx ∉ ws' →
    xx.2.tx ∉ ws' → ww.1 = xx.1 → ww.2.tx = xx.2.tx
  top : maxAdjusted ≤ bound + ((CreateGraph txs).Queues key).wSlice.length

namespace Stages

variable {cq' : QueueGraph} {i j : Nat} (stages : Stages txs key bound cq cq')

include stages

theorem checked_seq (i : Nat) : stages.checked.cq.seq i = stages.reads.seq i :=
  congrArg (fun nodes => (nodeAt nodes ⟨i, 0⟩).Sequence) stages.writesChecked.nodes

theorem adjusted_aborted (i : Nat) : cq'.aborted i = stages.same.aborted i :=
  (stages.adjusted.aborted i).trans (stages.newNumbered.aborted i)

theorem not_aborted {n : Ref} (hn : n ∈ refs txs) (hLive : cq'.aborted n.tx = false) :
    stages.same.aborted n.tx = false ∧ stages.checked.cq.aborted n.tx = false ∧ stages.reads.aborted n.tx = false ∧
      cq.aborted n.tx = false := by
  have hSame : stages.same.aborted n.tx = false := (stages.adjusted_aborted n.tx).symm.trans hLive
  have hChecked : stages.checked.cq.aborted n.tx = false :=
    Bool.of_not_eq_true fun h => Bool.false_ne_true (hSame.symm.trans (stages.sameSorted.aborted n hn h))
  have hReads : stages.reads.aborted n.tx = false :=
    Bool.of_not_eq_true fun h =>
      Bool.false_ne_true (hChecked.symm.trans (stages.writesChecked.aborted n hn h))
  exact ⟨hSame, hChecked, hReads, (stages.readsSorted.aborted n.tx).symm.trans hReads⟩

theorem maxWrite_low : initialSequence - 1 ≤ stages.maxWrite := by
  have hLe := stages.sameSorted.le.2.2.1
  have hRead := stages.readsSorted.maxRead.1
  split at hLe <;> omega

theorem same_seq (hi : ∀ w ∈ stages.checked.tmpWQueue, w.tx ≠ i) : stages.same.seq i = stages.reads.seq i :=
  (stages.sameSorted.other i hi).trans (stages.checked_seq i)

theorem same_ne_zero (hi : stages.reads.seq i ≠ 0) : stages.same.seq i ≠ 0 := by
  have hLow := stages.maxWrite_low
  have hFirst : initialSequence = 10 := rfl
  rcases stages.sameSorted.values i with h | h
  · rw [h, stages.checked_seq]
    exact hi
  · omega

theorem not_mem_new (hi : stages.reads.seq i ≠ 0) : i ∉ stages.ws := by
  intro hm
  obtain ⟨_, _, _, hZero⟩ := (stages.new_iff i).mp hm
  exact stages.same_ne_zero hi hZero

theorem adjusted_seq (hi : stages.reads.seq i ≠ 0) (hOut : i ∉ stages.ws') : cq'.seq i = stages.same.seq i :=
  (stages.adjusted.other i hOut).trans (stages.newNumbered.other i (stages.not_mem_new hi))

theorem reader_not_adjusted (hi : Touches txs .r i key) : i ∉ stages.ws' := by
  intro hm
  obtain ⟨ww, hww, rfl⟩ := stages.adjusted_mem i hm
  exact (stages.writesChecked.later ww hww).2.2.2 hi

theorem reader_seq (hi : Touches txs .r i key) :
    stages.reads.seq i ≠ 0 ∧ cq'.seq i = stages.same.seq i := by
  obtain ⟨r, hr, rfl⟩ := touches_r_iff.mp hi
  have hSeq := stages.readsSorted.numbered r hr
  exact ⟨hSeq, stages.adjusted_seq hSeq (stages.reader_not_adjusted hi)⟩

theorem reader_le (hi : Touches txs .r i key) (hLive : cq'.aborted i = false)
    (hOther : ∀ w ∈ stages.checked.tmpWQueue, w.tx ≠ i) : cq'.seq i ≤ stages.maxRead := by
  rw [(stages.reader_seq hi).2, stages.same_seq hOther]
  obtain ⟨r, hr, rfl⟩ := touches_r_iff.mp hi
  exact stages.readsSorted.le r hr (stages.not_aborted (mem_rSlice.mp hr).1 hLive).2.2.2

theorem writer_cases (hi : Touches txs .w i key) (hLive : cq'.aborted i = false) :
    ((∃ w ∈ stages.checked.tmpWQueue, w.tx = i) ∧ cq'.seq i = stages.maxSame ∧ stages.maxRead < stages.maxSame) ∨
      (i ∈ stages.ws ∧ i ∉ stages.ws' ∧ stages.maxWrite < cq'.seq i ∧ cq'.seq i ≤ stages.maxNew ∧
        ∀ ww ∈ stages.checked.tmpWQueue2, ww.1 ≠ cq'.seq i) ∨
      (i ∈ stages.ws' ∧ stages.maxLast < cq'.seq i) ∨
      ∃ ww ∈ stages.checked.tmpWQueue2, ww.2.tx = i ∧ i ∉ stages.ws' ∧ cq'.seq i = ww.1 ∧
        stages.maxSame < ww.1 := by
  obtain ⟨w, hw, rfl⟩ := touches_w_iff.mp hi
  have hRefs := (mem_wSlice.mp hw).1
  obtain ⟨hSameLive, hCheckedLive, _, _⟩ := stages.not_aborted hRefs hLive
  by_cases hZero : stages.reads.seq w.tx = 0
  · -- It had no number and is numbered now.
    have hOut : w.tx ∉ stages.ws' := by
      intro hm
      obtain ⟨ww, hww, hTx⟩ := stages.adjusted_mem _ hm
      obtain ⟨_, hSeq, hNe, _⟩ := stages.writesChecked.later ww hww
      exact hNe (hSeq.trans (hTx ▸ hZero))
    have hNotSame : ∀ x ∈ stages.checked.tmpWQueue, x.tx ≠ w.tx := fun x hx hTx =>
      (stages.writesChecked.same x hx).2.1 (hTx ▸ hZero)
    have hNew : w.tx ∈ stages.ws :=
      (stages.new_iff w.tx).mpr ⟨w, hw, rfl, (stages.same_seq hNotSame).trans hZero⟩
    obtain ⟨hLow, hHigh, hFree⟩ := stages.newNumbered.fresh w.tx hNew
    rw [stages.adjusted.other w.tx hOut]
    refine Or.inr (Or.inl ⟨hNew, hOut, hLow, hHigh, fun ww hww hEq => hFree ?_⟩)
    exact mem_numbers.mpr (mem_map.mpr ⟨ww, hww, hEq⟩)
  · rcases stages.writesChecked.cover w hw hZero hCheckedLive with hSame | hLater
    · obtain ⟨hSeq, hAbove⟩ := stages.sameSorted.live w hSame hSameLive
      have hReads := (stages.writesChecked.same w hSame).2.2.2
      exact Or.inl ⟨⟨w, hSame, rfl⟩, (stages.reader_seq hReads).2.trans hSeq, hAbove⟩
    · by_cases hAdjusted : w.tx ∈ stages.ws'
      · exact Or.inr (Or.inr (Or.inl ⟨hAdjusted, (stages.adjusted.fresh w.tx hAdjusted).1⟩))
      · have hNotReads := (stages.writesChecked.later _ hLater).2.2.2
        have hNotSame : ∀ x ∈ stages.checked.tmpWQueue, x.tx ≠ w.tx := fun x hx hTx =>
          hNotReads (hTx ▸ (stages.writesChecked.same x hx).2.2.2)
        refine Or.inr (Or.inr (Or.inr ⟨_, hLater, rfl, hAdjusted, ?_,
          stages.kept _ hLater hAdjusted⟩))
        rw [stages.adjusted_seq hZero hAdjusted, stages.same_seq hNotSame]

theorem top_le : stages.maxSame ≤ stages.maxWrite ∧ stages.maxWrite ≤ stages.maxNew ∧
    stages.maxNew ≤ stages.maxLast ∧ stages.maxLast ≤ stages.maxAdjusted :=
  ⟨stages.sameSorted.le.2.1, stages.newNumbered.le, stages.last.1, stages.adjusted.le⟩

theorem readWrite (hne : i ≠ j) (hi : Touches txs .r i key) (hj : Touches txs .w j key)
    (hiLive : cq'.aborted i = false) (hjLive : cq'.aborted j = false) : cq'.seq i < cq'.seq j := by
  obtain ⟨hWrite, hNew, hLast, _⟩ := stages.top_le
  have hRead := stages.sameSorted.le.1
  -- The reader is behind `maxSame`, and below it unless it is the pair that moved.
  have hReader : cq'.seq i ≤ stages.maxSame ∧
      ((∀ w ∈ stages.checked.tmpWQueue, w.tx ≠ i) → cq'.seq i ≤ stages.maxRead) := by
    refine ⟨?_, stages.reader_le hi hiLive⟩
    by_cases hPair : ∃ w ∈ stages.checked.tmpWQueue, w.tx = i
    · obtain ⟨w, hw, rfl⟩ := hPair
      have hRefs := (mem_wSlice.mp (stages.writesChecked.same w hw).1).1
      have hSame := (stages.not_aborted hRefs hiLive).1
      rw [(stages.reader_seq hi).2, (stages.sameSorted.live w hw hSame).1]
    · push Not at hPair
      exact (stages.reader_le hi hiLive hPair).trans hRead
  rcases stages.writer_cases hj hjLive with ⟨⟨w, hw, rfl⟩, hSeq, hAbove⟩ | ⟨_, _, hLow, _⟩ |
    ⟨_, hLow⟩ | ⟨ww, _, _, _, hSeq, hAbove⟩
  · rw [hSeq]
    refine (hReader.2 fun x hx hTx => hne ?_).trans_lt hAbove
    have hxRefs := (mem_wSlice.mp (stages.writesChecked.same x hx).1).1
    have hwRefs := (mem_wSlice.mp (stages.writesChecked.same w hw).1).1
    exact hTx.symm.trans (stages.sameSorted.unique x hx w hw
      (stages.not_aborted hxRefs (hTx ▸ hiLive)).1 (stages.not_aborted hwRefs hjLive).1)
  · omega
  · omega
  · omega

theorem writeWrite (hne : i ≠ j) (hi : Touches txs .w i key) (hj : Touches txs .w j key)
    (hiLive : cq'.aborted i = false) (hjLive : cq'.aborted j = false) : cq'.seq i ≠ cq'.seq j := by
  obtain ⟨hWrite, hNew, hLast, _⟩ := stages.top_le
  rcases stages.writer_cases hi hiLive with ⟨⟨w, hw, rfl⟩, hiSeq, _⟩ | ⟨hiNew, hiOut, hiLow, hiTop,
    hiFree⟩ | ⟨hiAdjusted, hiLow⟩ | ⟨ww, hww, rfl, hiOut, hiSeq, hiAbove⟩ <;>
  rcases stages.writer_cases hj hjLive with ⟨⟨x, hx, rfl⟩, hjSeq, _⟩ | ⟨hjNew, hjOut, hjLow, hjTop,
    hjFree⟩ | ⟨hjAdjusted, hjLow⟩ | ⟨xx, hxx, rfl, hjOut, hjSeq, hjAbove⟩
  · have hwRefs := (mem_wSlice.mp (stages.writesChecked.same w hw).1).1
    have hxRefs := (mem_wSlice.mp (stages.writesChecked.same x hx).1).1
    exact absurd (stages.sameSorted.unique w hw x hx (stages.not_aborted hwRefs hiLive).1
      (stages.not_aborted hxRefs hjLive).1) hne
  · omega
  · omega
  · omega
  · omega
  · rw [stages.adjusted.other i hiOut, stages.adjusted.other j hjOut]
    exact stages.newNumbered.distinct i hiNew j hjNew hne
  · omega
  · rw [hjSeq]
    exact (hiFree xx hxx).symm
  · omega
  · omega
  · exact stages.adjusted.distinct i hiAdjusted j hjAdjusted hne
  · have := stages.last.2 xx hxx
    omega
  · omega
  · rw [hiSeq]
    exact hjFree ww hww
  · have := stages.last.2 ww hww
    omega
  · rw [hiSeq, hjSeq]
    exact fun h => hne (stages.kept_unique ww hww xx hxx hiOut hjOut h)

theorem numbered {label : Label} (hi : Touches txs label i key) : cq'.seq i ≠ 0 := by
  obtain ⟨hWrite, hNew, hLast, _⟩ := stages.top_le
  have hLow := stages.maxWrite_low
  have hFirst : initialSequence = 10 := rfl
  by_cases hAdjusted : i ∈ stages.ws'
  · have := (stages.adjusted.fresh i hAdjusted).1
    omega
  · rw [stages.adjusted.other i hAdjusted]
    by_cases hFresh : i ∈ stages.ws
    · have := (stages.newNumbered.fresh i hFresh).1
      omega
    · rw [stages.newNumbered.other i hFresh]
      cases label with
      | r => exact stages.same_ne_zero (stages.reader_seq hi).1
      | w =>
        obtain ⟨w, hw, rfl⟩ := touches_w_iff.mp hi
        exact fun hZero => hFresh ((stages.new_iff w.tx).mpr ⟨w, hw, rfl, hZero⟩)

theorem inRange : cq'.InRange (bound + ((CreateGraph txs).Queues key).wSlice.length) := by
  intro i
  obtain ⟨hWrite, hNew, hLast, hTop⟩ := stages.top_le
  have hLow := stages.maxWrite_low
  have hBound := stages.top
  by_cases hAdjusted : i ∈ stages.ws'
  · have := stages.adjusted.fresh i hAdjusted
    omega
  · rw [stages.adjusted.other i hAdjusted]
    by_cases hFresh : i ∈ stages.ws
    · have := stages.newNumbered.fresh i hFresh
      omega
    · rw [stages.newNumbered.other i hFresh]
      rcases stages.sameSorted.values i with h | h
      · have := stages.readsSorted.inRange i
        rw [h, stages.checked_seq]
        omega
      · have hStart := stages.readsSorted.maxRead.1
        split at h <;> omega

theorem outside (hi : ∀ label, ¬ Touches txs label i key) : cq'.seq i = cq.seq i := by
  have hWrites : ∀ w ∈ ((CreateGraph txs).Queues key).wSlice, w.tx ≠ i :=
    fun w hw hTx => hi .w (touches_w_iff.mpr ⟨w, hw, hTx⟩)
  have hReads : ∀ r ∈ ((CreateGraph txs).Queues key).rSlice, r.tx ≠ i :=
    fun r hr hTx => hi .r (touches_r_iff.mpr ⟨r, hr, hTx⟩)
  have hAdjusted : i ∉ stages.ws' := by
    intro hm
    obtain ⟨ww, hww, hTx⟩ := stages.adjusted_mem i hm
    exact hWrites ww.2 (stages.writesChecked.later ww hww).1 hTx
  have hFresh : i ∉ stages.ws := by
    intro hm
    obtain ⟨w, hw, hTx, _⟩ := (stages.new_iff i).mp hm
    exact hWrites w hw hTx
  rw [stages.adjusted.other i hAdjusted, stages.newNumbered.other i hFresh,
    stages.same_seq fun w hw => hWrites w (stages.writesChecked.same w hw).1,
    stages.readsSorted.other i hReads]

/-- No number of a transaction that is not aborted goes down. -/
theorem mono {n : Ref} (hn : n ∈ refs txs) (hLive : cq'.aborted n.tx = false) :
    cq.seq n.tx ≤ cq'.seq n.tx := by
  obtain ⟨hWrite, hNew, hLast, hTop⟩ := stages.top_le
  obtain ⟨hSameLive, _, _, hStart⟩ := stages.not_aborted hn hLive
  have hFirst : initialSequence = 10 := rfl
  have hLow := stages.maxWrite_low
  have hReads : stages.reads.seq n.tx = cq.seq n.tx ∨ cq.seq n.tx = 0 := by
    by_cases hZero : cq.seq n.tx = 0
    · exact Or.inr hZero
    · refine Or.inl ?_
      by_cases hReader : ∃ r ∈ ((CreateGraph txs).Queues key).rSlice, r.tx = n.tx
      · obtain ⟨r, hr, hTx⟩ := hReader
        rw [← hTx] at hStart hZero ⊢
        exact stages.readsSorted.kept r hr hStart hZero
      · push Not at hReader
        exact stages.readsSorted.other _ hReader
  have hPositive : 0 ≤ cq'.seq n.tx := by
    rcases stages.inRange n.tx with h | h <;> omega
  rcases hReads with hReads | hZero
  · by_cases hAdjusted : n.tx ∈ stages.ws'
    · obtain ⟨ww, hww, hTx⟩ := stages.adjusted_mem _ hAdjusted
      have hSeq := (stages.writesChecked.later ww hww).2.1
      rw [hTx] at hSeq
      have := (stages.adjusted.fresh _ hAdjusted).1
      have := stages.last.2 ww hww
      omega
    · rw [stages.adjusted.other _ hAdjusted] at hPositive ⊢
      by_cases hFresh : n.tx ∈ stages.ws
      · have := stages.same_ne_zero (i := n.tx)
        have := (stages.newNumbered.fresh _ hFresh).1
        have : stages.reads.seq n.tx = 0 := by
          by_contra h
          exact stages.not_mem_new h hFresh
        omega
      · rw [stages.newNumbered.other _ hFresh] at hPositive ⊢
        by_cases hPair : ∃ w ∈ stages.checked.tmpWQueue, w.tx = n.tx
        · obtain ⟨w, hw, hTx⟩ := hPair
          have hLe := (stages.writesChecked.same w hw).2.2.1
          have hLive' := stages.sameSorted.live w hw (hTx ▸ hSameLive)
          rw [hTx] at hLe hLive'
          omega
        · push Not at hPair
          rw [stages.same_seq hPair, hReads]
  · omega

end Stages

section Call

theorem sum_buckets (wws : List (Int × Ref)) :
    ((((wws.map Prod.fst).dedup.insertionSort (· ≤ ·)).map fun n =>
      ((wws.filter fun ww => ww.1 = n).map Prod.snd).length).sum) = wws.length := by
  have hBucket : ∀ n, ((wws.filter fun ww => ww.1 = n).map Prod.snd).length =
      (wws.map Prod.fst).count n := by
    intro n
    rw [length_map, ← countP_eq_length_filter, List.count, countP_map]
    exact countP_congr fun ww _ => by simp
  simp only [hBucket]
  rw [((perm_insertionSort _ _).map _).sum_eq, sum_map_count_dedup_eq_length, length_map]

theorem adjustLater_spec (maxRead : Int) (wws : List (Int × Ref))
    (hRefs : ∀ ww ∈ wws, ww.2 ∈ refs txs) (valid : Valid txs cq) (maxWrite : Int)
    (hLow : 0 ≤ maxWrite) (hFits : maxWrite + wws.length ≤ maxInt32) :
    ∃ ws cq' maxWrite', ((wws.map Prod.fst).dedup.insertionSort (· ≤ ·)).foldl (fun s n =>
        ((wws.filter fun ww => ww.1 = n).map Prod.snd).zipIdx.foldl (adjustWrite maxRead n) s)
        (cq, maxWrite) = (cq', maxWrite') ∧
      Numbered txs [] cq maxWrite ws cq' maxWrite' ∧ maxWrite' ≤ maxWrite + wws.length ∧
      (∀ i ∈ ws, ∃ ww ∈ wws, ww.2.tx = i) ∧ (∀ ww ∈ wws, ww.2.tx ∉ ws → maxRead < ww.1) ∧
      ∀ ww ∈ wws, ∀ xx ∈ wws, ww.2.tx ∉ ws → xx.2.tx ∉ ws → ww.1 = xx.1 → ww.2.tx = xx.2.tx := by
  have hBucket : ∀ n w, w ∈ (wws.filter fun ww => ww.1 = n).map Prod.snd ↔ (n, w) ∈ wws := by
    intro n w
    simp
  have hSum := sum_buckets wws
  obtain ⟨ws, hNumbered, hTop, hWs⟩ := adjustKeys_spec maxRead
    (fun n => (wws.filter fun ww => ww.1 = n).map Prod.snd)
    (fun n w hw => hRefs (n, w) ((hBucket n w).mp hw))
    ((wws.map Prod.fst).dedup.insertionSort (· ≤ ·)) valid maxWrite hLow (by omega)
  -- A write that is not renumbered is the first of its bucket.
  have hKept : ∀ ww ∈ wws, ww.2.tx ∉ ws → maxRead < ww.1 ∧
      (ww.2, 0) ∈ ((wws.filter fun xx => xx.1 = ww.1).map Prod.snd).zipIdx := by
    intro ww hww hOut
    have hIn := (hBucket ww.1 ww.2).mpr hww
    obtain ⟨pos, hPos⟩ := mem_iff_getElem?.mp hIn
    have hIdx := mem_zipIdx_iff_getElem?.mpr (show _ = some (ww.2, pos).1 from hPos)
    by_contra hNot
    refine hOut ((hWs ww.2.tx).mpr ⟨ww.1, mem_numbers.mpr (mem_map_of_mem hww),
      (ww.2, pos), hIdx, rfl, fun h => hNot ⟨h.1, ?_⟩⟩)
    obtain rfl : pos = 0 := h.2
    exact hIdx
  refine ⟨ws, _, _, rfl, hNumbered, ?_, fun i hi => ?_, fun ww hww hOut => (hKept ww hww hOut).1,
    fun ww hww xx hxx hwOut hxOut hEq => ?_⟩
  · exact hTop.trans (by omega)
  · obtain ⟨n, _, ww, hww, hTx, _⟩ := (hWs i).mp hi
    exact ⟨(n, ww.1), (hBucket n ww.1).mp (fst_mem_of_mem_zipIdx hww), hTx⟩
  · have hw := mem_zipIdx_iff_getElem?.mp (hKept ww hww hwOut).2
    have hx := mem_zipIdx_iff_getElem?.mp (hKept xx hxx hxOut).2
    rw [← hEq] at hx
    exact congrArg Ref.tx (Option.some.inj (hw.symm.trans hx))

theorem lastWrite_spec {keys : List Int} (hSorted : keys.Pairwise (· ≤ ·)) {maxWrite top : Int}
    (hStart : maxWrite ≤ top) (hKeys : ∀ n ∈ keys, n ≤ top) :
    maxWrite ≤ lastWrite keys maxWrite ∧ lastWrite keys maxWrite ≤ top ∧
      ∀ n ∈ keys, n ≤ lastWrite keys maxWrite := by
  unfold lastWrite
  cases hLast : keys.getLast? with
  | none =>
    rw [getLast?_eq_none_iff] at hLast
    subst hLast
    exact ⟨le_refl _, hStart, fun _ h => absurd h not_mem_nil⟩
  | some maxSeq =>
    obtain ⟨ys, rfl⟩ := getLast?_eq_some_iff.mp hLast
    have hMax : ∀ n ∈ ys ++ [maxSeq], n ≤ maxSeq := by
      intro n hn
      rcases mem_append.mp hn with hn | hn
      · exact (pairwise_append.mp hSorted).2.2 n hn maxSeq (mem_singleton_self _)
      · exact (mem_singleton.mp hn).le
    have hTop := hKeys maxSeq (by simp)
    dsimp only
    split
    · exact ⟨by omega, hTop, hMax⟩
    · refine ⟨le_refl _, hStart, fun n hn => ?_⟩
      have := hMax n hn
      omega

/-- A call runs through all its stages. -/
theorem exists_stages (captured : Captured txs) (valid : Valid txs cq) (inRange : cq.InRange bound)
    (hBound : initialSequence ≤ bound)
    (hFits : bound + ((CreateGraph txs).Queues key).wSlice.length < maxInt32)
    (hFresh : (cq.Queues key).maxRead = 0) :
    ∃ cq' maxRead maxWrite, Nonempty (Stages txs key bound cq cq') ∧ cq.sortInQueue key = { cq' with
        Queues := Function.update cq'.Queues key
          { cq.Queues key with maxRead := maxRead, maxWrite := maxWrite } } := by
  have hFirst : initialSequence = 10 := rfl
  obtain ⟨hrSlice, hwSlice⟩ := valid.queues key
  -- The reads.
  have hReads := sortReads_spec captured valid inRange hBound (by omega) (cq.Queues key)
    (fun r hr => (mem_rSlice.mp (hrSlice ▸ hr)).1) hFresh
  rw [hrSlice] at hReads
  unfold sortInQueue
  simp only []
  generalize cq.sortReads (cq.Queues key) = sorted at hReads ⊢
  obtain ⟨reads, maxRead⟩ := sorted
  -- The numbered writes.
  have hChecked := checkWrites_spec captured hReads.valid hReads.readsDone
  rw [hwSlice]
  generalize ((CreateGraph txs).Queues key).wSlice.foldl (checkWrite maxRead) ⟨reads, [], []⟩ =
    checked at hChecked ⊢
  obtain ⟨hMaxRead, hMaxReadTop⟩ := hReads.maxRead
  obtain ⟨maxStart, hStart⟩ : ∃ m, m = if maxRead = 0 then initialSequence - 1 else maxRead :=
    ⟨_, rfl⟩
  have hStartLow : initialSequence - 1 ≤ maxStart ∧ maxRead ≤ maxStart ∧ maxStart ≤ bound := by
    split at hStart <;> omega
  have hwRefs : ∀ w ∈ ((CreateGraph txs).Queues key).wSlice, w ∈ refs txs :=
    fun w hw => (mem_wSlice.mp hw).1
  have hSame := sortSame_spec captured hChecked.valid maxRead checked.tmpWQueue
    (fun w hw => hwRefs w (hChecked.same w hw).1) (by omega) hStartLow.2.1
    (show maxStart + 1 ≤ maxInt32 by omega)
  rw [← hStart]
  generalize sortSame checked.cq maxRead maxStart checked.tmpWQueue = moved at hSame ⊢
  obtain ⟨same, maxSame, maxWrite⟩ := moved
  simp only [] at hSame ⊢
  obtain ⟨hSameRead, hSameTop, hSameLow, hSameGrow⟩ := hSame.le
  have hKeep : ∀ i, reads.seq i ≠ 0 → same.seq i ≠ 0 := by
    intro i hi
    rcases hSame.values i with h | h
    · rw [h]
      exact fun hZero => hi
        ((congrArg (fun nodes => (nodeAt nodes ⟨i, 0⟩).Sequence) hChecked.nodes).symm.trans hZero)
    · omega
  -- The new writes.
  have hNumbers : ∀ n ∈ (checked.tmpWQueue2.map Prod.fst).dedup.insertionSort (· ≤ ·),
      n ≤ bound := by
    intro n hn
    obtain ⟨ww, hww, rfl⟩ := mem_map.mp (mem_numbers.mp hn)
    obtain ⟨_, hSeq, hNe, _⟩ := hChecked.later ww hww
    have := hReads.inRange ww.2.tx
    omega
  have hZeros : ((CreateGraph txs).Queues key).wSlice.countP (fun w => decide (same.seq w.tx = 0)) +
      (checked.tmpWQueue.length + checked.tmpWQueue2.length) ≤
      ((CreateGraph txs).Queues key).wSlice.length := by
    have hSplit := length_eq_countP_add_countP (fun w : Ref => decide (same.seq w.tx = 0))
      (l := ((CreateGraph txs).Queues key).wSlice)
    rw [hSplit]
    refine Nat.add_le_add_left (hChecked.size.trans (countP_mono_left fun w _ hw => ?_)) _
    simp only [decide_eq_true_eq] at hw ⊢
    exact hKeep w.tx hw
  obtain ⟨ws, hNew, hNewTop, hWs⟩ := newWrites_spec (bound + checked.tmpWQueue.length)
    (fun n hn => (hNumbers n hn).trans (by omega)) ((CreateGraph txs).Queues key).wSlice hwRefs
    hSame.valid (show 0 ≤ maxWrite by omega) (by omega) (by omega)
  generalize ((CreateGraph txs).Queues key).wSlice.foldl (newWrite _) (same, maxWrite) = created
    at hNew hNewTop ⊢
  obtain ⟨new, maxNew⟩ := created
  simp only [] at hNew hNewTop ⊢
  have hNewLow := hNew.le
  obtain ⟨hLastLow, hLastTop, hLast⟩ := lastWrite_spec (pairwise_insertionSort _ _) hNewTop
    fun n hn => (hNumbers n hn).trans (by omega)
  generalize lastWrite _ maxNew = maxLast at hLastLow hLastTop hLast ⊢
  -- The writes that are numbered already.
  obtain ⟨ws', adjusted, maxAdjusted, hRun, hAdjusted, hTop, hMem, hKept, hUnique⟩ :=
    adjustLater_spec maxSame checked.tmpWQueue2
      (fun ww hww => hwRefs ww.2 (hChecked.later ww hww).1) hNew.valid maxLast (by omega)
      (by omega)
  rw [hRun]
  refine ⟨adjusted, maxSame, maxAdjusted, ⟨⟨reads, maxRead, checked, same, maxSame, maxWrite, ws, new,
    maxNew, maxLast, ws', maxAdjusted, hReads, hChecked, hStart ▸ hSame, hNew, hWs,
    ⟨hLastLow, fun ww hww => hLast _ (mem_numbers.mpr (mem_map_of_mem hww))⟩, hAdjusted, hMem,
    hKept, hUnique, by omega⟩⟩, rfl⟩

/-- Sorting a queue that was not sorted before. -/
theorem sortInQueue_spec (captured : Captured txs) (valid : Valid txs cq)
    (inRange : cq.InRange bound) (hBound : initialSequence ≤ bound)
    (hFits : bound + ((CreateGraph txs).Queues key).wSlice.length < maxInt32)
    (hFresh : (cq.Queues key).maxRead = 0) :
    QueueSorted txs key (bound + ((CreateGraph txs).Queues key).wSlice.length) cq
      (cq.sortInQueue key) := by
  obtain ⟨cq', maxRead, maxWrite, ⟨stages⟩, hCall⟩ :=
    exists_stages captured valid inRange hBound hFits hFresh
  have hQueues : cq'.Queues = cq.Queues := by
    rw [stages.adjusted.queues, stages.newNumbered.queues, stages.sameSorted.queues,
      stages.writesChecked.queues, stages.readsSorted.queues]
  rw [hCall]
  exact {
    valid := stages.adjusted.valid.updateQueue (by rw [hQueues]) (by rw [hQueues])
    queues := by
      intro other hOther
      simp only [Function.update_of_ne hOther, hQueues]
    inRange := stages.inRange
    aborted := by
      intro n hn hAborted
      by_contra hLive
      have := (stages.not_aborted hn (Bool.of_not_eq_true hLive)).2.2.2
      exact Bool.false_ne_true (this.symm.trans hAborted)
    outside := fun i hi => stages.outside hi
    mono := fun n hn hLive => stages.mono hn hLive
    numbered := fun label i hi => stages.numbered hi
    readWrite := fun i j hne hi hj => stages.readWrite hne hi hj
    writeWrite := fun i j hne hi hj => stages.writeWrite hne hi hj }

end Call

end QueueGraph

end Nezha
