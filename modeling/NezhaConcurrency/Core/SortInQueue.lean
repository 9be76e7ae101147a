import NezhaConcurrency.Core.QueueGraphState
import NezhaConcurrency.Library.Count
import NezhaConcurrency.Library.Extremum

/-! One call of `sortInQueue`. After the reads, no number of a reader exceeds
`maxRead`; every write is then kept above it, moved above everything, or aborted,
and no two writes get the same number. -/
namespace Nezha

open List

namespace QueueGraph

variable {txs : List (List RWNode)} {cq : QueueGraph} {key : String}

theorem mem_rSlice {n : Ref} : n ∈ ((CreateGraph txs).Queues key).rSlice ↔
    n ∈ refs txs ∧ (nodeAt txs n).CompositeKey = key ∧ (nodeAt txs n).Label = .r := by
  change n ∈ ((refs txs).filter _).filter _ ↔ _
  simp only [mem_filter, decide_eq_true_eq, and_assoc]

theorem mem_wSlice {n : Ref} : n ∈ ((CreateGraph txs).Queues key).wSlice ↔
    n ∈ refs txs ∧ (nodeAt txs n).CompositeKey = key ∧ (nodeAt txs n).Label = .w := by
  change n ∈ ((refs txs).filter _).filter _ ↔ _
  simp only [mem_filter, decide_eq_true_eq, and_assoc]
  have hLabel : ∀ label : Label, label ≠ .r ↔ label = .w := by
    intro label
    cases label <;> simp
  rw [hLabel]

theorem nodup_wSlice : ((CreateGraph txs).Queues key).wSlice.Nodup :=
  (nodup_refs.filter _).filter _

theorem touches_iff {label : Label} {i : Nat} :
    Touches txs label i key ↔ ∃ n ∈ refs txs, n.tx = i ∧ (nodeAt txs n).Label = label ∧
      (nodeAt txs n).CompositeKey = key := by
  unfold Touches keysOf
  constructor
  · rintro ⟨tx, hTx, hKey⟩
    obtain ⟨rw', hm, rfl⟩ := mem_map.mp hKey
    obtain ⟨hIn, hLabel⟩ := mem_filter.mp hm
    obtain ⟨pos, hPos⟩ := mem_iff_getElem?.mp hIn
    have hNode : nodeAt txs ⟨i, pos⟩ = rw' := by simp [nodeAt, hTx, hPos]
    refine ⟨⟨i, pos⟩, ?_, rfl, ?_, ?_⟩
    · rw [mem_refs, mem_refsOf]
      refine ⟨rfl, ?_⟩
      simp only [hTx, Option.getD_some]
      exact (List.getElem?_eq_some_iff.mp hPos).1
    · rw [hNode]
      exact of_decide_eq_true hLabel
    · rw [hNode]
  · rintro ⟨n, hn, rfl, hLabel, hKey⟩
    have hPos := (mem_refsOf.mp (mem_refs.mp hn)).2
    cases hTx : txs[n.tx]? with
    | none => simp [hTx] at hPos
    | some tx =>
      rw [hTx, Option.getD_some] at hPos
      have hNode : nodeAt txs n = tx[n.pos] := by simp [nodeAt, hTx, hPos]
      rw [hNode] at hLabel hKey
      exact ⟨tx, rfl, mem_map.mpr ⟨tx[n.pos],
        mem_filter.mpr ⟨getElem_mem hPos, decide_eq_true hLabel⟩, hKey⟩⟩

theorem touches_iff_mem {i : Nat} {label : Label} {slice : List Ref}
    (hSlice : ∀ n, n ∈ slice ↔ n ∈ refs txs ∧ (nodeAt txs n).CompositeKey = key ∧
      (nodeAt txs n).Label = label) :
    Touches txs label i key ↔ ∃ n ∈ slice, n.tx = i := by
  simp only [touches_iff, hSlice]
  constructor
  · rintro ⟨n, hn, hTx, hLabel, hKey⟩
    exact ⟨n, ⟨hn, hKey, hLabel⟩, hTx⟩
  · rintro ⟨n, ⟨hn, hKey, hLabel⟩, hTx⟩
    exact ⟨n, hn, hTx, hLabel, hKey⟩

theorem touches_r_iff {i : Nat} :
    Touches txs .r i key ↔ ∃ n ∈ ((CreateGraph txs).Queues key).rSlice, n.tx = i :=
  touches_iff_mem fun _ => mem_rSlice

theorem touches_w_iff {i : Nat} :
    Touches txs .w i key ↔ ∃ n ∈ ((CreateGraph txs).Queues key).wSlice, n.tx = i :=
  touches_iff_mem fun _ => mem_wSlice

section Reads

/-- No number is between zero and the first one, and none is above `bound`. -/
def InRange (cq : QueueGraph) (bound : Int) : Prop :=
  ∀ i, cq.seq i = 0 ∨ initialSequence ≤ cq.seq i ∧ cq.seq i ≤ bound

/-- The reads `rs` are sorted, none above `maxRead`, and nothing else has changed
but for aborted transactions. -/
structure ReadsSorted (txs : List (List RWNode)) (rs : List Ref) (bound : Int) (cq cq' : QueueGraph)
    (maxRead : Int) : Prop where
  valid : Valid txs cq'
  queues : cq'.Queues = cq.Queues
  aborted : ∀ i, cq'.aborted i = cq.aborted i
  inRange : cq'.InRange bound
  other : ∀ i, (∀ r ∈ rs, r.tx ≠ i) → cq'.seq i = cq.seq i
  kept : ∀ r ∈ rs, cq.aborted r.tx = false → cq.seq r.tx ≠ 0 → cq'.seq r.tx = cq.seq r.tx
  numbered : ∀ r ∈ rs, cq'.seq r.tx ≠ 0
  le : ∀ r ∈ rs, cq.aborted r.tx = false → cq'.seq r.tx ≤ maxRead
  assigned : ∀ r ∈ rs, cq.aborted r.tx = false →
    ∃ other ∈ rs, other.tx = r.tx ∧ (cq'.node other).isAssigned = true
  maxRead : (maxRead = 0 ∨ initialSequence ≤ maxRead) ∧ maxRead ≤ bound

variable {bound : Int}

theorem numberAll_spec (valid : Valid txs cq) (rs : List Ref) (hRefs : ∀ r ∈ rs, r ∈ refs txs)
    (v : Int) :
    let cq' := rs.foldl (fun cq r => cq.number r v) cq
    Valid txs cq' ∧ cq'.Queues = cq.Queues ∧ (∀ i, cq'.aborted i = cq.aborted i) ∧
      (∀ i, (∀ r ∈ rs, r.tx ≠ i) → cq'.seq i = cq.seq i) ∧ (∀ r ∈ rs, cq'.seq r.tx = v) ∧
      (∀ r, r ∈ rs ∨ (cq.node r).isAssigned = true → (cq'.node r).isAssigned = true) := by
  induction rs generalizing cq with
  | nil =>
    exact ⟨valid, rfl, fun _ => rfl, fun _ _ => rfl, fun r h => absurd h not_mem_nil,
      fun r h => h.resolve_left not_mem_nil⟩
  | cons r rs ih =>
    have hr := hRefs r mem_cons_self
    obtain ⟨valid', hQueues, hAborted, hOther, hNumber, hAssigned⟩ :=
      ih (valid.number hr v) fun x hx => hRefs x (mem_cons_of_mem _ hx)
    refine ⟨valid', hQueues, fun i => (hAborted i).trans (valid.aborted_number hr v i),
      fun i hi => ?_, fun x hx => ?_, fun x hx => ?_⟩
    · refine (hOther i fun x hx => hi x (mem_cons_of_mem _ hx)).trans ?_
      rw [valid.seq_number hr, if_neg fun h => hi r mem_cons_self h.symm]
    · by_cases hIn : ∃ y ∈ rs, y.tx = x.tx
      · obtain ⟨y, hy, hTx⟩ := hIn
        exact hTx ▸ hNumber y hy
      · push Not at hIn
        have hxr : x = r := (mem_cons.mp hx).resolve_right fun h => hIn x h rfl
        refine (hOther x.tx hIn).trans ?_
        rw [valid.seq_number hr, if_pos (congrArg Ref.tx hxr)]
    · apply hAssigned
      rw [valid.isAssigned_number hr, Bool.or_eq_true, decide_eq_true_eq]
      rcases hx with hx | hx
      · rcases mem_cons.mp hx with rfl | hx
        · exact Or.inr (Or.inl rfl)
        · exact Or.inl hx
      · exact Or.inr (Or.inr hx)

theorem assignAll_spec (valid : Valid txs cq) (rs : List Ref) (hRefs : ∀ r ∈ rs, r ∈ refs txs) :
    let cq' := rs.foldl assign cq
    Valid txs cq' ∧ cq'.Queues = cq.Queues ∧ (∀ i, cq'.aborted i = cq.aborted i) ∧
      (∀ i, cq'.seq i = cq.seq i) ∧
      (∀ r, r ∈ rs ∨ (cq.node r).isAssigned = true → (cq'.node r).isAssigned = true) := by
  induction rs generalizing cq with
  | nil =>
    exact ⟨valid, rfl, fun _ => rfl, fun _ => rfl, fun r h => h.resolve_left not_mem_nil⟩
  | cons r rs ih =>
    have hr := hRefs r mem_cons_self
    obtain ⟨valid', hQueues, hAborted, hSeq, hAssigned⟩ :=
      ih (valid.assign hr) fun x hx => hRefs x (mem_cons_of_mem _ hx)
    refine ⟨valid', hQueues, fun i => ?_, fun i => (hSeq i).trans (valid.seq_assign hr i),
      fun x hx => hAssigned x ?_⟩
    · exact (hAborted i).trans (congrArg Edge.isAborted (valid.edgeOf_assign hr _))
    · rw [valid.node_assign hr, Bool.or_eq_true, decide_eq_true_eq]
      rcases hx with hx | hx
      · rcases mem_cons.mp hx with rfl | hx
        · exact Or.inr (Or.inl rfl)
        · exact Or.inl hx
      · exact Or.inr (Or.inr hx)

theorem numberRest_spec (valid : Valid txs cq) (rs : List Ref) (hRefs : ∀ r ∈ rs, r ∈ refs txs)
    {v : Int} (hv : v ≠ 0) :
    let cq' := rs.foldl (fun cq r => if (cq.node r).Sequence ≠ 0 then cq else cq.number r v) cq
    Valid txs cq' ∧ cq'.Queues = cq.Queues ∧ (∀ i, cq'.aborted i = cq.aborted i) ∧
      (∀ i, (∀ r ∈ rs, r.tx ≠ i) ∨ cq.seq i ≠ 0 → cq'.seq i = cq.seq i) ∧
      (∀ r, (cq.node r).isAssigned = true → (cq'.node r).isAssigned = true) ∧
      (∀ r ∈ rs, cq.seq r.tx = 0 → cq'.seq r.tx = v ∧
        ∃ other ∈ rs, other.tx = r.tx ∧ (cq'.node other).isAssigned = true) := by
  induction rs generalizing cq with
  | nil =>
    exact ⟨valid, rfl, fun _ => rfl, fun _ _ => rfl, fun _ h => h, fun r h => absurd h not_mem_nil⟩
  | cons r rs ih =>
    have hr := hRefs r mem_cons_self
    have hRest : ∀ x ∈ rs, x ∈ refs txs := fun x hx => hRefs x (mem_cons_of_mem _ hx)
    rw [foldl_cons]
    by_cases hZero : (cq.node r).Sequence ≠ 0
    · rw [if_pos hZero]
      obtain ⟨valid', hQueues, hAborted, hOther, hMono, hNew⟩ := ih valid hRest
      refine ⟨valid', hQueues, hAborted, fun i hi => ?_, hMono, fun x hx hxZero => ?_⟩
      · exact hOther i (hi.imp_left fun h x hx => h x (mem_cons_of_mem _ hx))
      · rcases mem_cons.mp hx with rfl | hx
        · exact absurd hxZero (valid.uniform x hr ▸ hZero)
        · obtain ⟨hSeq, other, ho, h⟩ := hNew x hx hxZero
          exact ⟨hSeq, other, mem_cons_of_mem _ ho, h⟩
    · rw [if_neg hZero]
      obtain ⟨valid', hQueues, hAborted, hOther, hMono, hNew⟩ := ih (valid.number hr v) hRest
      have hAssigned : ∀ x, x = r ∨ (cq.node x).isAssigned = true →
          ((cq.number r v).node x).isAssigned = true := by
        intro x hx
        rw [valid.isAssigned_number hr, Bool.or_eq_true, decide_eq_true_eq]
        exact hx
      refine ⟨valid', hQueues, fun i => (hAborted i).trans (valid.aborted_number hr v i),
        fun i hi => ?_, fun x hx => hMono x (hAssigned x (Or.inr hx)), fun x hx hxZero => ?_⟩
      · have hne : i ≠ r.tx := by
          rintro rfl
          rcases hi with h | h
          · exact h r mem_cons_self rfl
          · rw [valid.uniform r hr] at hZero
            exact hZero h
        have hStep : (cq.number r v).seq i = cq.seq i := by
          rw [valid.seq_number hr, if_neg hne]
        rw [← hStep]
        refine hOther i ?_
        rw [hStep]
        exact hi.imp_left fun h x hx => h x (mem_cons_of_mem _ hx)
      · by_cases hTx : x.tx = r.tx
        · have hStep : (cq.number r v).seq x.tx = v := by
            rw [valid.seq_number hr, if_pos hTx]
          refine ⟨?_, r, mem_cons_self, hTx.symm, hMono r (hAssigned r (Or.inl rfl))⟩
          rw [hOther x.tx (Or.inr (hStep.symm ▸ hv)), hStep]
        · have hx' : x ∈ rs := (mem_cons.mp hx).resolve_left fun h => hTx (congrArg _ h)
          obtain ⟨hSeq, other, ho, h⟩ := hNew x hx' (by
            rw [valid.seq_number hr, if_neg hTx]
            exact hxZero)
          exact ⟨hSeq, other, mem_cons_of_mem _ ho, h⟩

theorem foldl_numberPair (rs : List Ref) (v start : Int) (cq : QueueGraph) :
    rs.foldl (fun (s : QueueGraph × Int) r => (s.1.number r v, v)) (cq, start) =
      (rs.foldl (fun cq r => cq.number r v) cq, if rs = [] then start else v) := by
  induction rs generalizing cq start with
  | nil => rfl
  | cons r rs ih =>
    rw [foldl_cons, ih, foldl_cons]
    simp

/-- The reads of a queue that was not sorted before. -/
theorem sortReads_spec (captured : Captured txs) (valid : Valid txs cq) (inRange : cq.InRange bound)
    (hBound : initialSequence ≤ bound) (hFits : bound < maxInt32) (queue : Queue)
    (hRefs : ∀ r ∈ queue.rSlice, r ∈ refs txs) (hFresh : queue.maxRead = 0) :
    ReadsSorted txs queue.rSlice bound cq (cq.sortReads queue).1 (cq.sortReads queue).2 := by
  have hFirst : (0 : Int) < initialSequence := by decide
  unfold sortReads
  simp only []
  generalize hTmp : (queue.rSlice.filter fun r =>
    decide ((cq.node r).Sequence ≠ 0) && !(cq.edgeOf r).isAborted) = tmpRQueue
  have hMem : ∀ r, r ∈ tmpRQueue ↔
      r ∈ queue.rSlice ∧ cq.seq r.tx ≠ 0 ∧ cq.aborted r.tx = false := by
    intro r
    rw [← hTmp, mem_filter]
    refine and_congr_right fun hr => ?_
    rw [valid.uniform r (hRefs r hr), valid.isAborted_eq captured (hRefs r hr)]
    simp
  by_cases hNone : tmpRQueue = []
  · rw [if_pos hNone]
    have hUnnumbered : ∀ r ∈ queue.rSlice, cq.aborted r.tx = false → cq.seq r.tx = 0 := by
      intro r hr hLive
      by_contra hSeq
      have := (hMem r).mpr ⟨hr, hSeq, hLive⟩
      rw [hNone] at this
      cases this
    obtain ⟨valid', hQueues, hAborted, hOther, hNumber, hAssigned⟩ :=
      numberAll_spec valid queue.rSlice hRefs initialSequence
    rw [foldl_numberPair]
    refine ⟨valid', hQueues, hAborted, fun i => ?_, hOther, fun r hr hLive hSeq => ?_,
      fun r hr => ?_, fun r hr _ => ?_, fun r hr _ => ⟨r, hr, rfl, hAssigned r (Or.inl hr)⟩, ?_⟩
    · by_cases hi : ∃ r ∈ queue.rSlice, r.tx = i
      · obtain ⟨r, hr, rfl⟩ := hi
        rw [hNumber r hr]
        exact Or.inr ⟨le_refl _, hBound⟩
      · push Not at hi
        rw [hOther i hi]
        exact inRange i
    · exact absurd (hUnnumbered r hr hLive) hSeq
    · rw [hNumber r hr]
      exact hFirst.ne'
    · rw [hNumber r hr, if_neg (ne_nil_of_mem hr)]
    · by_cases hEmpty : queue.rSlice = []
      · rw [if_pos hEmpty, hFresh]
        exact ⟨Or.inl rfl, hFirst.le.trans hBound⟩
      · rw [if_neg hEmpty]
        exact ⟨Or.inr (le_refl _), hBound⟩
  · rw [if_neg hNone]
    have hTmpRefs : ∀ r ∈ tmpRQueue, r ∈ refs txs := fun r hr => hRefs r ((hMem r).mp hr).1
    have hTmpSeq : ∀ r ∈ tmpRQueue, (cq.node r).Sequence = cq.seq r.tx :=
      fun r hr => valid.uniform r (hTmpRefs r hr)
    have hTmpRange : ∀ r ∈ tmpRQueue, initialSequence ≤ (cq.node r).Sequence ∧
        (cq.node r).Sequence ≤ bound := by
      intro r hr
      rw [hTmpSeq r hr]
      exact (inRange r.tx).resolve_left ((hMem r).mp hr).2.1
    obtain ⟨hLeast, _, hAttained⟩ :=
      Extremum.foldl_min (fun tr => (cq.node tr).Sequence) tmpRQueue maxInt32
    obtain ⟨hMost, hStart, hTop⟩ :=
      Extremum.foldl_max (fun tr => (cq.node tr).Sequence) tmpRQueue queue.maxRead
    generalize tmpRQueue.foldl (fun min tr =>
      if (cq.node tr).Sequence < min then (cq.node tr).Sequence else min) maxInt32 = least
      at hLeast hAttained ⊢
    generalize tmpRQueue.foldl (fun max tr =>
      if (cq.node tr).Sequence > max then (cq.node tr).Sequence else max) queue.maxRead = most
      at hMost hStart hTop ⊢
    obtain ⟨first, hFirstMem⟩ := exists_mem_of_ne_nil _ hNone
    have hLeastRange : initialSequence ≤ least ∧ least ≤ bound ∧ least ≤ most := by
      have hBelow := hLeast first hFirstMem
      have hAbove := hMost first hFirstMem
      have hRange := hTmpRange first hFirstMem
      rcases hAttained with h | ⟨tr, htr, h⟩
      · omega
      · have := hTmpRange tr htr
        omega
    obtain ⟨valid₁, hQueues₁, hAborted₁, hSeq₁, hAssigned₁⟩ := assignAll_spec valid tmpRQueue hTmpRefs
    obtain ⟨valid₂, hQueues₂, hAborted₂, hOther₂, hMono₂, hNew₂⟩ :=
      numberRest_spec valid₁ queue.rSlice hRefs (v := least) (by omega)
    generalize tmpRQueue.foldl assign cq = marked at *
    generalize queue.rSlice.foldl (fun cq r =>
      if (cq.node r).Sequence ≠ 0 then cq else cq.number r least) marked = sorted at *
    have hKept : ∀ i, cq.seq i ≠ 0 → sorted.seq i = cq.seq i := by
      intro i hi
      rw [← hSeq₁ i] at hi ⊢
      exact hOther₂ i (Or.inr hi)
    have hGiven : ∀ r ∈ queue.rSlice, cq.seq r.tx = 0 → sorted.seq r.tx = least :=
      fun r hr hZero => (hNew₂ r hr ((hSeq₁ r.tx).trans hZero)).1
    refine ⟨valid₂, hQueues₂.trans hQueues₁, fun i => (hAborted₂ i).trans (hAborted₁ i),
      fun i => ?_, fun i hi => (hOther₂ i (Or.inl hi)).trans (hSeq₁ i),
      fun r _ _ hSeq => hKept r.tx hSeq, fun r hr => ?_, fun r hr hLive => ?_, fun r hr hLive => ?_, ?_⟩
    · by_cases hZero : cq.seq i = 0
      · by_cases hi : ∃ r ∈ queue.rSlice, r.tx = i
        · obtain ⟨r, hr, rfl⟩ := hi
          rw [hGiven r hr hZero]
          exact Or.inr ⟨hLeastRange.1, hLeastRange.2.1⟩
        · push Not at hi
          exact Or.inl ((hOther₂ i (Or.inl hi)).trans ((hSeq₁ i).trans hZero))
      · rw [hKept i hZero]
        exact inRange i
    · by_cases hZero : cq.seq r.tx = 0
      · rw [hGiven r hr hZero]
        omega
      · rw [hKept r.tx hZero]
        exact hZero
    · by_cases hZero : cq.seq r.tx = 0
      · rw [hGiven r hr hZero]
        exact hLeastRange.2.2
      · have hTmpMem := (hMem r).mpr ⟨hr, hZero, hLive⟩
        rw [hKept r.tx hZero, ← hTmpSeq r hTmpMem]
        exact hMost r hTmpMem
    · by_cases hZero : cq.seq r.tx = 0
      · exact (hNew₂ r hr ((hSeq₁ r.tx).trans hZero)).2
      · have hTmpMem := (hMem r).mpr ⟨hr, hZero, hLive⟩
        exact ⟨r, hr, rfl, hMono₂ r (hAssigned₁ r (Or.inl hTmpMem))⟩
    · refine ⟨Or.inr (hLeastRange.1.trans hLeastRange.2.2), ?_⟩
      rcases hTop with h | ⟨tr, htr, h⟩
      · omega
      · have := hTmpRange tr htr
        omega

end Reads

section Writes

variable {bound maxRead : Int}

/-- The check of a write aborts its transaction only if that is numbered behind a
read and has an assigned read, but none on the key. -/
theorem checkWrite_cq (maxRead : Int) (s : Checked) (w : Ref) : (checkWrite maxRead s w).cq = s.cq ∨
      (checkWrite maxRead s w).cq = s.cq.abort w ∧ (s.cq.node w).Sequence ≠ 0 ∧
        (s.cq.edgeOf w).isAborted ≠ true ∧ (s.cq.node w).Sequence ≤ maxRead ∧
        ((s.cq.edgeOf w).set.filter fun rw =>
          (s.cq.node rw).Label = .r ∧ (s.cq.node rw).isAssigned = true) ≠ [] ∧
        (((s.cq.edgeOf w).set.filter fun rw =>
          (s.cq.node rw).Label = .r ∧ (s.cq.node rw).isAssigned = true).any fun rw =>
            (s.cq.node w).CompositeKey = (s.cq.node rw).CompositeKey) ≠ true := by
  unfold checkWrite
  simp only []
  split
  · exact Or.inl rfl
  next hZero =>
    split
    · exact Or.inl rfl
    next hLive =>
      split
      next hLe =>
        split
        · exact Or.inl rfl
        next hSame =>
          split
          next hBefore => exact Or.inr ⟨rfl, hZero, hLive, hLe, hBefore, hSame⟩
          · exact Or.inl rfl
      · exact Or.inl rfl

theorem checkWrite_tmpWQueue (maxRead : Int) (s : Checked) (w : Ref) :
    (checkWrite maxRead s w).tmpWQueue = s.tmpWQueue ∨
      (checkWrite maxRead s w).tmpWQueue = s.tmpWQueue ++ [w] := by
  unfold checkWrite
  simp only []
  split_ifs <;> simp

theorem checkWrite_tmpWQueue2 (maxRead : Int) (s : Checked) (w : Ref) :
    (checkWrite maxRead s w).tmpWQueue2 = s.tmpWQueue2 ∨
      (checkWrite maxRead s w).tmpWQueue2 = s.tmpWQueue2 ++ [((s.cq.node w).Sequence, w)] := by
  unfold checkWrite
  simp only []
  split_ifs <;> simp

/-- In the middle of the loop over the numbered writes, with `done` behind it.
Nothing is renumbered here. -/
structure WritesChecked (txs : List (List RWNode)) (key : String) (maxRead : Int) (cq : QueueGraph)
    (done : List Ref) (s : Checked) : Prop where
  nodes : s.cq.nodes = cq.nodes
  queues : s.cq.Queues = cq.Queues
  valid : Valid txs s.cq
  aborted : ∀ n ∈ refs txs, cq.aborted n.tx = true → s.cq.aborted n.tx = true
  same : ∀ w ∈ s.tmpWQueue, w ∈ done ∧ cq.seq w.tx ≠ 0 ∧ cq.seq w.tx ≤ maxRead ∧
    Touches txs .r w.tx key
  later : ∀ ww ∈ s.tmpWQueue2, ww.2 ∈ done ∧ ww.1 = cq.seq ww.2.tx ∧ ww.1 ≠ 0 ∧
    ¬ Touches txs .r ww.2.tx key
  cover : ∀ w ∈ done, cq.seq w.tx ≠ 0 → s.cq.aborted w.tx = false →
    w ∈ s.tmpWQueue ∨ (cq.seq w.tx, w) ∈ s.tmpWQueue2
  size : s.tmpWQueue.length + s.tmpWQueue2.length ≤ done.countP fun w => decide (cq.seq w.tx ≠ 0)

variable {done : List Ref} {s : Checked} {w : Ref}

theorem WritesChecked.start (valid : Valid txs cq) :
    WritesChecked txs key maxRead cq [] ⟨cq, [], []⟩ where
  nodes := rfl
  queues := rfl
  valid := valid
  aborted := fun _ _ h => h
  same := fun _ h => absurd h not_mem_nil
  later := fun _ h => absurd h not_mem_nil
  cover := fun _ h => absurd h not_mem_nil
  size := Nat.zero_le _

theorem WritesChecked.skip (checked : WritesChecked txs key maxRead cq done s)
    (hSkip : cq.seq w.tx = 0 ∨ s.cq.aborted w.tx = true) :
    WritesChecked txs key maxRead cq (done ++ [w]) s where
  nodes := checked.nodes
  queues := checked.queues
  valid := checked.valid
  aborted := checked.aborted
  same := fun x hx => ⟨mem_append_left _ (checked.same x hx).1, (checked.same x hx).2⟩
  later := fun x hx => ⟨mem_append_left _ (checked.later x hx).1, (checked.later x hx).2⟩
  cover := by
    intro x hx hSeq hLive
    rcases mem_append.mp hx with hx | hx
    · exact checked.cover x hx hSeq hLive
    · rw [mem_singleton.mp hx] at hSeq hLive
      rcases hSkip with h | h
      · exact absurd h hSeq
      · exact absurd (hLive.symm.trans h) Bool.false_ne_true
  size := by
    rw [countP_append]
    exact checked.size.trans (Nat.le_add_right _ _)

theorem countP_numbered (hSeq : cq.seq w.tx ≠ 0) :
    (done ++ [w]).countP (fun w => decide (cq.seq w.tx ≠ 0)) =
      done.countP (fun w => decide (cq.seq w.tx ≠ 0)) + 1 := by
  rw [countP_append, countP_singleton, if_pos (decide_eq_true hSeq)]

theorem WritesChecked.pushSame (checked : WritesChecked txs key maxRead cq done s)
    (hSeq : cq.seq w.tx ≠ 0) (hLe : cq.seq w.tx ≤ maxRead) (hReads : Touches txs .r w.tx key) :
    WritesChecked txs key maxRead cq (done ++ [w]) { s with tmpWQueue := s.tmpWQueue ++ [w] } where
  nodes := checked.nodes
  queues := checked.queues
  valid := checked.valid
  aborted := checked.aborted
  same := by
    intro x hx
    rcases mem_append.mp hx with hx | hx
    · exact ⟨mem_append_left _ (checked.same x hx).1, (checked.same x hx).2⟩
    · rw [mem_singleton.mp hx]
      exact ⟨mem_append_right _ mem_cons_self, hSeq, hLe, hReads⟩
  later := fun x hx => ⟨mem_append_left _ (checked.later x hx).1, (checked.later x hx).2⟩
  cover := by
    intro x hx hxSeq hLive
    rcases mem_append.mp hx with hx | hx
    · exact (checked.cover x hx hxSeq hLive).imp_left (mem_append_left _)
    · exact Or.inl (mem_append_right _ hx)
  size := by
    have hSize := checked.size
    change (s.tmpWQueue ++ [w]).length + s.tmpWQueue2.length ≤ _
    rw [countP_numbered hSeq, length_append, length_singleton]
    omega

theorem WritesChecked.pushLater (checked : WritesChecked txs key maxRead cq done s)
    (hSeq : cq.seq w.tx ≠ 0) (hReads : ¬ Touches txs .r w.tx key) :
    WritesChecked txs key maxRead cq (done ++ [w])
      { s with tmpWQueue2 := s.tmpWQueue2 ++ [(cq.seq w.tx, w)] } where
  nodes := checked.nodes
  queues := checked.queues
  valid := checked.valid
  aborted := checked.aborted
  same := fun x hx => ⟨mem_append_left _ (checked.same x hx).1, (checked.same x hx).2⟩
  later := by
    intro x hx
    rcases mem_append.mp hx with hx | hx
    · exact ⟨mem_append_left _ (checked.later x hx).1, (checked.later x hx).2⟩
    · rw [mem_singleton.mp hx]
      exact ⟨mem_append_right _ mem_cons_self, rfl, hSeq, hReads⟩
  cover := by
    intro x hx hxSeq hLive
    rcases mem_append.mp hx with hx | hx
    · exact (checked.cover x hx hxSeq hLive).imp_right (mem_append_left _)
    · rw [mem_singleton.mp hx]
      exact Or.inr (mem_append_right _ mem_cons_self)
  size := by
    have hSize := checked.size
    change s.tmpWQueue.length + (s.tmpWQueue2 ++ [_]).length ≤ _
    rw [countP_numbered hSeq, length_append, length_singleton]
    omega

theorem WritesChecked.abort (captured : Captured txs)
    (checked : WritesChecked txs key maxRead cq done s) (hw : w ∈ refs txs)
    (hDone : ∀ x ∈ done, x ∈ refs txs) :
    WritesChecked txs key maxRead cq (done ++ [w]) { s with cq := s.cq.abort w } where
  nodes := checked.nodes
  queues := checked.queues
  valid := checked.valid.abort captured hw
  aborted := by
    intro n hn hAborted
    rw [checked.valid.aborted_abort captured hw hn, checked.aborted n hn hAborted, Bool.or_true]
  same := fun x hx => ⟨mem_append_left _ (checked.same x hx).1, (checked.same x hx).2⟩
  later := fun x hx => ⟨mem_append_left _ (checked.later x hx).1, (checked.later x hx).2⟩
  cover := by
    intro x hx hxSeq hLive
    have hxRefs : x ∈ refs txs := by
      rcases mem_append.mp hx with hx | hx
      · exact hDone x hx
      · exact mem_singleton.mp hx ▸ hw
    rw [checked.valid.aborted_abort captured hw hxRefs, Bool.or_eq_false_iff,
      decide_eq_false_iff_not] at hLive
    rcases mem_append.mp hx with hx | hx
    · exact checked.cover x hx hxSeq hLive.2
    · exact absurd (congrArg Ref.tx (mem_singleton.mp hx)) hLive.1
  size := by
    rw [countP_append]
    exact checked.size.trans (Nat.le_add_right _ _)

/-- The read nodes of the transaction of a write that are already assigned, and
whether one of them is on the key. -/
theorem any_assigned_iff (valid : Valid txs cq) (hw : w ∈ refs txs)
    (hKey : (nodeAt txs w).CompositeKey = key) :
    (((cq.edgeOf w).set.filter fun rw =>
      (cq.node rw).Label = .r ∧ (cq.node rw).isAssigned = true).any fun rw =>
        (cq.node w).CompositeKey = (cq.node rw).CompositeKey) = true ↔
      ∃ r ∈ ((CreateGraph txs).Queues key).rSlice, r.tx = w.tx ∧ (cq.node r).isAssigned = true := by
  rw [any_eq_true, valid.edges w hw]
  constructor
  · rintro ⟨r, hr, hSame⟩
    obtain ⟨hOwn, hLabel⟩ := mem_filter.mp hr
    rw [decide_eq_true_eq] at hSame hLabel
    rw [valid.compositeKey, valid.compositeKey, hKey] at hSame
    rw [valid.label] at hLabel
    exact ⟨r, mem_rSlice.mpr ⟨refsOf_subset hOwn, hSame.symm, hLabel.1⟩, (mem_refsOf.mp hOwn).1,
      hLabel.2⟩
  · rintro ⟨r, hr, hTx, hAssigned⟩
    obtain ⟨hRefs, hrKey, hLabel⟩ := mem_rSlice.mp hr
    refine ⟨r, mem_filter.mpr ⟨hTx ▸ mem_refs.mp hRefs, ?_⟩, ?_⟩
    · rw [decide_eq_true_eq, valid.label]
      exact ⟨hLabel, hAssigned⟩
    · rw [decide_eq_true_eq, valid.compositeKey, valid.compositeKey, hKey, hrKey]

/-- Every reader that is not aborted is below `maxRead` and has an assigned node. -/
def ReadsDone (txs : List (List RWNode)) (key : String) (maxRead : Int) (cq : QueueGraph) : Prop :=
  ∀ r ∈ ((CreateGraph txs).Queues key).rSlice, cq.aborted r.tx = false →
    cq.seq r.tx ≤ maxRead ∧ ∃ other ∈ ((CreateGraph txs).Queues key).rSlice,
      other.tx = r.tx ∧ (cq.node other).isAssigned = true

theorem ReadsSorted.readsDone {bound : Int} {cq' : QueueGraph}
    (sorted : ReadsSorted txs ((CreateGraph txs).Queues key).rSlice bound cq cq' maxRead) :
    ReadsDone txs key maxRead cq' := by
  intro r hr hLive
  rw [sorted.aborted] at hLive
  exact ⟨sorted.le r hr hLive, sorted.assigned r hr hLive⟩

theorem WritesChecked.checkWrite (captured : Captured txs)
    (checked : WritesChecked txs key maxRead cq done s) (hw : w ∈ refs txs)
    (hDone : ∀ x ∈ done, x ∈ refs txs) (hKey : (nodeAt txs w).CompositeKey = key)
    (hReads : ReadsDone txs key maxRead cq) :
    WritesChecked txs key maxRead cq (done ++ [w]) (checkWrite maxRead s w) := by
  have hNode : ∀ n, s.cq.node n = cq.node n := fun n => congrArg (nodeAt · n) checked.nodes
  have hwSeq : (s.cq.node w).Sequence = cq.seq w.tx :=
    (checked.valid.uniform w hw).trans (congrArg RWNode.Sequence (hNode ⟨w.tx, 0⟩))
  have hwAborted := checked.valid.isAborted_eq captured hw
  have hSame := any_assigned_iff checked.valid hw hKey
  unfold QueueGraph.checkWrite
  simp only [hwSeq, hwAborted]
  by_cases hZero : cq.seq w.tx = 0
  · rw [if_pos hZero]
    exact checked.skip (Or.inl hZero)
  rw [if_neg hZero]
  by_cases hAborted : s.cq.aborted w.tx = true
  · rw [if_pos hAborted]
    exact checked.skip (Or.inr hAborted)
  rw [if_neg hAborted]
  have hLive : cq.aborted w.tx = false :=
    Bool.of_not_eq_true fun h => hAborted (checked.aborted w hw h)
  -- A transaction that reads the key has an assigned read there and is below `maxRead`.
  have hReader : Touches txs .r w.tx key → cq.seq w.tx ≤ maxRead ∧
      ∃ r ∈ ((CreateGraph txs).Queues key).rSlice, r.tx = w.tx ∧
        (s.cq.node r).isAssigned = true := by
    intro hTouches
    obtain ⟨r, hr, hTx⟩ := touches_r_iff.mp hTouches
    obtain ⟨hLe, other, ho, hOtherTx, hAssigned⟩ := hReads r hr (hTx.symm ▸ hLive)
    exact ⟨hTx ▸ hLe, other, ho, hOtherTx.trans hTx, (hNode other).symm ▸ hAssigned⟩
  by_cases hLe : cq.seq w.tx ≤ maxRead
  · rw [if_pos hLe]
    split
    · next hAny =>
        obtain ⟨r, hr, hTx, _⟩ := hSame.mp hAny
        exact checked.pushSame hZero hLe (touches_r_iff.mpr ⟨r, hr, hTx⟩)
    · next hAny =>
        have hNot : ¬ Touches txs .r w.tx key := fun h => hAny (hSame.mpr (hReader h).2)
        split
        · exact checked.abort captured hw hDone
        · exact checked.pushLater hZero hNot
  · rw [if_neg hLe]
    exact checked.pushLater hZero fun h => hLe (hReader h).1

/-- The loop over the writes. -/
theorem checkWrites_spec (captured : Captured txs) (valid : Valid txs cq)
    (hReads : ReadsDone txs key maxRead cq) :
    WritesChecked txs key maxRead cq ((CreateGraph txs).Queues key).wSlice
      (((CreateGraph txs).Queues key).wSlice.foldl (QueueGraph.checkWrite maxRead) ⟨cq, [], []⟩) := by
  have hLoop : ∀ (rest done : List Ref) (s : Checked),
      (∀ w ∈ done ++ rest, w ∈ ((CreateGraph txs).Queues key).wSlice) →
      WritesChecked txs key maxRead cq done s →
      WritesChecked txs key maxRead cq (done ++ rest)
        (rest.foldl (QueueGraph.checkWrite maxRead) s) := by
    intro rest
    induction rest with
    | nil =>
      intro done s _ checked
      rwa [append_nil]
    | cons w rest ih =>
      intro done s hAll checked
      obtain ⟨hw, hKey, _⟩ := mem_wSlice.mp (hAll w (by simp))
      have hDone : ∀ x ∈ done, x ∈ refs txs :=
        fun x hx => (mem_wSlice.mp (hAll x (mem_append_left _ hx))).1
      rw [append_cons] at hAll ⊢
      exact ih _ _ hAll (checked.checkWrite captured hw hDone hKey hReads)
  exact hLoop _ [] _ (fun w hw => hw) (WritesChecked.start valid)

end Writes

section Numbers

/-- The transactions `ws` got different numbers above `maxWrite`, the largest of
which is not above `maxWrite'`, and none of the numbers in `taken`. -/
structure Numbered (txs : List (List RWNode)) (taken : List Int) (cq : QueueGraph) (maxWrite : Int)
    (ws : List Nat) (cq' : QueueGraph) (maxWrite' : Int) : Prop where
  valid : Valid txs cq'
  queues : cq'.Queues = cq.Queues
  aborted : ∀ i, cq'.aborted i = cq.aborted i
  le : maxWrite ≤ maxWrite'
  other : ∀ i, i ∉ ws → cq'.seq i = cq.seq i
  fresh : ∀ i ∈ ws, maxWrite < cq'.seq i ∧ cq'.seq i ≤ maxWrite' ∧ cq'.seq i ∉ taken
  distinct : ∀ i ∈ ws, ∀ j ∈ ws, i ≠ j → cq'.seq i ≠ cq'.seq j

variable {taken : List Int} {maxWrite : Int}

theorem Numbered.refl (valid : Valid txs cq) : Numbered txs taken cq maxWrite [] cq maxWrite where
  valid := valid
  queues := rfl
  aborted := fun _ => rfl
  le := le_refl _
  other := fun _ _ => rfl
  fresh := fun _ h => absurd h not_mem_nil
  distinct := fun _ h => absurd h not_mem_nil

theorem Numbered.one (valid : Valid txs cq) {w : Ref} (hw : w ∈ refs txs) {v : Int}
    (hv : maxWrite < v) (hTaken : v ∉ taken) :
    Numbered txs taken cq maxWrite [w.tx] (cq.number w v) v where
  valid := valid.number hw v
  queues := rfl
  aborted := valid.aborted_number hw v
  le := hv.le
  other := by
    intro i hi
    rw [valid.seq_number hw, if_neg fun h => hi (mem_singleton.mpr h)]
  fresh := by
    intro i hi
    rw [valid.seq_number hw, if_pos (mem_singleton.mp hi)]
    exact ⟨hv, le_refl _, hTaken⟩
  distinct := by
    intro i hi j hj hne
    exact absurd ((mem_singleton.mp hi).trans (mem_singleton.mp hj).symm) hne

theorem Numbered.trans {cq₁ cq₂ : QueueGraph} {maxWrite₁ maxWrite₂ : Int} {ws ws' : List Nat}
    (first : Numbered txs taken cq maxWrite ws cq₁ maxWrite₁)
    (second : Numbered txs taken cq₁ maxWrite₁ ws' cq₂ maxWrite₂) :
    Numbered txs taken cq maxWrite (ws ++ ws') cq₂ maxWrite₂ where
  valid := second.valid
  queues := second.queues.trans first.queues
  aborted := fun i => (second.aborted i).trans (first.aborted i)
  le := first.le.trans second.le
  other := by
    intro i hi
    rw [mem_append, not_or] at hi
    rw [second.other i hi.2, first.other i hi.1]
  fresh := by
    intro i hi
    by_cases hSecond : i ∈ ws'
    · obtain ⟨hLow, hHigh, hTaken⟩ := second.fresh i hSecond
      exact ⟨first.le.trans_lt hLow, hHigh, hTaken⟩
    · obtain ⟨hLow, hHigh, hTaken⟩ :=
        first.fresh i ((mem_append.mp hi).resolve_right hSecond)
      rw [second.other i hSecond]
      exact ⟨hLow, hHigh.trans second.le, hTaken⟩
  distinct := by
    intro i hi j hj hne
    by_cases hiSecond : i ∈ ws'
    · by_cases hjSecond : j ∈ ws'
      · exact second.distinct i hiSecond j hjSecond hne
      · have hjFirst := (mem_append.mp hj).resolve_right hjSecond
        rw [second.other j hjSecond]
        exact ((first.fresh j hjFirst).2.1.trans_lt (second.fresh i hiSecond).1).ne'
    · have hiFirst := (mem_append.mp hi).resolve_right hiSecond
      rw [second.other i hiSecond]
      by_cases hjSecond : j ∈ ws'
      · exact ((first.fresh i hiFirst).2.1.trans_lt (second.fresh j hjSecond).1).ne
      · rw [second.other j hjSecond]
        exact first.distinct i hiFirst j ((mem_append.mp hj).resolve_right hjSecond) hne

theorem firstFree_spec {keys : List Int} {bound : Int} (hKeys : ∀ n ∈ keys, n ≤ bound)
    (hFits : bound + 1 < maxInt32) (tries : Nat) {i : Int} (hi : i ≤ bound + 1)
    (hTries : keys.countP (fun n => decide (i ≤ n)) < tries) :
    ∃ v, firstFree keys tries i = some v ∧ i ≤ v ∧ v ≤ bound + 1 ∧ v ∉ keys := by
  induction tries generalizing i with
  | zero => exact absurd hTries (Nat.not_lt_zero _)
  | succ tries ih =>
    rw [firstFree, if_pos (by omega)]
    by_cases hIn : i ∈ keys
    · rw [if_pos hIn]
      have hLess : keys.countP (fun n => decide (i + 1 ≤ n)) <
          keys.countP (fun n => decide (i ≤ n)) := by
        refine Count.countP_lt (fun n _ h => ?_) hIn (by simp) (by simp)
        rw [decide_eq_true_eq] at h ⊢
        omega
      have := hKeys i hIn
      obtain ⟨v, hRun, hLow, hHigh, hFree⟩ := ih (i := i + 1) (by omega) (by omega)
      exact ⟨v, hRun, by omega, hHigh, hFree⟩
    · rw [if_neg hIn]
      exact ⟨i, rfl, le_refl _, hi, hIn⟩

theorem int32_of_fits {x : Int} (hLow : 0 ≤ x) (hHigh : x ≤ maxInt32) : int32 x = x := by
  have h : x < 2 ^ 31 := by
    rw [maxInt32] at hHigh
    omega
  unfold int32
  rw [Int.bmod_eq_of_le] <;> omega

/-- The writes without a number, one after the other. -/
theorem newWrites_spec {keys : List Int} (bound : Int) (hKeys : ∀ n ∈ keys, n ≤ bound)
    (rest : List Ref) (hRefs : ∀ w ∈ rest, w ∈ refs txs) (valid : Valid txs cq)
    (hLow : 0 ≤ maxWrite) (hHigh : maxWrite ≤ bound)
    (hFits : bound + rest.countP (fun w => decide (cq.seq w.tx = 0)) < maxInt32) :
    ∃ ws, Numbered txs keys cq maxWrite ws (rest.foldl (newWrite keys) (cq, maxWrite)).1
        (rest.foldl (newWrite keys) (cq, maxWrite)).2 ∧
      (rest.foldl (newWrite keys) (cq, maxWrite)).2 ≤
        bound + rest.countP (fun w => decide (cq.seq w.tx = 0)) ∧
      ∀ i, i ∈ ws ↔ ∃ w ∈ rest, w.tx = i ∧ cq.seq i = 0 := by
  induction rest generalizing cq maxWrite bound with
  | nil => exact ⟨[], Numbered.refl valid, by simpa using hHigh, by simp⟩
  | cons w rest ih =>
    have hw := hRefs w mem_cons_self
    have hRest : ∀ x ∈ rest, x ∈ refs txs := fun x hx => hRefs x (mem_cons_of_mem _ hx)
    rw [countP_cons] at hFits ⊢
    rw [foldl_cons]
    by_cases hZero : cq.seq w.tx = 0
    · rw [if_pos (decide_eq_true hZero)] at hFits ⊢
      obtain ⟨v, hFree, hvLow, hvHigh, hvKeys⟩ := firstFree_spec hKeys (by omega)
        (keys.length + 1) (i := maxWrite + 1) (by omega)
        (Nat.lt_succ_of_le countP_le_length)
      have hStep : newWrite keys (cq, maxWrite) w = (cq.number w v, v) := by
        rw [newWrite, if_neg (by rw [valid.uniform w hw]; exact not_not_intro hZero),
          int32_of_fits (by omega) (by omega), hFree]
      rw [hStep]
      have hLess : rest.countP (fun x => decide ((cq.number w v).seq x.tx = 0)) ≤
          rest.countP (fun x => decide (cq.seq x.tx = 0)) := by
        refine countP_mono_left fun x _ h => ?_
        rw [decide_eq_true_eq, valid.seq_number hw] at h
        rw [decide_eq_true_eq]
        split at h
        · omega
        · exact h
      obtain ⟨ws, hNumbered, hTop, hWs⟩ := ih (bound + 1)
        (fun n hn => (hKeys n hn).trans (by omega)) hRest (valid.number hw v) (by omega) hvHigh
        (by omega)
      refine ⟨[w.tx] ++ ws, (Numbered.one valid hw (by omega) hvKeys).trans hNumbered, by omega,
        fun i => ?_⟩
      rw [mem_append, mem_singleton, hWs]
      constructor
      · rintro (rfl | ⟨x, hx, rfl, h⟩)
        · exact ⟨w, mem_cons_self, rfl, hZero⟩
        · rw [valid.seq_number hw] at h
          split at h
          · omega
          · exact ⟨x, mem_cons_of_mem _ hx, rfl, h⟩
      · rintro ⟨x, hx, rfl, h⟩
        by_cases hTx : x.tx = w.tx
        · exact Or.inl hTx
        · have hx' := (mem_cons.mp hx).resolve_left fun he => hTx (congrArg _ he)
          refine Or.inr ⟨x, hx', rfl, ?_⟩
          rw [valid.seq_number hw, if_neg hTx]
          exact h
    · rw [if_neg (by simpa using hZero)] at hFits ⊢
      have hStep : newWrite keys (cq, maxWrite) w = (cq, maxWrite) := by
        rw [newWrite, if_pos]
        rwa [valid.uniform w hw]
      rw [hStep]
      obtain ⟨ws, hNumbered, hTop, hWs⟩ := ih bound hKeys hRest valid hLow hHigh hFits
      refine ⟨ws, hNumbered, hTop, fun i => (hWs i).trans ⟨?_, ?_⟩⟩
      · rintro ⟨x, hx, h⟩
        exact ⟨x, mem_cons_of_mem _ hx, h⟩
      · rintro ⟨x, hx, rfl, h⟩
        rcases mem_cons.mp hx with rfl | hx
        · exact absurd h hZero
        · exact ⟨x, hx, rfl, h⟩

/-- The writes of one number. -/
theorem adjustWrites_spec (maxRead n : Int) (wws : List (Ref × Nat))
    (hRefs : ∀ ww ∈ wws, ww.1 ∈ refs txs) (valid : Valid txs cq) (maxWrite : Int)
    (hLow : 0 ≤ maxWrite) (hFits : maxWrite + wws.length ≤ maxInt32) :
    ∃ ws, Numbered txs [] cq maxWrite ws (wws.foldl (adjustWrite maxRead n) (cq, maxWrite)).1
        (wws.foldl (adjustWrite maxRead n) (cq, maxWrite)).2 ∧
      (wws.foldl (adjustWrite maxRead n) (cq, maxWrite)).2 ≤ maxWrite + wws.length ∧
      ∀ i, i ∈ ws ↔ ∃ ww ∈ wws, ww.1.tx = i ∧ ¬ (n > maxRead ∧ ww.2 = 0) := by
  induction wws generalizing cq maxWrite with
  | nil => exact ⟨[], Numbered.refl valid, by simp, by simp⟩
  | cons ww wws ih =>
    have hww := hRefs ww mem_cons_self
    have hRest : ∀ x ∈ wws, x.1 ∈ refs txs := fun x hx => hRefs x (mem_cons_of_mem _ hx)
    rw [length_cons] at hFits ⊢
    rw [foldl_cons]
    by_cases hKeep : n > maxRead ∧ ww.2 = 0
    · rw [adjustWrite, if_pos hKeep]
      obtain ⟨ws, hNumbered, hTop, hWs⟩ := ih hRest valid maxWrite hLow (by omega)
      refine ⟨ws, hNumbered, by omega, fun i => (hWs i).trans ⟨?_, ?_⟩⟩
      · rintro ⟨x, hx, h⟩
        exact ⟨x, mem_cons_of_mem _ hx, h⟩
      · rintro ⟨x, hx, hTx, h⟩
        rcases mem_cons.mp hx with rfl | hx
        · exact absurd hKeep h
        · exact ⟨x, hx, hTx, h⟩
    · rw [adjustWrite, if_neg hKeep]
      simp only []
      rw [int32_of_fits (by omega) (by omega)]
      obtain ⟨ws, hNumbered, hTop, hWs⟩ :=
        ih hRest (valid.number hww (maxWrite + 1)) (maxWrite + 1) (by omega) (by omega)
      refine ⟨[ww.1.tx] ++ ws,
        (Numbered.one valid hww (by omega) not_mem_nil).trans hNumbered, by omega, fun i => ?_⟩
      rw [mem_append, mem_singleton, hWs]
      constructor
      · rintro (rfl | ⟨x, hx, h⟩)
        · exact ⟨ww, mem_cons_self, rfl, hKeep⟩
        · exact ⟨x, mem_cons_of_mem _ hx, h⟩
      · rintro ⟨x, hx, hTx, h⟩
        rcases mem_cons.mp hx with rfl | hx
        · exact Or.inl hTx.symm
        · exact Or.inr ⟨x, hx, hTx, h⟩

theorem adjustKeys_spec (maxRead : Int) (bucket : Int → List Ref)
    (hRefs : ∀ n, ∀ w ∈ bucket n, w ∈ refs txs) (keys : List Int) (valid : Valid txs cq)
    (maxWrite : Int) (hLow : 0 ≤ maxWrite)
    (hFits : maxWrite + ((keys.map fun n => (bucket n).length).sum : Nat) ≤ maxInt32) :
    ∃ ws, Numbered txs [] cq maxWrite ws
        (keys.foldl (fun s n => (bucket n).zipIdx.foldl (adjustWrite maxRead n) s) (cq, maxWrite)).1
        (keys.foldl (fun s n => (bucket n).zipIdx.foldl (adjustWrite maxRead n) s)
          (cq, maxWrite)).2 ∧
      (keys.foldl (fun s n => (bucket n).zipIdx.foldl (adjustWrite maxRead n) s)
          (cq, maxWrite)).2 ≤ maxWrite + ((keys.map fun n => (bucket n).length).sum : Nat) ∧
      ∀ i, i ∈ ws ↔ ∃ n ∈ keys, ∃ ww ∈ (bucket n).zipIdx, ww.1.tx = i ∧
        ¬ (n > maxRead ∧ ww.2 = 0) := by
  induction keys generalizing cq maxWrite with
  | nil => exact ⟨[], Numbered.refl valid, by simp, by simp⟩
  | cons n keys ih =>
    rw [map_cons, sum_cons] at hFits ⊢
    rw [foldl_cons]
    obtain ⟨ws₁, hFirst, hTop₁, hWs₁⟩ := adjustWrites_spec maxRead n (bucket n).zipIdx
      (fun ww hww => hRefs n ww.1 (fst_mem_of_mem_zipIdx hww)) valid maxWrite hLow
      (by rw [length_zipIdx]; omega)
    rw [length_zipIdx] at hTop₁
    generalize (bucket n).zipIdx.foldl (adjustWrite maxRead n) (cq, maxWrite) = next
      at hFirst hTop₁ ⊢
    obtain ⟨cq₁, maxWrite₁⟩ := next
    have hGrow : maxWrite ≤ maxWrite₁ := hFirst.le
    have hTop : maxWrite₁ ≤ maxWrite + (bucket n).length := hTop₁
    have valid₁ : Valid txs cq₁ := hFirst.valid
    obtain ⟨ws₂, hRest, hTop₂, hWs₂⟩ := ih valid₁ maxWrite₁ (by omega) (by omega)
    refine ⟨ws₁ ++ ws₂, hFirst.trans hRest, by omega, fun i => ?_⟩
    rw [mem_append, hWs₁, hWs₂]
    simp only [mem_cons, exists_eq_or_imp]

/-- The transactions of `tmpWQueue`: at most one is not aborted, and it has the
number `maxRead'`, above all other reads. -/
structure SameSorted (txs : List (List RWNode)) (tmpWQueue : List Ref) (cq : QueueGraph)
    (maxRead maxWrite : Int) (cq' : QueueGraph) (maxRead' maxWrite' : Int) : Prop where
  valid : Valid txs cq'
  queues : cq'.Queues = cq.Queues
  aborted : ∀ n ∈ refs txs, cq.aborted n.tx = true → cq'.aborted n.tx = true
  other : ∀ i, (∀ w ∈ tmpWQueue, w.tx ≠ i) → cq'.seq i = cq.seq i
  values : ∀ i, cq'.seq i = cq.seq i ∨ cq'.seq i = maxWrite' ∧ maxWrite < maxWrite'
  le : maxRead ≤ maxRead' ∧ maxRead' ≤ maxWrite' ∧ maxWrite ≤ maxWrite' ∧
    maxWrite' ≤ maxWrite + tmpWQueue.length
  live : ∀ w ∈ tmpWQueue, cq'.aborted w.tx = false → cq'.seq w.tx = maxRead' ∧ maxRead < maxRead'
  unique : ∀ w ∈ tmpWQueue, ∀ x ∈ tmpWQueue, cq'.aborted w.tx = false → cq'.aborted x.tx = false →
    w.tx = x.tx

theorem abortAll_spec (captured : Captured txs) (ws : List Ref) (hRefs : ∀ w ∈ ws, w ∈ refs txs)
    (valid : Valid txs cq) :
    Valid txs (ws.foldl QueueGraph.abort cq) ∧ (ws.foldl QueueGraph.abort cq).Queues = cq.Queues ∧
      (ws.foldl QueueGraph.abort cq).nodes = cq.nodes ∧
      ∀ n ∈ refs txs, (ws.foldl QueueGraph.abort cq).aborted n.tx = true ↔
        cq.aborted n.tx = true ∨ ∃ w ∈ ws, w.tx = n.tx := by
  induction ws generalizing cq with
  | nil => exact ⟨valid, rfl, rfl, by simp⟩
  | cons w ws ih =>
    have hw := hRefs w mem_cons_self
    obtain ⟨valid', hQueues, hNodes, hAborted⟩ :=
      ih (fun x hx => hRefs x (mem_cons_of_mem _ hx)) (valid.abort captured hw)
    refine ⟨valid', hQueues, hNodes, fun n hn => ?_⟩
    rw [foldl_cons, hAborted n hn, valid.aborted_abort captured hw hn, Bool.or_eq_true,
      decide_eq_true_eq]
    simp only [mem_cons, exists_eq_or_imp]
    constructor
    · rintro ((h | h) | h)
      · exact Or.inr (Or.inl h.symm)
      · exact Or.inl h
      · exact Or.inr (Or.inr h)
    · rintro (h | h | h)
      · exact Or.inl (Or.inr h)
      · exact Or.inl (Or.inl h.symm)
      · exact Or.inr h

theorem sortSame_spec (captured : Captured txs) (valid : Valid txs cq) (maxRead : Int)
    (tmpWQueue : List Ref) (hRefs : ∀ w ∈ tmpWQueue, w ∈ refs txs) (hLow : 0 ≤ maxWrite)
    (hLe : maxRead ≤ maxWrite) (hFits : maxWrite + 1 ≤ maxInt32) :
    SameSorted txs tmpWQueue cq maxRead maxWrite (sortSame cq maxRead maxWrite tmpWQueue).1
      (sortSame cq maxRead maxWrite tmpWQueue).2.1
      (sortSame cq maxRead maxWrite tmpWQueue).2.2 := by
  cases tmpWQueue with
  | nil =>
    refine ⟨valid, rfl, fun _ _ h => h, fun _ _ => rfl, fun _ => Or.inl rfl, ?_, ?_, ?_⟩
    · simp only [sortSame, length_nil]
      omega
    · exact fun _ h => absurd h not_mem_nil
    · exact fun _ h => absurd h not_mem_nil
  | cons first others =>
    have hFirst := hRefs first mem_cons_self
    have hOthers : ∀ w ∈ others, w ∈ refs txs := fun w hw => hRefs w (mem_cons_of_mem _ hw)
    simp only [sortSame, int32_of_fits (show 0 ≤ maxWrite + 1 by omega) hFits]
    obtain ⟨valid', hQueues, hNodes, hAborted⟩ :=
      abortAll_spec captured others hOthers (valid.number hFirst (maxWrite + 1))
    have hSeq : ∀ i, (others.foldl QueueGraph.abort (cq.number first (maxWrite + 1))).seq i =
        if i = first.tx then maxWrite + 1 else cq.seq i := by
      intro i
      rw [← valid.seq_number hFirst]
      exact congrArg (fun nodes => (nodeAt nodes ⟨i, 0⟩).Sequence) hNodes
    have hLive : ∀ w ∈ first :: others,
        (others.foldl QueueGraph.abort (cq.number first (maxWrite + 1))).aborted w.tx = false →
        w.tx = first.tx := by
      intro w hw hNot
      by_contra hne
      have hw' := (mem_cons.mp hw).resolve_left fun h => hne (congrArg _ h)
      rw [(hAborted w (hRefs w hw)).mpr (Or.inr ⟨w, hw', rfl⟩)] at hNot
      cases hNot
    refine ⟨valid', hQueues, fun n hn h => ?_, fun i hi => ?_, fun i => ?_, ?_, fun w hw h => ?_,
      fun w hw x hx hwLive hxLive => ?_⟩
    · rw [hAborted n hn, valid.aborted_number hFirst]
      exact Or.inl h
    · rw [hSeq, if_neg fun h => hi first mem_cons_self h.symm]
    · rw [hSeq]
      split
      · exact Or.inr ⟨rfl, by omega⟩
      · exact Or.inl rfl
    · rw [length_cons]
      omega
    · rw [hSeq, if_pos (hLive w hw h)]
      exact ⟨rfl, by omega⟩
    · exact (hLive w hw hwLive).trans (hLive x hx hxLive).symm

end Numbers

end QueueGraph

end Nezha
