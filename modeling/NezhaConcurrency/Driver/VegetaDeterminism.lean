import NezhaConcurrency.Driver.VegetaOverlay

/-! Vegeta is deterministic up to the order of conflicting transactions. The way the
maps are visited, the chains sorted and the workers scheduled can change the outcome
of a block in one way only, by changing which of two conflicting transactions comes
first. -/
namespace Nezha

open List

namespace VegetaBlock

variable {Value : Type}

/-- Two orders that agree on every two conflicting transactions give the same
predecessors. -/
theorem mem_dag_congr {block : VegetaBlock} {ordered ordered' : List String}
    (perm : ordered.Perm ordered')
    (hSame : ∀ u ∈ ordered, ∀ v ∈ ordered, block.hasConflict u v = true →
      (ordered.idxOf u < ordered.idxOf v ↔ ordered'.idxOf u < ordered'.idxOf v))
    (t p : String) : p ∈ block.dag ordered t ↔ p ∈ block.dag ordered' t := by
  unfold dag
  rw [Batches.mem_preds, Batches.mem_preds, ← perm.mem_iff]
  refine and_congr_right fun hp => and_congr_left fun hConflict => ?_
  by_cases ht : t ∈ ordered
  · exact hSame p hp t ht ((hasConflict_symm p t).trans hConflict)
  · rw [idxOf_eq_length ht, idxOf_eq_length fun h => ht (perm.mem_iff.mpr h)]
    exact iff_of_true (idxOf_lt_length_of_mem hp) (idxOf_lt_length_of_mem (perm.mem_iff.mp hp))

/-- Each two conflicting transactions have the same order in both. -/
def SameOrder (block : VegetaBlock) (ordered ordered' : List String) : Prop :=
  ∀ u ∈ block.blockIDs, ∀ v ∈ block.blockIDs, block.hasConflict u v = true →
    (ordered.idxOf u < ordered.idxOf v ↔ ordered'.idxOf u < ordered'.idxOf v)

theorem overlayMode_congr {block : VegetaBlock} (workers : VegetaWorkers Value)
    {order order' : ChainOrder block}
    (hSame : block.SameOrder (block.orderedTxs order) (block.orderedTxs order'))
    {finish finish' : List String → List String} (hFinish : ∀ batch, (finish batch).Perm batch)
    (hFinish' : ∀ batch, (finish' batch).Perm batch) (start : String → Option Value)
    (rounds : Nat) :
    block.overlayMode workers finish (block.orderedTxs order) start rounds =
      block.overlayMode workers finish' (block.orderedTxs order') start rounds := by
  have hPerm := orderedTxs_perm order
  have hPerm' := hPerm.trans (orderedTxs_perm order').symm
  have hDag := mem_dag_congr hPerm' fun u hu v hv =>
    hSame u (hPerm.mem_iff.mp hu) v (hPerm.mem_iff.mp hv)
  refine Batches.run_congr hDag (fun _ _ => sortStrings_congr) (fun state batch => ?_) rounds hPerm'
    rfl rfl
  rw [commitBatch_eq finish hFinish, commitBatch_eq finish' hFinish']

/-- Two transactions alone, on a witness that has one value everywhere. -/
def probeWorkers (u v : String) (txs : TxProgram Value × TxProgram Value) (value : Value) :
    VegetaWorkers Value where
  witness := fun _ => value
  txs := [txs.1, txs.2]
  txIDToIdx := fun txID => if txID = u then some 0 else if txID = v then some 1 else none
  acquires := fun _ => true

/-- Write one value. -/
def probeWrite (key : String) (value : Value) : TxProgram Value :=
  .done ([key], fun _ => some value)

/-- Fail unless the key has this value. -/
def probeRead [DecidableEq Value] (key : String) (value : Value) : TxProgram Value :=
  .read key fun found => if found = value then .done ([], fun _ => none) else .fail

section Probe

variable {block : VegetaBlock} {u v key : String} {value other : Value}
  {txs : TxProgram Value × TxProgram Value}

theorem validate_probe_other {txID : String} (hu : txID ≠ u) (hv : txID ≠ v)
    (overlay : String → Option Value) :
    block.validate (probeWorkers u v txs value) overlay txID = none := by
  simp [validate, probeWorkers, hu, hv]

theorem validate_probe_first {tx : TxProgram Value} (hKey : key ∈ block.blockWS u)
    (overlay : String → Option Value) :
    block.validate (probeWorkers u v (probeWrite key other, tx) value) overlay u =
      some ⟨[], [key], [(key, other)]⟩ := by
  simp [validate, probeWorkers, ReplayBlock.ReExecute, probeWrite, Overlay.Program.run, matched,
    hKey]

theorem validate_probe_second {tx : TxProgram Value} (hne : v ≠ u) (hKey : key ∈ block.blockWS v)
    (overlay : String → Option Value) :
    block.validate (probeWorkers u v (tx, probeWrite key other) value) overlay v =
      some ⟨[], [key], [(key, other)]⟩ := by
  simp [validate, probeWorkers, ReplayBlock.ReExecute, probeWrite, Overlay.Program.run, matched,
    hKey, hne]

theorem validate_probe_read [DecidableEq Value] {tx : TxProgram Value} (hne : v ≠ u)
    (hKey : key ∈ block.blockRS v) (overlay : String → Option Value) :
    (block.validate (probeWorkers u v (tx, probeRead key value) value) overlay v).isSome =
      decide ((overlay key).getD value = value) := by
  by_cases h : (overlay key).getD value = value
  · simp [validate, probeWorkers, ReplayBlock.ReExecute, probeRead, Overlay.Program.run, matched,
      Overlay.overlaid, hKey, hne, h]
  · simp [validate, probeWorkers, ReplayBlock.ReExecute, probeRead, Overlay.Program.run,
      Overlay.overlaid, hne, h]

variable {order : ChainOrder block} {finish : List String → List String}
  {results : String → Option (ReExecuteResult Value)} {batches : List (List String)}
  {state : VegetaState Value}

theorem Validated.probe_only {start : String → Option Value}
    (validated : Validated block (probeWorkers u v txs value) start results batches state)
    {txID : String} (hm : txID ∈ batches.flatten)
    (hKey : key ∈ Overlay.keys (written results txID)) : txID = u ∨ txID = v := by
  by_contra hNot
  rw [not_or] at hNot
  obtain ⟨result, hResult, _⟩ := mem_written hKey
  obtain ⟨overlay, hValidate⟩ := validated.exists_validate hm
  rw [hValidate, validate_probe_other hNot.1 hNot.2] at hResult
  cases hResult

/-- Of two writers, the later one in the order decides the value. -/
theorem probe_write (hu : u ∈ block.blockIDs) (hv : v ∈ block.blockIDs) (hne : u ≠ v)
    (hKey : key ∈ block.blockWS u) (hKey' : key ∈ block.blockWS v)
    (hFinish : ∀ batch, (finish batch).Perm batch) :
    (block.overlayMode (probeWorkers u v (probeWrite key value, probeWrite key other) value) finish
        (block.orderedTxs order) (fun _ => none) block.blockIDs.length).committedDelta key =
      some (if (block.orderedTxs order).idxOf u < (block.orderedTxs order).idxOf v then other
        else value) := by
  obtain ⟨results, batches, validated, layered, perm⟩ := overlayMode_spec block
    (probeWorkers u v (probeWrite key value, probeWrite key other) value) order hFinish
    (fun _ => none) le_rfl
  have nodup := nodup_orderedTxs order
  have hIn : ∀ {txID}, txID ∈ block.blockIDs → txID ∈ batches.flatten := fun h =>
    perm.mem_iff.mpr ((orderedTxs_perm order).mem_iff.mpr h)
  have hFirst : written results u = [(key, value)] := by
    obtain ⟨overlay, hValidate⟩ := validated.exists_validate (hIn hu)
    rw [validate_probe_first hKey] at hValidate
    exact written_eq hValidate
  have hSecond : written results v = [(key, other)] := by
    obtain ⟨overlay, hValidate⟩ := validated.exists_validate (hIn hv)
    rw [validate_probe_second hne.symm hKey'] at hValidate
    exact written_eq hValidate
  have hReorder : ∀ first second : String, (first = u ∧ second = v ∨ first = v ∧ second = u) →
      (block.orderedTxs order).idxOf first < (block.orderedTxs order).idxOf second →
      Overlay.mergeAll (fun _ => none) (written results) batches.flatten key =
        Overlay.mergeAll (fun _ => none) (written results) [first, second] key := by
    intro first second hPair hLess
    refine Overlay.mergeAll_reorder _ _ key (block.orderedTxs order).idxOf (fun txID hWrite => ?_)
      (validated.pairwise layered perm nodup key) ?_
    · constructor
      · intro hm
        rcases validated.probe_only hm hWrite with rfl | rfl
        · rcases hPair with ⟨rfl, rfl⟩ | ⟨rfl, rfl⟩ <;> simp
        · rcases hPair with ⟨rfl, rfl⟩ | ⟨rfl, rfl⟩ <;> simp
      · intro hm
        have hEither : txID = u ∨ txID = v := by
          rcases hPair with ⟨rfl, rfl⟩ | ⟨rfl, rfl⟩
          · simpa using hm
          · simpa [or_comm] using hm
        rcases hEither with rfl | rfl
        · exact hIn hu
        · exact hIn hv
    · simpa using fun _ _ => hLess
  rw [validated.delta]
  split
  · next hLess =>
      rw [hReorder u v (Or.inl ⟨rfl, rfl⟩) hLess, Overlay.mergeAll_cons, Overlay.mergeAll_cons,
        hFirst, hSecond]
      simp [Overlay.merge]
  · next hNot =>
      have hIdx := idxOf_orderedTxs_ne order hu hne
      rw [hReorder v u (Or.inr ⟨rfl, rfl⟩) (by omega), Overlay.mergeAll_cons,
        Overlay.mergeAll_cons, hFirst, hSecond]
      simp [Overlay.merge]

/-- A reader that fails on the written value is committed only before the writer. -/
theorem probe_read [DecidableEq Value] (hu : u ∈ block.blockIDs) (hv : v ∈ block.blockIDs)
    (hne : u ≠ v) (hValue : other ≠ value) (hKey : key ∈ block.blockWS u)
    (hKey' : key ∈ block.blockRS v) (hFinish : ∀ batch, (finish batch).Perm batch) :
    v ∈ (block.overlayMode (probeWorkers u v (probeWrite key other, probeRead key value) value)
        finish (block.orderedTxs order) (fun _ => none) block.blockIDs.length).committed ↔
      ¬ (block.orderedTxs order).idxOf u < (block.orderedTxs order).idxOf v := by
  obtain ⟨results, batches, validated, layered, perm⟩ := overlayMode_spec block
    (probeWorkers u v (probeWrite key other, probeRead key value) value) order hFinish
    (fun _ => none) le_rfl
  have nodup := nodup_orderedTxs order
  have hIn : ∀ {txID}, txID ∈ block.blockIDs → txID ∈ batches.flatten := fun h =>
    perm.mem_iff.mpr ((orderedTxs_perm order).mem_iff.mpr h)
  obtain ⟨before, after, hOrdered⟩ := append_of_mem (perm.mem_iff.mp (hIn hv))
  have hBefore : u ∈ before ↔
      (block.orderedTxs order).idxOf u < (block.orderedTxs order).idxOf v := by
    rw [hOrdered] at nodup
    rw [mem_before_iff nodup, ← hOrdered, and_iff_right (perm.mem_iff.mp (hIn hu))]
  have hFirst : written results u = [(key, other)] := by
    obtain ⟨overlay, hValidate⟩ := validated.exists_validate (hIn hu)
    rw [validate_probe_first hKey] at hValidate
    exact written_eq hValidate
  have hPairwise := pairwise_idxOf nodup
  rw [hOrdered] at hPairwise
  have hRead : Overlay.mergeAll (fun _ => none) (written results) before key =
      if u ∈ before then some other else none := by
    have hOnly : ∀ txID ∈ before, key ∈ Overlay.keys (written results txID) → txID = u := by
      intro txID hm hWrite
      have hMember : txID ∈ block.orderedTxs order := hOrdered ▸ mem_append_left _ hm
      refine (validated.probe_only (perm.mem_iff.mpr hMember) hWrite).resolve_right ?_
      rintro rfl
      rw [hOrdered] at nodup
      exact (nodup_append'.mp nodup).2.2 hm mem_cons_self
    split
    · next hm =>
        have hReorder : Overlay.mergeAll (fun _ => none) (written results) before key =
            Overlay.mergeAll (fun _ => none) (written results) [u] key := by
          refine Overlay.mergeAll_reorder _ _ key
            (before ++ v :: after).idxOf (fun txID hWrite => ?_) ?_ (pairwise_singleton _ _)
          · rw [mem_singleton]
            exact ⟨fun h => hOnly txID h hWrite, fun h => h ▸ hm⟩
          · exact (pairwise_append.mp hPairwise).1.imp fun h _ _ => h
        rw [hReorder, Overlay.mergeAll_cons, hFirst]
        simp [Overlay.merge]
    · next hm =>
        exact Overlay.mergeAll_of_silent _ _ before fun txID h hWrite =>
          hm (hOnly txID h hWrite ▸ h)
  rw [validated.committed, mem_filter, and_iff_right (hIn hv),
    validated.result_ordered layered perm nodup hOrdered, validate_probe_read hne.symm hKey', hRead,
    decide_eq_true_eq, ← hBefore]
  split
  · next hm => simpa [hm] using hValue
  · next hm => simp [hm]

end Probe

/-- The outcome of a block is the same for all transactions exactly if the two orders
agree on every two conflicting transactions. -/
theorem vegeta_deterministic_iff [DecidableEq Value] [Nontrivial Value] (block : VegetaBlock)
    (order order' : ChainOrder block) :
    (∀ (workers : VegetaWorkers Value) (finish finish' : List String → List String),
      (∀ batch, (finish batch).Perm batch) → (∀ batch, (finish' batch).Perm batch) →
      ∀ (start : String → Option Value) (rounds : Nat), block.blockIDs.length ≤ rounds →
        block.overlayMode workers finish (block.orderedTxs order) start rounds =
          block.overlayMode workers finish' (block.orderedTxs order') start rounds) ↔
      block.SameOrder (block.orderedTxs order) (block.orderedTxs order') := by
  constructor
  · intro h u hu v hv hConflict
    obtain ⟨value, other, hValue⟩ := exists_pair_ne Value
    have hRefl : ∀ batch : List String, (id batch).Perm batch := fun _ => List.Perm.refl _
    have hEqual := fun workers => h workers id id hRefl hRefl (fun _ => none) _ le_rfl
    by_cases hne : u = v
    · subst hne
      exact iff_of_false (lt_irrefl _) (lt_irrefl _)
    · obtain ⟨key, hKey | hKey | hKey⟩ := hasConflict_iff.mp hConflict
      · have hDelta := congrArg (fun state => state.committedDelta key)
          (hEqual (probeWorkers u v (probeWrite key value, probeWrite key other) value))
        rw [probe_write hu hv hne hKey.1 hKey.2 hRefl, probe_write hu hv hne hKey.1 hKey.2 hRefl,
          Option.some_inj] at hDelta
        split at hDelta <;> split at hDelta
        · next hLess hLess' => exact iff_of_true hLess hLess'
        · exact absurd hDelta hValue.symm
        · exact absurd hDelta hValue
        · next hNot hNot' => exact iff_of_false hNot hNot'
      · have hCommitted := congrArg (fun state => u ∈ state.committed)
          (hEqual (probeWorkers v u (probeWrite key other, probeRead key value) value))
        rw [eq_iff_iff, probe_read hv hu (Ne.symm hne) hValue.symm hKey.2 hKey.1 hRefl,
          probe_read hv hu (Ne.symm hne) hValue.symm hKey.2 hKey.1 hRefl] at hCommitted
        have hFirst := idxOf_orderedTxs_ne order hu hne
        have hSecond := idxOf_orderedTxs_ne order' hu hne
        omega
      · have hCommitted := congrArg (fun state => v ∈ state.committed)
          (hEqual (probeWorkers u v (probeWrite key other, probeRead key value) value))
        rw [eq_iff_iff, probe_read hu hv hne hValue.symm hKey.1 hKey.2 hRefl,
          probe_read hu hv hne hValue.symm hKey.1 hKey.2 hRefl] at hCommitted
        exact not_iff_not.mp hCommitted
  · intro hSame workers finish finish' hFinish hFinish' start rounds _
    exact overlayMode_congr workers hSame hFinish hFinish' start rounds

theorem vegeta_deterministic_gauge :
    gaugeBlock.overlayMode gaugeWorkers id (gaugeBlock.orderedTxs gaugeReadFirst)
        (fun _ => none) 2 =
      gaugeBlock.overlayMode gaugeWorkers List.reverse (gaugeBlock.orderedTxs gaugeReadFirst)
        (fun _ => none) 2 :=
  (vegeta_deterministic_iff gaugeBlock gaugeReadFirst gaugeReadFirst).mpr
    (fun _ _ _ _ _ => Iff.rfl) gaugeWorkers id List.reverse (fun _ => List.Perm.refl _)
    (fun batch => reverse_perm batch) (fun _ => none) 2 (by decide)

/-- When the read sets are visited in the other order, `"b"` comes before the increment
and is committed instead of aborted. -/
theorem vegeta_order_decides_outcome :
    (gaugeBlock.overlayMode gaugeWorkers id (gaugeBlock.orderedTxs gaugeIncrementFirst)
        (fun _ => none) 2).committed = ["a"] ∧
      (gaugeBlock.overlayMode gaugeWorkers id (gaugeBlock.orderedTxs gaugeIncrementFirst)
        (fun _ => none) 2).aborted = ["b"] ∧
      (gaugeBlock.overlayMode gaugeWorkers id (gaugeBlock.orderedTxs gaugeIncrementFirst)
        (fun _ => none) 2).committedDelta "z" = none ∧
      (gaugeBlock.overlayMode gaugeWorkers id (gaugeBlock.orderedTxs gaugeReadFirst)
        (fun _ => none) 2).committed = ["b", "a"] ∧
      (gaugeBlock.overlayMode gaugeWorkers id (gaugeBlock.orderedTxs gaugeReadFirst)
        (fun _ => none) 2).aborted = [] ∧
      (gaugeBlock.overlayMode gaugeWorkers id (gaugeBlock.orderedTxs gaugeReadFirst)
        (fun _ => none) 2).committedDelta "z" = some 1 := by
  decide +kernel

end VegetaBlock

end Nezha
