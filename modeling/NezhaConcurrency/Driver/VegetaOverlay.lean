import NezhaConcurrency.Driver.ReplaySerializability
import NezhaConcurrency.Driver.VegetaOrder

/-! Vegeta in overlay mode. The transactions of a batch all run on one snapshot of
`committedDelta`, in whatever order the workers finish, and those that keep within
their speculative sets are merged afterwards. -/
namespace Nezha

open List

variable {Value : Type}

/-- The overlay, and the transactions that were committed and aborted so far. -/
structure VegetaState (Value : Type) where
  committedDelta : String → Option Value
  committed : List String
  aborted : List String

/-- What the workers share and never change; `acquires` tells for which
transactions the pool has a worker. -/
structure VegetaWorkers (Value : Type) extends ReplayBlock Value where
  acquires : String → Bool

namespace VegetaBlock

variable {block : VegetaBlock} {workers : VegetaWorkers Value}

/-- The real keys are among the speculative ones. -/
def matched (block : VegetaBlock) (txID : String) (result : ReExecuteResult Value) : Bool :=
  result.RealReadKeys.all (· ∈ block.blockRS txID) &&
    result.RealWriteKeys.all (· ∈ block.blockWS txID)

/-- The worker of one transaction: the result to commit, unless it is aborted. -/
def validate (block : VegetaBlock) (workers : VegetaWorkers Value)
    (overlaySnapshot : String → Option Value) (txID : String) : Option (ReExecuteResult Value) :=
  match workers.txIDToIdx txID with
  | none => none
  | some txIdx =>
    if workers.acquires txID then
      match workers.ReExecute txIdx overlaySnapshot with
      | none => none
      | some result => if block.matched txID result then some result else none
    else none

/-- The results that the workers record, in the order in which they finish. -/
def batchResults (block : VegetaBlock) (workers : VegetaWorkers Value)
    (overlaySnapshot : String → Option Value) (finished : List String) :
    String → Option (ReExecuteResult Value) :=
  finished.foldl (fun results txID =>
    Function.update results txID (block.validate workers overlaySnapshot txID)) fun _ => none

def mergeResult (results : String → Option (ReExecuteResult Value)) (state : VegetaState Value)
    (txID : String) : VegetaState Value :=
  match results txID with
  | some result =>
    { state with
      committedDelta := Overlay.merge state.committedDelta result.WriteValues
      committed := state.committed ++ [txID] }
  | none => { state with aborted := state.aborted ++ [txID] }

/-- One batch, whose workers finish in the order of `finish`. -/
def commitBatch (block : VegetaBlock) (workers : VegetaWorkers Value)
    (finish : List String → List String) (state : VegetaState Value) (batch : List String) :
    VegetaState Value :=
  batch.foldl (mergeResult (block.batchResults workers state.committedDelta (finish batch))) state

/-- The batch loop of overlay mode. -/
def overlayMode (block : VegetaBlock) (workers : VegetaWorkers Value)
    (finish : List String → List String) (orderedTxs : List String)
    (committedDelta : String → Option Value) (rounds : Nat) : VegetaState Value :=
  (block.batchLoop orderedTxs (block.commitBatch workers finish) rounds
    ⟨committedDelta, [], []⟩).state

variable {txID : String}

/-- A committed result comes from a re-execution that kept within the speculative sets. -/
theorem validate_eq_some {overlaySnapshot : String → Option Value} {result : ReExecuteResult Value}
    (h : block.validate workers overlaySnapshot txID = some result) :
    (∃ txIdx, workers.txIDToIdx txID = some txIdx ∧
      workers.ReExecute txIdx overlaySnapshot = some result) ∧
      result.RealReadKeys ⊆ block.blockRS txID ∧ result.RealWriteKeys ⊆ block.blockWS txID := by
  unfold validate at h
  split at h
  · cases h
  · next txIdx hIdx =>
      split at h
      · split at h
        · cases h
        · next result' hRun =>
            split at h
            · next hMatched =>
                cases h
                rw [matched, Bool.and_eq_true, all_eq_true, all_eq_true] at hMatched
                exact ⟨⟨txIdx, hIdx, hRun⟩, fun key hm => of_decide_eq_true (hMatched.1 key hm),
                  fun key hm => of_decide_eq_true (hMatched.2 key hm)⟩
            · cases h
      · cases h

theorem validate_congr {overlay overlay' : String → Option Value}
    (same : ∀ key ∈ block.blockRS txID, overlay key = overlay' key) :
    block.validate workers overlay txID = block.validate workers overlay' txID := by
  have hOne : ∀ {first second : String → Option Value} {result : ReExecuteResult Value},
      (∀ key ∈ block.blockRS txID, first key = second key) →
      block.validate workers first txID = some result →
      block.validate workers second txID = some result := by
    intro first second result hSame h
    obtain ⟨⟨txIdx, hIdx, hRun⟩, hReads, _⟩ := validate_eq_some h
    have hRun' := ReplayBlock.ReExecute_congr hRun fun key hKey => hSame key (hReads hKey)
    simp only [validate, hIdx, hRun] at h
    simp only [validate, hIdx, hRun', h]
  refine Option.ext fun result => ⟨hOne same, hOne fun key hKey => (same key hKey).symm⟩

theorem batchResults_of_mem {overlaySnapshot : String → Option Value} {finished : List String}
    (h : txID ∈ finished) :
    block.batchResults workers overlaySnapshot finished txID =
      block.validate workers overlaySnapshot txID := by
  unfold batchResults
  induction finished using List.reverseRecOn with
  | nil => cases h
  | append_singleton earlier last ih =>
    rw [foldl_append]
    by_cases hLast : txID = last
    · rw [hLast]
      exact Function.update_self ..
    · have hEarlier : txID ∈ earlier := by simpa [hLast] using h
      exact (Function.update_of_ne hLast ..).trans (ih hEarlier)

/-- The values that a result publishes. -/
def written (results : String → Option (ReExecuteResult Value)) (txID : String) :
    List (String × Value) :=
  ((results txID).map ReExecuteResult.WriteValues).getD []

theorem written_eq {results : String → Option (ReExecuteResult Value)}
    {result : ReExecuteResult Value} (h : results txID = some result) :
    written results txID = result.WriteValues := by
  rw [written, h]
  rfl

theorem mem_written {results : String → Option (ReExecuteResult Value)} {key : String}
    (h : key ∈ Overlay.keys (written results txID)) :
    ∃ result, results txID = some result ∧ key ∈ Overlay.keys result.WriteValues := by
  cases hResult : results txID with
  | none =>
    rw [written, hResult] at h
    cases h
  | some result => exact ⟨result, rfl, written_eq hResult ▸ h⟩

theorem foldl_mergeResult (results : String → Option (ReExecuteResult Value))
    (state : VegetaState Value) (batch : List String) :
    batch.foldl (mergeResult results) state =
      { committedDelta := Overlay.mergeAll state.committedDelta (written results) batch
        committed := state.committed ++ batch.filter fun txID => (results txID).isSome
        aborted := state.aborted ++ batch.filter fun txID => (results txID).isNone } := by
  induction batch generalizing state with
  | nil => simp
  | cons txID rest ih =>
    rw [foldl_cons, ih, Overlay.mergeAll_cons]
    cases hResult : results txID with
    | none => simp [mergeResult, written, hResult]
    | some result => simp [mergeResult, written, hResult]

/-- The order in which the workers finish does not matter. -/
theorem commitBatch_eq (finish : List String → List String)
    (hFinish : ∀ batch, (finish batch).Perm batch) (state : VegetaState Value)
    (batch : List String) :
    block.commitBatch workers finish state batch =
      batch.foldl (mergeResult (block.validate workers state.committedDelta)) state := by
  unfold commitBatch
  refine foldl_ext _ _ _ fun current txID hm => ?_
  rw [mergeResult, mergeResult, batchResults_of_mem ((hFinish batch).mem_iff.mpr hm)]

/-- What the results of the batches are: each transaction was validated on what the
batches before its own had published. -/
structure Validated (block : VegetaBlock) (workers : VegetaWorkers Value)
    (start : String → Option Value) (results : String → Option (ReExecuteResult Value))
    (batches : List (List String)) (state : VegetaState Value) : Prop where
  delta : state.committedDelta = Overlay.mergeAll start (written results) batches.flatten
  committed : state.committed = batches.flatten.filter fun txID => (results txID).isSome
  aborted : state.aborted = batches.flatten.filter fun txID => (results txID).isNone
  result : ∀ before batch after, batches = before ++ batch :: after → ∀ txID ∈ batch, results txID =
      block.validate workers (Overlay.mergeAll start (written results) before.flatten) txID

theorem mergeAll_written_congr {start : String → Option Value}
    {results results' : String → Option (ReExecuteResult Value)} {order : List String}
    (h : ∀ txID ∈ order, results txID = results' txID) :
    Overlay.mergeAll start (written results) order =
      Overlay.mergeAll start (written results') order := by
  funext key
  refine Overlay.mergeAll_congr order rfl fun txID hm _ => ?_
  rw [written, written, h txID hm]

theorem Validated.commitBatch {start : String → Option Value}
    {results : String → Option (ReExecuteResult Value)} {batches : List (List String)}
    {state : VegetaState Value} {finish : List String → List String}
    (hFinish : ∀ batch, (finish batch).Perm batch)
    (validated : Validated block workers start results batches state) {last : List String}
    (apart : batches.flatten.Disjoint last) :
    ∃ results', Validated block workers start results' (batches ++ [last])
      (block.commitBatch workers finish state last) := by
  obtain ⟨results', hResults'⟩ : ∃ results' : String → Option (ReExecuteResult Value),
      results' = fun txID => if txID ∈ last then
        block.validate workers state.committedDelta txID else results txID := ⟨_, rfl⟩
  have hLast : ∀ txID ∈ last, results' txID = block.validate workers state.committedDelta txID := by
    intro txID hm
    rw [hResults']
    exact if_pos hm
  have hOld : ∀ txID ∈ batches.flatten, results' txID = results txID := by
    intro txID hm
    rw [hResults']
    exact if_neg (apart hm)
  have hFlatten : (batches ++ [last]).flatten = batches.flatten ++ last := by
    rw [flatten_append, flatten_singleton]
  have hDelta : state.committedDelta = Overlay.mergeAll start (written results') batches.flatten :=
    validated.delta.trans (mergeAll_written_congr fun txID hm => (hOld txID hm).symm)
  have hKept : ∀ p : Option (ReExecuteResult Value) → Bool,
      (batches.flatten.filter fun txID => p (results txID)) =
        batches.flatten.filter fun txID => p (results' txID) := by
    intro p
    refine filter_congr fun txID hm => ?_
    rw [hOld txID hm]
  have hFold : block.commitBatch workers finish state last =
      last.foldl (mergeResult results') state := by
    rw [commitBatch_eq finish hFinish]
    refine foldl_ext _ _ _ fun current txID hm => ?_
    rw [mergeResult, mergeResult, hLast txID hm]
  refine ⟨results', ?_⟩
  rw [hFold, foldl_mergeResult]
  refine ⟨?_, ?_, ?_, Walk.forall_split_append ?_ ?_⟩
  · rw [hFlatten, Overlay.mergeAll_append, ← hDelta]
  · rw [hFlatten, filter_append, ← hKept, ← validated.committed]
  · rw [hFlatten, filter_append, ← hKept, ← validated.aborted]
  · rintro before batch after rfl txID hm
    rw [hOld txID (by simp [hm]), validated.result before batch after rfl txID hm,
      mergeAll_written_congr fun other ho => hOld other (by simp [flatten_append, ho])]
  · intro txID hm
    rw [hLast txID hm, hDelta]

theorem validated_foldl (block : VegetaBlock) (workers : VegetaWorkers Value)
    (start : String → Option Value) {finish : List String → List String}
    (hFinish : ∀ batch, (finish batch).Perm batch) (batches : List (List String))
    (nodup : batches.flatten.Nodup) :
    ∃ results, Validated block workers start results batches
      (batches.foldl (block.commitBatch workers finish) ⟨start, [], []⟩) := by
  induction batches using List.reverseRecOn with
  | nil =>
    refine ⟨fun _ => none, rfl, rfl, rfl, fun before batch after h => ?_⟩
    exact absurd h (by simp)
  | append_singleton batches last ih =>
    rw [flatten_append, flatten_singleton] at nodup
    obtain ⟨hFirst, _, apart⟩ := nodup_append'.mp nodup
    obtain ⟨results, validated⟩ := ih hFirst
    rw [foldl_append]
    exact validated.commitBatch hFinish apart

section Serial

variable {start : String → Option Value} {results : String → Option (ReExecuteResult Value)}
  {batches : List (List String)} {state : VegetaState Value} {ordered : List String}

variable {txID : String}

theorem Validated.exists_validate (validated : Validated block workers start results batches state)
    (hm : txID ∈ batches.flatten) :
    ∃ overlay, results txID = block.validate workers overlay txID := by
  obtain ⟨batch, hBatch, hTx⟩ := mem_flatten.mp hm
  obtain ⟨before, after, hSplit⟩ := append_of_mem hBatch
  exact ⟨_, validated.result before batch after hSplit txID hTx⟩

theorem Validated.mem_blockWS (validated : Validated block workers start results batches state)
    {key : String} (hm : txID ∈ batches.flatten) (hKey : key ∈ Overlay.keys (written results txID))
    : key ∈ block.blockWS txID := by
  obtain ⟨result, hResult, hWrite⟩ := mem_written hKey
  obtain ⟨overlay, hValidate⟩ := validated.exists_validate hm
  obtain ⟨⟨txIdx, _, hRun⟩, _, hWrites⟩ := validate_eq_some (hValidate.symm.trans hResult)
  exact hWrites (ReplayBlock.ReExecute_writeKeys hRun hWrite)

/-- Two batch members that publish one key come in the given order. -/
theorem Validated.pairwise (validated : Validated block workers start results batches state)
    (layered : Batches.Layered (block.dag ordered) batches) (perm : batches.flatten.Perm ordered)
    (nodup : ordered.Nodup) (key : String) :
    batches.flatten.Pairwise fun u v => key ∈ Overlay.keys (written results u) →
      key ∈ Overlay.keys (written results v) → ordered.idxOf u < ordered.idxOf v := by
  have hFollows := Batches.Layered.follows layered hasConflict_symm (perm.nodup_iff.mpr nodup)
    fun txID hm => perm.mem_iff.mp hm
  refine hFollows.imp_of_mem fun {u v} hu hv h hKey hKey' => h (hasConflict_iff.mpr ⟨key, ?_⟩)
  exact Or.inl ⟨validated.mem_blockWS hu hKey, validated.mem_blockWS hv hKey'⟩

theorem pairwise_idxOf (nodup : ordered.Nodup) :
    ordered.Pairwise fun u v => ordered.idxOf u < ordered.idxOf v := by
  rw [pairwise_iff_getElem]
  intro i j hi hj hLess
  rw [nodup.idxOf_getElem i hi, nodup.idxOf_getElem j hj]
  exact hLess

theorem mem_before_iff {before after : List String} {other : String}
    (nodup : (before ++ txID :: after).Nodup) :
    other ∈ before ↔ other ∈ before ++ txID :: after ∧
      (before ++ txID :: after).idxOf other < (before ++ txID :: after).idxOf txID := by
  have hIdx : (before ++ txID :: after).idxOf txID = before.length := by
    have hNot : txID ∉ before := fun h =>
      (nodup_append'.mp nodup).2.2 h mem_cons_self
    rw [idxOf_append_of_notMem hNot, idxOf_cons_self, Nat.add_zero]
  rw [hIdx]
  constructor
  · intro h
    rw [idxOf_append_of_mem h]
    exact ⟨mem_append_left _ h, idxOf_lt_length_of_mem h⟩
  · rintro ⟨hIn, hLess⟩
    have hTake := (mem_take_iff_idxOf_lt hIn).mpr hLess
    rwa [take_left] at hTake

/-- A key of the speculative read set has the value that the transactions before
this one in the order gave it, although the batch saw a different set of them. -/
theorem Validated.reads (validated : Validated block workers start results batches state)
    (layered : Batches.Layered (block.dag ordered) batches) (perm : batches.flatten.Perm ordered)
    (nodup : ordered.Nodup) {before after : List String} {key : String}
    (hOrdered : ordered = before ++ txID :: after) {early later : List (List String)}
    {batch : List String} (hBatches : batches = early ++ batch :: later) (hm : txID ∈ batch)
    (hKey : key ∈ block.blockRS txID) :
    Overlay.mergeAll start (written results) early.flatten key =
      Overlay.mergeAll start (written results) before key := by
  have hFlatten : batches.flatten = early.flatten ++ (batch ++ later.flatten) := by
    rw [hBatches, flatten_append, flatten_cons]
  have hConflict : ∀ {u : String}, u ∈ batches.flatten →
      key ∈ Overlay.keys (written results u) → block.hasConflict u txID = true :=
    fun hu hWrite => hasConflict_iff.mpr
      ⟨key, Or.inr (Or.inr ⟨validated.mem_blockWS hu hWrite, hKey⟩)⟩
  have hFollows := Batches.Layered.follows layered hasConflict_symm (perm.nodup_iff.mpr nodup)
    fun other ho => perm.mem_iff.mp ho
  refine Overlay.mergeAll_reorder start (written results) key ordered.idxOf (fun u hWrite => ?_)
    ?_ ?_
  · rw [hOrdered] at nodup
    rw [mem_before_iff nodup, ← hOrdered]
    constructor
    · intro hEarly
      have hu : u ∈ batches.flatten := hFlatten ▸ mem_append_left _ hEarly
      rw [hFlatten] at hFollows
      exact ⟨perm.mem_iff.mp hu, (pairwise_append.mp hFollows).2.2 u hEarly txID
        (mem_append_left _ hm) (hConflict hu hWrite)⟩
    · rintro ⟨hu, hLess⟩
      refine layered early batch later hBatches txID hm u (Batches.mem_preds.mpr ⟨hu, hLess, ?_⟩)
      rw [hasConflict_symm]
      exact hConflict (perm.mem_iff.mpr hu) hWrite
  · have hPairwise := validated.pairwise layered perm nodup key
    rw [hFlatten] at hPairwise
    exact (pairwise_append.mp hPairwise).1
  · have hPairwise := pairwise_idxOf nodup
    rw [hOrdered] at hPairwise ⊢
    exact (pairwise_append.mp hPairwise).1.imp fun h _ _ => h

/-- Each transaction ends as if it had been validated after those before it. -/
theorem Validated.result_ordered (validated : Validated block workers start results batches state)
    (layered : Batches.Layered (block.dag ordered) batches) (perm : batches.flatten.Perm ordered)
    (nodup : ordered.Nodup) {before after : List String}
    (hOrdered : ordered = before ++ txID :: after) :
    results txID =
      block.validate workers (Overlay.mergeAll start (written results) before) txID := by
  have hm : txID ∈ batches.flatten := perm.mem_iff.mpr (by simp [hOrdered])
  obtain ⟨batch, hBatch, hTx⟩ := mem_flatten.mp hm
  obtain ⟨early, later, hSplit⟩ := append_of_mem hBatch
  rw [validated.result early batch later hSplit txID hTx]
  exact validate_congr fun key hKey =>
    validated.reads layered perm nodup hOrdered hSplit hTx hKey

/-- Executing the committed transactions of a part of the order serially publishes
what they published in their batches. -/
theorem Validated.serial (validated : Validated block workers start results batches state)
    (layered : Batches.Layered (block.dag ordered) batches) (perm : batches.flatten.Perm ordered)
    (nodup : ordered.Nodup) (before after : List String) (hOrdered : ordered = before ++ after) :
    workers.serial start (before.filter fun txID => (results txID).isSome) =
      Overlay.mergeAll start (written results) before := by
  induction before using List.reverseRecOn generalizing after with
  | nil => rfl
  | append_singleton before txID ih =>
    rw [append_assoc, singleton_append] at hOrdered
    have hBefore := ih (txID :: after) hOrdered
    rw [filter_append, ReplayBlock.serial, foldl_append, Overlay.mergeAll_append]
    change List.foldl workers.serialStep (workers.serial start _) _ = _
    rw [hBefore]
    cases hResult : results txID with
    | none =>
      have hSilent : written results txID = [] := by
        rw [written, hResult]
        rfl
      rw [Overlay.mergeAll_cons, hSilent]
      simp [hResult]
    | some result =>
      have hValidate := validated.result_ordered layered perm nodup hOrdered
      obtain ⟨⟨txIdx, hIdx, hRun⟩, _⟩ := validate_eq_some (hValidate.symm.trans hResult)
      have hStep : workers.serialStep (Overlay.mergeAll start (written results) before) txID =
          Overlay.merge (Overlay.mergeAll start (written results) before) result.WriteValues := by
        rw [ReplayBlock.serialStep, hIdx, Option.bind_some, hRun]
      rw [Overlay.mergeAll_cons, written_eq hResult]
      simpa [hResult] using hStep

end Serial

/-- The batches of a whole run, with the results of all transactions. -/
theorem overlayMode_spec (block : VegetaBlock) (workers : VegetaWorkers Value)
    (order : ChainOrder block) {finish : List String → List String}
    (hFinish : ∀ batch, (finish batch).Perm batch) (start : String → Option Value) {rounds : Nat}
    (hRounds : block.blockIDs.length ≤ rounds) :
    ∃ results batches, Validated block workers start results batches
        (block.overlayMode workers finish (block.orderedTxs order) start rounds) ∧
      Batches.Layered (block.dag (block.orderedTxs order)) batches ∧
      batches.flatten.Perm (block.orderedTxs order) := by
  have hLength : (block.orderedTxs order).length ≤ rounds :=
    (orderedTxs_perm order).length_eq ▸ hRounds
  obtain ⟨valid, _⟩ := batchLoop_spec block (block.commitBatch workers finish) rounds hLength
    ⟨start, [], []⟩
  have perm := batchLoop_perm block (block.commitBatch workers finish) rounds hLength
    ⟨start, [], []⟩
  obtain ⟨results, validated⟩ := validated_foldl block workers start hFinish _
    (perm.nodup_iff.mpr (nodup_orderedTxs order))
  rw [← valid.state] at validated
  exact ⟨results, _, validated, valid.layered, perm⟩

/-- After the batch loop, `committedDelta` is what a serial execution of the committed
transactions leaves, in the order of `orderedTxs`. -/
theorem vegeta_serializable (block : VegetaBlock) (workers : VegetaWorkers Value)
    (order : ChainOrder block) (finish : List String → List String)
    (hFinish : ∀ batch, (finish batch).Perm batch) (start : String → Option Value) (rounds : Nat)
    (hRounds : block.blockIDs.length ≤ rounds) :
    ∃ state, block.overlayMode workers finish (block.orderedTxs order) start rounds = state ∧
      state.committedDelta =
        workers.serial start ((block.orderedTxs order).filter (· ∈ state.committed)) := by
  have nodup := nodup_orderedTxs order
  obtain ⟨results, batches, validated, layered, perm⟩ :=
    overlayMode_spec block workers order hFinish start hRounds
  refine ⟨_, rfl, ?_⟩
  have hFilter : ∀ txID ∈ block.orderedTxs order, decide (txID ∈
      (block.overlayMode workers finish (block.orderedTxs order) start rounds).committed) =
        (results txID).isSome := by
    intro txID hm
    rw [Bool.eq_iff_iff, decide_eq_true_eq, validated.committed, mem_filter]
    exact and_iff_right (perm.mem_iff.mpr hm)
  rw [filter_congr hFilter, validated.serial layered perm nodup _ [] (append_nil _).symm,
    validated.delta]
  funext key
  refine Overlay.mergeAll_reorder start _ key (block.orderedTxs order).idxOf
    (fun txID _ => perm.mem_iff) (validated.pairwise layered perm nodup key) ?_
  exact (pairwise_idxOf nodup).imp fun h _ _ => h

/-- `"b"` keeps within its speculative sets only if `"x"` is zero. -/
def gaugeWorkers : VegetaWorkers Nat where
  witness := fun _ => 0
  txs := [.read "x" fun value => .done (["x"], fun _ => some (value + 1)),
    .read "x" fun value => if value = 0 then .done (["z"], fun _ => some 1)
      else .read "y" fun _ => .done (["z"], fun _ => some 2)]
  txIDToIdx := fun txID => if txID = "a" then some 0 else if txID = "b" then some 1 else none
  acquires := fun _ => true

theorem vegeta_serializable_gauge : (∃ state, gaugeBlock.overlayMode gaugeWorkers List.reverse
        (gaugeBlock.orderedTxs gaugeIncrementFirst) (fun _ => none) 2 = state ∧
      state.committedDelta = gaugeWorkers.serial (fun _ => none)
        ((gaugeBlock.orderedTxs gaugeIncrementFirst).filter (· ∈ state.committed))) ∧
      (gaugeBlock.overlayMode gaugeWorkers List.reverse
        (gaugeBlock.orderedTxs gaugeIncrementFirst) (fun _ => none) 2).committed = ["a"] :=
  ⟨vegeta_serializable gaugeBlock gaugeWorkers gaugeIncrementFirst List.reverse
    (fun batch => reverse_perm batch) (fun _ => none) 2 (by decide), by decide +kernel⟩

end VegetaBlock

end Nezha
