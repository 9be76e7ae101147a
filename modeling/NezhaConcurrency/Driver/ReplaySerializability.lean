import NezhaConcurrency.Driver.ReplayDepurge

/-! When the replay is serializable. `Execute` releases the successors of a
transaction before its written values are published, so a successor may take its
overlay from a `committedDelta` that lacks them. In every run in which no worker
does so, `committedDelta` ends up as a serial execution in ID order leaves it. -/
namespace Nezha

open DepurgeScheduler Function List

variable {Value : Type}

/-- The result of a re-execution that stayed within the conservative keys. -/
def WorkerPc.result : WorkerPc Value → Option (ReExecuteResult Value)
  | .pruning result => some result
  | .executing result => some result
  | .merging result => some result
  | .returning committed => committed
  | .returned committed => committed
  | _ => none

/-- The result of a transaction for which `Execute` was called. -/
def WorkerPc.committed : WorkerPc Value → Option (ReExecuteResult Value)
  | .merging result => some result
  | .returning committed => committed
  | .returned committed => committed
  | _ => none

/-- The result of a transaction whose values are published. -/
def WorkerPc.merged : WorkerPc Value → Option (ReExecuteResult Value)
  | .returning committed => committed
  | .returned committed => committed
  | _ => none

/-- The worker has taken an overlay that its transaction may commit with. -/
def WorkerPc.Reads (pc : WorkerPc Value) : Prop :=
  (∃ txIdx overlay, pc = .snapshotted txIdx overlay) ∨ ∃ result, pc.result = some result

/-- One transaction of a serial execution, on everything committed before it. -/
def ReplayBlock.serialStep (block : ReplayBlock Value) (committedDelta : String → Option Value)
    (txID : String) : String → Option Value :=
  match (block.txIDToIdx txID).bind fun txIdx => block.ReExecute txIdx committedDelta with
  | none => committedDelta
  | some result => Overlay.merge committedDelta result.WriteValues

/-- The transactions executed one after the other. -/
def ReplayBlock.serial (block : ReplayBlock Value) (committedDelta : String → Option Value)
    (txIDs : List String) : String → Option Value :=
  txIDs.foldl block.serialStep committedDelta

variable {overlay : String → Option Value}

/-- A re-execution depends on the overlay only through the keys it reports. -/
theorem ReplayBlock.ReExecute_congr {block : ReplayBlock Value} {txIdx : Nat}
    {overlay' : String → Option Value} {result : ReExecuteResult Value}
    (h : block.ReExecute txIdx overlay = some result)
    (same : ∀ key ∈ result.RealReadKeys, overlay key = overlay' key) :
    block.ReExecute txIdx overlay' = some result := by
  unfold ReExecute at h ⊢
  cases hTx : block.txs[txIdx]? with
  | none =>
    rw [hTx] at h
    cases h
  | some tx =>
    rw [hTx] at h
    simp only [Option.map_eq_some_iff] at h ⊢
    obtain ⟨⟨reads, written⟩, hRun, hResult⟩ := h
    refine ⟨(reads, written), ?_, hResult⟩
    apply tx.run_congr hRun
    intro key hm
    have hKey : overlay key = overlay' key := same key (by rw [← hResult]; exact hm)
    rw [Overlay.overlaid, Overlay.overlaid, hKey]

theorem ReplayBlock.ReExecute_writeKeys {block : ReplayBlock Value} {txIdx : Nat}
    {result : ReExecuteResult Value} (h : block.ReExecute txIdx overlay = some result) :
    Overlay.keys result.WriteValues ⊆ result.RealWriteKeys := by
  unfold ReExecute at h
  cases hTx : block.txs[txIdx]? with
  | none =>
    rw [hTx] at h
    cases h
  | some tx =>
    rw [hTx] at h
    simp only [Option.map_eq_some_iff] at h
    obtain ⟨⟨reads, written⟩, _, rfl⟩ := h
    intro key hm
    simp only [Overlay.keys, mem_map, mem_filterMap, Option.map_eq_some_iff] at hm
    obtain ⟨_, ⟨key', hKey', value, _, rfl⟩, rfl⟩ := hm
    exact hKey'

theorem ReplayBlock.ReExecute_writes {block : ReplayBlock Value} {txIdx : Nat}
    {result : ReExecuteResult Value} (h : block.ReExecute txIdx overlay = some result) :
    Overlay.keys result.WriteValues ⊆ result.realKeys :=
  fun _ hm => mem_append_right _ (ReExecute_writeKeys h hm)

namespace ReplayState

/-- The values that a transaction has published so far. -/
def published (r : ReplayState Value) (txID : String) : List (String × Value) :=
  ((r.pc txID).merged.map ReExecuteResult.WriteValues).getD []

/-- What the transactions before `txID` have published. -/
def before (committedDelta : String → Option Value) (added : List String)
    (r : ReplayState Value) (txID : String) : String → Option Value :=
  Overlay.mergeAll committedDelta r.published (added.filter (· < txID))

/-- No value is still unpublished at a conservative key of `txID`. -/
def Published (r : ReplayState Value) (txID : String) : Prop :=
  ∀ other result, r.pc other = .merging result →
    ∀ key ∈ Overlay.keys result.WriteValues, key ∉ r.conservativeKeys txID

/-- A step whose worker, if it takes an overlay, finds every value published
that its overlay should have. -/
def PublishedStep (block : ReplayBlock Value) (r r' : ReplayState Value) : Prop :=
  Step block r r' ∧ ∀ txID txIdx overlay, r.pc txID = .start →
    r'.pc txID = .snapshotted txIdx overlay → r.Published txID

/-- The transactions for which `Execute` was called, in increasing ID order. -/
def committedIDs (contexts : List TransactionContext) (r : ReplayState Value) : List String :=
  (addedIDs contexts).filter fun txID => (r.pc txID).committed.isSome

/-- `committedDelta` is what its publishers give in ID order, whoever is about
to publish comes before all overlays that lack its values, and each overlay and
each result is the one of a serial execution. -/
structure Serial (block : ReplayBlock Value) (start : String → Option Value)
    (added : List String) (r : ReplayState Value) : Prop where
  delta : r.committedDelta = Overlay.mergeAll start r.published added
  ordered : ∀ txID result, r.pc txID = .merging result →
    ∀ key ∈ Overlay.keys result.WriteValues, ∀ later, txID < later →
      key ∈ r.conservativeKeys later → ¬ (r.pc later).Reads
  snapshot : ∀ txID txIdx overlay, r.pc txID = .snapshotted txIdx overlay →
    block.txIDToIdx txID = some txIdx ∧
      ∀ key ∈ r.conservativeKeys txID, overlay key = before start added r txID key
  result : ∀ txID result, (r.pc txID).result = some result →
    result.realKeys ⊆ r.conservativeKeys txID ∧ Overlay.keys result.WriteValues ⊆ result.realKeys ∧
      ∃ txIdx, block.txIDToIdx txID = some txIdx ∧
        block.ReExecute txIdx (before start added r txID) = some result

section Preservation

variable {block : ReplayBlock Value} {start : String → Option Value} {added : List String}
  {r next : ReplayState Value}

variable {pc : WorkerPc Value}

theorem result_of_merged {result : ReExecuteResult Value} (h : pc.merged = some result) :
    pc.result = some result := by
  cases pc <;> first | exact h | cases h

variable {txID : String}

/-- Published values lie within the conservative keys of their publisher. -/
theorem Serial.published_reads (serial : Serial block start added r) {key : String}
    (h : key ∈ Overlay.keys (r.published txID)) :
    (∃ result, (r.pc txID).merged = some result) ∧ (r.pc txID).Reads ∧
      key ∈ r.conservativeKeys txID := by
  cases hMerged : (r.pc txID).merged with
  | none =>
    rw [published, hMerged] at h
    cases h
  | some result =>
    rw [published, hMerged] at h
    have hResult := result_of_merged hMerged
    obtain ⟨hReal, hWrites, _⟩ := serial.result txID result hResult
    exact ⟨⟨result, rfl⟩, Or.inr ⟨result, hResult⟩, hReal (hWrites h)⟩

theorem Serial.goto (serial : Serial block start added r) (hPc : next.pc = update r.pc txID pc)
    (hDelta : next.committedDelta = r.committedDelta)
    (hKeys : ∀ other, next.conservativeKeys other = r.conservativeKeys other)
    (hMerged : pc.merged = (r.pc txID).merged)
    (hMerging : ∀ result, pc = .merging result → ∀ key ∈ Overlay.keys result.WriteValues, ∀ later, txID < later → key ∈ r.conservativeKeys later → ¬ (r.pc later).Reads)
    (hReads : pc.Reads → (r.pc txID).Reads ∨ r.Published txID)
    (hSnapshot : ∀ txIdx overlay, pc = .snapshotted txIdx overlay → block.txIDToIdx txID = some txIdx ∧ ∀ key ∈ r.conservativeKeys txID, overlay key = before start added r txID key)
    (hResult : ∀ result, pc.result = some result → result.realKeys ⊆ r.conservativeKeys txID ∧ Overlay.keys result.WriteValues ⊆ result.realKeys ∧ ∃ txIdx, block.txIDToIdx txID = some txIdx ∧ block.ReExecute txIdx (before start added r txID) = some result)
    :
    Serial block start added next := by
  have hSelf : next.pc txID = pc := by rw [hPc, update_self]
  have hOther : ∀ other, other ≠ txID → next.pc other = r.pc other := by
    intro other hne
    rw [hPc, update_of_ne hne]
  have hPublished : next.published = r.published := by
    funext other
    unfold published
    by_cases hne : other = txID
    · rw [hne, hSelf, hMerged]
    · rw [hOther other hne]
  have hBefore : before start added next = before start added r := by
    unfold before
    rw [hPublished]
  refine ⟨?_, ?_, ?_, ?_⟩
  · rw [hDelta, hPublished]
    exact serial.delta
  · intro other result hOtherPc key hm later hLess hKey hLater
    rw [hKeys] at hKey
    by_cases hne : other = txID
    · subst hne
      rw [hOther later hLess.ne'] at hLater
      exact hMerging result (hSelf.symm.trans hOtherPc) key hm later hLess hKey hLater
    · rw [hOther other hne] at hOtherPc
      by_cases hLaterNe : later = txID
      · subst hLaterNe
        rw [hSelf] at hLater
        rcases hReads hLater with hOld | hNew
        · exact serial.ordered other result hOtherPc key hm later hLess hKey hOld
        · exact hNew other result hOtherPc key hm hKey
      · rw [hOther later hLaterNe] at hLater
        exact serial.ordered other result hOtherPc key hm later hLess hKey hLater
  · intro other txIdx overlay hOtherPc
    rw [hKeys, hBefore]
    by_cases hne : other = txID
    · subst hne
      exact hSnapshot txIdx overlay (hSelf.symm.trans hOtherPc)
    · rw [hOther other hne] at hOtherPc
      exact serial.snapshot other txIdx overlay hOtherPc
  · intro other result hOtherPc
    rw [hKeys, hBefore]
    by_cases hne : other = txID
    · subst hne
      rw [hSelf] at hOtherPc
      exact hResult result hOtherPc
    · rw [hOther other hne] at hOtherPc
      exact serial.result other result hOtherPc

theorem Serial.proceed (serial : Serial block start added r) (hPc : next.pc = update r.pc txID pc)
    (hDelta : next.committedDelta = r.committedDelta)
    (hKeys : ∀ other, next.conservativeKeys other = r.conservativeKeys other)
    (hMerged : pc.merged = (r.pc txID).merged) (hMerging : ∀ result, pc ≠ .merging result)
    (hSnapshot : ∀ txIdx overlay, pc ≠ .snapshotted txIdx overlay)
    (hResult : pc.result = none ∨ pc.result = (r.pc txID).result) :
    Serial block start added next := by
  have hSame : ∀ result, pc.result = some result → (r.pc txID).result = some result := by
    intro result h
    rcases hResult with hNone | hEq
    · rw [hNone] at h
      cases h
    · exact hEq.symm.trans h
  apply serial.goto hPc hDelta hKeys hMerged
  · exact fun result h => absurd h (hMerging result)
  · rintro (⟨txIdx, overlay, h⟩ | ⟨result, h⟩)
    · exact absurd h (hSnapshot txIdx overlay)
    · exact Or.inl (Or.inr ⟨result, hSame result h⟩)
  · exact fun txIdx overlay h => absurd h (hSnapshot txIdx overlay)
  · exact fun result h => serial.result txID result (hSame result h)

/-- A transaction is re-executed on its overlay. The overlay and the serial state agree on
everything that it read. -/
theorem Serial.reExecute (serial : Serial block start added r) {txIdx : Nat}
    {overlay : String → Option Value} (hOld : r.pc txID = .snapshotted txIdx overlay)
    (hPc : next.pc = update r.pc txID (afterReExecute (r.conservativeKeys txID) (block.ReExecute txIdx overlay)))
    (hDelta : next.committedDelta = r.committedDelta)
    (hKeys : ∀ other, next.conservativeKeys other = r.conservativeKeys other) :
    Serial block start added next := by
  obtain ⟨hIdx, hOverlay⟩ := serial.snapshot txID txIdx overlay hOld
  have hMerged : (r.pc txID).merged = none := by
    rw [hOld]
    rfl
  rcases afterReExecute_cases (r.conservativeKeys txID) (block.ReExecute txIdx overlay) with
    hAfter | ⟨result, hRun, hReal, hAfter⟩
  · rw [hAfter] at hPc
    exact serial.proceed hPc hDelta hKeys hMerged.symm nofun nofun (Or.inl rfl)
  · have hAgain : block.ReExecute txIdx (before start added r txID) = some result :=
      ReplayBlock.ReExecute_congr hRun fun key hm =>
        hOverlay key (hReal (mem_append_left _ hm))
    have hReads : (r.pc txID).Reads := Or.inl ⟨txIdx, overlay, hOld⟩
    -- Both ways to go on keep the result.
    rcases hAfter with hAfter | ⟨_, hAfter⟩ <;> rw [hAfter] at hPc <;>
      refine serial.goto hPc hDelta hKeys hMerged.symm nofun (fun _ => Or.inl hReads) nofun ?_ <;>
      rintro _ ⟨⟩ <;>
      exact ⟨hReal, ReplayBlock.ReExecute_writes hRun, txIdx, hIdx, hAgain⟩

/-- A worker publishes its values. No overlay that should have them was taken
before, and no later transaction has published at the same keys. -/
theorem Serial.publish (serial : Serial block start added r) (sorted : added.Pairwise (· < ·))
    (hAdded : txID ∈ added) {result : ReExecuteResult Value}
    (hMerging : r.pc txID = .merging result)
    (hPc : next.pc = update r.pc txID (.returning (some result)))
    (hDelta : next.committedDelta = Overlay.merge r.committedDelta result.WriteValues)
    (hKeys : ∀ other, next.conservativeKeys other = r.conservativeKeys other) :
    Serial block start added next := by
  have hSelf : next.pc txID = .returning (some result) := by rw [hPc, update_self]
  have hOther : ∀ other, other ≠ txID → next.pc other = r.pc other := by
    intro other hne
    rw [hPc, update_of_ne hne]
  have hPublished : next.published = update r.published txID result.WriteValues := by
    funext other
    by_cases hne : other = txID
    · rw [hne, update_self, published, hSelf]
      rfl
    · rw [update_of_ne hne, published, published, hOther other hne]
  have hFresh : r.published txID = [] := by
    rw [published, hMerging]
    rfl
  -- An overlay taken already keeps its value at every key it may use.
  have hBefore : ∀ other, (r.pc other).Reads → ∀ key ∈ r.conservativeKeys other,
      before start added next other key = before start added r other key := by
    intro other hReads key hKey
    rw [before, before, hPublished]
    apply Overlay.mergeAll_congr _ rfl
    intro index hm hWrites
    by_cases hne : index = txID
    · subst hne
      have hLess : index < other := by simpa using (mem_filter.mp hm).2
      rw [update_self, hFresh] at hWrites
      rcases hWrites with hWrites | hWrites
      · exact absurd hReads (serial.ordered index result hMerging key hWrites other hLess hKey)
      · cases hWrites
    · rw [update_of_ne hne]
  have hOwn : (r.pc txID).result = some result := by rw [hMerging]; rfl
  refine ⟨?_, ?_, ?_, ?_⟩
  · rw [hDelta, hPublished, serial.delta]
    refine (Overlay.mergeAll_update start r.published result.WriteValues sorted hAdded hFresh
      ?_).symm
    intro other _ hLess key hm hWrites
    obtain ⟨_, hReads, hKey⟩ := serial.published_reads hWrites
    exact serial.ordered txID result hMerging key hm other hLess hKey hReads
  · intro other otherResult hOtherPc key hm later hLess hKey hLater
    rw [hKeys] at hKey
    have hne : other ≠ txID := by
      rintro rfl
      rw [hSelf] at hOtherPc
      cases hOtherPc
    rw [hOther other hne] at hOtherPc
    apply serial.ordered other otherResult hOtherPc key hm later hLess hKey
    by_cases hLaterNe : later = txID
    · subst hLaterNe
      exact Or.inr ⟨result, hOwn⟩
    · rwa [hOther later hLaterNe] at hLater
  · intro other txIdx overlay hOtherPc
    have hne : other ≠ txID := by
      rintro rfl
      rw [hSelf] at hOtherPc
      cases hOtherPc
    rw [hOther other hne] at hOtherPc
    obtain ⟨hIdx, hOverlay⟩ := serial.snapshot other txIdx overlay hOtherPc
    refine ⟨hIdx, fun key hKey => ?_⟩
    rw [hKeys] at hKey
    rw [hBefore other (Or.inl ⟨txIdx, overlay, hOtherPc⟩) key hKey]
    exact hOverlay key hKey
  · intro other otherResult hOtherPc
    have hOld : (r.pc other).result = some otherResult := by
      by_cases hne : other = txID
      · subst hne
        rw [hSelf] at hOtherPc
        exact hOwn.trans hOtherPc
      · rwa [hOther other hne] at hOtherPc
    obtain ⟨hReal, hWrites, txIdx, hIdx, hRun⟩ := serial.result other otherResult hOld
    rw [hKeys]
    refine ⟨hReal, hWrites, txIdx, hIdx, ReplayBlock.ReExecute_congr hRun fun key hm => ?_⟩
    exact (hBefore other (Or.inr ⟨otherResult, hOld⟩) key (hReal (mem_append_left _ hm))).symm

theorem not_waiting_of_reads {keys : List String} {worker : WorkerState} {phase : Phase}
    (linked : pc.Linked keys worker phase) (hReads : pc.Reads) :
    phase ≠ .waiting := by
  rintro rfl
  rcases hReads with ⟨txIdx, overlay, rfl⟩ | ⟨result, hResult⟩
  · cases linked.2
  · cases pc with
    | pruning | merging | returning | returned => cases linked.2
    | executing =>
      rcases linked.2 with ⟨h, _⟩ | h
      · cases h
      · cases h
    | start | snapshotted | aborting | appending => cases hResult

/-- While a transaction is in the queue of a key, no later one that uses the key
has taken an overlay. -/
theorem not_reads_of_queued (linked : r.Linked) (order : r.driver.session.KeyOrder)
    {later key : String} (hm : txID ∈ (r.driver.session.scheduler.keyQueues key).ids)
    (hLess : txID < later) (hKey : key ∈ r.conservativeKeys later) : ¬ (r.pc later).Reads :=
  fun hReads => not_waiting_of_reads (linked later) hReads (order key txID later hm hLess hKey)

variable {contexts : List TransactionContext}

theorem Serial.takeOverlay (distinct : (contexts.map TransactionContext.TxID).Nodup)
    (serial : Serial block start (addedIDs contexts) r) (linked : r.Linked)
    (run : Driver.Reachable replayExitTest contexts r.driver) {key : String}
    (hPc : r.pc txID = .start) (hWorker : r.driver.worker txID = .running)
    (hKey : key ∈ r.conservativeKeys txID) :
    r.committedDelta key = before start (addedIDs contexts) r txID key := by
  have hSession := run.session.invariant distinct
  have hPhase : r.driver.session.phase txID = .popped := by
    have hLinked := linked txID
    rw [hPc, hWorker] at hLinked
    rcases hLinked with h | h
    · cases h
    · exact h.2
  have hQueued : txID ∈ (r.driver.session.scheduler.keyQueues key).ids := by
    apply hSession.scheduler.queue_holds txID
      (hSession.scheduler.active txID (Phase.active_of_popped hPhase)).1
    rw [hPhase]
    exact hKey
  rw [serial.delta, before]
  refine (Overlay.mergeAll_filter start r.published key _ (addedIDs contexts) ?_).symm
  intro other _ hNotLess hWrites
  obtain ⟨⟨result, hMerged⟩, hReads, hOtherKey⟩ := serial.published_reads hWrites
  rcases (not_lt.mp (of_decide_eq_false hNotLess)).lt_or_eq with hLess | rfl
  · exact not_reads_of_queued linked (run.session.keyOrder distinct) hQueued hLess hOtherKey hReads
  · rw [hPc] at hMerged
    cases hMerged

theorem Serial.release (distinct : (contexts.map TransactionContext.TxID).Nodup)
    (serial : Serial block start (addedIDs contexts) r) (linked : r.Linked)
    (run : Driver.Reachable replayExitTest contexts r.driver) {key later : String}
    {result : ReExecuteResult Value} (hPc : r.pc txID = .executing result)
    (hm : key ∈ Overlay.keys result.WriteValues) (hLess : txID < later)
    (hKey : key ∈ r.conservativeKeys later) : ¬ (r.pc later).Reads := by
  have hSession := run.session.invariant distinct
  obtain ⟨hReal, hWrites, _⟩ := serial.result txID result (by rw [hPc]; rfl)
  have hLinked := linked txID
  rw [hPc] at hLinked
  have hActive : (r.driver.session.phase txID).Active := by
    rcases hLinked.2 with ⟨hPhase, _⟩ | hPhase
    · exact Phase.active_of_popped hPhase
    · rw [hPhase]
      trivial
  have hQueued : txID ∈ (r.driver.session.scheduler.keyQueues key).ids := by
    apply hSession.scheduler.queue_holds txID (hSession.scheduler.active txID hActive).1
    rcases hLinked.2 with ⟨hPhase, _⟩ | hPhase
    · rw [hPhase]
      exact hReal (hWrites hm)
    · rw [hPhase]
      exact ⟨hReal (hWrites hm), hWrites hm⟩
  exact not_reads_of_queued linked (run.session.keyOrder distinct) hQueued hLess hKey

theorem Serial.step (distinct : (contexts.map TransactionContext.TxID).Nodup)
    (serial : Serial block start (addedIDs contexts) r) (linked : r.Linked)
    (run : Driver.Reachable replayExitTest contexts r.driver)
    (run' : Driver.Reachable replayExitTest contexts next.driver)
    (step : PublishedStep block r next) : Serial block start (addedIDs contexts) next := by
  have hKeys : ∀ other, next.conservativeKeys other = r.conservativeKeys other := by
    intro other
    change next.driver.session.scheduler.txKeyMap other = r.driver.session.scheduler.txKeyMap other
    rw [(run'.session.invariant distinct).keyMap, (run.session.invariant distinct).keyMap]
  obtain ⟨step, hPublished⟩ := step
  cases step with
  | main driver h =>
    refine ⟨serial.delta, ?_, ?_, ?_⟩
    · intro txID result hPc key hm later hLess hKey
      exact serial.ordered txID result hPc key hm later hLess (hKeys later ▸ hKey)
    · intro txID txIdx overlay hPc
      obtain ⟨hIdx, hOverlay⟩ := serial.snapshot txID txIdx overlay hPc
      exact ⟨hIdx, fun key hKey => hOverlay key (hKeys txID ▸ hKey)⟩
    · intro txID result hPc
      rw [hKeys]
      exact serial.result txID result hPc
  | noContext txID hWorker hPc hIdx =>
    refine serial.proceed rfl rfl hKeys ?_ nofun nofun (Or.inl rfl)
    rw [hPc]
    rfl
  | snapshot txID txIdx hWorker hPc hIdx =>
    refine serial.goto rfl rfl hKeys ?_ nofun ?_ ?_ nofun
    · rw [hPc]
      rfl
    · intro _
      exact Or.inr (hPublished txID _ _ hPc (update_self ..))
    · rintro _ _ ⟨⟩
      refine ⟨hIdx, fun key hKey => ?_⟩
      rw [filterOverlayByKeys, if_pos hKey]
      exact serial.takeOverlay distinct linked run hPc hWorker hKey
  | acquireError txID txIdx overlay hPc =>
    refine serial.proceed rfl rfl hKeys ?_ nofun nofun (Or.inl rfl)
    rw [hPc]
    rfl
  | reExecute txID txIdx overlay hPc => exact serial.reExecute hPc rfl rfl hKeys
  | abort txID hPc =>
    refine serial.proceed rfl rfl hKeys ?_ nofun nofun (Or.inl rfl)
    rw [hPc]
    rfl
  | append txID hPc =>
    refine serial.proceed rfl rfl hKeys ?_ nofun nofun (Or.inl rfl)
    rw [hPc]
    rfl
  | prune txID result hPc =>
    refine serial.proceed rfl rfl hKeys ?_ nofun nofun (Or.inr ?_)
    · rw [hPc]
      rfl
    · rw [hPc]
      rfl
  | execute txID result hPc =>
    have hOwn : (r.pc txID).result = some result := by rw [hPc]; rfl
    refine serial.goto rfl rfl hKeys ?_ ?_ ?_ nofun ?_
    · rw [hPc]
      rfl
    · rintro _ ⟨⟩ key hm later hLess hKey
      exact serial.release distinct linked run hPc hm hLess hKey
    · exact fun _ => Or.inl (Or.inr ⟨result, hOwn⟩)
    · rintro _ ⟨⟩
      exact serial.result txID result hOwn
  | merge txID result hPc =>
    have hLinked := linked txID
    rw [hPc] at hLinked
    have hAdded := ((run.session.invariant distinct).known txID (by
      rw [hLinked.2]
      exact Phase.noConfusion)).1
    exact serial.publish (addedIDs_sorted distinct) hAdded hPc rfl rfl hKeys
  | decrement txID committed hPc =>
    refine serial.proceed rfl rfl hKeys ?_ nofun nofun (Or.inr ?_)
    · rw [hPc]
      rfl
    · rw [hPc]
      rfl

end Preservation

section Runs

variable {block : ReplayBlock Value} {start : String → Option Value}
  {contexts : List TransactionContext} {r : ReplayState Value}

theorem serial_init : Serial block start (addedIDs contexts) (init contexts start) where
  delta := by
    funext key
    refine (Overlay.mergeAll_of_silent start _ _ fun txID _ => ?_).symm
    exact not_mem_nil
  ordered := fun _ _ h => by cases h
  snapshot := fun _ _ _ h => by cases h
  result := fun _ _ h => by cases h

theorem serial_of_run (distinct : (contexts.map TransactionContext.TxID).Nodup)
    (run : Relation.ReflTransGen (PublishedStep block) (init contexts start) r) :
    Reachable block contexts start r ∧ Serial block start (addedIDs contexts) r := by
  induction run with
  | refl => exact ⟨.refl, serial_init⟩
  | tail _ last ih =>
    obtain ⟨hRun, hSerial⟩ := ih
    obtain ⟨hDriver, hLinked⟩ := hRun.simulated distinct
    have hRun' := hRun.tail last.1
    exact ⟨hRun', hSerial.step distinct hLinked hDriver (Reachable.simulated distinct hRun').1 last⟩

/-- Once the loop is left, whoever was executed has published. -/
theorem merged_of_exited (distinct : (contexts.map TransactionContext.TxID).Nodup)
    (run : Reachable block contexts start r) (hExit : r.driver.loop = .exited)
    (txID : String) : (r.pc txID).committed = (r.pc txID).merged := by
  obtain ⟨hDriver, hLinked⟩ := run.simulated distinct
  have hIdle := (hDriver.frozen distinct).workers (Or.inl hExit) txID
  have hLink := hLinked txID
  cases hPc : r.pc txID with
  | merging result =>
    rw [hPc] at hLink
    exact absurd hLink.1 hIdle
  | start | snapshotted | aborting | appending | pruning | executing | returning | returned => rfl

theorem filter_lt_of_sorted {before after : List String} {txID : String}
    (sorted : (before ++ txID :: after).Pairwise (· < ·)) :
    (before ++ txID :: after).filter (· < txID) = before := by
  obtain ⟨_, hAfter, hCross⟩ := pairwise_append.mp sorted
  have hBefore : before.filter (· < txID) = before :=
    filter_eq_self.mpr fun other hm =>
      decide_eq_true (hCross other hm txID mem_cons_self)
  have hRest : (txID :: after).filter (· < txID) = [] := by
    rw [filter_eq_nil_iff]
    intro other hm hLess
    rcases mem_cons.mp hm with rfl | hm
    · exact (of_decide_eq_true hLess).false
    · exact ((pairwise_cons.mp hAfter).1 other hm).not_gt (of_decide_eq_true hLess)
  rw [filter_append, hBefore, hRest, append_nil]

/-- Executing the committed transactions of a prefix serially publishes exactly
what they have published. -/
theorem Serial.serial_prefix {added : List String} (serial : Serial block start added r)
    (sorted : added.Pairwise (· < ·))
    (hMerged : ∀ txID, (r.pc txID).committed = (r.pc txID).merged) (before after : List String)
    (hAdded : added = before ++ after) :
    block.serial start (before.filter fun txID => (r.pc txID).committed.isSome) =
      Overlay.mergeAll start r.published before := by
  induction before using List.reverseRecOn generalizing after with
  | nil => rfl
  | append_singleton before txID ih =>
    rw [append_assoc, singleton_append] at hAdded
    have hBefore := ih (txID :: after) hAdded
    rw [filter_append, ReplayBlock.serial, foldl_append, Overlay.mergeAll_append]
    change List.foldl block.serialStep (block.serial start _) _ = _
    rw [hBefore]
    cases hCommitted : (r.pc txID).committed with
    | none =>
      have hSilent : r.published txID = [] := by
        rw [published, ← hMerged, hCommitted]
        rfl
      rw [Overlay.mergeAll_cons, hSilent]
      simp [hCommitted]
    | some result =>
      have hResult := result_of_merged ((hMerged txID).symm.trans hCommitted)
      obtain ⟨_, _, txIdx, hIdx, hRun⟩ := serial.result txID result hResult
      have hState : before = added.filter (· < txID) := by
        rw [hAdded] at sorted ⊢
        exact (filter_lt_of_sorted sorted).symm
      have hStep : block.serialStep (Overlay.mergeAll start r.published before) txID =
          Overlay.merge (Overlay.mergeAll start r.published before) result.WriteValues := by
        rw [ReplayState.before, ← hState] at hRun
        rw [ReplayBlock.serialStep, hIdx, Option.bind_some, hRun]
      have hPublished : r.published txID = result.WriteValues := by
        rw [published, ← hMerged, hCommitted]
        rfl
      rw [Overlay.mergeAll_cons, hPublished]
      simpa [hCommitted] using hStep

end Runs

/-- In every run whose workers take their overlay only when every value that
belongs to it is published, `committedDelta` ends up as a serial execution of
the committed transactions in increasing ID order leaves it. -/
theorem replay_serializable (block : ReplayBlock Value) (contexts : List TransactionContext)
    (distinct : (contexts.map TransactionContext.TxID).Nodup)
    (start : String → Option Value) (r : ReplayState Value)
    (run : Relation.ReflTransGen (PublishedStep block) (init contexts start) r)
    (hExit : r.driver.loop = .exited) :
    r.committedDelta = block.serial start (r.committedIDs contexts) := by
  obtain ⟨hRun, hSerial⟩ := serial_of_run distinct run
  rw [hSerial.delta, committedIDs]
  exact (hSerial.serial_prefix (addedIDs_sorted distinct) (merged_of_exited distinct hRun hExit)
    (addedIDs contexts) [] (append_nil _).symm).symm

/-- `"a"` sets the counter at `"k"` to one and `"b"` increments it. -/
def counterBlock : ReplayBlock Nat where
  witness := fun _ => 0
  txs := [.done (["k"], fun _ => some 1),
    .read "k" fun value => .done (["k"], fun _ => some (value + 1))]
  txIDToIdx := fun txID => if txID = "a" then some 0 else if txID = "b" then some 1 else none

/-- The result of `"a"`, and that of `"b"` on a counter at `value`. -/
def setCounter : ReExecuteResult Nat := ⟨[], ["k"], [("k", 1)]⟩

def incrementCounter (value : Nat) : ReExecuteResult Nat := ⟨["k"], ["k"], [("k", value + 1)]⟩

/-- The main loop has handed `"a"` over. -/
def counterHandedOver : ReplayState Nat :=
  { init Session.twoOnOneKey (fun _ => none) with
    driver :=
      { session := (Session.init Session.twoOnOneKey).popReady
        loop := .popReady
        inProgress := 1
        worker := update (fun _ => .idle) "a" .running } }

/-- `"a"` has been executed, which released `"b"`, but has not published, and the
main loop has handed `"b"` over. -/
def counterReleased : ReplayState Nat :=
  { ((counterHandedOver.goto "a"
        (.snapshotted 0 (filterOverlayByKeys (fun _ => none) ["k"]))).goto "a"
        (.executing setCounter)).goto "a" (.merging setCounter) with
    driver :=
      { session := ((Session.init Session.twoOnOneKey).popReady.execute "a").popReady
        loop := .popReady
        inProgress := 2
        worker := update counterHandedOver.driver.worker "b" .running } }

section CounterRuns

variable {block : ReplayBlock Value} {r : ReplayState Value}

theorem publishedStep_of_pc {r' : ReplayState Value} (step : Step block r r')
    (hPc : ∀ txID txIdx overlay, r.pc txID = .start → r'.pc txID ≠ .snapshotted txIdx overlay) :
    PublishedStep block r r' :=
  ⟨step, fun txID txIdx overlay h h' => absurd h' (hPc txID txIdx overlay h)⟩

theorem publishedRun_main {driver : Driver}
    (run : Relation.ReflTransGen (Driver.MainStep replayExitTest) r.driver driver) :
    Relation.ReflTransGen (PublishedStep block) r { r with driver := driver } := by
  induction run with
  | refl => exact .refl
  | tail _ last ih =>
    refine ih.tail (publishedStep_of_pc (.main _ _ last) fun _ _ _ hStart h => ?_)
    rw [show r.pc _ = _ from hStart] at h
    cases h

theorem publishedStep_goto {r' : ReplayState Value} {txID : String} {pc : WorkerPc Value}
    (step : Step block r r') (hPc : r'.pc = update r.pc txID pc)
    (hNot : ∀ txIdx overlay, pc ≠ .snapshotted txIdx overlay) : PublishedStep block r r' := by
  apply publishedStep_of_pc step
  intro other txIdx overlay hStart h
  rw [hPc] at h
  by_cases hne : other = txID
  · rw [hne, update_self] at h
    exact hNot txIdx overlay h
  · rw [update_of_ne hne, hStart] at h
    cases h

end CounterRuns

theorem run_counterReleased : Relation.ReflTransGen (PublishedStep counterBlock)
      (init Session.twoOnOneKey fun _ => none) counterReleased := by
  have hHandOver : Relation.ReflTransGen (Driver.MainStep replayExitTest)
      (Driver.init replayExitTest Session.twoOnOneKey) counterHandedOver.driver :=
    ((((Relation.ReflTransGen.single (.readQuiet _ .inProgress _ rfl (by decide))).tail
      (.readBusy _ .readyQueueLen _ rfl (by decide))).tail
      (.popReady _ rfl (by decide))).tail (.addReady _ "a" rfl)).tail (.invokeReady _ "a" rfl)
  have hSnapshot : PublishedStep counterBlock counterHandedOver (counterHandedOver.goto "a"
      (.snapshotted 0 (filterOverlayByKeys (fun _ => none) ["k"]))) :=
    ⟨.snapshot counterHandedOver "a" 0 rfl rfl rfl, fun _ _ _ _ _ _ _ h => by cases h⟩
  have hReExecute : PublishedStep counterBlock (counterHandedOver.goto "a"
      (.snapshotted 0 (filterOverlayByKeys (fun _ => none) ["k"])))
      ((counterHandedOver.goto "a" (.snapshotted 0
        (filterOverlayByKeys (fun _ => none) ["k"]))).goto "a" (.executing setCounter)) :=
    publishedStep_goto (.reExecute _ "a" 0 _ rfl) rfl fun _ _ h => by cases h
  have hExecute := publishedStep_goto (.execute ((counterHandedOver.goto "a" (.snapshotted 0
      (filterOverlayByKeys (fun _ => none) ["k"]))).goto "a" (.executing setCounter))
      "a" setCounter rfl : Step counterBlock _ _) rfl fun _ _ h => by cases h
  have hRelease : Relation.ReflTransGen (Driver.MainStep replayExitTest)
      { counterHandedOver.driver with
        session := (Session.init Session.twoOnOneKey).popReady.execute "a" }
      counterReleased.driver :=
    ((Relation.ReflTransGen.single (.popReady _ rfl (by decide))).tail
      (.addReady _ "b" rfl)).tail (.invokeReady _ "b" rfl)
  exact ((((publishedRun_main hHandOver).tail hSnapshot).tail hReExecute).tail hExecute).trans
    (publishedRun_main hRelease)

/-- The worker of `"a"` has returned and that of `"b"` has its overlay. -/
def counterDriver : Driver where
  session := ((Session.init Session.twoOnOneKey).popReady.execute "a").popReady
  loop := .popReady
  inProgress := 1
  worker := update (update (update (fun _ => .idle) "a" .running) "b" .running) "a" .done

theorem run_counterIncrements (r : ReplayState Nat) (overlay : String → Option Nat)
    (hDriver : r.driver = counterDriver) (hPc : r.pc "b" = .snapshotted 1 overlay)
    (hOther : r.pc "a" = .returned (some setCounter)) :
    ∃ r', Relation.ReflTransGen (PublishedStep counterBlock) r r' ∧ r'.driver.loop = .exited ∧
      r'.committedDelta = Overlay.merge r.committedDelta [("k", (overlay "k").getD 0 + 1)] ∧
      r'.committedIDs Session.twoOnOneKey = ["a", "b"] := by
  obtain ⟨driver, pc, committedDelta, serialReplayList⟩ := r
  subst hDriver
  generalize hValue : (overlay "k").getD 0 = value
  have hResult : afterReExecute ["k"] (counterBlock.ReExecute 1 overlay) =
      .executing (incrementCounter value) := by
    rw [← hValue]
    rfl
  let pcExecuting := update pc "b" (.executing (incrementCounter value))
  let pcMerging := update pcExecuting "b" (.merging (incrementCounter value))
  let pcReturning := update pcMerging "b" (.returning (some (incrementCounter value)))
  let executed : Driver := { counterDriver with session := counterDriver.session.execute "b" }
  let published := Overlay.merge committedDelta [("k", value + 1)]
  have hReExecute : PublishedStep counterBlock ⟨counterDriver, pc, committedDelta, serialReplayList⟩
      ⟨counterDriver, pcExecuting, committedDelta, serialReplayList⟩ := by
    refine publishedStep_goto ?_ rfl fun _ _ h => by cases h
    have hStep : Step counterBlock ⟨counterDriver, pc, committedDelta, serialReplayList⟩ _ :=
      .reExecute _ "b" 1 overlay hPc
    change Step counterBlock _ (goto _ "b"
      (afterReExecute ["k"] (counterBlock.ReExecute 1 overlay))) at hStep
    rw [hResult] at hStep
    exact hStep
  have hExecute : PublishedStep counterBlock
      ⟨counterDriver, pcExecuting, committedDelta, serialReplayList⟩
      ⟨executed, pcMerging, committedDelta, serialReplayList⟩ :=
    publishedStep_goto (.execute _ "b" (incrementCounter value) rfl) rfl fun _ _ h => by cases h
  have hMerge : PublishedStep counterBlock ⟨executed, pcMerging, committedDelta, serialReplayList⟩
      ⟨executed, pcReturning, published, serialReplayList⟩ :=
    publishedStep_goto (.merge _ "b" (incrementCounter value) rfl) rfl fun _ _ h => by cases h
  have hDecrement : PublishedStep counterBlock
      ⟨executed, pcReturning, published, serialReplayList⟩ _ :=
    publishedStep_goto (.decrement _ "b" (some (incrementCounter value)) rfl) rfl
      fun _ _ h => by cases h
  have hExit : Relation.ReflTransGen (Driver.MainStep replayExitTest)
      { executed.setWorker "b" .done with inProgress := 0 }
      { executed.setWorker "b" .done with
        session := executed.session.popReady.popPruneReady
        loop := .exited
        inProgress := 0 } :=
    Driver.run_exit (by decide) rfl (by decide) (by decide) fun read => by cases read <;> decide
  refine ⟨_, ((((Relation.ReflTransGen.single hReExecute).tail hExecute).tail hMerge).tail
    hDecrement).trans (publishedRun_main hExit), rfl, rfl, ?_⟩
  have hFirst : pcReturning "a" = .returned (some setCounter) := hOther
  rw [committedIDs, show addedIDs Session.twoOnOneKey = ["a", "b"] by decide]
  simp [goto, decrements, WorkerPc.committed, hFirst]

/-- The worker of `"a"` publishes and returns. -/
def counterPublishes (r : ReplayState Nat) : ReplayState Nat :=
  ({ r.goto "a" (.returning (some setCounter)) with
    committedDelta := Overlay.merge r.committedDelta setCounter.WriteValues }.decrements "a").goto
    "a" (.returned (some setCounter))

/-- `"b"` takes its overlay between `Execute` and the publication of `"a"`, so its
increment starts from zero: the counter ends at one and not at two. -/
theorem replay_loses_update : ∃ r, Reachable counterBlock Session.twoOnOneKey (fun _ => none) r ∧
      r.driver.loop = .exited ∧ r.committedIDs Session.twoOnOneKey = ["a", "b"] ∧
      r.committedDelta "k" = some 1 ∧
      counterBlock.serial (fun _ => none) (r.committedIDs Session.twoOnOneKey) "k" = some 2 := by
  have hWeaker : PublishedStep counterBlock ≤ Step counterBlock := fun _ _ h => h.1
  have hSnapshot : Reachable counterBlock Session.twoOnOneKey (fun _ => none)
      (counterReleased.goto "b" (.snapshotted 1 (filterOverlayByKeys (fun _ => none) ["k"]))) :=
    (Relation.ReflTransGen.mono hWeaker _ _ run_counterReleased).tail
      (.snapshot counterReleased "b" 1 rfl rfl rfl)
  have hReturned : Reachable counterBlock Session.twoOnOneKey (fun _ => none)
      (counterPublishes (counterReleased.goto "b"
        (.snapshotted 1 (filterOverlayByKeys (fun _ => none) ["k"])))) :=
    (hSnapshot.tail (.merge _ "a" setCounter rfl)).tail (.decrement _ "a" (some setCounter) rfl)
  obtain ⟨r, hRun, hExit, hDelta, hIDs⟩ := run_counterIncrements (counterPublishes
    (counterReleased.goto "b" (.snapshotted 1 (filterOverlayByKeys (fun _ => none) ["k"]))))
    (filterOverlayByKeys (fun _ => none) ["k"]) rfl rfl rfl
  refine ⟨r, hReturned.trans (Relation.ReflTransGen.mono hWeaker _ _ hRun), hExit, hIDs, ?_, ?_⟩
  · rw [hDelta]
    rfl
  · rw [hIDs]
    rfl

/-- When `"b"` takes its overlay after the publication the counter ends at two. -/
theorem replay_serializable_counter : ∃ r, Relation.ReflTransGen (PublishedStep counterBlock)
        (init Session.twoOnOneKey fun _ => none) r ∧
      r.committedDelta = counterBlock.serial (fun _ => none) ["a", "b"] ∧
      r.committedDelta "k" = some 2 := by
  let overlay := filterOverlayByKeys (counterPublishes counterReleased).committedDelta ["k"]
  have hReturned : Relation.ReflTransGen (PublishedStep counterBlock)
      (init Session.twoOnOneKey fun _ => none) (counterPublishes counterReleased) :=
    (run_counterReleased.tail (publishedStep_goto (.merge counterReleased "a" setCounter rfl) rfl
      fun _ _ h => by cases h)).tail
      (publishedStep_goto (.decrement _ "a" (some setCounter) rfl) rfl fun _ _ h => by cases h)
  have hSnapshot : PublishedStep counterBlock (counterPublishes counterReleased)
      ((counterPublishes counterReleased).goto "b" (.snapshotted 1 overlay)) := by
    refine ⟨.snapshot _ "b" 1 rfl rfl rfl, ?_⟩
    intro txID _ _ _ _ other result hOther
    by_cases hne : other = "a"
    · rw [hne, show (counterPublishes counterReleased).pc "a" = .returned (some setCounter)
        from rfl] at hOther
      cases hOther
    · simp [counterPublishes, goto, decrements, counterReleased, counterHandedOver, init,
        hne] at hOther
  obtain ⟨r, hRun, hExit, hDelta, hIDs⟩ := run_counterIncrements
    ((counterPublishes counterReleased).goto "b" (.snapshotted 1 overlay)) overlay rfl rfl rfl
  have hSerial := replay_serializable counterBlock Session.twoOnOneKey (by decide)
    (fun _ => none) r ((hReturned.tail hSnapshot).trans hRun) hExit
  rw [hIDs] at hSerial
  refine ⟨r, (hReturned.tail hSnapshot).trans hRun, hSerial, ?_⟩
  rw [hDelta]
  rfl

end ReplayState
end Nezha
