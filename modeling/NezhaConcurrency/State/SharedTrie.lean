import NezhaConcurrency.Library.Overlay

/-! The shared-trie mode of Vegeta. All workers view one account trie. A worker
loads an account into a private object when its transaction first touches it,
executes on the objects, and writes every dirty account back as a whole. What
another worker wrote to the account in between is then overwritten, although
conflicts are tracked for each slot. -/
namespace Nezha

open Function List

/-- Addresses and slots are numbers; nothing here depends on their width. -/
abbrev Address := Nat

abbrev Hash := Nat

structure Account where
  Nonce : Nat
  Balance : Nat
  storage : Hash → Hash
  code : List UInt8

abbrev SharedTrie := Address → Option Account

/-- A dirty object when its transaction ends. A created object starts with an
empty storage, whatever was there before. -/
structure stateObject where
  Nonce : Nat
  Balance : Nat
  code : List UInt8
  pendingStorage : List (Hash × Hash)
  created : Bool
  suicided : Bool

/-- A slot as a fresh object reads it. -/
def GetState (account : Option Account) (slot : Hash) : Hash :=
  (account.map fun acc => acc.storage slot).getD 0

/-- The account that is written back, over the one that the object was loaded from. -/
def stateObject.flush (obj : stateObject) (loaded : Option Account) : Option Account :=
  if obj.suicided then none
  else some
    { Nonce := obj.Nonce
      Balance := obj.Balance
      storage := Overlay.overlaid (if obj.created then fun _ => 0 else GetState loaded)
        (Overlay.merge (fun _ => none) obj.pendingStorage)
      code := obj.code }

/-- A slot that an object wrote has the same value over every account. -/
theorem GetState_flush_of_mem (obj : stateObject) (loaded loaded' : Option Account) {slot : Hash}
    (h : slot ∈ Overlay.keys obj.pendingStorage) :
    GetState (obj.flush loaded) slot = GetState (obj.flush loaded') slot := by
  unfold stateObject.flush
  split
  · rfl
  · simp only [GetState, Option.map_some, Option.getD_some, Overlay.overlaid]
    cases hMerge : Overlay.merge (fun _ => none) obj.pendingStorage slot with
    | none => exact absurd hMerge (Overlay.merge_ne_none h)
    | some value => rfl

theorem GetState_flush_of_not_mem {obj : stateObject} (loaded : Option Account) {slot : Hash}
    (h : slot ∉ Overlay.keys obj.pendingStorage) (hCreated : obj.created = false)
    (hSuicided : obj.suicided = false) : GetState (obj.flush loaded) slot = GetState loaded slot := by
  unfold stateObject.flush
  rw [hCreated, hSuicided]
  simp only [Bool.false_eq_true, if_false, GetState, Option.map_some, Option.getD_some,
    Overlay.overlaid, Overlay.merge_of_not_mem _ _ h, Option.getD_none]

/-- What `ReExecuteCommit` leaves behind: the captured slot keys and the dirty
objects, one for each address. -/
structure SharedResult where
  RealReadKeys : List (Address × Hash)
  RealWriteKeys : List (Address × Hash)
  stateObjects : List (Address × stateObject)
  nodup : (stateObjects.map Prod.fst).Nodup

/-- A transaction loads one account after the other and ends with its dirty objects. -/
abbrev SharedTx := Overlay.Program Address (Option Account) SharedResult

/-- The transactions of a batch, and their speculative sets. A transaction that
`txIDToIdx` does not know has no program. -/
structure SharedBatch where
  batch : List String
  txs : String → Option SharedTx
  blockRS : String → List (Address × Hash)
  blockWS : String → List (Address × Hash)

/-- The real keys are inside the speculative sets. -/
def SharedBatch.matches (batch : SharedBatch) (txID : String) (result : SharedResult) : Bool :=
  result.RealReadKeys.all (· ∈ batch.blockRS txID) &&
    result.RealWriteKeys.all (· ∈ batch.blockWS txID)

/-- No two transactions of the batch conflict in their speculative sets. -/
def SharedBatch.Disjoint (batch : SharedBatch) : Prop :=
  ∀ t ∈ batch.batch, ∀ u ∈ batch.batch, t ≠ u → ∀ key ∈ batch.blockWS t,
    key ∉ batch.blockWS u ∧ key ∉ batch.blockRS u

/-- Where the worker of a transaction stands. `objects` are the accounts as they
were loaded, `pending` are the objects still to be written back. -/
inductive SharedPc where
  | waiting
  | running (objects : List (Address × Option Account)) (rest : SharedTx)
  | flushing (objects : List (Address × Option Account)) (result : SharedResult)
      (pending : List (Address × stateObject))
  | committed (result : SharedResult)
  | aborted

structure SharedState where
  trie : SharedTrie
  pc : String → SharedPc

namespace SharedState

def goto (s : SharedState) (txID : String) (pc : SharedPc) : SharedState :=
  { s with pc := update s.pc txID pc }

/-- The object cache of a worker. -/
def cached (objects : List (Address × Option Account)) (addr : Address) : Option (Option Account) :=
  objects.lookup addr

/-- The account that the object of `addr` was loaded from. -/
def loadedFrom (objects : List (Address × Option Account)) (addr : Address) : Option Account :=
  (cached objects addr).getD none

/-- The atomic steps of the worker that runs `txID`. -/
inductive Step (batch : SharedBatch) : SharedState → SharedState → Prop where
  | noContext (s : SharedState) (txID : String) (hIn : txID ∈ batch.batch)
      (hPc : s.pc txID = .waiting) (hTx : batch.txs txID = none) :
      Step batch s (s.goto txID .aborted)
  | reset (s : SharedState) (txID : String) (tx : SharedTx) (hIn : txID ∈ batch.batch)
      (hPc : s.pc txID = .waiting) (hTx : batch.txs txID = some tx) :
      Step batch s (s.goto txID (.running [] tx))
  | load (s : SharedState) (txID : String) (objects : List (Address × Option Account))
      (addr : Address) (next : Option Account → SharedTx)
      (hPc : s.pc txID = .running objects (.read addr next)) (hNew : cached objects addr = none) :
      Step batch s (s.goto txID (.running ((addr, s.trie addr) :: objects) (next (s.trie addr))))
  | touch (s : SharedState) (txID : String) (objects : List (Address × Option Account))
      (addr : Address) (next : Option Account → SharedTx) (account : Option Account)
      (hPc : s.pc txID = .running objects (.read addr next))
      (hOld : cached objects addr = some account) :
      Step batch s (s.goto txID (.running objects (next account)))
  | revert (s : SharedState) (txID : String) (objects : List (Address × Option Account))
      (result : SharedResult) (hPc : s.pc txID = .running objects (.done result))
      (hMatch : batch.matches txID result = false) :
      Step batch s (s.goto txID .aborted)
  | flushError (s : SharedState) (txID : String) (objects : List (Address × Option Account))
      (result : SharedResult) (hPc : s.pc txID = .running objects (.done result)) :
      Step batch s (s.goto txID .aborted)
  | finalise (s : SharedState) (txID : String) (objects : List (Address × Option Account))
      (result : SharedResult) (hPc : s.pc txID = .running objects (.done result))
      (hMatch : batch.matches txID result = true) :
      Step batch s (s.goto txID (.flushing objects result result.stateObjects))
  | write (s : SharedState) (txID : String) (objects : List (Address × Option Account))
      (result : SharedResult) (before after : List (Address × stateObject)) (addr : Address)
      (obj : stateObject)
      (hPc : s.pc txID = .flushing objects result (before ++ (addr, obj) :: after)) :
      Step batch s
        { s.goto txID (.flushing objects result (before ++ after)) with
          trie := update s.trie addr (obj.flush (loadedFrom objects addr)) }
  | commit (s : SharedState) (txID : String) (objects : List (Address × Option Account))
      (result : SharedResult) (hPc : s.pc txID = .flushing objects result []) :
      Step batch s (s.goto txID (.committed result))

/-- The result of a transaction that has begun to write back, and what is left to write. -/
def flushed : SharedPc → Option (SharedResult × List (Address × stateObject))
  | .flushing _ result pending => some (result, pending)
  | .committed result => some (result, [])
  | _ => none

/-- An object of `txID` that has been written back. -/
def Written (s : SharedState) (txID : String) (addr : Address) (obj : stateObject) : Prop :=
  ∃ result pending, flushed (s.pc txID) = some (result, pending) ∧
    (addr, obj) ∈ result.stateObjects ∧ (addr, obj) ∉ pending

theorem Written.ne_waiting {s : SharedState} {txID : String} {addr : Address} {obj : stateObject}
    (h : s.Written txID addr obj) : s.pc txID ≠ .waiting := by
  obtain ⟨_, _, hFlushed, _⟩ := h
  intro hPc
  rw [hPc] at hFlushed
  cases hFlushed

/-- When an object is written back the account is still the one it was loaded
from, all its writes were captured, and an account is deleted or made anew only if
no other transaction of the batch has written to its storage. -/
def Clear (s s' : SharedState) : Prop :=
  ∀ txID objects result before after addr obj,
    s.pc txID = .flushing objects result (before ++ (addr, obj) :: after) →
    s'.pc txID = .flushing objects result (before ++ after) →
      s.trie addr = loadedFrom objects addr ∧
      (∀ slot ∈ Overlay.keys obj.pendingStorage, (addr, slot) ∈ result.RealWriteKeys) ∧
      ((obj.created || obj.suicided) = true → ∀ other obj', other ≠ txID →
        s.Written other addr obj' → obj'.pendingStorage = [])

/-- The write-backs so far are all in the trie. -/
structure Kept (batch : SharedBatch) (s : SharedState) : Prop where
  member : ∀ txID, s.pc txID ≠ .waiting → txID ∈ batch.batch
  flushed : ∀ txID result pending, flushed (s.pc txID) = some (result, pending) →
    batch.matches txID result = true ∧ pending.Sublist result.stateObjects
  captured : ∀ txID addr obj, s.Written txID addr obj →
    ∀ slot ∈ Overlay.keys obj.pendingStorage, (addr, slot) ∈ batch.blockWS txID
  kept : ∀ txID addr obj, s.Written txID addr obj → ∀ slot ∈ Overlay.keys obj.pendingStorage,
    GetState (s.trie addr) slot = GetState (obj.flush none) slot

variable {batch : SharedBatch} {s s' : SharedState}

theorem Kept.goto (kept : Kept batch s) {txID : String} (hIn : txID ∈ batch.batch) {pc : SharedPc}
    (hFlushed : ∀ result pending, SharedState.flushed pc = some (result, pending) →
      batch.matches txID result = true ∧ pending.Sublist result.stateObjects ∧
      (SharedState.flushed (s.pc txID) = some (result, pending) ∨ pending = result.stateObjects)) :
    Kept batch (s.goto txID pc) := by
  have hOther : ∀ other, other ≠ txID → (s.goto txID pc).pc other = s.pc other :=
    fun other hne => update_of_ne hne _ _
  have hSelf : (s.goto txID pc).pc txID = pc := update_self _ _ _
  have hWritten : ∀ other addr obj, (s.goto txID pc).Written other addr obj →
      s.Written other addr obj := by
    rintro other addr obj ⟨result, pending, hPc, hObj, hPending⟩
    by_cases hne : other = txID
    · subst hne
      rw [hSelf] at hPc
      rcases (hFlushed result pending hPc).2.2 with hOld | hAll
      · exact ⟨result, pending, hOld, hObj, hPending⟩
      · exact absurd (hAll ▸ hObj) hPending
    · rw [hOther other hne] at hPc
      exact ⟨result, pending, hPc, hObj, hPending⟩
  refine ⟨fun other hPc => ?_, fun other result pending hPc => ?_,
    fun other addr obj h => kept.captured other addr obj (hWritten other addr obj h),
    fun other addr obj h => kept.kept other addr obj (hWritten other addr obj h)⟩
  · by_cases hne : other = txID
    · exact hne ▸ hIn
    · exact kept.member other (hOther other hne ▸ hPc)
  · by_cases hne : other = txID
    · subst hne
      rw [hSelf] at hPc
      exact ⟨(hFlushed result pending hPc).1, (hFlushed result pending hPc).2.1⟩
    · exact kept.flushed other result pending (hOther other hne ▸ hPc)

/-- Writing an object back keeps what the other transactions wrote. -/
theorem Kept.write (hDisjoint : batch.Disjoint) (kept : Kept batch s) {txID : String}
    {objects : List (Address × Option Account)} {result : SharedResult}
    {before after : List (Address × stateObject)} {addr : Address} {obj : stateObject}
    (hPc : s.pc txID = .flushing objects result (before ++ (addr, obj) :: after))
    (hSame : s.trie addr = loadedFrom objects addr)
    (hCaptured : ∀ slot ∈ Overlay.keys obj.pendingStorage, (addr, slot) ∈ result.RealWriteKeys)
    (hAnew : (obj.created || obj.suicided) = true → ∀ other obj', other ≠ txID →
      s.Written other addr obj' → obj'.pendingStorage = []) :
    Kept batch { s.goto txID (.flushing objects result (before ++ after)) with
      trie := update s.trie addr (obj.flush (loadedFrom objects addr)) } := by
  have hIn : txID ∈ batch.batch := kept.member txID (by simp [hPc])
  obtain ⟨hMatches, hSublist⟩ := kept.flushed txID result _ (by rw [hPc]; rfl)
  have hWS : ∀ slot ∈ Overlay.keys obj.pendingStorage, (addr, slot) ∈ batch.blockWS txID := by
    intro slot hSlot
    have hAll := (Bool.and_eq_true_iff.mp hMatches).2
    simpa using all_eq_true.mp hAll _ (hCaptured slot hSlot)
  have hNodup : (before ++ (addr, obj) :: after).Nodup :=
    (List.Nodup.of_map _ result.nodup).sublist hSublist
  generalize hNext : ({ s.goto txID (.flushing objects result (before ++ after)) with
    trie := update s.trie addr (obj.flush (loadedFrom objects addr)) } : SharedState) = next
  have hTrie : next.trie = update s.trie addr (obj.flush (loadedFrom objects addr)) := by
    rw [← hNext]
  have hSelf : next.pc txID = .flushing objects result (before ++ after) := by
    rw [← hNext]
    exact update_self _ _ _
  have hOther : ∀ other, other ≠ txID → next.pc other = s.pc other := by
    intro other hne
    rw [← hNext]
    exact update_of_ne hne _ _
  -- What is written in the next state was written before, or is the object itself.
  have hWritten : ∀ other addr' obj', next.Written other addr' obj' →
      other = txID ∧ (addr', obj') = (addr, obj) ∨
        s.Written other addr' obj' ∧ (other = txID → addr' ≠ addr) := by
    rintro other addr' obj' ⟨result', pending, hFlushed, hObj, hPending⟩
    by_cases hne : other = txID
    · subst hne
      rw [hSelf] at hFlushed
      obtain ⟨rfl, rfl⟩ := Prod.mk.inj (Option.some.inj hFlushed)
      by_cases hEq : (addr', obj') = (addr, obj)
      · exact Or.inl ⟨rfl, hEq⟩
      · refine Or.inr ⟨⟨result, _, by rw [hPc]; rfl, hObj, fun hm => ?_⟩, fun _ hAddr => hEq ?_⟩
        · rcases mem_append.mp hm with hm | hm
          · exact hPending (mem_append_left _ hm)
          · exact hPending (mem_append_right _ ((mem_cons.mp hm).resolve_left hEq))
        · have hCurrent : (addr, obj) ∈ result.stateObjects := hSublist.mem (by simp)
          exact inj_on_of_nodup_map result.nodup hObj hCurrent hAddr
    · rw [hOther other hne] at hFlushed
      exact Or.inr ⟨⟨result', pending, hFlushed, hObj, hPending⟩, fun h => absurd h hne⟩
  refine ⟨fun other hWaiting => ?_, fun other result' pending hFlushed => ?_,
    fun other addr' obj' hObj slot hSlot => ?_, fun other addr' obj' hObj slot hSlot => ?_⟩
  · by_cases hne : other = txID
    · exact hne ▸ hIn
    · exact kept.member other (hOther other hne ▸ hWaiting)
  · by_cases hne : other = txID
    · subst hne
      rw [hSelf] at hFlushed
      obtain ⟨rfl, rfl⟩ := Prod.mk.inj (Option.some.inj hFlushed)
      refine ⟨hMatches, List.Sublist.trans ?_ hSublist⟩
      exact (List.Sublist.refl _).append (sublist_cons_self _ _)
    · exact kept.flushed other result' pending (hOther other hne ▸ hFlushed)
  · rcases hWritten other addr' obj' hObj with ⟨rfl, hEq⟩ | ⟨hOld, _⟩
    · cases hEq
      exact hWS slot hSlot
    · exact kept.captured other addr' obj' hOld slot hSlot
  · rw [hTrie]
    rcases hWritten other addr' obj' hObj with ⟨rfl, hEq⟩ | ⟨hOld, hAddr⟩
    · cases hEq
      rw [update_self]
      exact GetState_flush_of_mem _ _ _ hSlot
    · have hValue := kept.kept other addr' obj' hOld slot hSlot
      by_cases hSameAddr : addr' = addr
      · subst hSameAddr
        have hne : other ≠ txID := fun h => hAddr h rfl
        rw [update_self, ← hSame]
        have hOtherIn := kept.member other hOld.ne_waiting
        have hSlotOther := kept.captured other addr' obj' hOld slot hSlot
        have hFree : slot ∉ Overlay.keys obj.pendingStorage := fun hm =>
          (hDisjoint other hOtherIn txID hIn hne _ hSlotOther).1 (hWS slot hm)
        have hOrdinary : (obj.created || obj.suicided) = false := by
          refine Bool.of_not_eq_true fun h => ?_
          rw [hAnew h other obj' hne hOld] at hSlot
          exact absurd hSlot not_mem_nil
        rw [Bool.or_eq_false_iff] at hOrdinary
        rw [GetState_flush_of_not_mem _ hFree hOrdinary.1 hOrdinary.2]
        exact hValue
      · rw [update_of_ne hSameAddr]
        exact hValue

theorem Kept.step (hDisjoint : batch.Disjoint) (kept : Kept batch s) (hStep : Step batch s s')
    (hClear : Clear s s') : Kept batch s' := by
  have hNothing : ∀ (txID : String) (pc : SharedPc), SharedState.flushed pc = none →
      ∀ result pending, SharedState.flushed pc = some (result, pending) →
        batch.matches txID result = true ∧ pending.Sublist result.stateObjects ∧
        (SharedState.flushed (s.pc txID) = some (result, pending) ∨
          pending = result.stateObjects) := by
    intro txID pc hNone result pending hSome
    rw [hNone] at hSome
    cases hSome
  cases hStep with
  | noContext txID hIn hPc _ => exact kept.goto hIn (hNothing txID _ rfl)
  | reset txID tx hIn hPc _ => exact kept.goto hIn (hNothing txID _ rfl)
  | load txID objects addr next hPc _ =>
    exact kept.goto (kept.member txID (by simp [hPc])) (hNothing txID _ rfl)
  | touch txID objects addr next account hPc _ =>
    exact kept.goto (kept.member txID (by simp [hPc])) (hNothing txID _ rfl)
  | revert txID objects result hPc _ =>
    exact kept.goto (kept.member txID (by simp [hPc])) (hNothing txID _ rfl)
  | flushError txID objects result hPc =>
    exact kept.goto (kept.member txID (by simp [hPc])) (hNothing txID _ rfl)
  | finalise txID objects result hPc hMatch =>
    refine kept.goto (kept.member txID (by simp [hPc])) fun result' pending hFlushed => ?_
    obtain ⟨rfl, rfl⟩ := Prod.mk.inj (Option.some.inj hFlushed)
    exact ⟨hMatch, List.Sublist.refl _, Or.inr rfl⟩
  | write txID objects result before after addr obj hPc =>
    obtain ⟨hSame, hCaptured, hAnew⟩ :=
      hClear txID objects result before after addr obj hPc (update_self _ _ _)
    exact kept.write hDisjoint hPc hSame hCaptured hAnew
  | commit txID objects result hPc =>
    refine kept.goto (kept.member txID (by simp [hPc])) fun result' pending hFlushed => ?_
    obtain ⟨rfl, rfl⟩ := Prod.mk.inj (Option.some.inj hFlushed)
    have hOld : SharedState.flushed (s.pc txID) = some (result, []) := by
      rw [hPc]
      rfl
    obtain ⟨hMatch, hSublist⟩ := kept.flushed txID result [] hOld
    exact ⟨hMatch, hSublist, Or.inl hOld⟩

def init (trie : SharedTrie) : SharedState := ⟨trie, fun _ => .waiting⟩

theorem kept_init (trie : SharedTrie) : Kept batch (init trie) := by
  have hNone : ∀ txID addr obj, ¬ (init trie).Written txID addr obj :=
    fun txID addr obj h => h.ne_waiting rfl
  refine ⟨fun txID h => absurd rfl h, fun txID result pending h => ?_,
    fun txID addr obj h => absurd h (hNone txID addr obj),
    fun txID addr obj h => absurd h (hNone txID addr obj)⟩
  cases h

theorem kept_of_run (hDisjoint : batch.Disjoint) {trie : SharedTrie}
    (run : Relation.ReflTransGen (fun s s' => Step batch s s' ∧ Clear s s') (init trie) s) :
    Kept batch s := by
  induction run with
  | refl => exact kept_init trie
  | tail _ hStep ih => exact ih.step hDisjoint hStep.1 hStep.2

/-- In every run whose write-backs are all clear, every slot that a committed
transaction wrote has the value it wrote. -/
theorem shared_trie_loses_no_update (hDisjoint : batch.Disjoint) {trie : SharedTrie}
    (run : Relation.ReflTransGen (fun s s' => Step batch s s' ∧ Clear s s') (init trie) s)
    {txID : String} {result : SharedResult} (hCommitted : s.pc txID = .committed result)
    {addr : Address} {obj : stateObject} (hObj : (addr, obj) ∈ result.stateObjects) {slot : Hash}
    (hSlot : slot ∈ Overlay.keys obj.pendingStorage) :
    GetState (s.trie addr) slot = GetState (obj.flush none) slot := by
  have hFlushed : flushed (s.pc txID) = some (result, []) := by
    rw [hCommitted]
    rfl
  exact (kept_of_run hDisjoint run).kept txID addr obj ⟨result, [], hFlushed, hObj,
    not_mem_nil⟩ slot hSlot

section Example

/-- The object after one write to an account with an empty record. -/
def oneWrite (slot value : Hash) : stateObject := ⟨0, 0, [], [(slot, value)], false, false⟩

def oneWriteResult (slot value : Hash) : SharedResult :=
  ⟨[], [(0, slot)], [(0, oneWrite slot value)], by simp⟩

/-- Transactions `a` and `b` write slots 1 and 2 of account 0. -/
def twoSlots : SharedBatch where
  batch := ["a", "b"]
  txs := fun txID => if txID = "a" then some (.read 0 fun _ => .done (oneWriteResult 1 7))
    else some (.read 0 fun _ => .done (oneWriteResult 2 8))
  blockRS := fun _ => []
  blockWS := fun txID => if txID = "a" then [(0, 1)] else [(0, 2)]

theorem disjoint_twoSlots : twoSlots.Disjoint := by
  unfold SharedBatch.Disjoint
  decide

def emptyTrie : SharedTrie := fun _ => none

/-- Both transactions load the account before either writes it back. -/
theorem shared_trie_loses_update :
    twoSlots.Disjoint ∧ ∃ s, Relation.ReflTransGen (Step twoSlots) (init emptyTrie) s ∧
      s.pc "a" = .committed (oneWriteResult 1 7) ∧ s.pc "b" = .committed (oneWriteResult 2 8) ∧
      GetState (s.trie 0) 1 = 0 := by
  have start : Relation.ReflTransGen (Step twoSlots) (init emptyTrie) (init emptyTrie) := .refl
  have resets := (start.tail (.reset _ "a" _ (by decide) rfl rfl)).tail
    (.reset _ "b" _ (by decide) rfl rfl)
  have loads := (resets.tail (.load _ "a" [] 0 (fun _ => .done (oneWriteResult 1 7)) rfl rfl)).tail
    (.load _ "b" [] 0 (fun _ => .done (oneWriteResult 2 8)) rfl rfl)
  have finalised := (loads.tail (.finalise _ "a" _ (oneWriteResult 1 7) rfl (by decide))).tail
    (.finalise _ "b" _ (oneWriteResult 2 8) rfl (by decide))
  have writes := (finalised.tail (.write _ "a" _ (oneWriteResult 1 7) [] [] 0 _ rfl)).tail
    (.write _ "b" _ (oneWriteResult 2 8) [] [] 0 _ rfl)
  have commits := (writes.tail (.commit _ "a" _ (oneWriteResult 1 7) rfl)).tail
    (.commit _ "b" _ (oneWriteResult 2 8) rfl)
  exact ⟨disjoint_twoSlots, _, commits, rfl, rfl, rfl⟩

/-- A step of `txID` is clear when its own write-back is. -/
theorem clear_of_own {txID : String} (hOther : ∀ other, other ≠ txID → s'.pc other = s.pc other)
    (hOwn : ∀ objects result before after addr obj,
      s.pc txID = .flushing objects result (before ++ (addr, obj) :: after) →
      s.trie addr = loadedFrom objects addr ∧
        (∀ slot ∈ Overlay.keys obj.pendingStorage, (addr, slot) ∈ result.RealWriteKeys) ∧
        (obj.created || obj.suicided) = false) : Clear s s' := by
  intro other objects result before after addr obj hOld hNew
  by_cases hne : other = txID
  · subst hne
    obtain ⟨hSame, hCaptured, hOrdinary⟩ := hOwn objects result before after addr obj hOld
    refine ⟨hSame, hCaptured, fun h => ?_⟩
    rw [hOrdinary] at h
    cases h
  · rw [hOther other hne, hOld] at hNew
    injection hNew with _ _ hPending
    simpa using congrArg List.length hPending

theorem run_alone {txID : String} {slot value : Hash} (hIn : txID ∈ twoSlots.batch)
    (hPc : s.pc txID = .waiting)
    (hTx : twoSlots.txs txID = some (.read 0 fun _ => .done (oneWriteResult slot value)))
    (hMatch : twoSlots.matches txID (oneWriteResult slot value) = true)
    (run : Relation.ReflTransGen (fun s s' => Step twoSlots s s' ∧ Clear s s') (init emptyTrie) s) :
    ∃ s', Relation.ReflTransGen (fun s s' => Step twoSlots s s' ∧ Clear s s') (init emptyTrie) s' ∧
      s'.pc txID = .committed (oneWriteResult slot value) ∧
      ∀ other, other ≠ txID → s'.pc other = s.pc other := by
  have hSelf : ∀ (s : SharedState) pc, (s.goto txID pc).pc txID = pc :=
    fun s pc => update_self _ _ _
  have hOther : ∀ (s : SharedState) pc other, other ≠ txID →
      (s.goto txID pc).pc other = s.pc other :=
    fun s pc other hne => update_of_ne hne _ _
  have reset := run.tail ⟨.reset s txID _ hIn hPc hTx,
    clear_of_own (hOther _ _) fun _ _ _ _ _ _ h => by rw [hPc] at h; cases h⟩
  have load := reset.tail ⟨.load _ txID [] 0 _ (hSelf _ _) rfl,
    clear_of_own (hOther _ _) fun _ _ _ _ _ _ h => by rw [hSelf] at h; cases h⟩
  have finalised := load.tail ⟨.finalise _ txID _ (oneWriteResult slot value) (hSelf _ _) hMatch,
    clear_of_own (hOther _ _) fun _ _ _ _ _ _ h => by rw [hSelf] at h; cases h⟩
  have written := finalised.tail ⟨.write _ txID _ (oneWriteResult slot value) [] [] 0
    (oneWrite slot value) (hSelf _ _), clear_of_own (hOther _ _) fun _ _ before _ addr obj h => by
      rw [hSelf] at h
      injection h with hObjects hResult hPending
      subst hObjects
      subst hResult
      cases before with
      | cons _ before => simpa [oneWriteResult] using congrArg List.length hPending
      | nil =>
        injection hPending with hFirst _
        cases hFirst
        exact ⟨rfl, by simp [oneWriteResult, oneWrite, Overlay.keys], rfl⟩⟩
  have committed := written.tail ⟨.commit _ txID _ (oneWriteResult slot value) (hSelf _ _),
    clear_of_own (hOther _ _) fun _ _ before _ _ _ h => by
      have hNone := h.symm.trans (hSelf _ _)
      injection hNone with _ _ hPending
      simpa using congrArg List.length hPending⟩
  refine ⟨_, committed, hSelf _ _, fun other hne => ?_⟩
  simp only [hOther _ _ other hne]

/-- When `b` starts after `a` has committed, both writes stay. -/
theorem shared_trie_keeps_twoSlots : ∃ s : SharedState, s.pc "a" = .committed (oneWriteResult 1 7) ∧
      s.pc "b" = .committed (oneWriteResult 2 8) ∧
      GetState (s.trie 0) 1 = 7 ∧ GetState (s.trie 0) 2 = 8 := by
  obtain ⟨s₁, run₁, ha, hOther⟩ := run_alone (show "a" ∈ twoSlots.batch by decide) rfl rfl (by decide) .refl
  obtain ⟨s₂, run₂, hb, hLater⟩ := run_alone (by decide) (hOther "b" (by decide)) rfl (by decide) run₁
  have ha' : s₂.pc "a" = .committed (oneWriteResult 1 7) := (hLater "a" (by decide)).trans ha
  exact ⟨s₂, ha', hb,
    shared_trie_loses_no_update disjoint_twoSlots run₂ ha' mem_cons_self mem_cons_self,
    shared_trie_loses_no_update disjoint_twoSlots run₂ hb mem_cons_self mem_cons_self⟩

end Example

end SharedState

end Nezha
