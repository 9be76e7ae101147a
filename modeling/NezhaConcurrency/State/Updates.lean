import NezhaConcurrency.State.StateDB

/-! Runs of updates on a state database. What is known of the object of an address, and of
its dirty count, after any updates of balances, nonces, codes and slots: an object that no
journal entry makes dirty has the account of the trie, or was made anew over it. -/
namespace Nezha.State

open Function

variable {Root CodeHash : Type}

/-- Every access to a trie succeeds. -/
def noFaults : Faults := ⟨fun _ _ => false, fun _ => false⟩

/-! ### Objects -/

section Objects

variable [DecidableEq CodeHash]

/-- An object of an account whose storage trie holds these slots. `written` are the slots
that were written since. The original value of a slot that is written is always loaded. -/
structure Coherent (hashing : Hashing Root CodeHash) (shared : Shared Root CodeHash)
    (slots : Slots) (written : Storage) (obj : stateObject Root CodeHash) : Prop where
  root : shared.nodes obj.data.Root = some slots
  trie : ∀ opened, obj.trie = some opened → opened = slots
  origin : ∀ key value, obj.originStorage.lookup key = some value → value = slots key
  loaded : ∀ key value, written.lookup key = some value →
    obj.originStorage.lookup key = some (slots key)
  code : ∀ code, obj.code = some code → if obj.dirtyCode then
    obj.data.CodeHash = hashing.keccak256 code else
      readCode hashing shared obj.data.CodeHash = some code
  alive : obj.deleted = false
  notSuicided : obj.suicided = false

variable {hashing : Hashing Root CodeHash} {shared : Shared Root CodeHash} {slots : Slots}
  {written : Storage} {obj : stateObject Root CodeHash} {addr : Address} {key : Hash}

theorem Coherent.newObject {data : Account Root CodeHash}
    (h : shared.nodes data.Root = some slots) :
    Coherent hashing shared slots ∅ (newObject data) :=
  ⟨h, nofun, nofun, nofun, nofun, rfl, rfl⟩

theorem Coherent.getTrie (h : Coherent hashing shared slots written obj) :
    obj.getTrie shared = { obj with trie := some slots } := by
  unfold stateObject.getTrie
  cases hTrie : obj.trie with
  | none =>
    dsimp only
    rw [h.root]
  | some opened =>
    obtain rfl := h.trie opened hTrie
    dsimp only
    rw [← hTrie]

/-- What reading a slot returns, and what it leaves as it is. -/
structure ReadsSlot (hashing : Hashing Root CodeHash) (shared : Shared Root CodeHash)
    (slots : Slots) (key : Hash) (obj : stateObject Root CodeHash)
    (result : Hash × stateObject Root CodeHash) : Prop where
  value : result.1 = (obj.dirtyStorage.lookup key).getD (slots key)
  coherent : Coherent hashing shared slots obj.dirtyStorage result.2
  loaded : result.2.originStorage.lookup key = some (slots key)
  data : result.2.data = obj.data
  dirty : result.2.dirtyStorage = obj.dirtyStorage
  pending : result.2.pendingStorage = obj.pendingStorage
  code : result.2.code = obj.code
  dirtyCode : result.2.dirtyCode = obj.dirtyCode

theorem Coherent.readsSlot (h : Coherent hashing shared slots obj.dirtyStorage obj)
    (hPending : obj.pendingStorage = ∅) (addr : Address) (key : Hash) :
    ReadsSlot hashing shared slots key obj (obj.GetState shared noFaults addr key) := by
  unfold stateObject.GetState
  cases hDirty : obj.dirtyStorage.lookup key with
  | some value => exact ⟨by rw [hDirty]; rfl, h, h.loaded key value hDirty, rfl, rfl, rfl, rfl, rfl⟩
  | none =>
    dsimp only
    unfold stateObject.GetCommittedState
    rw [hPending]
    cases hOrigin : obj.originStorage.lookup key with
    | some value =>
      have hValue := h.origin key value hOrigin
      refine ⟨?_, h, ?_, rfl, rfl, rfl, rfl, rfl⟩
      · rw [hDirty]
        exact hValue
      · rw [← hValue]
        exact hOrigin
    | none =>
      change ReadsSlot hashing shared slots key obj ((obj.getTrie shared).slots key,
        { obj.getTrie shared with originStorage := _ })
      rw [h.getTrie]
      refine ⟨by rw [hDirty]; rfl, ?_, AList.lookup_insert _, rfl, rfl, rfl, rfl, rfl⟩
      refine ⟨h.root, ?_, ?_, ?_, h.code, h.alive, h.notSuicided⟩
      · rintro opened hOpened
        cases hOpened
        rfl
      · intro other value hValue
        by_cases hKey : other = key
        · subst hKey
          rw [AList.lookup_insert] at hValue
          cases hValue
          rfl
        · rw [AList.lookup_insert_ne hKey] at hValue
          exact h.origin other value hValue
      · intro other value hValue
        by_cases hKey : other = key
        · subst hKey
          exact AList.lookup_insert _
        · rw [AList.lookup_insert_ne hKey]
          exact h.loaded other value hValue

/-- What loading the code leaves as it is. -/
structure LoadsCode (hashing : Hashing Root CodeHash) (shared : Shared Root CodeHash)
    (slots : Slots) (obj loaded : stateObject Root CodeHash) : Prop where
  coherent : Coherent hashing shared slots obj.dirtyStorage loaded
  data : loaded.data = obj.data
  dirty : loaded.dirtyStorage = obj.dirtyStorage
  pending : loaded.pendingStorage = obj.pendingStorage
  codeSet : obj.code ≠ none → loaded.code ≠ none
  dirtyCode : loaded.dirtyCode = obj.dirtyCode

theorem Coherent.loadsCode (h : Coherent hashing shared slots obj.dirtyStorage obj)
    (hDirty : obj.dirtyCode = true → obj.code ≠ none) :
    LoadsCode hashing shared slots obj (obj.Code hashing shared).2 := by
  unfold stateObject.Code
  cases hCode : obj.code with
  | some code => exact ⟨h, rfl, rfl, rfl, fun _ => by simp [hCode], rfl⟩
  | none =>
    dsimp only
    split_ifs with hEmpty
    · exact ⟨h, rfl, rfl, rfl, (absurd hCode ·), rfl⟩
    · cases hTable : shared.codes obj.data.CodeHash with
      | none => exact ⟨⟨h.root, h.trie, h.origin, h.loaded, h.code, h.alive, h.notSuicided⟩,
          rfl, rfl, rfl, (absurd hCode ·), rfl⟩
      | some code =>
        refine ⟨⟨h.root, h.trie, h.origin, h.loaded, ?_, h.alive, h.notSuicided⟩,
          rfl, rfl, rfl, fun _ => nofun, rfl⟩
        intro loaded hLoaded
        cases hLoaded
        have hClean : obj.dirtyCode = false :=
          Bool.eq_false_of_not_eq_true fun hSet => hDirty hSet hCode
        simp [hClean, readCode, hEmpty, hTable]

end Objects

/-! ### Updates -/

section Touches

variable {addr : Address} {s s' s'' : StateDB Root CodeHash}

/-- A step changes the object and the count of one address only. -/
structure Touches (addr : Address) (s s' : StateDB Root CodeHash) : Prop where
  objects : ∀ other, other ≠ addr → s'.stateObjects other = s.stateObjects other
  dirties : ∀ other, other ≠ addr → s'.dirties other = s.dirties other
  pending : s'.stateObjectsPending = s.stateObjectsPending
  dirtySet : s'.stateObjectsDirty = s.stateObjectsDirty

theorem Touches.refl (addr : Address) (s : StateDB Root CodeHash) : Touches addr s s :=
  ⟨fun _ _ => rfl, fun _ _ => rfl, rfl, rfl⟩

theorem Touches.trans (h : Touches addr s s') (h' : Touches addr s' s'') : Touches addr s s'' where
  objects other hOther := (h'.objects other hOther).trans (h.objects other hOther)
  dirties other hOther := (h'.dirties other hOther).trans (h.dirties other hOther)
  pending := h'.pending.trans h.pending
  dirtySet := h'.dirtySet.trans h.dirtySet

theorem touches_setStateObject (s : StateDB Root CodeHash) (addr : Address)
    (obj : stateObject Root CodeHash) : Touches addr s (s.setStateObject addr obj) :=
  ⟨fun _ hOther => update_of_ne hOther .., fun _ _ => rfl, rfl, rfl⟩

theorem touches_dirty (s : StateDB Root CodeHash) (addr : Address) :
    Touches addr s (s.dirty addr) :=
  ⟨fun _ _ => rfl, fun _ hOther => update_of_ne hOther .., rfl, rfl⟩

theorem touches_append {entry : journalEntry Root CodeHash}
    (h : ∀ other, entry.dirtied = some other → other = addr) : Touches addr s (s.append entry) := by
  unfold StateDB.append
  cases hDirtied : entry.dirtied with
  | none => exact ⟨fun _ _ => rfl, fun _ _ => rfl, rfl, rfl⟩
  | some other =>
    obtain rfl := h other hDirtied
    exact ⟨fun _ _ => rfl, fun _ hOther => update_of_ne hOther .., rfl, rfl⟩

@[simp] theorem append_stateObjects (s : StateDB Root CodeHash) (entry : journalEntry Root CodeHash) :
    (s.append entry).stateObjects = s.stateObjects := by
  unfold StateDB.append
  cases entry.dirtied <;> rfl

theorem append_dirties_pos {entry : journalEntry Root CodeHash} (h : entry.dirtied = some addr) :
    0 < (s.append entry).dirties addr := by
  unfold StateDB.append
  rw [h]
  change 0 < update s.dirties addr (s.dirties addr + 1) addr
  rw [update_self]
  exact Nat.succ_pos _

@[simp] theorem setStateObject_self (s : StateDB Root CodeHash) (addr : Address)
    (obj : stateObject Root CodeHash) : (s.setStateObject addr obj).stateObjects addr = some obj :=
  update_self ..

end Touches

section Updates

variable [DecidableEq CodeHash]

/-- An object that no journal entry makes dirty. It has the account of the trie, or it was
made anew over that account and has its balance only. -/
structure Clean (hashing : Hashing Root CodeHash) (shared : Shared Root CodeHash) (addr : Address)
    (created : Prop) (obj : stateObject Root CodeHash) : Prop where
  dirty : obj.dirtyStorage = ∅
  dirtyCode : obj.dirtyCode = false
  data : ∃ account, shared.trie addr = some account ∧ (¬ created → obj.data = account) ∧
    (created → obj.data = { hashing.emptyAccount with Balance := account.Balance })

/-- What is known of the object of an address and of its dirty count. -/
structure Known (hashing : Hashing Root CodeHash) (shared : Shared Root CodeHash) (addr : Address)
    (created : Prop) (obj : stateObject Root CodeHash) (dirties : Nat) : Prop where
  coherent : ∃ slots, Coherent hashing shared slots obj.dirtyStorage obj
  pending : obj.pendingStorage = ∅
  codeSet : obj.dirtyCode = true → obj.code ≠ none
  clean : dirties = 0 → Clean hashing shared addr created obj

def Local (hashing : Hashing Root CodeHash) (shared : Shared Root CodeHash) (addr : Address)
    (created : Prop) (obj : Option (stateObject Root CodeHash)) (dirties : Nat) : Prop :=
  match obj with
  | none => dirties = 0 ∧ ¬ created
  | some obj => Known hashing shared addr created obj dirties

variable {hashing : Hashing Root CodeHash} {shared : Shared Root CodeHash} {addr : Address}
  {created : Prop} {s s' : StateDB Root CodeHash} {obj : stateObject Root CodeHash}

theorem local_journaled {entry : journalEntry Root CodeHash} (hEntry : entry.dirtied = some addr)
    (hCoherent : ∃ slots, Coherent hashing shared slots obj.dirtyStorage obj)
    (hPending : obj.pendingStorage = ∅) (hCode : obj.dirtyCode = true → obj.code ≠ none) :
    Local hashing shared addr created (((s.append entry).setStateObject addr obj).stateObjects addr)
      (((s.append entry).setStateObject addr obj).dirties addr) := by
  rw [setStateObject_self]
  refine ⟨hCoherent, hPending, hCode, fun hZero => ?_⟩
  exact absurd hZero (append_dirties_pos hEntry).ne'

theorem getDeletedStateObject_spec (intact : shared.Intact hashing)
    (hLocal : Local hashing shared addr created (s.stateObjects addr) (s.dirties addr)) :
    Touches addr s (s.getDeletedStateObject shared addr).2 ∧
      (s.getDeletedStateObject shared addr).2.stateObjects addr =
        (s.getDeletedStateObject shared addr).1 ∧
      Local hashing shared addr created (s.getDeletedStateObject shared addr).1
        ((s.getDeletedStateObject shared addr).2.dirties addr) ∧
      ((s.getDeletedStateObject shared addr).1 = none → shared.trie addr = none) := by
  unfold StateDB.getDeletedStateObject
  cases hObj : s.stateObjects addr with
  | some obj =>
    rw [hObj] at hLocal
    exact ⟨.refl addr s, hObj, hLocal, nofun⟩
  | none =>
    rw [hObj] at hLocal
    cases hAccount : shared.trie addr with
    | none => exact ⟨.refl addr s, hObj, hLocal, fun _ => rfl⟩
    | some account =>
      obtain ⟨slots, hSlots⟩ := intact.resolves addr account hAccount
      refine ⟨touches_setStateObject .., setStateObject_self .., ?_, nofun⟩
      refine ⟨⟨slots, .newObject hSlots⟩, rfl, nofun, fun _ => ⟨rfl, rfl, account, hAccount, ?_⟩⟩
      exact ⟨fun _ => rfl, fun h => absurd h hLocal.2⟩

theorem getStateObject_eq (hLocal : Local hashing shared addr created
    (s.getDeletedStateObject shared addr).1 ((s.getDeletedStateObject shared addr).2.dirties addr)) :
    s.getStateObject shared addr = s.getDeletedStateObject shared addr := by
  unfold StateDB.getStateObject
  rcases hGet : s.getDeletedStateObject shared addr with ⟨_ | obj, s'⟩
  · rfl
  · rw [hGet] at hLocal
    obtain ⟨slots, hCoherent⟩ := hLocal.coherent
    simp [hCoherent.alive]

variable (created) in
theorem createObject_none (intact : shared.Intact hashing)
    (hGet : (s.getDeletedStateObject shared addr).1 = none) :
    Touches addr s (s.createObject hashing shared addr).2.2 ∧
      (s.createObject hashing shared addr).2.2.stateObjects addr =
        some (newObject hashing.emptyAccount) ∧
      Known hashing shared addr created (newObject hashing.emptyAccount)
        ((s.createObject hashing shared addr).2.2.dirties addr) := by
  have hSame : s.getDeletedStateObject shared addr = (none, s) := by
    unfold StateDB.getDeletedStateObject at hGet ⊢
    cases hObj : s.stateObjects addr with
    | some obj => simp [hObj] at hGet
    | none =>
      cases hAccount : shared.trie addr with
      | some account => simp [hObj, hAccount] at hGet
      | none => rfl
  unfold StateDB.createObject
  rw [hSame]
  have hCreated : (journalEntry.createObjectChange addr : journalEntry Root CodeHash).dirtied =
      some addr := rfl
  refine ⟨(touches_append ?_).trans (touches_setStateObject ..), setStateObject_self .., ?_⟩
  · rintro other hOther
    cases hOther
    rfl
  · refine ⟨⟨_, .newObject intact.empty⟩, rfl, nofun, fun hZero => ?_⟩
    exact absurd hZero (append_dirties_pos (s := s) hCreated).ne'

theorem GetOrNewStateObject_spec (intact : shared.Intact hashing)
    (hLocal : Local hashing shared addr created (s.stateObjects addr) (s.dirties addr)) :
    Touches addr s (s.GetOrNewStateObject hashing shared addr).2 ∧
      (s.GetOrNewStateObject hashing shared addr).2.stateObjects addr =
        some (s.GetOrNewStateObject hashing shared addr).1 ∧
      Known hashing shared addr created (s.GetOrNewStateObject hashing shared addr).1
        ((s.GetOrNewStateObject hashing shared addr).2.dirties addr) := by
  obtain ⟨hTouch, hCached, hLoaded, hNone⟩ := getDeletedStateObject_spec intact hLocal
  unfold StateDB.GetOrNewStateObject
  rw [getStateObject_eq hLoaded]
  rcases hGet : s.getDeletedStateObject shared addr with ⟨_ | obj, s'⟩
  · rw [hGet] at hTouch hCached hNone
    have hGet' : (s'.getDeletedStateObject shared addr).1 = none := by
      unfold StateDB.getDeletedStateObject
      rw [hCached, hNone rfl]
    obtain ⟨hTouch', hCached', hKnown⟩ := createObject_none created intact hGet'
    exact ⟨hTouch.trans hTouch', hCached', hKnown⟩
  · rw [hGet] at hTouch hCached hLoaded
    exact ⟨hTouch, hCached, hLoaded⟩

/-- What an operation on an address leaves behind. -/
def Keeps (hashing : Hashing Root CodeHash) (shared : Shared Root CodeHash) (addr : Address)
    (created : Prop) (s s' : StateDB Root CodeHash) : Prop :=
  Touches addr s s' ∧ Local hashing shared addr created (s'.stateObjects addr) (s'.dirties addr)

theorem keeps_journaled {entry : journalEntry Root CodeHash} (hTouch : Touches addr s s')
    (hEntry : entry.dirtied = some addr)
    (hCoherent : ∃ slots, Coherent hashing shared slots obj.dirtyStorage obj)
    (hPending : obj.pendingStorage = ∅) (hCode : obj.dirtyCode = true → obj.code ≠ none) :
    Keeps hashing shared addr created s ((s'.append entry).setStateObject addr obj) := by
  refine ⟨hTouch.trans ((touches_append ?_).trans (touches_setStateObject ..)),
    local_journaled hEntry hCoherent hPending hCode⟩
  intro other hOther
  rw [hEntry] at hOther
  cases hOther
  rfl

theorem keeps_writeBalance (hTouch : Touches addr s s') {d : Nat}
    (hKnown : Known hashing shared addr created obj d) (amount : Int) :
    Keeps hashing shared addr created s (s'.writeBalance addr obj amount) := by
  obtain ⟨slots, h⟩ := hKnown.coherent
  exact keeps_journaled hTouch rfl
    ⟨slots, h.root, h.trie, h.origin, h.loaded, h.code, h.alive, h.notSuicided⟩
    hKnown.pending hKnown.codeSet

theorem keeps_loaded (hTouch : Touches addr s s')
    (hKnown : Known hashing shared addr created obj (s'.dirties addr)) :
    Keeps hashing shared addr created s (s'.setStateObject addr obj) :=
  ⟨hTouch.trans (touches_setStateObject ..), by rw [setStateObject_self]; exact hKnown⟩

theorem keeps_touch (hTouch : Touches addr s s') (hCached : s'.stateObjects addr = some obj)
    {d : Nat} (hKnown : Known hashing shared addr created obj d) :
    Keeps hashing shared addr created s (s'.touch addr) := by
  have hEntry : (journalEntry.touchChange addr : journalEntry Root CodeHash).dirtied = some addr :=
    rfl
  have hAppend : Touches addr s' (s'.append (.touchChange addr)) := touches_append fun other h => by
    cases h
    rfl
  have hPos := append_dirties_pos (s := s') hEntry
  unfold StateDB.touch
  dsimp only
  split_ifs
  · refine ⟨hTouch.trans (hAppend.trans (touches_dirty ..)), ?_⟩
    change Local _ _ _ _ ((s'.append (.touchChange addr)).stateObjects addr) _
    rw [append_stateObjects, hCached]
    refine ⟨hKnown.coherent, hKnown.pending, hKnown.codeSet, fun hZero => ?_⟩
    change update _ addr _ addr = 0 at hZero
    rw [update_self] at hZero
    cases hZero
  · refine ⟨hTouch.trans hAppend, ?_⟩
    rw [append_stateObjects, hCached]
    exact ⟨hKnown.coherent, hKnown.pending, hKnown.codeSet, fun hZero => absurd hZero hPos.ne'⟩

theorem ReadsSlot.known {slots : Slots} {key : Hash} {result : Hash × stateObject Root CodeHash}
    (hReads : ReadsSlot hashing shared slots key obj result) {d : Nat}
    (hKnown : Known hashing shared addr created obj d) :
    Known hashing shared addr created result.2 d where
  coherent := ⟨slots, by rw [hReads.dirty]; exact hReads.coherent⟩
  pending := hReads.pending.trans hKnown.pending
  codeSet hSet := by
    rw [hReads.code]
    exact hKnown.codeSet (hReads.dirtyCode.symm.trans hSet)
  clean hZero := by
    have h := hKnown.clean hZero
    exact ⟨hReads.dirty.trans h.dirty, hReads.dirtyCode.trans h.dirtyCode, by
      rw [hReads.data]; exact h.data⟩

theorem LoadsCode.known {slots : Slots} {loaded : stateObject Root CodeHash}
    (hLoads : LoadsCode hashing shared slots obj loaded) {d : Nat}
    (hKnown : Known hashing shared addr created obj d) :
    Known hashing shared addr created loaded d where
  coherent := ⟨slots, by rw [hLoads.dirty]; exact hLoads.coherent⟩
  pending := hLoads.pending.trans hKnown.pending
  codeSet hSet := hLoads.codeSet (hKnown.codeSet (hLoads.dirtyCode.symm.trans hSet))
  clean hZero := by
    have h := hKnown.clean hZero
    exact ⟨hLoads.dirty.trans h.dirty, hLoads.dirtyCode.trans h.dirtyCode, by
      rw [hLoads.data]; exact h.data⟩

section Operations

variable (intact : shared.Intact hashing)
  (hLocal : Local hashing shared addr created (s.stateObjects addr) (s.dirties addr))

include intact hLocal

theorem keeps_SetBalance (amount : Int) :
    Keeps hashing shared addr created s (s.SetBalance hashing shared addr amount) := by
  obtain ⟨hTouch, _, hKnown⟩ := GetOrNewStateObject_spec intact hLocal
  exact keeps_writeBalance hTouch hKnown amount

theorem keeps_AddBalance (amount : Int) :
    Keeps hashing shared addr created s (s.AddBalance hashing shared addr amount) := by
  obtain ⟨hTouch, hCached, hKnown⟩ := GetOrNewStateObject_spec intact hLocal
  unfold StateDB.AddBalance
  dsimp only
  split_ifs
  · exact keeps_touch hTouch hCached hKnown
  · exact ⟨hTouch, by rw [hCached]; exact hKnown⟩
  · exact keeps_writeBalance hTouch hKnown _

theorem keeps_SubBalance (amount : Int) :
    Keeps hashing shared addr created s (s.SubBalance hashing shared addr amount) := by
  obtain ⟨hTouch, hCached, hKnown⟩ := GetOrNewStateObject_spec intact hLocal
  unfold StateDB.SubBalance
  dsimp only
  split_ifs
  · exact ⟨hTouch, by rw [hCached]; exact hKnown⟩
  · exact keeps_writeBalance hTouch hKnown _

theorem keeps_SetNonce (nonce : Nat) :
    Keeps hashing shared addr created s (s.SetNonce hashing shared addr nonce) := by
  obtain ⟨hTouch, _, hKnown⟩ := GetOrNewStateObject_spec intact hLocal
  obtain ⟨slots, h⟩ := hKnown.coherent
  exact keeps_journaled hTouch rfl
    ⟨slots, h.root, h.trie, h.origin, h.loaded, h.code, h.alive, h.notSuicided⟩
    hKnown.pending hKnown.codeSet

theorem keeps_SetCode (code : Code) :
    Keeps hashing shared addr created s (s.SetCode hashing shared addr code) := by
  obtain ⟨hTouch, _, hKnown⟩ := GetOrNewStateObject_spec intact hLocal
  obtain ⟨slots, hCoherent⟩ := hKnown.coherent
  have hLoads := hCoherent.loadsCode hKnown.codeSet
  have h := hLoads.coherent
  refine keeps_journaled hTouch rfl
    ⟨slots, h.root, h.trie, h.origin, ?_, ?_, h.alive, h.notSuicided⟩ ?_ (fun _ => nofun)
  · intro key value hValue
    exact h.loaded key value (by rw [← hLoads.dirty]; exact hValue)
  · intro other hOther
    cases hOther
    rfl
  · exact hLoads.pending.trans hKnown.pending

theorem keeps_SetState (key value : Hash) :
    Keeps hashing shared addr created s (s.SetState hashing shared noFaults addr key value) := by
  obtain ⟨hTouch, hCached, hKnown⟩ := GetOrNewStateObject_spec intact hLocal
  obtain ⟨slots, hCoherent⟩ := hKnown.coherent
  have hReads := hCoherent.readsSlot hKnown.pending addr key
  unfold StateDB.SetState
  dsimp only
  split_ifs with hSame
  · exact keeps_loaded hTouch (hReads.known hKnown)
  · have h := hReads.coherent
    refine keeps_journaled hTouch rfl
      ⟨slots, h.root, h.trie, h.origin, ?_, h.code, h.alive, h.notSuicided⟩
      (hReads.pending.trans hKnown.pending) ?_
    · intro other written hWritten
      by_cases hKey : other = key
      · subst hKey
        exact hReads.loaded
      · rw [AList.lookup_insert_ne hKey, hReads.dirty] at hWritten
        exact h.loaded other written hWritten
    · intro hSet
      rw [hReads.code]
      exact hKnown.codeSet (hReads.dirtyCode.symm.trans hSet)

theorem keeps_GetAccount : Keeps hashing shared addr created s (s.getStateObject shared addr).2 := by
  obtain ⟨hTouch, hCached, hLoaded, _⟩ := getDeletedStateObject_spec intact hLocal
  rw [getStateObject_eq hLoaded]
  exact ⟨hTouch, by rw [hCached]; exact hLoaded⟩

theorem keeps_loadState (key : Hash) :
    Keeps hashing shared addr created s (s.loadState shared noFaults addr key) := by
  obtain ⟨hTouch, hCached, hLoaded, _⟩ := getDeletedStateObject_spec intact hLocal
  unfold StateDB.loadState
  rw [getStateObject_eq hLoaded]
  rcases hGet : s.getDeletedStateObject shared addr with ⟨_ | obj, s'⟩
  · rw [hGet] at hTouch hCached hLoaded
    exact ⟨hTouch, by rw [hCached]; exact hLoaded⟩
  · rw [hGet] at hTouch hLoaded
    obtain ⟨slots, hCoherent⟩ := Known.coherent hLoaded
    exact keeps_loaded hTouch ((hCoherent.readsSlot (Known.pending hLoaded) addr key).known hLoaded)

theorem keeps_loadCode : Keeps hashing shared addr created s (s.loadCode hashing shared addr) := by
  obtain ⟨hTouch, hCached, hLoaded, _⟩ := getDeletedStateObject_spec intact hLocal
  unfold StateDB.loadCode
  rw [getStateObject_eq hLoaded]
  rcases hGet : s.getDeletedStateObject shared addr with ⟨_ | obj, s'⟩
  · rw [hGet] at hTouch hCached hLoaded
    exact ⟨hTouch, by rw [hCached]; exact hLoaded⟩
  · rw [hGet] at hTouch hLoaded
    obtain ⟨slots, hCoherent⟩ := Known.coherent hLoaded
    exact keeps_loaded hTouch ((hCoherent.loadsCode (Known.codeSet hLoaded)).known hLoaded)

/-- An account that is made anew without a journal entry is still the one of the trie, but
for its balance. -/
theorem keeps_CreateAccount :
    Keeps hashing shared addr True s (s.CreateAccount hashing shared addr) := by
  obtain ⟨hTouch, _, hLoaded, _⟩ := getDeletedStateObject_spec intact hLocal
  rcases hGet : s.getDeletedStateObject shared addr with ⟨_ | prev, s'⟩
  · have hCreate : s.CreateAccount hashing shared addr =
        (s.createObject hashing shared addr).2.2 := by
      unfold StateDB.CreateAccount StateDB.createObject
      rw [hGet]
    obtain ⟨hTouch', hCached', hKnown⟩ := createObject_none True intact (by rw [hGet])
    rw [hCreate]
    exact ⟨hTouch', by rw [hCached']; exact hKnown⟩
  · rw [hGet] at hTouch hLoaded
    unfold StateDB.CreateAccount StateDB.createObject
    rw [hGet]
    have hAppend : Touches addr s' (s'.append (.resetObjectChange addr prev)) :=
      touches_append nofun
    refine keeps_loaded (hTouch.trans (hAppend.trans (touches_setStateObject ..))) ?_
    refine ⟨⟨_, intact.empty, nofun, nofun, nofun, nofun, rfl, rfl⟩, rfl, nofun, fun hZero => ?_⟩
    obtain ⟨account, hAccount, hSame, hReset⟩ := (Known.clean hLoaded hZero).data
    refine ⟨rfl, rfl, account, hAccount, fun h => absurd trivial h, fun _ => ?_⟩
    have hBalance : prev.data.Balance = account.Balance := by
      by_cases hCreated : created
      · rw [hReset hCreated]
      · rw [hSame hCreated]
    rw [← hBalance]
    rfl

end Operations

/-! ### Runs of updates -/

/-- The updates of balances, nonces, codes and slots, the creation of accounts, and reads. -/
def StateDB.Op.isUpdate : StateDB.Op → Bool
  | .Suicide _ => false
  | .Snapshot => false
  | .RevertToSnapshot _ => false
  | _ => true

/-- After these operations every address is known, and nothing is finalised yet. -/
structure Updated (hashing : Hashing Root CodeHash) (shared : Shared Root CodeHash)
    (ops : List StateDB.Op) (s : StateDB Root CodeHash) : Prop where
  known : ∀ addr, Local hashing shared addr (.CreateAccount addr ∈ ops) (s.stateObjects addr)
    (s.dirties addr)
  pending : s.stateObjectsPending = fun _ => false
  dirtySet : s.stateObjectsDirty = fun _ => false

theorem Updated.init : Updated hashing shared [] StateDB.NewWithTrie :=
  ⟨fun _ => ⟨rfl, List.not_mem_nil⟩, rfl, rfl⟩

variable {ops : List StateDB.Op}

variable (addr) in
theorem Updated.step (h : Updated hashing shared ops s) {op : StateDB.Op}
    (hOthers : ∀ other, other ≠ addr → op ≠ .CreateAccount other)
    (hKeeps : Keeps hashing shared addr (.CreateAccount addr ∈ ops ++ [op]) s s') :
    Updated hashing shared (ops ++ [op]) s' where
  known other := by
    by_cases hOther : other = addr
    · rw [hOther]
      exact hKeeps.2
    · have hSame : (.CreateAccount other ∈ ops ++ [op]) ↔ .CreateAccount other ∈ ops := by
        simp [(hOthers other hOther).symm]
      rw [hSame, hKeeps.1.objects other hOther, hKeeps.1.dirties other hOther]
      exact h.known other
  pending := hKeeps.1.pending.trans h.pending
  dirtySet := hKeeps.1.dirtySet.trans h.dirtySet

theorem Updated.apply (intact : shared.Intact hashing) (h : Updated hashing shared ops s)
    {op : StateDB.Op} (hUpdate : op.isUpdate)
    (hApply : StateDB.apply hashing shared noFaults s op = some s') :
    Updated hashing shared (ops ++ [op]) s' := by
  -- an operation other than a creation does not change what has been created
  have hSame : ∀ {addr}, op ≠ .CreateAccount addr →
      ((.CreateAccount addr ∈ ops ++ [op]) ↔ .CreateAccount addr ∈ ops) := by
    intro addr hNe
    simp [hNe.symm]
  cases op with
  | AddBalance addr amount =>
    cases hApply
    exact h.step addr nofun (by rw [hSame nofun]; exact keeps_AddBalance intact (h.known addr) amount)
  | SubBalance addr amount =>
    cases hApply
    exact h.step addr nofun (by rw [hSame nofun]; exact keeps_SubBalance intact (h.known addr) amount)
  | SetBalance addr amount =>
    cases hApply
    exact h.step addr nofun (by rw [hSame nofun]; exact keeps_SetBalance intact (h.known addr) amount)
  | SetNonce addr nonce =>
    cases hApply
    exact h.step addr nofun (by rw [hSame nofun]; exact keeps_SetNonce intact (h.known addr) nonce)
  | SetCode addr code =>
    cases hApply
    exact h.step addr nofun (by rw [hSame nofun]; exact keeps_SetCode intact (h.known addr) code)
  | SetState addr key value =>
    cases hApply
    exact h.step addr nofun (by rw [hSame nofun]; exact keeps_SetState intact (h.known addr) key value)
  | GetAccount addr =>
    cases hApply
    exact h.step addr nofun (by rw [hSame nofun]; exact keeps_GetAccount intact (h.known addr))
  | GetCode addr =>
    cases hApply
    exact h.step addr nofun (by rw [hSame nofun]; exact keeps_loadCode intact (h.known addr))
  | GetState addr key =>
    cases hApply
    exact h.step addr nofun (by rw [hSame nofun]; exact keeps_loadState intact (h.known addr) key)
  | CreateAccount addr =>
    cases hApply
    refine h.step addr (fun other hOther hEq => hOther ?_) ?_
    · cases hEq
      rfl
    · rw [eq_true (by simp : StateDB.Op.CreateAccount addr ∈ ops ++ [.CreateAccount addr])]
      exact keeps_CreateAccount intact (h.known addr)
  | Suicide _ => cases hUpdate
  | Snapshot => cases hUpdate
  | RevertToSnapshot _ => cases hUpdate

theorem updated_of_run (intact : shared.Intact hashing) (hUpdates : ∀ op ∈ ops, op.isUpdate)
    (hRun : StateDB.run hashing shared noFaults .NewWithTrie ops = some s) :
    Updated hashing shared ops s := by
  induction ops using List.reverseRecOn generalizing s with
  | nil =>
    cases hRun
    exact .init
  | append_singleton ops op ih =>
    unfold StateDB.run at hRun
    rw [List.foldlM_append] at hRun
    obtain ⟨mid, hMid, hLast⟩ := Option.bind_eq_some_iff.mp hRun
    have hBefore := ih (fun other hOther => hUpdates other (List.mem_append_left _ hOther)) hMid
    refine hBefore.apply intact (hUpdates op (by simp)) ?_
    simpa using hLast

end Updates

end Nezha.State
