import NezhaConcurrency.State.Updates

/-! The state that a state database stands for, as a map from addresses to what is read of
their accounts. It is the same whether an account lies in the trie or in an object, and
whether its slots and its code have been loaded. Reads leave it as it is, and each update
is an update of the map. -/
namespace Nezha.State

open List

variable {Root CodeHash : Type}

/-! ### Objects -/

section Objects

variable [DecidableEq CodeHash]

/-- An object of an account that reads as the view. -/
structure Shows (hashing : Hashing Root CodeHash) (shared : Shared Root CodeHash)
    (obj : stateObject Root CodeHash) (view : View) : Prop where
  balance : obj.data.Balance = view.balance
  nonce : obj.data.Nonce = view.nonce
  code : (obj.Code hashing shared).1.getD [] = view.code
  codeSet : obj.dirtyCode = true → obj.code ≠ none
  pending : obj.pendingStorage = ∅
  storage : ∃ slots, Coherent hashing shared slots obj.dirtyStorage obj ∧
    ∀ key, (obj.dirtyStorage.lookup key).getD (slots key) = view.slots key

variable {hashing : Hashing Root CodeHash} {shared : Shared Root CodeHash}
  {obj obj' : stateObject Root CodeHash} {view : View}

theorem Shows.alive (h : Shows hashing shared obj view) : obj.deleted = false := by
  obtain ⟨slots, hCoherent, _⟩ := h.storage
  exact hCoherent.alive

theorem code_congr (hCode : obj'.code = obj.code) (hHash : obj'.data.CodeHash = obj.data.CodeHash) :
    (obj'.Code hashing shared).1 = (obj.Code hashing shared).1 := by
  unfold stateObject.Code
  rw [hCode, hHash]
  cases obj.code with
  | some code => rfl
  | none =>
    dsimp only
    split_ifs
    · rfl
    · cases shared.codes obj.data.CodeHash <;> rfl

theorem code_code : (((obj.Code hashing shared).2).Code hashing shared).1 =
    (obj.Code hashing shared).1 := by
  cases hCode : obj.code with
  | some code => simp [stateObject.Code, hCode]
  | none =>
    by_cases hEmpty : obj.data.CodeHash = hashing.keccak256 []
    · simp [stateObject.Code, hCode, hEmpty]
    · cases hTable : shared.codes obj.data.CodeHash with
      | some code => simp [stateObject.Code, hCode, hEmpty, hTable]
      | none => simp [stateObject.Code, stateObject.setError, hCode, hEmpty, hTable]

theorem shows_newObject (account : Account Root CodeHash) {slots : Slots}
    (hSlots : shared.nodes account.Root = some slots) :
    Shows hashing shared (newObject account)
      ⟨account.Balance, account.Nonce, (readCode hashing shared account.CodeHash).getD [],
        slots⟩ where
  balance := rfl
  nonce := rfl
  code := by rw [code_newObject]
  codeSet := nofun
  pending := rfl
  storage := ⟨slots, .newObject hSlots, fun _ => rfl⟩

theorem shows_emptyAccount (hEmpty : shared.nodes (hashing.rootOf fun _ => 0) = some fun _ => 0) :
    Shows hashing shared (newObject hashing.emptyAccount) ⟨0, 0, [], fun _ => 0⟩ where
  balance := rfl
  nonce := rfl
  code := by
    rw [code_newObject]
    exact congrArg (Option.getD · []) (if_pos rfl)
  codeSet := nofun
  pending := rfl
  storage := ⟨_, .newObject hEmpty, fun _ => rfl⟩

theorem Shows.withData (h : Shows hashing shared obj view) (data : Account Root CodeHash)
    (hRoot : data.Root = obj.data.Root) (hHash : data.CodeHash = obj.data.CodeHash) :
    Shows hashing shared { obj with data := data }
      ⟨data.Balance, data.Nonce, view.code, view.slots⟩ := by
  obtain ⟨slots, hCoherent, hRead⟩ := h.storage
  have hSame : Coherent hashing shared slots obj.dirtyStorage { obj with data := data } := by
    refine ⟨?_, hCoherent.trie, hCoherent.origin, hCoherent.loaded, ?_, hCoherent.alive,
      hCoherent.notSuicided⟩
    · rw [hRoot]
      exact hCoherent.root
    · rw [hHash]
      exact hCoherent.code
  refine ⟨rfl, rfl, ?_, h.codeSet, h.pending, slots, hSame, hRead⟩
  rw [← h.code]
  exact congrArg (Option.getD · []) (code_congr rfl hHash)

theorem Shows.readsSlot (h : Shows hashing shared obj view) (addr : Address) (key : Hash) :
    (obj.GetState shared noFaults addr key).1 = view.slots key ∧
      Shows hashing shared (obj.GetState shared noFaults addr key).2 view := by
  obtain ⟨slots, hCoherent, hRead⟩ := h.storage
  have hReads := hCoherent.readsSlot h.pending addr key
  refine ⟨hReads.value.trans (hRead key), ?_⟩
  exact {
    balance := by rw [hReads.data, h.balance]
    nonce := by rw [hReads.data, h.nonce]
    code := by rw [code_congr hReads.code (by rw [hReads.data]), h.code]
    codeSet := by
      rw [hReads.code, hReads.dirtyCode]
      exact h.codeSet
    pending := hReads.pending.trans h.pending
    storage := ⟨slots, by rw [hReads.dirty]; exact hReads.coherent, by
      rw [hReads.dirty]
      exact hRead⟩ }

theorem Shows.loadsCode (h : Shows hashing shared obj view) :
    Shows hashing shared (obj.Code hashing shared).2 view := by
  obtain ⟨slots, hCoherent, hRead⟩ := h.storage
  have hLoads := hCoherent.loadsCode h.codeSet
  exact {
    balance := by rw [hLoads.data, h.balance]
    nonce := by rw [hLoads.data, h.nonce]
    code := by rw [code_code, h.code]
    codeSet := fun hDirty => hLoads.codeSet (h.codeSet (hLoads.dirtyCode.symm.trans hDirty))
    pending := hLoads.pending.trans h.pending
    storage := ⟨slots, by rw [hLoads.dirty]; exact hLoads.coherent, by
      rw [hLoads.dirty]
      exact hRead⟩ }

end Objects

/-! ### State databases -/

section Databases

/-- The object in the cache, or else a fresh one of the account in the trie. -/
def StateDB.object (shared : Shared Root CodeHash) (s : StateDB Root CodeHash) (addr : Address) :
    Option (stateObject Root CodeHash) :=
  (s.stateObjects addr).or ((shared.trie addr).map newObject)

variable {shared : Shared Root CodeHash} {s : StateDB Root CodeHash} {addr : Address}
  {obj : stateObject Root CodeHash}

theorem getDeletedStateObject_fst :
    (s.getDeletedStateObject shared addr).1 = s.object shared addr := by
  unfold StateDB.getDeletedStateObject StateDB.object
  cases s.stateObjects addr with
  | some obj => rfl
  | none => cases shared.trie addr <;> rfl

theorem object_setStateObject (s : StateDB Root CodeHash) (addr : Address)
    (obj : stateObject Root CodeHash) :
    (s.setStateObject addr obj).object shared =
      Function.update (s.object shared) addr (some obj) := by
  funext other
  by_cases hOther : other = addr
  · subst hOther
    simp [StateDB.object, StateDB.setStateObject]
  · simp [StateDB.object, StateDB.setStateObject, hOther]

@[simp] theorem object_append (s : StateDB Root CodeHash) (entry : journalEntry Root CodeHash) :
    (s.append entry).object shared = s.object shared := by
  funext addr
  simp [StateDB.object]

@[simp] theorem object_getDeletedStateObject :
    (s.getDeletedStateObject shared addr).2.object shared = s.object shared := by
  unfold StateDB.getDeletedStateObject
  cases hObj : s.stateObjects addr with
  | some obj => rfl
  | none =>
    cases hAccount : shared.trie addr with
    | none => rfl
    | some account =>
      dsimp only
      rw [object_setStateObject, Function.update_eq_self_iff, StateDB.object, hObj, hAccount]
      rfl

theorem getStateObject_alive (h : ∀ obj, s.object shared addr = some obj → obj.deleted = false) :
    s.getStateObject shared addr =
      (s.object shared addr, (s.getDeletedStateObject shared addr).2) := by
  unfold StateDB.getStateObject
  dsimp only
  rw [getDeletedStateObject_fst]
  cases hObj : s.object shared addr with
  | none => rfl
  | some obj => simp [h obj hObj]

end Databases

section Represents

variable [DecidableEq CodeHash]

/-- The state database stands for the state. -/
structure Represents (hashing : Hashing Root CodeHash) (shared : Shared Root CodeHash)
    (state : Address → Option View) (s : StateDB Root CodeHash) : Prop where
  absent : ∀ addr, state addr = none → s.object shared addr = none
  present : ∀ addr view, state addr = some view →
    ∃ obj, s.object shared addr = some obj ∧ Shows hashing shared obj view

variable {hashing : Hashing Root CodeHash} {shared : Shared Root CodeHash}
  {state : Address → Option View} {s s' : StateDB Root CodeHash} {addr : Address} {view : View}
  {obj : stateObject Root CodeHash}

theorem Represents.getStateObject (h : Represents hashing shared state s) (addr : Address) :
    s.getStateObject shared addr =
      (s.object shared addr, (s.getDeletedStateObject shared addr).2) := by
  apply getStateObject_alive
  intro obj hObj
  cases hState : state addr with
  | none =>
    rw [h.absent addr hState] at hObj
    cases hObj
  | some view =>
    obtain ⟨found, hFound, hShows⟩ := h.present addr view hState
    rw [hFound] at hObj
    cases hObj
    exact hShows.alive

theorem Represents.exist (h : Represents hashing shared state s) (addr : Address) :
    s.Exist shared addr = (state addr).isSome := by
  rw [StateDB.Exist, h.getStateObject]
  cases hState : state addr with
  | none =>
    rw [h.absent addr hState]
    rfl
  | some view =>
    obtain ⟨obj, hObj, _⟩ := h.present addr view hState
    rw [hObj]
    rfl

theorem Represents.reads (h : Represents hashing shared state s) (addr : Address) :
    s.view hashing shared noFaults addr = (state addr).getD ⟨0, 0, [], fun _ => 0⟩ := by
  cases hState : state addr with
  | none => exact view_of_none (by rw [h.getStateObject, h.absent addr hState])
  | some view =>
    obtain ⟨obj, hObj, hShows⟩ := h.present addr view hState
    have hGet : (s.getStateObject shared addr).1 = some obj := by rw [h.getStateObject, hObj]
    rw [view_of_some hGet]
    exact View.ext hShows.balance hShows.nonce hShows.code
      (funext fun key => (hShows.readsSlot addr key).1)

/-- What a state database stands for depends on its objects only. -/
theorem Represents.congr (h : Represents hashing shared state s)
    (hObjects : s'.object shared = s.object shared) : Represents hashing shared state s' where
  absent addr hState := by rw [hObjects, h.absent addr hState]
  present addr view hState := by
    rw [hObjects]
    exact h.present addr view hState

theorem Represents.update (h : Represents hashing shared state s)
    (hShows : Shows hashing shared obj view) (hObjects : s'.object shared = s.object shared) :
    Represents hashing shared (Function.update state addr (some view))
      (s'.setStateObject addr obj) where
  absent other hState := by
    by_cases hOther : other = addr
    · subst hOther
      rw [Function.update_self] at hState
      cases hState
    · rw [Function.update_of_ne hOther] at hState
      rw [object_setStateObject, Function.update_of_ne hOther, hObjects, h.absent other hState]
  present other found hState := by
    rw [object_setStateObject, hObjects]
    by_cases hOther : other = addr
    · subst hOther
      rw [Function.update_self] at hState ⊢
      cases hState
      exact ⟨obj, rfl, hShows⟩
    · rw [Function.update_of_ne hOther] at hState ⊢
      exact h.present other found hState

/-! ### Reads -/

theorem Represents.load (h : Represents hashing shared state s) (hState : state addr = some view)
    (hShows : Shows hashing shared obj view) (hObjects : s'.object shared = s.object shared) :
    Represents hashing shared state (s'.setStateObject addr obj) := by
  have hUpdate : Represents hashing shared (Function.update state addr (some view))
      (s'.setStateObject addr obj) := h.update hShows hObjects
  rwa [← hState, Function.update_eq_self] at hUpdate

theorem Represents.loadState (h : Represents hashing shared state s) (addr : Address) (key : Hash) :
    Represents hashing shared state (s.loadState shared noFaults addr key) := by
  unfold StateDB.loadState
  rw [h.getStateObject]
  cases hState : state addr with
  | none =>
    rw [h.absent addr hState]
    exact h.congr object_getDeletedStateObject
  | some view =>
    obtain ⟨obj, hObj, hShows⟩ := h.present addr view hState
    rw [hObj]
    exact h.load hState (hShows.readsSlot addr key).2 object_getDeletedStateObject

theorem Represents.loadCode (h : Represents hashing shared state s) (addr : Address) :
    Represents hashing shared state (s.loadCode hashing shared addr) := by
  unfold StateDB.loadCode
  rw [h.getStateObject]
  cases hState : state addr with
  | none =>
    rw [h.absent addr hState]
    exact h.congr object_getDeletedStateObject
  | some view =>
    obtain ⟨obj, hObj, hShows⟩ := h.present addr view hState
    rw [hObj]
    exact h.load hState hShows.loadsCode object_getDeletedStateObject

def StateDB.Op.isRead : StateDB.Op → Bool
  | .GetAccount _ => true
  | .GetCode _ => true
  | .GetState _ _ => true
  | _ => false

theorem Represents.apply (h : Represents hashing shared state s) {op : StateDB.Op}
    (hRead : op.isRead) :
    ∃ s', s.apply hashing shared noFaults op = some s' ∧ Represents hashing shared state s' := by
  cases op with
  | GetAccount addr =>
    refine ⟨_, rfl, ?_⟩
    rw [h.getStateObject]
    exact h.congr object_getDeletedStateObject
  | GetCode addr => exact ⟨_, rfl, h.loadCode addr⟩
  | GetState addr key => exact ⟨_, rfl, h.loadState addr key⟩
  | _ => cases hRead

theorem Represents.run {reads : List StateDB.Op} (hReads : ∀ op ∈ reads, op.isRead)
    (h : Represents hashing shared state s) :
    ∃ s', s.run hashing shared noFaults reads = some s' ∧ Represents hashing shared state s' := by
  induction reads generalizing s with
  | nil => exact ⟨s, rfl, h⟩
  | cons op reads ih =>
    obtain ⟨next, hNext, hRep⟩ := h.apply (hReads op mem_cons_self)
    obtain ⟨last, hLast, hEnd⟩ := ih (fun op hOp => hReads op (mem_cons_of_mem _ hOp)) hRep
    refine ⟨last, ?_, hEnd⟩
    rw [StateDB.run, foldlM_cons, hNext]
    exact hLast

/-! ### Updates -/

theorem Represents.getOrNewStateObject (h : Represents hashing shared state s)
    (hState : state addr = some view) :
    ∃ obj s', s.GetOrNewStateObject hashing shared addr = (obj, s') ∧
      Shows hashing shared obj view ∧ s'.object shared = s.object shared := by
  obtain ⟨obj, hObj, hShows⟩ := h.present addr view hState
  refine ⟨obj, (s.getDeletedStateObject shared addr).2, ?_, hShows, object_getDeletedStateObject⟩
  unfold StateDB.GetOrNewStateObject
  rw [h.getStateObject, hObj]

theorem Represents.setBalance (h : Represents hashing shared state s)
    (hState : state addr = some view) (amount : Int) :
    Represents hashing shared (Function.update state addr (some { view with balance := amount }))
      (s.SetBalance hashing shared addr amount) := by
  obtain ⟨obj, s', hGet, hShows, hObjects⟩ := h.getOrNewStateObject hState
  have hWritten := hShows.withData { obj.data with Balance := amount } rfl rfl
  rw [hShows.nonce] at hWritten
  unfold StateDB.SetBalance StateDB.writeBalance
  rw [hGet]
  exact h.update hWritten ((object_append ..).trans hObjects)

theorem Represents.setNonce (h : Represents hashing shared state s)
    (hState : state addr = some view) (nonce : Nat) :
    Represents hashing shared (Function.update state addr (some { view with nonce := nonce }))
      (s.SetNonce hashing shared addr nonce) := by
  obtain ⟨obj, s', hGet, hShows, hObjects⟩ := h.getOrNewStateObject hState
  have hWritten := hShows.withData { obj.data with Nonce := nonce } rfl rfl
  rw [hShows.balance] at hWritten
  unfold StateDB.SetNonce
  rw [hGet]
  exact h.update hWritten ((object_append ..).trans hObjects)

theorem Represents.setCode (h : Represents hashing shared state s)
    (hState : state addr = some view) (code : Code) :
    Represents hashing shared (Function.update state addr (some { view with code := code }))
      (s.SetCode hashing shared addr code) := by
  obtain ⟨obj, s', hGet, hShows, hObjects⟩ := h.getOrNewStateObject hState
  have hLoaded := hShows.loadsCode
  obtain ⟨slots, hCoherent, hRead⟩ := hLoaded.storage
  unfold StateDB.SetCode
  rw [hGet]
  refine h.update ⟨hLoaded.balance, hLoaded.nonce, rfl, fun _ => nofun, hLoaded.pending, slots, ?_,
    hRead⟩ ((object_append ..).trans hObjects)
  refine ⟨hCoherent.root, hCoherent.trie, hCoherent.origin, hCoherent.loaded, ?_,
    hCoherent.alive, hCoherent.notSuicided⟩
  intro other hOther
  cases hOther
  rfl

theorem Represents.setState (h : Represents hashing shared state s)
    (hState : state addr = some view) (key value : Hash) :
    Represents hashing shared (Function.update state addr
        (some { view with slots := Function.update view.slots key value }))
      (s.SetState hashing shared noFaults addr key value) := by
  obtain ⟨obj, s', hGet, hShows, hObjects⟩ := h.getOrNewStateObject hState
  obtain ⟨slots, hCoherent, hRead⟩ := hShows.storage
  have hReads := hCoherent.readsSlot hShows.pending addr key
  obtain ⟨hValue, hLoaded⟩ := hShows.readsSlot addr key
  unfold StateDB.SetState
  rw [hGet]
  dsimp only
  rw [hValue]
  split_ifs with hSame
  · -- a slot that has the value already is not written
    subst hSame
    rw [Function.update_eq_self]
    exact h.update hLoaded hObjects
  · refine h.update ⟨hLoaded.balance, hLoaded.nonce, ?_, hLoaded.codeSet, hLoaded.pending, slots,
      ?_, ?_⟩ ((object_append ..).trans hObjects)
    · rw [← hLoaded.code]
      exact congrArg (Option.getD · []) (code_congr rfl rfl)
    · have hAfter := hReads.coherent
      refine ⟨hAfter.root, hAfter.trie, hAfter.origin, ?_, hAfter.code, hAfter.alive,
        hAfter.notSuicided⟩
      intro other written hWritten
      by_cases hKey : other = key
      · subst hKey
        exact hReads.loaded
      · rw [AList.lookup_insert_ne hKey, hReads.dirty] at hWritten
        exact hAfter.loaded other written hWritten
    · intro other
      by_cases hKey : other = key
      · subst hKey
        simp
      · simp [AList.lookup_insert_ne hKey, hKey, hReads.dirty, hRead]

theorem Represents.createAccount (h : Represents hashing shared state s)
    (hEmpty : shared.nodes (hashing.rootOf fun _ => 0) = some fun _ => 0)
    (hState : state addr = none) :
    Represents hashing shared (Function.update state addr (some ⟨0, 0, [], fun _ => 0⟩))
      (s.CreateAccount hashing shared addr) := by
  have hNone := getDeletedStateObject_fst.trans (h.absent addr hState)
  unfold StateDB.CreateAccount StateDB.createObject
  dsimp only
  rw [hNone]
  exact h.update (shows_emptyAccount hEmpty) ((object_append ..).trans object_getDeletedStateObject)

end Represents

end Nezha.State
