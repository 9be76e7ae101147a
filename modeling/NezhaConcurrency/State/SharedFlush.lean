import NezhaConcurrency.Library.RangeLoop
import NezhaConcurrency.State.Updates

/-! What a flush into the shared trie publishes. Balances, nonces and storage reach every
other worker. The code of a contract does not: the flush writes its hash into the account
but never puts the code into the table, as an ordinary commit does. -/
namespace Nezha.State

open Function

variable {Root CodeHash : Type}

/-! ### The storage of an object -/

section Storage

variable {obj : stateObject Root CodeHash}

/-- The slots with those that were written. -/
def overwritten (slots : Slots) (written : Storage) : Slots := fun key =>
  (written.lookup key).getD (slots key)

theorem lookup_finalise (hPending : obj.pendingStorage = ∅) (key : Hash) :
    obj.finalise.pendingStorage.lookup key = obj.dirtyStorage.lookup key := by
  unfold stateObject.finalise
  rw [hPending]
  refine (RangeLoop.lookup_foldl (fun _ value _ => some value) ?_ ?_ obj.dirtyStorage ∅ key).trans ?_
  · exact fun m key value => AList.lookup_insert m
  · exact fun m key value other hOther => AList.lookup_insert_ne hOther
  · cases obj.dirtyStorage.lookup key <;> rfl

/-- What `updateSlot` leaves as it is. -/
structure SameAccount (obj obj' : stateObject Root CodeHash) : Prop where
  data : obj'.data = obj.data
  deleted : obj'.deleted = obj.deleted

theorem foldl_updateSlot_same (entries : List (Sigma fun _ : Hash => Hash)) (addr : Address)
    (obj : stateObject Root CodeHash) :
    SameAccount obj (entries.foldl (stateObject.updateSlot noFaults addr) obj) := by
  induction entries generalizing obj with
  | nil => exact ⟨rfl, rfl⟩
  | cons slot entries ih =>
    have hStep : SameAccount obj (stateObject.updateSlot noFaults addr obj slot) := by
      unfold stateObject.updateSlot
      split_ifs <;> exact ⟨rfl, rfl⟩
    have hRest := ih (stateObject.updateSlot noFaults addr obj slot)
    exact ⟨hRest.data.trans hStep.data, hRest.deleted.trans hStep.deleted⟩

theorem foldl_updateSlot (written : Storage) (addr : Address) (obj : stateObject Root CodeHash)
    (key : Hash) :
    ((written.entries.foldl (stateObject.updateSlot noFaults addr) obj).slots key,
      (written.entries.foldl (stateObject.updateSlot noFaults addr) obj).originStorage.lookup key) =
    (written.lookup key).elim (obj.slots key, obj.originStorage.lookup key) fun value =>
      if value = (obj.originStorage.lookup key).getD 0 then
        (obj.slots key, obj.originStorage.lookup key) else (value, some value) := by
  refine RangeLoop.observe_foldl
    (fun (obj : stateObject Root CodeHash) key => (obj.slots key, obj.originStorage.lookup key))
    (fun _ value seen => if value = seen.2.getD 0 then seen else (value, some value))
    ?_ ?_ written obj key
  · intro obj key value
    unfold stateObject.updateSlot
    dsimp only
    split_ifs with hSame
    · rfl
    · simp [noFaults] at *
    · exact Prod.ext (update_self ..) (AList.lookup_insert _)
  · intro obj key value other hOther
    unfold stateObject.updateSlot
    dsimp only
    split_ifs with hSame
    · rfl
    · simp [noFaults] at *
    · exact Prod.ext (update_of_ne hOther ..) (AList.lookup_insert_ne hOther)

theorem finalise_of_clean (hDirty : obj.dirtyStorage = ∅) : obj.finalise = obj := by
  obtain ⟨data, dbErr, trie, code, origin, pending, dirty, dirtyCode, suicided, deleted⟩ := obj
  obtain rfl : dirty = ∅ := hDirty
  rfl

theorem writeAccounts_spec {s : StateDB Root CodeHash} {order : List Address}
    {trie trie' : Address → Option (Account Root CodeHash)}
    (h : s.writeAccounts order trie = some trie') (addr : Address) :
    trie' addr = if addr ∈ order then (s.stateObjects addr).elim (trie addr) fun obj =>
      if obj.deleted then none else some obj.data else trie addr := by
  induction order generalizing trie with
  | nil =>
    cases h
    rfl
  | cons visited order ih =>
    unfold StateDB.writeAccounts at h
    cases hVisited : s.stateObjects visited with
    | none =>
      rw [hVisited] at h
      rw [ih h]
      by_cases hAddr : addr = visited
      · subst hAddr
        simp [hVisited]
      · simp [hAddr]
    | some obj =>
      rw [hVisited] at h
      obtain ⟨written, hWrite, hRest⟩ := Option.bind_eq_some_iff.mp h
      have hWritten : written = update trie visited
          (if obj.deleted then none else some obj.data) := by
        unfold StateDB.writeAccount at hWrite
        split_ifs at hWrite with hDeleted hNegative
        · cases hWrite
          rw [if_pos hDeleted]
        · cases hWrite
          rw [if_neg hDeleted]
      rw [ih hRest, hWritten]
      by_cases hAddr : addr = visited
      · subst hAddr
        simp [hVisited]
      · simp [hAddr]

end Storage

/-! ### The flush -/

section Flush

variable [DecidableEq Root] [DecidableEq CodeHash] {hashing : Hashing Root CodeHash}
  {shared shared' : Shared Root CodeHash} {slots : Slots} {obj obj' : stateObject Root CodeHash}
  {addr : Address}

omit [DecidableEq Root] in
theorem slots_updateTrie (h : Coherent hashing shared slots obj.pendingStorage obj)
    (hDirty : obj.dirtyStorage = ∅) (addr : Address) :
    (obj.updateTrie shared noFaults addr).slots = overwritten slots obj.pendingStorage := by
  funext key
  unfold stateObject.updateTrie
  rw [finalise_of_clean hDirty, h.getTrie]
  have hFold := foldl_updateSlot obj.pendingStorage addr { obj with trie := some slots } key
  refine (congrArg Prod.fst hFold).trans ?_
  unfold overwritten
  cases hWritten : obj.pendingStorage.lookup key with
  | none => rfl
  | some value =>
    change (if value = (obj.originStorage.lookup key).getD 0 then _ else _ : Hash × _).1 = value
    rw [h.loaded key value hWritten]
    split_ifs with hSame
    · exact hSame.symm
    · rfl

/-- A commit puts the storage trie with the written slots into the database. -/
theorem CommitTrie_spec (h : Coherent hashing shared slots obj.pendingStorage obj)
    (hDirty : obj.dirtyStorage = ∅)
    (hCommit : obj.CommitTrie hashing shared noFaults addr = (none, shared', obj')) :
    obj'.data = { obj.data with
        Root := hashing.rootOf (overwritten slots obj.pendingStorage) } ∧
      obj'.deleted = false ∧ shared'.nodes obj'.data.Root =
        some (overwritten slots obj.pendingStorage) := by
  have hSlots := slots_updateTrie h hDirty addr
  have hSame : SameAccount obj (obj.updateTrie shared noFaults addr) := by
    unfold stateObject.updateTrie
    rw [finalise_of_clean hDirty, h.getTrie]
    have hFold := foldl_updateSlot_same obj.pendingStorage.entries addr
      { obj with trie := some slots }
    exact ⟨hFold.data, hFold.deleted⟩
  unfold stateObject.CommitTrie at hCommit
  dsimp only at hCommit
  split at hCommit
  · cases hCommit
  · rw [if_neg (by simp [noFaults])] at hCommit
    cases hCommit
    rw [hSlots, hSame.data]
    exact ⟨rfl, hSame.deleted.trans h.alive, update_self ..⟩

omit [DecidableEq Root] in
theorem Coherent.of_extends {written : Storage} (h : Coherent hashing shared slots written obj)
    (intact : shared.Intact hashing) (hExtends : Extends hashing shared shared') :
    Coherent hashing shared' slots written obj where
  root := hExtends.nodes _ _ h.root (intact.rooted _ _ h.root)
  trie := h.trie
  origin := h.origin
  loaded := h.loaded
  code := by
    unfold readCode
    rw [hExtends.codes]
    exact h.code
  alive := h.alive
  notSuicided := h.notSuicided

/-- An object that is committed to the database. -/
structure Committed (hashing : Hashing Root CodeHash) (shared shared' : Shared Root CodeHash)
    (obj obj' : stateObject Root CodeHash) : Prop where
  data : ∃ root, obj'.data = { obj.data with Root := root }
  alive : obj'.deleted = false
  slots : ∀ slots, shared.nodes obj.data.Root = some slots →
    shared'.nodes obj'.data.Root = some (overwritten slots obj.pendingStorage)

variable {s s' : StateDB Root CodeHash} {order : List Address}

omit [DecidableEq CodeHash] in
theorem commitObjects_of_not_mem {faults : Faults} {err : Option String}
    (hCommit : StateDB.commitObjects hashing faults order shared s = (err, shared', s'))
    (h : addr ∉ order) : s'.stateObjects addr = s.stateObjects addr := by
  induction order generalizing shared s with
  | nil =>
    cases hCommit
    rfl
  | cons visited order ih =>
    obtain ⟨hNe, hRest⟩ := not_or.mp (mt List.mem_cons.mpr h)
    unfold StateDB.commitObjects at hCommit
    split at hCommit
    · exact ih hCommit hRest
    · split_ifs at hCommit
      · exact ih hCommit hRest
      · split at hCommit
        · cases hCommit
          exact update_of_ne hNe ..
        · rw [ih hCommit hRest]
          exact update_of_ne hNe ..

/-- The loop over the dirty objects commits each of them. -/
theorem commitObjects_spec (intact : shared.Intact hashing) {start : Shared Root CodeHash}
    (hStart : Extends hashing shared start) (hNodup : order.Nodup)
    (hObjects : ∀ addr ∈ order, ∀ obj, s.stateObjects addr = some obj →
      obj.dirtyStorage = ∅ ∧ ∃ slots, Coherent hashing shared slots obj.pendingStorage obj)
    (hCommit : StateDB.commitObjects hashing noFaults order start s = (none, shared', s')) :
    ∀ addr ∈ order, ∀ obj, s.stateObjects addr = some obj →
      ∃ obj', s'.stateObjects addr = some obj' ∧ Committed hashing shared shared' obj obj' := by
  induction order generalizing start s with
  | nil => exact nofun
  | cons visited order ih =>
    obtain ⟨hNew, hNodup⟩ := List.nodup_cons.mp hNodup
    have hRest := fun addr hAddr => hObjects addr (List.mem_cons_of_mem _ hAddr)
    unfold StateDB.commitObjects at hCommit
    cases hVisited : s.stateObjects visited with
    | none =>
      rw [hVisited] at hCommit
      intro addr hAddr obj hObj
      rcases List.mem_cons.mp hAddr with rfl | hAddr
      · rw [hVisited] at hObj
        cases hObj
      · exact ih hStart hNodup hRest hCommit addr hAddr obj hObj
    | some visitedObj =>
      obtain ⟨hDirty, slots, hCoherent⟩ := hObjects visited List.mem_cons_self _ hVisited
      rw [hVisited] at hCommit
      dsimp only at hCommit
      rw [if_neg (by simp [hCoherent.alive])] at hCommit
      have hExtends := extends_commitTrie hashing noFaults start visitedObj visited
      rcases hTrie : visitedObj.CommitTrie hashing start noFaults visited with
        ⟨_ | err, mid, committed⟩
      · rw [hTrie] at hCommit hExtends
        dsimp only at hCommit
        obtain ⟨hData, hAlive, hNode⟩ :=
          CommitTrie_spec (hCoherent.of_extends intact hStart) hDirty hTrie
        intro addr hAddr obj hObj
        rcases List.mem_cons.mp hAddr with rfl | hAddr
        · cases hVisited.symm.trans hObj
          refine ⟨committed, ?_, ⟨_, hData⟩, hAlive, fun other hOther => ?_⟩
          · rw [commitObjects_of_not_mem hCommit hNew]
            exact setStateObject_self ..
          · have hLater := extends_commitObjects hashing noFaults order mid
              (s.setStateObject addr committed)
            rw [hCommit] at hLater
            cases hCoherent.root.symm.trans hOther
            exact hLater.nodes _ _ hNode (by rw [hData])
        · have hNe : addr ≠ visited := fun h => hNew (h ▸ hAddr)
          have hSame : (s.setStateObject visited committed).stateObjects addr =
              s.stateObjects addr := update_of_ne hNe ..
          refine ih (hStart.trans hExtends) hNodup ?_ hCommit addr hAddr obj (hSame.trans hObj)
          intro other hOther otherObj hOtherObj
          have hOtherNe : other ≠ visited := fun h => hNew (h ▸ hOther)
          exact hRest other hOther otherObj ((update_of_ne hOtherNe ..).symm.trans hOtherObj)
      · rw [hTrie] at hCommit
        cases hCommit

/-- The order in which a loop visits the addresses of a set. -/
def Visits (order : List Address) (set : Address → Bool) : Prop :=
  order.Nodup ∧ ∀ addr, addr ∈ order ↔ set addr = true

/-- A run of updates on a fresh state database over an intact trie and database, and its
flush, which returns no error. -/
structure FlushedRun (hashing : Hashing Root CodeHash) where
  shared : Shared Root CodeHash
  intact : shared.Intact hashing
  ops : List StateDB.Op
  updates : ∀ op ∈ ops, op.isUpdate
  s : StateDB Root CodeHash
  runs : StateDB.run hashing shared noFaults .NewWithTrie ops = some s
  dirtyOrder : List Address
  pendingOrder : List Address
  dirtyVisits : Visits dirtyOrder (s.Finalise hashing false).stateObjectsDirty
  pendingVisits : Visits pendingOrder (s.Finalise hashing false).stateObjectsPending
  shared' : Shared Root CodeHash
  s' : StateDB Root CodeHash
  flushes : s.IntermediateShared_Re hashing shared noFaults dirtyOrder pendingOrder =
    some (none, shared', s')

/-- Every other state database over the same trie and database, once it drops what it has
loaded, reads what the flushing one read. -/
def Published (run : FlushedRun hashing) : Prop :=
  ∀ other : StateDB Root CodeHash,
    SameReads hashing noFaults run.shared' other.ResetObjectCache run.shared run.s

namespace FlushedRun

variable (run : FlushedRun hashing)

theorem updated : Updated hashing run.shared run.ops run.s :=
  updated_of_run run.intact run.updates run.runs

theorem mem_order_iff {order : List Address} {set : Address → Bool} (hVisits : Visits order set)
    (hSet : ∀ addr, set addr = (decide (0 < run.s.dirties addr) &&
      (run.s.stateObjects addr).isSome)) (addr : Address) :
    addr ∈ order ↔ 0 < run.s.dirties addr := by
  rw [hVisits.2, hSet]
  have hLocal := run.updated.known addr
  cases hObj : run.s.stateObjects addr with
  | none =>
    rw [hObj] at hLocal
    simp [hLocal.1]
  | some obj => simp

theorem mem_dirtyOrder (addr : Address) : addr ∈ run.dirtyOrder ↔ 0 < run.s.dirties addr :=
  run.mem_order_iff run.dirtyVisits (fun addr => by
    simp [StateDB.Finalise, StateDB.clearJournalAndRefund, run.updated.dirtySet]) addr

theorem mem_pendingOrder (addr : Address) : addr ∈ run.pendingOrder ↔ 0 < run.s.dirties addr :=
  run.mem_order_iff run.pendingVisits (fun addr => by
    simp [StateDB.Finalise, StateDB.clearJournalAndRefund, run.updated.pending]) addr

theorem loops : ∃ mid flushed trie, StateDB.commitObjects hashing noFaults run.dirtyOrder run.shared
      (run.s.Finalise hashing false) = (none, mid, flushed) ∧
    (∀ addr, trie addr = if addr ∈ run.pendingOrder then
      (flushed.stateObjects addr).elim (mid.trie addr) fun obj =>
        if obj.deleted then none else some obj.data else mid.trie addr) ∧
    run.shared' = { mid with trie := trie } := by
  have h := run.flushes
  unfold StateDB.IntermediateShared_Re StateDB.CommitDirtyStorage at h
  rcases hCommit : StateDB.commitObjects hashing noFaults run.dirtyOrder run.shared
    (run.s.Finalise hashing false) with ⟨_ | err, mid, flushed⟩
  · rw [hCommit] at h
    obtain ⟨trie, hTrie, hEq⟩ := Option.bind_eq_some_iff.mp h
    have hShared := congrArg (Option.map fun result => result.2.1) hEq
    have hWrite := writeAccounts_spec hTrie
    exact ⟨mid, flushed, trie, rfl, hWrite, (Option.some.inj hShared).symm⟩
  · rw [hCommit] at h
    cases h

theorem finalised (hDirty : 0 < run.s.dirties addr) (hObj : run.s.stateObjects addr = some obj) :
    (run.s.Finalise hashing false).stateObjects addr = some obj.finalise := by
  have hKnown := run.updated.known addr
  rw [hObj] at hKnown
  obtain ⟨slots, hCoherent⟩ := Known.coherent hKnown
  change (if 0 < run.s.dirties addr then _ else _) = _
  rw [if_pos hDirty, hObj]
  simp [hCoherent.notSuicided]

theorem finalised_coherent (hObj : run.s.stateObjects addr = some obj) :
    obj.finalise.dirtyStorage = ∅ ∧
      ∃ slots, Coherent hashing run.shared slots obj.finalise.pendingStorage obj.finalise := by
  have hKnown := run.updated.known addr
  rw [hObj] at hKnown
  obtain ⟨slots, h⟩ := Known.coherent hKnown
  refine ⟨rfl, slots, h.root, h.trie, h.origin, fun key value hValue => ?_, h.code, h.alive,
    h.notSuicided⟩
  rw [lookup_finalise (Known.pending hKnown)] at hValue
  exact h.loaded key value hValue

theorem codes : run.shared'.codes = run.shared.codes := by
  obtain ⟨mid, flushed, trie, hCommit, _, hShared⟩ := run.loops
  have hExtends := extends_commitObjects hashing noFaults run.dirtyOrder run.shared
    (run.s.Finalise hashing false)
  rw [hCommit] at hExtends
  rw [hShared]
  exact hExtends.codes

theorem nodes {root : Root} (h : run.shared.nodes root = some slots) :
    run.shared'.nodes root = some slots := by
  obtain ⟨mid, flushed, trie, hCommit, _, hShared⟩ := run.loops
  have hExtends := extends_commitObjects hashing noFaults run.dirtyOrder run.shared
    (run.s.Finalise hashing false)
  rw [hCommit] at hExtends
  rw [hShared]
  exact hExtends.nodes root slots h (run.intact.rooted root slots h)

theorem trie_of_clean (hClean : run.s.dirties addr = 0) :
    run.shared'.trie addr = run.shared.trie addr := by
  obtain ⟨mid, flushed, trie, hCommit, hWrite, hShared⟩ := run.loops
  have hExtends := extends_commitObjects hashing noFaults run.dirtyOrder run.shared
    (run.s.Finalise hashing false)
  rw [hCommit] at hExtends
  rw [hShared]
  change trie addr = _
  rw [hWrite, if_neg (by simp [run.mem_pendingOrder, hClean]), hExtends.trie]

theorem trie_of_dirty (hDirty : 0 < run.s.dirties addr) (hObj : run.s.stateObjects addr = some obj)
    (hSlots : run.shared.nodes obj.data.Root = some slots) :
    ∃ root, run.shared'.trie addr = some { obj.data with Root := root } ∧
      run.shared'.nodes root = some (overwritten slots obj.dirtyStorage) := by
  obtain ⟨mid, flushed, trie, hCommit, hWrite, hShared⟩ := run.loops
  have hObjects : ∀ other ∈ run.dirtyOrder, ∀ otherObj,
      (run.s.Finalise hashing false).stateObjects other = some otherObj →
        otherObj.dirtyStorage = ∅ ∧
          ∃ slots, Coherent hashing run.shared slots otherObj.pendingStorage otherObj := by
    intro other hOther otherObj hOtherObj
    have hOtherDirty := (run.mem_dirtyOrder other).mp hOther
    have hLocal := run.updated.known other
    cases hLive : run.s.stateObjects other with
    | none =>
      rw [hLive] at hLocal
      exact absurd hLocal.1 hOtherDirty.ne'
    | some live =>
      cases (run.finalised hOtherDirty hLive).symm.trans hOtherObj
      exact run.finalised_coherent hLive
  obtain ⟨committed, hCached, ⟨root, hData⟩, hAlive, hNode⟩ :=
    commitObjects_spec run.intact (.refl _) run.dirtyVisits.1 hObjects hCommit addr
      ((run.mem_dirtyOrder addr).mpr hDirty) obj.finalise (run.finalised hDirty hObj)
  have hKnown := run.updated.known addr
  rw [hObj] at hKnown
  have hPending : overwritten slots obj.finalise.pendingStorage =
      overwritten slots obj.dirtyStorage := by
    funext key
    rw [overwritten, overwritten, lookup_finalise (Known.pending hKnown)]
  refine ⟨root, ?_, ?_⟩
  · rw [hShared]
    change trie addr = _
    rw [hWrite, if_pos ((run.mem_pendingOrder addr).mpr hDirty), hCached]
    simp only [Option.elim_some, hAlive, Bool.false_eq_true, if_false, hData]
    rfl
  · rw [hShared, ← hPending, ← hNode slots hSlots, hData]

/-! ### What the others read -/

/-- The code that is read from the table is the one that the object has. -/
def CodeReadable (hashing : Hashing Root CodeHash) (shared : Shared Root CodeHash) (code : Code) :
    Prop :=
  (readCode hashing shared (hashing.keccak256 code)).getD [] = code

theorem getStateObject_eq_some (hObj : run.s.stateObjects addr = some obj) :
    (run.s.getStateObject run.shared addr).1 = some obj := by
  have hKnown := run.updated.known addr
  rw [hObj] at hKnown
  obtain ⟨slots, h⟩ := Known.coherent hKnown
  simp [StateDB.getStateObject, StateDB.getDeletedStateObject, hObj, h.alive]

theorem view_live (hObj : run.s.stateObjects addr = some obj)
    (hSlots : run.shared.nodes obj.data.Root = some slots) :
    run.s.view hashing run.shared noFaults addr = ⟨obj.data.Balance, obj.data.Nonce,
      (obj.Code hashing run.shared).1.getD [], overwritten slots obj.dirtyStorage⟩ := by
  have hKnown := run.updated.known addr
  rw [hObj] at hKnown
  obtain ⟨slots', h⟩ := Known.coherent hKnown
  cases h.root.symm.trans hSlots
  rw [view_of_some (run.getStateObject_eq_some hObj)]
  refine View.ext rfl rfl rfl (funext fun key => ?_)
  exact (h.readsSlot (Known.pending hKnown) addr key).value

theorem code_live (hObj : run.s.stateObjects addr = some obj) :
    (obj.Code hashing run.shared).1.getD [] =
        (readCode hashing run.shared obj.data.CodeHash).getD [] ↔
      ∀ code, obj.dirtyCode = true → obj.code = some code →
        CodeReadable hashing run.shared code := by
  have hKnown := run.updated.known addr
  rw [hObj] at hKnown
  obtain ⟨slots, h⟩ := Known.coherent hKnown
  cases hCode : obj.code with
  | none =>
    refine iff_of_true ?_ nofun
    unfold stateObject.Code readCode
    rw [hCode]
    dsimp only
    split_ifs
    · rfl
    · cases run.shared.codes obj.data.CodeHash <;> rfl
  | some code =>
    have hOwn : (obj.Code hashing run.shared).1 = some code := by
      unfold stateObject.Code
      rw [hCode]
    have hHash := h.code code hCode
    rw [hOwn, Option.getD_some]
    cases hSet : obj.dirtyCode with
    | false =>
      rw [hSet] at hHash
      rw [hHash]
      exact iff_of_true rfl nofun
    | true =>
      rw [hSet] at hHash
      rw [hHash]
      constructor
      · rintro hSame _ _ hEq
        cases hEq
        exact hSame.symm
      · exact fun hAll => (hAll code rfl rfl).symm

/-- A dirty account is published but for a code that is not in the table. -/
theorem view_dirty (hDirty : 0 < run.s.dirties addr) (hObj : run.s.stateObjects addr = some obj)
    (other : StateDB Root CodeHash) :
    other.ResetObjectCache.view hashing run.shared' noFaults addr =
        run.s.view hashing run.shared noFaults addr ↔
      ∀ code, obj.dirtyCode = true → obj.code = some code →
        CodeReadable hashing run.shared code := by
  have hKnown := run.updated.known addr
  rw [hObj] at hKnown
  obtain ⟨slots, h⟩ := Known.coherent hKnown
  obtain ⟨root, hTrie, hNode⟩ := run.trie_of_dirty hDirty hObj h.root
  rw [view_reset_some hTrie hNode, run.view_live hObj h.root, ← run.code_live hObj, Account.view,
    readCode, run.codes, ← readCode]
  simp [noFaults, eq_comm]

/-- What the others read of an account that the flush does not write. -/
theorem view_other {account : Account Root CodeHash} (hClean : run.s.dirties addr = 0)
    (hAccount : run.shared.trie addr = some account)
    (hSlots : run.shared.nodes account.Root = some slots) (other : StateDB Root CodeHash) :
    other.ResetObjectCache.view hashing run.shared' noFaults addr = ⟨account.Balance,
      account.Nonce, (readCode hashing run.shared account.CodeHash).getD [], slots⟩ := by
  rw [view_reset_some ((run.trie_of_clean hClean).trans hAccount) (run.nodes hSlots), Account.view,
    readCode, run.codes, ← readCode]
  simp [noFaults]

/-- A clean account is published unless it was made anew over one that was not empty. -/
theorem view_clean (hClean : run.s.dirties addr = 0) (other : StateDB Root CodeHash) :
    other.ResetObjectCache.view hashing run.shared' noFaults addr =
        run.s.view hashing run.shared noFaults addr ↔
      ∀ account slots, run.shared.trie addr = some account →
        run.shared.nodes account.Root = some slots → .CreateAccount addr ∈ run.ops →
          account.Nonce = 0 ∧ (readCode hashing run.shared account.CodeHash).getD [] = [] ∧
            ∀ key, slots key = 0 := by
  have hLocal := run.updated.known addr
  cases hObj : run.s.stateObjects addr with
  | none =>
    rw [hObj] at hLocal
    refine iff_of_true ?_ fun _ _ _ _ h => absurd h hLocal.2
    have hGet : (run.s.getStateObject run.shared addr).1 =
        (run.shared.trie addr).map newObject := by
      unfold StateDB.getStateObject StateDB.getDeletedStateObject
      rw [hObj]
      cases run.shared.trie addr <;> rfl
    cases hAccount : run.shared.trie addr with
    | none =>
      rw [hAccount] at hGet
      rw [view_of_none hGet, view_reset_none ((run.trie_of_clean hClean).trans hAccount)]
    | some account =>
      rw [hAccount] at hGet
      obtain ⟨slots, hSlots⟩ := run.intact.resolves addr account hAccount
      rw [view_newObject hGet hSlots, run.view_other hClean hAccount hSlots, Account.view]
      simp [noFaults]
  | some obj =>
    rw [hObj] at hLocal
    have h := Known.clean hLocal hClean
    obtain ⟨account, hAccount, hSame, hReset⟩ := h.data
    obtain ⟨slots, hSlots⟩ := run.intact.resolves addr account hAccount
    have hCode := (run.code_live hObj).mpr fun _ hSet => by simp [h.dirtyCode] at hSet
    rw [run.view_other hClean hAccount hSlots]
    by_cases hCreated : .CreateAccount addr ∈ run.ops
    · have hData := hReset hCreated
      have hRoot : run.shared.nodes obj.data.Root = some fun _ => 0 := by
        rw [hData]
        exact run.intact.empty
      have hEmpty : readCode hashing run.shared obj.data.CodeHash = none := by
        rw [hData]
        exact if_pos rfl
      rw [run.view_live hObj hRoot, hCode, hEmpty, h.dirty, hData]
      constructor
      · intro hView account' slots' hAccount' hSlots' _
        cases hAccount.symm.trans hAccount'
        cases hSlots.symm.trans hSlots'
        obtain ⟨_, hNonce, hCodes, hValues⟩ := View.mk.inj hView
        exact ⟨hNonce, hCodes, congrFun hValues⟩
      · intro hAll
        obtain ⟨hNonce, hCodes, hValues⟩ := hAll account slots hAccount hSlots hCreated
        exact View.ext rfl hNonce hCodes (funext hValues)
    · have hData := hSame hCreated
      refine iff_of_true ?_ fun _ _ _ _ h => absurd h hCreated
      rw [run.view_live hObj (by rw [hData]; exact hSlots), hCode, h.dirty, hData]
      rfl

end FlushedRun

/-- A flush publishes the whole state exactly where each code that was set is empty or in
the table, and where no account was made anew over one that was not empty without any
change that is journaled. -/
theorem published_iff (run : FlushedRun hashing) : Published run ↔
    (∀ addr obj code, run.s.stateObjects addr = some obj → obj.dirtyCode = true →
      obj.code = some code → FlushedRun.CodeReadable hashing run.shared code) ∧
    ∀ addr account slots, run.shared.trie addr = some account →
      run.shared.nodes account.Root = some slots → .CreateAccount addr ∈ run.ops →
        run.s.dirties addr = 0 → account.Nonce = 0 ∧
          (readCode hashing run.shared account.CodeHash).getD [] = [] ∧ ∀ key, slots key = 0 := by
  constructor
  · intro h
    refine ⟨fun addr obj code hObj hSet hCode => ?_, ?_⟩
    · have hLocal := run.updated.known addr
      rw [hObj] at hLocal
      rcases Nat.eq_zero_or_pos (run.s.dirties addr) with hClean | hDirty
      · exact absurd hSet (by simp [(Known.clean hLocal hClean).dirtyCode])
      · exact (run.view_dirty hDirty hObj .NewWithTrie).mp (h .NewWithTrie addr) code hSet hCode
    · intro addr account slots hAccount hSlots hCreated hClean
      exact (run.view_clean hClean .NewWithTrie).mp (h .NewWithTrie addr) account slots hAccount
        hSlots hCreated
  · rintro ⟨hCodes, hResets⟩ other addr
    rcases Nat.eq_zero_or_pos (run.s.dirties addr) with hClean | hDirty
    · exact (run.view_clean hClean other).mpr fun account slots hAccount hSlots hCreated =>
        hResets addr account slots hAccount hSlots hCreated hClean
    · cases hObj : run.s.stateObjects addr with
      | none =>
        have hLocal := run.updated.known addr
        rw [hObj] at hLocal
        exact absurd hLocal.1 hDirty.ne'
      | some obj => exact (run.view_dirty hDirty hObj other).mpr fun code => hCodes addr obj code hObj

end Flush

/-- Nothing is stored yet. -/
def emptyShared : Shared Slots Code where
  trie _ := none
  nodes slots := some slots
  codes _ := none

/-- Roots and hashes that keep all information. -/
def transparent : Hashing Slots Code := ⟨id, id, injective_id⟩

/-- The creation of a contract. -/
def creation : List StateDB.Op := [.CreateAccount 1, .SetNonce 1 1, .SetCode 1 [0x60]]

open Classical in
noncomputable def created : StateDB Slots Code :=
  ((StateDB.NewWithTrie.CreateAccount transparent emptyShared 1).SetNonce transparent emptyShared
    1 1).SetCode transparent emptyShared 1 [0x60]

open Classical in
theorem created_dirties {addr : Address} (h : addr ≠ 1) : created.dirties addr = 0 :=
  (update_of_ne h ..).trans ((update_of_ne h ..).trans (update_of_ne h ..))

open Classical in
theorem visits_created {set : Address → Bool}
    (h : ∀ addr, set addr = (decide (0 < created.dirties addr) &&
      (created.stateObjects addr).isSome)) : Visits [1] set := by
  refine ⟨List.nodup_singleton 1, fun addr => ?_⟩
  rw [h]
  by_cases hAddr : addr = 1
  · subst hAddr
    exact iff_of_true List.mem_cons_self rfl
  · exact iff_of_false (by simpa using hAddr) (by simp [created_dirties hAddr])

open Classical in
noncomputable def creationFlush : FlushedRun transparent where
  shared := emptyShared
  intact := ⟨fun _ _ h => (Option.some.inj h).symm, rfl, nofun⟩
  ops := creation
  updates := by decide
  s := created
  runs := rfl
  dirtyOrder := [1]
  pendingOrder := [1]
  dirtyVisits := visits_created fun _ => rfl
  pendingVisits := visits_created fun _ => rfl
  shared' := _
  s' := _
  flushes := rfl

open Classical in
theorem created_code_unreadable : ¬ Published creationFlush := by
  intro h
  have hCode := congrArg View.code (h .NewWithTrie 1)
  cases hCode

end Nezha.State
