import NezhaConcurrency.Export.Witness

/-! The witness of a block is the state before its first transaction. A trace has the
values from before its own transaction. When it is the first to list an account or a
slot, no earlier transaction has changed it, so these values are still the first ones. -/
namespace Nezha

open List

theorem lookup_addSlots (existing storage : StorageMap) (slot : String) :
    (addSlots existing storage).lookup slot = (existing.lookup slot).or (storage.lookup slot) := by
  have hVisit : ∀ (m : StorageMap) (key value : String),
      (addSlot m ⟨key, value⟩).lookup key = some ((m.lookup key).getD value) := by
    intro m key value
    unfold addSlot
    split
    · next hIn =>
        obtain ⟨old, hOld⟩ := AList.lookup_isSome.mpr hIn |> Option.isSome_iff_exists.mp
        rw [hOld]
        rfl
    · next hNew => rw [AList.lookup_insert, AList.lookup_eq_none.mpr hNew, Option.getD_none]
  have hOther : ∀ (m : StorageMap) (key value other : String), other ≠ key →
      (addSlot m ⟨key, value⟩).lookup other = m.lookup other := by
    intro m key value other hne
    unfold addSlot
    split
    · rfl
    · exact AList.lookup_insert_ne hne
  unfold addSlots
  rw [RangeLoop.lookup_foldl (fun _ value old => some (old.getD value)) hVisit hOther]
  cases storage.lookup slot <;> cases existing.lookup slot <;> rfl

/-- What the trace of a transaction makes of the entry of an account. -/
def visited (acct : Option PrestateAccount) (entry : Option WitnessAccount) :
    Option WitnessAccount :=
  match acct, entry with
  | none, entry => entry
  | some acct, none => some (firstSeen acct)
  | some acct, some existing =>
    some { existing with Storage := addSlots existing.Storage acct.Storage }

theorem lookup_processPrestate (witness : BlockWitness) (accounts : AccountMap) (addr : String) :
    (processPrestate witness accounts).1.Accounts.lookup addr =
      visited (accounts.account addr) (witness.Accounts.lookup addr) := by
  have hSelf : ∀ (m : AList fun _ : String => WitnessAccount) (key : String)
      (acct : Option PrestateAccount),
      (addAccount m ⟨key, acct⟩).lookup key = visited acct (m.lookup key) := by
    intro m key acct
    cases acct with
    | none => rfl
    | some acct =>
      cases hOld : m.lookup key with
      | none => simp only [addAccount, visited, hOld, AList.lookup_insert]
      | some existing => simp only [addAccount, visited, hOld, AList.lookup_insert]
  have hOther : ∀ (m : AList fun _ : String => WitnessAccount) (key : String)
      (acct : Option PrestateAccount) (other : String), other ≠ key →
      (addAccount m ⟨key, acct⟩).lookup other = m.lookup other := by
    intro m key acct other hne
    cases acct with
    | none => rfl
    | some acct =>
      cases hOld : m.lookup key with
      | none => simp only [addAccount, hOld, AList.lookup_insert_ne hne]
      | some existing => simp only [addAccount, hOld, AList.lookup_insert_ne hne]
  unfold processPrestate AccountMap.account
  rw [RangeLoop.lookup_foldl (fun _ acct => visited acct) hSelf hOther]
  cases accounts.lookup addr <;> rfl

/-- What is recorded of an account besides its storage. -/
structure AccountFields where
  Balance : String
  Nonce : String
  CodeHash : String
  Code : String

def PrestateAccount.fields (acct : PrestateAccount) : AccountFields :=
  ⟨acct.Balance, acct.Nonce, acct.CodeHash, acct.Code⟩

def WitnessAccount.fields (acct : WitnessAccount) : AccountFields :=
  ⟨acct.Balance, acct.Nonce, acct.CodeHash, acct.Code⟩

/-- A state of the chain, under the texts that the tracer prints. -/
structure ChainState where
  account : String → AccountFields
  slot : String → String → String

/-- The accounts and slots of the trace have the values of the state. -/
structure Gives (state : ChainState) (accounts : AccountMap) : Prop where
  account : ∀ addr acct, accounts.account addr = some acct → acct.fields = state.account addr
  slot : ∀ addr acct slot value, accounts.account addr = some acct →
    acct.Storage.lookup slot = some value → value = state.slot addr slot

def AccountMap.Lists (accounts : AccountMap) (addr : String) : Prop :=
  (accounts.account addr).isSome

def AccountMap.ListsSlot (accounts : AccountMap) (addr slot : String) : Prop :=
  ∃ acct, accounts.account addr = some acct ∧ slot ∈ acct.Storage

/-- Only what the trace lists has changed. -/
structure ChangesOnly (accounts : AccountMap) (state state' : ChainState) : Prop where
  account : ∀ addr, ¬ accounts.Lists addr → state'.account addr = state.account addr
  slot : ∀ addr slot, ¬ accounts.ListsSlot addr slot → state'.slot addr slot = state.slot addr slot

/-- Transaction `i` runs from state `i` to state `i + 1`. -/
structure BlockRun (traces : List PrestateTracerResult) (states : Nat → ChainState) : Prop where
  gives : ∀ i trace, traces[i]? = some trace → Gives (states i) trace.Accounts
  changes : ∀ i trace, traces[i]? = some trace →
    ChangesOnly trace.Accounts (states i) (states (i + 1))

section Scan

variable (txs : List (Option String)) (diffTraces : List (Option PrestateTracerResult))

/-- The witness and the sets after a number of traces. -/
def scan (traces : List PrestateTracerResult) : BlockWitness × List TxRWSets :=
  (traces.map some).zipIdx.foldl (traceStep txs diffTraces) (⟨∅⟩, [])

theorem scan_append (traces : List PrestateTracerResult) (trace : PrestateTracerResult) :
    scan txs diffTraces (traces ++ [trace]) =
      traceStep txs diffTraces (scan txs diffTraces traces) (some trace, traces.length) := by
  simp [scan, zipIdx_append]

/-- What the witness says of a slot. -/
def BlockWitness.slot (witness : BlockWitness) (addr slot : String) : Option String :=
  (witness.Accounts.lookup addr).bind fun acct => acct.Storage.lookup slot

theorem slot_processPrestate (witness : BlockWitness) (accounts : AccountMap) (addr slot : String) :
    (processPrestate witness accounts).1.slot addr slot = (witness.slot addr slot).or
      ((accounts.account addr).bind fun acct => acct.Storage.lookup slot) := by
  unfold BlockWitness.slot
  rw [lookup_processPrestate]
  cases accounts.account addr with
  | none => simp [visited]
  | some acct =>
    cases witness.Accounts.lookup addr with
    | none => simp [visited, firstSeen]
    | some existing => simp [visited, lookup_addSlots]

/-- After the traces so far: what they list is recorded with its first value, and
nothing else has changed since the first state. -/
structure Witnessed (states : Nat → ChainState) (traces : List PrestateTracerResult)
    (witness : BlockWitness) : Prop where
  account : ∀ addr, (∃ trace ∈ traces, trace.Accounts.Lists addr) →
    ∃ acct, witness.Accounts.lookup addr = some acct ∧ acct.fields = (states 0).account addr
  slot : ∀ addr slot, (∃ trace ∈ traces, trace.Accounts.ListsSlot addr slot) →
    witness.slot addr slot = some ((states 0).slot addr slot)
  newAccount : ∀ addr, (¬ ∃ trace ∈ traces, trace.Accounts.Lists addr) →
    witness.Accounts.lookup addr = none ∧
      (states traces.length).account addr = (states 0).account addr
  newSlot : ∀ addr slot, (¬ ∃ trace ∈ traces, trace.Accounts.ListsSlot addr slot) →
    witness.slot addr slot = none ∧
      (states traces.length).slot addr slot = (states 0).slot addr slot

variable {txs diffTraces} {states : Nat → ChainState} {traces : List PrestateTracerResult}

variable {trace : PrestateTracerResult}

theorem Witnessed.processPrestate {witness : BlockWitness}
    (witnessed : Witnessed states traces witness)
    (gives : Gives (states traces.length) trace.Accounts)
    (changes : ChangesOnly trace.Accounts (states traces.length) (states (traces.length + 1))) :
    Witnessed states (traces ++ [trace]) (processPrestate witness trace.Accounts).1 := by
  have hLength : (traces ++ [trace]).length = traces.length + 1 := by simp
  have hSplit : ∀ p : PrestateTracerResult → Prop,
      (∃ t ∈ traces ++ [trace], p t) ↔ (∃ t ∈ traces, p t) ∨ p trace := by
    intro p
    simp [or_and_right, exists_or]
  refine ⟨fun addr hListed => ?_, fun addr slot hListed => ?_, fun addr hNew => ?_,
    fun addr slot hNew => ?_⟩
  · rw [lookup_processPrestate]
    by_cases hOld : ∃ t ∈ traces, t.Accounts.Lists addr
    · obtain ⟨existing, hLookup, hFields⟩ := witnessed.account addr hOld
      rw [hLookup]
      cases trace.Accounts.account addr with
      | none => exact ⟨existing, rfl, hFields⟩
      | some acct => exact ⟨_, rfl, hFields⟩
    · obtain ⟨hLookup, hSame⟩ := witnessed.newAccount addr hOld
      have hLists := ((hSplit _).mp hListed).resolve_left hOld
      obtain ⟨acct, hAcct⟩ := Option.isSome_iff_exists.mp hLists
      rw [hLookup, hAcct]
      exact ⟨firstSeen acct, rfl, (gives.account addr acct hAcct).trans hSame⟩
  · rw [slot_processPrestate]
    by_cases hOld : ∃ t ∈ traces, t.Accounts.ListsSlot addr slot
    · rw [witnessed.slot addr slot hOld, Option.some_or]
    · obtain ⟨hNone, hSame⟩ := witnessed.newSlot addr slot hOld
      obtain ⟨acct, hAcct, hSlot⟩ := ((hSplit _).mp hListed).resolve_left hOld
      obtain ⟨value, hValue⟩ := Option.isSome_iff_exists.mp (AList.lookup_isSome.mpr hSlot)
      rw [hNone, hAcct, Option.none_or, Option.bind_some, hValue,
        gives.slot addr acct slot value hAcct hValue, hSame]
  · rw [hSplit, not_or] at hNew
    obtain ⟨hLookup, hSame⟩ := witnessed.newAccount addr hNew.1
    have hAcct : trace.Accounts.account addr = none := Option.not_isSome_iff_eq_none.mp hNew.2
    rw [lookup_processPrestate, hLookup, hAcct, hLength]
    exact ⟨rfl, (changes.account addr hNew.2).trans hSame⟩
  · rw [hSplit, not_or] at hNew
    obtain ⟨hNone, hSame⟩ := witnessed.newSlot addr slot hNew.1
    rw [slot_processPrestate, hNone, hLength, Option.none_or]
    refine ⟨?_, (changes.slot addr slot hNew.2).trans hSame⟩
    cases hAcct : trace.Accounts.account addr with
    | none => rfl
    | some acct =>
      refine AList.lookup_eq_none.mpr fun hSlot => hNew.2 ⟨acct, hAcct, hSlot⟩

theorem BlockRun.dropLast (run : BlockRun (traces ++ [trace]) states) : BlockRun traces states := by
  have hOld : ∀ (i : Nat) t, traces[i]? = some t → (traces ++ [trace])[i]? = some t := by
    intro i t hi
    rw [getElem?_append_left (List.getElem?_eq_some_iff.mp hi).1, hi]
  exact ⟨fun i t hi => run.gives i t (hOld i t hi), fun i t hi => run.changes i t (hOld i t hi)⟩

theorem BlockRun.witnessed (run : BlockRun traces states) :
    Witnessed states traces (scan txs diffTraces traces).1 := by
  induction traces using List.reverseRecOn with
  | nil =>
    refine ⟨?_, ?_, fun addr _ => ⟨AList.lookup_empty addr, rfl⟩, fun addr slot _ => ?_⟩
    · rintro addr ⟨t, ht, _⟩
      exact absurd ht not_mem_nil
    · rintro addr slot ⟨t, ht, _⟩
      exact absurd ht not_mem_nil
    · exact ⟨by simp [scan, BlockWitness.slot], rfl⟩
  | append_singleton traces trace ih =>
    have hLast : (traces ++ [trace])[traces.length]? = some trace := by simp
    rw [scan_append]
    exact (ih run.dropLast).processPrestate (run.gives _ _ hLast) (run.changes _ _ hLast)

theorem length_scan (traces : List PrestateTracerResult) :
    (scan txs diffTraces traces).2.length = traces.length := by
  induction traces using List.reverseRecOn with
  | nil => rfl
  | append_singleton traces trace ih => simp [scan_append, traceStep, ih]

theorem scan_readKeys {i : Nat} (hi : traces[i]? = some trace) (witness : BlockWitness) :
    ∃ sets, (scan txs diffTraces traces).2[i]? = some sets ∧
      sets.ReadKeys = sortedKeys (processPrestate witness trace.Accounts).2 := by
  induction traces using List.reverseRecOn with
  | nil => simp at hi
  | append_singleton traces last ih =>
    rw [scan_append]
    by_cases hOld : i < traces.length
    · rw [getElem?_append_left hOld] at hi
      obtain ⟨sets, hSets, hKeys⟩ := ih hi
      refine ⟨sets, ?_, hKeys⟩
      simp only [traceStep]
      rw [getElem?_append_left (by rwa [length_scan]), hSets]
    · rw [getElem?_append_right (by omega)] at hi
      have hLast : i = traces.length := by
        have := (List.getElem?_eq_some_iff.mp hi).1
        simp only [length_singleton] at this
        omega
      subst hLast
      simp only [Nat.sub_self, getElem?_cons_zero, Option.some.injEq] at hi
      subst hi
      simp only [traceStep]
      rw [getElem?_append_right (by rw [length_scan]), length_scan, Nat.sub_self]
      exact ⟨_, rfl, rfl⟩

theorem mem_sortedKeys {keys : List String} {key : String} :
    key ∈ sortedKeys keys ↔ key ∈ keys := by
  rw [sortedKeys, mem_sortStrings, mem_uniqueKeys]

theorem slotKey_mem_readKeys {accounts : AccountMap} {addr slot : String}
    (hSlot : accounts.ListsSlot addr slot) (witness : BlockWitness) :
    SlotKey addr slot ∈ (processPrestate witness accounts).2 := by
  obtain ⟨acct, hAcct, hSlot⟩ := hSlot
  have hEntry : (⟨addr, some acct⟩ : Sigma fun _ : String => Option PrestateAccount) ∈
      accounts.entries := by
    apply AList.mem_lookup_iff.mp
    exact Option.join_eq_some_iff.mp hAcct
  refine mem_flatMap.mpr ⟨_, hEntry, ?_⟩
  simp only [prestateKeys, append_assoc]
  exact mem_append_left _ (mem_map_of_mem hSlot)

/-- The witness has the accounts and slots that any transaction touches with their
values from before the block, and the read keys of each transaction have its slots. -/
theorem witness_is_prestate (txs : List (Option String))
    (diffTraces : List (Option PrestateTracerResult)) (receipts : List (Option Receipt))
    {traces : List PrestateTracerResult} {states : Nat → ChainState}
    (run : BlockRun traces states) :
    (∀ trace ∈ traces, ∀ addr, trace.Accounts.Lists addr → ∃ acct,
      (BuildBlockWitness txs (traces.map some) diffTraces receipts).1.Accounts.lookup addr =
        some acct ∧ acct.fields = (states 0).account addr ∧
      ∀ trace' ∈ traces, ∀ slot, trace'.Accounts.ListsSlot addr slot →
        acct.Storage.lookup slot = some ((states 0).slot addr slot)) ∧
    ∀ (i : Nat) (trace : PrestateTracerResult), traces[i]? = some trace → ∃ sets : TxRWSets,
      (BuildBlockWitness txs (traces.map some) diffTraces receipts).2.1[i]? = some sets ∧
      ∀ addr slot, trace.Accounts.ListsSlot addr slot → SlotKey addr slot ∈ sets.ReadKeys := by
  have witnessed : Witnessed states traces
      (BuildBlockWitness txs (traces.map some) diffTraces receipts).1 := run.witnessed
  refine ⟨fun trace ht addr hAddr => ?_, fun i trace hi => ?_⟩
  · obtain ⟨acct, hAcct, hFields⟩ := witnessed.account addr ⟨trace, ht, hAddr⟩
    refine ⟨acct, hAcct, hFields, fun trace' ht' slot hSlot => ?_⟩
    have hValue := witnessed.slot addr slot ⟨trace', ht', hSlot⟩
    rwa [BlockWitness.slot, hAcct, Option.bind_some] at hValue
  · obtain ⟨sets, hSets, hKeys⟩ := scan_readKeys hi ⟨∅⟩
    refine ⟨sets, hSets, fun addr slot hSlot => ?_⟩
    rw [hKeys, mem_sortedKeys]
    exact slotKey_mem_readKeys hSlot _

end Scan

section Example

/-- An account with one slot. -/
def counterAccount (value : String) : PrestateAccount :=
  ⟨"0x1", "0x2", "0x60", "0x9", AList.insert "0x0" value ∅⟩

def counterTrace (value : String) : PrestateTracerResult :=
  ⟨AList.insert "0xa" (some (counterAccount value)) ∅, ∅⟩

def counterState (value : String) : ChainState where
  account := fun _ => ⟨"0x1", "0x2", "0x9", "0x60"⟩
  slot := fun addr slot => if addr = "0xa" ∧ slot = "0x0" then value else "0x0"

theorem counterTrace_account (value addr : String) : (counterTrace value).Accounts.account addr =
      if addr = "0xa" then some (counterAccount value) else none := by
  split
  · next hAddr => rw [hAddr, AccountMap.account, counterTrace, AList.lookup_insert]; rfl
  · next hAddr =>
      rw [AccountMap.account, counterTrace, AList.lookup_insert_ne hAddr, AList.lookup_empty]
      rfl

theorem mem_counterAccount (value : String) : "0x0" ∈ (counterAccount value).Storage :=
  AList.mem_insert _ |>.mpr (Or.inl rfl)

theorem counter_gives (value : String) :
    Gives (counterState value) (counterTrace value).Accounts := by
  refine ⟨fun addr acct h => ?_, fun addr acct slot found h hSlot => ?_⟩
  · rw [counterTrace_account] at h
    split at h
    · cases h
      rfl
    · cases h
  · rw [counterTrace_account] at h
    split at h
    · next hAddr =>
        cases h
        by_cases hKey : slot = "0x0"
        · subst hKey
          rw [counterAccount, AList.lookup_insert] at hSlot
          subst hAddr
          exact (Option.some.inj hSlot).symm
        · rw [counterAccount, AList.lookup_insert_ne hKey, AList.lookup_empty] at hSlot
          cases hSlot
    · cases h

theorem counter_changesOnly (value value' : String) : ChangesOnly (counterTrace value).Accounts
    (counterState value) (counterState value') := by
  refine ⟨fun _ _ => rfl, fun addr slot hSlot => ?_⟩
  have hOther : ¬ (addr = "0xa" ∧ slot = "0x0") := by
    rintro ⟨rfl, rfl⟩
    exact hSlot ⟨counterAccount value, by rw [counterTrace_account]; rfl, mem_counterAccount value⟩
  simp only [counterState, if_neg hOther]

/-- Two transactions increment the slot. -/
def counterTraces : List PrestateTracerResult := [counterTrace "0x5", counterTrace "0x6"]

def counterStates (i : Nat) : ChainState :=
  counterState (["0x5", "0x6", "0x7"].getD i "0x7")

theorem counter_run : BlockRun counterTraces counterStates := by
  refine ⟨fun i trace hi => ?_, fun i trace hi => ?_⟩
  · match i, hi with
    | 0, rfl => exact counter_gives "0x5"
    | 1, rfl => exact counter_gives "0x6"
  · match i, hi with
    | 0, rfl => exact counter_changesOnly "0x5" "0x6"
    | 1, rfl => exact counter_changesOnly "0x6" "0x7"

/-- The slot is recorded with its value from before the first transaction. -/
theorem witness_is_prestate_counter : ∃ acct,
    (BuildBlockWitness [] (counterTraces.map some) [] []).1.Accounts.lookup "0xa" = some acct ∧
      acct.Storage.lookup "0x0" = some "0x5" := by
  have hSlot : (counterTrace "0x6").Accounts.ListsSlot "0xa" "0x0" :=
    ⟨counterAccount "0x6", by rw [counterTrace_account]; rfl, mem_counterAccount "0x6"⟩
  have hAddr : (counterTrace "0x6").Accounts.Lists "0xa" := by
    rw [AccountMap.Lists, counterTrace_account]
    rfl
  have hIn : counterTrace "0x6" ∈ counterTraces := by simp [counterTraces]
  obtain ⟨acct, hAcct, _, hValue⟩ :=
    (witness_is_prestate [] [] [] counter_run).1 _ hIn "0xa" hAddr
  exact ⟨acct, hAcct, hValue _ hIn "0x0" hSlot⟩

end Example

end Nezha
