import NezhaConcurrency.Contract.MainnetManager

/-! What the conservative sets of a call contain. The keys of an access are specified by
the layout of the contract and the arguments of the transaction. A set that is returned
consists of the keys of every access of every function that is reachable, and a set is
not returned where an access has no key. The calldata of a transaction can make a
deriver fail in a way that no caller handles. -/
namespace Nezha

open CallTree Outcome List

theorem mem_dedupKeys {keys : List String} {key : String} : key ∈ dedupKeys keys ↔ key ∈ keys := by
  have hFold : ∀ result, key ∈ keys.foldl
      (fun result k => if k ∈ result then result else result ++ [k]) result ↔
        key ∈ result ∨ key ∈ keys := by
    induction keys with
    | nil => simp
    | cons k keys ih =>
      intro result
      rw [foldl_cons, ih, mem_cons]
      by_cases hk : k ∈ result
      · rw [if_pos hk]
        constructor
        · exact fun h => h.imp_right Or.inr
        · rintro (h | rfl | h)
          · exact Or.inl h
          · exact Or.inl hk
          · exact Or.inr h
      · rw [if_neg hk, mem_append, mem_singleton, or_assoc]
  simpa [dedupKeys] using hFold []

theorem nodup_dedupKeys (keys : List String) : (dedupKeys keys).Nodup := by
  have hFold : ∀ result : List String, result.Nodup → (keys.foldl
      (fun result k => if k ∈ result then result else result ++ [k]) result).Nodup := by
    induction keys with
    | nil => exact fun _ h => h
    | cons k keys ih =>
      intro result hResult
      rw [foldl_cons]
      apply ih
      by_cases hk : k ∈ result
      · rwa [if_pos hk]
      · rw [if_neg hk]
        exact nodup_append_comm.mp (nodup_cons.mpr ⟨hk, hResult⟩)
  exact hFold [] nodup_nil

variable (m : MainnetContractManager) (crypto : Crypto) (args : MainnetTxArgs)

/-- The key of the deriver registry for a contract. -/
def deriverKey (contractAddr : String) : String :=
  GoString.ToLower contractAddr ++ ":" ++ GoString.ToLower args.Selector

/-- An access that a deriver has to resolve: to a mapping as a whole, or to an entry of a
nested mapping. -/
def NeedsDeriver (item : StorageItem) (acc : LLMFieldAccess) : Prop :=
  acc.Account = "global" ∧ item.KeyType ≠ .simple ∨ item.KeyType = .mapping ∧ item.IsNested = true

/-- The keys of an access to a contract. -/
inductive KeyOf (contractAddr : String) (write : Bool) (acc : LLMFieldAccess) : String → Prop where
  | simple {item : StorageItem} (hItem : m.layoutItem contractAddr acc.Field = some item)
      (hType : item.KeyType = .simple) :
      KeyOf contractAddr write acc (simpleSlotKey contractAddr item.Slot)
  | mapping {item : StorageItem} {addr : String}
      (hItem : m.layoutItem contractAddr acc.Field = some item) (hType : item.KeyType = .mapping)
      (hNested : item.IsNested = false) (hAddr : resolveAccountAddr acc.Account args = some addr) :
      KeyOf contractAddr write acc (mappingSlotKey crypto contractAddr addr item.Slot)
  | outer {item : StorageItem} {addr other : String}
      (hItem : m.layoutItem contractAddr acc.Field = some item) (hType : item.KeyType = .mapping)
      (hNested : item.IsNested = true)
      (hDeriver : derivedKeyDerivers crypto (deriverKey args contractAddr) = none)
      (hAddr : resolveAccountAddr acc.Account args = some addr)
      (hOther : other ∈ collectAvailableAddrs args) :
      KeyOf contractAddr write acc (nestedMappingSlotKey crypto contractAddr addr other item.Slot)
  | inner {item : StorageItem} {addr other : String}
      (hItem : m.layoutItem contractAddr acc.Field = some item) (hType : item.KeyType = .mapping)
      (hNested : item.IsNested = true)
      (hDeriver : derivedKeyDerivers crypto (deriverKey args contractAddr) = none)
      (hAddr : resolveAccountAddr acc.Account args = some addr)
      (hOther : other ∈ collectAvailableAddrs args) :
      KeyOf contractAddr write acc (nestedMappingSlotKey crypto contractAddr other addr item.Slot)
  | derived {item : StorageItem} {deriver : KeyDeriver} {dk : DerivedKey} {key : String}
      (hItem : m.layoutItem contractAddr acc.Field = some item) (hNeeds : NeedsDeriver item acc)
      (hDeriver : derivedKeyDerivers crypto (deriverKey args contractAddr) = some deriver)
      (hKeys : deriver contractAddr acc args = .value dk) (hKey : key ∈ dk.keys write) :
      KeyOf contractAddr write acc key

/-- The access has a key. -/
def Keyed (contractAddr : String) (write : Bool) (acc : LLMFieldAccess) : Prop :=
  ∃ key, KeyOf m crypto args contractAddr write acc key

/-- A deriver is called for the access, and the calldata makes it fail. -/
def AccessWraps (contractAddr : String) (acc : LLMFieldAccess) : Prop :=
  ∃ item, m.layoutItem contractAddr acc.Field = some item ∧ NeedsDeriver item acc ∧
    CalldataWraps (deriverKey args contractAddr) acc args

section Access

variable {m crypto args} {contractAddr : String} {write : Bool} {acc : LLMFieldAccess}
  {item : StorageItem}

/-- What the conversion of an access has to return. -/
def AccessSpec (m : MainnetContractManager) (crypto : Crypto) (args : MainnetTxArgs)
    (contractAddr : String) (write : Bool) (acc : LLMFieldAccess) :
    Outcome Unit (List String) → Prop
  | .value keys => keys ≠ [] ∧ (∀ key, key ∈ keys ↔ KeyOf m crypto args contractAddr write acc key) ∧
      ¬ AccessWraps m args contractAddr acc
  | .error _ => ¬ Keyed m crypto args contractAddr write acc ∧ ¬ AccessWraps m args contractAddr acc
  | .panic => ¬ Keyed m crypto args contractAddr write acc ∧ AccessWraps m args contractAddr acc

theorem keyOf_iff (hItem : m.layoutItem contractAddr acc.Field = some item) {key : String} :
    KeyOf m crypto args contractAddr write acc key ↔
      (item.KeyType = .simple ∧ key = simpleSlotKey contractAddr item.Slot) ∨
      (item.KeyType = .mapping ∧ item.IsNested = false ∧ ∃ addr,
        resolveAccountAddr acc.Account args = some addr ∧
          key = mappingSlotKey crypto contractAddr addr item.Slot) ∨
      (item.KeyType = .mapping ∧ item.IsNested = true ∧
        derivedKeyDerivers crypto (deriverKey args contractAddr) = none ∧ ∃ addr,
          resolveAccountAddr acc.Account args = some addr ∧ ∃ other ∈ collectAvailableAddrs args,
            key = nestedMappingSlotKey crypto contractAddr addr other item.Slot ∨
              key = nestedMappingSlotKey crypto contractAddr other addr item.Slot) ∨
      (NeedsDeriver item acc ∧ ∃ deriver,
        derivedKeyDerivers crypto (deriverKey args contractAddr) = some deriver ∧
          ∃ dk, deriver contractAddr acc args = .value dk ∧ key ∈ dk.keys write) := by
  constructor
  · intro h
    cases h with
    | simple hItem' hType => cases hItem.symm.trans hItem'; exact Or.inl ⟨hType, rfl⟩
    | mapping hItem' hType hNested hAddr =>
      cases hItem.symm.trans hItem'
      exact Or.inr (Or.inl ⟨hType, hNested, _, hAddr, rfl⟩)
    | outer hItem' hType hNested hDeriver hAddr hOther =>
      cases hItem.symm.trans hItem'
      exact Or.inr (Or.inr (Or.inl ⟨hType, hNested, hDeriver, _, hAddr, _, hOther, Or.inl rfl⟩))
    | inner hItem' hType hNested hDeriver hAddr hOther =>
      cases hItem.symm.trans hItem'
      exact Or.inr (Or.inr (Or.inl ⟨hType, hNested, hDeriver, _, hAddr, _, hOther, Or.inr rfl⟩))
    | derived hItem' hNeeds hDeriver hKeys hKey =>
      cases hItem.symm.trans hItem'
      exact Or.inr (Or.inr (Or.inr ⟨hNeeds, _, hDeriver, _, hKeys, hKey⟩))
  · rintro (⟨hType, rfl⟩ | ⟨hType, hNested, _, hAddr, rfl⟩ |
      ⟨hType, hNested, hDeriver, _, hAddr, _, hOther, rfl | rfl⟩ |
      ⟨hNeeds, _, hDeriver, _, hKeys, hKey⟩)
    · exact .simple hItem hType
    · exact .mapping hItem hType hNested hAddr
    · exact .outer hItem hType hNested hDeriver hAddr hOther
    · exact .inner hItem hType hNested hDeriver hAddr hOther
    · exact .derived hItem hNeeds hDeriver hKeys hKey

theorem deriver_spec (hItem : m.layoutItem contractAddr acc.Field = some item)
    (hNeeds : NeedsDeriver item acc) {deriver : KeyDeriver}
    (hDeriver : derivedKeyDerivers crypto (deriverKey args contractAddr) = some deriver) :
    AccessSpec m crypto args contractAddr write acc
      (deriver contractAddr acc args >>= fun dk => .value (dk.keys write)) := by
  have hType : item.KeyType ≠ .simple := by
    rcases hNeeds with h | h
    · exact h.2
    · simp [h.1]
  have hPlain : ¬ (item.KeyType = .mapping ∧ item.IsNested = false ∧ ∃ addr,
      resolveAccountAddr acc.Account args = some addr) := by
    rintro ⟨hMapping, hNested, addr, hAddr⟩
    rcases hNeeds with h | h
    · simp [h.1, resolveAccountAddr] at hAddr
    · simp [hNested] at h
  have hKeys : ∀ key, KeyOf m crypto args contractAddr write acc key ↔
      ∃ dk, deriver contractAddr acc args = .value dk ∧ key ∈ dk.keys write := by
    intro key
    rw [keyOf_iff hItem]
    simp only [hType, false_and, hDeriver, hNeeds, true_and, Option.some.injEq, exists_eq_left',
      false_or, reduceCtorEq, and_false]
    refine or_iff_right fun ⟨hMapping, hNested, addr, hAddr, _⟩ => ?_
    exact hPlain ⟨hMapping, hNested, addr, hAddr⟩
  have hWraps : AccessWraps m args contractAddr acc ↔ deriver contractAddr acc args = .panic := by
    rw [deriver_eq_panic hDeriver]
    exact ⟨fun ⟨_, _, _, h⟩ => h, fun h => ⟨item, hItem, hNeeds, h⟩⟩
  cases hOutcome : deriver contractAddr acc args with
  | value dk =>
    rw [value_bind]
    refine ⟨deriver_keys_nonempty hDeriver hOutcome write, fun key => ?_, ?_⟩
    · simp [hKeys, hOutcome]
    · simp [hWraps, hOutcome]
  | error err =>
    rw [error_bind]
    refine ⟨fun ⟨key, hKey⟩ => ?_, ?_⟩
    · simp [hKeys, hOutcome] at hKey
    · simp [hWraps, hOutcome]
  | panic =>
    rw [panic_bind]
    refine ⟨fun ⟨key, hKey⟩ => ?_, ?_⟩
    · simp [hKeys, hOutcome] at hKey
    · simp [hWraps, hOutcome]

theorem mem_nestedKeys {accAddr key : String} {slot : UInt64} :
    key ∈ MainnetContractManager.nestedKeys crypto args contractAddr accAddr slot ↔
      ∃ other ∈ collectAvailableAddrs args,
        key = nestedMappingSlotKey crypto contractAddr accAddr other slot ∨
          key = nestedMappingSlotKey crypto contractAddr other accAddr slot := by
  simp [MainnetContractManager.nestedKeys, mem_dedupKeys]

theorem resolveAccountAddr_mem {addr : String}
    (h : resolveAccountAddr acc.Account args = some addr) : addr ∈ collectAvailableAddrs args := by
  unfold resolveAccountAddr at h
  unfold collectAvailableAddrs
  split_ifs at h <;>
    (obtain ⟨hPresent, hAddr⟩ := Option.ite_none_right_eq_some.mp h
     cases hAddr
     simpa using hPresent)

theorem not_accessWraps (hItem : m.layoutItem contractAddr acc.Field = some item)
    (h : NeedsDeriver item acc → ¬ CalldataWraps (deriverKey args contractAddr) acc args) :
    ¬ AccessWraps m args contractAddr acc := by
  rintro ⟨item', hItem', hNeeds, hWraps⟩
  cases hItem.symm.trans hItem'
  exact h hNeeds hWraps

variable (m crypto args contractAddr write acc) in
theorem abstractAccessToKeys_spec : AccessSpec m crypto args contractAddr write acc
    (m.abstractAccessToKeys crypto args contractAddr write acc) := by
  unfold MainnetContractManager.abstractAccessToKeys
  rw [m.findStorageItem_fst]
  cases hItem : m.layoutItem contractAddr acc.Field with
  | none =>
    refine ⟨?_, ?_⟩
    · rintro ⟨key, hKey⟩
      cases hKey <;> simp_all
    · rintro ⟨item, h, _⟩
      simp [hItem] at h
  | some item =>
    have hTry : MainnetContractManager.tryKeyDeriver crypto contractAddr acc args write =
        (derivedKeyDerivers crypto (deriverKey args contractAddr)).map fun deriver =>
          deriver contractAddr acc args >>= fun dk => .value (dk.keys write) := rfl
    have hGlobalTag : resolveAccountAddr "global" args = none := by simp [resolveAccountAddr]
    dsimp only
    by_cases hGlobal : acc.Account = "global"
    · rw [if_pos hGlobal]
      by_cases hType : item.KeyType = .simple
      · rw [if_neg (not_not.mpr hType)]
        refine ⟨by simp, fun key => ?_, not_accessWraps hItem ?_⟩
        · simp [keyOf_iff hItem, hType, NeedsDeriver]
        · simp [NeedsDeriver, hType]
      · rw [if_pos hType, hTry]
        cases hDeriver : derivedKeyDerivers crypto (deriverKey args contractAddr) with
        | some deriver => exact deriver_spec hItem (Or.inl ⟨hGlobal, hType⟩) hDeriver
        | none =>
          refine ⟨fun ⟨key, hKey⟩ => ?_, not_accessWraps hItem fun _ => not_calldataWraps hDeriver⟩
          simp [keyOf_iff hItem, hType, hGlobal, hGlobalTag, hDeriver] at hKey
    · rw [if_neg hGlobal]
      cases hType : item.KeyType with
      | simple =>
        refine ⟨by simp, fun key => ?_, not_accessWraps hItem ?_⟩
        · simp [keyOf_iff hItem, hType, NeedsDeriver]
        · simp [NeedsDeriver, hType]
      | string =>
        refine ⟨fun ⟨key, hKey⟩ => ?_, not_accessWraps hItem ?_⟩
        · simp [keyOf_iff hItem, hType, hGlobal, NeedsDeriver] at hKey
        · simp [NeedsDeriver, hType, hGlobal]
      | mapping =>
        cases hNested : item.IsNested with
        | false =>
          have hNeeds : ¬ NeedsDeriver item acc := by simp [NeedsDeriver, hGlobal, hNested]
          cases hAddr : resolveAccountAddr acc.Account args with
          | none =>
            refine ⟨fun ⟨key, hKey⟩ => ?_, not_accessWraps hItem (absurd · hNeeds)⟩
            simp [keyOf_iff hItem, hType, hNested, hAddr, hNeeds] at hKey
          | some addr =>
            refine ⟨by simp, fun key => ?_, not_accessWraps hItem (absurd · hNeeds)⟩
            simp [keyOf_iff hItem, hType, hNested, hAddr, hNeeds]
        | true =>
          dsimp only
          rw [hTry]
          cases hDeriver : derivedKeyDerivers crypto (deriverKey args contractAddr) with
          | some deriver => exact deriver_spec hItem (Or.inr ⟨hType, hNested⟩) hDeriver
          | none =>
            have hWraps := not_accessWraps hItem fun _ => not_calldataWraps hDeriver
            cases hAddr : resolveAccountAddr acc.Account args with
            | none =>
              refine ⟨fun ⟨key, hKey⟩ => ?_, hWraps⟩
              simp [keyOf_iff hItem, hType, hNested, hAddr, hDeriver] at hKey
            | some addr =>
              refine ⟨?_, fun key => ?_, hWraps⟩
              · exact ne_nil_of_mem (mem_nestedKeys.mpr
                  ⟨addr, resolveAccountAddr_mem hAddr, Or.inl rfl⟩)
              · simp [keyOf_iff hItem, hType, hNested, hAddr, hDeriver, mem_nestedKeys]

theorem keyed_iff : Keyed m crypto args contractAddr write acc ↔
    ∃ keys, m.abstractAccessToKeys crypto args contractAddr write acc = .value keys := by
  have hSpec := abstractAccessToKeys_spec m crypto args contractAddr write acc
  cases h : m.abstractAccessToKeys crypto args contractAddr write acc with
  | value keys =>
    rw [h] at hSpec
    obtain ⟨key, hKey⟩ := exists_mem_of_ne_nil keys hSpec.1
    exact iff_of_true ⟨key, (hSpec.2.1 key).mp hKey⟩ ⟨keys, rfl⟩
  | error err =>
    rw [h] at hSpec
    exact iff_of_false hSpec.1 nofun
  | panic =>
    rw [h] at hSpec
    exact iff_of_false hSpec.1 nofun

theorem accessWraps_iff : AccessWraps m args contractAddr acc ↔
    m.abstractAccessToKeys crypto args contractAddr write acc = .panic := by
  have hSpec := abstractAccessToKeys_spec m crypto args contractAddr write acc
  cases h : m.abstractAccessToKeys crypto args contractAddr write acc with
  | value keys =>
    rw [h] at hSpec
    exact iff_of_false hSpec.2.2 nofun
  | error err =>
    rw [h] at hSpec
    exact iff_of_false hSpec.2 nofun
  | panic =>
    rw [h] at hSpec
    exact iff_of_true hSpec.2 rfl

theorem keyOf_of_value {keys : List String} {key : String}
    (h : m.abstractAccessToKeys crypto args contractAddr write acc = .value keys) :
    key ∈ keys ↔ KeyOf m crypto args contractAddr write acc key := by
  have hSpec := abstractAccessToKeys_spec m crypto args contractAddr write acc
  rw [h] at hSpec
  exact hSpec.2.1 key

end Access

/-! ### The accesses of a function -/

def AnalyzedFunction.accesses (f : AnalyzedFunction) (write : Bool) : List LLMFieldAccess :=
  if write then f.Response.Writes else f.Response.Reads

/-- Each access before the first one that makes its deriver fail has a key. -/
def ListWraps (contractAddr : String) (write : Bool) (accesses : List LLMFieldAccess) : Prop :=
  ∃ before acc after, accesses = before ++ acc :: after ∧
    (∀ other ∈ before, Keyed m crypto args contractAddr write other) ∧
      AccessWraps m args contractAddr acc

/-- All accesses of a function have keys. -/
def FunctionKeyed (f : AnalyzedFunction) : Prop :=
  ∀ write, ∀ acc ∈ f.accesses write, Keyed m crypto args f.Address write acc

/-- The conversion of the reads of a function, and then of its writes, comes to an access
that makes its deriver fail. -/
def FunctionWraps (f : AnalyzedFunction) : Prop :=
  ListWraps m crypto args f.Address false (f.accesses false) ∨
    (∀ acc ∈ f.accesses false, Keyed m crypto args f.Address false acc) ∧
      ListWraps m crypto args f.Address true (f.accesses true)

section Function

variable {m crypto args} {contractAddr : String} {write : Bool} {accesses : List LLMFieldAccess}
  {f : AnalyzedFunction}

theorem additive_mem (key : String) : Additive fun keys : List String => key ∈ keys :=
  ⟨not_mem_nil, fun _ _ => mem_append⟩

theorem additive_keys (write : Bool) (key : String) :
    Additive fun sets : KeySets => key ∈ sets.keys write := by
  refine ⟨?_, fun first second => ?_⟩
  · cases write <;> exact not_mem_nil
  · cases write <;> exact mem_append

theorem abstractToKeys_eq_value {keys : List String} :
    m.abstractToKeys crypto args contractAddr accesses write = .value keys ↔
      collect (m.abstractAccessToKeys crypto args contractAddr write) accesses = .value keys := by
  unfold MainnetContractManager.abstractToKeys
  split <;> simp_all

theorem abstractToKeys_eq_panic :
    m.abstractToKeys crypto args contractAddr accesses write = .panic ↔
      ListWraps m crypto args contractAddr write accesses := by
  have hCollect : m.abstractToKeys crypto args contractAddr accesses write = .panic ↔
      collect (m.abstractAccessToKeys crypto args contractAddr write) accesses = .panic := by
    unfold MainnetContractManager.abstractToKeys
    split <;> simp_all
  rw [hCollect, collect_eq_panic]
  simp only [← keyed_iff, ← accessWraps_iff]
  rfl

theorem keyed_of_value {keys : List String}
    (h : m.abstractToKeys crypto args contractAddr accesses write = .value keys) :
    ∀ acc ∈ accesses, Keyed m crypto args contractAddr write acc := fun acc hAcc =>
  keyed_iff.mpr ((collect_value (abstractToKeys_eq_value.mp h)).1 acc hAcc)

theorem mem_of_value {keys : List String} {key : String}
    (h : m.abstractToKeys crypto args contractAddr accesses write = .value keys) :
    key ∈ keys ↔ ∃ acc ∈ accesses, KeyOf m crypto args contractAddr write acc key := by
  refine ((collect_value (abstractToKeys_eq_value.mp h)).2 _ (additive_mem key)).trans ?_
  refine exists_congr fun acc => and_congr_right fun hAcc => ?_
  constructor
  · rintro ⟨own, hOwn, hKey⟩
    exact (keyOf_of_value hOwn).mp hKey
  · intro hKey
    obtain ⟨own, hOwn⟩ := keyed_iff.mp ⟨key, hKey⟩
    exact ⟨own, hOwn, (keyOf_of_value hOwn).mpr hKey⟩

theorem value_of_keyed (h : ∀ acc ∈ accesses, Keyed m crypto args contractAddr write acc) :
    ∃ keys, m.abstractToKeys crypto args contractAddr accesses write = .value keys := by
  obtain ⟨keys, hKeys⟩ := collect_of_value fun acc hAcc => keyed_iff.mp (h acc hAcc)
  exact ⟨keys, abstractToKeys_eq_value.mpr hKeys⟩

theorem ownKeys_eq_value {sets : KeySets} : m.ownKeys crypto args f = .value sets ↔
    m.abstractToKeys crypto args f.Address f.Response.Reads false = .value sets.readKeys ∧
      m.abstractToKeys crypto args f.Address f.Response.Writes true = .value sets.writeKeys := by
  unfold MainnetContractManager.ownKeys
  simp only [bind_eq_value]
  constructor
  · rintro ⟨reads, hReads, writes, hWrites, hSets⟩
    cases hSets
    exact ⟨hReads, hWrites⟩
  · exact fun h => ⟨_, h.1, _, h.2, rfl⟩

theorem mem_ownKeys {sets : KeySets} (h : m.ownKeys crypto args f = .value sets) {key : String} :
    key ∈ sets.keys write ↔
      ∃ acc ∈ f.accesses write, KeyOf m crypto args f.Address write acc key := by
  cases write with
  | false => exact mem_of_value (ownKeys_eq_value.mp h).1
  | true => exact mem_of_value (ownKeys_eq_value.mp h).2

theorem functionKeyed_iff : FunctionKeyed m crypto args f ↔
    ∃ sets, m.ownKeys crypto args f = .value sets := by
  constructor
  · intro h
    obtain ⟨reads, hReads⟩ := value_of_keyed (h false)
    obtain ⟨writes, hWrites⟩ := value_of_keyed (h true)
    exact ⟨⟨reads, writes⟩, ownKeys_eq_value.mpr ⟨hReads, hWrites⟩⟩
  · rintro ⟨sets, hSets⟩ write
    cases write with
    | false => exact keyed_of_value (ownKeys_eq_value.mp hSets).1
    | true => exact keyed_of_value (ownKeys_eq_value.mp hSets).2

theorem functionWraps_iff : FunctionWraps m crypto args f ↔ m.ownKeys crypto args f = .panic := by
  unfold MainnetContractManager.ownKeys FunctionWraps
  simp only [bind_eq_panic, abstractToKeys_eq_panic]
  refine or_congr_right ?_
  constructor
  · rintro ⟨hReads, hWrites⟩
    obtain ⟨reads, hReads⟩ := value_of_keyed hReads
    exact ⟨reads, hReads, Or.inl hWrites⟩
  · rintro ⟨reads, hReads, hWrites | ⟨_, _, h⟩⟩
    · exact ⟨keyed_of_value hReads, hWrites⟩
    · cases h

end Function

/-! ### Everything that is reachable -/

/-- A cross call of one function enters another. -/
def CallsTo (f g : AnalyzedFunction) : Prop :=
  ∃ call ∈ f.Response.CrossCalls, m.callee call = .ok g

/-- The function is the one of this address and selector, or is reachable from it. -/
def Reachable (address selector : String) (f : AnalyzedFunction) : Prop :=
  ∃ resp, m.loadLLMResponse address selector = some resp ∧
    Relation.ReflTransGen (CallsTo m) ⟨address, resp⟩ f

/-- The contract of a cross call is not known, or the function is not analysed. -/
def NotCached (call : MainnetCrossCall) : Prop :=
  m.ResolveContractIdentifier call.Contract = none ∨ ∃ targetAddr,
    m.ResolveContractIdentifier call.Contract = some targetAddr ∧
      m.loadLLMResponse targetAddr call.Function = none

/-- Every function that is reachable has keys and calls that can be followed, and so many
nested calls are enough. -/
structure Resolved (levels : Nat) (f : AnalyzedFunction) : Prop where
  keyed : ∀ g, Relation.ReflTransGen (CallsTo m) f g → FunctionKeyed m crypto args g
  cached : ∀ g, Relation.ReflTransGen (CallsTo m) f g →
    ∀ call ∈ g.Response.CrossCalls, ∃ h, m.callee call = .ok h
  shallow : ∀ walk, List.IsChain (CallsTo m) (f :: walk) → walk.length ≤ levels

/-- The traversal comes to an access that makes its deriver fail. What is traversed before
it is resolved. -/
inductive ComesToWrap : Nat → AnalyzedFunction → Prop where
  | own {levels : Nat} {f : AnalyzedFunction} (h : FunctionWraps m crypto args f) :
      ComesToWrap levels f
  | call {levels : Nat} {f g : AnalyzedFunction} {before after : List MainnetCrossCall}
      {call : MainnetCrossCall} (hOwn : FunctionKeyed m crypto args f)
      (hCalls : f.Response.CrossCalls = before ++ call :: after)
      (hBefore : ∀ other ∈ before, ∃ h, m.callee other = .ok h ∧ Resolved m crypto args levels h)
      (hCallee : m.callee call = .ok g) (hWrap : ComesToWrap levels g) :
      ComesToWrap (levels + 1) f

section Reachable

variable {m crypto args} {levels : Nat} {f g : AnalyzedFunction} {address selector : String}

theorem resolved_iff : Resolved m crypto args levels f ↔
    (m.callGraph crypto args).Complete levels f := by
  constructor
  · exact fun h => ⟨fun g hReach => functionKeyed_iff.mp (h.keyed g hReach), h.cached, h.shallow⟩
  · exact fun h => ⟨fun g hReach => functionKeyed_iff.mpr (h.own g hReach), h.target, h.shallow⟩

theorem comesToWrap_iff : ComesToWrap m crypto args levels f ↔
    (m.callGraph crypto args).Crashes levels f := by
  constructor
  · intro h
    induction h with
    | own h => exact .own (functionWraps_iff.mp h)
    | call hOwn hCalls hBefore hCallee _ ih =>
      obtain ⟨sets, hSets⟩ := functionKeyed_iff.mp hOwn
      refine .call hSets hCalls (fun other hOther => ?_) hCallee ih
      obtain ⟨callee, hTarget, hResolved⟩ := hBefore other hOther
      exact ⟨callee, hTarget, resolved_iff.mp hResolved⟩
  · intro h
    induction h with
    | own h => exact .own (functionWraps_iff.mpr h)
    | call hOwn hCalls hBefore hTarget _ ih =>
      refine .call (functionKeyed_iff.mpr ⟨_, hOwn⟩) hCalls (fun other hOther => ?_) hTarget ih
      obtain ⟨callee, hTarget', hComplete⟩ := hBefore other hOther
      exact ⟨callee, hTarget', resolved_iff.mpr hComplete⟩

theorem callee_ne_ok {call : MainnetCrossCall} : NotCached m call ↔
    ¬ ∃ g, m.callee call = .ok g := by
  unfold NotCached MainnetContractManager.callee
  cases m.ResolveContractIdentifier call.Contract with
  | none => simp
  | some targetAddr =>
    dsimp only
    cases hLoad : m.loadLLMResponse targetAddr call.Function <;> simp [hLoad]

theorem getConservativeRWSet_eq_value {sets : KeySets} :
    m.GetConservativeRWSet crypto args address selector = .value sets ↔
      ∃ resp all, m.loadLLMResponse address selector = some resp ∧
        MainnetContractManager.Rejected resp = false ∧
          (m.callGraph crypto args).visit 5 ⟨address, resp⟩ = .value all ∧
            sets = ⟨dedupKeys all.readKeys, dedupKeys all.writeKeys⟩ := by
  rw [m.GetConservativeRWSet_eq]
  cases m.loadLLMResponse address selector with
  | none => simp
  | some resp =>
    dsimp only
    split_ifs with hRejected
    · simp [hRejected]
    · rw [bind_eq_value]
      constructor
      · rintro ⟨all, hVisit, hSets⟩
        exact ⟨resp, all, rfl, Bool.eq_false_of_not_eq_true hRejected, hVisit,
          (Outcome.value.inj hSets).symm⟩
      · rintro ⟨_, all, hResp, _, hVisit, rfl⟩
        cases hResp
        exact ⟨all, hVisit, rfl⟩

theorem getConservativeRWSet_eq_panic :
    m.GetConservativeRWSet crypto args address selector = .panic ↔
      ∃ resp, m.loadLLMResponse address selector = some resp ∧
        MainnetContractManager.Rejected resp = false ∧
          ComesToWrap m crypto args 5 ⟨address, resp⟩ := by
  rw [m.GetConservativeRWSet_eq]
  cases m.loadLLMResponse address selector with
  | none => simp
  | some resp =>
    dsimp only
    split_ifs with hRejected
    · simp [hRejected]
    · rw [bind_eq_panic]
      simp [hRejected, Graph.visit_eq_panic, comesToWrap_iff]

/-- A set that is returned is that of everything reachable, all of which is resolved. -/
theorem resolved_of_value {sets : KeySets}
    (h : m.GetConservativeRWSet crypto args address selector = .value sets) :
    ∃ resp, m.loadLLMResponse address selector = some resp ∧
      Resolved m crypto args 5 ⟨address, resp⟩ ∧ ∀ write, (sets.keys write).Nodup ∧
        ∀ key, key ∈ sets.keys write ↔ ∃ f acc, Reachable m address selector f ∧
          acc ∈ f.accesses write ∧ KeyOf m crypto args f.Address write acc key := by
  obtain ⟨resp, all, hLoad, _, hVisit, rfl⟩ := getConservativeRWSet_eq_value.mp h
  refine ⟨resp, hLoad, resolved_iff.mpr (Graph.complete_of_visit hVisit), fun write => ⟨?_, ?_⟩⟩
  · cases write <;> exact nodup_dedupKeys _
  · intro key
    have hDedup : key ∈ KeySets.keys ⟨dedupKeys all.readKeys, dedupKeys all.writeKeys⟩ write ↔
        key ∈ all.keys write := by
      cases write <;> exact mem_dedupKeys
    rw [hDedup, Graph.visit_value hVisit (additive_keys write key)]
    constructor
    · rintro ⟨f, own, hReach, hOwn, hKey⟩
      obtain ⟨acc, hAcc, hKeyOf⟩ := (mem_ownKeys hOwn).mp hKey
      exact ⟨f, acc, ⟨resp, hLoad, hReach⟩, hAcc, hKeyOf⟩
    · rintro ⟨f, acc, ⟨resp', hLoad', hReach⟩, hAcc, hKeyOf⟩
      cases hLoad.symm.trans hLoad'
      obtain ⟨own, hOwn⟩ := (Graph.complete_of_visit hVisit).own f hReach
      exact ⟨f, own, hReach, hOwn, (mem_ownKeys hOwn).mpr ⟨acc, hAcc, hKeyOf⟩⟩

end Reachable

/-- The call returns, an error or the exact sets, and it returns an error wherever a key, a
callee or a level is missing. -/
structure NeverDrops (address selector : String) : Prop where
  returns : m.GetConservativeRWSet crypto args address selector ≠ .panic
  exact : ∀ sets, m.GetConservativeRWSet crypto args address selector = .value sets →
    ∀ write, (sets.keys write).Nodup ∧ ∀ key, key ∈ sets.keys write ↔ ∃ f acc,
      Reachable m address selector f ∧ acc ∈ f.accesses write ∧
        KeyOf m crypto args f.Address write acc key
  keyless : ∀ f write, Reachable m address selector f → ∀ acc ∈ f.accesses write,
    (∀ key, ¬ KeyOf m crypto args f.Address write acc key) →
      ∃ err, m.GetConservativeRWSet crypto args address selector = .error err
  uncached : ∀ f, Reachable m address selector f → ∀ call ∈ f.Response.CrossCalls,
    NotCached m call → ∃ err, m.GetConservativeRWSet crypto args address selector = .error err
  deep : ∀ resp walk, m.loadLLMResponse address selector = some resp →
    List.IsChain (CallsTo m) (⟨address, resp⟩ :: walk) → 5 < walk.length →
      ∃ err, m.GetConservativeRWSet crypto args address selector = .error err

/-- The only way to lose an access is calldata whose offsets wrap around. -/
theorem neverDrops_iff (address selector : String) : NeverDrops m crypto args address selector ↔
      ¬ ∃ resp, m.loadLLMResponse address selector = some resp ∧
        MainnetContractManager.Rejected resp = false ∧
          ComesToWrap m crypto args 5 ⟨address, resp⟩ := by
  rw [← getConservativeRWSet_eq_panic]
  refine ⟨NeverDrops.returns, fun hReturns => ?_⟩
  -- a call that returns no error has resolved everything
  have hError : (∀ resp, m.loadLLMResponse address selector = some resp →
      ¬ Resolved m crypto args 5 ⟨address, resp⟩) →
      ∃ err, m.GetConservativeRWSet crypto args address selector = .error err := by
    intro hNot
    cases hOutcome : m.GetConservativeRWSet crypto args address selector with
    | value sets =>
      obtain ⟨resp, hLoad, hResolved, _⟩ := resolved_of_value hOutcome
      exact absurd hResolved (hNot resp hLoad)
    | error err => exact ⟨err, rfl⟩
    | panic => exact absurd hOutcome hReturns
  refine ⟨hReturns, fun sets hSets => ?_, ?_, ?_, ?_⟩
  · obtain ⟨_, _, _, hExact⟩ := resolved_of_value hSets
    exact hExact
  · rintro f write ⟨resp, hLoad, hReach⟩ acc hAcc hKeyless
    refine hError fun resp' hLoad' hResolved => ?_
    cases hLoad.symm.trans hLoad'
    obtain ⟨key, hKey⟩ := hResolved.keyed f hReach write acc hAcc
    exact hKeyless key hKey
  · rintro f ⟨resp, hLoad, hReach⟩ call hCall hNot
    refine hError fun resp' hLoad' hResolved => ?_
    cases hLoad.symm.trans hLoad'
    exact callee_ne_ok.mp hNot (hResolved.cached f hReach call hCall)
  · intro resp walk hLoad hWalk hDeep
    refine hError fun resp' hLoad' hResolved => ?_
    cases hLoad.symm.trans hLoad'
    exact absurd (hResolved.shallow walk hWalk) (Nat.not_le_of_lt hDeep)

/-- The contract whose messages have a deriver, with the analysis of `receiveMessage`. -/
def transmitterManager : MainnetContractManager :=
  .ofLayout "0x0a992d191deec32afe36203ad87d7d289a738f81" [⟨"usedNonces", 10, .mapping, false⟩]
    (by decide) (AList.insert "0x0a992d191deec32afe36203ad87d7d289a738f81:0x57ecfd28"
      ⟨[⟨"global", "usedNonces"⟩], [⟨"global", "usedNonces"⟩], []⟩ ∅)

/-- A call of `receiveMessage` whose first offset is `2 ^ 64 - 32`. -/
def wrappingArgs : MainnetTxArgs where
  Addr1 := ""
  Addr2 := ""
  MsgSender := "0x00000000000000000000000000000000000000aa"
  Selector := "0x57ecfd28"
  RawCalldata := {
    data := [0x57, 0xec, 0xfd, 0x28] ++ List.replicate 24 0 ++ List.replicate 7 0xff ++ [0xe0] ++
      List.replicate 32 0
    spare := []
    capacity_lt := by decide }

theorem wrapping_offset_panics : transmitterManager.GetConservativeRWSet
    ⟨fun _ _ => 0, fun _ _ => none⟩ wrappingArgs "0x0a992d191deec32afe36203ad87d7d289a738f81"
      "0x57ecfd28" = .panic ∧
    ¬ NeverDrops transmitterManager ⟨fun _ _ => 0, fun _ _ => none⟩ wrappingArgs
      "0x0a992d191deec32afe36203ad87d7d289a738f81" "0x57ecfd28" := by
  have hPanic : transmitterManager.GetConservativeRWSet ⟨fun _ _ => 0, fun _ _ => none⟩ wrappingArgs
      "0x0a992d191deec32afe36203ad87d7d289a738f81" "0x57ecfd28" = .panic := by
    decide +kernel
  exact ⟨hPanic, fun h => h.returns hPanic⟩

end Nezha
