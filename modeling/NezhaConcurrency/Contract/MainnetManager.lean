import NezhaConcurrency.Contract.KeyDerive
import Mathlib.Data.List.AList

/-! The manager of analysed mainnet contracts, and the conservative read and write sets
that it computes for a call: the keys of the function that is called and of every
function that it calls in turn, down to five nested calls. -/
namespace Nezha

open CallTree Outcome

/-- How a variable is stored. -/
inductive ItemKeyType where
  | simple
  | mapping
  | string
  deriving DecidableEq

/-- `IsNested` says that the values of a mapping are mappings. -/
structure StorageItem where
  Label : String
  Slot : UInt64
  KeyType : ItemKeyType
  IsNested : Bool

structure MainnetCrossCall where
  Contract : String
  Function : String

structure MainnetLLMResponse where
  Reads : List LLMFieldAccess
  Writes : List LLMFieldAccess
  CrossCalls : List MainnetCrossCall

/-- A function whose analysis is loaded. -/
structure AnalyzedFunction where
  Address : String
  Response : MainnetLLMResponse

def itemCacheKey (contractAddr label : String) : String := contractAddr ++ ":" ++ label

/-- The layouts and analyses that are loaded, and the analyses on disk. The layouts are
under contract addresses and their labels are Solidity identifiers, so neither has a
colon. The memo of looked up items holds what the layouts say. -/
structure MainnetContractManager where
  layouts : AList fun _ : String => List StorageItem
  aliasToAddr : AList fun _ : String => String
  rwSets : AList fun _ : String => MainnetLLMResponse
  loadMainnetLLMCache : String → String → Option MainnetLLMResponse
  itemCache : AList fun _ : String => StorageItem
  plain : ∀ addr items, layouts.lookup addr = some items →
    ':' ∉ addr.toList ∧ ∀ item ∈ items, ':' ∉ item.Label.toList
  memo : ∀ key item, itemCache.lookup key = some item → ∃ addr items,
    key = itemCacheKey addr item.Label ∧ layouts.lookup addr = some items ∧
      items.find? (fun other => other.Label = item.Label) = some item

/-- The manager with the layout of one contract, and with nothing on disk. -/
def MainnetContractManager.ofLayout (addr : String) (items : List StorageItem)
    (plain : ':' ∉ addr.toList ∧ ∀ item ∈ items, ':' ∉ item.Label.toList)
    (rwSets : AList fun _ : String => MainnetLLMResponse) : MainnetContractManager where
  layouts := AList.insert addr items ∅
  aliasToAddr := ∅
  rwSets := rwSets
  loadMainnetLLMCache _ _ := none
  itemCache := ∅
  plain := by
    intro other otherItems h
    by_cases hAddr : other = addr
    · rw [hAddr, AList.lookup_insert] at h
      cases h
      rwa [hAddr]
    · rw [AList.lookup_insert_ne hAddr] at h
      cases h
  memo _ _ h := nomatch h

/-- Why there is no conservative set. -/
inductive RWSetError where
  /-- function not pre-analyzed -/
  | ErrNotPreAnalyzed
  /-- unresolvable account (global-var-as-key) requires EVM fallback -/
  | ErrUnresolvableAccount
  /-- LLM key unresolvable: mapping/struct key cannot be derived statically -/
  | ErrKeyUnresolvable
  /-- cross-contract call not found in LLM cache: alias not registered -/
  | aliasNotRegistered (contract : String)
  /-- cross-contract call not found in LLM cache: target:function -/
  | ErrCrossContractNotCached (targetAddr function : String)
  /-- mergeCrossCalls max depth exceeded at caller -/
  | maxDepthExceeded (callerAddr : String)
  deriving DecidableEq

/-- The read keys and the write keys. -/
structure KeySets where
  readKeys : List String
  writeKeys : List String
  deriving DecidableEq

instance : EmptyCollection KeySets := ⟨⟨[], []⟩⟩

instance : Append KeySets :=
  ⟨fun a b => ⟨a.readKeys ++ b.readKeys, a.writeKeys ++ b.writeKeys⟩⟩

/-- The keys of one direction. -/
def KeySets.keys (sets : KeySets) (write : Bool) : List String :=
  if write then sets.writeKeys else sets.readKeys

/-- The keys in the order in which they are first seen. -/
def dedupKeys (keys : List String) : List String :=
  keys.foldl (fun result k => if k ∈ result then result else result ++ [k]) []

def hasUnresolvableAccount (accesses : List LLMFieldAccess) : Bool :=
  accesses.any fun acc => acc.Account ∉ ["addr1", "addr2", "msg.sender", "global"]

def collectAvailableAddrs (args : MainnetTxArgs) : List String :=
  [args.Addr1, args.Addr2, args.MsgSender].filter fun a => a ≠ ""

def isHexAddress (s : String) : Bool :=
  s.toList.length = 42 && (GoString.HasPrefix s "0x" || GoString.HasPrefix s "0X") &&
    (s.toList.drop 2).all fun c =>
      ('0' ≤ c && c ≤ '9') || ('a' ≤ c && c ≤ 'f') || ('A' ≤ c && c ≤ 'F')

namespace MainnetContractManager

variable (m : MainnetContractManager)

def loadLLMResponse (address selector : String) : Option MainnetLLMResponse :=
  match m.rwSets.lookup (GoString.ToLower address ++ ":" ++ GoString.ToLower selector) with
  | some resp => some resp
  | none => m.loadMainnetLLMCache address selector

def ResolveContractIdentifier (id : String) : Option String :=
  if isHexAddress id then some (GoString.ToLower id) else m.aliasToAddr.lookup id

/-- The first item with a label in the layout of a contract. -/
def layoutItem (contractAddr label : String) : Option StorageItem :=
  (m.layouts.lookup contractAddr).bind fun items => items.find? fun item => item.Label = label

theorem label_of_layoutItem {contractAddr label : String} {item : StorageItem}
    (h : m.layoutItem contractAddr label = some item) : item.Label = label := by
  obtain ⟨items, _, hItem⟩ := Option.bind_eq_some_iff.mp h
  simpa using List.find?_some hItem

/-- The manager with one more item in its memo. -/
def store (contractAddr label : String) (found : StorageItem)
    (h : m.layoutItem contractAddr label = some found) : MainnetContractManager :=
  { m with
    itemCache := m.itemCache.insert (itemCacheKey contractAddr label) found
    memo := by
      intro key item hLookup
      have hLabel := m.label_of_layoutItem h
      by_cases hKey : key = itemCacheKey contractAddr label
      · rw [hKey, AList.lookup_insert] at hLookup
        cases hLookup
        obtain ⟨items, hItems, hFind⟩ := Option.bind_eq_some_iff.mp h
        exact ⟨contractAddr, items, by rw [hLabel, hKey], hItems, by rw [hLabel]; exact hFind⟩
      · rw [AList.lookup_insert_ne hKey] at hLookup
        exact m.memo key item hLookup }

/-- The item with a label, and the manager with the item in its memo. -/
def findStorageItem (contractAddr label : String) : Option StorageItem × MainnetContractManager :=
  match m.itemCache.lookup (itemCacheKey contractAddr label) with
  | some item => (some item, m)
  | none =>
    match h : m.layoutItem contractAddr label with
    | none => (none, m)
    | some found => (some found, m.store contractAddr label found h)

/-- The memo never changes what is found, however many lookups stored into it before. -/
theorem findStorageItem_fst (contractAddr label : String) :
    (m.findStorageItem contractAddr label).1 = m.layoutItem contractAddr label := by
  unfold findStorageItem
  cases hMemo : m.itemCache.lookup (itemCacheKey contractAddr label) with
  | none =>
    dsimp only
    split
    · next h => exact h.symm
    · next h => exact h.symm
  | some item =>
    obtain ⟨addr, items, hKey, hItems, hFind⟩ := m.memo _ item hMemo
    obtain ⟨hAddr, hLabels⟩ := m.plain addr items hItems
    have hPlain := hLabels item (List.mem_of_find?_eq_some hFind)
    obtain ⟨rfl, rfl⟩ := GoString.join_inj hAddr hPlain hKey.symm
    exact (Option.bind_eq_some_iff.mpr ⟨items, hItems, hFind⟩).symm

/-- Any series of lookups leaves what a later one finds. -/
theorem findStorageItem_memo (lookups : List (String × String)) (contractAddr label : String) :
    ((lookups.foldl (fun m l => (m.findStorageItem l.1 l.2).2) m).findStorageItem
      contractAddr label).1 = (m.findStorageItem contractAddr label).1 := by
  induction lookups generalizing m with
  | nil => rfl
  | cons l lookups ih =>
    have hLayouts : (m.findStorageItem l.1 l.2).2.layouts = m.layouts := by
      unfold findStorageItem
      split
      · rfl
      · split <;> rfl
    rw [List.foldl_cons, ih, findStorageItem_fst, findStorageItem_fst, layoutItem, layoutItem,
      hLayouts]

section Keys

variable (crypto : Crypto) (args : MainnetTxArgs)

/-- The keys by the deriver for the contract and the selector of the transaction, if one is
registered. -/
def tryKeyDeriver (contractAddr : String) (acc : LLMFieldAccess) (args : MainnetTxArgs)
    (write : Bool) : Option (Outcome Unit (List String)) :=
  (derivedKeyDerivers crypto
      (GoString.ToLower contractAddr ++ ":" ++ GoString.ToLower args.Selector)).map
    fun deriver => deriver contractAddr acc args >>= fun dk => .value (dk.keys write)

/-- Both nesting orders of an address with each address of the transaction. -/
def nestedKeys (contractAddr accAddr : String) (slot : UInt64) : List String :=
  dedupKeys ((collectAvailableAddrs args).flatMap fun other =>
    [nestedMappingSlotKey crypto contractAddr accAddr other slot,
      nestedMappingSlotKey crypto contractAddr other accAddr slot])

/-- The keys of an access. It is an error that the access is unresolved. The item goes
into the memo, which changes no later lookup (`findStorageItem_fst`). -/
def abstractAccessToKeys (contractAddr : String) (write : Bool) (acc : LLMFieldAccess) :
    Outcome Unit (List String) :=
  match (m.findStorageItem contractAddr acc.Field).1 with
  | none => .error ()
  | some item =>
    if acc.Account = "global" then
      if item.KeyType ≠ .simple then
        (tryKeyDeriver crypto contractAddr acc args write).getD (.error ())
      else .value [simpleSlotKey contractAddr item.Slot]
    else
      match item.KeyType, item.IsNested with
      | .simple, _ => .value [simpleSlotKey contractAddr item.Slot]
      | .mapping, false =>
        match resolveAccountAddr acc.Account args with
        | none => .error ()
        | some addr => .value [mappingSlotKey crypto contractAddr addr item.Slot]
      | .mapping, true =>
        match tryKeyDeriver crypto contractAddr acc args write with
        | some keys => keys
        | none =>
          match resolveAccountAddr acc.Account args with
          | none => .error ()
          | some accAddr => .value (nestedKeys crypto args contractAddr accAddr item.Slot)
      | .string, _ => .error ()

def abstractToKeys (contractAddr : String) (accesses : List LLMFieldAccess) (write : Bool) :
    Outcome RWSetError (List String) :=
  match collect (m.abstractAccessToKeys crypto args contractAddr write) accesses with
  | .value keys => .value keys
  | .error () => .error .ErrKeyUnresolvable
  | .panic => .panic

/-- The keys that a function accesses itself. -/
def ownKeys (f : AnalyzedFunction) : Outcome RWSetError KeySets := do
  let readKeys ← m.abstractToKeys crypto args f.Address f.Response.Reads false
  let writeKeys ← m.abstractToKeys crypto args f.Address f.Response.Writes true
  return ⟨readKeys, writeKeys⟩

/-- The function that a cross call enters. -/
def callee (call : MainnetCrossCall) : Except RWSetError AnalyzedFunction :=
  match m.ResolveContractIdentifier call.Contract with
  | none => .error (.aliasNotRegistered call.Contract)
  | some targetAddr =>
    match m.loadLLMResponse targetAddr call.Function with
    | none => .error (.ErrCrossContractNotCached targetAddr call.Function)
    | some subResp => .ok ⟨targetAddr, subResp⟩

/-- The first argument is how many levels of calls are left, `5 - depth`. -/
def mergeCrossCalls : Nat → String → List MainnetCrossCall → Outcome RWSetError KeySets
  | 0, callerAddr, _ => .error (.maxDepthExceeded callerAddr)
  | remaining + 1, _, calls => collect (fun call =>
    match m.callee call with
    | .error err => .error err
    | .ok sub => do
        let own ← m.ownKeys crypto args sub
        if sub.Response.CrossCalls.isEmpty then return own
        else
          let nested ← mergeCrossCalls remaining sub.Address sub.Response.CrossCalls
          return own ++ nested) calls

def GetConservativeRWSet (address selector : String) : Outcome RWSetError KeySets :=
  match m.loadLLMResponse address selector with
  | none => .error .ErrNotPreAnalyzed
  | some resp =>
    if hasUnresolvableAccount resp.Reads || hasUnresolvableAccount resp.Writes then
      .error .ErrUnresolvableAccount
    else do
      let own ← m.ownKeys crypto args ⟨address, resp⟩
      let all ← if resp.CrossCalls.isEmpty then pure own else
        m.mergeCrossCalls crypto args 5 address resp.CrossCalls >>= fun extra => pure (own ++ extra)
      return ⟨dedupKeys all.readKeys, dedupKeys all.writeKeys⟩

/-- The functions that are analysed, with their cross calls. -/
def callGraph : Graph RWSetError AnalyzedFunction MainnetCrossCall KeySets where
  own := m.ownKeys crypto args
  calls f := f.Response.CrossCalls
  target := m.callee
  tooDeep f := .maxDepthExceeded f.Address

theorem mergeCrossCalls_eq (remaining : Nat) (f : AnalyzedFunction) :
    m.mergeCrossCalls crypto args remaining f.Address f.Response.CrossCalls =
      (m.callGraph crypto args).expand remaining f := by
  induction remaining generalizing f with
  | zero => rfl
  | succ remaining ih =>
    unfold mergeCrossCalls Graph.expand
    refine congrArg (fun call => collect call f.Response.CrossCalls) (funext fun call => ?_)
    have hTarget : (m.callGraph crypto args).target call = m.callee call := rfl
    rw [Graph.enter, hTarget]
    cases m.callee call with
    | error err => rfl
    | ok sub =>
      dsimp only
      rw [ih sub]
      rfl

/-- The check that is made of the function that the transaction calls, but not of those
that it calls in turn. -/
def Rejected (resp : MainnetLLMResponse) : Bool :=
  hasUnresolvableAccount resp.Reads || hasUnresolvableAccount resp.Writes

theorem GetConservativeRWSet_eq (address selector : String) :
    m.GetConservativeRWSet crypto args address selector =
      match m.loadLLMResponse address selector with
      | none => .error .ErrNotPreAnalyzed
      | some resp =>
        if Rejected resp then .error .ErrUnresolvableAccount
        else (m.callGraph crypto args).visit 5 ⟨address, resp⟩ >>= fun all =>
          .value ⟨dedupKeys all.readKeys, dedupKeys all.writeKeys⟩ := by
  unfold GetConservativeRWSet
  cases m.loadLLMResponse address selector with
  | none => rfl
  | some resp =>
    dsimp only
    refine if_congr Iff.rfl rfl ?_
    have hMerge := m.mergeCrossCalls_eq crypto args 5 ⟨address, resp⟩
    unfold Graph.visit Graph.visitWith
    change _ = (m.ownKeys crypto args ⟨address, resp⟩ >>= _) >>= _
    cases m.ownKeys crypto args ⟨address, resp⟩ with
    | error err => rfl
    | panic => rfl
    | value own =>
      simp only [value_bind]
      rw [← hMerge, show (m.callGraph crypto args).calls ⟨address, resp⟩ = resp.CrossCalls from rfl]
      split_ifs <;> rfl

end Keys

end MainnetContractManager

end Nezha
