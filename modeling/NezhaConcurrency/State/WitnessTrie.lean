import NezhaConcurrency.Library.BigEndian
import NezhaConcurrency.Library.PartialLoop
import NezhaConcurrency.Library.RangeLoop
import NezhaConcurrency.Library.TrieStore
import NezhaConcurrency.State.Representation

/-! The witness of a block as the state from which it is replayed. One encoder writes the
accounts into an account trie, a storage trie for each account with slots and a table of
codes, from which a state database is opened. The other makes the accounts on a fresh state
database. The maps of the witness are visited in any order by both. -/
namespace Nezha.State

open TrieStore List

/-! ### Texts -/

section Texts

/-- The bytes of a Go string. -/
def bytesOf (s : String) : List UInt8 := s.toUTF8.data.toList

def has0xPrefix : List UInt8 → Bool
  | first :: second :: _ => first = 48 && (second = 120 || second = 88)
  | _ => false

def isHexCharacter (c : UInt8) : Bool :=
  (48 ≤ c && c ≤ 57) || (97 ≤ c && c ≤ 102) || (65 ≤ c && c ≤ 70)

def isHex (str : List UInt8) : Bool := str.length % 2 = 0 && str.all isHexCharacter

def fromHexChar (c : UInt8) : UInt8 :=
  if c ≤ 57 then c - 48 else if c ≤ 70 then c - 55 else c - 87

/-- The bytes up to the first pair that is not hexadecimal. The error is dropped. -/
def Hex2Bytes : List UInt8 → List UInt8
  | high :: low :: rest =>
    if isHexCharacter high && isHexCharacter low then
      (fromHexChar high * 16 + fromHexChar low) :: Hex2Bytes rest
    else []
  | _ => []

/-- The text without `0x`. -/
def digits (s : String) : List UInt8 :=
  if has0xPrefix (bytesOf s) then (bytesOf s).drop 2 else bytesOf s

def FromHex (s : String) : List UInt8 :=
  Hex2Bytes (if (digits s).length % 2 = 1 then 48 :: digits s else digits s)

/-- The last bytes, up to a length. Bytes in front of them are zero. -/
def cropped (length : Nat) (b : List UInt8) : Nat := BigEndian.value (b.drop (b.length - length))

def HexToHash (s : String) : Hash := cropped 32 (FromHex s)

def HexToAddress (s : String) : Address := cropped 20 (FromHex s)

def IsHexAddress (s : String) : Bool := (digits s).length = 2 * 20 && isHex (digits s)

/-- The low bits of a number. -/
def Uint64 (n : Int) : Nat := n.natAbs % 2 ^ 64

end Texts

/-! ### Witnesses -/

structure ReplayWitnessAccount where
  Balance : String
  Nonce : String
  Code : String
  Storage : AList fun _ : String => String

/-- The accounts of a witness. A pointer may be nil. -/
abbrev Accounts := AList fun _ : String => Option ReplayWitnessAccount

/-- The orders in which a loop visits the maps. -/
structure Visit (accounts : Accounts) where
  entries : List (Sigma fun _ : String => Option ReplayWitnessAccount)
  entries_perm : entries.Perm accounts.entries
  slots : String → ReplayWitnessAccount → List (Sigma fun _ : String => String)
  slots_perm : ∀ addrHex acct, (slots addrHex acct).Perm acct.Storage.entries

inductive Failure where
  | panic
  | error (text : String)
  deriving DecidableEq

/-- The root of an account trie determines what the trie holds. -/
structure TrieHashing (StateRoot Root CodeHash : Type) extends Hashing Root CodeHash where
  stateRootOf : (Address → Option (Account Root CodeHash)) → StateRoot
  stateRoot_injective : Function.Injective stateRootOf

/-- What a key-value store holds: account tries, storage tries and contract codes. -/
structure Edb (StateRoot Root CodeHash : Type) where
  stateTries : StateRoot → Option (Address → Option (Account Root CodeHash))
  storageTries : Root → Option Slots
  codes : CodeHash → Option Code

/-- The tries and codes while the accounts are visited. -/
structure Builder (Root CodeHash : Type) where
  tdb : Database Root Slots
  codes : CodeHash → Option Code
  accTrie : Address → Option (Account Root CodeHash)
  storageTries : List Root

variable {StateRoot Root CodeHash : Type}

section Encoders

variable [DecidableEq StateRoot] [DecidableEq Root] [DecidableEq CodeHash]
  (hashing : TrieHashing StateRoot Root CodeHash) (SetString : String → Option Int)
  {accounts : Accounts}

/-- What a state database is opened over. A root that is not found is an error. -/
def Edb.New (edb : Edb StateRoot Root CodeHash) (root : StateRoot) :
    Option (Shared Root CodeHash) :=
  (resolve hashing.stateRootOf (fun _ => none) edb.stateTries root).map fun trie =>
    ⟨trie, resolve hashing.rootOf (fun _ => 0) edb.storageTries, edb.codes⟩

/-- Zero values are not persisted. -/
def storageTrie (slots : List (Sigma fun _ : String => String)) : Slots :=
  slots.foldl (fun st slot =>
    if HexToHash slot.2 = 0 then st
    else Function.update st (HexToHash slot.1) (HexToHash slot.2)) fun _ => 0

/-- A number that is missing or cannot be parsed is zero. -/
def balanceOf (acct : ReplayWitnessAccount) : Int :=
  if acct.Balance ≠ "" then (SetString acct.Balance).getD 0 else 0

def nonceOf (acct : ReplayWitnessAccount) : Nat :=
  if acct.Nonce ≠ "" then ((SetString acct.Nonce).map Uint64).getD 0 else 0

namespace Builder

/-- The storage root, and the builder with the storage trie if there are slots. -/
def addStorage (b : Builder Root CodeHash)
    (slots : List (Sigma fun _ : String => String)) : Root × Builder Root CodeHash :=
  if slots.length > 0 then
    let root := hashing.rootOf (storageTrie slots)
    (root, { b with
      tdb := b.tdb.insert root (storageTrie slots), storageTries := b.storageTries ++ [root] })
  else (hashing.rootOf fun _ => 0, b)

def addCode (b : Builder Root CodeHash) (code : Code) : CodeHash × Builder Root CodeHash :=
  if code.length > 0 then
    let codeHash := hashing.keccak256 code
    (codeHash, { b with codes := Function.update b.codes codeHash (some code) })
  else (hashing.keccak256 [], b)

/-- The account of a text, with its storage trie and its code. -/
def addAccount (b : Builder Root CodeHash) (addrHex : String) (acct : ReplayWitnessAccount)
    (slots : List (Sigma fun _ : String => String)) : Builder Root CodeHash :=
  let (storageRoot, b) := addStorage hashing b slots
  let (codeHash, b) := addCode hashing b (FromHex acct.Code)
  let account := ⟨nonceOf SetString acct, balanceOf SetString acct, storageRoot, codeHash⟩
  { b with accTrie := Function.update b.accTrie (HexToAddress addrHex) (some account) }

/-- One round of the loop. A negative balance cannot be encoded. -/
def visitAccount (visit : Visit accounts) (b : Builder Root CodeHash)
    (entry : Sigma fun _ : String => Option ReplayWitnessAccount) :
    Except Failure (Builder Root CodeHash) :=
  if !IsHexAddress entry.1 then .ok b
  else
    match entry.2 with
    | none => .error .panic
    | some acct =>
      if balanceOf SetString acct < 0 then
        .error (.error ("rlp account " ++ entry.1 ++ ": rlp: cannot encode negative *big.Int"))
      else .ok (addAccount hashing SetString b entry.1 acct (visit.slots entry.1 acct))

end Builder

/-- The root of the account trie, and the store with every trie. -/
def BuildWitnessTrie (visit : Visit accounts) (edb : Edb StateRoot Root CodeHash) :
    Except Failure (StateRoot × Edb StateRoot Root CodeHash) := do
  let b ← visit.entries.foldlM (Builder.visitAccount hashing SetString visit)
    ⟨.new edb.storageTries, edb.codes, fun _ => none, []⟩
  let root := hashing.stateRootOf b.accTrie
  let stateTries := (Database.new edb.stateTries).insert root b.accTrie
  let storageTries := b.storageTries.foldl Database.Commit b.tdb
  return (root, ⟨(stateTries.Commit root).diskdb, storageTries.diskdb, b.codes⟩)

/-- The updates that make the account of a text. -/
def injectAccount (shared : Shared Root CodeHash) (s : StateDB Root CodeHash) (addrHex : String)
    (acct : ReplayWitnessAccount) (slots : List (Sigma fun _ : String => String)) :
    StateDB Root CodeHash :=
  let addr := HexToAddress addrHex
  let s := s.CreateAccount hashing.toHashing shared addr
  let s := if acct.Balance ≠ "" then
      match SetString acct.Balance with
      | some bal => s.SetBalance hashing.toHashing shared addr bal
      | none => s
    else s
  let s := if acct.Nonce ≠ "" then
      match SetString acct.Nonce with
      | some nonce => s.SetNonce hashing.toHashing shared addr (Uint64 nonce)
      | none => s
    else s
  let s := if acct.Code ≠ "" then
      s.SetCode hashing.toHashing shared addr (FromHex acct.Code)
    else s
  slots.foldl (fun s slot =>
    s.SetState hashing.toHashing shared noFaults addr (HexToHash slot.1) (HexToHash slot.2)) s

def injectEntry (shared : Shared Root CodeHash) (visit : Visit accounts) (s : StateDB Root CodeHash)
    (entry : Sigma fun _ : String => Option ReplayWitnessAccount) :
    Except Failure (StateDB Root CodeHash) :=
  if !IsHexAddress entry.1 then .ok s
  else
    match entry.2 with
    | none => .error .panic
    | some acct =>
      .ok (injectAccount hashing SetString shared s entry.1 acct (visit.slots entry.1 acct))

/-- A witness that is nil changes nothing. -/
def injectWitnessIntoStateDB (shared : Shared Root CodeHash) (sdb : StateDB Root CodeHash) :
    Option (Visit accounts) → Except Failure (StateDB Root CodeHash)
  | none => .ok sdb
  | some visit => visit.entries.foldlM (injectEntry hashing SetString shared visit) sdb

end Encoders

/-! ### The state of a witness -/

section Witness

/-- The accounts that are not skipped, under their texts. -/
def visited (entries : List (Sigma fun _ : String => Option ReplayWitnessAccount)) :
    List (String × ReplayWitnessAccount) :=
  entries.filterMap fun entry =>
    if IsHexAddress entry.1 then entry.2.map fun acct => (entry.1, acct) else none

def slotWrites (slots : List (Sigma fun _ : String => String)) : List (Hash × Hash) :=
  slots.map fun slot => (HexToHash slot.1, HexToHash slot.2)

/-- What is read of an account of the witness. -/
def viewOf (SetString : String → Option Int) (acct : ReplayWitnessAccount) : View :=
  ⟨balanceOf SetString acct, nonceOf SetString acct, FromHex acct.Code,
    Overlay.overlaid (fun _ => 0) (Overlay.merge (fun _ => none) (slotWrites acct.Storage.entries))⟩

/-- The account whose text is an address. -/
def found (entries : List (Sigma fun _ : String => Option ReplayWitnessAccount)) :
    Address → Option (String × ReplayWitnessAccount) :=
  Overlay.merge (fun _ => none) ((visited entries).map fun item => (HexToAddress item.1, item))

/-- The state that a witness describes. -/
def stateOf (SetString : String → Option Int) (accounts : Accounts) (addr : Address) :
    Option View :=
  (found accounts.entries addr).map fun item => viewOf SetString item.2

/-- No two texts of addresses, nor of the slots of an account, are parsed to the same. No
balance is negative. No two codes have the same hash. -/
structure WellFormed (keccak256 : Code → CodeHash) (SetString : String → Option Int)
    (accounts : Accounts) : Prop where
  addresses : Set.InjOn HexToAddress {addrHex | addrHex ∈ accounts.keys ∧ IsHexAddress addrHex}
  slots : ∀ addrHex acct, (addrHex, acct) ∈ visited accounts.entries →
    Set.InjOn HexToHash {slotHex | slotHex ∈ acct.Storage.keys}
  balances : ∀ addrHex acct, (addrHex, acct) ∈ visited accounts.entries →
    ∀ n, SetString acct.Balance = some n → 0 ≤ n
  codes : Set.InjOn keccak256 (insert [] {code | ∃ addrHex acct,
    (addrHex, acct) ∈ visited accounts.entries ∧ code = FromHex acct.Code})

variable {keccak256 : Code → CodeHash} {SetString : String → Option Int} {accounts : Accounts}
  {entries : List (Sigma fun _ : String => Option ReplayWitnessAccount)} {addrHex : String}
  {acct : ReplayWitnessAccount}

theorem mem_visited : (addrHex, acct) ∈ visited entries ↔
    IsHexAddress addrHex = true ∧ ⟨addrHex, some acct⟩ ∈ entries := by
  unfold visited
  rw [mem_filterMap]
  constructor
  · rintro ⟨⟨text, account⟩, hMem, hSome⟩
    rw [Option.ite_none_right_eq_some] at hSome
    obtain ⟨hValid, hSome⟩ := hSome
    obtain ⟨found, rfl, hPair⟩ := Option.map_eq_some_iff.mp hSome
    cases hPair
    exact ⟨hValid, hMem⟩
  · rintro ⟨hValid, hMem⟩
    exact ⟨_, hMem, by simp [hValid]⟩

theorem foldlM_visited {State : Type} (step : State →
    (Sigma fun _ : String => Option ReplayWitnessAccount) → Except Failure State)
    (total : State → String × ReplayWitnessAccount → State)
    (hSkip : ∀ s entry, IsHexAddress entry.1 = false → step s entry = .ok s)
    (hVisit : ∀ s addrHex acct, (addrHex, acct) ∈ visited entries →
      step s ⟨addrHex, some acct⟩ = .ok (total s (addrHex, acct)))
    (hNil : ∀ addrHex, ⟨addrHex, none⟩ ∈ entries → IsHexAddress addrHex = false) (s : State) :
    entries.foldlM step s = .ok ((visited entries).foldl total s) := by
  rw [visited, foldl_filterMap]
  apply PartialLoop.foldlM_eq_ok
  rintro s ⟨addrHex, account⟩ hMem
  cases hValid : IsHexAddress addrHex with
  | false => exact hSkip s _ hValid
  | true =>
    cases account with
    | none =>
      rw [hNil addrHex hMem] at hValid
      cases hValid
    | some acct => exact hVisit s addrHex acct (mem_visited.mpr ⟨hValid, hMem⟩)

theorem visited_keys (hKeys : entries.NodupKeys) :
    (visited entries).Pairwise fun item other => item.1 ≠ other.1 := by
  have hText : ∀ {entry : Sigma fun _ : String => Option ReplayWitnessAccount} {item},
      (if IsHexAddress entry.1 then entry.2.map fun acct => (entry.1, acct) else none) =
        some item → item.1 = entry.1 := by
    intro entry item hSome
    rw [Option.ite_none_right_eq_some] at hSome
    obtain ⟨acct, _, rfl⟩ := Option.map_eq_some_iff.mp hSome.2
    rfl
  rw [visited, pairwise_filterMap]
  refine (pairwise_map.mp hKeys).imp ?_
  intro entry other hNe item hItem item' hItem'
  rw [hText hItem, hText hItem']
  exact hNe

theorem Visit.visited_perm (visit : Visit accounts) :
    (visited visit.entries).Perm (visited accounts.entries) :=
  visit.entries_perm.filterMap _

section WellFormed

variable (wf : WellFormed keccak256 SetString accounts)

include wf

theorem WellFormed.apart : (visited accounts.entries).Pairwise fun item other =>
    HexToAddress item.1 ≠ HexToAddress other.1 := by
  have hMem : ∀ item ∈ visited accounts.entries, item.1 ∈ accounts.keys ∧ IsHexAddress item.1 :=
    fun item hItem => ⟨mem_keys_of_mem (mem_visited.mp hItem).2, (mem_visited.mp hItem).1⟩
  refine (visited_keys accounts.nodupKeys).imp_of_mem ?_
  intro item other hItem hOther hNe hSame
  exact hNe (wf.addresses (hMem item hItem) (hMem other hOther) hSame)

/-- What is written for each account is found whatever the order of the loop. -/
theorem WellFormed.merge_visit {Written : Type} (f : String × ReplayWitnessAccount → Written)
    (visit : Visit accounts) (addr : Address) :
    Overlay.merge (fun _ => none)
      ((visited visit.entries).map fun item => (HexToAddress item.1, f item)) addr =
        (found accounts.entries addr).map f := by
  have hFound : found visit.entries = found accounts.entries := by
    refine (Overlay.merge_perm (visit.visited_perm.map _).symm ?_ _).symm
    rw [Overlay.keys, map_map]
    exact pairwise_map.mpr wf.apart
  rw [← hFound, found, ← Overlay.merge_map, map_map]
  rfl

theorem WellFormed.slotKeys (hMem : (addrHex, acct) ∈ visited accounts.entries) :
    (Overlay.keys (slotWrites acct.Storage.entries)).Nodup := by
  rw [Overlay.keys, slotWrites, map_map]
  refine pairwise_map.mpr ?_
  refine (pairwise_map.mp acct.Storage.nodupKeys).imp_of_mem ?_
  intro slot other hSlot hOther hNe hSame
  exact hNe (wf.slots addrHex acct hMem (mem_keys_of_mem hSlot) (mem_keys_of_mem hOther) hSame)

theorem WellFormed.slots_visit (visit : Visit accounts)
    (hMem : (addrHex, acct) ∈ visited accounts.entries) :
    (Overlay.keys (slotWrites (visit.slots addrHex acct))).Nodup ∧
      Overlay.merge (fun _ => none) (slotWrites (visit.slots addrHex acct)) =
        Overlay.merge (fun _ => none) (slotWrites acct.Storage.entries) := by
  have hPerm := ((visit.slots_perm addrHex acct).map _ :
    (slotWrites (visit.slots addrHex acct)).Perm (slotWrites acct.Storage.entries))
  have hKeys := ((hPerm.map Prod.fst).nodup_iff).mpr (wf.slotKeys hMem)
  exact ⟨hKeys, Overlay.merge_perm hPerm hKeys _⟩

theorem WellFormed.balanceOf_nonneg (hMem : (addrHex, acct) ∈ visited accounts.entries) :
    ¬ balanceOf SetString acct < 0 := by
  rw [not_lt, balanceOf]
  split_ifs
  · cases hBalance : SetString acct.Balance with
    | none => exact le_refl 0
    | some n => exact wf.balances addrHex acct hMem n hBalance
  · exact le_refl 0

end WellFormed

end Witness

/-! ### The injected state -/

section Inject

variable [DecidableEq CodeHash] {hashing : TrieHashing StateRoot Root CodeHash}
  {SetString : String → Option Int} {shared : Shared Root CodeHash} {accounts : Accounts}
  {state : Address → Option View} {s : StateDB Root CodeHash} {addr : Address} {view : View}
  {addrHex : String} {acct : ReplayWitnessAccount}

theorem Represents.injectBalance (SetString : String → Option Int) (acct : ReplayWitnessAccount)
    (h : Represents hashing.toHashing shared (Function.update state addr (some view)) s)
    (hView : view.balance = 0) :
    Represents hashing.toHashing shared
      (Function.update state addr (some { view with balance := balanceOf SetString acct }))
      (if acct.Balance ≠ "" then
        match SetString acct.Balance with
        | some bal => s.SetBalance hashing.toHashing shared addr bal
        | none => s
      else s) := by
  have hSame : ({ view with balance := 0 } : View) = view := by rw [← hView]
  unfold balanceOf
  split_ifs
  · cases SetString acct.Balance with
    | none => simpa [hSame] using h
    | some bal => simpa using h.setBalance (Function.update_self ..) bal
  · simpa [hSame] using h

theorem Represents.injectNonce (SetString : String → Option Int) (acct : ReplayWitnessAccount)
    (h : Represents hashing.toHashing shared (Function.update state addr (some view)) s)
    (hView : view.nonce = 0) :
    Represents hashing.toHashing shared
      (Function.update state addr (some { view with nonce := nonceOf SetString acct }))
      (if acct.Nonce ≠ "" then
        match SetString acct.Nonce with
        | some nonce => s.SetNonce hashing.toHashing shared addr (Uint64 nonce)
        | none => s
      else s) := by
  have hSame : ({ view with nonce := 0 } : View) = view := by rw [← hView]
  unfold nonceOf
  split_ifs
  · cases SetString acct.Nonce with
    | none => simpa [hSame] using h
    | some nonce => simpa using h.setNonce (Function.update_self ..) (Uint64 nonce)
  · simpa [hSame] using h

theorem Represents.injectCode (acct : ReplayWitnessAccount)
    (h : Represents hashing.toHashing shared (Function.update state addr (some view)) s)
    (hView : view.code = []) :
    Represents hashing.toHashing shared
      (Function.update state addr (some { view with code := FromHex acct.Code }))
      (if acct.Code ≠ "" then s.SetCode hashing.toHashing shared addr (FromHex acct.Code)
      else s) := by
  split_ifs with hCode
  · simpa using h.setCode (Function.update_self ..) (FromHex acct.Code)
  · have hEmpty : FromHex acct.Code = view.code := by
      rw [not_not.mp hCode, hView]
      rfl
    rw [hEmpty]
    exact h

theorem Represents.injectSlots (slots : List (Sigma fun _ : String => String))
    (h : Represents hashing.toHashing shared (Function.update state addr (some view)) s) :
    Represents hashing.toHashing shared (Function.update state addr (some { view with
        slots := (slotWrites slots).foldl (fun current write =>
          Function.update current write.1 write.2) view.slots }))
      (slots.foldl (fun s slot => s.SetState hashing.toHashing shared noFaults addr
        (HexToHash slot.1) (HexToHash slot.2)) s) := by
  induction slots generalizing s view with
  | nil => exact h
  | cons slot slots ih =>
    have hNext := h.setState (Function.update_self ..) (HexToHash slot.1) (HexToHash slot.2)
    rw [Function.update_idem] at hNext
    exact ih hNext

theorem Represents.injectAccount (wf : WellFormed hashing.keccak256 SetString accounts)
    (visit : Visit accounts) (hMem : (addrHex, acct) ∈ visited accounts.entries)
    (hEmpty : shared.nodes (hashing.rootOf fun _ => 0) = some fun _ => 0)
    (h : Represents hashing.toHashing shared state s) (hNew : state (HexToAddress addrHex) = none) :
    Represents hashing.toHashing shared
      (Function.update state (HexToAddress addrHex) (some (viewOf SetString acct)))
      (injectAccount hashing SetString shared s addrHex acct (visit.slots addrHex acct)) := by
  have hSlots : (slotWrites (visit.slots addrHex acct)).foldl (fun current write =>
      Function.update current write.1 write.2) (fun _ => 0) = (viewOf SetString acct).slots := by
    change List.foldl _ (Overlay.overlaid (fun _ => 0) fun _ => none) _ = _
    rw [Overlay.foldl_update, (wf.slots_visit visit hMem).2]
    rfl
  have hCreated := h.createAccount hEmpty hNew
  have hNumbers := (hCreated.injectBalance SetString acct rfl).injectNonce SetString acct rfl
  have hInjected := (hNumbers.injectCode acct rfl).injectSlots (visit.slots addrHex acct)
  rw [hSlots] at hInjected
  exact hInjected

theorem Represents.injectAccounts (wf : WellFormed hashing.keccak256 SetString accounts)
    (visit : Visit accounts)
    (hEmpty : shared.nodes (hashing.rootOf fun _ => 0) = some fun _ => 0)
    {items : List (String × ReplayWitnessAccount)}
    (hItems : ∀ item ∈ items, item ∈ visited accounts.entries)
    (hApart : items.Pairwise fun item other => HexToAddress item.1 ≠ HexToAddress other.1)
    (h : Represents hashing.toHashing shared state s)
    (hNew : ∀ item ∈ items, state (HexToAddress item.1) = none) :
    Represents hashing.toHashing shared
      (Overlay.merge state (items.map fun item => (HexToAddress item.1, viewOf SetString item.2)))
      (items.foldl (fun s item => State.injectAccount hashing SetString shared s item.1 item.2
        (visit.slots item.1 item.2)) s) := by
  induction items generalizing state s with
  | nil => exact h
  | cons item items ih =>
    obtain ⟨hFirst, hRest⟩ := pairwise_cons.mp hApart
    have hNext := h.injectAccount wf visit (hItems item mem_cons_self) hEmpty
      (hNew item mem_cons_self)
    refine ih (fun x hx => hItems x (mem_cons_of_mem _ hx)) hRest hNext fun x hx => ?_
    exact (Function.update_of_ne (hFirst x hx).symm ..).trans (hNew x (mem_cons_of_mem _ hx))

/-- A fresh state database stands for the state of the witness after the injection. -/
theorem injectWitness_represents (wf : WellFormed hashing.keccak256 SetString accounts)
    (visit : Visit accounts)
    (hNil : ∀ addrHex, ⟨addrHex, none⟩ ∈ accounts.entries → IsHexAddress addrHex = false)
    (shared : Shared Root CodeHash) (hTrie : shared.trie = fun _ => none)
    (hEmpty : shared.nodes (hashing.rootOf fun _ => 0) = some fun _ => 0) :
    ∃ injected, injectWitnessIntoStateDB hashing SetString shared .NewWithTrie (some visit) =
        .ok injected ∧
      Represents hashing.toHashing shared (stateOf SetString accounts) injected := by
  have hLoop := foldlM_visited (injectEntry hashing SetString shared visit)
    (fun s item => injectAccount hashing SetString shared s item.1 item.2
      (visit.slots item.1 item.2))
    (fun s entry hSkip => by simp [injectEntry, hSkip])
    (fun s addrHex acct hMem => by simp [injectEntry, (mem_visited.mp hMem).1])
    (fun addrHex hMem => hNil addrHex (visit.entries_perm.mem_iff.mp hMem)) .NewWithTrie
  refine ⟨_, hLoop, ?_⟩
  have hFresh : Represents hashing.toHashing shared (fun _ => none) StateDB.NewWithTrie := by
    refine ⟨fun addr _ => ?_, nofun⟩
    simp [StateDB.object, StateDB.NewWithTrie, hTrie]
  have hState : Overlay.merge (fun _ => none) ((visited visit.entries).map fun item =>
      (HexToAddress item.1, viewOf SetString item.2)) = stateOf SetString accounts :=
    funext fun addr => wf.merge_visit (fun item => viewOf SetString item.2) visit addr
  rw [← hState]
  refine hFresh.injectAccounts wf visit hEmpty ?_ ?_ fun _ _ => rfl
  · exact fun item hItem => visit.visited_perm.mem_iff.mp hItem
  · exact visit.visited_perm.symm.pairwise wf.apart fun h => h.symm

theorem injectWitness_panics (visit : Visit accounts) (hNil : ⟨addrHex, none⟩ ∈ accounts.entries)
    (hValid : IsHexAddress addrHex = true) (shared : Shared Root CodeHash)
    (sdb : StateDB Root CodeHash) :
    injectWitnessIntoStateDB hashing SetString shared sdb (some visit) = .error .panic := by
  refine PartialLoop.foldlM_eq_error (visit.entries_perm.mem_iff.mpr hNil)
    (fun s => by simp [injectEntry, hValid]) ?_ _
  rintro s ⟨other, account⟩ hMem err hErr
  cases hOther : IsHexAddress other with
  | false => simp [injectEntry, hOther] at hErr
  | true =>
    cases account with
    | none => simpa [injectEntry, hOther, eq_comm] using hErr
    | some acct => simp [injectEntry, hOther] at hErr

end Inject

/-! ### The tries -/

section Build

variable [DecidableEq Root] [DecidableEq CodeHash] {hashing : TrieHashing StateRoot Root CodeHash}
  {SetString : String → Option Int} {accounts : Accounts}

/-- The account that is encoded. Where there are no slots or no code, the root and the hash
are those of nothing. -/
def recordOf (hashing : TrieHashing StateRoot Root CodeHash) (SetString : String → Option Int)
    (acct : ReplayWitnessAccount) (slots : List (Sigma fun _ : String => String)) :
    Account Root CodeHash :=
  ⟨nonceOf SetString acct, balanceOf SetString acct, hashing.rootOf (storageTrie slots),
    hashing.keccak256 (FromHex acct.Code)⟩

theorem storageTrie_eq {slots : List (Sigma fun _ : String => String)}
    (hKeys : (Overlay.keys (slotWrites slots)).Nodup) :
    storageTrie slots =
      Overlay.overlaid (fun _ => 0) (Overlay.merge (fun _ => none) (slotWrites slots)) := by
  induction slots using List.reverseRecOn with
  | nil => rfl
  | append_singleton slots last ih =>
    have hWrites : slotWrites (slots ++ [last]) =
        slotWrites slots ++ [(HexToHash last.1, HexToHash last.2)] := by
      simp [slotWrites]
    rw [hWrites, Overlay.keys, map_append] at hKeys
    obtain ⟨hFront, _, hLast⟩ := nodup_append.mp hKeys
    have hUnwritten : HexToHash last.1 ∉ Overlay.keys (slotWrites slots) := by
      intro hMem
      exact hLast _ hMem _ (by simp) rfl
    rw [hWrites, Overlay.merge_concat, storageTrie, foldl_append, foldl_cons, foldl_nil]
    change (if _ then storageTrie slots else Function.update (storageTrie slots) _ _) = _
    rw [ih hFront]
    funext key
    by_cases hKey : key = HexToHash last.1
    · subst hKey
      split_ifs with hZero
      · simp [Overlay.overlaid, Overlay.merge_of_not_mem _ _ hUnwritten, hZero]
      · simp [Overlay.overlaid]
    · split_ifs <;> simp [Overlay.overlaid, hKey]

/-- The storage trie and the code of an account have been put where they are found. -/
structure Stored (hashing : TrieHashing StateRoot Root CodeHash) (b : Builder Root CodeHash)
    (code : Code) (slots : List (Sigma fun _ : String => String)) : Prop where
  storage : slots = [] ∨ hashing.rootOf (storageTrie slots) ∈ b.storageTries ∧
    b.tdb.dirties (hashing.rootOf (storageTrie slots)) = some (storageTrie slots)
  code : code = [] ∨ b.codes (hashing.keccak256 code) = some code

variable {b : Builder Root CodeHash} {slots : List (Sigma fun _ : String => String)}

variable (hashing SetString) in
theorem accTrie_addAccount (b : Builder Root CodeHash) (addrHex : String)
    (acct : ReplayWitnessAccount) (slots : List (Sigma fun _ : String => String)) :
    (b.addAccount hashing SetString addrHex acct slots).accTrie =
      Function.update b.accTrie (HexToAddress addrHex)
        (some (recordOf hashing SetString acct slots)) := by
  unfold Builder.addAccount Builder.addStorage Builder.addCode recordOf
  generalize FromHex acct.Code = code
  cases slots <;> cases code <;> rfl

theorem stored_addAccount (addrHex : String) (acct : ReplayWitnessAccount)
    (slots : List (Sigma fun _ : String => String)) (hRooted : b.tdb.Rooted hashing.rootOf) :
    (b.addAccount hashing SetString addrHex acct slots).tdb.Rooted hashing.rootOf ∧
      Stored hashing (b.addAccount hashing SetString addrHex acct slots) (FromHex acct.Code)
        slots := by
  unfold Builder.addAccount Builder.addStorage Builder.addCode
  generalize FromHex acct.Code = code
  have hInsert := hRooted.insert (storageTrie slots)
  have hTrie := Database.dirties_insert_self hashing.root_injective hRooted (storageTrie slots)
  have hPut : Function.update b.codes (hashing.keccak256 code) (some code)
      (hashing.keccak256 code) = some code := Function.update_self ..
  cases slots with
  | nil =>
    cases code with
    | nil => exact ⟨hRooted, .inl rfl, .inl rfl⟩
    | cons byte code => exact ⟨hRooted, .inl rfl, .inr hPut⟩
  | cons slot slots =>
    have hRoot : hashing.rootOf (storageTrie (slot :: slots)) ∈
        b.storageTries ++ [hashing.rootOf (storageTrie (slot :: slots))] := by simp
    cases code with
    | nil => exact ⟨hInsert, .inr ⟨hRoot, hTrie⟩, .inl rfl⟩
    | cons byte code => exact ⟨hInsert, .inr ⟨hRoot, hTrie⟩, .inr hPut⟩

/-- What is stored stays when another account is added, unless their codes collide. -/
theorem Stored.addAccount {code : Code} (h : Stored hashing b code slots) (addrHex : String)
    (acct : ReplayWitnessAccount) (others : List (Sigma fun _ : String => String))
    (hCodes : hashing.keccak256 (FromHex acct.Code) = hashing.keccak256 code →
      FromHex acct.Code = code) :
    Stored hashing (b.addAccount hashing SetString addrHex acct others) code slots := by
  unfold Builder.addAccount Builder.addStorage Builder.addCode
  generalize FromHex acct.Code = put at hCodes
  have hPut : code = [] ∨ Function.update b.codes (hashing.keccak256 put) (some put)
      (hashing.keccak256 code) = some code := by
    refine h.code.imp_right fun hCode => ?_
    by_cases hSame : hashing.keccak256 code = hashing.keccak256 put
    · rw [hSame, Function.update_self, hCodes hSame.symm]
    · rw [Function.update_of_ne hSame, hCode]
  have hInsert : slots = [] ∨ hashing.rootOf (storageTrie slots) ∈
      b.storageTries ++ [hashing.rootOf (storageTrie others)] ∧
      (b.tdb.insert (hashing.rootOf (storageTrie others)) (storageTrie others)).dirties
        (hashing.rootOf (storageTrie slots)) = some (storageTrie slots) :=
    h.storage.imp_right fun ⟨hRoot, hTrie⟩ =>
      ⟨mem_append_left _ hRoot, Database.dirties_insert_of_some hTrie⟩
  cases others with
  | nil =>
    cases put with
    | nil => exact ⟨h.storage, h.code⟩
    | cons byte put => exact ⟨h.storage, hPut⟩
  | cons slot others =>
    cases put with
    | nil => exact ⟨hInsert, h.code⟩
    | cons byte put => exact ⟨hInsert, hPut⟩

/-- The loop adds the accounts that it visits. -/
def Builder.addAccounts (hashing : TrieHashing StateRoot Root CodeHash)
    (SetString : String → Option Int) (visit : Visit accounts) (b : Builder Root CodeHash) :
    Builder Root CodeHash :=
  (visited visit.entries).foldl (fun b item => b.addAccount hashing SetString item.1 item.2
    (visit.slots item.1 item.2)) b

theorem accTrie_addAccounts (wf : WellFormed hashing.keccak256 SetString accounts)
    (visit : Visit accounts) (hFresh : b.accTrie = fun _ => none) (addr : Address) :
    (b.addAccounts hashing SetString visit).accTrie addr = (found accounts.entries addr).map
      fun item => recordOf hashing SetString item.2 (visit.slots item.1 item.2) := by
  have hLoop : ∀ items : List (String × ReplayWitnessAccount), ∀ b : Builder Root CodeHash,
      (items.foldl (fun b item => b.addAccount hashing SetString item.1 item.2
        (visit.slots item.1 item.2)) b).accTrie =
      Overlay.merge b.accTrie (items.map fun item => (HexToAddress item.1,
        recordOf hashing SetString item.2 (visit.slots item.1 item.2))) := by
    intro items
    induction items with
    | nil => exact fun _ => rfl
    | cons item items ih =>
      intro b
      rw [foldl_cons, ih, accTrie_addAccount]
      rfl
  rw [Builder.addAccounts, hLoop, hFresh]
  exact wf.merge_visit (fun item => recordOf hashing SetString item.2 (visit.slots item.1 item.2))
    visit addr

theorem stored_addAccounts (wf : WellFormed hashing.keccak256 SetString accounts)
    (visit : Visit accounts) (hRooted : b.tdb.Rooted hashing.rootOf) :
    ∀ item ∈ visited accounts.entries, Stored hashing (b.addAccounts hashing SetString visit)
      (FromHex item.2.Code) (visit.slots item.1 item.2) := by
  have hCodes : (visited visit.entries).Pairwise fun item other =>
      hashing.keccak256 (FromHex item.2.Code) = hashing.keccak256 (FromHex other.2.Code) →
        FromHex item.2.Code = FromHex other.2.Code := by
    refine pairwise_of_forall_mem_list fun item hItem other hOther hSame => ?_
    exact wf.codes (.inr ⟨item.1, item.2, visit.visited_perm.mem_iff.mp hItem, rfl⟩)
      (.inr ⟨other.1, other.2, visit.visited_perm.mem_iff.mp hOther, rfl⟩) hSame
  have hAll := RangeLoop.after_foldl
    (fun b item => b.addAccount hashing SetString item.1 item.2 (visit.slots item.1 item.2))
    (fun b => b.tdb.Rooted hashing.rootOf)
    (fun b item => Stored hashing b (FromHex item.2.Code) (visit.slots item.1 item.2))
    (fun b item hRooted => stored_addAccount item.1 item.2 (visit.slots item.1 item.2) hRooted)
    (fun b item other hApart hStored => hStored.addAccount item.1 item.2
      (visit.slots item.1 item.2) hApart)
    (fun item other hApart hSame => (hApart hSame.symm).symm) hCodes hRooted
  exact fun item hItem => hAll.2 item (visit.visited_perm.mem_iff.mpr hItem)

/-- The state database that is opened over these tries and codes. -/
def Builder.shared (hashing : TrieHashing StateRoot Root CodeHash) (b : Builder Root CodeHash) :
    Shared Root CodeHash :=
  ⟨b.accTrie, resolve hashing.rootOf (fun _ => 0)
    (b.storageTries.foldl Database.Commit b.tdb).diskdb, b.codes⟩

theorem Stored.shows (wf : WellFormed hashing.keccak256 SetString accounts) (visit : Visit accounts)
    {item : String × ReplayWitnessAccount} (hItem : item ∈ visited accounts.entries)
    (h : Stored hashing b (FromHex item.2.Code) (visit.slots item.1 item.2)) :
    Shows hashing.toHashing (b.shared hashing)
      (newObject (recordOf hashing SetString item.2 (visit.slots item.1 item.2)))
      (viewOf SetString item.2) := by
  obtain ⟨addrHex, acct⟩ := item
  obtain ⟨hKeys, hMerge⟩ := wf.slots_visit visit hItem
  have hTrie : storageTrie (visit.slots addrHex acct) = (viewOf SetString acct).slots := by
    rw [storageTrie_eq hKeys, hMerge]
    rfl
  have hSlots : (b.shared hashing).nodes (hashing.rootOf (storageTrie (visit.slots addrHex acct))) =
      some (storageTrie (visit.slots addrHex acct)) := by
    rcases h.storage with hNone | ⟨hRoot, hDirty⟩
    · -- the empty storage trie needs no node
      rw [hNone]
      exact resolve_empty
    · refine resolve_of_diskdb hashing.root_injective ?_
      rw [Database.diskdb_commits hRoot, Database.node, hDirty, Option.some_or]
  have hCode : (readCode hashing.toHashing (b.shared hashing)
      (hashing.keccak256 (FromHex acct.Code))).getD [] = FromHex acct.Code := by
    unfold readCode
    split_ifs with hEmpty
    · exact wf.codes (.inl rfl) (.inr ⟨addrHex, acct, hItem, rfl⟩) hEmpty.symm
    · rcases h.code with hNone | hFound
      · exact absurd (congrArg hashing.keccak256 hNone) hEmpty
      · exact congrArg (Option.getD · []) hFound
  have hView : (⟨balanceOf SetString acct, nonceOf SetString acct, (readCode hashing.toHashing
      (b.shared hashing) (hashing.keccak256 (FromHex acct.Code))).getD [],
      storageTrie (visit.slots addrHex acct)⟩ : View) = viewOf SetString acct :=
    View.ext rfl rfl hCode hTrie
  rw [← hView]
  exact shows_newObject (recordOf hashing SetString acct (visit.slots addrHex acct)) hSlots

variable [DecidableEq StateRoot]

/-- A state database that is opened from the root stands for the state of the witness. -/
theorem buildWitnessTrie_represents (wf : WellFormed hashing.keccak256 SetString accounts)
    (visit : Visit accounts)
    (hNil : ∀ addrHex, ⟨addrHex, none⟩ ∈ accounts.entries → IsHexAddress addrHex = false)
    (edb : Edb StateRoot Root CodeHash) :
    ∃ root edb' opened, BuildWitnessTrie hashing SetString visit edb = .ok (root, edb') ∧
      edb'.New hashing root = some opened ∧
      Represents hashing.toHashing opened (stateOf SetString accounts) .NewWithTrie := by
  have hLoop : visit.entries.foldlM (Builder.visitAccount hashing SetString visit)
      ⟨.new edb.storageTries, edb.codes, fun _ => none, []⟩ =
        .ok (Builder.addAccounts hashing SetString visit _) :=
    foldlM_visited (Builder.visitAccount hashing SetString visit) _
      (fun b entry hSkip => by simp [Builder.visitAccount, hSkip])
      (fun b addrHex acct hMem => by
        have hItem := visit.visited_perm.mem_iff.mp hMem
        simp [Builder.visitAccount, (mem_visited.mp hMem).1, wf.balanceOf_nonneg hItem])
      (fun addrHex hMem => hNil addrHex (visit.entries_perm.mem_iff.mp hMem)) _
  have hTrie := accTrie_addAccounts wf visit
    (b := ⟨.new edb.storageTries, edb.codes, fun _ => none, []⟩) rfl
  have hStored := stored_addAccounts wf visit
    (b := ⟨.new edb.storageTries, edb.codes, fun _ => none, []⟩) (Database.rooted_new _ _)
  generalize Builder.addAccounts hashing SetString visit _ = b at hLoop hTrie hStored
  have hRoot : (((Database.new edb.stateTries).insert (hashing.stateRootOf b.accTrie)
      b.accTrie).Commit (hashing.stateRootOf b.accTrie)).diskdb (hashing.stateRootOf b.accTrie) =
        some b.accTrie := by
    have hDirty := Database.dirties_insert_self hashing.stateRoot_injective
      (Database.rooted_new hashing.stateRootOf edb.stateTries) b.accTrie
    refine (Database.diskdb_commits (mem_singleton_self _)).trans ?_
    rw [Database.node, hDirty, Option.some_or]
  refine ⟨_, _, b.shared hashing, by rw [BuildWitnessTrie, hLoop]; rfl, ?_, ?_, ?_⟩
  · rw [Edb.New, resolve_of_diskdb hashing.stateRoot_injective hRoot]
    rfl
  · intro addr hState
    have hNone : found accounts.entries addr = none := Option.map_eq_none_iff.mp hState
    change Option.or none ((b.accTrie addr).map newObject) = none
    rw [hTrie, hNone]
    rfl
  · intro addr view hState
    obtain ⟨item, hFound, rfl⟩ := Option.map_eq_some_iff.mp hState
    obtain ⟨_, hItem, hPair⟩ := mem_map.mp (Overlay.mem_of_merge hFound)
    cases hPair
    refine ⟨_, ?_, (hStored item hItem).shows wf visit hItem⟩
    change Option.or none ((b.accTrie _).map newObject) = _
    rw [hTrie, hFound]
    rfl

end Build

/-! ### Both encoders -/

section Encoded

variable [DecidableEq StateRoot] [DecidableEq Root] [DecidableEq CodeHash]
  {hashing : TrieHashing StateRoot Root CodeHash} {SetString : String → Option Int}
  {accounts : Accounts} {addrHex : String}

theorem buildWitnessTrie_panics (wf : WellFormed hashing.keccak256 SetString accounts)
    (visit : Visit accounts) (hNil : ⟨addrHex, none⟩ ∈ accounts.entries)
    (hValid : IsHexAddress addrHex = true) (edb : Edb StateRoot Root CodeHash) :
    BuildWitnessTrie hashing SetString visit edb = .error .panic := by
  have hFails : visit.entries.foldlM (Builder.visitAccount hashing SetString visit)
      ⟨.new edb.storageTries, edb.codes, fun _ => none, []⟩ = .error .panic := by
    refine PartialLoop.foldlM_eq_error (visit.entries_perm.mem_iff.mpr hNil)
      (fun b => by simp [Builder.visitAccount, hValid]) ?_ _
    rintro b ⟨other, account⟩ hMem err hErr
    cases hOther : IsHexAddress other with
    | false => simp [Builder.visitAccount, hOther] at hErr
    | true =>
      cases account with
      | none => simpa [Builder.visitAccount, hOther, eq_comm] using hErr
      | some acct =>
        have hItem := mem_visited.mpr ⟨hOther, visit.entries_perm.mem_iff.mp hMem⟩
        simp [Builder.visitAccount, hOther, wf.balanceOf_nonneg hItem] at hErr
  rw [BuildWitnessTrie, hFails]
  rfl

end Encoded

/-! ### A witness with two accounts -/

section TwoAccounts

def twoSlots : AList fun _ : String => String where
  entries := [⟨"0x0", "0x2"⟩, ⟨"0x5", "0x1234"⟩]
  nodupKeys := by
    unfold List.NodupKeys
    decide +kernel

def twoAccounts : Accounts where
  entries :=
    [⟨"0x1111111111111111111111111111111111111111", some ⟨"0x64", "0x2", "", ∅⟩⟩,
      ⟨"0x2222222222222222222222222222222222222222",
        some ⟨"0x1", "0x1", "0x6001600101600055", twoSlots⟩⟩]
  nodupKeys := by
    unfold List.NodupKeys
    decide +kernel

def inOrder : Visit twoAccounts := ⟨twoAccounts.entries, .refl _, fun _ acct =>
  acct.Storage.entries, fun _ _ => .refl _⟩

def backwards : Visit twoAccounts := ⟨twoAccounts.entries.reverse, reverse_perm _,
  fun _ acct => acct.Storage.entries.reverse, fun _ _ => reverse_perm _⟩

/-- Numbers in hexadecimal. -/
def hexNumber (text : String) : Option Int := some (BigEndian.value (FromHex text))

/-- Every trie is its own root, and every code its own hash. -/
def plainHashing : TrieHashing (Address → Option (Account Slots Code)) Slots Code :=
  ⟨⟨id, id, Function.injective_id⟩, id, Function.injective_id⟩

def emptyEdb : Edb (Address → Option (Account Slots Code)) Slots Code :=
  ⟨fun _ => none, fun _ => none, fun _ => none⟩

theorem twoAccounts_wellFormed : WellFormed plainHashing.keccak256 hexNumber twoAccounts where
  addresses := by
    have hKeys : ∀ addrHex ∈ twoAccounts.keys, ∀ other ∈ twoAccounts.keys,
        HexToAddress addrHex = HexToAddress other → addrHex = other := by decide +kernel
    exact fun addrHex hMem other hOther => hKeys addrHex hMem.1 other hOther.1
  slots := by
    have hKeys : ∀ item ∈ visited twoAccounts.entries, ∀ slotHex ∈ item.2.Storage.keys,
        ∀ other ∈ item.2.Storage.keys, HexToHash slotHex = HexToHash other → slotHex = other := by
      decide +kernel
    exact fun addrHex acct hItem slotHex hMem other hOther =>
      hKeys (addrHex, acct) hItem slotHex hMem other hOther
  balances addrHex acct _ n hBalance := by
    cases hBalance
    exact Int.natCast_nonneg _
  codes := Function.injective_id.injOn

end TwoAccounts

end Nezha.State
