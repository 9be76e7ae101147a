import NezhaConcurrency.Library.GoNumber
import NezhaConcurrency.Replayd.AccountState

/-! The values of the write keys, collected from one state and injected into another. Every
field and slot comes back in whatever order the map is ranged over. An account that is
collected as missing is not removed, and any other of its keys makes it. -/
namespace Nezha.Replayd

open Function List

open State (Tracked Value trackedKey)

/-! ### Injection and collection -/

/-- The texts are `invalid balance hex %q for key %s: %w` and `invalid nonce %q for key %s`. -/
inductive InjectError where
  | balance (valHex key : String)
  | nonce (valHex key : String)

/-- The key of an entry, if it has one of the forms of a canonical key. -/
def entryKey (key : String) : Option Tracked := (parseCanonicalKey key).bind State.LevmKey.tracked

def injectEntry (sdb : StateDB) (entry : String × String) : Except InjectError StateDB :=
  let (key, valHex) := entry
  match entryKey key with
  | none => .ok sdb
  | some (.balance addr) =>
    match GoNumber.SetFromHex valHex with
    | none => .error (.balance valHex key)
    | some bal => .ok (sdb.SetBalance addr bal)
  | some (.nonce addr) =>
    match GoNumber.SetString valHex with
    | none => .error (.nonce valHex key)
    | some n => .ok (sdb.SetNonce addr (UInt64.ofNat (State.Uint64 n)))
  | some (.code addr) => .ok (sdb.SetCode addr (State.FromHex valHex))
  | some (.exist addr) =>
    if valHex ≠ "" ∧ valHex ≠ "0x0" ∧ valHex ≠ "0" then
      if !sdb.Exist addr then .ok (sdb.CreateAccount addr) else .ok sdb
    else .ok sdb
  | some (.slot addr index) => .ok (sdb.SetState addr index (State.HexToHash valHex))

/-- The entries come in the order in which the map is ranged over. -/
def injectStateIntoStateDB (sdb : StateDB) (stateMap : List (String × String)) :
    Except InjectError StateDB :=
  stateMap.foldlM injectEntry sdb

/-- The text that is collected for a key. -/
def StateDB.valueText (sdb : StateDB) : Tracked → String
  | .balance addr => GoNumber.hexNumeral (sdb.GetBalance addr).toNat
  | .nonce addr => GoNumber.hexNumeral (sdb.GetNonce addr).toNat
  | .code addr => State.zeroX (sdb.GetCode addr)
  | .exist addr => if sdb.Exist addr then "0x1" else "0x0"
  | .slot addr index => State.hashHex (sdb.GetState addr index)

def collectWriteValues (sdb : StateDB) (writeKeys : List String) : AList fun _ : String => String :=
  writeKeys.foldl (fun out key =>
    match entryKey key with
    | none => out
    | some tracked => out.insert key (sdb.valueText tracked)) ∅

/-- An order in which a map can be ranged over. -/
def Ranges (order : List (String × String)) (m : AList fun _ : String => String) : Prop :=
  order.Perm (m.entries.map fun entry => (entry.1, entry.2))

/-! ### What an entry restores -/

/-- Whether the entry that is collected for a key makes a missing account. -/
def StateDB.makes (source : StateDB) : Tracked → Bool
  | .exist addr => source.Exist addr
  | _ => true

/-- An account with the field or slot of another one. -/
def Account.restored (acct source : Account) : Tracked → Account
  | .balance _ => { acct with Balance := source.Balance }
  | .nonce _ => { acct with Nonce := source.Nonce }
  | .code _ => { acct with Code := source.Code }
  | .exist _ => acct
  | .slot _ index => { acct with
      Storage := update acct.Storage index (source.Storage index) }

/-- The state with the value that a key has in `source`. -/
def StateDB.restored (sdb source : StateDB) (key : Tracked) : StateDB :=
  if source.makes key then
    update sdb key.addr (some ((sdb.getOrNewStateObject key.addr).restored
      (source.getOrNewStateObject key.addr) key))
  else sdb

section Restored

variable {sdb source : StateDB} {key other : Tracked} {addr : Address}

theorem exist_restored : (sdb.restored source key).Exist addr = true ↔
      sdb.Exist addr = true ∨ source.makes key = true ∧ key.addr = addr := by
  rw [StateDB.restored]
  by_cases hAddr : addr = key.addr
  · subst hAddr
    split_ifs with hMakes
    · simp [StateDB.Exist, hMakes]
    · simp [hMakes]
  · split_ifs
    · simp [StateDB.Exist, update_of_ne hAddr, Ne.symm hAddr]
    · simp [Ne.symm hAddr]

theorem read_restored {acct acct' : Account} (hOther : ∀ addr, other ≠ .exist addr)
    (hAddr : other.addr = key.addr) (exist : Bool) :
    (acct.restored acct' key).read exist other =
      if other = key then acct'.read exist other else acct.read exist other := by
  cases other with
  | exist addr => exact absurd rfl (hOther addr)
  | balance addr | nonce addr | code addr =>
    obtain rfl : addr = key.addr := hAddr
    cases key <;> simp [Account.restored, Account.read, Tracked.addr]
  | slot addr index =>
    obtain rfl : addr = key.addr := hAddr
    cases key with
    | slot addr index' =>
      by_cases hIndex : index = index' <;>
        simp [Account.restored, Account.read, Tracked.addr, hIndex]
    | balance | nonce | code | exist => simp [Account.restored, Account.read]

/-- Apart from the existence of the account, an entry restores its own key only. -/
theorem value_restored (hOther : ∀ addr, other ≠ .exist addr) :
    (sdb.restored source key).value other =
      if other = key then source.value other else sdb.value other := by
  rw [StateDB.restored]
  split_ifs with hMakes hKey hKey
  · subst hKey
    rw [StateDB.value_update_self rfl, read_restored hOther rfl, if_pos rfl, StateDB.value,
      StateDB.read_of_ne_exist hOther (source.Exist _)]
  · by_cases hAddr : other.addr = key.addr
    · rw [StateDB.value_update_self hAddr, read_restored hOther hAddr, if_neg hKey, StateDB.value,
        hAddr, StateDB.read_of_ne_exist hOther (sdb.Exist _)]
    · exact StateDB.value_update_of_ne hAddr
  · subst hKey
    cases other with
    | exist addr => exact absurd rfl (hOther addr)
    | balance | nonce | code | slot => exact absurd rfl hMakes
  · rfl

end Restored

/-! ### The entries of the write keys -/

section Entries

variable {sdb source : StateDB}

/-- A word of storage has 32 bytes. -/
def StateDB.Words (sdb : StateDB) : Prop := ∀ addr index, sdb.GetState addr index < 2 ^ 256

theorem entryKey_text {key : Tracked} (h : key.Sized) : entryKey key.text = some key :=
  State.trackedKey_text h

theorem inject_exist (addr : Address) :
    (if source.valueText (.exist addr) ≠ "" ∧ source.valueText (.exist addr) ≠ "0x0" ∧
        source.valueText (.exist addr) ≠ "0" then
      if !sdb.Exist addr then .ok (sdb.CreateAccount addr) else .ok sdb
    else .ok sdb : Except InjectError StateDB) = .ok (sdb.restored source (.exist addr)) := by
  cases hSource : source.Exist addr with
  | false => simp [StateDB.valueText, StateDB.restored, StateDB.makes, hSource]
  | true =>
    cases hAcct : sdb addr with
    | none =>
      have hHere : sdb.Exist addr = false := by rw [StateDB.Exist, hAcct, Option.isSome_none]
      simp [StateDB.valueText, StateDB.restored, StateDB.makes, hSource, hHere, hAcct,
        Tracked.addr, Account.restored, StateDB.getOrNewStateObject, StateDB.CreateAccount,
        emptyAccount]
    | some acct =>
      have hHere : sdb.Exist addr = true := by rw [StateDB.Exist, hAcct, Option.isSome_some]
      have hSame : update sdb addr (some acct) = sdb := by
        rw [← hAcct, update_eq_self]
      simp [StateDB.valueText, StateDB.restored, StateDB.makes, hSource, hHere, hAcct,
        Tracked.addr, Account.restored, StateDB.getOrNewStateObject, hSame]

/-- The entry that is collected for a key restores it. -/
theorem injectEntry_valueText (hWords : source.Words) {key : Tracked} (hKey : key.Sized) :
    injectEntry sdb (key.text, source.valueText key) = .ok (sdb.restored source key) := by
  simp only [injectEntry, entryKey_text hKey]
  cases key with
  | balance addr =>
    simp only [StateDB.valueText, GoNumber.SetFromHex_hexNumeral]
    rfl
  | nonce addr =>
    have hNonce : UInt64.ofNat (State.Uint64 (Int.ofNat (source.GetNonce addr).toNat)) =
        source.GetNonce addr := by
      have hLt := (source.GetNonce addr).toNat_lt
      simp [State.Uint64, Nat.mod_eq_of_lt hLt]
    simp only [StateDB.valueText, GoNumber.SetString_hexNumeral, hNonce]
    rfl
  | code addr =>
    simp only [StateDB.valueText, State.fromHex_of_toLower (State.toLower_zeroX _)]
    rfl
  | exist addr => exact inject_exist addr
  | slot addr index =>
    have hHash := State.hexToHash_of_toLower (hWords addr index) (State.toLower_zeroX _)
    simp only [StateDB.valueText, State.hashHex, hHash]
    rfl

theorem lookup_collectWriteValues {keys : List Tracked} (hSized : ∀ key ∈ keys, key.Sized)
    (text valHex : String) :
    (collectWriteValues source (keys.map Tracked.text)).lookup text = some valHex ↔
      ∃ key ∈ keys, key.text = text ∧ source.valueText key = valHex := by
  induction keys using List.reverseRecOn with
  | nil => simp [collectWriteValues]
  | append_singleton keys last ih =>
    have hLast : last.Sized := hSized last (by simp)
    have hFront : ∀ key ∈ keys, key.Sized := fun key hKey => hSized key (by simp [hKey])
    have hInsert : collectWriteValues source ((keys ++ [last]).map Tracked.text) =
        (collectWriteValues source (keys.map Tracked.text)).insert last.text
          (source.valueText last) := by
      simp [collectWriteValues, entryKey_text hLast]
    rw [hInsert]
    by_cases hText : text = last.text
    · subst hText
      rw [AList.lookup_insert, Option.some.injEq]
      constructor
      · rintro rfl
        exact ⟨last, by simp, rfl, rfl⟩
      · rintro ⟨key, hKey, hText, rfl⟩
        rw [Tracked.text_inj (hSized key hKey) hLast hText]
    · rw [AList.lookup_insert_ne hText, ih hFront]
      have hOther : ¬ last.text = text := fun h => hText h.symm
      simp [or_and_right, exists_or, hOther]

theorem mem_order {keys : List Tracked} (hSized : ∀ key ∈ keys, key.Sized)
    {order : List (String × String)}
    (hOrder : Ranges order (collectWriteValues source (keys.map Tracked.text)))
    (entry : String × String) :
    entry ∈ order ↔ ∃ key ∈ keys, (key.text, source.valueText key) = entry := by
  obtain ⟨text, valHex⟩ := entry
  have hLookup : (⟨text, valHex⟩ : Sigma fun _ : String => String) ∈
      (collectWriteValues source (keys.map Tracked.text)).entries ↔
        ∃ key ∈ keys, key.text = text ∧ source.valueText key = valHex := by
    rw [← lookup_collectWriteValues hSized, ← Option.mem_def, AList.mem_lookup_iff]
  rw [hOrder.mem_iff, mem_map]
  simp only [Prod.mk.injEq]
  rw [← hLookup]
  constructor
  · rintro ⟨⟨text, valHex⟩, hEntry, rfl, rfl⟩
    exact hEntry
  · intro hEntry
    exact ⟨⟨text, valHex⟩, hEntry, rfl, rfl⟩

theorem exists_ranged {keys : List Tracked} (hSized : ∀ key ∈ keys, key.Sized)
    {order : List (String × String)}
    (hOrder : Ranges order (collectWriteValues source (keys.map Tracked.text))) :
    ∃ ranged : List Tracked, (∀ key, key ∈ ranged ↔ key ∈ keys) ∧
      order = ranged.map fun key => (key.text, source.valueText key) := by
  have hRange : order ∈ Set.range
      (List.map fun key : { key // key ∈ keys } => (key.1.text, source.valueText key.1)) := by
    rw [Set.range_list_map]
    intro entry hEntry
    obtain ⟨key, hKey, rfl⟩ := (mem_order hSized hOrder entry).mp hEntry
    exact ⟨⟨key, hKey⟩, rfl⟩
  obtain ⟨ranged, rfl⟩ := hRange
  refine ⟨ranged.map Subtype.val, fun key => ⟨fun hKey => ?_, fun hKey => ?_⟩, by simp⟩
  · obtain ⟨⟨key, hKeys⟩, _, rfl⟩ := mem_map.mp hKey
    exact hKeys
  · obtain ⟨other, hOther, hEntry⟩ :=
      mem_map.mp ((mem_order hSized hOrder _).mpr ⟨key, hKey, rfl⟩)
    have hText := Tracked.text_inj (hSized _ other.2) (hSized key hKey) (Prod.mk.inj hEntry).1
    exact mem_map.mpr ⟨other, hOther, hText⟩

end Entries

/-! ### The state after the injection -/

section Injection

variable {base source : StateDB} {keys ranged : List Tracked}

theorem inject_ranged (hWords : source.Words) (hSized : ∀ key ∈ ranged, key.Sized) :
    injectStateIntoStateDB base (ranged.map fun key => (key.text, source.valueText key)) =
      .ok (ranged.foldl (fun sdb key => sdb.restored source key) base) := by
  induction ranged generalizing base with
  | nil => rfl
  | cons key ranged ih =>
    have hRest : ∀ key ∈ ranged, key.Sized := fun key hKey =>
      hSized key (mem_cons_of_mem _ hKey)
    rw [injectStateIntoStateDB, map_cons, foldlM_cons,
      injectEntry_valueText hWords (hSized key mem_cons_self)]
    exact ih hRest

theorem exist_restore {addr : Address} :
    (ranged.foldl (fun sdb key => sdb.restored source key) base).Exist addr = true ↔
      base.Exist addr = true ∨ ∃ key ∈ ranged, source.makes key = true ∧ key.addr = addr := by
  induction ranged generalizing base with
  | nil => simp
  | cons key ranged ih =>
    rw [foldl_cons, ih, exist_restored]
    simp [or_assoc]

theorem value_restore {key : Tracked} (hKey : ∀ addr, key ≠ .exist addr) :
    (ranged.foldl (fun sdb key => sdb.restored source key) base).value key =
      if key ∈ ranged then source.value key else base.value key := by
  induction ranged generalizing base with
  | nil => rfl
  | cons first ranged ih =>
    rw [foldl_cons, ih, value_restored hKey]
    by_cases hFirst : key = first
    · simp [hFirst]
    · simp [hFirst]

end Injection

/-- The two states have the same value for every key that is not written. -/
def AgreeOutside (keys : List Tracked) (base source : StateDB) : Prop :=
  ∀ key : Tracked, key.Sized → key ∉ keys → base.value key = source.value key

/-- Whatever the order of the map is, the injection leaves the state that was collected from. -/
def Reproduces (keys : List Tracked) (base source : StateDB) : Prop :=
  ∀ order, Ranges order (collectWriteValues source (keys.map Tracked.text)) →
    ∃ sdb, injectStateIntoStateDB base order = .ok sdb ∧
      ∀ key : Tracked, key.Sized → sdb.value key = source.value key

/-- An account that is missing in the end was missing before, and no field or slot of it is
among the keys. -/
def NoneRemoved (keys : List Tracked) (base source : StateDB) : Prop :=
  ∀ addr < 2 ^ 160, source addr = none →
    base addr = none ∧ ∀ key ∈ keys, key.addr = addr → key = .exist addr

theorem value_exist_eq_iff {sdb source : StateDB} {addr : Address} :
    sdb.value (.exist addr) = source.value (.exist addr) ↔
      (sdb.Exist addr = true ↔ source.Exist addr = true) := by
  rw [← Bool.eq_iff_iff]
  exact ⟨fun h => Value.flag.inj h, congrArg Value.flag⟩

theorem exist_eq_true_iff {sdb : StateDB} {addr : Address} :
    sdb.Exist addr = true ↔ sdb addr ≠ none := by
  simp [StateDB.Exist, Option.isSome_iff_ne_none]

section Reproduction

variable {keys ranged : List Tracked} {base source : StateDB}

/-- Which accounts exist is as in `source`, exactly if no account is removed. -/
theorem exist_restore_iff (hAgree : AgreeOutside keys base source)
    (hRanged : ∀ key, key ∈ ranged ↔ key ∈ keys) :
    (∀ addr < 2 ^ 160,
      ((ranged.foldl (fun sdb key => sdb.restored source key) base).Exist addr = true ↔
        source.Exist addr = true)) ↔ NoneRemoved keys base source := by
  constructor
  · intro hExist addr hAddr hNone
    have hGone : ¬ source.Exist addr = true := by rw [exist_eq_true_iff, hNone]; simp
    rw [← hExist addr hAddr, exist_restore, not_or] at hGone
    refine ⟨by simpa [exist_eq_true_iff] using hGone.1, fun key hKey hAt => ?_⟩
    by_contra hOther
    refine hGone.2 ⟨key, (hRanged key).mpr hKey, ?_, hAt⟩
    cases key with
    | exist other => exact absurd (congrArg Tracked.exist hAt) hOther
    | balance | nonce | code | slot => rfl
  · intro hNone addr hAddr
    rw [exist_restore]
    constructor
    · intro hEnd
      rw [exist_eq_true_iff]
      intro hGone
      obtain ⟨hBase, hOnly⟩ := hNone addr hAddr hGone
      rcases hEnd with hBefore | ⟨key, hKey, hMakes, hAt⟩
      · exact exist_eq_true_iff.mp hBefore hBase
      · rw [hOnly key ((hRanged key).mp hKey) hAt] at hMakes
        exact exist_eq_true_iff.mp hMakes hGone
    · intro hSource
      by_contra hEnd
      rw [not_or] at hEnd
      have hKey : .exist addr ∉ ranged := fun hKey => hEnd.2 ⟨_, hKey, hSource, rfl⟩
      have hSame := hAgree (.exist addr) ⟨hAddr, by simp⟩ fun h => hKey ((hRanged _).mpr h)
      exact hEnd.1 ((value_exist_eq_iff.mp hSame).mpr hSource)

variable (hSized : ∀ key ∈ keys, key.Sized) (hWords : source.Words)
  (hAgree : AgreeOutside keys base source)

include hAgree in
theorem value_restore_iff (hRanged : ∀ key, key ∈ ranged ↔ key ∈ keys) :
    (∀ key : Tracked, key.Sized →
      (ranged.foldl (fun sdb key => sdb.restored source key) base).value key = source.value key) ↔
        NoneRemoved keys base source := by
  rw [← exist_restore_iff hAgree hRanged]
  constructor
  · intro hAll addr hAddr
    exact value_exist_eq_iff.mp (hAll (.exist addr) ⟨hAddr, by simp⟩)
  · intro hExist key hKey
    by_cases hFlag : ∃ addr, key = .exist addr
    · obtain ⟨addr, rfl⟩ := hFlag
      exact value_exist_eq_iff.mpr (hExist addr hKey.addr)
    · rw [value_restore fun addr h => hFlag ⟨addr, h⟩]
      split_ifs with hWritten
      · rfl
      · exact hAgree key hKey fun h => hWritten ((hRanged key).mpr h)

include hSized hWords hAgree

/-- The collected values reproduce the state exactly if no account is removed. -/
theorem reproduces_iff : Reproduces keys base source ↔ NoneRemoved keys base source := by
  have hInject {order : List (String × String)}
      (hOrder : Ranges order (collectWriteValues source (keys.map Tracked.text))) :
      ∃ ranged : List Tracked, (∀ key, key ∈ ranged ↔ key ∈ keys) ∧
        injectStateIntoStateDB base order =
          .ok (ranged.foldl (fun sdb key => sdb.restored source key) base) := by
    obtain ⟨ranged, hRanged, rfl⟩ := exists_ranged hSized hOrder
    exact ⟨ranged, hRanged, inject_ranged hWords fun key hKey =>
      hSized key ((hRanged key).mp hKey)⟩
  constructor
  · intro hReproduces
    obtain ⟨sdb, hRun, hAll⟩ := hReproduces _ (List.Perm.refl _)
    obtain ⟨ranged, hRanged, hOk⟩ := hInject (List.Perm.refl _)
    rw [← value_restore_iff hAgree hRanged]
    cases hRun.symm.trans hOk
    exact hAll
  · intro hNone order hOrder
    obtain ⟨ranged, hRanged, hOk⟩ := hInject hOrder
    exact ⟨_, hOk, (value_restore_iff hAgree hRanged).mpr hNone⟩

end Reproduction

/-- The keys that the tracker records when an account is made. -/
def creationKeys : List Tracked := [.exist 1, .balance 1, .nonce 1, .code 1]

theorem creationKeys_sized (key : Tracked) (h : key ∈ creationKeys) : key.Sized := by
  simp only [creationKeys, mem_cons, not_mem_nil, or_false] at h
  rcases h with rfl | rfl | rfl | rfl <;> exact ⟨by decide, by simp⟩

/-- One account, which has just been made and paid. -/
def paidAccount : StateDB := update (fun _ => none) 1 (some { emptyAccount with Balance := 5 })

theorem paidAccount_agree : AgreeOutside creationKeys (fun _ => none) paidAccount := by
  intro key _ hKey
  by_cases hAddr : key.addr = 1
  · rw [paidAccount, StateDB.value_update_self hAddr]
    cases key with
    | slot addr index => rfl
    | balance addr | nonce addr | code addr | exist addr =>
      obtain rfl : addr = 1 := hAddr
      exact absurd (by simp [creationKeys]) hKey
  · exact (StateDB.value_update_of_ne hAddr).symm

/-- The creation of an account is reproduced. -/
theorem paidAccount_reproduced : Reproduces creationKeys (fun _ => none) paidAccount := by
  have hWords : paidAccount.Words := by
    intro addr index
    by_cases hAddr : addr = 1 <;>
      simp [paidAccount, StateDB.GetState, StateDB.getOrNewStateObject, hAddr, emptyAccount]
  refine (reproduces_iff creationKeys_sized hWords paidAccount_agree).mpr fun addr _ hNone => ?_
  have hAddr : addr ≠ 1 := by
    rintro rfl
    simp [paidAccount] at hNone
  refine ⟨rfl, fun key hKey hAt => ?_⟩
  simp only [creationKeys, mem_cons, not_mem_nil, or_false] at hKey
  rcases hKey with rfl | rfl | rfl | rfl <;> exact absurd hAt.symm hAddr

/-- A creation that was reverted leaves its keys and no account. The injection of what is
collected for them makes the account. -/
theorem reverted_creation_comes_back : AgreeOutside creationKeys (fun _ => none) (fun _ => none) ∧
      ∃ order sdb, Ranges order (collectWriteValues (fun _ => none) (creationKeys.map Tracked.text)) ∧
        injectStateIntoStateDB (fun _ => none) order = .ok sdb ∧
        sdb.value (.exist 1) = .flag true ∧
        StateDB.value (fun _ => none) (.exist 1) = .flag false := by
  have hWords : StateDB.Words fun _ => none := fun _ _ => Nat.two_pow_pos 256
  refine ⟨fun _ _ _ => rfl, ?_⟩
  have hRange : Ranges _ (collectWriteValues (fun _ => none) (creationKeys.map Tracked.text)) :=
    List.Perm.refl _
  obtain ⟨ranged, hRanged, hOrder⟩ := exists_ranged creationKeys_sized hRange
  refine ⟨_, ranged.foldl (fun sdb key => sdb.restored (fun _ => none) key) fun _ => none, hRange,
    ?_, ?_, rfl⟩
  · rw [hOrder]
    exact inject_ranged hWords fun key hKey => creationKeys_sized key ((hRanged key).mp hKey)
  · have hMade : .balance 1 ∈ ranged := (hRanged _).mpr (by simp [creationKeys])
    exact congrArg Value.flag (exist_restore.mpr (.inr ⟨_, hMade, rfl, rfl⟩))

end Nezha.Replayd
