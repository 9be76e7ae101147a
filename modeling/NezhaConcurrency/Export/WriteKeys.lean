import NezhaConcurrency.Export.Witness

/-! The write keys of a transaction, computed from the tracer's two states. A slot that
the second state does not list has become zero, and an account that it does not list
has been removed with its storage; neither shows in the slots that it lists. -/
namespace Nezha

open GoString

/-- A word of 32 zero bytes, as the tracer prints it. -/
def zeroValue : String := "0x" ++ String.ofList (List.replicate 64 '0')

/-- The value of a slot in one of the two states. -/
def AccountMap.slotValue (accounts : AccountMap) (addr slot : String) : String :=
  ((accounts.account addr).bind fun acct => acct.Storage.lookup slot).getD zeroValue

inductive AccountField where
  | balance
  | nonce
  | code

def AccountField.name : AccountField → String
  | .balance => "balance"
  | .nonce => "nonce"
  | .code => "code"

/-- The text of a field; `0x` is no code. -/
def PrestateAccount.text (acct : PrestateAccount) : AccountField → String
  | .balance => acct.Balance
  | .nonce => acct.Nonce
  | .code => if acct.Code = "0x" then "" else acct.Code

def fieldBefore (pre : AccountMap) (addr : String) (field : AccountField) : String :=
  (pre.account addr).elim "" fun acct => acct.text field

/-- Whether the second state says anything about a field. -/
def PrestateAccount.lists (acct : PrestateAccount) : AccountField → Bool
  | .balance => acct.Balance ≠ ""
  | .nonce => acct.Nonce ≠ ""
  | .code => acct.Code ≠ ""

/-- A removed account has nothing left; a field that is not listed is as before. -/
def fieldAfter (pre post : AccountMap) (addr : String) (field : AccountField) : String :=
  (post.account addr).elim "" fun acct =>
    if acct.lists field then acct.text field else fieldBefore pre addr field

/-- What the two states are compared by: the code by its hash. -/
def PrestateAccount.compared (acct : PrestateAccount) : AccountField → String
  | .balance => acct.Balance
  | .nonce => acct.Nonce
  | .code => acct.CodeHash

/-- A field of an account that the second state has. -/
def FieldChanged (preAcct : Option PrestateAccount) (postAcct : PrestateAccount)
    (field : AccountField) : Prop :=
  match preAcct with
  | none => field = .code → postAcct.text .code ≠ ""
  | some preAcct => preAcct.compared field ≠ postAcct.compared field

/-- A slot that the second state lists with a value that the first one does not have. -/
def SlotChanged (preAcct : Option PrestateAccount) (postAcct : PrestateAccount) (slot : String) :
    Prop :=
  ∃ value, postAcct.Storage.lookup slot = some value ∧
    preAcct.bind (fun acct => acct.Storage.lookup slot) ≠ some value

theorem text_code_ne_empty (acct : PrestateAccount) :
    acct.text .code ≠ "" ↔ acct.Code ≠ "" ∧ acct.Code ≠ "0x" := by
  simp only [PrestateAccount.text]
  split
  · next h => simp [h]
  · next h => simp [h]

theorem AccountField.exists {p : AccountField → Prop} :
    (∃ field, p field) ↔ p .balance ∨ p .nonce ∨ p .code := by
  constructor
  · rintro ⟨field, h⟩
    cases field with
    | balance => exact Or.inl h
    | nonce => exact Or.inr (Or.inl h)
    | code => exact Or.inr (Or.inr h)
  · rintro (h | h | h)
    · exact ⟨_, h⟩
    · exact ⟨_, h⟩
    · exact ⟨_, h⟩

theorem slotChanged_none {postAcct : PrestateAccount} {slot : String} :
    SlotChanged none postAcct slot ↔ slot ∈ postAcct.Storage.keys := by
  have hKeys : slot ∈ postAcct.Storage.keys ↔ slot ∈ postAcct.Storage := Iff.rfl
  rw [hKeys, ← AList.lookup_isSome, Option.isSome_iff_exists]
  simp [SlotChanged]

theorem slotChanged_some {preAcct postAcct : PrestateAccount} {slot : String} :
    SlotChanged (some preAcct) postAcct slot ↔ ∃ entry ∈ postAcct.Storage.entries,
      preAcct.Storage.lookup entry.1 ≠ some entry.2 ∧ entry.1 = slot := by
  constructor
  · rintro ⟨value, hPost, hPre⟩
    exact ⟨⟨slot, value⟩, AList.mem_lookup_iff.mp hPost, hPre, rfl⟩
  · rintro ⟨⟨slot, value⟩, hEntry, hPre, rfl⟩
    exact ⟨value, AList.mem_lookup_iff.mpr hEntry, hPre⟩

theorem mem_changedKeys (addr : String) (preAcct : Option PrestateAccount)
    (postAcct : PrestateAccount) (key : String) :
    key ∈ changedKeys addr preAcct postAcct ↔
      (∃ field, FieldChanged preAcct postAcct field ∧ key = AcctKey addr field.name) ∨
        ∃ slot, SlotChanged preAcct postAcct slot ∧ SlotKey addr slot = key := by
  rw [AccountField.exists]
  cases preAcct with
  | none =>
    have hCode : FieldChanged none postAcct .code ↔ postAcct.Code ≠ "" ∧ postAcct.Code ≠ "0x" := by
      rw [← text_code_ne_empty]
      simp [FieldChanged]
    simp only [hCode, slotChanged_none]
    simp [changedKeys, FieldChanged, AccountField.name, or_assoc]
  | some preAcct =>
    simp only [slotChanged_some]
    simp [changedKeys, FieldChanged, PrestateAccount.compared, AccountField.name, or_assoc,
      and_assoc]

section Reports

variable (pre post : AccountMap)

/-- The field is reported: it changed, or its account is gone. -/
def ReportsField (addr : String) (field : AccountField) : Prop :=
  (∃ postAcct, post.account addr = some postAcct ∧
    FieldChanged (pre.account addr) postAcct field) ∨ addr ∈ pre ∧ addr ∉ post

/-- The slot is reported: the second state lists it with a new value. -/
def ReportsSlot (addr slot : String) : Prop :=
  ∃ postAcct, post.account addr = some postAcct ∧ SlotChanged (pre.account addr) postAcct slot

variable {addr : String}

theorem mem_entries_iff {accounts : AccountMap} {acct : PrestateAccount} :
    ⟨addr, some acct⟩ ∈ accounts.entries ↔ accounts.account addr = some acct := by
  rw [← AList.mem_lookup_iff, AccountMap.account, Option.join_eq_some_iff]
  rfl

theorem mem_computeWriteKeys (key : String) : key ∈ computeWriteKeys pre post ↔
      (∃ addr field, ReportsField pre post addr field ∧ key = AcctKey addr field.name) ∨
        ∃ addr slot, ReportsSlot pre post addr slot ∧ SlotKey addr slot = key := by
  have hPost : key ∈ post.entries.flatMap (postKeys pre) ↔
      ∃ addr postAcct, post.account addr = some postAcct ∧
        key ∈ changedKeys addr (pre.account addr) postAcct := by
    rw [List.mem_flatMap]
    constructor
    · rintro ⟨⟨addr, acct⟩, hEntry, hKey⟩
      cases acct with
      | none => exact absurd hKey List.not_mem_nil
      | some postAcct => exact ⟨addr, postAcct, mem_entries_iff.mp hEntry, hKey⟩
    · rintro ⟨addr, postAcct, hAcct, hKey⟩
      exact ⟨⟨addr, some postAcct⟩, mem_entries_iff.mpr hAcct, hKey⟩
  have hGone : key ∈ pre.keys.flatMap (removedKeys post) ↔
      ∃ addr field, (addr ∈ pre ∧ addr ∉ post) ∧ key = AcctKey addr (AccountField.name field) := by
    rw [List.mem_flatMap]
    refine exists_congr fun addr => ?_
    rw [AccountField.exists]
    have hMem : addr ∈ pre.keys ↔ addr ∈ pre := Iff.rfl
    by_cases hIn : addr ∈ post
    · simp [removedKeys, hIn]
    · simp [removedKeys, hIn, hMem, AccountField.name, and_or_left]
  unfold computeWriteKeys
  rw [List.mem_append, hPost, hGone]
  simp only [mem_changedKeys, ReportsField, ReportsSlot]
  constructor
  · rintro (⟨addr, postAcct, hAcct, ⟨field, hField, hKey⟩ | ⟨slot, hSlot, hKey⟩⟩ |
      ⟨addr, field, hGone, hKey⟩)
    · exact Or.inl ⟨addr, field, Or.inl ⟨postAcct, hAcct, hField⟩, hKey⟩
    · exact Or.inr ⟨addr, slot, ⟨postAcct, hAcct, hSlot⟩, hKey⟩
    · exact Or.inl ⟨addr, field, Or.inr hGone, hKey⟩
  · rintro (⟨addr, field, ⟨postAcct, hAcct, hField⟩ | hGone, hKey⟩ |
      ⟨addr, slot, ⟨postAcct, hAcct, hSlot⟩, hKey⟩)
    · exact Or.inl ⟨addr, postAcct, hAcct, Or.inl ⟨field, hField, hKey⟩⟩
    · exact Or.inr ⟨addr, field, hGone, hKey⟩
    · exact Or.inl ⟨addr, postAcct, hAcct, Or.inr ⟨slot, hSlot, hKey⟩⟩

theorem acctKey_ne_slotKey (addr field addr' slot : String) :
    AcctKey addr field ≠ SlotKey addr' slot := by
  intro h
  have hFirst := congrArg (fun key : String => key.toList.head?) h
  simp [AcctKey, SlotKey] at hFirst

/-- The key of a slot is there if it is reported, under any spelling. -/
theorem slotKey_mem_iff (addr slot : String) : SlotKey addr slot ∈ computeWriteKeys pre post ↔
      ∃ addr' slot', ReportsSlot pre post addr' slot' ∧ SlotKey addr' slot' = SlotKey addr slot := by
  rw [mem_computeWriteKeys]
  refine or_iff_right ?_
  rintro ⟨addr', field, _, hKey⟩
  exact acctKey_ne_slotKey _ _ _ _ hKey.symm

theorem acctKey_mem_iff (addr : String) (field : AccountField) :
    AcctKey addr field.name ∈ computeWriteKeys pre post ↔
      ∃ addr' field', ReportsField pre post addr' field' ∧
        AcctKey addr field.name = AcctKey addr' field'.name := by
  rw [mem_computeWriteKeys]
  refine or_iff_left ?_
  rintro ⟨addr', slot, _, hKey⟩
  exact acctKey_ne_slotKey _ _ _ _ hKey.symm

/-- A slot that was not zero and that the second state does not list. -/
def Cleared (addr slot : String) : Prop :=
  pre.slotValue addr slot ≠ zeroValue ∧
    ∀ postAcct, post.account addr = some postAcct → slot ∉ postAcct.Storage

/-- The code of an account changes, but not its `codeHash`. -/
def HiddenCode (addr : String) : Prop :=
  ∃ preAcct postAcct, pre.account addr = some preAcct ∧ post.account addr = some postAcct ∧
    postAcct.Code ≠ "" ∧ postAcct.text .code ≠ preAcct.text .code ∧
    preAcct.CodeHash = postAcct.CodeHash

/-- The second state lists the account as null. -/
def NullField (addr : String) (field : AccountField) : Prop :=
  fieldBefore pre addr field ≠ "" ∧ addr ∈ post ∧ post.account addr = none

/-- None of the three happens, unless the same key is reported for another spelling. -/
structure Tracked : Prop where
  slots : ∀ addr slot, Cleared pre post addr slot →
    ∃ addr' slot', ReportsSlot pre post addr' slot' ∧ SlotKey addr' slot' = SlotKey addr slot
  code : ∀ addr, HiddenCode pre post addr → ∃ addr' field', ReportsField pre post addr' field' ∧
    AcctKey addr AccountField.code.name = AcctKey addr' field'.name
  null : ∀ addr field, NullField pre post addr field →
    ∃ addr' field', ReportsField pre post addr' field' ∧
      AcctKey addr field.name = AcctKey addr' field'.name

variable {pre post}

theorem reportsSlot_of_ne {slot : String}
    (hDiffers : pre.slotValue addr slot ≠ post.slotValue addr slot)
    (hCleared : ¬ Cleared pre post addr slot) : ReportsSlot pre post addr slot := by
  cases hAcct : post.account addr with
  | none =>
    refine absurd ⟨?_, fun postAcct h => ?_⟩ hCleared
    · rw [AccountMap.slotValue, AccountMap.slotValue, hAcct] at hDiffers
      rwa [AccountMap.slotValue]
    · rw [hAcct] at h
      cases h
  | some postAcct =>
    refine ⟨postAcct, hAcct, ?_⟩
    cases hValue : postAcct.Storage.lookup slot with
    | none =>
      refine absurd ⟨?_, fun other h => ?_⟩ hCleared
      · rwa [AccountMap.slotValue, AccountMap.slotValue, hAcct, Option.bind_some, hValue,
          Option.getD_none] at hDiffers
      · rw [hAcct] at h
        cases h
        exact AList.lookup_eq_none.mp hValue
    | some value =>
      refine ⟨value, hValue, fun hPre => hDiffers ?_⟩
      rw [AccountMap.slotValue, AccountMap.slotValue, hPre, hAcct, Option.bind_some, hValue]

theorem mem_of_account {accounts : AccountMap} {acct : PrestateAccount}
    (h : accounts.account addr = some acct) : addr ∈ accounts :=
  AList.lookup_isSome.mp (by rw [Option.join_eq_some_iff.mp h]; rfl)

theorem reportsField_of_ne {field : AccountField}
    (hDiffers : fieldBefore pre addr field ≠ fieldAfter pre post addr field)
    (hCode : field = .code → ¬ HiddenCode pre post addr) (hNull : ¬ NullField pre post addr field) :
    ReportsField pre post addr field := by
  cases hPost : post.account addr with
  | none =>
    rw [fieldAfter, hPost, Option.elim_none] at hDiffers
    refine Or.inr ⟨?_, fun hIn => hNull ⟨hDiffers, hIn, hPost⟩⟩
    cases hPre : pre.account addr with
    | none =>
      rw [fieldBefore, hPre] at hDiffers
      exact absurd rfl hDiffers
    | some preAcct => exact mem_of_account hPre
  | some postAcct =>
    refine Or.inl ⟨postAcct, hPost, ?_⟩
    rw [fieldAfter, hPost, Option.elim_some] at hDiffers
    have hLists : postAcct.lists field = true := by
      by_contra hNot
      rw [if_neg hNot] at hDiffers
      exact hDiffers rfl
    rw [if_pos hLists] at hDiffers
    cases hPre : pre.account addr with
    | none =>
      rw [fieldBefore, hPre, Option.elim_none] at hDiffers
      rintro rfl
      exact hDiffers.symm
    | some preAcct =>
      rw [fieldBefore, hPre, Option.elim_some] at hDiffers
      cases field with
      | balance => exact hDiffers
      | nonce => exact hDiffers
      | code =>
        intro hSame
        exact hCode rfl ⟨preAcct, postAcct, hPre, hPost, of_decide_eq_true hLists,
          hDiffers.symm, hSame⟩

theorem Cleared.ne {slot : String} (cleared : Cleared pre post addr slot) :
    pre.slotValue addr slot ≠ post.slotValue addr slot := by
  have hZero : post.slotValue addr slot = zeroValue := by
    unfold AccountMap.slotValue
    cases hAcct : post.account addr with
    | none => rfl
    | some postAcct =>
      rw [Option.bind_some, AList.lookup_eq_none.mpr (cleared.2 postAcct hAcct)]
      rfl
  rw [hZero]
  exact cleared.1

theorem HiddenCode.ne (hidden : HiddenCode pre post addr) :
    fieldBefore pre addr .code ≠ fieldAfter pre post addr .code := by
  obtain ⟨preAcct, postAcct, hPre, hPost, hLists, hCode, _⟩ := hidden
  have hListed : postAcct.lists .code = true := decide_eq_true hLists
  rw [fieldBefore, fieldAfter, hPre, hPost, Option.elim_some, Option.elim_some, if_pos hListed]
  exact hCode.symm

theorem NullField.ne {field : AccountField} (null : NullField pre post addr field) :
    fieldBefore pre addr field ≠ fieldAfter pre post addr field := by
  rw [fieldAfter, null.2.2, Option.elim_none]
  exact null.1

/-- The write keys have every slot and field that differs if and only if no slot is
cleared, no code change hides behind an equal `codeHash` and no account is null. -/
theorem writeKeys_complete_iff (pre post : AccountMap) :
    ((∀ addr slot, pre.slotValue addr slot ≠ post.slotValue addr slot →
        SlotKey addr slot ∈ computeWriteKeys pre post) ∧
      ∀ addr field, fieldBefore pre addr field ≠ fieldAfter pre post addr field →
        AcctKey addr field.name ∈ computeWriteKeys pre post) ↔ Tracked pre post := by
  constructor
  · rintro ⟨hSlots, hFields⟩
    refine ⟨fun addr slot cleared => ?_, fun addr hidden => ?_, fun addr field null => ?_⟩
    · exact (slotKey_mem_iff pre post addr slot).mp (hSlots addr slot cleared.ne)
    · exact (acctKey_mem_iff pre post addr .code).mp (hFields addr .code hidden.ne)
    · exact (acctKey_mem_iff pre post addr field).mp (hFields addr field null.ne)
  · intro tracked
    refine ⟨fun addr slot hDiffers => ?_, fun addr field hDiffers => ?_⟩
    · rw [slotKey_mem_iff]
      by_cases hCleared : Cleared pre post addr slot
      · exact tracked.slots addr slot hCleared
      · exact ⟨addr, slot, reportsSlot_of_ne hDiffers hCleared, rfl⟩
    · rw [acctKey_mem_iff]
      by_cases hNull : NullField pre post addr field
      · exact tracked.null addr field hNull
      by_cases hCode : field = .code ∧ HiddenCode pre post addr
      · rw [hCode.1]
        exact tracked.code addr hCode.2
      · exact ⟨addr, field, reportsField_of_ne hDiffers (fun h hidden => hCode ⟨h, hidden⟩) hNull,
          rfl⟩

end Reports

section Example

def oneSlot (storage : StorageMap) : AccountMap :=
  AList.insert "0xa" (some ⟨"0x1", "0x1", "0x60", "0x9", storage⟩) ∅

/-- A slot is cleared, and an account with a slot is removed: neither slot is reported. -/
theorem cleared_slot_not_reported : (((oneSlot (AList.insert "0x0" "0x5" ∅)).slotValue "0xa" "0x0" ≠
        (oneSlot ∅).slotValue "0xa" "0x0") ∧
      SlotKey "0xa" "0x0" ∉ computeWriteKeys (oneSlot (AList.insert "0x0" "0x5" ∅)) (oneSlot ∅)) ∧
    ((oneSlot (AList.insert "0x0" "0x5" ∅)).slotValue "0xa" "0x0" ≠
        AccountMap.slotValue ∅ "0xa" "0x0") ∧
      SlotKey "0xa" "0x0" ∉ computeWriteKeys (oneSlot (AList.insert "0x0" "0x5" ∅)) ∅ := by
  decide

end Example

end Nezha
