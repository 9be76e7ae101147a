import NezhaConcurrency.Replayd.CanonicalKeys

/-! The sparse state of the replay daemon. It answers from the witness of a block, and it
records the key of everything that the witness does not have. The accounts of a witness are
under lowercase addresses, and they are looked up under the checksummed text of an address. -/
namespace Nezha.Replayd

open State (Tracked zeroX addressBytes hashHex checksumHex FromHex HexToHash)

/-- The accounts of a witness. A pointer may be nil. -/
abbrev SparseWitness := AList fun _ : String => Option WitnessAccount

structure SparseStateDB where
  witness : SparseWitness
  codeStore : AList fun _ : String => List UInt8
  missedKeys : Finset String

/-- What a getter returns. A balance may be nil. -/
inductive Answer where
  | balance (bal : Option Int)
  | nonce (n : Nat)
  | code (bytes : List UInt8)
  | exist (ok : Bool)
  | slot (value : Nat)
  deriving DecidableEq

namespace SparseStateDB

section Getters

variable (keccak256 : List UInt8 → Fin 32 → UInt8) (SetString : String → Option Int)
  (s : SparseStateDB) (addr : Address)

/-- The codes of an earlier witness stay. -/
def LoadWitness (witness : Option SparseWitness) : SparseStateDB :=
  { s with witness := witness.getD ∅, missedKeys := ∅ }

def GetMissedKeys : Finset String := s.missedKeys

def miss (key : String) : SparseStateDB := { s with missedKeys := insert key s.missedKeys }

/-- A getter has no result if it dereferences nil. -/
def GetBalance : Option (Option Int × SparseStateDB) :=
  match s.witness.lookup (checksumHex keccak256 addr) with
  | none => some (none, s.miss (AcctKey (checksumHex keccak256 addr) "balance"))
  | some none => none
  | some (some acct) => some (SetString acct.Balance, s)

/-- A text that is not a number gives a nil number, and this has no low bits. -/
def GetNonce : Option (Nat × SparseStateDB) :=
  match s.witness.lookup (checksumHex keccak256 addr) with
  | none => some (0, s.miss (AcctKey (checksumHex keccak256 addr) "nonce"))
  | some none => none
  | some (some acct) => (SetString acct.Nonce).map fun n => (State.Uint64 n, s)

def GetCode : Option (List UInt8 × SparseStateDB) :=
  match s.witness.lookup (checksumHex keccak256 addr) with
  | none => some ([], s.miss (AcctKey (checksumHex keccak256 addr) "code"))
  | some acct =>
    match s.codeStore.lookup (checksumHex keccak256 addr), acct with
    | some code, _ => some (code, s)
    | none, none => none
    | none, some acct =>
      if acct.Code ≠ "" then
        some (FromHex acct.Code, { s with
          codeStore := s.codeStore.insert (checksumHex keccak256 addr) (FromHex acct.Code) })
      else some ([], s)

def GetState (index : Nat) : Option (Nat × SparseStateDB) :=
  let missed := s.miss (SlotKey (checksumHex keccak256 addr) (hashHex index))
  match s.witness.lookup (checksumHex keccak256 addr) with
  | none => some (0, missed)
  | some none => none
  | some (some acct) =>
    match acct.Storage.lookup (hashHex index) with
    | none => some (0, missed)
    | some val => some (HexToHash val, s)

def Exist : Bool × SparseStateDB :=
  match s.witness.lookup (checksumHex keccak256 addr) with
  | none => (false, s.miss (AcctKey (checksumHex keccak256 addr) "exist"))
  | some _ => (true, s)

/-- The getter for a key. -/
def call : Tracked → Option (Answer × SparseStateDB)
  | .balance addr => (s.GetBalance keccak256 SetString addr).map fun r => (.balance r.1, r.2)
  | .nonce addr => (s.GetNonce keccak256 SetString addr).map fun r => (.nonce r.1, r.2)
  | .code addr => (s.GetCode keccak256 addr).map fun r => (.code r.1, r.2)
  | .exist addr => some (.exist (s.Exist keccak256 addr).1, (s.Exist keccak256 addr).2)
  | .slot addr index => (s.GetState keccak256 addr index).map fun r => (.slot r.1, r.2)

end Getters

end SparseStateDB

/-! ### What the witness has -/

namespace SparseWitness

variable (SetString : String → Option Int) (w : SparseWitness)

/-- The texts are those that the exporter writes. -/
structure ExporterFormat : Prop where
  accounts : ∀ addrHex ∈ w, ∃ addr, addr < 2 ^ 160 ∧ addrHex = zeroX (addressBytes addr)
  slots : ∀ addrHex acct, w.lookup addrHex = some (some acct) → ∀ slotHex ∈ acct.Storage,
    ∃ index, index < 2 ^ 256 ∧ slotHex = hashHex index

def account (addr : Address) : Option (Option WitnessAccount) := w.lookup (zeroX (addressBytes addr))

/-- The account and the slot are in the witness. -/
def Present : Tracked → Prop
  | .slot addr index => ∃ acct, w.account addr = some (some acct) ∧ hashHex index ∈ acct.Storage
  | .balance addr | .nonce addr | .code addr | .exist addr => (w.account addr).isSome

/-- The answer is the one of the witness. -/
def HasValue : Tracked → Answer → Prop
  | .balance addr, answer => ∃ acct, w.account addr = some (some acct) ∧
      answer = .balance (SetString acct.Balance)
  | .nonce addr, answer => ∃ acct n, w.account addr = some (some acct) ∧
      SetString acct.Nonce = some (Int.ofNat n) ∧ answer = .nonce n
  | .code addr, answer => ∃ acct, w.account addr = some (some acct) ∧
      answer = .code (FromHex acct.Code)
  | .exist _, answer => answer = .exist true
  | .slot addr index, answer => ∃ acct val, w.account addr = some (some acct) ∧
      acct.Storage.lookup (hashHex index) = some val ∧ answer = .slot (HexToHash val)

end SparseWitness

/-- A call for something present has the value of the witness and records nothing. A call
for something absent records its key. -/
structure Exact (SetString : String → Option Int) (w : SparseWitness) (s : SparseStateDB)
    (key : Tracked) (answer : Answer) (s' : SparseStateDB) : Prop where
  present : w.Present key → w.HasValue SetString key answer ∧ s'.GetMissedKeys = s.GetMissedKeys
  absent : ¬ w.Present key → s'.GetMissedKeys = insert key.text s.GetMissedKeys

/-- Every call of a sequence is exact, and none panics. -/
def ExactRun (keccak256 : List UInt8 → Fin 32 → UInt8) (SetString : String → Option Int)
    (w : SparseWitness) : SparseStateDB → List Tracked → Prop
  | _, [] => True
  | s, key :: keys => ∃ answer s', s.call keccak256 SetString key = some (answer, s') ∧
      Exact SetString w s key answer s' ∧ ExactRun keccak256 SetString w s' keys

/-- The checksum has no letter in uppercase. -/
def Lowercase (keccak256 : List UInt8 → Fin 32 → UInt8) (addr : Address) : Prop :=
  checksumHex keccak256 addr = zeroX (addressBytes addr)

/-- What has to hold for a call to be exact after `w` is loaded over `db`. -/
def Answers (keccak256 : List UInt8 → Fin 32 → UInt8) (SetString : String → Option Int)
    (db : SparseStateDB) (w : SparseWitness) : Tracked → Prop
  | .balance addr => (w.account addr).isSome →
      Lowercase keccak256 addr ∧ ∃ acct, w.account addr = some (some acct)
  | .nonce addr => (w.account addr).isSome → Lowercase keccak256 addr ∧
      ∃ acct n, w.account addr = some (some acct) ∧ SetString acct.Nonce = some (Int.ofNat n) ∧
        n < 2 ^ 64
  | .code addr => (w.account addr).isSome → Lowercase keccak256 addr ∧
      ∃ acct, w.account addr = some (some acct) ∧
        ∀ code, db.codeStore.lookup (zeroX (addressBytes addr)) = some code →
          code = FromHex acct.Code
  | .exist addr => (w.account addr).isSome → Lowercase keccak256 addr
  | .slot addr index => (w.Present (.slot addr index) → Lowercase keccak256 addr) ∧
      (w.account addr = some none → ¬ Lowercase keccak256 addr)

instance (keccak256 : List UInt8 → Fin 32 → UInt8) (addr : Address) :
    Decidable (Lowercase keccak256 addr) := inferInstanceAs (Decidable (_ = _))

section Calls

variable {keccak256 : List UInt8 → Fin 32 → UInt8} {SetString : String → Option Int}
  {w : SparseWitness} {db s s' : SparseStateDB} {key : Tracked} {answer : Answer}

theorem acctKey_checksumHex (keccak256 : List UInt8 → Fin 32 → UInt8) (addr : Address)
    (field : String) :
    AcctKey (checksumHex keccak256 addr) field = State.acctKeyText addr field :=
  acctKey_eq (.inl (State.toLower_checksumHex keccak256 addr)) field

theorem slotKey_checksumHex (keccak256 : List UInt8 → Fin 32 → UInt8) (addr : Address)
    (index : Nat) :
    SlotKey (checksumHex keccak256 addr) (hashHex index) = State.slotKeyText addr index :=
  slotKey_eq (.inl (State.toLower_checksumHex keccak256 addr)) (.inl (State.toLower_zeroX _))

/-- An account is found if its checksum has no uppercase letter. -/
theorem lookup_checksumHex (hFormat : w.ExporterFormat) (keccak256 : List UInt8 → Fin 32 → UInt8)
    (addr : Address) : w.lookup (checksumHex keccak256 addr) =
      if Lowercase keccak256 addr then w.account addr else none := by
  by_cases hLower : Lowercase keccak256 addr
  · rw [if_pos hLower, SparseWitness.account, ← (hLower : checksumHex keccak256 addr = _)]
  · rw [if_neg hLower, AList.lookup_eq_none]
    intro hMem
    obtain ⟨found, _, hText⟩ := hFormat.accounts _ hMem
    have hSame := State.toLower_checksumHex keccak256 addr
    rw [hText, State.toLower_zeroX, ← hText] at hSame
    exact hLower hSame

theorem call_of_lookup_eq_none (h : s.witness.lookup (checksumHex keccak256 key.addr) = none) :
    ∃ answer, s.call keccak256 SetString key = some (answer, s.miss key.text) := by
  cases key with
  | balance addr | nonce addr | code addr | exist addr =>
    change s.witness.lookup (checksumHex keccak256 addr) = none at h
    simp only [SparseStateDB.call, SparseStateDB.GetBalance, SparseStateDB.GetNonce,
      SparseStateDB.GetCode, SparseStateDB.Exist, h, acctKey_checksumHex]
    exact ⟨_, rfl⟩
  | slot addr index =>
    change s.witness.lookup (checksumHex keccak256 addr) = none at h
    simp only [SparseStateDB.call, SparseStateDB.GetState, h, slotKey_checksumHex]
    exact ⟨_, rfl⟩

section Found

variable {addr : Address} {pointer : Option WitnessAccount}
  (hLookup : s.witness.lookup (checksumHex keccak256 addr) = some pointer)

include hLookup

theorem call_balance : s.call keccak256 SetString (.balance addr) =
    pointer.map fun acct => (.balance (SetString acct.Balance), s) := by
  simp only [SparseStateDB.call, SparseStateDB.GetBalance, hLookup]
  cases pointer <;> rfl

theorem call_nonce : s.call keccak256 SetString (.nonce addr) =
    pointer.bind fun acct => (SetString acct.Nonce).map fun n => (.nonce (State.Uint64 n), s) := by
  simp only [SparseStateDB.call, SparseStateDB.GetNonce, hLookup]
  cases pointer with
  | none => rfl
  | some acct => exact Option.map_map _ _ _

theorem call_exist : s.call keccak256 SetString (.exist addr) = some (.exist true, s) := by
  simp only [SparseStateDB.call, SparseStateDB.Exist, hLookup]

theorem call_slot (index : Nat) : s.call keccak256 SetString (.slot addr index) =
    pointer.map fun acct => match acct.Storage.lookup (hashHex index) with
      | none => (.slot 0, s.miss (State.slotKeyText addr index))
      | some val => (.slot (HexToHash val), s) := by
  simp only [SparseStateDB.call, SparseStateDB.GetState, hLookup, slotKey_checksumHex]
  cases pointer with
  | none => rfl
  | some acct =>
    dsimp only [Option.map_some]
    cases acct.Storage.lookup (hashHex index) <;> rfl

/-- The state with the code of an account, unless it has none. -/
def storeCode (s : SparseStateDB) (text : String) (acct : WitnessAccount) : SparseStateDB :=
  if acct.Code ≠ "" then { s with codeStore := s.codeStore.insert text (FromHex acct.Code) } else s

theorem call_code : s.call keccak256 SetString (.code addr) =
    match s.codeStore.lookup (checksumHex keccak256 addr) with
    | some code => some (.code code, s)
    | none => pointer.map fun acct =>
      (.code (FromHex acct.Code), storeCode s (checksumHex keccak256 addr) acct) := by
  simp only [SparseStateDB.call, SparseStateDB.GetCode, hLookup]
  cases s.codeStore.lookup (checksumHex keccak256 addr) with
  | some code => rfl
  | none =>
    cases pointer with
    | none => rfl
    | some acct =>
      dsimp only [Option.map_some]
      by_cases hCode : acct.Code = ""
      · simp only [hCode, storeCode, ne_eq, not_true_eq_false, if_false]
        rfl
      · simp only [hCode, storeCode, ne_eq, not_false_eq_true, if_true]
        rfl

end Found

/-- A call leaves the state as it was, records its key, or stores a code. -/
theorem call_cases (h : s.call keccak256 SetString key = some (answer, s')) :
    s' = s ∨ s' = s.miss key.text ∨ ∃ text acct, s.witness.lookup text = some (some acct) ∧
      s.codeStore.lookup text = none ∧ s' = storeCode s text acct := by
  cases hLookup : s.witness.lookup (checksumHex keccak256 key.addr) with
  | none =>
    obtain ⟨found, hMiss⟩ := call_of_lookup_eq_none hLookup
    rw [hMiss] at h
    cases h
    exact Or.inr (Or.inl rfl)
  | some pointer =>
    cases key with
    | balance addr =>
      replace h := (call_balance hLookup).symm.trans h
      obtain ⟨acct, rfl, hSame⟩ := Option.map_eq_some_iff.mp h
      exact Or.inl (Prod.mk.inj hSame).2.symm
    | nonce addr =>
      replace h := (call_nonce hLookup).symm.trans h
      obtain ⟨acct, rfl, hRead⟩ := Option.bind_eq_some_iff.mp h
      obtain ⟨n, _, hSame⟩ := Option.map_eq_some_iff.mp hRead
      exact Or.inl (Prod.mk.inj hSame).2.symm
    | exist addr =>
      replace h := (call_exist hLookup).symm.trans h
      exact Or.inl (Prod.mk.inj (Option.some.inj h)).2.symm
    | slot addr index =>
      replace h := (call_slot hLookup index).symm.trans h
      obtain ⟨acct, rfl, hSame⟩ := Option.map_eq_some_iff.mp h
      split at hSame
      · exact Or.inr (Or.inl (Prod.mk.inj hSame).2.symm)
      · exact Or.inl (Prod.mk.inj hSame).2.symm
    | code addr =>
      replace h := (call_code hLookup).symm.trans h
      split at h
      · exact Or.inl (Prod.mk.inj (Option.some.inj h)).2.symm
      · next hStore =>
          obtain ⟨acct, rfl, hSame⟩ := Option.map_eq_some_iff.mp h
          exact Or.inr (Or.inr ⟨_, acct, hLookup, hStore, (Prod.mk.inj hSame).2.symm⟩)

/-- The codes that are stored for an account are its code in the witness. -/
def CodeRight (s : SparseStateDB) (text : String) (acct : WitnessAccount) : Prop :=
  ∀ code, s.codeStore.lookup text = some code → code = FromHex acct.Code

/-- What holds while calls are made after `w` was loaded over `db`. -/
structure Loaded (db : SparseStateDB) (w : SparseWitness) (s : SparseStateDB) : Prop where
  witness : s.witness = w
  codes : ∀ text acct, w.lookup text = some (some acct) →
    (CodeRight s text acct ↔ CodeRight db text acct)
  missed : ∀ key, key.Sized → w.Present key → key.text ∉ s.missedKeys

theorem Loaded.loadWitness (db : SparseStateDB) (w : SparseWitness) :
    Loaded db w (db.LoadWitness (some w)) where
  witness := rfl
  codes _ _ _ := Iff.rfl
  missed _ _ _ := Finset.notMem_empty _

theorem codeRight_storeCode {text other : String} {acct : WitnessAccount}
    (hNone : s.codeStore.lookup other = none) {otherAcct : WitnessAccount}
    (hSame : text = other → acct = otherAcct) :
    CodeRight (storeCode s other otherAcct) text acct ↔ CodeRight s text acct := by
  unfold storeCode
  split_ifs with hCode
  · by_cases hText : text = other
    · obtain rfl := hSame hText
      subst hText
      refine iff_of_true (fun code h => ?_) (fun code h => ?_)
      · rw [AList.lookup_insert] at h
        exact (Option.some.inj h).symm
      · rw [hNone] at h
        cases h
    · refine forall_congr' fun code => ?_
      rw [AList.lookup_insert_ne hText]
  · rfl

theorem Loaded.call (hLoaded : Loaded db w s) (hSized : key.Sized)
    (hCall : s.call keccak256 SetString key = some (answer, s'))
    (hExact : Exact SetString w s key answer s') : Loaded db w s' := by
  have hMissed : ∀ other, other.Sized → w.Present other → other.text ∉ s'.missedKeys := by
    intro other hOther hPresent
    by_cases hKey : w.Present key
    · have hSame : s'.missedKeys = s.missedKeys := (hExact.present hKey).2
      rw [hSame]
      exact hLoaded.missed other hOther hPresent
    · have hInsert : s'.missedKeys = insert key.text s.missedKeys := hExact.absent hKey
      rw [hInsert, Finset.mem_insert, not_or]
      refine ⟨fun hText => hKey ?_, hLoaded.missed other hOther hPresent⟩
      rwa [← Tracked.text_inj hOther hSized hText]
  rcases call_cases hCall with rfl | rfl | ⟨text, acct, hText, hNone, rfl⟩
  · exact hLoaded
  · exact ⟨hLoaded.witness, hLoaded.codes, hMissed⟩
  · have hWitness : (storeCode s text acct).witness = w := by
      unfold storeCode
      split_ifs <;> exact hLoaded.witness
    refine ⟨hWitness, fun other otherAcct hOther => ?_, hMissed⟩
    rw [← hLoaded.codes other otherAcct hOther]
    refine codeRight_storeCode hNone fun hSame => ?_
    rw [hLoaded.witness, ← hSame, hOther] at hText
    exact Option.some.inj (Option.some.inj hText)

theorem exact_miss_iff (hMissed : w.Present key → key.text ∉ s.missedKeys) :
    Exact SetString w s key answer (s.miss key.text) ↔ ¬ w.Present key := by
  constructor
  · intro hExact hPresent
    refine hMissed hPresent ?_
    have hSame : insert key.text s.missedKeys = s.missedKeys := (hExact.present hPresent).2
    rw [← hSame]
    exact Finset.mem_insert_self _ _
  · exact fun hAbsent => ⟨fun hPresent => absurd hPresent hAbsent, fun _ => rfl⟩

theorem exact_same_iff (hPresent : w.Present key) (hSame : s'.missedKeys = s.missedKeys) :
    Exact SetString w s key answer s' ↔ w.HasValue SetString key answer :=
  ⟨fun hExact => (hExact.present hPresent).1,
    fun hValue => ⟨fun _ => ⟨hValue, hSame⟩, fun hAbsent => absurd hPresent hAbsent⟩⟩

theorem answers_iff_of_not_lowercase (hLower : ¬ Lowercase keccak256 key.addr) :
    Answers keccak256 SetString db w key ↔ ¬ w.Present key := by
  cases key with
  | balance addr | nonce addr | code addr =>
    exact ⟨fun h hPresent => hLower (h hPresent).1, fun h hPresent => absurd hPresent h⟩
  | exist addr => exact ⟨fun h hPresent => hLower (h hPresent), fun h hPresent => absurd hPresent h⟩
  | slot addr index =>
    exact ⟨fun h hPresent => hLower (h.1 hPresent),
      fun h => ⟨fun hPresent => absurd hPresent h, fun _ => hLower⟩⟩

theorem answers_of_account_eq_none (hNone : w.account key.addr = none) :
    Answers keccak256 SetString db w key ∧ ¬ w.Present key := by
  cases key with
  | balance addr | nonce addr | code addr | exist addr =>
    have hAbsent : ¬ (w.account addr).isSome = true := by
      rw [show w.account addr = none from hNone]
      nofun
    exact ⟨fun hPresent => absurd hPresent hAbsent, hAbsent⟩
  | slot addr index =>
    change w.account addr = none at hNone
    have hAbsent : ¬ w.Present (.slot addr index) := by
      rintro ⟨acct, hSome, _⟩
      rw [hNone] at hSome
      cases hSome
    refine ⟨⟨fun hPresent => absurd hPresent hAbsent, fun hNil => ?_⟩, hAbsent⟩
    rw [hNone] at hNil
    cases hNil

section Exactness

variable {addr : Address} {pointer : Option WitnessAccount} (hLoaded : Loaded db w s)
  (hLower : Lowercase keccak256 addr) (hAccount : w.account addr = some pointer)

include hLoaded hLower hAccount

theorem lookup_of_lowercase : s.witness.lookup (checksumHex keccak256 addr) = some pointer := by
  rw [hLoaded.witness, (hLower : checksumHex keccak256 addr = _)]
  exact hAccount

theorem balance_exact_iff :
    (∃ answer s', s.call keccak256 SetString (.balance addr) = some (answer, s') ∧
      Exact SetString w s (.balance addr) answer s') ↔
        Answers keccak256 SetString db w (.balance addr) := by
  have hPresent : w.Present (.balance addr) := Option.isSome_of_eq_some hAccount
  rw [call_balance (lookup_of_lowercase hLoaded hLower hAccount)]
  constructor
  · rintro ⟨answer, s', hCall, _⟩ _
    obtain ⟨acct, rfl, _⟩ := Option.map_eq_some_iff.mp hCall
    exact ⟨hLower, acct, hAccount⟩
  · intro h
    obtain ⟨_, acct, hAcct⟩ := h hPresent
    obtain rfl := Option.some.inj (hAccount.symm.trans hAcct)
    exact ⟨_, _, rfl, (exact_same_iff hPresent rfl).mpr ⟨acct, hAcct, rfl⟩⟩

theorem nonce_exact_iff :
    (∃ answer s', s.call keccak256 SetString (.nonce addr) = some (answer, s') ∧
      Exact SetString w s (.nonce addr) answer s') ↔
        Answers keccak256 SetString db w (.nonce addr) := by
  have hPresent : w.Present (.nonce addr) := Option.isSome_of_eq_some hAccount
  rw [call_nonce (lookup_of_lowercase hLoaded hLower hAccount)]
  constructor
  · rintro ⟨answer, s', hCall, hExact⟩ _
    obtain ⟨acct, rfl, hRead⟩ := Option.bind_eq_some_iff.mp hCall
    obtain ⟨number, hNumber, hAnswer⟩ := Option.map_eq_some_iff.mp hRead
    obtain ⟨found, n, hFound, hNonce, rfl⟩ := (hExact.present hPresent).1
    obtain rfl : acct = found := Option.some.inj (Option.some.inj (hAccount.symm.trans hFound))
    refine ⟨hLower, acct, n, hAccount, hNonce, ?_⟩
    -- The low bits of the number are the number.
    have hLow : State.Uint64 number = n := Answer.nonce.inj (Prod.mk.inj hAnswer).1
    rw [← hLow]
    exact Nat.mod_lt _ (by norm_num)
  · intro h
    obtain ⟨_, acct, n, hAcct, hNonce, hSmall⟩ := h hPresent
    obtain rfl := Option.some.inj (hAccount.symm.trans hAcct)
    have hLow : State.Uint64 (Int.ofNat n) = n := Nat.mod_eq_of_lt hSmall
    refine ⟨.nonce n, s, ?_, (exact_same_iff hPresent rfl).mpr ⟨acct, n, hAcct, hNonce, rfl⟩⟩
    rw [Option.bind_some, hNonce, Option.map_some, hLow]

theorem exist_exact_iff :
    (∃ answer s', s.call keccak256 SetString (.exist addr) = some (answer, s') ∧
      Exact SetString w s (.exist addr) answer s') ↔
        Answers keccak256 SetString db w (.exist addr) := by
  have hPresent : w.Present (.exist addr) := Option.isSome_of_eq_some hAccount
  rw [call_exist (lookup_of_lowercase hLoaded hLower hAccount)]
  exact iff_of_true ⟨_, _, rfl, (exact_same_iff hPresent rfl).mpr rfl⟩ fun _ => hLower

theorem code_exact_iff : (∃ answer s', s.call keccak256 SetString (.code addr) = some (answer, s') ∧
      Exact SetString w s (.code addr) answer s') ↔
        Answers keccak256 SetString db w (.code addr) := by
  have hPresent : w.Present (.code addr) := Option.isSome_of_eq_some hAccount
  have hText : checksumHex keccak256 addr = zeroX (addressBytes addr) := hLower
  have hCodes : ∀ acct, pointer = some acct → (CodeRight s (zeroX (addressBytes addr)) acct ↔
        CodeRight db (zeroX (addressBytes addr)) acct) := by
    rintro acct rfl
    exact hLoaded.codes _ acct hAccount
  have hStored : ∀ acct, (storeCode s (zeroX (addressBytes addr)) acct).missedKeys =
      s.missedKeys := by
    intro acct
    unfold storeCode
    split_ifs <;> rfl
  rw [call_code (lookup_of_lowercase hLoaded hLower hAccount), hText]
  cases hStore : s.codeStore.lookup (zeroX (addressBytes addr)) with
  | some stored =>
    constructor
    · rintro ⟨answer, s', hCall, hExact⟩ _
      obtain ⟨rfl, rfl⟩ := Prod.mk.inj (Option.some.inj hCall)
      obtain ⟨acct, hAcct, hAnswer⟩ := (hExact.present hPresent).1
      obtain rfl := Option.some.inj (hAccount.symm.trans hAcct)
      refine ⟨hLower, acct, hAcct, (hCodes acct rfl).mp fun code hCode => ?_⟩
      rw [hStore] at hCode
      exact (Option.some.inj hCode).symm.trans (Answer.code.inj hAnswer)
    · intro h
      obtain ⟨_, acct, hAcct, hRight⟩ := h hPresent
      obtain rfl := Option.some.inj (hAccount.symm.trans hAcct)
      have hSame := (hCodes acct rfl).mpr hRight stored hStore
      exact ⟨_, _, rfl, (exact_same_iff hPresent rfl).mpr ⟨acct, hAcct, by rw [hSame]⟩⟩
  | none =>
    constructor
    · rintro ⟨answer, s', hCall, _⟩ _
      obtain ⟨acct, rfl, _⟩ := Option.map_eq_some_iff.mp hCall
      refine ⟨hLower, acct, hAccount, (hCodes acct rfl).mp fun code hCode => ?_⟩
      rw [hStore] at hCode
      cases hCode
    · intro h
      obtain ⟨_, acct, hAcct, _⟩ := h hPresent
      obtain rfl := Option.some.inj (hAccount.symm.trans hAcct)
      exact ⟨_, _, rfl, (exact_same_iff hPresent (hStored acct)).mpr ⟨acct, hAcct, rfl⟩⟩

theorem slot_exact_iff {index : Nat} (hSized : (Tracked.slot addr index).Sized) :
    (∃ answer s', s.call keccak256 SetString (.slot addr index) = some (answer, s') ∧
      Exact SetString w s (.slot addr index) answer s') ↔
        Answers keccak256 SetString db w (.slot addr index) := by
  rw [call_slot (lookup_of_lowercase hLoaded hLower hAccount)]
  cases pointer with
  | none => exact iff_of_false (fun ⟨_, _, h, _⟩ => nomatch h) fun h => h.2 hAccount hLower
  | some acct =>
    have hNotNil : w.account addr ≠ some none := by
      rw [hAccount]
      nofun
    refine iff_of_true ?_ ⟨fun _ => hLower, fun hNil => absurd hNil hNotNil⟩
    cases hSlot : acct.Storage.lookup (hashHex index) with
    | none =>
      refine ⟨.slot 0, s.miss (State.slotKeyText addr index), ?_, ?_⟩
      · rw [Option.map_some, hSlot]
      · refine (exact_miss_iff (hLoaded.missed _ hSized)).mpr ?_
        rintro ⟨found, hFound, hMem⟩
        obtain rfl := Option.some.inj (Option.some.inj (hAccount.symm.trans hFound))
        exact AList.lookup_eq_none.mp hSlot hMem
    | some val =>
      have hPresent : w.Present (.slot addr index) :=
        ⟨acct, hAccount, AList.lookup_isSome.mp (Option.isSome_of_eq_some hSlot)⟩
      refine ⟨.slot (HexToHash val), s, ?_,
        (exact_same_iff hPresent rfl).mpr ⟨acct, val, hAccount, hSlot, rfl⟩⟩
      rw [Option.map_some, hSlot]

end Exactness

theorem miss_exact_iff (hLoaded : Loaded db w s) (hSized : key.Sized)
    (hNone : s.witness.lookup (checksumHex keccak256 key.addr) = none) :
    (∃ answer s', s.call keccak256 SetString key = some (answer, s') ∧
      Exact SetString w s key answer s') ↔ ¬ w.Present key := by
  obtain ⟨answer, hCall⟩ := @call_of_lookup_eq_none keccak256 SetString s key hNone
  have hExact : Exact SetString w s key answer (s.miss key.text) ↔ ¬ w.Present key :=
    exact_miss_iff (hLoaded.missed key hSized)
  rw [← hExact]
  constructor
  · rintro ⟨found, s', hFound, h⟩
    rw [hCall] at hFound
    cases hFound
    exact h
  · exact fun h => ⟨answer, _, hCall, h⟩

theorem call_exact_iff (hFormat : w.ExporterFormat) (hLoaded : Loaded db w s) (hSized : key.Sized) :
    (∃ answer s', s.call keccak256 SetString key = some (answer, s') ∧
      Exact SetString w s key answer s') ↔ Answers keccak256 SetString db w key := by
  have hLookup := lookup_checksumHex hFormat keccak256 key.addr
  rw [← hLoaded.witness] at hLookup
  by_cases hLower : Lowercase keccak256 key.addr
  · rw [if_pos hLower, hLoaded.witness] at hLookup
    cases hAccount : w.account key.addr with
    | none =>
      obtain ⟨hAnswers, hAbsent⟩ := answers_of_account_eq_none hAccount
      rw [miss_exact_iff hLoaded hSized (by rw [hLoaded.witness, hLookup, hAccount])]
      exact iff_of_true hAbsent hAnswers
    | some pointer =>
      cases key with
      | balance addr => exact balance_exact_iff hLoaded hLower hAccount
      | nonce addr => exact nonce_exact_iff hLoaded hLower hAccount
      | code addr => exact code_exact_iff hLoaded hLower hAccount
      | exist addr => exact exist_exact_iff hLoaded hLower hAccount
      | slot addr index => exact slot_exact_iff hLoaded hLower hAccount hSized
  · rw [if_neg hLower] at hLookup
    rw [miss_exact_iff hLoaded hSized hLookup, answers_iff_of_not_lowercase hLower]

/-- The calls after a witness is loaded are exact if every account that is asked for and
present has a checksum without uppercase letters, a nonce of 64 bits if the nonce is asked
for, and no other code left over if the code is. -/
theorem exactRun_iff (hFormat : w.ExporterFormat) {keys : List Tracked}
    (hSized : ∀ key ∈ keys, key.Sized) (db : SparseStateDB) :
    ExactRun keccak256 SetString w (db.LoadWitness (some w)) keys ↔
      ∀ key ∈ keys, Answers keccak256 SetString db w key := by
  have hRun : ∀ s, Loaded db w s → (ExactRun keccak256 SetString w s keys ↔
      ∀ key ∈ keys, Answers keccak256 SetString db w key) := by
    induction keys with
    | nil => exact fun _ _ => iff_of_true trivial nofun
    | cons key keys ih =>
      intro s hLoaded
      obtain ⟨hKey, hKeys⟩ := List.forall_mem_cons.mp hSized
      rw [List.forall_mem_cons, ← call_exact_iff hFormat hLoaded hKey]
      constructor
      · rintro ⟨answer, s', hCall, hExact, hRest⟩
        exact ⟨⟨answer, s', hCall, hExact⟩, (ih hKeys s' (hLoaded.call hKey hCall hExact)).mp hRest⟩
      · rintro ⟨⟨answer, s', hCall, hExact⟩, hRest⟩
        exact ⟨answer, s', hCall, hExact, (ih hKeys s' (hLoaded.call hKey hCall hExact)).mpr hRest⟩
  exact hRun _ (Loaded.loadWitness db w)

end Calls

section OneAccount

/-- The witness of one account that has a balance and no slots. -/
def oneAccount (addr : Address) : SparseWitness :=
  AList.singleton (zeroX (addressBytes addr)) (some ⟨"0x5", "0x0", "", "", ∅⟩)

theorem oneAccount_format {addr : Address} (h : addr < 2 ^ 160) :
    (oneAccount addr).ExporterFormat where
  accounts addrHex hMem := ⟨addr, h, List.mem_singleton.mp (AList.mem_keys.mp hMem)⟩
  slots addrHex acct hLookup slotHex hSlot := by
    have hEntry := AList.mem_lookup_iff.mp hLookup
    obtain ⟨_, hAcct⟩ := Sigma.mk.inj (List.mem_singleton.mp hEntry)
    obtain rfl := Option.some.inj (eq_of_heq hAcct)
    cases hSlot

def freshSparse : SparseStateDB := ⟨∅, ∅, ∅⟩

/-- The checksum of account 1 has no letters, so its balance is found. -/
theorem oneAccount_exact :
    ExactRun (fun _ _ => 255) (fun _ => some 5) (oneAccount 1) (freshSparse.LoadWitness (oneAccount 1))
      [.balance 1, .exist 2] := by
  have hSized : ∀ key ∈ [Tracked.balance 1, Tracked.exist 2], key.Sized := by
    intro key hKey
    rcases List.mem_pair.mp hKey with rfl | rfl
    · exact ⟨by decide, nofun⟩
    · exact ⟨by decide, nofun⟩
  refine (exactRun_iff (oneAccount_format (by norm_num)) hSized freshSparse).mpr ?_
  intro key hKey
  rcases List.mem_pair.mp hKey with rfl | rfl
  · exact fun _ => ⟨by decide +kernel, _, rfl⟩
  · exact fun _ => by decide +kernel

/-- The checksum of account 10 has its letter in uppercase, and the account is missed. -/
theorem oneAccount_missed : (oneAccount 10).ExporterFormat ∧ (oneAccount 10).Present (.exist 10) ∧
      ((freshSparse.LoadWitness (oneAccount 10)).call (fun _ _ => 255) (fun _ => some 5)
        (.exist 10)).map (fun r => (r.1, r.2.GetMissedKeys)) =
          some (.exist false, {State.acctKeyText 10 "exist"}) :=
  ⟨oneAccount_format (by norm_num), rfl, by decide +kernel⟩

end OneAccount

end Nezha.Replayd
