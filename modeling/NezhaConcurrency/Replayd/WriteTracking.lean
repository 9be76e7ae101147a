import NezhaConcurrency.Export.BlockPrestate
import NezhaConcurrency.Library.Revisions
import NezhaConcurrency.Replayd.AccountState

/-! The write keys of the tracker, over whole sequences of its operations. A setter makes a
missing account without a key for its existence, and an account that is made anew loses its
slots without a key for them. Every other change has its key. -/
namespace Nezha.Replayd

open List

open State (Tracked Value)
open Revisions (Command Store surviving)

/-! ### The operations of the tracker -/

namespace rwTracker

variable (packages : Packages) (t : rwTracker) (addr : Address)

def codeKey : String := AcctKey (packages.Hex addr) "code"

def existKey : String := AcctKey (packages.Hex addr) "exist"

/-- The key of a slot, of which the package writes all 32 bytes. -/
def slotKey (index : Nat) : String := SlotKey (packages.Hex addr) (State.hashHex index)

def SetBalance (value : Uint256) : rwTracker :=
  { t.addWrite (balanceKey packages addr) with StateDB := t.StateDB.SetBalance addr value }

def SetCode (code : List UInt8) : rwTracker :=
  { t.addWrite (codeKey packages addr) with StateDB := t.StateDB.SetCode addr code }

def SetState (index value : Nat) : rwTracker :=
  { (t.addRead (slotKey packages addr index)).addWrite (slotKey packages addr index) with
    StateDB := t.StateDB.SetState addr index value }

def CreateAccount : rwTracker :=
  { (((t.addWrite (existKey packages addr)).addWrite (balanceKey packages addr)).addWrite
      (nonceKey packages addr)).addWrite (codeKey packages addr) with
    StateDB := t.StateDB.CreateAccount addr }

def SelfDestruct : rwTracker :=
  { ((t.addWrite (existKey packages addr)).addWrite (balanceKey packages addr)).addWrite
      (codeKey packages addr) with
    StateDB := t.StateDB.SelfDestruct addr }

/-- The database has no operation of this name, so its `SelfDestruct` is called. -/
def Selfdestruct6780 : rwTracker := t.SelfDestruct packages addr

/-- An account that does not exist is a nil dereference, after the keys are recorded. -/
def CreateContract : Option rwTracker :=
  if t.StateDB.Exist addr then
    some ((t.addWrite (existKey packages addr)).addWrite (codeKey packages addr))
  else none

end rwTracker

inductive TrackerOp where
  | SetBalance (addr : Address) (value : Uint256)
  | SubBalance (addr : Address) (value : Uint256)
  | AddBalance (addr : Address) (value : Uint256)
  | SetNonce (addr : Address) (nonce : UInt64)
  | SetCode (addr : Address) (code : List UInt8)
  | SetState (addr : Address) (index value : Nat)
  | CreateAccount (addr : Address)
  | SelfDestruct (addr : Address)
  | Selfdestruct6780 (addr : Address)
  | CreateContract (addr : Address)

def TrackerOp.apply (packages : Packages) (t : rwTracker) : TrackerOp → Option rwTracker
  | .SetBalance addr value => some (t.SetBalance packages addr value)
  | .SubBalance addr value => some (t.SubBalance packages addr value)
  | .AddBalance addr value => some (t.AddBalance packages addr value)
  | .SetNonce addr nonce => some (t.SetNonce packages addr nonce)
  | .SetCode addr code => some (t.SetCode packages addr code)
  | .SetState addr index value => some (t.SetState packages addr index value)
  | .CreateAccount addr => some (t.CreateAccount packages addr)
  | .SelfDestruct addr => some (t.SelfDestruct packages addr)
  | .Selfdestruct6780 addr => some (t.Selfdestruct6780 packages addr)
  | .CreateContract addr => t.CreateContract packages addr

/-- A tracker with the revisions of its database. -/
structure TrackedRun where
  tracked : rwTracker
  validRevisions : List (Nat × StateDB)
  nextRevisionId : Nat

namespace TrackedRun

def new (initial : StateDB) : TrackedRun := ⟨rwTracker.newRWTracker initial, [], 0⟩

/-- The database with its revisions. -/
def db (r : TrackedRun) : Store StateDB := ⟨r.tracked.StateDB, r.validRevisions, r.nextRevisionId⟩

/-- Another database, with the keys that are recorded. -/
def withDB (r : TrackedRun) (db : Store StateDB) : TrackedRun :=
  ⟨r.tracked.RevertToSnapshot db.current, db.validRevisions, db.nextRevisionId⟩

/-- A panic has no result. -/
def step (packages : Packages) (r : TrackedRun) : Command TrackerOp → Option TrackedRun
  | .op op => (op.apply packages r.tracked).map fun tracked => { r with tracked }
  | .snapshot => some (r.withDB r.db.snapshot)
  | .revert revid => (r.db.revert revid).map r.withDB

def run (packages : Packages) (r : TrackedRun) (cmds : List (Command TrackerOp)) :
    Option TrackedRun :=
  cmds.foldlM (step packages) r

end TrackedRun

/-! ### What an operation changes and what it records -/

namespace TrackerOp

def addr : TrackerOp → Address
  | .SetBalance addr _ => addr
  | .SubBalance addr _ => addr
  | .AddBalance addr _ => addr
  | .SetNonce addr _ => addr
  | .SetCode addr _ => addr
  | .SetState addr _ _ => addr
  | .CreateAccount addr => addr
  | .SelfDestruct addr => addr
  | .Selfdestruct6780 addr => addr
  | .CreateContract addr => addr

/-- The keys that the operation records as written. -/
def written : TrackerOp → List Tracked
  | .SetBalance addr _ => [.balance addr]
  | .SubBalance addr _ => [.balance addr]
  | .AddBalance addr _ => [.balance addr]
  | .SetNonce addr _ => [.nonce addr]
  | .SetCode addr _ => [.code addr]
  | .SetState addr index _ => [.slot addr index]
  | .CreateAccount addr => [.exist addr, .balance addr, .nonce addr, .code addr]
  | .SelfDestruct addr => [.exist addr, .balance addr, .code addr]
  | .Selfdestruct6780 addr => [.exist addr, .balance addr, .code addr]
  | .CreateContract addr => [.exist addr, .code addr]

/-- Whether the operation makes a missing account. -/
def makes : TrackerOp → Bool
  | .SelfDestruct _ => false
  | .Selfdestruct6780 _ => false
  | .CreateContract _ => false
  | _ => true

/-- What becomes of the account. -/
def change (acct : Account) : TrackerOp → Account
  | .SetBalance _ value => { acct with Balance := value }
  | .SubBalance _ value => { acct with Balance := acct.Balance - value }
  | .AddBalance _ value => { acct with Balance := acct.Balance + value }
  | .SetNonce _ nonce => { acct with Nonce := nonce }
  | .SetCode _ code => { acct with Code := code }
  | .SetState _ index value => { acct with Storage := Function.update acct.Storage index value }
  | .CreateAccount _ => emptyAccount
  | .SelfDestruct _ => { acct with Balance := 0 }
  | .Selfdestruct6780 _ => { acct with Balance := 0 }
  | .CreateContract _ => acct

def effect (db : StateDB) (op : TrackerOp) : StateDB :=
  if op.makes = true ∨ db.Exist op.addr = true then
    Function.update db op.addr (some (op.change (db.getOrNewStateObject op.addr)))
  else db

/-- The addresses have 20 bytes and the slots 32. -/
def Sized (op : TrackerOp) : Prop := ∀ key ∈ op.written, key.Sized

end TrackerOp

section Effect

variable {packages : Packages} {op : TrackerOp} {db : StateDB} {t t' : rwTracker} {addr : Address}
  {key : Tracked}

theorem TrackerOp.addr_of_mem_written (h : key ∈ op.written) : key.addr = op.addr := by
  cases op <;> simp only [written, mem_cons, not_mem_nil, or_false] at h <;>
    rcases h with rfl | rfl | rfl | rfl <;> rfl

theorem TrackerOp.apply_stateDB (h : op.apply packages t = some t') :
    t'.StateDB = op.effect t.StateDB := by
  have hDestroyed (addr : Address) : t.StateDB.SelfDestruct addr =
      TrackerOp.effect t.StateDB (.SelfDestruct addr) := by
    cases hAcct : t.StateDB addr with
    | none => simp [effect, StateDB.SelfDestruct, StateDB.Exist, hAcct, makes, TrackerOp.addr]
    | some acct =>
      simp [effect, StateDB.SelfDestruct, StateDB.Exist, hAcct, makes, TrackerOp.addr, change,
        StateDB.getOrNewStateObject]
  cases op with
  | CreateContract addr =>
    simp only [apply, rwTracker.CreateContract] at h
    split_ifs at h with hExist
    cases h
    obtain ⟨acct, hAcct⟩ := Option.isSome_iff_exists.mp hExist
    refine (Function.update_eq_self addr t.StateDB).symm.trans ?_
    simp [effect, hExist, TrackerOp.addr, change, StateDB.getOrNewStateObject, hAcct]
  | SelfDestruct addr =>
    cases h
    exact hDestroyed addr
  | Selfdestruct6780 addr =>
    cases h
    exact hDestroyed addr
  | SetBalance | SubBalance | AddBalance | SetNonce | SetCode | SetState | CreateAccount =>
    cases h
    exact (if_pos (Or.inl rfl)).symm

theorem exist_effect : (op.effect db).Exist addr = true ↔
      db.Exist addr = true ∨ op.makes = true ∧ op.addr = addr := by
  rw [TrackerOp.effect]
  by_cases hAddr : addr = op.addr
  · subst hAddr
    split_ifs with h
    · simpa [StateDB.Exist] using h.symm
    · rw [not_or] at h
      simp [h.1, h.2]
  · split_ifs
    · simp [StateDB.Exist, Function.update_of_ne hAddr, Ne.symm hAddr]
    · simp [Ne.symm hAddr]

/-- The fields of an account that no recorded key names stay, unless the account is made anew. -/
theorem read_change {acct : Account} (hKey : key ∉ op.written) (hAddr : key.addr = op.addr)
    (hAnew : op ≠ .CreateAccount key.addr) (exist : Bool) :
    (op.change acct).read exist key = acct.read exist key := by
  cases op <;> cases key <;>
    simp_all [TrackerOp.written, TrackerOp.change, Account.read, Tracked.addr, TrackerOp.addr]

theorem value_effect (hKey : key ∉ op.written) (hExist : ∀ addr, key ≠ .exist addr)
    (hAnew : op ≠ .CreateAccount key.addr) : (op.effect db).value key = db.value key := by
  rw [TrackerOp.effect]
  split_ifs
  · by_cases hAddr : key.addr = op.addr
    · rw [StateDB.value_update_self hAddr, read_change hKey hAddr hAnew, StateDB.value, hAddr,
        StateDB.read_of_ne_exist hExist (db.Exist _)]
    · exact StateDB.value_update_of_ne hAddr
  · rfl

end Effect

/-! ### What a sequence of operations changes -/

section Operations

variable {ops : List TrackerOp} {db : StateDB} {addr : Address} {key : Tracked}

theorem exist_foldl : (ops.foldl TrackerOp.effect db).Exist addr = true ↔
      db.Exist addr = true ∨ ∃ op ∈ ops, op.makes = true ∧ op.addr = addr := by
  induction ops generalizing db with
  | nil => simp
  | cons op ops ih =>
    rw [foldl_cons, ih, exist_effect]
    simp [or_assoc]

theorem value_foldl (hKey : ∀ op ∈ ops, key ∉ op.written) (hExist : ∀ addr, key ≠ .exist addr)
    (hAnew : .CreateAccount key.addr ∉ ops) :
    (ops.foldl TrackerOp.effect db).value key = db.value key := by
  induction ops generalizing db with
  | nil => rfl
  | cons op ops ih =>
    rw [foldl_cons, ih (fun op hOp => hKey op (mem_cons_of_mem _ hOp))
      fun hOp => hAnew (mem_cons_of_mem _ hOp)]
    exact value_effect (hKey op mem_cons_self) hExist fun h => hAnew (h ▸ mem_cons_self)

theorem value_slot_foldl {index : Nat} (hKey : ∀ op ∈ ops, .slot addr index ∉ op.written)
    (hAnew : .CreateAccount addr ∈ ops) :
    (ops.foldl TrackerOp.effect db).value (.slot addr index) = .number 0 := by
  obtain ⟨before, after, rfl⟩ := append_of_mem hAnew
  -- only the last time that the account was made anew counts
  clear hAnew
  induction after using List.reverseRecOn generalizing before with
  | nil =>
    rw [foldl_append, foldl_cons, foldl_nil, TrackerOp.effect, if_pos (.inl rfl)]
    exact StateDB.value_update_self rfl
  | append_singleton after op ih =>
    have hOps : before ++ .CreateAccount addr :: (after ++ [op]) =
        (before ++ .CreateAccount addr :: after) ++ [op] := by simp
    rw [hOps] at hKey ⊢
    rw [foldl_append, foldl_cons, foldl_nil]
    by_cases hOp : op = .CreateAccount addr
    · rw [hOp, TrackerOp.effect, if_pos (.inl rfl)]
      exact StateDB.value_update_self rfl
    · refine (value_effect (hKey op (by simp)) (by simp) hOp).trans ?_
      exact ih before fun op hOp => hKey op (mem_append_left _ hOp)

end Operations

/-! ### Whole runs -/

section Run

variable {packages : Packages}
  (hHex : ∀ addr < 2 ^ 160, HexOf (packages.Hex addr) (State.addressBytes addr))

theorem TrackerOp.Sized.addr {op : TrackerOp} (h : op.Sized) : op.addr < 2 ^ 160 := by
  obtain ⟨key, hKey⟩ : ∃ key, key ∈ op.written := by
    cases op <;> exact ⟨_, mem_cons_self⟩
  rw [← addr_of_mem_written hKey]
  exact (h key hKey).addr

section Texts

variable {addr : Address} (hAddr : addr < 2 ^ 160)

include hHex hAddr

theorem acctKey_text (field : String) :
    Nezha.AcctKey (packages.Hex addr) field = State.acctKeyText addr field :=
  (acctKey_eq_exporter _ _).symm.trans (acctKey_eq (hHex addr hAddr) field)

theorem balanceKey_eq : rwTracker.balanceKey packages addr = (Tracked.balance addr).text :=
  acctKey_text hHex hAddr "balance"

theorem nonceKey_eq : rwTracker.nonceKey packages addr = (Tracked.nonce addr).text :=
  acctKey_text hHex hAddr "nonce"

theorem codeKey_eq : rwTracker.codeKey packages addr = (State.Tracked.code addr).text :=
  acctKey_text hHex hAddr "code"

theorem existKey_eq : rwTracker.existKey packages addr = (Tracked.exist addr).text :=
  acctKey_text hHex hAddr "exist"

theorem slotKey_text (index : Nat) :
    rwTracker.slotKey packages addr index = (Tracked.slot addr index).text :=
  slotKey_eq (hHex addr hAddr) (.inl (State.toLower_zeroX _))

end Texts

include hHex in
theorem TrackerOp.apply_writes {op : TrackerOp} (hOp : op.Sized) {t t' : rwTracker}
    (h : op.apply packages t = some t') :
    t'.writes = t.writes ++ op.written.map Tracked.text := by
  cases op with
  | SetBalance addr value | SubBalance addr value | AddBalance addr value =>
    cases h
    exact congrArg (fun text => t.writes ++ [text]) (balanceKey_eq hHex hOp.addr)
  | SetNonce addr nonce =>
    cases h
    exact congrArg (fun text => t.writes ++ [text]) (nonceKey_eq hHex hOp.addr)
  | SetCode addr code =>
    cases h
    exact congrArg (fun text => t.writes ++ [text]) (codeKey_eq hHex hOp.addr)
  | SetState addr index value =>
    cases h
    exact congrArg (fun text => t.writes ++ [text]) (slotKey_text hHex hOp.addr index)
  | CreateAccount addr =>
    have hAddr : addr < 2 ^ 160 := hOp.addr
    cases h
    simp [rwTracker.CreateAccount, rwTracker.addWrite, written, existKey_eq hHex hAddr,
      balanceKey_eq hHex hAddr, nonceKey_eq hHex hAddr, codeKey_eq hHex hAddr]
  | SelfDestruct addr | Selfdestruct6780 addr =>
    have hAddr : addr < 2 ^ 160 := hOp.addr
    cases h
    simp [rwTracker.Selfdestruct6780, rwTracker.SelfDestruct, rwTracker.addWrite, written,
      existKey_eq hHex hAddr, balanceKey_eq hHex hAddr, codeKey_eq hHex hAddr]
  | CreateContract addr =>
    have hAddr : addr < 2 ^ 160 := hOp.addr
    simp only [apply, rwTracker.CreateContract] at h
    split_ifs at h
    cases h
    simp [rwTracker.addWrite, written, existKey_eq hHex hAddr, codeKey_eq hHex hAddr]

variable {r : TrackedRun}

theorem TrackedRun.step_db {r' : TrackedRun} {cmd : Command TrackerOp}
    (h : r.step packages cmd = some r') :
    Revisions.step (fun db op => some (TrackerOp.effect db op)) r.db cmd = some r'.db := by
  cases cmd with
  | op op =>
    obtain ⟨tracked, hApply, rfl⟩ := Option.map_eq_some_iff.mp h
    exact congrArg (fun db => some (Store.mk db r.validRevisions r.nextRevisionId))
      (TrackerOp.apply_stateDB hApply).symm
  | snapshot =>
    cases h
    rfl
  | revert revid =>
    obtain ⟨db, hRevert, rfl⟩ := Option.map_eq_some_iff.mp h
    exact hRevert

theorem TrackedRun.run_cons (r : TrackedRun) (cmd : Command TrackerOp)
    (cmds : List (Command TrackerOp)) :
    r.run packages (cmd :: cmds) = (r.step packages cmd).bind fun r => r.run packages cmds :=
  foldlM_cons

theorem TrackedRun.run_db {r' : TrackedRun} {cmds : List (Command TrackerOp)}
    (h : r.run packages cmds = some r') :
    Revisions.run (fun db op => some (TrackerOp.effect db op)) r.db cmds = some r'.db := by
  induction cmds generalizing r with
  | nil =>
    cases h
    rfl
  | cons cmd cmds ih =>
    rw [run_cons] at h
    obtain ⟨middle, hStep, hRest⟩ := Option.bind_eq_some_iff.mp h
    rw [Revisions.run_cons, step_db hStep, Option.bind_some]
    exact ih hRest

theorem TrackedRun.run_stateDB {initial : StateDB} {cmds : List (Command TrackerOp)}
    (h : (new initial).run packages cmds = some r) :
    r.tracked.StateDB = (surviving cmds).foldl TrackerOp.effect initial :=
  Revisions.run_current (fun _ _ _ h => (Option.some.inj h).symm) (run_db h)

include hHex in
/-- Every key that an operation records stays recorded, also when it is undone. -/
theorem TrackedRun.mem_writes {r' : TrackedRun} {cmds : List (Command TrackerOp)}
    (hSized : ∀ op, .op op ∈ cmds → op.Sized) (h : r.run packages cmds = some r') (text : String) :
    text ∈ r'.tracked.writes ↔
      text ∈ r.tracked.writes ∨ ∃ op, .op op ∈ cmds ∧ ∃ key ∈ op.written, key.text = text := by
  induction cmds generalizing r with
  | nil =>
    cases h
    simp
  | cons cmd cmds ih =>
    rw [run_cons] at h
    obtain ⟨middle, hStep, hRest⟩ := Option.bind_eq_some_iff.mp h
    rw [ih (fun op hOp => hSized op (mem_cons_of_mem _ hOp)) hRest]
    cases cmd with
    | op op =>
      obtain ⟨tracked, hApply, rfl⟩ := Option.map_eq_some_iff.mp hStep
      have hWrites := op.apply_writes hHex (hSized op mem_cons_self) hApply
      simp only [hWrites, mem_append, mem_map, mem_cons, Command.op.injEq,
        or_and_right, exists_or, exists_eq_left, or_assoc]
    | snapshot =>
      cases hStep
      simp [withDB, rwTracker.RevertToSnapshot]
    | revert revid =>
      obtain ⟨db, hRevert, rfl⟩ := Option.map_eq_some_iff.mp hStep
      simp [withDB, rwTracker.RevertToSnapshot]

end Run

/-! ### Completeness -/

/-- Every key whose value changed is among the write keys. -/
def WritesComplete (initial : StateDB) (t : rwTracker) : Prop :=
  ∀ key : Tracked, key.Sized → initial.value key ≠ t.StateDB.value key →
    key.text ∈ t.SortedWriteKeys

/-- An account that comes into being is recorded as existing by some operation, and the slots
that an account loses when it is made anew are set at some time. -/
structure ChangesRecorded (initial : StateDB) (cmds : List (Command TrackerOp)) : Prop where
  made : ∀ op ∈ surviving cmds, op.makes = true → initial op.addr = none →
    ∃ other, .op other ∈ cmds ∧ .exist op.addr ∈ other.written
  lost : ∀ addr index, .CreateAccount addr ∈ surviving cmds → index < 2 ^ 256 →
    initial.GetState addr index ≠ 0 → ∃ value, .op (.SetState addr index value) ∈ cmds

theorem TrackerOp.eq_setState {op : TrackerOp} {addr : Address} {index : Nat}
    (h : .slot addr index ∈ op.written) : ∃ value, op = .SetState addr index value := by
  cases op with
  | SetState other slot value =>
    obtain ⟨rfl, rfl⟩ := Tracked.slot.inj (mem_singleton.mp h)
    exact ⟨value, rfl⟩
  | SetBalance | SubBalance | AddBalance | SetNonce | SetCode | CreateAccount | SelfDestruct
  | Selfdestruct6780 | CreateContract => simp [written] at h

section Completeness

variable {packages : Packages} {initial : StateDB} {cmds : List (Command TrackerOp)}
  {final : TrackedRun}
  (hHex : ∀ addr < 2 ^ 160, HexOf (packages.Hex addr) (State.addressBytes addr))
  (hSized : ∀ op, .op op ∈ cmds → op.Sized)
  (hRun : (TrackedRun.new initial).run packages cmds = some final)

include hHex hSized hRun

theorem text_mem_sortedWriteKeys {key : Tracked} (hKey : key.Sized) :
    key.text ∈ final.tracked.SortedWriteKeys ↔ ∃ op, .op op ∈ cmds ∧ key ∈ op.written := by
  rw [rwTracker.SortedWriteKeys, mem_sortedKeys, TrackedRun.mem_writes hHex hSized hRun]
  constructor
  · rintro (hStart | ⟨op, hOp, other, hOther, hText⟩)
    · exact absurd hStart not_mem_nil
    · refine ⟨op, hOp, ?_⟩
      rwa [← Tracked.text_inj (hSized op hOp other hOther) hKey hText]
  · rintro ⟨op, hOp, hWritten⟩
    exact .inr ⟨op, hOp, key, hWritten, rfl⟩

theorem WritesComplete.made (hComplete : WritesComplete initial final.tracked) {op : TrackerOp}
    (hOp : op ∈ surviving cmds) (hMakes : op.makes = true) (hNone : initial op.addr = none) :
    ∃ other, .op other ∈ cmds ∧ .exist op.addr ∈ other.written := by
  have hKey : (Tracked.exist op.addr).Sized :=
    ⟨(hSized op (Revisions.mem_of_mem_surviving hOp)).addr, by simp⟩
  have hExist : final.tracked.StateDB.Exist op.addr = true := by
    rw [TrackedRun.run_stateDB hRun]
    exact exist_foldl.mpr (.inr ⟨op, hOp, hMakes, rfl⟩)
  refine (text_mem_sortedWriteKeys hHex hSized hRun hKey).mp (hComplete _ hKey ?_)
  have hBefore : initial.Exist op.addr = false := by rw [StateDB.Exist, hNone]; rfl
  simp [StateDB.value, Account.read, Tracked.addr, hExist, hBefore]

theorem WritesComplete.lost (hComplete : WritesComplete initial final.tracked) {addr : Address}
    {index : Nat} (hAnew : .CreateAccount addr ∈ surviving cmds) (hIndex : index < 2 ^ 256)
    (hSlot : initial.GetState addr index ≠ 0) :
    ∃ value, .op (.SetState addr index value) ∈ cmds := by
  have hAddr : addr < 2 ^ 160 := (hSized _ (Revisions.mem_of_mem_surviving hAnew)).addr
  have hKey : (Tracked.slot addr index).Sized :=
    ⟨hAddr, fun _ _ h => (Tracked.slot.inj h).2 ▸ hIndex⟩
  by_contra hNever
  have hUnset (op : TrackerOp) (hOp : .op op ∈ cmds) : .slot addr index ∉ op.written := by
    intro hWritten
    obtain ⟨value, rfl⟩ := op.eq_setState hWritten
    exact hNever ⟨value, hOp⟩
  have hZero : final.tracked.StateDB.value (.slot addr index) = .number 0 := by
    rw [TrackedRun.run_stateDB hRun]
    exact value_slot_foldl (fun op hOp => hUnset op (Revisions.mem_of_mem_surviving hOp)) hAnew
  have hDiffers : initial.value (.slot addr index) ≠
      final.tracked.StateDB.value (.slot addr index) := by
    rw [hZero]
    simpa [StateDB.value, Account.read, StateDB.GetState, Tracked.addr] using hSlot
  obtain ⟨op, hOp, hWritten⟩ :=
    (text_mem_sortedWriteKeys hHex hSized hRun hKey).mp (hComplete _ hKey hDiffers)
  exact hUnset op hOp hWritten

omit hHex hSized in
/-- A key that no operation records keeps its value. -/
theorem ChangesRecorded.value_eq (h : ChangesRecorded initial cmds) {key : Tracked}
    (hKey : key.Sized) (hNever : ∀ op, .op op ∈ cmds → key ∉ op.written) :
    initial.value key = final.tracked.StateDB.value key := by
  have hUnset (op : TrackerOp) (hOp : op ∈ surviving cmds) : key ∉ op.written :=
    hNever op (Revisions.mem_of_mem_surviving hOp)
  rw [TrackedRun.run_stateDB hRun]
  cases key with
  | exist addr =>
    have hExist : initial.Exist addr = ((surviving cmds).foldl TrackerOp.effect initial).Exist
        addr := by
      rw [Bool.eq_iff_iff, exist_foldl]
      refine ⟨.inl, fun hEnd => ?_⟩
      by_contra hBefore
      obtain ⟨op, hOp, hMakes, rfl⟩ := hEnd.resolve_left hBefore
      have hNone : initial op.addr = none := by simpa [StateDB.Exist] using hBefore
      obtain ⟨other, hOther, hWritten⟩ := h.made op hOp hMakes hNone
      exact hNever other hOther hWritten
    simp [StateDB.value, Account.read, Tracked.addr, hExist]
  | slot addr index =>
    by_cases hAnew : .CreateAccount addr ∈ surviving cmds
    · rw [value_slot_foldl hUnset hAnew]
      by_contra hSlot
      have hNonzero : initial.GetState addr index ≠ 0 := by
        simpa [StateDB.value, Account.read, StateDB.GetState, Tracked.addr] using hSlot
      obtain ⟨value, hSet⟩ := h.lost addr index hAnew (hKey.slot addr index rfl) hNonzero
      exact hNever _ hSet mem_cons_self
    · exact (value_foldl hUnset (by simp) hAnew).symm
  | balance addr | nonce addr | code addr =>
    refine (value_foldl hUnset (by simp) fun hAnew => ?_).symm
    exact hUnset _ hAnew (by simp [TrackerOp.written, Tracked.addr])

end Completeness

/-- The texts of addresses as the package writes them, and no others. -/
def addressTexts (keccak256 : List UInt8 → Fin 32 → UInt8) : Packages where
  HexToAddress := State.HexToAddress
  Hex := State.checksumHex keccak256
  SetFromHex _ := none
  FromHex _ := []

theorem addressTexts_hex (keccak256 : List UInt8 → Fin 32 → UInt8) (addr : Address) :
    HexOf ((addressTexts keccak256).Hex addr) (State.addressBytes addr) :=
  .inl (State.toLower_checksumHex keccak256 addr)

/-- A contract is made and paid, and a slot that was set is reverted. -/
def deployment : List (Command TrackerOp) :=
  [.op (.CreateAccount 1), .op (.AddBalance 1 5), .snapshot, .op (.SetState 1 0 7), .revert 0]

theorem deployment_sized (op : TrackerOp) (h : .op op ∈ deployment) : op.Sized := by
  intro key hKey
  simp only [deployment, mem_cons, Command.op.injEq, reduceCtorEq, not_mem_nil,
    or_false, false_or] at h
  rcases h with rfl | rfl | rfl <;>
    simp only [TrackerOp.written, mem_cons, not_mem_nil, or_false] at hKey
  · rcases hKey with rfl | rfl | rfl | rfl <;> exact ⟨by decide, by simp⟩
  · subst hKey
    exact ⟨by decide, by simp⟩
  · subst hKey
    refine ⟨by decide, fun addr index h => ?_⟩
    rw [← (Tracked.slot.inj h).2]
    decide

/-- A payment to an account that does not exist. -/
def payment : List (Command TrackerOp) := [.op (.AddBalance 1 5)]

end Nezha.Replayd
