import NezhaConcurrency.Contract.ConservativeSet

/-! The sender that a callee sees. In a cross call the sender is the calling contract, while
the tags of every analysis are resolved with the arguments of the transaction, whose
sender is the account that signed it. -/
namespace Nezha

open CallTree

variable (m : MainnetContractManager) (crypto : Crypto) (args : MainnetTxArgs)

/-- A cross call from `f` to `g`, and an access of `g` to the entry of its sender in a
mapping. -/
structure SenderAccess (address selector : String) (f g : AnalyzedFunction) (write : Bool)
    (acc : LLMFieldAccess) (item : StorageItem) : Prop where
  reachable : Reachable m address selector f
  calls : CallsTo m f g
  access : acc ∈ g.accesses write
  sender : acc.Account = "msg.sender"
  layout : m.layoutItem g.Address acc.Field = some item
  mapping : item.KeyType = .mapping
  notNested : item.IsNested = false

/-- The sets that are returned have the entry of the calling contract. -/
def InCalleeFrame (address selector : String) : Prop :=
  ∀ sets, m.GetConservativeRWSet crypto args address selector = .value sets →
    ∀ f g write acc item, SenderAccess m address selector f g write acc item →
      mappingSlotKey crypto g.Address f.Address item.Slot ∈ sets.keys write

/-- The entry of the calling contract is the one of the sender of the transaction, or some
other access has it as its key. -/
def SenderCovered (address selector : String) (f g : AnalyzedFunction) (write : Bool)
    (acc : LLMFieldAccess) (item : StorageItem) : Prop :=
  mappingSlotKey crypto g.Address f.Address item.Slot =
      mappingSlotKey crypto g.Address args.MsgSender item.Slot ∨
    ∃ h other, Reachable m address selector h ∧ other ∈ h.accesses write ∧
      (h.Address, other) ≠ (g.Address, acc) ∧
        KeyOf m crypto args h.Address write other (mappingSlotKey crypto g.Address f.Address item.Slot)

variable {m crypto args} {address selector : String} {f g : AnalyzedFunction} {write : Bool}
  {acc : LLMFieldAccess} {item : StorageItem}

theorem SenderAccess.callee (h : SenderAccess m address selector f g write acc item) :
    Reachable m address selector g := by
  obtain ⟨resp, hLoad, hReach⟩ := h.reachable
  exact ⟨resp, hLoad, hReach.tail h.calls⟩

theorem SenderAccess.keyOf_iff (h : SenderAccess m address selector f g write acc item)
    {key : String} : KeyOf m crypto args g.Address write acc key ↔
      args.MsgSender ≠ "" ∧ key = mappingSlotKey crypto g.Address args.MsgSender item.Slot := by
  have hResolve : resolveAccountAddr acc.Account args =
      if args.MsgSender ≠ "" then some args.MsgSender else none := by
    simp [resolveAccountAddr, h.sender]
  rw [Nezha.keyOf_iff h.layout, hResolve]
  have hNeeds : ¬ NeedsDeriver item acc := by simp [NeedsDeriver, h.sender, h.notNested]
  by_cases hSender : args.MsgSender = ""
  · simp [h.mapping, h.notNested, hNeeds, hSender]
  · simp [h.mapping, h.notNested, hNeeds, hSender]

variable (m crypto args address selector)

/-- A call that resolves has the calling contract's entries exactly where the entry comes in
by another way. -/
theorem inCalleeFrame_iff : InCalleeFrame m crypto args address selector ↔
    ∀ resp, m.loadLLMResponse address selector = some resp →
      MainnetContractManager.Rejected resp = false → Resolved m crypto args 5 ⟨address, resp⟩ →
        ∀ f g write acc item, SenderAccess m address selector f g write acc item →
          SenderCovered m crypto args address selector f g write acc item := by
  constructor
  · intro h resp hLoad hAccepted hResolved f g write acc item hAccess
    obtain ⟨all, hVisit⟩ := Graph.visit_of_complete (resolved_iff.mp hResolved)
    have hSets := getConservativeRWSet_eq_value.mpr ⟨resp, all, hLoad, hAccepted, hVisit, rfl⟩
    obtain ⟨_, _, _, hExact⟩ := resolved_of_value hSets
    obtain ⟨h', other, hReach, hOther, hKey⟩ :=
      ((hExact write).2 _).mp (h _ hSets f g write acc item hAccess)
    by_cases hSame : (h'.Address, other) = (g.Address, acc)
    · obtain ⟨hAddress, rfl⟩ := Prod.mk.inj hSame
      rw [hAddress] at hKey
      exact Or.inl (hAccess.keyOf_iff.mp hKey).2
    · exact Or.inr ⟨h', other, hReach, hOther, hSame, hKey⟩
  · intro h sets hSets f g write acc item hAccess
    obtain ⟨resp, all, hLoad, hAccepted, hVisit, _⟩ := getConservativeRWSet_eq_value.mp hSets
    obtain ⟨_, hLoad', hResolved, hExact⟩ := resolved_of_value hSets
    cases hLoad.symm.trans hLoad'
    refine ((hExact write).2 _).mpr ?_
    rcases h resp hLoad hAccepted hResolved f g write acc item hAccess with
      hEq | ⟨h', other, hReach, hOther, _, hKey⟩
    · -- the access itself has a key, so the transaction has a sender
      obtain ⟨resp', hLoad'', hReach⟩ := hAccess.callee
      cases hLoad.symm.trans hLoad''
      obtain ⟨key, hKey⟩ := hResolved.keyed g hReach write acc hAccess.access
      refine ⟨g, acc, hAccess.callee, hAccess.access, ?_⟩
      exact hAccess.keyOf_iff.mpr ⟨(hAccess.keyOf_iff.mp hKey).1, hEq⟩
    · exact ⟨h', other, hReach, hOther, hKey⟩

/-- A vault that calls a function of a token, which reads the balance of its sender. -/
def vaultManager : MainnetContractManager :=
  .ofLayout "0x00000000000000000000000000000000000000d0" [⟨"balances", 0, .mapping, false⟩]
    (by decide) (AList.insert "0x00000000000000000000000000000000000000c0:0x01020304"
      ⟨[], [], [⟨"0x00000000000000000000000000000000000000d0", "0x0a0b0c0d"⟩]⟩
      (AList.insert "0x00000000000000000000000000000000000000d0:0x0a0b0c0d"
        ⟨[⟨"msg.sender", "balances"⟩], [], []⟩ ∅))

def vaultArgs : MainnetTxArgs where
  Addr1 := ""
  Addr2 := ""
  MsgSender := "0x00000000000000000000000000000000000000aa"
  Selector := "0x01020304"
  RawCalldata := ⟨[], [], by decide⟩

/-- A hash that keeps the first word. -/
def firstWord : Crypto := ⟨fun data i => data.getD i 0, fun _ _ => none⟩

theorem vault_entry_missing : ¬ InCalleeFrame vaultManager firstWord vaultArgs
    "0x00000000000000000000000000000000000000c0" "0x01020304" := by
  intro h
  have hSets : vaultManager.GetConservativeRWSet firstWord vaultArgs
      "0x00000000000000000000000000000000000000c0" "0x01020304" = .value
        ⟨["slot:0x00000000000000000000000000000000000000d0:" ++
          "0x00000000000000000000000000000000000000000000000000000000000000aa"], []⟩ := by
    decide +kernel
  have hMem := h _ hSets ⟨"0x00000000000000000000000000000000000000c0",
      [], [], [⟨"0x00000000000000000000000000000000000000d0", "0x0a0b0c0d"⟩]⟩
    ⟨"0x00000000000000000000000000000000000000d0", [⟨"msg.sender", "balances"⟩], [], []⟩
    false ⟨"msg.sender", "balances"⟩ ⟨"balances", 0, .mapping, false⟩
    { reachable := ⟨_, rfl, .refl⟩
      calls := ⟨_, List.mem_singleton.mpr rfl, rfl⟩
      access := List.mem_singleton.mpr rfl
      sender := rfl
      layout := rfl
      mapping := rfl
      notNested := rfl }
  revert hMem
  decide +kernel

end Nezha
