import NezhaConcurrency.Driver.ReplayDepurge
import NezhaConcurrency.State.SharedFlush
import NezhaConcurrency.State.StateOverride

/-! The overlay that a worker of the replay applies to its witness is only that part of the
committed values that its conservative keys allow. A transaction that stays within these keys
runs as it would on all of the committed values, except that it may find an account absent
which an entry that was left out would have made. -/
namespace Nezha.State

open List

/-- The entries of a map in an order in which it may be ranged over. -/
def RangesOver (overlay : String → Option String) (entries : List (String × String)) : Prop :=
  entries.Nodup ∧ ∀ key valHex, (key, valHex) ∈ entries ↔ overlay key = some valHex

/-- What a key that is allowed names has no other text in the overlay. -/
def OneText (overlay : String → Option String) (allowed : List String) : Prop :=
  ∀ key, overlay key ≠ none → ∀ other ∈ allowed, ∀ tracked, trackedKey key = some tracked →
    trackedKey other = some tracked → key = other

/-- The overlay has an entry that is set on the account. -/
def SetsAccount (SetString : String → Option Int) (overlay : String → Option String)
    (addr : Address) : Prop :=
  ∃ key valHex write, overlay key = some valHex ∧
    entryWrite SetString (key, valHex) = some write ∧ write.addr = addr

def accessKey : TxAccess → Tracked
  | .read key _ => key
  | .write write => write.key

def Within (allowed : List String) (access : TxAccess) : Prop :=
  ∃ key ∈ allowed, trackedKey key = some (accessKey access)

instance (allowed : List String) (access : TxAccess) : Decidable (Within allowed access) :=
  inferInstanceAs (Decidable (∃ key ∈ allowed, trackedKey key = some (accessKey access)))

section Filtered

variable {SetString : String → Option Int} {overlay : String → Option String}
  {allowed : List String} {state full : Address → Option View}

/-- The state with all of the overlay agrees with the one with a part of it on the keys that
are allowed, and it has no account that the overlay does not make. -/
structure Agree (SetString : String → Option Int) (overlay : String → Option String)
    (allowed : List String) (state full : Address → Option View) : Prop where
  kept : ∀ addr, (state addr).isSome → (full addr).isSome
  made : ∀ addr, (full addr).isSome → (state addr).isSome ∨ SetsAccount SetString overlay addr
  values : ∀ key ∈ allowed, ∀ tracked, trackedKey key = some tracked →
    (∀ addr, tracked ≠ .exist addr) → valueAt full tracked = valueAt state tracked

theorem Agree.write (h : Agree SetString overlay allowed state full) (write : Write) :
    Agree SetString overlay allowed (written state write) (written full write) where
  kept addr hSome := by
    rw [isSome_written] at hSome ⊢
    exact hSome.imp_left (h.kept addr)
  made addr hSome := by
    rw [isSome_written] at hSome ⊢
    rcases hSome with hSome | hAddr
    · exact (h.made addr hSome).imp_left .inl
    · exact .inl (.inr hAddr)
  values key hKey tracked hTracked hNotExist := by
    rw [valueAt_written _ _ hNotExist, valueAt_written _ _ hNotExist,
      h.values key hKey tracked hTracked hNotExist]

/-- An account is found absent with all of the overlay if it is with a part of it, unless
the overlay makes it. -/
theorem Agree.read (h : Agree SetString overlay allowed state full) {key : Tracked}
    (hWithin : ∃ text ∈ allowed, trackedKey text = some key)
    (hAbsent : ∀ addr, key = .exist addr → valueAt state key = .flag false →
      ¬ SetsAccount SetString overlay addr) :
    valueAt full key = valueAt state key := by
  obtain ⟨text, hText, hTracked⟩ := hWithin
  by_cases hExist : ∃ addr, key = .exist addr
  · obtain ⟨addr, rfl⟩ := hExist
    have hNot := hAbsent addr rfl
    cases hState : (state addr).isSome with
    | true => simp [valueAt, hState, h.kept addr hState]
    | false =>
      have hUnset := hNot (by simp [valueAt, hState])
      have hFull : ¬ (full addr).isSome = true := by
        intro hFull
        rcases h.made addr hFull with hSome | hSets
        · simp [hState] at hSome
        · exact hUnset hSets
      simp [valueAt, hState, hFull]
  · exact h.values text hText key hTracked fun addr hKey => hExist ⟨addr, hKey⟩

variable {entries kept : List (String × String)}

theorem RangesOver.mem_of_filtered (hRange : RangesOver overlay entries)
    (hKept : RangesOver (filterOverlayByKeys overlay allowed) kept) {entry : String × String}
    (h : entry ∈ kept) : entry ∈ entries := by
  have hFound := (hKept.2 entry.1 entry.2).mp h
  rw [filterOverlayByKeys, Option.ite_none_right_eq_some] at hFound
  exact (hRange.2 entry.1 entry.2).mpr hFound.2

/-- The two overlays leave states that agree, in whichever orders they are applied. -/
theorem Agree.start (hRange : RangesOver overlay entries)
    (hKept : RangesOver (filterOverlayByKeys overlay allowed) kept)
    (hText : OneText overlay allowed) (state : Address → Option View) :
    Agree SetString overlay allowed ((kept.filterMap (entryWrite SetString)).foldl written state)
      ((entries.filterMap (entryWrite SetString)).foldl written state) where
  kept addr hSome := by
    rw [isSome_foldl] at hSome ⊢
    refine hSome.imp_right ?_
    rintro ⟨write, hWrite, hAddr⟩
    obtain ⟨entry, hEntry, hSet⟩ := mem_filterMap.mp hWrite
    exact ⟨write, mem_filterMap.mpr ⟨entry, hRange.mem_of_filtered hKept hEntry, hSet⟩, hAddr⟩
  made addr hSome := by
    rw [isSome_foldl] at hSome ⊢
    rcases hSome with hSome | ⟨write, hWrite, hAddr⟩
    · exact .inl (.inl hSome)
    · obtain ⟨entry, hEntry, hSet⟩ := mem_filterMap.mp hWrite
      exact .inr ⟨entry.1, entry.2, write, (hRange.2 _ _).mp hEntry, hSet, hAddr⟩
  values key hKey tracked hTracked hNotExist := by
    -- an entry that sets the key has its text, so that there is one at most and it is kept
    have hEntry : ∀ write ∈ entries.filterMap (entryWrite SetString), write.key = tracked →
        ∃ valHex, overlay key = some valHex ∧ entryWrite SetString (key, valHex) = some write := by
      intro write hWrite hSame
      obtain ⟨⟨text, valHex⟩, hEntry, hSet⟩ := mem_filterMap.mp hWrite
      have hFound := (hRange.2 text valHex).mp hEntry
      obtain rfl : text = key := by
        refine hText text ?_ key hKey tracked ?_ hTracked
        · rw [hFound]
          exact Option.some_ne_none _
        · rw [← hSame]
          exact entryWrite_key hSet
      exact ⟨valHex, hFound, hSet⟩
    refine valueAt_foldl_congr hNotExist (fun write hTo => ⟨fun hWrite => ?_, fun hWrite => ?_⟩) ?_
    · obtain ⟨valHex, hFound, hSet⟩ := hEntry write hWrite hTo
      refine mem_filterMap.mpr ⟨(key, valHex), (hKept.2 key valHex).mpr ?_, hSet⟩
      rw [filterOverlayByKeys, if_pos hKey, hFound]
    · obtain ⟨entry, hMem, hSet⟩ := mem_filterMap.mp hWrite
      exact mem_filterMap.mpr ⟨entry, hRange.mem_of_filtered hKept hMem, hSet⟩
    · intro write hWrite hTo other hOther hTo'
      obtain ⟨valHex, hFound, hSet⟩ := hEntry write hWrite hTo
      obtain ⟨valHex', hFound', hSet'⟩ := hEntry other hOther hTo'
      obtain rfl : valHex = valHex' := Option.some.inj (hFound.symm.trans hFound')
      exact Option.some.inj (hSet.symm.trans hSet')

variable {Root CodeHash : Type} [DecidableEq CodeHash] {hashing : Hashing Root CodeHash}
  {shared : Shared Root CodeHash}

/-- States that agree answer alike, within the keys that are allowed. -/
theorem lockstep_agree (hEmpty : shared.nodes (hashing.rootOf fun _ => 0) = some fun _ => 0) :
    AccessProgram.Lockstep (levm hashing shared) (levm hashing shared)
      (fun access => Within allowed access ∧ ∀ addr, access = .read (.exist addr) (.flag false) →
        ¬ SetsAccount SetString overlay addr)
      (fun s s' => ∃ state full, Represents hashing shared state s ∧
        Represents hashing shared full s' ∧ Agree SetString overlay allowed state full) where
  read := by
    rintro s s' ⟨state, full, hState, hFull, hAgree⟩ key ⟨hWithin, hAbsent⟩
    obtain ⟨hValue, hNext⟩ := hState.readTracked key
    obtain ⟨hValue', hNext'⟩ := hFull.readTracked key
    refine ⟨?_, state, full, hNext, hNext', hAgree⟩
    refine hValue'.trans ((hAgree.read hWithin fun addr hKey hFlag => ?_).trans hValue.symm)
    obtain rfl := hKey
    have hRead := hValue.trans hFlag
    exact hAbsent addr (congrArg (AccessProgram.Access.read (Tracked.exist addr)) hRead)
  write := by
    rintro s s' ⟨state, full, hState, hFull, hAgree⟩ update _
    exact ⟨_, _, hState.writeTracked hEmpty update, hFull.writeTracked hEmpty update,
      hAgree.write update⟩

/-- A transaction that stays within its conservative keys makes the same accesses, reads the
same values and writes the same values on all of the overlay, unless it finds an account
absent that the overlay sets something of. -/
theorem filtered_overlay_same_run
    (hEmpty : shared.nodes (hashing.rootOf fun _ => 0) = some fun _ => 0)
    {witness : StateDB Root CodeHash} (hWitness : Represents hashing shared state witness)
    (hText : OneText overlay allowed) (hRange : RangesOver overlay entries)
    (hKept : RangesOver (filterOverlayByKeys overlay allowed) kept)
    (program : TxProgram)
    (hWithin : ∀ access ∈ program.run (levm hashing shared)
      (applyStateOverride hashing shared SetString witness kept), Within allowed access)
    (hAbsent : ∀ addr, .read (.exist addr) (.flag false) ∈ program.run (levm hashing shared)
      (applyStateOverride hashing shared SetString witness kept) →
        ¬ SetsAccount SetString overlay addr) :
    program.run (levm hashing shared)
        (applyStateOverride hashing shared SetString witness entries) =
      program.run (levm hashing shared)
        (applyStateOverride hashing shared SetString witness kept) := by
  apply (lockstep_agree hEmpty).run_eq program
  · exact ⟨_, _, hWitness.applyStateOverride SetString hEmpty kept,
      hWitness.applyStateOverride SetString hEmpty entries, .start hRange hKept hText state⟩
  · intro access hAccess
    refine ⟨hWithin access hAccess, ?_⟩
    rintro addr rfl
    exact hAbsent addr hAccess

end Filtered

/-! ### Small overlays -/

section Small

theorem rangesOver_lookup {entries : List (String × String)}
    (hNodup : (entries.map Prod.fst).Nodup) : RangesOver (entries.lookup ·) entries := by
  refine ⟨hNodup.of_map, fun key valHex => ?_⟩
  induction entries with
  | nil => simp
  | cons entry entries ih =>
    obtain ⟨text, found⟩ := entry
    obtain ⟨hNew, hRest⟩ := nodup_cons.mp hNodup
    by_cases hKey : key = text
    · have hOther : (key, valHex) ∉ entries := fun hMem =>
        hNew (mem_map.mpr ⟨(key, valHex), hMem, hKey⟩)
      subst hKey
      simp [hOther, eq_comm]
    · simp [lookup_cons, ih hRest, hKey, beq_eq_false_iff_ne.mpr hKey]

theorem RangesOver.filtered {overlay : String → Option String} {entries : List (String × String)}
    (h : RangesOver overlay entries) (allowed : List String) :
    RangesOver (filterOverlayByKeys overlay allowed)
      (entries.filter fun entry => entry.1 ∈ allowed) := by
  refine ⟨h.1.filter _, fun key valHex => ?_⟩
  rw [mem_filter, h.2, filterOverlayByKeys, Option.ite_none_right_eq_some, and_comm,
    decide_eq_true_eq]

/-- A run on a witness without accounts. -/
def runOver (program : TxProgram) (entries : List (String × String)) : List TxAccess :=
  program.run (levm transparent emptyShared)
    (applyStateOverride transparent emptyShared hexNumber .NewWithTrie entries)

theorem emptyShared_represents :
    Represents transparent emptyShared (fun _ => none) StateDB.NewWithTrie := by
  refine ⟨fun addr _ => ?_, nofun⟩
  simp [StateDB.object, StateDB.NewWithTrie, emptyShared]

def twoSlotEntries : List (String × String) :=
  [("slot:0x02:0x0b", "0x7"), ("slot:0x01:0x0a", "0x5")]

/-- A slot is raised from the committed value, and another one is read where it has some
other value. -/
def raiseSlot : TxProgram :=
  .read (.slot 1 10) fun value =>
    if value = .number 5 then .write (.slot 1 10 6) .done else .read (.slot 2 11) fun _ => .done

theorem raiseSlot_same_run :
    runOver raiseSlot twoSlotEntries = [.read (.slot 1 10) (.number 5), .write (.slot 1 10 6)] := by
  have hRange : RangesOver (twoSlotEntries.lookup ·) twoSlotEntries :=
    rangesOver_lookup (by simp [twoSlotEntries])
  have hRun : runOver raiseSlot (twoSlotEntries.filter fun entry => entry.1 ∈ ["slot:0x01:0x0a"]) =
      [.read (.slot 1 10) (.number 5), .write (.slot 1 10 6)] := by decide +kernel
  have hTexts : ∀ entry ∈ twoSlotEntries, ∀ other ∈ ["slot:0x01:0x0a"],
      trackedKey entry.1 = trackedKey other → entry.1 = other := by decide +kernel
  have hText : OneText (twoSlotEntries.lookup ·) ["slot:0x01:0x0a"] := by
    intro key hFound other hOther tracked hTracked hTracked'
    obtain ⟨valHex, hFound⟩ := Option.ne_none_iff_exists'.mp hFound
    have hMem := (hRange.2 key valHex).mpr hFound
    exact hTexts (key, valHex) hMem other hOther (hTracked.trans hTracked'.symm)
  refine (filtered_overlay_same_run rfl emptyShared_represents hText hRange
    (hRange.filtered ["slot:0x01:0x0a"]) raiseSlot ?_ ?_).trans hRun
  · decide +kernel
  · intro addr hMem
    rw [runOver] at hRun
    rw [hRun] at hMem
    simp at hMem

def balanceEntry : List (String × String) := [("acct:0x01:balance", "0x5")]

def slotEntry : List (String × String) := [("slot:0x01:0x0a", "0x5")]

/-- An entry for the balance of an account makes the account, and the filter leaves it out
where only the existence is allowed. A key in two texts is two keys to the filter. -/
theorem filtered_overlay_differs : (RangesOver (balanceEntry.lookup ·) balanceEntry ∧
      RangesOver (filterOverlayByKeys (balanceEntry.lookup ·) ["acct:0x01:exist"]) [] ∧
      (∀ access ∈ runOver (.read (.exist 1) fun _ => .done) [], Within ["acct:0x01:exist"] access) ∧
      runOver (.read (.exist 1) fun _ => .done) [] = [.read (.exist 1) (.flag false)] ∧
      runOver (.read (.exist 1) fun _ => .done) balanceEntry = [.read (.exist 1) (.flag true)]) ∧
    RangesOver (slotEntry.lookup ·) slotEntry ∧
      RangesOver (filterOverlayByKeys (slotEntry.lookup ·) ["slot:0x01:0x0A"]) [] ∧
      (∀ access ∈ runOver (.read (.slot 1 10) fun _ => .done) [],
        Within ["slot:0x01:0x0A"] access) ∧
      runOver (.read (.slot 1 10) fun _ => .done) [] = [.read (.slot 1 10) (.number 0)] ∧
      runOver (.read (.slot 1 10) fun _ => .done) slotEntry = [.read (.slot 1 10) (.number 5)] := by
  have hBalance : RangesOver (balanceEntry.lookup ·) balanceEntry :=
    rangesOver_lookup (by simp [balanceEntry])
  have hSlot : RangesOver (slotEntry.lookup ·) slotEntry := rangesOver_lookup (by simp [slotEntry])
  refine ⟨⟨hBalance, hBalance.filtered ["acct:0x01:exist"], ?_⟩,
    hSlot, hSlot.filtered ["slot:0x01:0x0A"], ?_⟩
  · decide +kernel
  · decide +kernel

end Small

end Nezha.State
