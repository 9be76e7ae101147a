import NezhaConcurrency.Driver.CommittedDelta

/-! The committed values after several commits. A sum below zero is corrected by `2 ^ 256`,
one that passes `2 ^ 256` is not, so the committed numbers can leave the range of the words
and depend on the order of the commits. -/
namespace Nezha

open List

/-- The number committed under a composite key. A key without a value counts as zero. -/
def committedValue (committedState : CommittedState) (compositeKey : String) : Nat :=
  ((committedState compositeKey).map BigEndian.value).getD 0

/-- Calls of `updateCommittedState`, each for a contract and the deltas of its keys. -/
def commitAll (committedState : CommittedState) (calls : List (String × List (String × Int))) :
    CommittedState :=
  calls.foldl (fun committedState call => updateCommittedState committedState call.1 call.2)
    committedState

/-- The deltas that the calls apply, one after the other: the contract, the key, the delta. -/
def appliedDeltas (calls : List (String × List (String × Int))) : List (String × String × Int) :=
  calls.flatMap fun call => call.2.map fun write => (call.1, write)

/-- The amounts among the deltas for a composite key. -/
def amountsAt (compositeKey : String) (deltas : List (String × String × Int)) : List Int :=
  (deltas.filter fun delta => makeCompositeKey delta.1 delta.2.1 = compositeKey).map (·.2.2)

section Runs

variable {committedState : CommittedState}

theorem commitAll_eq_foldl (calls : List (String × List (String × Int))) :
    commitAll committedState calls = (appliedDeltas calls).foldl
      (fun committedState delta => updateCommittedState committedState delta.1 [delta.2])
      committedState := by
  induction calls generalizing committedState with
  | nil => rfl
  | cons call calls ih =>
    rw [appliedDeltas, flatMap_cons, foldl_append, foldl_map]
    exact ih

theorem committedValue_update (committedState : CommittedState) (delta : String × String × Int)
    (hLow : -2 ^ 256 ≤ delta.2.2) (compositeKey : String) :
    (committedValue (updateCommittedState committedState delta.1 [delta.2]) compositeKey : Int) =
      if makeCompositeKey delta.1 delta.2.1 = compositeKey then
        OneSidedWrap.add (2 ^ 256) (committedValue committedState compositeKey) delta.2.2
      else committedValue committedState compositeKey := by
  change (committedValue (Function.update committedState (makeCompositeKey delta.1 delta.2.1)
    (some (applyDelta (committedState (makeCompositeKey delta.1 delta.2.1)) delta.2.2)))
      compositeKey : Int) = _
  split
  · next hKey =>
      subst hKey
      rw [committedValue, Function.update_self]
      exact applyDelta_add _ hLow
  · next hKey =>
      rw [committedValue, Function.update_of_ne (Ne.symm hKey)]
      rfl

theorem committedValue_commitAll (calls : List (String × List (String × Int)))
    (hLow : ∀ delta ∈ appliedDeltas calls, -2 ^ 256 ≤ delta.2.2) (compositeKey : String) :
    (committedValue (commitAll committedState calls) compositeKey : Int) =
      OneSidedWrap.run (2 ^ 256) (committedValue committedState compositeKey)
        (amountsAt compositeKey (appliedDeltas calls)) := by
  rw [commitAll_eq_foldl]
  generalize appliedDeltas calls = deltas at hLow
  induction deltas generalizing committedState with
  | nil => rfl
  | cons delta deltas ih =>
    rw [foldl_cons, ih fun later hm => hLow later (mem_cons_of_mem _ hm),
      committedValue_update _ delta (hLow delta mem_cons_self)]
    by_cases hKey : makeCompositeKey delta.1 delta.2.1 = compositeKey
    · simp [amountsAt, hKey, OneSidedWrap.run]
    · simp [amountsAt, hKey]

end Runs

section Canonical

variable {committedState : CommittedState} {deltas : List (String × String × Int)}

/-- The calls that apply one delta each. -/
def singleCalls (deltas : List (String × String × Int)) : List (String × List (String × Int)) :=
  deltas.map fun delta => (delta.1, [delta.2])

theorem appliedDeltas_singleCalls (deltas : List (String × String × Int)) :
    appliedDeltas (singleCalls deltas) = deltas := by
  rw [appliedDeltas, singleCalls, flatMap_map]
  exact flatMap_singleton' deltas

theorem nodup_singleCalls {call : String × List (String × Int)} (h : call ∈ singleCalls deltas) :
    (call.2.map Prod.fst).Nodup := by
  obtain ⟨delta, _, rfl⟩ := mem_map.mp h
  exact nodup_singleton _

/-- The deltas below zero, and then the others. -/
def debitsFirst (deltas : List (String × String × Int)) : List (String × String × Int) :=
  deltas.filter (fun delta => delta.2.2 < 0) ++ deltas.filter fun delta => 0 ≤ delta.2.2

theorem debitsFirst_perm (deltas : List (String × String × Int)) :
    (debitsFirst deltas).Perm deltas := by
  have hPerm := filter_append_perm
    (fun delta : String × String × Int => decide (delta.2.2 < 0)) deltas
  simpa only [debitsFirst, Bool.not_eq_true, decide_eq_false_iff_not, not_lt, ← decide_not]
    using hPerm

theorem amountsAt_debitsFirst (compositeKey : String) :
    amountsAt compositeKey (debitsFirst deltas) = (amountsAt compositeKey deltas).filter (· < 0) ++
        (amountsAt compositeKey deltas).filter (0 ≤ ·) := by
  simp only [amountsAt, debitsFirst, filter_append, map_append, filter_map,
    filter_filter, Function.comp_def]
  congr 3 <;> (funext delta; rw [Bool.and_comm])

/-- The centred difference of two words, added to the first, gives the second if and only
if the second is not smaller by more than `2 ^ 255`. -/
theorem add_signedDelta_iff {old new : Nat} (hNew : new < 2 ^ 256) :
    OneSidedWrap.add (2 ^ 256) old (signedDelta new old) = new ↔ old ≤ new + 2 ^ 255 := by
  unfold OneSidedWrap.add signedDelta
  dsimp only
  split <;> split <;> split <;> omega

theorem committedValue_signedDelta_iff {contractName key : String} {new : Nat}
    (hOld : committedValue committedState (makeCompositeKey contractName key) < 2 ^ 256)
    (hNew : new < 2 ^ 256) :
    committedValue (updateCommittedState committedState contractName
        [(key, signedDelta new (committedValue committedState
          (makeCompositeKey contractName key)))]) (makeCompositeKey contractName key) = new ↔
      committedValue committedState (makeCompositeKey contractName key) ≤ new + 2 ^ 255 := by
  have hLow : -2 ^ 256 ≤ signedDelta new (committedValue committedState
      (makeCompositeKey contractName key)) := by
    have hDelta := (signedDelta_spec hNew hOld).2.1
    omega
  rw [← add_signedDelta_iff hNew]
  generalize signedDelta new _ = amount at hLow ⊢
  have hUpdate := committedValue_update committedState (contractName, key, amount) hLow
    (makeCompositeKey contractName key)
  rw [if_pos rfl] at hUpdate
  exact hUpdate ▸ Nat.cast_inj.symm

/-- In every order, and however they are grouped into calls, the deltas leave for each key
the canonical sum if and only if, for each key, the old value with the negative deltas,
taken modulo `2 ^ 256`, and the other deltas add up to less than `2 ^ 256`. A centred
difference yields the new value if and only if the value falls by at most `2 ^ 255`. -/
theorem committed_values_canonical_iff (committedState : CommittedState)
    (deltas : List (String × String × Int))
    (hWords : ∀ compositeKey, committedValue committedState compositeKey < 2 ^ 256)
    (hRange : ∀ delta ∈ deltas, -2 ^ 255 ≤ delta.2.2 ∧ delta.2.2 < 2 ^ 255) :
    ((∀ calls : List (String × List (String × Int)),
      (∀ call ∈ calls, (call.2.map Prod.fst).Nodup) → (appliedDeltas calls).Perm deltas →
        ∀ compositeKey, (committedValue (commitAll committedState calls) compositeKey : Int) =
          (committedValue committedState compositeKey + (amountsAt compositeKey deltas).sum) %
            2 ^ 256) ↔
      ∀ compositeKey, (committedValue committedState compositeKey +
          OneSidedWrap.debits (amountsAt compositeKey deltas)) % 2 ^ 256 +
        OneSidedWrap.credits (amountsAt compositeKey deltas) < 2 ^ 256) ∧
    ∀ contractName key new, new < 2 ^ 256 →
      (committedValue (updateCommittedState committedState contractName
          [(key, signedDelta new (committedValue committedState
            (makeCompositeKey contractName key)))]) (makeCompositeKey contractName key) = new ↔
        committedValue committedState (makeCompositeKey contractName key) ≤ new + 2 ^ 255) := by
  have hLow : ∀ order : List (String × String × Int), order.Perm deltas →
      ∀ delta ∈ order, -2 ^ 256 ≤ delta.2.2 := by
    intro order hPerm delta hm
    have hDelta := hRange delta (hPerm.mem_iff.mp hm)
    omega
  have hAmounts : ∀ compositeKey, ∀ amount ∈ amountsAt compositeKey deltas, -2 ^ 256 ≤ amount := by
    intro compositeKey amount hm
    obtain ⟨delta, hDelta, rfl⟩ := mem_map.mp hm
    exact hLow deltas (List.Perm.refl _) delta (mem_of_mem_filter hDelta)
  have hValue : ∀ compositeKey, (0 : Int) ≤ committedValue committedState compositeKey ∧
      (committedValue committedState compositeKey : Int) < 2 ^ 256 := by
    intro compositeKey
    have hWord := hWords compositeKey
    omega
  refine ⟨⟨fun hCanonical compositeKey => ?_, fun hBound calls _ hPerm compositeKey => ?_⟩,
    fun contractName key new hNew => ?_⟩
  · have hPerm : (appliedDeltas (singleCalls (debitsFirst deltas))).Perm deltas := by
      rw [appliedDeltas_singleCalls]
      exact debitsFirst_perm deltas
    have hWorst := hCanonical (singleCalls (debitsFirst deltas)) (fun _ => nodup_singleCalls)
      hPerm compositeKey
    rw [committedValue_commitAll _ (hLow _ hPerm), appliedDeltas_singleCalls,
      amountsAt_debitsFirst, OneSidedWrap.run_debits_first (hValue compositeKey).1
        (hValue compositeKey).2 (hAmounts compositeKey)] at hWorst
    rw [hWorst]
    exact Int.emod_lt_of_pos _ (by norm_num)
  · rw [committedValue_commitAll _ (hLow _ hPerm)]
    exact OneSidedWrap.run_canonical (hValue compositeKey).1 (hValue compositeKey).2
      (hAmounts compositeKey) (hBound compositeKey) ((hPerm.filter _).map _)
  · exact committedValue_signedDelta_iff (hWords _) hNew

/-- Two deposits to one slot, in the other order. -/
theorem two_deposits_canonical :
    (committedValue (commitAll (fun _ => none) [("SmallBank", [("k", 7)]),
      ("SmallBank", [("k", 5)])]) (makeCompositeKey "SmallBank" "k") : Int) = 12 := by
  have hIff := (committed_values_canonical_iff (fun _ => none)
    [("SmallBank", "k", 5), ("SmallBank", "k", 7)] (fun _ => by simp [committedValue]) (by simp)).1
  have hBound : ∀ compositeKey, ((committedValue (fun _ => none) compositeKey : Int) +
      OneSidedWrap.debits (amountsAt compositeKey [("SmallBank", "k", 5), ("SmallBank", "k", 7)])) %
        2 ^ 256 + OneSidedWrap.credits
          (amountsAt compositeKey [("SmallBank", "k", 5), ("SmallBank", "k", 7)]) < 2 ^ 256 := by
    intro compositeKey
    by_cases hKey : makeCompositeKey "SmallBank" "k" = compositeKey
    · simp [committedValue, amountsAt, hKey, OneSidedWrap.debits, OneSidedWrap.credits]
    · simp [committedValue, amountsAt, hKey, OneSidedWrap.debits, OneSidedWrap.credits]
  have hOrder : (appliedDeltas [("SmallBank", [("k", 7)]), ("SmallBank", [("k", 5)])]).Perm
      [("SmallBank", "k", 5), ("SmallBank", "k", 7)] := List.Perm.swap ..
  rw [hIff.mpr hBound _ (by simp) hOrder]
  simp [committedValue, amountsAt]

/-- A withdrawal and a deposit of one: the number committed depends on their order. The
centred difference of the largest word and zero is one, and is added to the word. -/
theorem overflow_not_reduced :
    committedValue (commitAll (fun _ => none) [("SmallBank", [("k", -1)]),
      ("SmallBank", [("k", 1)])]) (makeCompositeKey "SmallBank" "k") = 2 ^ 256 ∧
    committedValue (commitAll (fun _ => none) [("SmallBank", [("k", 1)]),
      ("SmallBank", [("k", -1)])]) (makeCompositeKey "SmallBank" "k") = 0 ∧
    committedValue (updateCommittedState (fun _ => some (BigEndian.bytes (2 ^ 256 - 1))) "SmallBank"
      [("k", signedDelta 0 (2 ^ 256 - 1))]) (makeCompositeKey "SmallBank" "k") = 2 ^ 256 := by
  refine ⟨by decide +kernel, by decide +kernel, by decide +kernel⟩

end Canonical

end Nezha
