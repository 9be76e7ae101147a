import NezhaConcurrency.Core.ClassicalGraph
import NezhaConcurrency.Driver.ReplayStream

/-! The conflict graph of the nodes that the adapter makes of speculative sets. A
key that a transaction reads and writes becomes one write node, so the graph has no
arc from it to an earlier writer of the key. -/
namespace Nezha

open List

/-- The label of a key, once the keys in `writes` have been written. -/
def labelOf (writes : List String) (key : String) : Label := if key ∈ writes then .w else .r

theorem labelOf_append_self (writes : List String) (key : String) :
    labelOf (writes ++ [key]) key = .w := by simp [labelOf]

theorem labelOf_append_of_ne (writes : List String) {key other : String} (h : other ≠ key) :
    labelOf (writes ++ [key]) other = labelOf writes other := by simp [labelOf, h]

/-- What the two loops over a set have built: one node for each key seen, a write node
if the key was written. -/
structure Adapted (spec : StreamRWSet) (reads writes : List String)
    (acc : List RWNode × List String) (keys : List String) : Prop where
  nodup : keys.Nodup
  mem : ∀ key, key ∈ keys ↔ key ∈ reads ∨ key ∈ writes
  seen : ∀ key, key ∈ acc.2 ↔ key ∈ keys
  nodes : acc.1 = keys.map fun key => spec.node (labelOf writes key) key

section Adapted

variable {spec : StreamRWSet} {reads writes : List String} {acc : List RWNode × List String}
  {keys : List String}

theorem nodes_append_of_notMem {key : String} (hNew : key ∉ keys) :
    (keys.map fun k => spec.node (labelOf writes k) k) =
      keys.map fun k => spec.node (labelOf (writes ++ [key]) k) k := by
  refine map_congr_left fun k hk => ?_
  have hne : k ≠ key := fun h => hNew (h ▸ hk)
  rw [labelOf_append_of_ne writes hne]

theorem relabel_nodes (nodup : keys.Nodup) (key : String) :
    relabel key (keys.map fun k => spec.node (labelOf writes k) k) =
      keys.map fun k => spec.node (labelOf (writes ++ [key]) k) k := by
  induction keys with
  | nil => rfl
  | cons k keys ih =>
    obtain ⟨hNew, hRest⟩ := nodup_cons.mp nodup
    simp only [map_cons, relabel]
    by_cases hKey : k = key
    · subst hKey
      rw [labelOf_append_self]
      split
      · rw [nodes_append_of_notMem hNew]
        rfl
      · next hWritten =>
          have hLabel : labelOf writes k = .w := by
            cases hLabel : labelOf writes k with
            | r => exact absurd ⟨rfl, by rw [hLabel]; rfl⟩ hWritten
            | w => rfl
          rw [ih hRest, hLabel]
    · rw [if_neg fun h => hKey h.1, ih hRest, labelOf_append_of_ne writes hKey]

theorem Adapted.readNode (adapted : Adapted spec reads [] acc keys) (key : String) :
    ∃ keys, Adapted spec (reads ++ [key]) [] (spec.readNode acc key) keys := by
  unfold StreamRWSet.readNode
  split
  · next hSeen =>
      have hRead := (adapted.mem key).mp ((adapted.seen key).mp hSeen)
      refine ⟨keys, adapted.nodup, fun k => ?_, adapted.seen, adapted.nodes⟩
      rw [adapted.mem]
      simp only [mem_append, mem_singleton, not_mem_nil, or_false] at hRead ⊢
      exact ⟨Or.inl, fun h => h.elim id fun hk => hk ▸ hRead⟩
  · next hNew =>
      rw [adapted.seen] at hNew
      refine ⟨keys ++ [key], ?_, fun k => ?_, fun k => ?_, ?_⟩
      · exact concat_eq_append ▸ adapted.nodup.concat hNew
      · simp [adapted.mem]
      · simp [adapted.seen, or_comm]
      · simp [adapted.nodes, labelOf]

theorem Adapted.writeNode (adapted : Adapted spec reads writes acc keys) (key : String) :
    ∃ keys, Adapted spec reads (writes ++ [key]) (spec.writeNode acc key) keys := by
  unfold StreamRWSet.writeNode
  split
  · next hSeen =>
      have hKey := (adapted.seen key).mp hSeen
      refine ⟨keys, adapted.nodup, fun k => ?_, adapted.seen, ?_⟩
      · rw [mem_append, mem_singleton, ← or_assoc, ← adapted.mem]
        exact ⟨Or.inl, fun h => h.elim id fun hk => hk ▸ hKey⟩
      · change relabel key acc.1 = _
        rw [adapted.nodes, relabel_nodes adapted.nodup]
  · next hNew =>
      rw [adapted.seen] at hNew
      refine ⟨keys ++ [key], ?_, fun k => ?_, fun k => ?_, ?_⟩
      · exact concat_eq_append ▸ adapted.nodup.concat hNew
      · simp [adapted.mem, or_assoc]
      · simp [adapted.seen, or_comm]
      · change acc.1 ++ [spec.node .w key] = _
        rw [adapted.nodes, map_append, map_singleton, labelOf_append_self]
        rw [nodes_append_of_notMem hNew]

theorem adapted_reads (spec : StreamRWSet) (reads : List String) :
    ∃ keys, Adapted spec reads [] (reads.foldl spec.readNode ([], [])) keys := by
  induction reads using List.reverseRecOn with
  | nil => exact ⟨[], nodup_nil, by simp, by simp, rfl⟩
  | append_singleton reads key ih =>
    obtain ⟨keys, adapted⟩ := ih
    rw [foldl_append]
    exact adapted.readNode key

theorem adapted_writes (hReads : Adapted spec reads [] acc keys) (writes : List String) :
    ∃ keys, Adapted spec reads writes (writes.foldl spec.writeNode acc) keys := by
  induction writes using List.reverseRecOn with
  | nil => exact ⟨keys, hReads⟩
  | append_singleton writes key ih =>
    obtain ⟨keys, adapted⟩ := ih
    rw [foldl_append]
    exact adapted.writeNode key

end Adapted

/-- The key of a node of a speculative set. -/
def replayKey (key : String) : String := ReplayContractName ++ ":" ++ key

theorem replayKey_injective : Function.Injective replayKey := by
  intro key other h
  have hLists := congrArg String.toList h
  simp only [replayKey, String.toList_append, append_cancel_left_eq] at hLists
  exact String.toList_inj.mp hLists

theorem StreamRWSet.mem_keysOf_nodes (spec : StreamRWSet) (label : Label) (composite : String) :
    composite ∈ keysOf label spec.nodes ↔
      ∃ key, replayKey key = composite ∧ (key ∈ spec.ReadKeys ∨ key ∈ spec.WriteKeys) ∧
        labelOf spec.WriteKeys key = label := by
  obtain ⟨keys, hReads⟩ := adapted_reads spec spec.ReadKeys
  obtain ⟨keys, adapted⟩ := adapted_writes hReads spec.WriteKeys
  unfold keysOf StreamRWSet.nodes
  rw [adapted.nodes, mem_map]
  constructor
  · rintro ⟨node, hNode, rfl⟩
    obtain ⟨hNode, hLabel⟩ := mem_filter.mp hNode
    obtain ⟨key, hKey, rfl⟩ := mem_map.mp hNode
    exact ⟨key, rfl, (adapted.mem key).mp hKey, of_decide_eq_true hLabel⟩
  · rintro ⟨key, rfl, hKey, hLabel⟩
    refine ⟨spec.node (labelOf spec.WriteKeys key) key, mem_filter.mpr ⟨?_, ?_⟩, rfl⟩
    · exact mem_map.mpr ⟨key, (adapted.mem key).mpr hKey, rfl⟩
    · exact decide_eq_true hLabel

section Conflicts

/-- The keys that transaction `i` reads and writes; a transaction without a speculative
set has none. -/
def readKeys (specs : List (Option StreamRWSet)) (i : Nat) : List String :=
  ((specs[i]?).join).elim [] StreamRWSet.ReadKeys

def writeKeys (specs : List (Option StreamRWSet)) (i : Nat) : List String :=
  ((specs[i]?).join).elim [] StreamRWSet.WriteKeys

variable (specs : List (Option StreamRWSet))

theorem touches_rwSetsToRWNodes (label : Label) (i : Nat) (composite : String) :
    Touches (RWSetsToRWNodes specs) label i composite ↔
      ∃ key, replayKey key = composite ∧ (key ∈ readKeys specs i ∨ key ∈ writeKeys specs i) ∧
        labelOf (writeKeys specs i) key = label := by
  unfold Touches RWSetsToRWNodes readKeys writeKeys
  rw [getElem?_map]
  cases specs[i]? with
  | none => simp
  | some spec =>
    cases spec with
    | none => simp [keysOf]
    | some spec =>
      simp only [Option.map_some, Option.join_some, Option.elim_some, Option.some.injEq,
        exists_eq_left']
      exact spec.mem_keysOf_nodes label composite

theorem touches_read (i : Nat) (key : String) :
    Touches (RWSetsToRWNodes specs) .r i (replayKey key) ↔
      key ∈ readKeys specs i ∧ key ∉ writeKeys specs i := by
  rw [touches_rwSetsToRWNodes]
  simp only [replayKey_injective.eq_iff, exists_eq_left, labelOf]
  split <;> simp_all

theorem touches_write (i : Nat) (key : String) :
    Touches (RWSetsToRWNodes specs) .w i (replayKey key) ↔ key ∈ writeKeys specs i := by
  rw [touches_rwSetsToRWNodes]
  simp only [replayKey_injective.eq_iff, exists_eq_left, labelOf]
  split <;> simp_all

theorem exists_touches (label : Label) (i j : Nat) :
    (∃ composite, Touches (RWSetsToRWNodes specs) label i composite ∧
      Touches (RWSetsToRWNodes specs) .w j composite) ↔
    ∃ key, Touches (RWSetsToRWNodes specs) label i (replayKey key) ∧
      Touches (RWSetsToRWNodes specs) .w j (replayKey key) := by
  constructor
  · rintro ⟨composite, hi, hj⟩
    obtain ⟨key, rfl, _⟩ := (touches_rwSetsToRWNodes specs label i composite).mp hi
    exact ⟨key, hi, hj⟩
  · rintro ⟨key, hi, hj⟩
    exact ⟨replayKey key, hi, hj⟩

/-- An arc leads from a transaction that reads a key and does not write it to every
other writer of the key, and from a writer to the later writers. -/
theorem adapter_edge_iff (i j : Nat) : (conflictGraph (RWSetsToRWNodes specs)).Edge i j ↔ i ≠ j ∧
      ((∃ key ∈ readKeys specs i, key ∉ writeKeys specs i ∧ key ∈ writeKeys specs j) ∨
        i < j ∧ ∃ key ∈ writeKeys specs i, key ∈ writeKeys specs j) := by
  rw [conflictGraph_edge_iff, exists_touches, exists_touches]
  simp only [touches_read, touches_write, and_assoc]

/-- Two transactions that both read and write the key. -/
def twoIncrements : List (Option StreamRWSet) :=
  [some ⟨⟨1, "a"⟩, true, ["k"], ["k"]⟩, some ⟨⟨1, "b"⟩, true, ["k"], ["k"]⟩]

/-- The second reads what the first writes, without an arc to it. -/
theorem increments_without_arc :
    (∃ key ∈ readKeys twoIncrements 1, key ∈ writeKeys twoIncrements 0) ∧
      NewBuildConflictGraph (RWSetsToRWNodes twoIncrements) = [[1], []] := by
  decide +kernel

end Conflicts

end Nezha
