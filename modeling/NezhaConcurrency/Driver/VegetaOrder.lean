import NezhaConcurrency.Core.DepurgeSetup
import NezhaConcurrency.Library.Batches

/-! The order of Vegeta. The transactions of a block are strung together key by
key, the longest chain first, and each transaction waits for the earlier ones it
conflicts with. The chains come out of maps and of an unstable sort, so the order
of conflicting transactions is not determined; everything else is proved for each
such order. -/
namespace Nezha

open List

/-- A block and the speculative key sets of its transactions, where there are any. -/
structure VegetaBlock where
  blockIDs : List String
  distinct : blockIDs.Nodup
  speculativeRS : String → Option (List String)
  speculativeWS : String → Option (List String)

namespace VegetaBlock

def blockRS (block : VegetaBlock) (txID : String) : List String :=
  (block.speculativeRS txID).getD []

def blockWS (block : VegetaBlock) (txID : String) : List String :=
  (block.speculativeWS txID).getD []

/-- One order in which the maps of the two kinds of sets are visited. -/
structure MapOrder (block : VegetaBlock) where
  readIDs : List String
  readIDs_perm : readIDs.Perm (block.blockIDs.filter fun id => (block.speculativeRS id).isSome)
  readKeys : String → List String
  readKeys_perm : ∀ id, (readKeys id).Perm (block.blockRS id).dedup
  writeIDs : List String
  writeIDs_perm : writeIDs.Perm (block.blockIDs.filter fun id => (block.speculativeWS id).isSome)
  writeKeys : String → List String
  writeKeys_perm : ∀ id, (writeKeys id).Perm (block.blockWS id).dedup

/-- The entries that are made in `keyToTxs`, one after the other. -/
def MapOrder.entries {block : VegetaBlock} (order : MapOrder block) : List (String × String) :=
  (order.readIDs.flatMap fun txID => (order.readKeys txID).map fun key => (key, txID)) ++
    order.writeIDs.flatMap fun txID => (order.writeKeys txID).map fun key => (key, txID)

def MapOrder.keyToTxs {block : VegetaBlock} (order : MapOrder block) (key : String) : List String :=
  (order.entries.filter fun entry => entry.1 = key).map Prod.snd

/-- The chain of a key: its transactions, each once. -/
def MapOrder.chain {block : VegetaBlock} (order : MapOrder block) (key : String) : List String :=
  uniqueKeys (order.keyToTxs key)

/-- One order in which the chains are made, and one result of sorting them by length. -/
structure ChainOrder (block : VegetaBlock) extends MapOrder block where
  keys : List String
  keys_perm : keys.Perm (toMapOrder.entries.map Prod.fst).dedup
  chains : List (List String)
  chains_perm : chains.Perm (keys.map toMapOrder.chain)
  sorted : chains.Pairwise fun chain later => later.length ≤ chain.length

variable {block : VegetaBlock}

/-- The transactions of the chains, then the others. -/
def orderedTxs (block : VegetaBlock) (order : ChainOrder block) : List String :=
  uniqueKeys (order.chains.flatten ++ block.blockIDs)

/-- A common key that one of the two writes. -/
def hasConflict (block : VegetaBlock) (txID prevTxID : String) : Bool :=
  (block.blockWS txID).any (· ∈ block.blockWS prevTxID) ||
    (block.blockRS txID).any (· ∈ block.blockWS prevTxID) ||
    (block.blockWS txID).any (· ∈ block.blockRS prevTxID)

/-- The predecessors of each transaction. -/
def dag (block : VegetaBlock) (orderedTxs : List String) (txID : String) : List String :=
  Batches.preds orderedTxs block.hasConflict txID

/-- The batch loop, where `commit` is what is done with a batch. -/
def batchLoop {State : Type} (block : VegetaBlock) (orderedTxs : List String)
    (commit : State → List String → State) (rounds : Nat) (start : State) :
    Batches.Loop String State :=
  Batches.run (block.dag orderedTxs) sortStrings commit rounds ⟨orderedTxs, [], [], start⟩

theorem hasConflict_iff {t u : String} : block.hasConflict t u = true ↔ ∃ key,
    key ∈ block.blockWS t ∧ key ∈ block.blockWS u ∨ key ∈ block.blockRS t ∧ key ∈ block.blockWS u ∨
      key ∈ block.blockWS t ∧ key ∈ block.blockRS u := by
  simp only [hasConflict, Bool.or_eq_true, any_eq_true, decide_eq_true_eq, exists_or, or_assoc]

theorem hasConflict_symm (t u : String) : block.hasConflict t u = block.hasConflict u t := by
  rw [Bool.eq_iff_iff, hasConflict_iff, hasConflict_iff]
  refine exists_congr fun key => ?_
  tauto

theorem mem_keyToTxs {order : MapOrder block} {key txID : String} (h : txID ∈ order.keyToTxs key) :
    txID ∈ block.blockIDs := by
  obtain ⟨⟨key', txID'⟩, hEntry, rfl⟩ := mem_map.mp h
  rcases mem_append.mp (mem_filter.mp hEntry).1 with hRead | hWrite
  · obtain ⟨id, hId, hKey⟩ := mem_flatMap.mp hRead
    obtain ⟨_, _, hPair⟩ := mem_map.mp hKey
    cases hPair
    exact (mem_filter.mp (order.readIDs_perm.mem_iff.mp hId)).1
  · obtain ⟨id, hId, hKey⟩ := mem_flatMap.mp hWrite
    obtain ⟨_, _, hPair⟩ := mem_map.mp hKey
    cases hPair
    exact (mem_filter.mp (order.writeIDs_perm.mem_iff.mp hId)).1

theorem nodup_orderedTxs (order : ChainOrder block) : (block.orderedTxs order).Nodup :=
  nodup_uniqueKeys _

/-- The order has the transactions of the block, each once. -/
theorem orderedTxs_perm (order : ChainOrder block) :
    (block.orderedTxs order).Perm block.blockIDs := by
  refine (perm_ext_iff_of_nodup (nodup_orderedTxs order) block.distinct).mpr fun txID => ?_
  unfold orderedTxs
  rw [mem_uniqueKeys, mem_append]
  refine ⟨fun h => h.elim (fun hChain => ?_) id, Or.inr⟩
  obtain ⟨chain, hChain, hMem⟩ := mem_flatten.mp hChain
  obtain ⟨key, _, rfl⟩ := mem_map.mp (order.chains_perm.mem_iff.mp hChain)
  exact mem_keyToTxs ((mem_uniqueKeys _ _).mp hMem)

theorem idxOf_orderedTxs_ne (order : ChainOrder block) {u v : String} (hu : u ∈ block.blockIDs)
    (hne : u ≠ v) : (block.orderedTxs order).idxOf u ≠ (block.orderedTxs order).idxOf v := by
  intro h
  exact hne ((idxOf_inj ((orderedTxs_perm order).mem_iff.mpr hu)).mp h)

section Loop

variable {State : Type} (block : VegetaBlock) (commit : State → List String → State)

/-- The loop over a block ends with every transaction in one batch. -/
theorem batchLoop_spec {ordered : List String} (rounds : Nat) (hRounds : ordered.length ≤ rounds)
    (start : State) :
    Batches.Valid ordered (block.dag ordered) commit start
        (block.batchLoop ordered commit rounds start) ∧
      (block.batchLoop ordered commit rounds start).remaining = [] := by
  refine Batches.run_spec block.hasConflict (fun items => perm_insertionSort _ items) rounds ?_
    hRounds
  refine ⟨List.Perm.refl _, rfl, fun before batch after h => ?_, rfl⟩
  exact absurd h (by simp)

theorem batchLoop_perm {ordered : List String} (rounds : Nat) (hRounds : ordered.length ≤ rounds)
    (start : State) :
    (block.batchLoop ordered commit rounds start).batches.flatten.Perm ordered := by
  obtain ⟨valid, hRemaining⟩ := batchLoop_spec block commit rounds hRounds start
  have hPerm := valid.perm
  rw [hRemaining, append_nil, valid.executed] at hPerm
  exact hPerm

/-- The order, the predecessors and the batches of a block, for every order of
the maps and every result of the unstable sort. -/
theorem vegeta_order_well_formed (order : ChainOrder block) (start : State)
    (rounds : Nat) (hRounds : block.blockIDs.length ≤ rounds) :
    (block.orderedTxs order).Perm block.blockIDs ∧
      (∀ t, ¬ Relation.TransGen (fun u v => u ∈ block.dag (block.orderedTxs order) v) t t) ∧
      (∀ u ∈ block.blockIDs, ∀ v ∈ block.blockIDs, u ≠ v → block.hasConflict u v = true →
        u ∈ block.dag (block.orderedTxs order) v ∨ v ∈ block.dag (block.orderedTxs order) u) ∧
      ∃ loop, block.batchLoop (block.orderedTxs order) commit rounds start = loop ∧
        loop.remaining = [] ∧ loop.batches.flatten.Perm block.blockIDs ∧
        (∀ batch ∈ loop.batches, ∀ u ∈ batch, ∀ v ∈ batch, u ≠ v → block.hasConflict u v = false) ∧
        ∀ before batch after, loop.batches = before ++ batch :: after → ∀ v ∈ batch,
          ∀ u ∈ block.blockIDs, block.hasConflict u v = true →
          (block.orderedTxs order).idxOf u < (block.orderedTxs order).idxOf v →
          u ∈ before.flatten := by
  have hPerm := orderedTxs_perm order
  have hLength : (block.orderedTxs order).length ≤ rounds := hPerm.length_eq ▸ hRounds
  obtain ⟨valid, hRemaining⟩ := batchLoop_spec block commit rounds hLength start
  have hFlatten := batchLoop_perm block commit rounds hLength start
  have hNodup := hFlatten.nodup_iff.mpr (nodup_orderedTxs order)
  refine ⟨hPerm, Batches.preds_acyclic _ _, fun u hu v hv hne hConflict => ?_, _, rfl, hRemaining,
    hFlatten.trans hPerm, fun batch hBatch u hu v hv hne => ?_,
    fun before batch after hSplit v hv u hu hConflict hLess => ?_⟩
  · rcases lt_or_gt_of_ne (idxOf_orderedTxs_ne order hu hne) with hLess | hLess
    · exact Or.inl (Batches.mem_preds.mpr
        ⟨hPerm.mem_iff.mpr hu, hLess, (hasConflict_symm v u).trans hConflict⟩)
    · exact Or.inr (Batches.mem_preds.mpr ⟨hPerm.mem_iff.mpr hv, hLess, hConflict⟩)
  · exact valid.layered.conflict_free hasConflict_symm hNodup (fun t ht => hFlatten.mem_iff.mp ht)
      hBatch hu hv hne
  · exact valid.layered before batch after hSplit v hv u (Batches.mem_preds.mpr
      ⟨hPerm.mem_iff.mpr hu, hLess, (hasConflict_symm v u).trans hConflict⟩)

end Loop

/-- `"a"` increments `"x"`, and `"b"` reads `"x"` and writes `"z"`. -/
def gaugeBlock : VegetaBlock where
  blockIDs := ["a", "b"]
  distinct := by decide
  speculativeRS := fun _ => some ["x"]
  speculativeWS := fun txID => if txID = "a" then some ["x"] else some ["z"]

/-- The read sets may be visited in either order. -/
def gaugeMapOrder (readIDs : List String) (h : readIDs.Perm ["a", "b"]) : MapOrder gaugeBlock where
  readIDs := readIDs
  readIDs_perm := h
  readKeys := fun txID => (gaugeBlock.blockRS txID).dedup
  readKeys_perm := fun _ => List.Perm.refl _
  writeIDs := ["a", "b"]
  writeIDs_perm := by decide
  writeKeys := fun txID => (gaugeBlock.blockWS txID).dedup
  writeKeys_perm := fun _ => List.Perm.refl _

def gaugeIncrementFirst : ChainOrder gaugeBlock where
  toMapOrder := gaugeMapOrder ["a", "b"] (by decide)
  keys := ["x", "z"]
  keys_perm := by decide
  chains := [["a", "b"], ["b"]]
  chains_perm := by decide
  sorted := by decide

def gaugeReadFirst : ChainOrder gaugeBlock where
  toMapOrder := gaugeMapOrder ["b", "a"] (by decide)
  keys := ["x", "z"]
  keys_perm := by decide
  chains := [["b", "a"], ["b"]]
  chains_perm := by decide
  sorted := by decide

theorem vegeta_order_well_formed_gauge : (gaugeBlock.orderedTxs gaugeReadFirst).Perm ["a", "b"] ∧
      (gaugeBlock.batchLoop (gaugeBlock.orderedTxs gaugeReadFirst) (fun _ _ => ()) 2 ()).batches =
        [["b"], ["a"]] :=
  ⟨(vegeta_order_well_formed gaugeBlock (fun _ _ => ()) gaugeReadFirst () 2 (by decide)).1,
    by decide +kernel⟩

end VegetaBlock

end Nezha
