import NezhaConcurrency.Core.RWNode
import NezhaConcurrency.Driver.ReplayDepurge

/-! The transaction stream of `runReplayDepurgeMode`. Transactions without a usable
speculative set go to `serialReplayList` at once. The others get a context, and the
stream is split into blocks that are validated one after the other, each with a
scheduler of its own. `committedDelta` and `serialReplayList` live across the blocks. -/
namespace Nezha

open Function List

structure ReplayRef where
  BlockNum : Nat
  TxHash : String

/-- The speculative set of a transaction, a `core.ReplayRWSet`. -/
structure StreamRWSet where
  Ref : ReplayRef
  Success : Bool
  ReadKeys : List String
  WriteKeys : List String

def ReplayContractName : String := "eth"

/-- A node for a key. The schedulers only look at the key, so the value is empty. -/
def StreamRWSet.node (spec : StreamRWSet) (label : Label) (key : String) : RWNode :=
  ⟨⟨key, ""⟩, ⟨spec.Ref.TxHash, spec.Ref.BlockNum % 2 ^ 32⟩, label, 0, false, ReplayContractName⟩

/-- The first read node of the key becomes a write node. -/
def relabel (key : String) : List RWNode → List RWNode
  | [] => []
  | node :: nodes =>
    if node.RWSet.Key = key ∧ node.Label = .r then { node with Label := .w } :: nodes
    else node :: relabel key nodes

/-- The nodes so far, and the keys that `seen` has. -/
def StreamRWSet.readNode (spec : StreamRWSet) (acc : List RWNode × List String) (key : String) :
    List RWNode × List String :=
  if key ∈ acc.2 then acc else (acc.1 ++ [spec.node .r key], key :: acc.2)

def StreamRWSet.writeNode (spec : StreamRWSet) (acc : List RWNode × List String) (key : String) :
    List RWNode × List String :=
  if key ∈ acc.2 then (relabel key acc.1, acc.2)
  else (acc.1 ++ [spec.node .w key], key :: acc.2)

/-- The nodes of a set. A key that is read and written is a write. -/
def StreamRWSet.nodes (spec : StreamRWSet) : List RWNode :=
  (spec.WriteKeys.foldl spec.writeNode (spec.ReadKeys.foldl spec.readNode ([], []))).1

def RWSetsToRWNodes (specs : List (Option StreamRWSet)) : List (List RWNode) :=
  specs.map fun spec => spec.elim [] StreamRWSet.nodes

/-- `m[key] = value`. -/
def setEntry (m : List (String × List UInt8)) (key : String) (value : List UInt8) :
    List (String × List UInt8) :=
  if m.any (·.1 = key) then m.map fun entry => if entry.1 = key then (key, value) else entry
  else m ++ [(key, value)]

/-- The two sets of a context. The differences in `PreWriteDelta` are read by the other
drivers only. -/
def contextNode (ctx : TransactionContext) (node : RWNode) : TransactionContext :=
  let key := ConvertByte2String node.RWSet.Key
  let value := node.RWSet.Value.toUTF8.data.toList
  match node.Label with
  | .r => { ctx with PreReadSet := setEntry ctx.PreReadSet key value }
  | .w => { ctx with PreWriteSet := setEntry ctx.PreWriteSet key value }

def RWNodesToContext (txID : String) (rwNodes : List RWNode) : TransactionContext :=
  rwNodes.foldl contextNode ⟨txID, [], []⟩

theorem RWNodesToContext_TxID (txID : String) (rwNodes : List RWNode) :
    (RWNodesToContext txID rwNodes).TxID = txID := by
  have hFold : ∀ ctx : TransactionContext, (rwNodes.foldl contextNode ctx).TxID = ctx.TxID := by
    induction rwNodes with
    | nil => exact fun _ => rfl
    | cons node rwNodes ih =>
      intro ctx
      rw [foldl_cons, ih, contextNode]
      cases node.Label <;> rfl
  exact hFold _

variable {Value : Type}

/-- A loaded range of blocks and the outcome of its speculation, one entry for each
transaction. The hashes are distinct, and a hash is never empty. -/
structure ReplayStream (Value : Type) where
  witness : String → Value
  txs : List (TxProgram Value)
  Refs : List ReplayRef
  specs : List (Option StreamRWSet)
  txsPerBlock : Int
  speculated : specs.length = Refs.length
  distinct : (Refs.map ReplayRef.TxHash).Nodup
  hashes : "" ∉ Refs.map ReplayRef.TxHash

/-- What the loop over the speculative sets builds. -/
structure Prepared where
  contexts : String → Option TransactionContext
  txIDToIdx : String → Option Nat
  serialReplayList : List String

namespace Prepared

def empty : Prepared := ⟨fun _ => none, fun _ => none, []⟩

/-- One transaction of the loop. Without a set, or with a failed one, it is listed. -/
def add (p : Prepared) (txID : String) (i : Nat) (spec : Option StreamRWSet)
    (nodes : List RWNode) : Prepared :=
  if spec.any StreamRWSet.Success then
    { p with
      contexts := update p.contexts txID (some (RWNodesToContext txID nodes))
      txIDToIdx := update p.txIDToIdx txID (some i) }
  else
    { p with
      txIDToIdx := update p.txIDToIdx txID (some i)
      serialReplayList := p.serialReplayList ++ [txID] }

/-- Every visited transaction has an index and either a context or one place in the list. -/
structure Routed (visited : List String) (p : Prepared) : Prop where
  indexed : ∀ txID ∈ visited, p.txIDToIdx txID ≠ none
  context : ∀ txID ctx, p.contexts txID = some ctx → ctx.TxID = txID
  fresh : ∀ txID, txID ∉ visited → p.contexts txID = none
  listed : ∀ txID, p.serialReplayList.count txID =
    if txID ∈ visited ∧ p.contexts txID = none then 1 else 0

theorem Routed.add {visited : List String} {p : Prepared} (routed : Routed visited p)
    {txID : String} (hNew : txID ∉ visited) (i : Nat) (spec : Option StreamRWSet)
    (nodes : List RWNode) : Routed (visited ++ [txID]) (p.add txID i spec nodes) := by
  have hNone := routed.fresh txID hNew
  have hIndexed : ∀ other ∈ visited ++ [txID], update p.txIDToIdx txID (some i) other ≠ none := by
    intro other hOther
    by_cases hne : other = txID
    · simp [hne]
    · rw [update_of_ne hne]
      exact routed.indexed other (by simpa [hne] using hOther)
  unfold Prepared.add
  split
  · refine ⟨hIndexed, fun other ctx hCtx => ?_, fun other hOther => ?_, fun other => ?_⟩
    · by_cases hne : other = txID
      · simp only [hne, update_self, Option.some.injEq] at hCtx
        rw [← hCtx, RWNodesToContext_TxID, hne]
      · simp only [update_of_ne hne] at hCtx
        exact routed.context other ctx hCtx
    · simp only [mem_append, mem_singleton, not_or] at hOther
      exact (update_of_ne hOther.2 ..).trans (routed.fresh other hOther.1)
    · change p.serialReplayList.count other = _
      rw [routed.listed]
      by_cases hne : other = txID
      · simp [hne, hNew]
      · simp [hne]
  · refine ⟨hIndexed, routed.context, fun other hOther => ?_, fun other => ?_⟩
    · exact routed.fresh other fun hIn => hOther (mem_append_left _ hIn)
    · change (p.serialReplayList ++ [txID]).count other = _
      rw [count_append, routed.listed]
      by_cases hne : other = txID
      · simp [hne, hNew, hNone]
      · simp [hne, Ne.symm hne]

theorem Routed.foldl
    (entries : List ((String × Option StreamRWSet × List RWNode) × Nat)) {visited : List String}
    {p : Prepared} (routed : Routed visited p) (nodup : (visited ++ entries.map (·.1.1)).Nodup) :
    Routed (visited ++ entries.map (·.1.1))
      (entries.foldl (fun p entry => p.add entry.1.1 entry.2 entry.1.2.1 entry.1.2.2) p) := by
  induction entries generalizing visited p with
  | nil => simpa using routed
  | cons entry entries ih =>
    rw [map_cons, append_cons] at nodup ⊢
    have hNew : entry.1.1 ∉ visited := by
      intro hIn
      have hVisited := (nodup_append.mp nodup).1
      exact (nodup_append.mp hVisited).2.2 _ hIn _ mem_cons_self rfl
    exact ih (routed.add hNew _ _ _) nodup

end Prepared

namespace ReplayStream

variable (stream : ReplayStream Value)

def txCount : Nat := stream.Refs.length

def orderedTxIDs : List String := stream.Refs.map ReplayRef.TxHash

/-- The loop that builds the contexts. -/
def prepared : Prepared :=
  (stream.orderedTxIDs.zip (stream.specs.zip (RWSetsToRWNodes stream.specs))).zipIdx.foldl
    (fun p entry => p.add entry.1.1 entry.2 entry.1.2.1 entry.1.2.2) .empty

/-- What the workers of all blocks share. -/
def block : ReplayBlock Value where
  witness := stream.witness
  txs := stream.txs
  txIDToIdx := stream.prepared.txIDToIdx

def blockSize : Nat :=
  if stream.txsPerBlock ≤ 0 ∨ stream.txsPerBlock ≥ stream.txCount then stream.txCount
  else stream.txsPerBlock.toNat

end ReplayStream

/-- `for start := ...; start < txCount; start += blockSize`, with the IDs of each block. -/
def splitBlocks (orderedTxIDs : List String) (blockSize start : Nat) : List (List String) :=
  if start < orderedTxIDs.length ∧ 0 < blockSize then
    (orderedTxIDs.take (min (start + blockSize) orderedTxIDs.length)).drop start ::
      splitBlocks orderedTxIDs blockSize (start + blockSize)
  else []
termination_by orderedTxIDs.length - start

/-- The bounds of the same loop. -/
def splitRanges (txCount blockSize start : Nat) : List (Nat × Nat) :=
  if start < txCount ∧ 0 < blockSize then
    (start, min (start + blockSize) txCount) :: splitRanges txCount blockSize (start + blockSize)
  else []
termination_by txCount - start

theorem splitBlocks_eq_ranges (orderedTxIDs : List String) (blockSize start : Nat) :
    splitBlocks orderedTxIDs blockSize start =
      (splitRanges orderedTxIDs.length blockSize start).map fun range =>
        (orderedTxIDs.take range.2).drop range.1 := by
  fun_induction splitBlocks orderedTxIDs blockSize start with
  | case1 start hStart ih => rw [splitRanges, if_pos hStart, map_cons, ih]
  | case2 start hStart => rw [splitRanges, if_neg hStart, map_nil]

theorem mem_splitRanges {txCount blockSize start : Nat} {range : Nat × Nat}
    (h : range ∈ splitRanges txCount blockSize start) :
    range.1 < range.2 ∧ range.2 ≤ range.1 + blockSize := by
  fun_induction splitRanges txCount blockSize start with
  | case1 start hStart ih =>
    rcases mem_cons.mp h with rfl | h
    · dsimp only
      omega
    · exact ih h
  | case2 start hStart => cases h

/-- The ranges from `start` on cover what is left of the stream. -/
theorem splitRanges_covered (txCount start : Nat) {blockSize : Nat} (hSize : 0 < blockSize) :
    (splitRanges txCount blockSize start).flatMap
        (fun range => List.range' range.1 (range.2 - range.1)) =
      List.range' start (txCount - start) := by
  fun_induction splitRanges txCount blockSize start with
  | case1 start hStart ih =>
    rw [flatMap_cons, ih]
    rcases le_total (start + blockSize) txCount with hLe | hLe
    · rw [min_eq_left hLe, Nat.add_sub_cancel_left, range'_append_1]
      congr 1
      omega
    · rw [min_eq_right hLe, Nat.sub_eq_zero_of_le hLe, range'_zero, append_nil]
  | case2 start hStart =>
    have hNone : txCount - start = 0 := by omega
    rw [hNone]
    rfl

theorem length_splitRanges (txCount start : Nat) {blockSize : Nat} (hSize : 0 < blockSize) :
    (splitRanges txCount blockSize start).length =
      (txCount - start + blockSize - 1) / blockSize := by
  fun_induction splitRanges txCount blockSize start with
  | case1 start hStart ih =>
    rw [length_cons, ih, ← Nat.add_div_right _ hSize]
    rcases le_total (start + blockSize) txCount with hLe | hLe
    · congr 1
      omega
    · -- the last block may be short
      rw [Nat.sub_eq_zero_of_le hLe, Nat.div_eq_of_lt_le (k := 1) (by omega) (by omega),
        Nat.div_eq_of_lt_le (k := 1) (by omega) (by omega)]
  | case2 start hStart =>
    have hNone : txCount - start = 0 := by omega
    rw [length_nil, hNone, Nat.div_eq_of_lt (by omega)]

theorem flatten_splitBlocks (orderedTxIDs : List String) {blockSize : Nat} (hSize : 0 < blockSize)
    (start : Nat) :
    (splitBlocks orderedTxIDs blockSize start).flatten = orderedTxIDs.drop start := by
  fun_induction splitBlocks orderedTxIDs blockSize start with
  | case1 start hStart ih =>
    rw [flatten_cons, ih]
    rcases le_total (start + blockSize) orderedTxIDs.length with hLe | hLe
    · rw [min_eq_left hLe]
      conv_rhs => rw [← take_append_drop (start + blockSize) orderedTxIDs]
      rw [drop_append_of_le_length (by rw [length_take]; omega)]
    · rw [min_eq_right hLe, take_length, drop_eq_nil_of_le hLe, append_nil]
  | case2 start hStart =>
    rw [flatten_nil, drop_eq_nil_of_le (by omega)]

namespace ReplayStream

variable (stream : ReplayStream Value)

def blocks : List (List String) := splitBlocks stream.orderedTxIDs stream.blockSize 0

theorem blockSize_pos (h : 0 < stream.txCount) : 0 < stream.blockSize := by
  unfold blockSize
  split <;> omega

/-- Every transaction is in one block. -/
theorem flatten_blocks : stream.blocks.flatten = stream.orderedTxIDs := by
  have hLength : stream.orderedTxIDs.length = stream.txCount := length_map _
  rcases Nat.eq_zero_or_pos stream.txCount with hZero | hPos
  · have hNil : stream.orderedTxIDs = [] := length_eq_zero_iff.mp (hLength.trans hZero)
    rw [blocks, hNil, splitBlocks]
    simp
  · exact flatten_splitBlocks _ (stream.blockSize_pos hPos) 0

/-- The number of blocks that both modes print, `none` for the division by zero. The
division is Go's, which cuts towards zero. -/
def nBlocks : Option Int :=
  if stream.blockSize = 0 then none
  else some ((stream.txCount + stream.blockSize - 1 : Int).tdiv stream.blockSize)

/-- The bounds `start` and `end` of each block, for both modes. -/
def blockRanges : List (Nat × Nat) := splitRanges stream.txCount stream.blockSize 0

/-- The blocks partition the stream. The indices of the ranges, one range after the other, are
those of the stream. -/
structure Partitioned : Prop where
  count : stream.nBlocks = some (stream.blockRanges.length : Int)
  nonempty : ∀ range ∈ stream.blockRanges, range.1 < range.2
  bounded : 0 < stream.txsPerBlock →
    ∀ range ∈ stream.blockRanges, (range.2 - range.1 : Int) ≤ stream.txsPerBlock
  single : stream.txsPerBlock ≤ 0 → stream.blockRanges.length = 1
  covered : stream.blockRanges.flatMap (fun range => List.range' range.1 (range.2 - range.1)) =
    List.range stream.txCount

theorem blocks_eq_ranges : stream.blocks = stream.blockRanges.map fun range =>
    (stream.orderedTxIDs.take range.2).drop range.1 := by
  have hLength : stream.orderedTxIDs.length = stream.txCount := length_map _
  rw [blocks, splitBlocks_eq_ranges, hLength]
  rfl

/-- A stream without a transaction divides by zero. Every other one is partitioned. -/
theorem partitioned_iff : stream.Partitioned ↔ 0 < stream.txCount := by
  constructor
  · intro partitioned
    by_contra h
    have hZero : stream.txCount = 0 := by omega
    have hSize : stream.blockSize = 0 := by
      unfold blockSize
      split <;> omega
    have hCount := partitioned.count
    rw [nBlocks, if_pos hSize] at hCount
    cases hCount
  · intro h
    have hSize := stream.blockSize_pos h
    have hLength := length_splitRanges stream.txCount 0 hSize
    refine ⟨?_, fun range hRange => (mem_splitRanges hRange).1, fun hPos range hRange => ?_,
      fun hNone => ?_, ?_⟩
    · rw [nBlocks, if_neg hSize.ne', blockRanges, hLength]
      have hCast : (stream.txCount + stream.blockSize - 1 : Int) =
          (stream.txCount - 0 + stream.blockSize - 1 : Nat) := by omega
      rw [hCast, ← Int.ofNat_tdiv]
    · have hLe : (stream.blockSize : Int) ≤ stream.txsPerBlock := by
        unfold blockSize
        split <;> omega
      have hBound := (mem_splitRanges hRange).2
      omega
    · have hAll : stream.blockSize = stream.txCount := if_pos (Or.inl hNone)
      rw [blockRanges, hLength, hAll]
      exact Nat.div_eq_of_lt_le (by omega) (by omega)
    · rw [blockRanges, splitRanges_covered _ _ hSize, List.range_eq_range']
      rfl

/-- A range of blocks without a transaction. -/
def emptyStream : ReplayStream Nat where
  witness := fun _ => 0
  txs := []
  Refs := []
  specs := []
  txsPerBlock := 2
  speculated := rfl
  distinct := nodup_nil
  hashes := not_mem_nil

theorem emptyStream_divides_by_zero : emptyStream.nBlocks = none := by
  decide

theorem prepared_routed : stream.prepared.Routed stream.orderedTxIDs := by
  have hLengths : stream.orderedTxIDs.length ≤
      (stream.specs.zip (RWSetsToRWNodes stream.specs)).length := by
    simp [orderedTxIDs, RWSetsToRWNodes, stream.speculated]
  have hIDs : (stream.orderedTxIDs.zip
      (stream.specs.zip (RWSetsToRWNodes stream.specs))).zipIdx.map (·.1.1) =
        stream.orderedTxIDs := by
    rw [show (fun entry : (String × Option StreamRWSet × List RWNode) × Nat => entry.1.1) =
      Prod.fst ∘ Prod.fst from rfl, ← map_map, zipIdx_map_fst,
      map_fst_zip hLengths]
  have hEmpty : Prepared.Routed [] .empty :=
    ⟨by simp, by simp [Prepared.empty], fun _ _ => rfl, by simp [Prepared.empty]⟩
  have hRouted := hEmpty.foldl (stream.orderedTxIDs.zip
    (stream.specs.zip (RWSetsToRWNodes stream.specs))).zipIdx (by rw [hIDs]; exact stream.distinct)
  rwa [hIDs, nil_append] at hRouted

/-- The contexts of the transactions of a block that have one. -/
def blockContexts (blockIDs : List String) : List TransactionContext :=
  blockIDs.filterMap stream.prepared.contexts

theorem blockContexts_sublist (blockIDs : List String) :
    ((stream.blockContexts blockIDs).map TransactionContext.TxID).Sublist blockIDs := by
  unfold blockContexts
  induction blockIDs with
  | nil => exact List.Sublist.slnil
  | cons txID blockIDs ih =>
    cases hCtx : stream.prepared.contexts txID with
    | none =>
      rw [filterMap_cons_none hCtx]
      exact ih.cons txID
    | some ctx =>
      rw [filterMap_cons_some hCtx, map_cons, stream.prepared_routed.context txID ctx hCtx]
      exact ih.cons_cons txID

theorem mem_blockContexts {blockIDs : List String} {txID : String} :
    txID ∈ (stream.blockContexts blockIDs).map TransactionContext.TxID ↔
      txID ∈ blockIDs ∧ stream.prepared.contexts txID ≠ none := by
  constructor
  · intro h
    obtain ⟨ctx, hCtx, rfl⟩ := mem_map.mp h
    obtain ⟨id, hId, hSome⟩ := mem_filterMap.mp hCtx
    rw [stream.prepared_routed.context id ctx hSome]
    exact ⟨hId, by rw [hSome]; exact Option.some_ne_none _⟩
  · rintro ⟨hId, hNe⟩
    obtain ⟨ctx, hCtx⟩ := Option.ne_none_iff_exists'.mp hNe
    exact mem_map.mpr ⟨ctx, mem_filterMap.mpr ⟨txID, hId, hCtx⟩,
      stream.prepared_routed.context txID ctx hCtx⟩

end ReplayStream
end Nezha
