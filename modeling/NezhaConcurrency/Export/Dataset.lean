import NezhaConcurrency.Export.Witness
import NezhaConcurrency.Library.GoJson

/-! The files of a dataset, from the exporter that writes them to the reader of the
replay harness. The two declare their schemas apart from each other. A file is the
JSON value that is encoded in it, and the text of an error leaves out what the
operating system and the decoder add. -/
namespace Nezha.Dataset

open GoJson Function List

section Exporter

/-- The digits of a hash, with `0x` in front. -/
def Hex (digits : String) : String := "0x" ++ digits

/-- Hashes are given by their digits, big numbers by their texts. -/
structure Header where
  Number : UInt64
  Hash : String
  ParentHash : String
  Time : UInt64
  Coinbase : String
  GasLimit : UInt64
  BaseFee : String
  MixDigest : String
  Difficulty : String
  Nonce : String
  BlobGasUsed : Option UInt64
  ExcessBlobGas : Option UInt64

structure Transaction where
  Hash : String
  Nonce : UInt64
  From : String
  To : Option String
  Value : String
  Gas : UInt64
  Data : String
  V : String
  R : String
  S : String
  DynamicFee : Bool
  GasTipCap : Option String
  GasFeeCap : Option String
  GasPrice : Option String
  AccessList : Option GoJson.Value
  BlobHashes : Option (List String)

structure Block where
  Header : Header
  Transactions : List Transaction

def uint (n : UInt64) : Value := .num n.toNat

/-- An entry for a value that is not nil. -/
def entryOf {T : Type} (key : String) (encode : T → Value) : Option T → List (String × Value)
  | some x => [(key, encode x)]
  | none => []

def extractHeader (header : Header) : Value :=
  .obj ([("number", uint header.Number), ("hash", .str (Hex header.Hash)),
    ("parentHash", .str (Hex header.ParentHash)), ("timestamp", uint header.Time),
    ("beneficiary", .str (Hex header.Coinbase)), ("gasLimit", uint header.GasLimit),
    ("baseFeePerGas", .str (Hex header.BaseFee)), ("prevRandao", .str (Hex header.MixDigest)),
    ("difficulty", .str (Hex header.Difficulty)), ("nonce", .str header.Nonce)] ++
    entryOf "blobGasUsed" uint header.BlobGasUsed ++
    entryOf "excessBlobGas" uint header.ExcessBlobGas)

/-- The entries that depend on the type of the transaction. -/
def typedEntries (tx : Transaction) : List (String × Value) :=
  (if tx.DynamicFee then
    entryOf "maxPriorityFeePerGas" (fun fee => .str (Hex fee)) tx.GasTipCap ++
      entryOf "maxFeePerGas" (fun fee => .str (Hex fee)) tx.GasFeeCap
  else entryOf "gasPrice" (fun fee => .str (Hex fee)) tx.GasPrice) ++
  entryOf "accessList" id tx.AccessList ++
  entryOf "blobVersionedHashes" (fun hashes => .arr (hashes.map fun h => .str (Hex h))) tx.BlobHashes

/-- `hexNumber` is the number of the block in hexadecimal digits. -/
def txToMap (hexNumber : String) (tx : Transaction) : Value :=
  .obj ([("hash", .str (Hex tx.Hash)), ("nonce", uint tx.Nonce), ("from", .str (Hex tx.From)),
    ("value", .str (Hex tx.Value)), ("gas", uint tx.Gas), ("input", .str (Hex tx.Data)),
    ("v", .str (Hex tx.V)), ("r", .str (Hex tx.R)), ("s", .str (Hex tx.S)),
    ("blockNumber", .str (Hex hexNumber)),
    ("to", match tx.To with | some recipient => .str (Hex recipient) | none => .null)] ++
    typedEntries tx)

structure BlockDataset where
  Header : Value
  Transactions : List Value
  Witness : BlockWitness
  Canonical : List CanonicalReceipt
  RWSets : List TxRWSets

/-- The dataset of a block, if block and receipts could be fetched. A trace that failed is nil, and
without the first trace of a transaction the second is not asked for. -/
def exportBlock (block : Block) (hexNumber : String) (receipts : List (Option Receipt))
    (preTrace diffTrace : Nat → Option PrestateTracerResult) : BlockDataset :=
  let places := List.range block.Transactions.length
  let diffTraces := places.map fun i => (preTrace i).bind fun _ => diffTrace i
  let (witness, txRWSets, canonical) := BuildBlockWitness
    (block.Transactions.map fun tx => some (Hex tx.Hash)) (places.map preTrace) diffTraces receipts
  { Header := extractHeader block.Header
    Transactions := block.Transactions.map (txToMap hexNumber)
    Witness := witness
    Canonical := canonical
    RWSets := txRWSets }

def accountJson (acct : WitnessAccount) : Value :=
  let code : List (String × Value) := if acct.Code = "" then [] else [("code", .str acct.Code)]
  .obj ([("balance", .str acct.Balance), ("nonce", .str acct.Nonce),
    ("codeHash", .str acct.CodeHash)] ++ code ++
    [("storage", .obj (acct.Storage.entries.map fun slot => (slot.1, .str slot.2)))])

def receiptJson (receipt : CanonicalReceipt) : Value :=
  .obj [("txHash", .str receipt.TxHash), ("txIndex", .num receipt.TxIndex),
    ("status", .num receipt.Status), ("gasUsed", .num receipt.GasUsed),
    ("logsCount", .num receipt.LogsCount)]

def rwSetsEntries (sets : TxRWSets) : List (String × Value) :=
  [("txHash", .str sets.TxHash), ("txIndex", .num sets.TxIndex),
    ("readKeys", .arr (sets.ReadKeys.map .str)), ("writeKeys", .arr (sets.WriteKeys.map .str))]

def BlockDataset.json (dataset : BlockDataset) : Value :=
  .obj [("header", dataset.Header), ("transactions", .arr dataset.Transactions),
    ("witness", .obj [("accounts",
      .obj (dataset.Witness.Accounts.entries.map fun acct => (acct.1, accountJson acct.2)))]),
    ("canonical", .obj [("receipts", .arr (dataset.Canonical.map receiptJson))]),
    ("rwsets", .arr (dataset.RWSets.map fun sets => .obj (rwSetsEntries sets)))]

/-- The manifest and the files under `blocks`, by the number in their name. -/
structure Directory where
  manifest : Option Value
  blocks : UInt64 → Option Value

/-- `int(n)`. -/
def intOf (n : UInt64) : Int :=
  if n.toNat < 9223372036854775808 then n.toNat else n.toNat - 18446744073709551616

def NewDatasetManifest (fromBlock toBlock : UInt64) : Value :=
  .obj [("formatVersion", .num 1), ("chainId", .num 1), ("fromBlock", .num (intOf fromBlock)),
    ("toBlock", .num (intOf toBlock)), ("exportedAt", .str "2026-08-11T00:00:00Z"),
    ("stateAnchor", .str "pre-first-user-tx"), ("executionMode", .str "block-local-user-tx"),
    ("sourceClient", .str "alchemy"), ("hashWindow", .num 256)]

def Directory.WriteManifest (dir : Directory) (manifest : Value) : Directory :=
  { dir with manifest := some manifest }

def Directory.WriteBlock (dir : Directory) (blockNum : UInt64) (dataset : BlockDataset) :
    Directory :=
  { dir with blocks := update dir.blocks blockNum (some dataset.json) }

end Exporter

section Reader

structure RawTransaction where
  Hash : String
  From : String
  To : String
  Input : String
  Value : String
  deriving DecidableEq

structure DatasetManifest where
  FromBlock : Int
  ToBlock : Int
  ChainID : UInt64
  Note : String

structure RawRWSets where
  TxIndex : Int
  TxHash : String
  ReadKeys : List String
  WriteKeys : List String

structure BlockDatasetRaw where
  BlockNumber : UInt64
  BlockHash : String
  Timestamp : UInt64
  RWSets : List RawRWSets

structure ReplayRef where
  BlockNum : UInt64
  BlockHash : String
  TxIndex : Nat
  TxHash : String
  deriving DecidableEq

structure CanonicalRWSet where
  Ref : ReplayRef
  ReadKeys : List String
  WriteKeys : List String
  deriving DecidableEq

structure ReplayBlock where
  BlockNum : UInt64
  BlockHash : String
  Timestamp : UInt64
  TxCount : Nat
  Refs : List ReplayRef
  Canonical : List CanonicalRWSet
  deriving DecidableEq

def rawTransaction : Decoder RawTransaction := struct fun entries => do
  let hash ← field "hash" string "" entries
  let sender ← field "from" string "" entries
  let recipient ← field "to" string "" entries
  let input ← field "input" string "" entries
  let value ← field "value" string "" entries
  return ⟨hash, sender, recipient, input, value⟩

def manifest : Decoder DatasetManifest := struct fun entries => do
  let fromBlock ← field "fromBlock" int 0 entries
  let toBlock ← field "toBlock" int 0 entries
  let chainID ← field "chainID" uint64 0 entries
  let note ← field "note" string "" entries
  return ⟨fromBlock, toBlock, chainID, note⟩

def rawRWSets : Decoder RawRWSets := struct fun entries => do
  let txIndex ← field "txIndex" int 0 entries
  let txHash ← field "txHash" string "" entries
  let readKeys ← field "readKeys" (slice string "") [] entries
  let writeKeys ← field "writeKeys" (slice string "") [] entries
  return ⟨txIndex, txHash, readKeys, writeKeys⟩

def blockDatasetRaw : Decoder BlockDatasetRaw := struct fun entries => do
  let blockNumber ← field "blockNumber" uint64 0 entries
  let blockHash ← field "blockHash" string "" entries
  let timestamp ← field "timestamp" uint64 0 entries
  let rwsets ← field "rwsets" (slice rawRWSets ⟨0, "", [], []⟩) [] entries
  return ⟨blockNumber, blockHash, timestamp, rwsets⟩

/-- The transactions of a file. -/
def blockTxsRaw : Decoder (List RawTransaction) :=
  struct (field "transactions" (slice rawTransaction ⟨"", "", "", "", ""⟩) [])

structure DatasetReader where
  manifest : DatasetManifest
  cache : UInt64 → Option ReplayBlock
  txCache : UInt64 → Option (List RawTransaction)

def NewDatasetReader (dir : Directory) : Except String DatasetReader :=
  match dir.manifest with
  | none => .error "read manifest"
  | some value =>
    match Dataset.manifest ⟨0, 0, 0, ""⟩ value with
    | none => .error "parse manifest"
    | some m => .ok ⟨m, fun _ => none, fun _ => none⟩

/-- `uint64(n)`. -/
def uint64Of (n : Int) : UInt64 := UInt64.ofNat (n % 18446744073709551616).toNat

/-- What both loads do before they decode. -/
def readBlock (dir : Directory) (m : DatasetManifest) (blockNum : UInt64) : Except String Value :=
  if blockNum < uint64Of m.FromBlock ∨ blockNum > uint64Of m.ToBlock then
    .error ("block " ++ toString blockNum ++ " outside manifest [" ++ toString m.FromBlock ++ "," ++
      toString m.ToBlock ++ "]")
  else
    match dir.blocks blockNum with
    | none => .error ("open block " ++ toString blockNum)
    | some value => .ok value

def replayBlock (blockNum : UInt64) (rawBlock : BlockDatasetRaw) : ReplayBlock :=
  let ref := fun (tr : RawRWSets) (i : Nat) => ReplayRef.mk blockNum rawBlock.BlockHash i tr.TxHash
  { BlockNum := blockNum
    BlockHash := rawBlock.BlockHash
    Timestamp := rawBlock.Timestamp
    TxCount := rawBlock.RWSets.length
    Refs := rawBlock.RWSets.mapIdx fun i tr => ref tr i
    Canonical := rawBlock.RWSets.mapIdx fun i tr => ⟨ref tr i, tr.ReadKeys, tr.WriteKeys⟩ }

/-- A block that is not cached. -/
def decodeBlock (dir : Directory) (m : DatasetManifest) (blockNum : UInt64) :
    Except String ReplayBlock := do
  let value ← readBlock dir m blockNum
  match blockDatasetRaw ⟨0, "", 0, []⟩ value with
  | none => .error ("parse block " ++ toString blockNum ++ " json")
  | some rawBlock => .ok (replayBlock blockNum rawBlock)

def decodeTxs (dir : Directory) (m : DatasetManifest) (blockNum : UInt64) :
    Except String (List RawTransaction) := do
  let value ← readBlock dir m blockNum
  match blockTxsRaw [] value with
  | none => .error ("parse block " ++ toString blockNum ++ " transactions")
  | some txs => .ok txs

theorem decodeBlock_ok {dir : Directory} {m : DatasetManifest} {n : UInt64} {value : Value}
    {rawBlock : BlockDatasetRaw} (hRead : readBlock dir m n = .ok value)
    (hRaw : blockDatasetRaw ⟨0, "", 0, []⟩ value = some rawBlock) :
    decodeBlock dir m n = .ok (replayBlock n rawBlock) := by
  rw [decodeBlock, hRead]
  change (match blockDatasetRaw ⟨0, "", 0, []⟩ value with
    | none => Except.error _
    | some rawBlock => Except.ok (replayBlock n rawBlock)) = _
  rw [hRaw]

theorem decodeTxs_ok {dir : Directory} {m : DatasetManifest} {n : UInt64} {value : Value}
    {txs : List RawTransaction} (hRead : readBlock dir m n = .ok value)
    (hRaw : blockTxsRaw [] value = some txs) : decodeTxs dir m n = .ok txs := by
  rw [decodeTxs, hRead]
  change (match blockTxsRaw [] value with
    | none => Except.error _
    | some txs => Except.ok txs) = _
  rw [hRaw]

namespace DatasetReader

variable (dr : DatasetReader) (dir : Directory) (blockNum : UInt64)

def LoadBlock : Except String ReplayBlock × DatasetReader :=
  match dr.cache blockNum with
  | some blk => (.ok blk, dr)
  | none =>
    match decodeBlock dir dr.manifest blockNum with
    | .error err => (.error err, dr)
    | .ok blk => (.ok blk, { dr with cache := update dr.cache blockNum (some blk) })

def LoadBlockTxs : Except String (List RawTransaction) × DatasetReader :=
  match dr.txCache blockNum with
  | some txs => (.ok txs, dr)
  | none =>
    match decodeTxs dir dr.manifest blockNum with
    | .error err => (.error err, dr)
    | .ok txs => (.ok txs, { dr with txCache := update dr.txCache blockNum (some txs) })

end DatasetReader

end Reader

section Manifest

theorem uint64Of_intOf (n : UInt64) : uint64Of (intOf n) = n := by
  have hLt := n.toNat_lt
  have hNat : (intOf n % 18446744073709551616).toNat = n.toNat := by
    unfold intOf
    split <;> omega
  rw [uint64Of, hNat, UInt64.ofNat_toNat]

theorem int_intOf (current : Int) (n : UInt64) : int current (.num (intOf n)) = some (intOf n) := by
  have hLt := n.toNat_lt
  refine if_pos ?_
  unfold intOf
  split <;> omega

theorem newDatasetReader_manifest {dir : Directory} {fromBlock toBlock : UInt64}
    (h : dir.manifest = some (NewDatasetManifest fromBlock toBlock)) :
    NewDatasetReader dir =
      .ok ⟨⟨intOf fromBlock, intOf toBlock, 1, ""⟩, fun _ => none, fun _ => none⟩ := by
  have hDecode : manifest ⟨0, 0, 0, ""⟩ (NewDatasetManifest fromBlock toBlock) =
      some ⟨intOf fromBlock, intOf toBlock, 1, ""⟩ := by
    simp (disch := decide +kernel) only [manifest, NewDatasetManifest, struct, field,
      matching_cons_of_ne, matching_cons_self, matching_nil, foldlM_cons, foldlM_nil,
      int_intOf]
    rfl
  rw [NewDatasetReader, h]
  simp only [hDecode]

end Manifest

section Caches

/-- A cached block is what the file holds. -/
structure Coherent (dir : Directory) (dr : DatasetReader) : Prop where
  cache : ∀ n blk, dr.cache n = some blk → decodeBlock dir dr.manifest n = .ok blk
  txCache : ∀ n txs, dr.txCache n = some txs → decodeTxs dir dr.manifest n = .ok txs

variable {dir : Directory} {dr : DatasetReader}

theorem coherent_opened (dir : Directory) (m : DatasetManifest) :
    Coherent dir ⟨m, fun _ => none, fun _ => none⟩ where
  cache := fun _ _ h => nomatch h
  txCache := fun _ _ h => nomatch h

theorem Coherent.loadBlock (coherent : Coherent dir dr) (n : UInt64) :
    (dr.LoadBlock dir n).1 = decodeBlock dir dr.manifest n ∧
      Coherent dir (dr.LoadBlock dir n).2 ∧ (dr.LoadBlock dir n).2.manifest = dr.manifest := by
  unfold DatasetReader.LoadBlock
  cases hCache : dr.cache n with
  | some blk => exact ⟨(coherent.cache n blk hCache).symm, coherent, rfl⟩
  | none =>
    cases hDecode : decodeBlock dir dr.manifest n with
    | error err => exact ⟨rfl, coherent, rfl⟩
    | ok blk =>
      refine ⟨rfl, ⟨fun m other hOther => ?_, coherent.txCache⟩, rfl⟩
      by_cases hSame : m = n
      · subst hSame
        simp only [update_self, Option.some.injEq] at hOther
        exact hOther ▸ hDecode
      · simp only [update_of_ne hSame] at hOther
        exact coherent.cache m other hOther

theorem Coherent.loadBlockTxs (coherent : Coherent dir dr) (n : UInt64) :
    (dr.LoadBlockTxs dir n).1 = decodeTxs dir dr.manifest n ∧
      Coherent dir (dr.LoadBlockTxs dir n).2 ∧
      (dr.LoadBlockTxs dir n).2.manifest = dr.manifest := by
  unfold DatasetReader.LoadBlockTxs
  cases hCache : dr.txCache n with
  | some txs => exact ⟨(coherent.txCache n txs hCache).symm, coherent, rfl⟩
  | none =>
    cases hDecode : decodeTxs dir dr.manifest n with
    | error err => exact ⟨rfl, coherent, rfl⟩
    | ok txs =>
      refine ⟨rfl, ⟨coherent.cache, fun m other hOther => ?_⟩, rfl⟩
      by_cases hSame : m = n
      · subst hSame
        simp only [update_self, Option.some.injEq] at hOther
        exact hOther ▸ hDecode
      · simp only [update_of_ne hSame] at hOther
        exact coherent.txCache m other hOther

/-- The calls of a client. -/
inductive Load where
  | block (n : UInt64)
  | txs (n : UInt64)

def Load.run (dir : Directory) (dr : DatasetReader) : Load → DatasetReader
  | .block n => (dr.LoadBlock dir n).2
  | .txs n => (dr.LoadBlockTxs dir n).2

theorem Coherent.run (coherent : Coherent dir dr) (loads : List Load) :
    Coherent dir (loads.foldl (Load.run dir) dr) ∧
      (loads.foldl (Load.run dir) dr).manifest = dr.manifest := by
  induction loads generalizing dr with
  | nil => exact ⟨coherent, rfl⟩
  | cons load loads ih =>
    have hStep : Coherent dir (load.run dir dr) ∧ (load.run dir dr).manifest = dr.manifest := by
      cases load with
      | block n => exact (coherent.loadBlock n).2
      | txs n => exact (coherent.loadBlockTxs n).2
    obtain ⟨hRun, hSame⟩ := ih hStep.1
    exact ⟨hRun, hSame.trans hStep.2⟩

end Caches

section Blocks

variable (block : Block) (hexNumber : String) (receipts : List (Option Receipt))
  (preTrace diffTrace : Nat → Option PrestateTracerResult)

theorem map_mapIdx {Item Placed Result : Type} {place : Nat → Item → Placed}
    {look : Placed → Result} {result : Item → Result}
    (h : ∀ i item, look (place i item) = result item) (items : List Item) :
    (items.mapIdx place).map look = items.map result := by
  refine ext_getElem? fun i => ?_
  rw [getElem?_map, getElem?_mapIdx, getElem?_map, Option.map_map]
  cases items[i]? with
  | none => rfl
  | some item => exact congrArg some (h i item)

theorem traceStep_rwsets (txs : List (Option String))
    (diffTraces : List (Option PrestateTracerResult))
    (traces : List (Option PrestateTracerResult × Nat))
    (state : BlockWitness × List TxRWSets) :
    (traces.foldl (traceStep txs diffTraces) state).2.map
        (fun sets => (sets.TxHash, sets.TxIndex)) =
      state.2.map (fun sets => (sets.TxHash, sets.TxIndex)) ++
        traces.map fun trace => (txHash txs trace.2, trace.2) := by
  induction traces generalizing state with
  | nil => simp
  | cons trace traces ih =>
    rw [foldl_cons, ih]
    cases hTrace : trace.1 with
    | none => simp [traceStep, hTrace]
    | some result => simp [traceStep, hTrace]

theorem exportBlock_rwsets : (exportBlock block hexNumber receipts preTrace diffTrace).RWSets.map
        (fun sets => (sets.TxHash, sets.TxIndex)) =
      block.Transactions.mapIdx fun i tx => (Hex tx.Hash, i) := by
  unfold exportBlock BuildBlockWitness
  simp only
  rw [traceStep_rwsets]
  refine ext_getElem? fun i => ?_
  by_cases hi : i < block.Transactions.length
  · simp [txHash, hi]
  · simp [hi]

theorem matching_rwSetsEntries (sets : TxRWSets) :
    matching "txIndex" (rwSetsEntries sets) = [.num sets.TxIndex] ∧
    matching "txHash" (rwSetsEntries sets) = [.str sets.TxHash] ∧
    matching "readKeys" (rwSetsEntries sets) = [.arr (sets.ReadKeys.map .str)] ∧
    matching "writeKeys" (rwSetsEntries sets) = [.arr (sets.WriteKeys.map .str)] := by
  simp (disch := decide +kernel) only [rwSetsEntries, matching_cons_of_ne, matching_cons_self,
    matching_nil, and_self]

theorem rawRWSets_json {sets : TxRWSets} (hIndex : sets.TxIndex < 2 ^ 63) :
    rawRWSets ⟨0, "", [], []⟩ (.obj (rwSetsEntries sets)) =
      some ⟨sets.TxIndex, sets.TxHash, sets.ReadKeys, sets.WriteKeys⟩ := by
  obtain ⟨hIndexKey, hHashKey, hReadKey, hWriteKey⟩ := matching_rwSetsEntries sets
  have hTxIndex : field "txIndex" int 0 (rwSetsEntries sets) = some (sets.TxIndex : Int) :=
    (field_of_matching hIndexKey).trans (int_natCast 0 hIndex)
  have hTxHash : field "txHash" string "" (rwSetsEntries sets) = some sets.TxHash :=
    field_of_matching hHashKey
  have hReadKeys : field "readKeys" (slice string "") [] (rwSetsEntries sets) =
      some sets.ReadKeys :=
    (field_of_matching hReadKey).trans (slice_str _ _)
  have hWriteKeys : field "writeKeys" (slice string "") [] (rwSetsEntries sets) =
      some sets.WriteKeys :=
    (field_of_matching hWriteKey).trans (slice_str _ _)
  rw [rawRWSets, struct_obj, hTxIndex, hTxHash, hReadKeys, hWriteKeys]
  rfl

/-- The keys of a file are not the ones that the reader looks for, apart from `rwsets`. -/
theorem blockDatasetRaw_json {dataset : BlockDataset}
    (hIndices : ∀ sets ∈ dataset.RWSets, sets.TxIndex < 2 ^ 63) :
    blockDatasetRaw ⟨0, "", 0, []⟩ dataset.json = some ⟨0, "", 0, dataset.RWSets.map fun sets =>
      ⟨sets.TxIndex, sets.TxHash, sets.ReadKeys, sets.WriteKeys⟩⟩ := by
  have hSets := slice_map (fun sets : TxRWSets => (⟨sets.TxIndex, sets.TxHash, sets.ReadKeys,
    sets.WriteKeys⟩ : RawRWSets)) (fun sets h => rawRWSets_json (hIndices sets h)) []
  simp (disch := decide +kernel) only [blockDatasetRaw, BlockDataset.json, struct, field,
    matching_cons_of_ne, matching_cons_self, matching_nil, foldlM_cons, foldlM_nil, hSets]
  rfl

theorem matching_entryOf {T : Type} {key name : String} (encode : T → Value) (x : Option T)
    (h : GoString.ToLower key ≠ GoString.ToLower name) :
    matching name (entryOf key encode x) = [] := by
  cases x with
  | none => rfl
  | some x => rw [entryOf, matching_cons_of_ne h, matching_nil]

theorem matching_typedEntries (tx : Transaction) :
    ∀ name ∈ ["hash", "from", "to", "input", "value"], matching name (typedEntries tx) = [] := by
  intro name hName
  have hKeys : ∀ key ∈ ["maxPriorityFeePerGas", "maxFeePerGas", "gasPrice", "accessList",
      "blobVersionedHashes"], ∀ name ∈ ["hash", "from", "to", "input", "value"],
      GoString.ToLower key ≠ GoString.ToLower name := by
    decide +kernel
  unfold typedEntries
  split <;>
    simp [matching_append, matching_entryOf _ _ (hKeys _ _ name hName)]

/-- What the reader finds of a transaction. -/
def Transaction.raw (tx : Transaction) : RawTransaction :=
  ⟨Hex tx.Hash, Hex tx.From, (tx.To.map Hex).getD "", Hex tx.Data, Hex tx.Value⟩

theorem rawTransaction_txToMap (tx : Transaction) :
    rawTransaction ⟨"", "", "", "", ""⟩ (txToMap hexNumber tx) = some tx.raw := by
  have hTyped := matching_typedEntries tx
  simp (disch := decide +kernel) only [rawTransaction, txToMap, struct, field, matching_append,
    matching_cons_of_ne, matching_cons_self, matching_nil, hTyped "hash" (by simp),
    hTyped "from" (by simp), hTyped "to" (by simp), hTyped "input" (by simp),
    hTyped "value" (by simp), append_nil, foldlM_cons, foldlM_nil]
  unfold Transaction.raw
  cases tx.To <;> rfl

/-- What the reader should return for a block. -/
structure ReadBack (block : Block) (blk : ReplayBlock) (txs : List RawTransaction) : Prop where
  hash : blk.BlockHash = Hex block.Header.Hash
  timestamp : blk.Timestamp = block.Header.Time
  count : blk.Refs.length = block.Transactions.length
  aligned : ∀ (i : Nat) (ref : ReplayRef) (tx : RawTransaction), blk.Refs[i]? = some ref →
    txs[i]? = some tx → ref.TxHash = tx.Hash

theorem hex_ne_empty (digits : String) : Hex digits ≠ "" := by
  intro h
  have hLists := congrArg String.toList h
  simp [Hex] at hLists

section File

variable {dir : Directory} {fromBlock toBlock n : UInt64} {value : Value}
  (hFile : dir.blocks n = some value) (hRange : fromBlock ≤ n ∧ n ≤ toBlock)

include hFile hRange

theorem readBlock_ok : readBlock dir ⟨intOf fromBlock, intOf toBlock, 1, ""⟩ n = .ok value := by
  have hIn : ¬ (n < uint64Of (intOf fromBlock) ∨ n > uint64Of (intOf toBlock)) := by
    rw [uint64Of_intOf, uint64Of_intOf]
    exact not_or.mpr ⟨UInt64.not_lt.mpr hRange.1, UInt64.not_lt.mpr hRange.2⟩
  rw [readBlock, if_neg hIn, hFile]

end File

theorem decodeBlock_export {dir : Directory} {fromBlock toBlock n : UInt64} (hFile : dir.blocks n =
      some (exportBlock block hexNumber receipts preTrace diffTrace).json)
    (hRange : fromBlock ≤ n ∧ n ≤ toBlock) (hLength : block.Transactions.length < 2 ^ 63) :
    ∃ blk, decodeBlock dir ⟨intOf fromBlock, intOf toBlock, 1, ""⟩ n = .ok blk ∧
      blk.BlockHash = "" ∧ blk.Timestamp = 0 ∧
      blk.Refs.map ReplayRef.TxHash = block.Transactions.map fun tx => Hex tx.Hash := by
  have hSets := exportBlock_rwsets block hexNumber receipts preTrace diffTrace
  generalize exportBlock block hexNumber receipts preTrace diffTrace = dataset at hFile hSets
  have hIndices : ∀ sets ∈ dataset.RWSets, sets.TxIndex < 2 ^ 63 := by
    intro sets hMem
    have hPair := mem_map_of_mem (f := fun sets => (sets.TxHash, sets.TxIndex)) hMem
    rw [hSets] at hPair
    obtain ⟨i, hi, hEq⟩ := mem_mapIdx.mp hPair
    rw [← (Prod.mk.inj hEq).2]
    omega
  have hDecode : decodeBlock dir ⟨intOf fromBlock, intOf toBlock, 1, ""⟩ n =
      .ok (replayBlock n ⟨0, "", 0, dataset.RWSets.map fun sets =>
        ⟨sets.TxIndex, sets.TxHash, sets.ReadKeys, sets.WriteKeys⟩⟩) :=
    decodeBlock_ok (readBlock_ok hFile hRange) (blockDatasetRaw_json hIndices)
  refine ⟨_, hDecode, rfl, rfl, ?_⟩
  calc _ = (dataset.RWSets.map fun sets => (⟨sets.TxIndex, sets.TxHash, sets.ReadKeys,
          sets.WriteKeys⟩ : RawRWSets)).map RawRWSets.TxHash := map_mapIdx (by intro _ _; rfl) _
    _ = (dataset.RWSets.map fun sets => (sets.TxHash, sets.TxIndex)).map Prod.fst := by
        rw [map_map, map_map]
        rfl
    _ = (block.Transactions.mapIdx fun i tx => (Hex tx.Hash, i)).map Prod.fst := by rw [hSets]
    _ = _ := map_mapIdx (by intro _ _; rfl) _

theorem decodeTxs_export {dir : Directory} {fromBlock toBlock n : UInt64} (hFile : dir.blocks n =
      some (exportBlock block hexNumber receipts preTrace diffTrace).json)
    (hRange : fromBlock ≤ n ∧ n ≤ toBlock) :
    decodeTxs dir ⟨intOf fromBlock, intOf toBlock, 1, ""⟩ n =
      .ok (block.Transactions.map Transaction.raw) := by
  have hTxs : slice rawTransaction ⟨"", "", "", "", ""⟩ []
      (.arr (block.Transactions.map (txToMap hexNumber))) =
        some (block.Transactions.map Transaction.raw) :=
    slice_map _ (fun tx _ => rawTransaction_txToMap hexNumber tx) []
  have hField : blockTxsRaw [] (exportBlock block hexNumber receipts preTrace diffTrace).json =
      some (block.Transactions.map Transaction.raw) :=
    (struct_obj _ _).trans ((field_of_matching (by
      simp (disch := decide +kernel) only [matching_cons_of_ne, matching_cons_self, matching_nil]
      rfl)).trans hTxs)
  exact decodeTxs_ok (readBlock_ok hFile hRange) hField

/-- A reader of the dataset, after any loads, returns the references of the transactions
in their order, and a block without hash and time. -/
theorem loadBlock_drops_header (dir : Directory) (fromBlock toBlock n : UInt64)
    (hManifest : dir.manifest = some (NewDatasetManifest fromBlock toBlock))
    (hFile : dir.blocks n = some (exportBlock block hexNumber receipts preTrace diffTrace).json)
    (hRange : fromBlock ≤ n ∧ n ≤ toBlock) (hLength : block.Transactions.length < 2 ^ 63)
    (loads : List Load) :
    ∃ opened blk txs, NewDatasetReader dir = .ok opened ∧
      ((loads.foldl (Load.run dir) opened).LoadBlock dir n).1 = .ok blk ∧
      ((loads.foldl (Load.run dir) opened).LoadBlockTxs dir n).1 = .ok txs ∧
      blk.Refs.length = block.Transactions.length ∧
      (∀ (i : Nat) (ref : ReplayRef) (tx : RawTransaction), blk.Refs[i]? = some ref →
        txs[i]? = some tx → ref.TxHash = tx.Hash) ∧
      (blk.Timestamp = block.Header.Time ↔ block.Header.Time = 0) ∧
      ¬ ReadBack block blk txs := by
  obtain ⟨blk, hBlock, hHash, hTime, hRefs⟩ :=
    decodeBlock_export block hexNumber receipts preTrace diffTrace hFile hRange hLength
  have hTxs := decodeTxs_export block hexNumber receipts preTrace diffTrace hFile hRange
  obtain ⟨hCoherent, hSame⟩ :=
    (coherent_opened dir ⟨intOf fromBlock, intOf toBlock, 1, ""⟩).run loads
  refine ⟨_, blk, block.Transactions.map Transaction.raw, newDatasetReader_manifest hManifest,
    ?_, ?_, ?_, ?_, ?_, ?_⟩
  · rw [(hCoherent.loadBlock n).1, hSame]
    exact hBlock
  · rw [(hCoherent.loadBlockTxs n).1, hSame]
    exact hTxs
  · simpa using congrArg List.length hRefs
  · intro i ref tx hRef hTx
    have hPlace := congrArg (fun hashes => hashes[i]?) hRefs
    simp only [getElem?_map, hRef, Option.map_some] at hPlace hTx
    obtain ⟨original, hOriginal, rfl⟩ := Option.map_eq_some_iff.mp hTx
    rw [hOriginal] at hPlace
    exact Option.some.inj hPlace
  · rw [hTime]
    exact eq_comm
  · intro back
    exact hex_ne_empty _ (back.hash.symm.trans hHash)

end Blocks

section OneBlock

def oneTransfer : Block where
  Header := ⟨5, "b1", "b0", 1700000000, "c0", 30000000, "7", "d0", "0", "00", none, none⟩
  Transactions := [⟨"aa", 0, "f0", some "e0", "1", 21000, "", "0", "1", "2", false, none, none,
    some "7", none, none⟩]

/-- A dataset of block 5, whose traces failed. -/
def oneFile : Directory :=
  (Directory.WriteManifest ⟨none, fun _ => none⟩ (NewDatasetManifest 5 5)).WriteBlock 5
    (exportBlock oneTransfer "5" [] (fun _ => none) fun _ => none)

/-- The header has hash `0xb1` and time 1700000000. -/
theorem oneFile_header_lost :
    ((NewDatasetReader oneFile).toOption.bind fun dr => (dr.LoadBlock oneFile 5).1.toOption.map
      fun blk => (blk.BlockHash, blk.Timestamp, blk.Refs.map ReplayRef.TxHash)) =
    some ("", 0, ["0xaa"]) := by
  decide +kernel

theorem oneFile_not_readBack : ∃ opened blk txs, NewDatasetReader oneFile = .ok opened ∧
      (opened.LoadBlock oneFile 5).1 = .ok blk ∧ (opened.LoadBlockTxs oneFile 5).1 = .ok txs ∧
      ¬ ReadBack oneTransfer blk txs := by
  obtain ⟨opened, blk, txs, hOpen, hBlock, hTxs, _, _, _, hNot⟩ :=
    loadBlock_drops_header oneTransfer "5" [] (fun _ => none) (fun _ => none) oneFile 5 5 5
      rfl rfl (by decide) (by decide) []
  exact ⟨opened, blk, txs, hOpen, hBlock, hTxs, hNot⟩

end OneBlock

end Nezha.Dataset
