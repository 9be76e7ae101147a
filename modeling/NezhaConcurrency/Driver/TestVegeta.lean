import NezhaConcurrency.Core.RWNode
import NezhaConcurrency.Driver.TestDepurge
import NezhaConcurrency.Driver.VegetaOrder

/-! `TestVegeta`. The speculative sets come from the captured nodes, the transactions
that have a context are ordered and batched by them, and the workers of a batch run
concurrently. A worker reads the committed state of its contract, re-executes its
transaction and applies the differences at once, so workers of one batch may see each
other. The next batch starts when all of them have returned. -/
namespace Nezha

/-- The captured transactions. The contexts are a map by transaction ID. -/
structure VegetaTest where
  contexts : List LLMContext
  distinct : (contexts.map (·.TxID)).Nodup
  txs : List (List RWNode)
  reExecutes : LLMContext → (String → Option (List UInt8)) → Option RealRWSet → Prop

/-- Where the worker of a transaction stands. -/
inductive VegetaPc where
  | start
  | snapshotted (ctx : LLMContext) (contractState : String → Option (List UInt8))
  | listing
  | applying (ctx : LLMContext) (result : RealRWSet)
  | returned (committed : Option RealRWSet)

structure VegetaTestState where
  pc : String → VegetaPc
  committedState : CommittedState
  serialReplayList : List String

namespace VegetaTestState

def init : VegetaTestState := ⟨fun _ => .start, fun _ => none, []⟩

def goto (s : VegetaTestState) (txID : String) (pc : VegetaPc) : VegetaTestState :=
  { s with pc := Function.update s.pc txID pc }

end VegetaTestState

namespace VegetaTest

variable (test : VegetaTest)

def contextIDs : List String := test.contexts.map (·.TxID)

/-- The nodes filed under an ID. The map keeps the last ones. -/
def txToNodes (txID : String) : Option (List RWNode) :=
  (test.txs.filter fun txNodes => txNodes.head?.any (·.TransInfo.ID = txID)).getLast?

/-- The keys of the nodes with a label. -/
def speculative (label : Label) (txID : String) : Option (List String) :=
  (test.txToNodes txID).map fun txNodes =>
    (txNodes.filter (·.Label = label)).map fun node => ConvertByte2String node.RWSet.Key

/-- The transactions that captured something. -/
def block : VegetaBlock where
  blockIDs := (test.txs.filterMap fun txNodes => txNodes.head?.map (·.TransInfo.ID)).dedup
  distinct := List.nodup_dedup _
  speculativeRS := test.speculative .r
  speculativeWS := test.speculative .w

/-- One order of the chains, and one in which the map of contexts is visited. -/
structure Order extends VegetaBlock.ChainOrder test.block where
  remaining : List String
  remaining_perm : remaining.Perm test.contextIDs

/-- The transactions of the chains that have a context, then the others. -/
def orderedTxs (order : test.Order) : List String :=
  uniqueKeys (order.chains.flatten.filter (· ∈ test.contextIDs) ++ order.remaining)

/-- The batches: in each round, the transactions that wait for nothing more. What comes of
a transaction makes no difference to them. -/
def batches (order : test.Order) : List (List String) :=
  (test.block.batchLoop (test.orderedTxs order) (fun (_ : Unit) _ => ())
    (test.orderedTxs order).length ()).batches

/-- What a worker does with the outcome of the re-execution. -/
def check (ctx : LLMContext) : Option RealRWSet → VegetaPc
  | none => .returned none
  | some result =>
    if result.realReadKeys.all (· ∈ test.block.blockRS ctx.TxID) &&
        result.realWriteKeys.all (· ∈ test.block.blockWS ctx.TxID) then .applying ctx result
    else .listing

/-- One atomic step of a worker of the batch. -/
inductive Step (batch : List String) : VegetaTestState → VegetaTestState → Prop where
  | noContext (s : VegetaTestState) (txID : String) (hBatch : txID ∈ batch)
      (hPc : s.pc txID = .start) (hNone : ∀ ctx ∈ test.contexts, ctx.TxID ≠ txID) :
      Step batch s (s.goto txID (.returned none))
  | snapshot (s : VegetaTestState) (ctx : LLMContext) (hBatch : ctx.TxID ∈ batch)
      (hPc : s.pc ctx.TxID = .start) (hCtx : ctx ∈ test.contexts) :
      Step batch s (s.goto ctx.TxID (.snapshotted ctx
        (filterContractState s.committedState ctx.ContractName)))
  | reExecute (s : VegetaTestState) (txID : String) (ctx : LLMContext)
      (contractState : String → Option (List UInt8)) (outcome : Option RealRWSet)
      (hPc : s.pc txID = .snapshotted ctx contractState)
      (hOutcome : test.reExecutes ctx contractState outcome) :
      Step batch s (s.goto txID (test.check ctx outcome))
  | append (s : VegetaTestState) (txID : String) (hPc : s.pc txID = .listing) :
      Step batch s { s.goto txID (.returned none) with
        serialReplayList := s.serialReplayList ++ [txID] }
  | apply (s : VegetaTestState) (txID : String) (ctx : LLMContext) (result : RealRWSet)
      (hPc : s.pc txID = .applying ctx result) :
      Step batch s { s.goto txID (.returned (some result)) with
        committedState :=
          updateCommittedState s.committedState ctx.ContractName result.writeDelta }

theorem mem_orderedTxs (order : test.Order) (txID : String) :
    txID ∈ test.orderedTxs order ↔ txID ∈ test.contextIDs := by
  rw [orderedTxs, mem_uniqueKeys, List.mem_append, List.mem_filter,
    order.remaining_perm.mem_iff, decide_eq_true_iff]
  exact ⟨fun h => h.elim And.right id, Or.inr⟩

/-- Each transaction that has a context is in one batch, and no other is. -/
theorem batches_perm (order : test.Order) : (test.batches order).flatten.Perm test.contextIDs := by
  have hOrdered : (test.orderedTxs order).Perm test.contextIDs :=
    (List.perm_ext_iff_of_nodup (nodup_uniqueKeys _) test.distinct).mpr (test.mem_orderedTxs order)
  exact (VegetaBlock.batchLoop_perm test.block _ _ le_rfl ()).trans hOrdered

end VegetaTest
end Nezha
