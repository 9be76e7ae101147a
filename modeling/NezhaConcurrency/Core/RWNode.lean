import Mathlib

/-! Read and write nodes of captured transactions. A node belongs to one
transaction and names one storage slot of one contract. -/
namespace Nezha

/-- A byte slice, as the string that `ConvertByte2String` makes of it. -/
abbrev Bytes := String

inductive Label where
  | r
  | w
  deriving DecidableEq, Inhabited, Repr

structure RWSet where
  Key : Bytes
  Value : Bytes
  deriving DecidableEq, Inhabited, Repr

structure TransInfo where
  ID : String
  Timestamp : Nat
  deriving DecidableEq, Inhabited, Repr

/-- `Sequence` is zero until the node is sorted. -/
structure RWNode where
  RWSet : RWSet
  TransInfo : TransInfo
  Label : Label
  Sequence : Int
  isAssigned : Bool
  ContractName : String
  deriving DecidableEq, Inhabited, Repr

def ConvertByte2String (bytes : Bytes) : String := bytes

/-- The key under which conflicts are found: slots of different contracts differ. -/
def RWNode.CompositeKey (rw : RWNode) : String :=
  rw.ContractName ++ ":" ++ ConvertByte2String rw.RWSet.Key

/-- The nodes of one transaction, the reads first. Addresses and values come in pairs. -/
def CreateRWNode (id : String) (time : Nat) (contractName : String) (reads writes : List RWSet) :
    List RWNode :=
  reads.map (fun rSet => ⟨rSet, ⟨id, time⟩, .r, 0, false, contractName⟩) ++
    writes.map (fun wSet => ⟨wSet, ⟨id, time⟩, .w, 0, false, contractName⟩)

end Nezha
