import NezhaConcurrency.Export.Witness

/-! The speculative execution of one transaction by the replay daemon. Gas is bought
before the call and settled after it. The state database is geth's, so a snapshot
is taken to be the state itself, and the EVM is whatever it does to the tracked state. -/
namespace Nezha.Replayd

abbrev Address := Nat

abbrev Uint256 := BitVec 256

structure Account where
  Nonce : UInt64
  Balance : Uint256
  Code : List UInt8
  Storage : Nat → Nat

/-- An account that does not exist has no entry. -/
abbrev StateDB := Address → Option Account

/-- What the code uses of the packages `common` and `uint256`. -/
structure Packages where
  HexToAddress : String → Address
  Hex : Address → String
  SetFromHex : String → Option Uint256
  FromHex : String → List UInt8

structure ChainConfig where
  IsHomestead : UInt64 → Bool
  IsIstanbul : UInt64 → Bool

structure BlockEnv where
  BlockNumber : UInt64
  Timestamp : UInt64
  GasLimit : UInt64
  BaseFee : Option Int
  PrevRandao : Nat
  Coinbase : Address
  BlockHashWindow : UInt64 → Option Nat

/-- The entries of the decoded transaction that have the type the code asks for. A
number is what `uint64` makes of it. -/
structure TxMap where
  Hash : Option String
  From : Option String
  To : Option String
  Value : Option String
  Gas : Option UInt64
  GasPrice : Option String
  MaxFeePerGas : Option String
  Input : Option String
  Nonce : Option UInt64

structure PreExecResult where
  TxIndex : Int
  TxHash : String
  Success : Bool
  GasUsed : UInt64
  ReadKeys : List String
  WriteKeys : List String
  Error : String

namespace StateDB

variable (db : StateDB) (addr : Address)

def getOrNewStateObject : Account := (db addr).getD ⟨0, 0, [], fun _ => 0⟩

def GetNonce : UInt64 := (db.getOrNewStateObject addr).Nonce

def GetBalance : Uint256 := (db.getOrNewStateObject addr).Balance

def SetNonce (nonce : UInt64) : StateDB :=
  Function.update db addr (some { db.getOrNewStateObject addr with Nonce := nonce })

def SetBalance (value : Uint256) : StateDB :=
  Function.update db addr (some { db.getOrNewStateObject addr with Balance := value })

variable {db addr}

@[simp] theorem getBalance_setBalance_self (value : Uint256) :
    (db.SetBalance addr value).GetBalance addr = value := by
  simp [SetBalance, GetBalance, getOrNewStateObject]

@[simp] theorem getBalance_setBalance_of_ne {other : Address} (h : other ≠ addr) (value : Uint256) :
    (db.SetBalance addr value).GetBalance other = db.GetBalance other := by
  simp [SetBalance, GetBalance, getOrNewStateObject, h]

@[simp] theorem getBalance_setNonce (nonce : UInt64) (other : Address) :
    (db.SetNonce addr nonce).GetBalance other = db.GetBalance other := by
  by_cases h : other = addr
  · subst h
    simp [SetNonce, GetBalance, getOrNewStateObject]
  · simp [SetNonce, GetBalance, getOrNewStateObject, h]

end StateDB

/-- The state and the keys that were read and written. -/
structure rwTracker where
  StateDB : Replayd.StateDB
  reads : List String
  writes : List String

namespace rwTracker

def newRWTracker (inner : Replayd.StateDB) : rwTracker := ⟨inner, [], []⟩

variable (packages : Packages) (t : rwTracker) (addr : Address)

def SortedReadKeys : List String := sortedKeys t.reads

def SortedWriteKeys : List String := sortedKeys t.writes

def addRead (key : String) : rwTracker := { t with reads := t.reads ++ [key] }

def addWrite (key : String) : rwTracker := { t with writes := t.writes ++ [key] }

def balanceKey : String := AcctKey (packages.Hex addr) "balance"

def nonceKey : String := AcctKey (packages.Hex addr) "nonce"

def GetNonce : UInt64 × rwTracker :=
  (t.StateDB.GetNonce addr, t.addRead (nonceKey packages addr))

def SetNonce (nonce : UInt64) : rwTracker :=
  { (t.addRead (nonceKey packages addr)).addWrite (nonceKey packages addr) with
    StateDB := t.StateDB.SetNonce addr nonce }

def GetBalance : Uint256 × rwTracker :=
  (t.StateDB.GetBalance addr, t.addRead (balanceKey packages addr))

/-- Both operations on a balance, by the balance they leave. -/
def setBalance (value : Uint256) : rwTracker :=
  { (t.addRead (balanceKey packages addr)).addWrite (balanceKey packages addr) with
    StateDB := t.StateDB.SetBalance addr value }

def SubBalance (value : Uint256) : rwTracker :=
  t.setBalance packages addr (t.StateDB.GetBalance addr - value)

def AddBalance (value : Uint256) : rwTracker :=
  t.setBalance packages addr (t.StateDB.GetBalance addr + value)

/-- The keys stay. -/
def RevertToSnapshot (snapshot : Replayd.StateDB) : rwTracker := { t with StateDB := snapshot }

end rwTracker

section IntrinsicGas

def TxGas : UInt64 := 21000

def TxGasContractCreation : UInt64 := 53000

def TxDataNonZeroGasFrontier : UInt64 := 68

def TxDataNonZeroGasEIP2028 : UInt64 := 16

def TxDataZeroGas : UInt64 := 4

/-- The product, and whether it overflowed. -/
def mulUint64 (a b : UInt64) : UInt64 × Bool :=
  if a = 0 ∨ b = 0 then (0, false) else (a * b, a ≠ a * b / b)

def addUint64 (a b : UInt64) : UInt64 × Bool := (a + b, a + b < a)

/-- A result that overflowed is an error. -/
def unlessOverflow (r : UInt64 × Bool) : Except String UInt64 :=
  if r.2 then .error "intrinsic gas overflow" else .ok r.1

def simpleIntrinsicGas (data : List UInt8) (contractCreation homestead isEIP2028 : Bool) :
    Except String UInt64 :=
  let gas := if contractCreation && homestead then TxGasContractCreation else TxGas
  if data.length = 0 then .ok gas
  else do
    let nz := UInt64.ofNat (data.countP (· ≠ 0))
    let nonZeroGas := if isEIP2028 then TxDataNonZeroGasEIP2028 else TxDataNonZeroGasFrontier
    let z := UInt64.ofNat data.length - nz
    let gasNonZero ← unlessOverflow (mulUint64 nonZeroGas nz)
    let gasZero ← unlessOverflow (mulUint64 TxDataZeroGas z)
    let next ← unlessOverflow (addUint64 gas gasNonZero)
    unlessOverflow (addUint64 next gasZero)

/-- The cost as a number, with no bound. -/
def intrinsicCost (data : List UInt8) (contractCreation homestead isEIP2028 : Bool) : Nat :=
  (if contractCreation && homestead then TxGasContractCreation else TxGas).toNat +
    (if isEIP2028 then TxDataNonZeroGasEIP2028 else TxDataNonZeroGasFrontier).toNat *
      data.countP (· ≠ 0) + TxDataZeroGas.toNat * data.countP (· = 0)

/-- A number that fits in 64 bits, or the error. -/
def exactGas (n : Nat) : Except String UInt64 :=
  if n < 2 ^ 64 then .ok (UInt64.ofNat n) else .error "intrinsic gas overflow"

/-- The operation returned a number if it fits, and otherwise reported the overflow. -/
structure ExactOrOverflow (r : UInt64 × Bool) (n : Nat) : Prop where
  overflow : r.2 = true ↔ 2 ^ 64 ≤ n
  value : n < 2 ^ 64 → r.1.toNat = n

theorem ExactOrOverflow.unlessOverflow {r : UInt64 × Bool} {n : Nat}
    (exact : ExactOrOverflow r n) : unlessOverflow r = exactGas n := by
  unfold Replayd.unlessOverflow exactGas
  by_cases h : n < 2 ^ 64
  · have hFlag : ¬r.2 = true := fun hOver => absurd (exact.overflow.mp hOver) (Nat.not_le.mpr h)
    rw [if_neg hFlag, if_pos h, ← exact.value h, UInt64.ofNat_toNat]
  · rw [if_pos (exact.overflow.mpr (Nat.not_lt.mp h)), if_neg h]

theorem addUint64_exact (a b : UInt64) : ExactOrOverflow (addUint64 a b) (a.toNat + b.toNat) := by
  have ha := a.toNat_lt
  have hb := b.toNat_lt
  constructor
  · simp only [addUint64, decide_eq_true_eq, UInt64.lt_iff_toNat_lt, UInt64.toNat_add]
    omega
  · intro h
    rw [addUint64, UInt64.toNat_add, Nat.mod_eq_of_lt h]

/-- A product that wrapped is too small to give the first factor back. -/
theorem mulUint64_exact (a b : UInt64) : ExactOrOverflow (mulUint64 a b) (a.toNat * b.toNat) := by
  unfold mulUint64
  split_ifs with hZero
  · have hProduct : a.toNat * b.toNat = 0 := by
      rcases hZero with rfl | rfl <;> simp
    rw [hProduct]
    exact ⟨by simp, fun _ => rfl⟩
  · have hPos : 0 < b.toNat :=
      Nat.pos_of_ne_zero fun h => hZero (Or.inr (UInt64.toNat_inj.mp h))
    constructor
    · simp only [decide_eq_true_eq, ne_eq, ← UInt64.toNat_inj, UInt64.toNat_div, UInt64.toNat_mul]
      by_cases h : a.toNat * b.toNat < 2 ^ 64
      · rw [Nat.mod_eq_of_lt h, Nat.mul_div_cancel _ hPos]
        exact iff_of_false (not_not.mpr rfl) (Nat.not_le.mpr h)
      · have hWrapped : a.toNat * b.toNat % 2 ^ 64 < a.toNat * b.toNat :=
          lt_of_lt_of_le (Nat.mod_lt _ (by norm_num)) (Nat.not_lt.mp h)
        have hLess := (Nat.div_lt_iff_lt_mul hPos).mpr hWrapped
        exact iff_of_true hLess.ne' (Nat.not_lt.mp h)
    · intro h
      rw [UInt64.toNat_mul, Nat.mod_eq_of_lt h]

/-- A step whose number is part of the total does not hide an overflow of the total. -/
theorem exactGas_bind {n total : Nat} {next : UInt64 → Except String UInt64} (hPart : n ≤ total)
    (hNext : ∀ gas : UInt64, gas.toNat = n → next gas = exactGas total) :
    (exactGas n >>= next) = exactGas total := by
  by_cases h : n < 2 ^ 64
  · rw [exactGas, if_pos h]
    exact hNext _ (UInt64.toNat_ofNat_of_lt h)
  · rw [exactGas, if_neg h, exactGas, if_neg (by omega)]
    rfl

/-- The intrinsic gas is the cost, or an error if the cost does not fit. The length of a
slice is an `int`. -/
theorem simpleIntrinsicGas_exact (data : List UInt8) (hLength : data.length < 2 ^ 63)
    (contractCreation homestead isEIP2028 : Bool) :
    (∀ a b : UInt64, ExactOrOverflow (mulUint64 a b) (a.toNat * b.toNat) ∧
      ExactOrOverflow (addUint64 a b) (a.toNat + b.toNat)) ∧
    simpleIntrinsicGas data contractCreation homestead isEIP2028 =
      exactGas (intrinsicCost data contractCreation homestead isEIP2028) := by
  refine ⟨fun a b => ⟨mulUint64_exact a b, addUint64_exact a b⟩, ?_⟩
  have hCount : data.length = data.countP (· = 0) + data.countP (· ≠ 0) := by
    simpa using data.length_eq_countP_add_countP (fun byte => decide (byte = 0))
  have hNonZero : (UInt64.ofNat (data.countP (· ≠ 0))).toNat = data.countP (· ≠ 0) := by
    rw [UInt64.toNat_ofNat']
    omega
  have hZeros : (UInt64.ofNat data.length - UInt64.ofNat (data.countP (· ≠ 0))).toNat =
      data.countP (· = 0) := by
    rw [UInt64.toNat_sub, hNonZero, UInt64.toNat_ofNat']
    omega
  unfold simpleIntrinsicGas intrinsicCost
  dsimp only
  generalize (if contractCreation && homestead then TxGasContractCreation else TxGas) = base
  generalize (if isEIP2028 then TxDataNonZeroGasEIP2028 else TxDataNonZeroGasFrontier) = price
  split_ifs with hEmpty
  · have hBase := base.toNat_lt
    rw [List.length_eq_zero_iff.mp hEmpty, exactGas, if_pos (by simpa using hBase)]
    simp
  · rw [(mulUint64_exact _ _).unlessOverflow, (mulUint64_exact _ _).unlessOverflow, hNonZero,
      hZeros]
    refine exactGas_bind (by omega) fun gasNonZero hGasNonZero => ?_
    refine exactGas_bind (by omega) fun gasZero hGasZero => ?_
    rw [(addUint64_exact _ _).unlessOverflow, hGasNonZero]
    refine exactGas_bind (by omega) fun next hGasNext => ?_
    rw [(addUint64_exact _ _).unlessOverflow, hGasNext, hGasZero]

theorem oneByte_gas : [(1 : UInt8)].length < 2 ^ 63 ∧
    simpleIntrinsicGas [1] false true true = .ok 21016 :=
  ⟨by decide, (simpleIntrinsicGas_exact [1] (by decide) false true true).2.trans rfl⟩

end IntrinsicGas

/-- What the EVM leaves: the tracked state, the gas that is left and the error. -/
structure Outcome where
  tracked : rwTracker
  RegularGas : UInt64
  vmerr : Option String

/-- The EVM for a block, an origin and a gas price. -/
structure EVM where
  Call : BlockEnv → Address → Uint256 → rwTracker → Address → Address → List UInt8 → UInt64 →
    Uint256 → Outcome
  Create : BlockEnv → Address → Uint256 → rwTracker → Address → List UInt8 → UInt64 → Uint256 →
    Outcome

/-- The fields that the code takes from the transaction. -/
structure Message where
  sender : Address
  toAddr : Option Address
  value : Uint256
  gasLimit : UInt64
  gasPrice : Uint256
  data : List UInt8
  txNonce : UInt64

section PreExecuteTx

variable (packages : Packages) (chainConfig : ChainConfig) (evm : EVM) (blockEnv : BlockEnv)

/-- The text of an entry, if it is not empty. -/
def hexText (entry : Option String) : Option String :=
  entry.filter fun text => text ≠ "" ∧ text ≠ "0x"

/-- The price of the transaction, or the lower one of its highest fee and the base fee. -/
def gasPriceOf (tx : TxMap) : Uint256 :=
  match tx.GasPrice.bind packages.SetFromHex with
  | some gasPrice => gasPrice
  | none =>
    match tx.MaxFeePerGas.bind packages.SetFromHex with
    | none => 0
    | some maxFeePerGas =>
      match blockEnv.BaseFee with
      | none => maxFeePerGas
      | some fee =>
        let baseFee := BitVec.ofInt 256 fee
        if maxFeePerGas < baseFee then maxFeePerGas else baseFee

def message (tx : TxMap) : Message where
  sender := (tx.From.map packages.HexToAddress).getD 0
  toAddr := (hexText tx.To).map packages.HexToAddress
  value := (tx.Value.bind packages.SetFromHex).getD 0
  gasLimit := tx.Gas.getD 0
  gasPrice := gasPriceOf packages blockEnv tx
  data := ((hexText tx.Input).map packages.FromHex).getD []
  txNonce := tx.Nonce.getD 0

def intrinsicGas (msg : Message) : Except String UInt64 :=
  simpleIntrinsicGas msg.data msg.toAddr.isNone (chainConfig.IsHomestead blockEnv.BlockNumber)
    (chainConfig.IsIstanbul blockEnv.BlockNumber)

/-- `uint256.NewInt(gas)` times the price. -/
def wei (gas : UInt64) (gasPrice : Uint256) : Uint256 := BitVec.ofNat 256 gas.toNat * gasPrice

/-- The checks of the sender, with the nonce bumped and the gas bought on the way. -/
def buyGas (tracked : rwTracker) (msg : Message) : Except (String × rwTracker) rwTracker :=
  let (storedNonce, tracked) := tracked.GetNonce packages msg.sender
  if storedNonce ≠ msg.txNonce then
    .error ("nonce mismatch: want " ++ toString storedNonce ++ " got " ++ toString msg.txNonce,
      tracked)
  else
    let tracked := tracked.SetNonce packages msg.sender (storedNonce + 1)
    let upfront := wei msg.gasLimit msg.gasPrice
    let (balance, tracked) := tracked.GetBalance packages msg.sender
    if balance < upfront then .error ("insufficient balance for gas", tracked)
    else
      let tracked := tracked.SubBalance packages msg.sender upfront
      -- core.CanTransfer
      let (balance, tracked) := tracked.GetBalance packages msg.sender
      if balance < msg.value then .error ("insufficient balance for transfer", tracked)
      else .ok tracked

def execute (tracked : rwTracker) (msg : Message) (intrinsicGas : UInt64) : Outcome :=
  match msg.toAddr with
  | some toAddr => evm.Call blockEnv msg.sender msg.gasPrice tracked msg.sender toAddr msg.data
      (msg.gasLimit - intrinsicGas) msg.value
  | none => evm.Create blockEnv msg.sender msg.gasPrice tracked msg.sender msg.data
      (msg.gasLimit - intrinsicGas) msg.value

/-- The sender is refunded and the coinbase paid. -/
def settle (msg : Message) (intrinsicGas : UInt64) (outcome : Outcome) : UInt64 × rwTracker :=
  let refundCap := (msg.gasLimit - intrinsicGas - outcome.RegularGas) / 2
  let remaining := outcome.RegularGas + refundCap
  let refundWei := wei (msg.gasLimit - remaining) msg.gasPrice
  let remaining := if remaining > msg.gasLimit then msg.gasLimit else remaining
  let tracked := outcome.tracked.AddBalance packages msg.sender refundWei
  let coinbaseFee := wei (msg.gasLimit - remaining) msg.gasPrice
  (msg.gasLimit - remaining, tracked.AddBalance packages blockEnv.Coinbase coinbaseFee)

/-- The result with the keys of the tracker, and the state that the tracker holds. -/
def report (txIdx : Int) (hash : Option String) (success : Bool) (error : String) (gasUsed : UInt64)
    (tracked : rwTracker) : PreExecResult × StateDB :=
  (⟨txIdx, hash.getD "", success, gasUsed, tracked.SortedReadKeys, tracked.SortedWriteKeys, error⟩,
    tracked.StateDB)

/-- The result, and the state that the call leaves. -/
def PreExecuteTx (baseState : Option StateDB) (txRaw : Option TxMap) (txIdx : Int) :
    Except String (PreExecResult × StateDB) :=
  match baseState, txRaw with
  | none, _ => .error "baseState is nil"
  | some _, none => .error ("invalid tx format at index " ++ toString txIdx)
  | some snapshot, some tx =>
    let tracked := rwTracker.newRWTracker snapshot
    let msg := message packages blockEnv tx
    let fail := fun (tracked : rwTracker) (error : String) =>
      report txIdx tx.Hash false error msg.gasLimit (tracked.RevertToSnapshot snapshot)
    match intrinsicGas chainConfig blockEnv msg with
    | .error err => .ok (fail tracked ("intrinsic gas: " ++ err))
    | .ok intrinsicGas =>
      if msg.gasLimit < intrinsicGas then .ok (fail tracked "out of gas (intrinsic)")
      else
        match buyGas packages tracked msg with
        | .error (err, tracked) => .ok (fail tracked err)
        | .ok tracked =>
          let outcome := execute evm blockEnv tracked msg intrinsicGas
          match outcome.vmerr with
          | some vmerr => .ok (fail outcome.tracked vmerr)
          | none =>
            let (gasUsed, tracked) := settle packages blockEnv msg intrinsicGas outcome
            .ok (report txIdx tx.Hash true "" gasUsed tracked)

end PreExecuteTx

section Gas

/-- The gas left after the refund, over the numbers: half of what the call spent comes
back on top of what it left. -/
theorem remaining_toNat {gasLimit intrinsicGas regularGas : UInt64}
    (hIntrinsic : intrinsicGas ≤ gasLimit)
    (hRegular : regularGas ≤ gasLimit - intrinsicGas) :
    (regularGas + (gasLimit - intrinsicGas - regularGas) / 2).toNat =
      regularGas.toNat + (gasLimit.toNat - intrinsicGas.toNat - regularGas.toNat) / 2 := by
  have hBudget := UInt64.toNat_sub_of_le _ _ hIntrinsic
  have hSpent := UInt64.toNat_sub_of_le _ _ hRegular
  have hLe := UInt64.le_iff_toNat_le.mp hRegular
  have hLimit := gasLimit.toNat_lt
  have hTwo : (2 : UInt64).toNat = 2 := rfl
  rw [UInt64.toNat_add, UInt64.toNat_div, hSpent, hBudget, hTwo]
  exact Nat.mod_eq_of_lt (by omega)

theorem remaining_le {gasLimit intrinsicGas regularGas : UInt64}
    (hIntrinsic : intrinsicGas ≤ gasLimit)
    (hRegular : regularGas ≤ gasLimit - intrinsicGas) :
    regularGas + (gasLimit - intrinsicGas - regularGas) / 2 ≤ gasLimit := by
  have hBudget := UInt64.toNat_sub_of_le _ _ hIntrinsic
  have hLe := UInt64.le_iff_toNat_le.mp hRegular
  have hLe' := UInt64.le_iff_toNat_le.mp hIntrinsic
  rw [UInt64.le_iff_toNat_le, remaining_toNat hIntrinsic hRegular]
  omega

/-- Half of the gas is used if the call leaves the intrinsic gas, or one more. -/
theorem half_used_iff {gasLimit intrinsicGas regularGas : Nat}
    (hIntrinsic : intrinsicGas ≤ gasLimit)
    (hRegular : regularGas ≤ gasLimit - intrinsicGas) :
    gasLimit = 2 * (gasLimit - (regularGas + (gasLimit - intrinsicGas - regularGas) / 2)) ↔
      gasLimit % 2 = 0 ∧ (regularGas = intrinsicGas ∨ regularGas = intrinsicGas + 1) := by
  omega

theorem charged_toNat {balance upfront value refund : Uint256} (hUpfront : upfront ≤ balance)
    (hValue : value ≤ balance - upfront) (hRefund : refund.toNat ≤ upfront.toNat) :
    (balance - upfront - value + refund).toNat + upfront.toNat + value.toNat =
      balance.toNat + refund.toNat := by
  bv_omega

theorem wei_toNat_mod (gas : UInt64) (gasPrice : Uint256) :
    (wei gas gasPrice).toNat = gas.toNat * gasPrice.toNat % 2 ^ 256 := by
  have hGas : gas.toNat % 2 ^ 256 = gas.toNat :=
    Nat.mod_eq_of_lt (lt_trans gas.toNat_lt (by norm_num))
  rw [wei, BitVec.toNat_mul, BitVec.toNat_ofNat, hGas]

theorem wei_toNat {gas : UInt64} {gasPrice : Uint256} (h : gas.toNat * gasPrice.toNat < 2 ^ 256) :
    (wei gas gasPrice).toNat = gas.toNat * gasPrice.toNat := by
  rw [wei_toNat_mod, Nat.mod_eq_of_lt h]

end Gas

section Runs

variable {packages : Packages} {chainConfig : ChainConfig} {evm : EVM} {blockEnv : BlockEnv}
  {base : StateDB} {tx : TxMap} {gas : UInt64} {ready : rwTracker}

/-- The transaction passes the checks, and `ready` is handed to the EVM. -/
structure Reaches (packages : Packages) (chainConfig : ChainConfig) (blockEnv : BlockEnv)
    (base : StateDB) (tx : TxMap) (gas : UInt64) (ready : rwTracker) : Prop where
  intrinsic : intrinsicGas chainConfig blockEnv (message packages blockEnv tx) = .ok gas
  covered : gas ≤ (message packages blockEnv tx).gasLimit
  bought : buyGas packages (rwTracker.newRWTracker base) (message packages blockEnv tx) = .ok ready

/-- What the checks leave: a bumped nonce, and a balance that covers the value. -/
theorem buyGas_ok {t : rwTracker} {msg : Message} (h : buyGas packages t msg = .ok ready) :
    t.StateDB.GetNonce msg.sender = msg.txNonce ∧
    wei msg.gasLimit msg.gasPrice ≤ t.StateDB.GetBalance msg.sender ∧
    msg.value ≤ t.StateDB.GetBalance msg.sender - wei msg.gasLimit msg.gasPrice ∧
    ready.StateDB = (t.StateDB.SetNonce msg.sender (msg.txNonce + 1)).SetBalance msg.sender
      (t.StateDB.GetBalance msg.sender - wei msg.gasLimit msg.gasPrice) := by
  unfold buyGas at h
  simp only [rwTracker.GetNonce, rwTracker.GetBalance, rwTracker.SetNonce, rwTracker.SubBalance,
    rwTracker.setBalance, rwTracker.addRead, rwTracker.addWrite, StateDB.getBalance_setNonce,
    StateDB.getBalance_setBalance_self] at h
  split at h
  case isTrue => cases h
  case isFalse hNonce =>
    rw [not_not] at hNonce
    split at h
    case isTrue => cases h
    case isFalse hUpfront =>
      split at h
      case isTrue => cases h
      case isFalse hValue =>
        cases h
        refine ⟨hNonce, BitVec.not_lt.mp hUpfront, BitVec.not_lt.mp hValue, ?_⟩
        rw [hNonce]

/-- The sender pays for the reported gas and the value, and the coinbase gets the fee. -/
def Conserves (base after : StateDB) (msg : Message) (coinbase : Address) (gasUsed : UInt64) : Prop :=
  (base.GetBalance msg.sender).toNat = (after.GetBalance msg.sender).toNat +
      gasUsed.toNat * msg.gasPrice.toNat + msg.value.toNat ∧
    (after.GetBalance coinbase).toNat = (base.GetBalance coinbase).toNat +
      gasUsed.toNat * msg.gasPrice.toNat

section Settle

variable {msg : Message} {outcome : Outcome}

theorem settle_balances (packages : Packages) (hGas : gas ≤ msg.gasLimit)
    (hRegular : outcome.RegularGas ≤ msg.gasLimit - gas)
    (hDistinct : msg.sender ≠ blockEnv.Coinbase) :
    let settled := settle packages blockEnv msg gas outcome
    settled.1 = msg.gasLimit - (outcome.RegularGas + (msg.gasLimit - gas - outcome.RegularGas) / 2) ∧
    settled.2.StateDB.GetBalance msg.sender = outcome.tracked.StateDB.GetBalance msg.sender +
      wei settled.1 msg.gasPrice ∧
    settled.2.StateDB.GetBalance blockEnv.Coinbase =
      outcome.tracked.StateDB.GetBalance blockEnv.Coinbase + wei settled.1 msg.gasPrice := by
  have hCap : ¬ outcome.RegularGas + (msg.gasLimit - gas - outcome.RegularGas) / 2 > msg.gasLimit :=
    UInt64.not_lt.mpr (remaining_le hGas hRegular)
  simp only [settle, if_neg hCap, rwTracker.AddBalance, rwTracker.setBalance, true_and]
  rw [StateDB.getBalance_setBalance_of_ne hDistinct, StateDB.getBalance_setBalance_self,
    StateDB.getBalance_setBalance_self, StateDB.getBalance_setBalance_of_ne hDistinct.symm]
  exact ⟨rfl, rfl⟩

end Settle

theorem Reaches.preExecuteTx_ok (reaches : Reaches packages chainConfig blockEnv base tx gas ready)
    {msg : Message} (hMsg : message packages blockEnv tx = msg) {outcome : Outcome}
    (hOutcome : execute evm blockEnv ready msg gas = outcome) (hOk : outcome.vmerr = none)
    (txIdx : Int) :
    PreExecuteTx packages chainConfig evm blockEnv (some base) (some tx) txIdx =
      .ok (report txIdx tx.Hash true "" (settle packages blockEnv msg gas outcome).1
        (settle packages blockEnv msg gas outcome).2) := by
  subst hMsg hOutcome
  simp only [PreExecuteTx, reaches.intrinsic, reaches.bought,
    if_neg (UInt64.not_lt.mpr reaches.covered),
    hOk]

theorem Reaches.preExecuteTx_vmerr
    (reaches : Reaches packages chainConfig blockEnv base tx gas ready)
    {msg : Message} (hMsg : message packages blockEnv tx = msg) {outcome : Outcome}
    (hOutcome : execute evm blockEnv ready msg gas = outcome) {vmerr : String}
    (hErr : outcome.vmerr = some vmerr) (txIdx : Int) :
    PreExecuteTx packages chainConfig evm blockEnv (some base) (some tx) txIdx =
      .ok (report txIdx tx.Hash false vmerr msg.gasLimit
        (outcome.tracked.RevertToSnapshot base)) := by
  subst hMsg hOutcome
  simp only [PreExecuteTx, reaches.intrinsic, reaches.bought,
    if_neg (UInt64.not_lt.mpr reaches.covered),
    hErr]

section Accounting

variable (reaches : Reaches packages chainConfig blockEnv base tx gas ready)
  (msg : Message) (hMsg : message packages blockEnv tx = msg) (outcome : Outcome)
  (hRegular : outcome.RegularGas ≤ msg.gasLimit - gas) (hDistinct : msg.sender ≠ blockEnv.Coinbase)
  (hSender : outcome.tracked.StateDB.GetBalance msg.sender =
    ready.StateDB.GetBalance msg.sender - msg.value)
  (hCoinbase : outcome.tracked.StateDB.GetBalance blockEnv.Coinbase =
    ready.StateDB.GetBalance blockEnv.Coinbase)
  (hUpfront : msg.gasLimit.toNat * msg.gasPrice.toNat < 2 ^ 256)
  (hFee : (base.GetBalance blockEnv.Coinbase).toNat +
    (settle packages blockEnv msg gas outcome).1.toNat * msg.gasPrice.toNat < 2 ^ 256)

include reaches hMsg hRegular hDistinct

theorem gasUsed_toNat : (settle packages blockEnv msg gas outcome).1.toNat =
    msg.gasLimit.toNat - (outcome.RegularGas.toNat +
      (msg.gasLimit.toNat - gas.toNat - outcome.RegularGas.toNat) / 2) := by
  have hGas : gas ≤ msg.gasLimit := hMsg ▸ reaches.covered
  obtain ⟨hUsed, _⟩ := settle_balances packages hGas hRegular hDistinct
  rw [hUsed, UInt64.toNat_sub_of_le _ _ (remaining_le hGas hRegular), remaining_toNat hGas hRegular]

theorem gasUsed_wei_le : (settle packages blockEnv msg gas outcome).1.toNat * msg.gasPrice.toNat ≤
    msg.gasLimit.toNat * msg.gasPrice.toNat := by
  refine Nat.mul_le_mul_right _ ?_
  rw [gasUsed_toNat reaches msg hMsg outcome hRegular hDistinct]
  exact Nat.sub_le _ _

include hUpfront

theorem fee_toNat : (wei (settle packages blockEnv msg gas outcome).1 msg.gasPrice).toNat =
    (settle packages blockEnv msg gas outcome).1.toNat * msg.gasPrice.toNat :=
  wei_toNat (lt_of_le_of_lt (gasUsed_wei_le reaches msg hMsg outcome hRegular hDistinct) hUpfront)

include hCoinbase hFee in
theorem coinbase_toNat :
    ((settle packages blockEnv msg gas outcome).2.StateDB.GetBalance blockEnv.Coinbase).toNat =
      (base.GetBalance blockEnv.Coinbase).toNat +
        (settle packages blockEnv msg gas outcome).1.toNat * msg.gasPrice.toNat := by
  have hGas : gas ≤ msg.gasLimit := hMsg ▸ reaches.covered
  obtain ⟨_, _, _, hReady⟩ := buyGas_ok (hMsg ▸ reaches.bought)
  obtain ⟨_, _, hAfter⟩ := settle_balances packages hGas hRegular hDistinct
  have hBefore :
      ready.StateDB.GetBalance blockEnv.Coinbase = base.GetBalance blockEnv.Coinbase := by
    rw [hReady, StateDB.getBalance_setBalance_of_ne hDistinct.symm, StateDB.getBalance_setNonce]
    rfl
  rw [hAfter, hCoinbase, hBefore, BitVec.toNat_add,
    fee_toNat reaches msg hMsg outcome hRegular hDistinct hUpfront, Nat.mod_eq_of_lt hFee]

include hSender in
theorem sender_toNat :
    ((settle packages blockEnv msg gas outcome).2.StateDB.GetBalance msg.sender).toNat +
        msg.gasLimit.toNat * msg.gasPrice.toNat + msg.value.toNat =
      (base.GetBalance msg.sender).toNat +
        (settle packages blockEnv msg gas outcome).1.toNat * msg.gasPrice.toNat := by
  have hGas : gas ≤ msg.gasLimit := hMsg ▸ reaches.covered
  obtain ⟨_, hCovered, hValue, hReady⟩ := buyGas_ok (hMsg ▸ reaches.bought)
  obtain ⟨_, hAfter, _⟩ := settle_balances packages hGas hRegular hDistinct
  have hBefore : ready.StateDB.GetBalance msg.sender =
      base.GetBalance msg.sender - wei msg.gasLimit msg.gasPrice := by
    rw [hReady, StateDB.getBalance_setBalance_self]
    rfl
  have hFeeNat := fee_toNat reaches msg hMsg outcome hRegular hDistinct hUpfront
  rw [hAfter, hSender, hBefore, ← wei_toNat hUpfront, ← hFeeNat]
  refine charged_toNat hCovered hValue ?_
  rw [hFeeNat, wei_toNat hUpfront]
  exact gasUsed_wei_le reaches msg hMsg outcome hRegular hDistinct

include hSender hCoinbase hFee in
/-- The settlement pays the coinbase what it should, and refunds the sender what it
should charge. The two are equal only if half of the gas was used. -/
theorem gas_conserved_iff (hOutcome : execute evm blockEnv ready msg gas = outcome)
    (hOk : outcome.vmerr = none) (txIdx : Int) :
    ∃ result after, PreExecuteTx packages chainConfig evm blockEnv (some base) (some tx) txIdx =
        .ok (result, after) ∧ result.Success = true ∧
      (after.GetBalance blockEnv.Coinbase).toNat = (base.GetBalance blockEnv.Coinbase).toNat +
        result.GasUsed.toNat * msg.gasPrice.toNat ∧
      (Conserves base after msg blockEnv.Coinbase result.GasUsed ↔
        msg.gasPrice = 0 ∨ msg.gasLimit.toNat % 2 = 0 ∧
          (outcome.RegularGas.toNat = gas.toNat ∨ outcome.RegularGas.toNat = gas.toNat + 1)) := by
  have hGas : gas ≤ msg.gasLimit := hMsg ▸ reaches.covered
  have hUsed := gasUsed_toNat reaches msg hMsg outcome hRegular hDistinct
  have hCoinbaseNat :=
    coinbase_toNat reaches msg hMsg outcome hRegular hDistinct hCoinbase hUpfront hFee
  have hSenderNat := sender_toNat reaches msg hMsg outcome hRegular hDistinct hSender hUpfront
  refine ⟨_, _, reaches.preExecuteTx_ok hMsg hOutcome hOk txIdx, rfl, hCoinbaseNat, ?_⟩
  generalize settle packages blockEnv msg gas outcome = settled at *
  have hHalf : msg.gasLimit.toNat * msg.gasPrice.toNat =
      2 * (settled.1.toNat * msg.gasPrice.toNat) ↔
        msg.gasPrice = 0 ∨ msg.gasLimit.toNat = 2 * settled.1.toNat := by
    rw [← Nat.mul_assoc, mul_eq_mul_right_iff, or_comm, BitVec.toNat_eq]
    rfl
  rw [← half_used_iff (UInt64.le_iff_toNat_le.mp hGas) (by
    rw [← UInt64.toNat_sub_of_le _ _ hGas]
    exact UInt64.le_iff_toNat_le.mp hRegular), ← hUsed, ← hHalf]
  change (_ = (settled.2.StateDB.GetBalance msg.sender).toNat + settled.1.toNat * _ + _ ∧
    (settled.2.StateDB.GetBalance blockEnv.Coinbase).toNat = _) ↔ _
  constructor
  · rintro ⟨hPaid, _⟩
    omega
  · intro hEqual
    exact ⟨by omega, hCoinbaseNat⟩

end Accounting

section Transfer

/-- Texts for the account 10, any other account and the number one. -/
def fewTexts : Packages where
  HexToAddress text := if text = "0xa" then 10 else 11
  Hex addr := if addr = 10 then "0xa" else "0xb"
  SetFromHex text := if text = "0x1" then some 1 else none
  FromHex _ := []

def mainnet : ChainConfig := ⟨fun _ => true, fun _ => true⟩

def minedBy12 : BlockEnv := ⟨1, 0, 30000000, none, 0, 12, fun _ => none⟩

/-- Account 10 sends one wei at a price of one. -/
def sendOne : TxMap :=
  ⟨some "0x5", some "0xa", some "0xb", some "0x1", some 100000, some "0x1", none, none, some 3⟩

def richSender : StateDB := Function.update (fun _ => none) 10 (some ⟨3, 1000000, [], fun _ => 0⟩)

/-- An EVM that moves the value, or fails, and uses no gas. -/
def transferEVM (vmerr : Option String) : EVM where
  Call := fun _ _ _ tracked sender toAddr _ gas value =>
    ⟨(tracked.SubBalance fewTexts sender value).AddBalance fewTexts toAddr value, gas, vmerr⟩
  Create := fun _ _ _ tracked _ _ gas _ => ⟨tracked, gas, vmerr⟩

/-- The state when the value is to be moved. -/
def bought : rwTracker :=
  match buyGas fewTexts (rwTracker.newRWTracker richSender) (message fewTexts minedBy12 sendOne) with
  | .ok tracked => tracked
  | .error (_, tracked) => tracked

theorem sendOne_reaches : Reaches fewTexts mainnet minedBy12 richSender sendOne 21000 bought :=
  ⟨rfl, by decide, rfl⟩

/-- The transfer uses 21000 gas, and the sender pays for 79000. -/
theorem sendOne_overcharged :
    ((PreExecuteTx fewTexts mainnet (transferEVM none) minedBy12 (some richSender) (some sendOne)
      0).toOption.map fun r => (r.1.Success, r.1.GasUsed, r.2.GetBalance 10, r.2.GetBalance 12)) =
    some (true, 21000, 1000000 - 79000 - 1, 21000) := by
  decide +kernel

theorem sendOne_not_conserved :
    ∃ result after, PreExecuteTx fewTexts mainnet (transferEVM none) minedBy12 (some richSender)
        (some sendOne) 0 = .ok (result, after) ∧
      ¬ Conserves richSender after (message fewTexts minedBy12 sendOne) 12 result.GasUsed := by
  obtain ⟨result, after, hRun, _, _, hIff⟩ := gas_conserved_iff sendOne_reaches _ rfl
    (execute (transferEVM none) minedBy12 bought (message fewTexts minedBy12 sendOne) 21000)
    (by decide +kernel) (by decide +kernel) (by decide +kernel) (by decide +kernel)
    (by decide +kernel) (by decide +kernel) rfl rfl 0
  exact ⟨result, after, hRun, fun h => absurd (hIff.mp h) (by decide +kernel)⟩

end Transfer

/-- A failed transaction bumps the nonce and pays the fee; nothing else changes, apart
from the balance of the coinbase. -/
structure PaysForFailure (base after : StateDB) (sender coinbase : Address) (fee : Nat) : Prop where
  nonce : after.GetNonce sender = base.GetNonce sender + 1
  balance : sender ≠ coinbase →
    (base.GetBalance sender).toNat = (after.GetBalance sender).toNat + fee
  code : ∀ addr, (after.getOrNewStateObject addr).Code = (base.getOrNewStateObject addr).Code
  storage : ∀ addr,
    (after.getOrNewStateObject addr).Storage = (base.getOrNewStateObject addr).Storage
  others : ∀ addr, addr ≠ sender → addr ≠ coinbase → after addr = base addr

theorem buyGas_nonce (packages : Packages) {t : rwTracker} {msg : Message}
    (h : t.StateDB.GetNonce msg.sender ≠ msg.txNonce) :
    buyGas packages t msg =
      .error ("nonce mismatch: want " ++ toString (t.StateDB.GetNonce msg.sender) ++ " got " ++
        toString msg.txNonce, (t.GetNonce packages msg.sender).2) :=
  if_pos h

theorem preExecuteTx_nonce_mismatch (evm : EVM) {next : TxMap} {nextGas : UInt64}
    (hIntrinsic : intrinsicGas chainConfig blockEnv (message packages blockEnv next) = .ok nextGas)
    (hCovered : nextGas ≤ (message packages blockEnv next).gasLimit)
    (hNonce : base.GetNonce (message packages blockEnv next).sender ≠
      (message packages blockEnv next).txNonce) (txIdx : Int) :
    ∃ result, PreExecuteTx packages chainConfig evm blockEnv (some base) (some next) txIdx =
        .ok (result, base) ∧ result.Success = false ∧
      result.Error = "nonce mismatch: want " ++
        toString (base.GetNonce (message packages blockEnv next).sender) ++ " got " ++
        toString (message packages blockEnv next).txNonce := by
  have hBuy := buyGas_nonce packages (t := rwTracker.newRWTracker base) hNonce
  simp only [PreExecuteTx, hIntrinsic, hBuy, if_neg (UInt64.not_lt.mpr hCovered)]
  exact ⟨_, rfl, rfl, rfl⟩

/-- The snapshot is older than the nonce bump and the purchase, so an EVM error undoes
both of them: the state is the one before the call, and the next nonce is refused. -/
theorem failed_execution_unpaid (evm : EVM)
    (reaches : Reaches packages chainConfig blockEnv base tx gas ready)
    (msg : Message) (hMsg : message packages blockEnv tx = msg) (vmerr : String)
    (hErr : (execute evm blockEnv ready msg gas).vmerr = some vmerr) (txIdx : Int) :
    ∃ result, PreExecuteTx packages chainConfig evm blockEnv (some base) (some tx) txIdx =
        .ok (result, base) ∧
      result.Success = false ∧ result.Error = vmerr ∧ result.GasUsed = msg.gasLimit ∧
      ¬ PaysForFailure base base msg.sender blockEnv.Coinbase
        (result.GasUsed.toNat * msg.gasPrice.toNat) ∧
      ∀ next nextGas,
        intrinsicGas chainConfig blockEnv (message packages blockEnv next) = .ok nextGas →
        nextGas ≤ (message packages blockEnv next).gasLimit →
        (message packages blockEnv next).sender = msg.sender →
        (message packages blockEnv next).txNonce = msg.txNonce + 1 → ∀ nextIdx,
          ∃ refused, PreExecuteTx packages chainConfig evm blockEnv (some base) (some next) nextIdx =
              .ok (refused, base) ∧
            refused.Error = "nonce mismatch: want " ++ toString msg.txNonce ++ " got " ++
              toString (msg.txNonce + 1) := by
  have hStep : ∀ nonce : UInt64, nonce ≠ nonce + 1 := fun nonce h => by
    rw [left_eq_add] at h
    exact absurd h (by decide)
  obtain ⟨hNonce, _⟩ := buyGas_ok (hMsg ▸ reaches.bought)
  change base.GetNonce msg.sender = msg.txNonce at hNonce
  refine ⟨_, reaches.preExecuteTx_vmerr hMsg rfl hErr txIdx, rfl, rfl, rfl,
    fun paid => hStep _ paid.nonce, fun next nextGas hIntrinsic hCovered hSame hNext nextIdx => ?_⟩
  have hMismatch : base.GetNonce (message packages blockEnv next).sender ≠
      (message packages blockEnv next).txNonce := by
    rw [hSame, hNonce, hNext]
    exact hStep _
  obtain ⟨refused, hRun, _, hText⟩ :=
    preExecuteTx_nonce_mismatch evm hIntrinsic hCovered hMismatch nextIdx
  rw [hSame, hNonce, hNext] at hText
  exact ⟨refused, hRun, hText⟩

/-- The call fails; the sender keeps nonce and balance. -/
theorem sendOne_fails_free :
    ((PreExecuteTx fewTexts mainnet (transferEVM (some "execution reverted")) minedBy12
      (some richSender) (some sendOne) 0).toOption.map fun r =>
        (r.1.Success, r.1.GasUsed, r.2.GetNonce 10, r.2.GetBalance 10)) =
    some (false, 100000, 3, 1000000) := by
  decide +kernel

theorem sendOne_unpaid :
    ∃ result, PreExecuteTx fewTexts mainnet (transferEVM (some "execution reverted")) minedBy12
        (some richSender) (some sendOne) 0 = .ok (result, richSender) ∧
      result.Error = "execution reverted" := by
  obtain ⟨result, hRun, _, hError, _⟩ := failed_execution_unpaid
    (transferEVM (some "execution reverted")) sendOne_reaches _ rfl "execution reverted" rfl 0
  exact ⟨result, hRun, hError⟩

end Runs

section GasPurchase

variable (packages : Packages) (chainConfig : ChainConfig) (blockEnv : BlockEnv) (base : StateDB)
  (tx : TxMap)

/-- The gas limit covers the intrinsic gas, and the nonce is the stored one. -/
def ComesToBuyGas : Prop :=
  (∃ gas, intrinsicGas chainConfig blockEnv (message packages blockEnv tx) = .ok gas ∧
    gas ≤ (message packages blockEnv tx).gasLimit) ∧
  base.GetNonce (message packages blockEnv tx).sender = (message packages blockEnv tx).txNonce

/-- The transaction comes to the purchase and is not stopped by it. -/
def PassesGasPurchase : Prop :=
  ComesToBuyGas packages chainConfig blockEnv base tx ∧
    ∀ tracked, buyGas packages (rwTracker.newRWTracker base) (message packages blockEnv tx) ≠
      .error ("insufficient balance for gas", tracked)

variable {packages chainConfig blockEnv base tx}

theorem buyGas_insufficient_iff {t : rwTracker} {msg : Message}
    (hNonce : t.StateDB.GetNonce msg.sender = msg.txNonce) :
    (∃ tracked, buyGas packages t msg = .error ("insufficient balance for gas", tracked)) ↔
      t.StateDB.GetBalance msg.sender < wei msg.gasLimit msg.gasPrice := by
  have hBalance : ((t.GetNonce packages msg.sender).2.SetNonce packages msg.sender
      (t.StateDB.GetNonce msg.sender + 1)).StateDB.GetBalance msg.sender =
        t.StateDB.GetBalance msg.sender := StateDB.getBalance_setNonce _ _
  unfold buyGas
  simp only [rwTracker.GetNonce, rwTracker.GetBalance, hNonce, ne_eq, not_true_eq_false,
    if_false] at hBalance ⊢
  rw [hBalance]
  by_cases hShort : t.StateDB.GetBalance msg.sender < wei msg.gasLimit msg.gasPrice
  · rw [if_pos hShort]
    exact iff_of_true ⟨_, rfl⟩ hShort
  · rw [if_neg hShort]
    refine iff_of_false ?_ hShort
    rintro ⟨tracked, h⟩
    split at h
    · exact absurd (Prod.mk.inj (Except.error.inj h)).1 (by decide)
    · cases h

/-- A transaction that comes to the purchase and does not pass it is reported as one that
cannot pay for its gas. -/
theorem preExecuteTx_insufficient (hComes : ComesToBuyGas packages chainConfig blockEnv base tx)
    (hStops : ¬ PassesGasPurchase packages chainConfig blockEnv base tx) (evm : EVM) (txIdx : Int) :
    ∃ result, PreExecuteTx packages chainConfig evm blockEnv (some base) (some tx) txIdx =
      .ok (result, base) ∧ result.Success = false ∧
        result.Error = "insufficient balance for gas" := by
  obtain ⟨⟨gas, hIntrinsic, hCovered⟩, _⟩ := id hComes
  obtain ⟨tracked, hBuy⟩ : ∃ tracked, buyGas packages (rwTracker.newRWTracker base)
      (message packages blockEnv tx) = .error ("insufficient balance for gas", tracked) := by
    by_contra hNone
    exact hStops ⟨hComes, fun tracked hBuy => hNone ⟨tracked, hBuy⟩⟩
  simp only [PreExecuteTx, hIntrinsic, hBuy, if_neg (UInt64.not_lt.mpr hCovered)]
  exact ⟨_, rfl, rfl, rfl⟩

/-- What the gas of a message costs, before it is reduced to 256 bits. -/
def gasCost (msg : Message) : Nat :=
  msg.gasLimit.toNat * msg.gasPrice.toNat

theorem passesGasPurchase_iff : PassesGasPurchase packages chainConfig blockEnv base tx ↔
    ComesToBuyGas packages chainConfig blockEnv base tx ∧
      gasCost (message packages blockEnv tx) % 2 ^ 256 ≤
        (base.GetBalance (message packages blockEnv tx).sender).toNat := by
  refine and_congr_right fun hComes => ?_
  have hIff := @buyGas_insufficient_iff packages (rwTracker.newRWTracker base) _ hComes.2
  rw [BitVec.lt_def, wei_toNat_mod] at hIff
  rw [← not_exists, hIff, not_lt]
  rfl

variable (packages chainConfig blockEnv base tx)

/-- The price of the gas is computed with 256 bits. The check is one of the product of gas
limit and price if the product fits, or if the balance is short of what is left of it. -/
theorem gas_purchase_checked_iff : (PassesGasPurchase packages chainConfig blockEnv base tx →
      gasCost (message packages blockEnv tx) ≤
        (base.GetBalance (message packages blockEnv tx).sender).toNat) ↔
    (ComesToBuyGas packages chainConfig blockEnv base tx →
      gasCost (message packages blockEnv tx) < 2 ^ 256 ∨
        (base.GetBalance (message packages blockEnv tx).sender).toNat <
          gasCost (message packages blockEnv tx) % 2 ^ 256) := by
  rw [passesGasPurchase_iff, and_imp]
  refine imp_congr_right fun _ => ?_
  have hBalance : (base.GetBalance (message packages blockEnv tx).sender).toNat < 2 ^ 256 :=
    BitVec.isLt _
  rcases lt_or_ge (gasCost (message packages blockEnv tx)) (2 ^ 256) with hFits | hWraps
  · rw [Nat.mod_eq_of_lt hFits]
    exact iff_of_true id (Or.inl hFits)
  · constructor
    · intro hChecked
      refine Or.inr (not_le.mp fun hCovered => ?_)
      have hCost := hChecked hCovered
      omega
    · rintro (hFits | hShort) hCovered
      · exact absurd hFits (not_lt.mpr hWraps)
      · exact absurd hCovered (not_le.mpr hShort)

/-- Texts for the account 10 and a price of `2 ^ 193`. -/
def highPrice : Packages where
  HexToAddress _ := 10
  Hex _ := "0xa"
  SetFromHex text := if text = "0x1" then some (2 ^ 193) else none
  FromHex _ := []

/-- Account 10 buys `2 ^ 63` units of gas. -/
def buyMuch : TxMap :=
  ⟨none, some "0xa", some "0xb", none, some (2 ^ 63), some "0x1", none, none, none⟩

/-- The gas costs `2 ^ 256` wei, and a sender without an account is not refused. -/
theorem gas_for_nothing : (message highPrice minedBy12 buyMuch).gasLimit.toNat *
        (message highPrice minedBy12 buyMuch).gasPrice.toNat = 2 ^ 256 ∧
      StateDB.GetBalance (fun _ => none) (message highPrice minedBy12 buyMuch).sender = 0 ∧
      ((PreExecuteTx highPrice mainnet (transferEVM none) minedBy12 (some fun _ => none)
        (some buyMuch) 0).toOption.map fun r => r.1.Success) = some true := by
  decide +kernel

end GasPurchase

end Nezha.Replayd
