import L1Chain.Runs
import L1Chain.FeeMarket
import L1Chain.Exchange
import L1Chain.StackVM
import L1Chain.Adapter
import L1Chain.Pos

/-! chain/transition.go and chain/evm_wiring.go: the state transition of one
transaction and of a block's list. `Env` gathers the primitives the chain calls
outside the repository; a nil `verifySig` is a verifier that refuses everything.
An error discards the state it was computed on, as every caller does. -/
namespace L1Chain

structure Env (E : Type) where
  sha : Bytes → Hash
  blst : Pos.Blst
  engine : Exchange.Engine E
  evm : Adapter.Interpreter
  stateRoot : MptState → Hash

end L1Chain

namespace L1Chain.Transition
open FeeMarket Exchange StackVM

inductive TxErr where
  | badSig
  | badNonce
  | insufficientBalance
  | cantAffordGas
  | fee (e : FeeErr)
  | exchange (e : ExchangeErr)
  | panicked
  deriving DecidableEq, Repr

abbrev VerifySig := Transaction → Bool

def blockReward : UInt64 := 50

def acceptNonEmptySig : VerifySig := fun tx => tx.signature.length > 0

def liftFee {α : Type} : Except FeeErr α → Except TxErr α
  | .ok a => .ok a
  | .error e => .error (.fee e)

def liftExchange {α : Type} : Except ExchangeErr α → Except TxErr α
  | .ok a => .ok a
  | .error e => .error (.exchange e)

variable {S E : Type} [StateDB S]

def isEVMTx (st : S) (tx : Transaction) : Bool :=
  tx.recipient = Evm.deployAddress || Evm.isTaggedCode (getCode st tx.recipient)

def isContractTx (st : S) (tx : Transaction) : Bool :=
  tx.recipient = 0 || tx.data ≠ [] || getCode st tx.recipient ≠ []

def reserveGas (tx : Transaction) (balance baseFee : UInt64) : Except TxErr (UInt64 × UInt64) := do
  liftFee (validateFeeCapTip tx.gasFeeCap tx.gasTipCap)
  match gasReserve tx.gasLimit tx.gasFeeCap with
  | none => .error .cantAffordGas
  | some reserve =>
    if balance < reserve then .error .cantAffordGas
    else
      let price ← liftFee (effectiveGasPrice baseFee tx.gasFeeCap tx.gasTipCap)
      .ok (reserve,price.effectivePrice)

def message (tx : Transaction) : Message where
  sender := tx.sender
  to' := if tx.recipient = 0 then none else some tx.recipient
  value := tx.value
  gasLimit := tx.gasLimit
  nonce := tx.nonce
  data := tx.data

def credit (st : S) (a : Address) (amount : UInt64) : S :=
  let acct := getAccount st a
  setAccount st a {acct with balance := acct.balance + amount}

def applyContractTx (env : Env E) (st : S) (tx : Transaction) (sender : Account) (baseFee : UInt64) :
    Except TxErr (UInt64 × S) := do
  let (reserve,price) ← reserveGas tx sender.balance baseFee
  let st := setAccount st tx.sender {sender with balance := sender.balance - reserve, nonce := sender.nonce + 1}
  let (receipt,st) := StackVM.execute env.sha st (message tx)
  .ok (receipt.gasUsed,credit st tx.sender (reserve - receipt.gasUsed * price))

/- One message through the interpreter: snapshot, run, and the revert that a
latched balance error forces. -/
def runEVM (env : Env E) (st : S) (tx : Transaction) (height baseFee : UInt64) :
    Option (UInt64 × Adapter.StateDB S) := do
  let isDeploy := tx.recipient = Evm.deployAddress
  let dst := if isDeploy then none else some tx.recipient
  let sdb := (Adapter.new st).prepare tx.sender 0 dst env.evm.precompiles
  let preCall := sdb.snapshot
  let prog := if isDeploy then env.evm.create height baseFee tx.sender tx.data tx.gasLimit tx.value
    else env.evm.call height baseFee tx.sender tx.recipient tx.data tx.gasLimit tx.value
  let (gasUsed,sdb) ← Adapter.interpret env.sha prog sdb
  if sdb.err.isSome then
    let sdb ← sdb.revertToSnapshot preCall
    some (tx.gasLimit,sdb)
  else some (gasUsed,sdb)

def applyEVMTx (env : Env E) (st : S) (tx : Transaction) (sender : Account) (height baseFee : UInt64) :
    Except TxErr (UInt64 × S) := do
  let (reserve,price) ← reserveGas tx sender.balance baseFee
  let st := setAccount st tx.sender {sender with balance := sender.balance - reserve}
  match runEVM env st tx height baseFee with
  | none => .error .panicked
  | some (gasUsed,sdb) =>
    let st := sdb.finalise.base
    let acct := getAccount st tx.sender
    .ok (gasUsed,setAccount st tx.sender
      {acct with nonce := sender.nonce + 1, balance := acct.balance + (reserve - gasUsed * price)})

structure Outcome (S E : Type) where
  st : S
  session : Option (BatchSession E)
  gasUsed : UInt64
  tip : UInt64

def bumpNonce (st : S) (a : Address) (acct : Account) : S :=
  setAccount st a {acct with nonce := acct.nonce + 1}

-- The priority-fee split, re-derived by the caller from the validated inputs.
def priorityFee (tx : Transaction) (baseFee : UInt64) : UInt64 :=
  match effectiveGasPrice baseFee tx.gasFeeCap tx.gasTipCap with
  | .ok price => price.priorityFee
  | .error _ => 0

def priced (session : Option (BatchSession E)) (tx : Transaction) (baseFee : UInt64) (r : UInt64 × S) :
    Outcome S E := ⟨r.2,session,r.1,r.1 * priorityFee tx baseFee⟩

def applyExchangeTx (env : Env E) (st : S) (tx : Transaction) (sender : Account) (height : UInt64)
    (index : UInt32) (session : Option (BatchSession E)) : Except TxErr (Outcome S E) :=
  if sender.balance < tx.value then .error .insufficientBalance
  else
    let st := bumpNonce st tx.sender sender
    match session with
    | some s => do
      let s ← liftExchange (s.apply env.engine height index tx.sender tx.data)
      .ok ⟨st,some s,0,0⟩
    | none => do
      let st ← liftExchange (Exchange.apply env.engine st tx height index)
      .ok ⟨st,none,0,0⟩

def applyTransfer (st : S) (tx : Transaction) (sender : Account) : Except TxErr S :=
  if sender.balance < tx.value then .error .insufficientBalance
  else if tx.sender = tx.recipient then .ok (bumpNonce st tx.sender sender)
  else
    let recipient := getAccount st tx.recipient
    let st := setAccount st tx.sender {sender with balance := sender.balance - tx.value, nonce := sender.nonce + 1}
    .ok (setAccount st tx.recipient {recipient with balance := recipient.balance + tx.value})

def applyTxAtSession (env : Env E) (verifySig : VerifySig) (st : S) (tx : Transaction) (height : UInt64)
    (index : UInt32) (session : Option (BatchSession E)) (baseFee : UInt64) : Except TxErr (Outcome S E) :=
  let sender := getAccount st tx.sender
  if ¬ verifySig tx then .error .badSig
  else if tx.nonce ≠ sender.nonce then .error .badNonce
  else if isExchangeTx tx then applyExchangeTx env st tx sender height index session
  else if isEVMTx st tx then
    (applyEVMTx env st tx sender height baseFee).map (priced session tx baseFee)
  else if Pos.isAttestationTx tx then .ok ⟨bumpNonce st tx.sender sender,session,0,0⟩
  else if isContractTx st tx then
    (applyContractTx env st tx sender baseFee).map (priced session tx baseFee)
  else (applyTransfer st tx sender).map (fun st => ⟨st,session,0,0⟩)

def applyLoop (env : Env E) (verifySig : VerifySig) (height baseFee : UInt64) :
    Nat → Outcome S E → List Transaction → Except TxErr (Outcome S E)
  | _, acc, [] => .ok acc
  | index, acc, tx::rest => do
    let o ← applyTxAtSession env verifySig acc.st tx height (UInt32.ofNat index) acc.session baseFee
    applyLoop env verifySig height baseFee (index + 1) ⟨o.st,o.session,acc.gasUsed + o.gasUsed,acc.tip + o.tip⟩ rest

def exchangeSenders (txs : List Transaction) : List Address := (txs.filter isExchangeTx).map (·.sender)

def openSession (env : Env E) (st : S) (txs : List Transaction) (mode : Exchange.Mode) :
    Except TxErr (Option (BatchSession E)) :=
  if mode = .batchAuction ∧ exchangeSenders txs ≠ [] then do
    let s ← liftExchange (newBatchSession env.engine st (exchangeSenders txs))
    .ok (some s)
  else .ok none

def finishSession (env : Env E) (height : UInt64) (o : Outcome S E) : Except TxErr S :=
  match o.session with
  | none => .ok o.st
  | some s => liftExchange (s.finish env.engine o.st height)

structure BlockOutcome (S : Type) where
  st : S
  gasUsed : UInt64
  tip : UInt64

def applyTxsAt (env : Env E) (verifySig : VerifySig) (st : S) (txs : List Transaction) (height : UInt64)
    (mode : Exchange.Mode) (baseFee : UInt64) : Except TxErr (BlockOutcome S) := do
  let session ← openSession env st txs mode
  let o ← applyLoop env verifySig height baseFee 0 ⟨st,session,0,0⟩ txs
  let st ← finishSession env height o
  .ok ⟨st,o.gasUsed,o.tip⟩

def isFeePriced (st : S) (tx : Transaction) : Bool :=
  if isExchangeTx tx || Pos.isAttestationTx tx then false else isEVMTx st tx || isContractTx st tx

end L1Chain.Transition
