import L1Chain.StateDB
import Mathlib.Data.List.AList

/-! Package exchange: calldata, the storage layout of the exchange account, and
the seam to the order-book engine. The engine is a separate module that the
repository imports; it is the parameter `Engine`, of which only the operations
that exchange.go and batch.go call are listed. -/
namespace L1Chain.Exchange

inductive Mode where
  | continuous
  | batchAuction
  deriving DecidableEq, Repr

inductive Side where
  | buy
  | sell
  deriving DecidableEq, Repr

structure OrderID where
  height : UInt64
  index : UInt32
  deriving DecidableEq, Repr

structure Order where
  account : Address
  id : OrderID
  side : Side
  price : Int64
  qty : Int64
  deriving DecidableEq

inductive EngineTx where
  | place (account : Address) (side : Side) (price qty : Int64)
  | cancel (account : Address) (id : OrderID)
  deriving DecidableEq

-- Totals: the locked parts are included in `base` and `quote`.
structure Balance where
  base : Int64
  quote : Int64
  lockedBase : Int64
  lockedQuote : Int64
  deriving DecidableEq

structure AuctionSummary where
  cleared : Bool
  price : Int64
  volume : Int64
  deriving DecidableEq

structure Result where
  accepted : Bool
  err : Option String
  deriving DecidableEq

/- `balances` is `State.Snapshot()`, a Go map: its keys are distinct and the order
of the list is the order of one iteration over it. -/
structure Engine (E : Type) where
  new : Mode → E
  credit : E → Address → Int64 → Int64 → E
  restore : E → List Order → Except String E
  applyPositioned : E → UInt64 → UInt32 → EngineTx → Result × E
  stagePlace : E → UInt64 → UInt32 → EngineTx → Result × Option Order × E
  clearBatch : E → List Order → Except String (AuctionSummary × E)
  book : E → List Order
  balances : E → AList (fun _ : Address => Balance)

inductive ExchangeErr where
  | badCalldata
  | unknownOp
  | rejected
  | balanceRange
  | engine (text : String)
  deriving DecidableEq, Repr

def address : Address := 0xEC0B000000000000000000000000000000000001

def opPlace : UInt8 := 1
def opCancel : UInt8 := 2
def sideBuy : UInt8 := 0
def sideSell : UInt8 := 1

def slice (bs : Bytes) (i j : Nat) : Bytes := (bs.drop i).take (j - i)

def decode (sender : Address) (data : Bytes) : Except ExchangeErr EngineTx :=
  match data with
  | [] => .error .badCalldata
  | op::_ =>
    if op = opPlace then
      if data.length ≠ 18 then .error .badCalldata
      else
        let price := (read64 (slice data 2 10)).toInt64
        let qty := (read64 (slice data 10 18)).toInt64
        let flag := data.getD 1 0
        if flag = sideSell then .ok (.place sender .sell price qty)
        else if flag ≠ sideBuy then .error .badCalldata
        else .ok (.place sender .buy price qty)
    else if op = opCancel then
      if data.length ≠ 13 then .error .badCalldata
      else .ok (.cancel sender ⟨read64 (slice data 1 9),read32 (slice data 9 13)⟩)
    else .error .unknownOp

def isExchangeTx (tx : Transaction) : Bool := tx.recipient = address

def nsHoldings : BitVec 8 := 1
def nsBookSize : BitVec 8 := 2
def nsOrderA : BitVec 8 := 3
def nsOrderB : BitVec 8 := 4
def nsLastAuction : BitVec 8 := 5

def holdingsKey (addr : Address) : Hash := nsHoldings ++ (0 : BitVec 88) ++ addr
def indexKey (ns : BitVec 8) (i : UInt64) : Hash := ns ++ (0 : BitVec 184) ++ i.toBitVec

def field64 (word : Hash) (low : Nat) : UInt64 := ⟨word.extractLsb' low 64⟩

def orderA (o : Order) : Hash := o.account ++ o.id.height.toBitVec ++ o.id.index.toBitVec
def orderB (o : Order) : Hash :=
  (if o.side = .sell then 1 else 0 : BitVec 8) ++ (0 : BitVec 56) ++ o.price.toBitVec ++ o.qty.toBitVec ++ (0 : BitVec 64)

def readOrder (a b : Hash) : Order where
  account := a.extractLsb' 96 160
  id := ⟨field64 a 32,⟨a.extractLsb' 0 32⟩⟩
  side := if b.extractLsb' 248 8 = (1 : BitVec 8) then .sell else .buy
  price := (field64 b 128).toInt64
  qty := (field64 b 64).toInt64

def holdings (bal : Balance) : Hash :=
  bal.base.toBitVec ++ bal.lockedBase.toBitVec ++ bal.lockedQuote.toBitVec ++ (0 : BitVec 64)

def i64 (u : UInt64) : Except ExchangeErr Int64 :=
  if u > 0x7FFFFFFFFFFFFFFF then .error .balanceRange else .ok u.toInt64

variable {S E : Type} [StateDB S]

def bookSize (st : S) : UInt64 := field64 (getStorage st address (indexKey nsBookSize 0)) 0

def orderAt (st : S) (i : UInt64) : Order :=
  readOrder (getStorage st address (indexKey nsOrderA i)) (getStorage st address (indexKey nsOrderB i))

def restingOrders (st : S) : List Order :=
  (List.range (bookSize st).toNat).map (fun i => orderAt st (UInt64.ofNat i))

/- The account set of a load: owners of resting orders, then the named senders,
each once and in order of first appearance. -/
def loadedAccounts (st : S) (extra : List Address) : List Address :=
  ((restingOrders st).map (·.account) ++ extra).eraseDups

def creditAccounts (eng : Engine E) (st : S) : E → List Address → Except ExchangeErr E
  | e, [] => .ok e
  | e, addr::rest => do
    let base ← i64 (field64 (getStorage st address (holdingsKey addr)) 192)
    let quote ← i64 (getAccount st addr).balance
    creditAccounts eng st (eng.credit e addr base quote) rest

def load (eng : Engine E) (st : S) (mode : Mode) (extra : List Address) : Except ExchangeErr E := do
  let e ← creditAccounts eng st (eng.new mode) (loadedAccounts st extra)
  match eng.restore e (restingOrders st) with
  | .error text => .error (.engine text)
  | .ok e => .ok e

def saveOrders (st : S) (i : Nat) : List Order → S
  | [] => st
  | o::rest =>
    let st := setStorage st address (indexKey nsOrderA (UInt64.ofNat i)) (orderA o)
    saveOrders (setStorage st address (indexKey nsOrderB (UInt64.ofNat i)) (orderB o)) (i + 1) rest

def clearSlots (st : S) : List Nat → S
  | [] => st
  | i::rest =>
    let st := setStorage st address (indexKey nsOrderA (UInt64.ofNat i)) 0
    clearSlots (setStorage st address (indexKey nsOrderB (UInt64.ofNat i)) 0) rest

def saveBalances (st : S) : List (Sigma fun _ : Address => Balance) → Except ExchangeErr S
  | [] => .ok st
  | ⟨addr,bal⟩::rest =>
    if bal.quote < 0 then .error .balanceRange
    else
      let st := setAccount st addr {getAccount st addr with balance := bal.quote.toUInt64}
      if bal.base < 0 ∨ bal.lockedBase < 0 ∨ bal.lockedQuote < 0 then .error .balanceRange
      else saveBalances (setStorage st address (holdingsKey addr) (holdings bal)) rest

def save (eng : Engine E) (st : S) (e : E) : Except ExchangeErr S :=
  let prev := (bookSize st).toNat
  let snapshot := eng.book e
  let st := saveOrders st 0 snapshot
  -- slots the book shrank out of, so that equal books leave equal storage
  let st := clearSlots st ((List.range prev).drop snapshot.length)
  let st := setStorage st address (indexKey nsBookSize 0)
    ((0 : BitVec 192) ++ (UInt64.ofNat snapshot.length).toBitVec)
  saveBalances st (eng.balances e).entries

def creditBase (st : S) (addr : Address) (amount : UInt64) : S :=
  let h := getStorage st address (holdingsKey addr)
  setStorage st address (holdingsKey addr) ((field64 h 192 + amount).toBitVec ++ h.extractLsb' 0 192)

def baseOf (st : S) (addr : Address) : UInt64 × UInt64 :=
  let h := getStorage st address (holdingsKey addr)
  (field64 h 192,field64 h 128)

def lockedQuoteOf (st : S) (addr : Address) : UInt64 := field64 (getStorage st address (holdingsKey addr)) 64

def refusal (res : Result) : ExchangeErr :=
  match res.err with
  | some text => .engine text
  | none => .rejected

def apply (eng : Engine E) (st : S) (tx : Transaction) (height : UInt64) (index : UInt32) :
    Except ExchangeErr S := do
  let op ← decode tx.sender tx.data
  let e ← load eng st .continuous [tx.sender]
  let (res,e) := eng.applyPositioned e height index op
  if res.accepted then save eng st e else .error (refusal res)

structure BatchSession (E : Type) where
  engine : E
  staged : List Order
  touched : Bool

def newBatchSession (eng : Engine E) (st : S) (senders : List Address) : Except ExchangeErr (BatchSession E) := do
  let e ← load eng st .batchAuction senders
  .ok ⟨e,[],false⟩

def BatchSession.apply (eng : Engine E) (s : BatchSession E) (height : UInt64) (index : UInt32)
    (sender : Address) (data : Bytes) : Except ExchangeErr (BatchSession E) := do
  let op ← decode sender data
  match op with
  | .cancel .. =>
    let (res,e) := eng.applyPositioned s.engine height index op
    if res.accepted then .ok ⟨e,s.staged,true⟩ else .error (refusal res)
  | .place .. =>
    match eng.stagePlace s.engine height index op with
    | (res,some o,e) => if res.accepted then .ok ⟨e,s.staged ++ [o],true⟩ else .error (refusal res)
    | (res,none,_) => .error (refusal res)

def writeLastAuction (st : S) (price volume : Int64) (height : UInt64) : S :=
  let st := setStorage st address (indexKey nsLastAuction 0)
    (price.toBitVec ++ volume.toBitVec ++ (0 : BitVec 128))
  setStorage st address (indexKey nsLastAuction 1) ((0 : BitVec 192) ++ height.toBitVec)

def BatchSession.finish (eng : Engine E) (s : BatchSession E) (st : S) (height : UInt64) :
    Except ExchangeErr S :=
  if s.touched then
    match eng.clearBatch s.engine s.staged with
    | .error text => .error (.engine text)
    | .ok (summary,e) => do
      let st ← save eng st e
      .ok (if summary.cleared then writeLastAuction st summary.price summary.volume height else st)
  else .ok st

end L1Chain.Exchange
