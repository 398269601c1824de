import L1Chain.StateDB
import Mathlib.Data.List.AList

/-! Package vm: the StackVM. Words are the integers `big.Int` holds, wrapped
where the source wraps them. The three maps of a scope are association lists, so
that a commit writes exactly what was buffered; the nested storage map is keyed
by address and key together. `run` is driven by `fuel`, one unit an instruction. -/
namespace L1Chain.StackVM

inductive VmErr where
  | outOfGas
  | stackUnderflow
  | stackOverflow
  | invalidJump
  | invalidOpcode
  | memoryLimit
  | insufficientFunds
  | outOfFuel
  deriving DecidableEq, Repr

def maxStack : Nat := 1024
def maxCallDepth : Nat := 1024
def maxMemBytes : Nat := 1 <<< 16
def gasCreate : UInt64 := 32000
def gasCall : UInt64 := 700

inductive Op where
  | stop | add | mul | sub | div
  | lt | gt | eq | iszero
  | callvalue | calldataload | calldatasize
  | pop | mload | mstore | sload | sstore | jump | jumpi | jumpdest
  | push (n : Nat)
  | dup1 | swap1 | call | ret
  deriving DecidableEq, Repr

def opcode (byte : UInt8) : Option Op :=
  match byte.toNat with
  | 0x00 => some .stop
  | 0x01 => some .add
  | 0x02 => some .mul
  | 0x03 => some .sub
  | 0x04 => some .div
  | 0x10 => some .lt
  | 0x11 => some .gt
  | 0x14 => some .eq
  | 0x15 => some .iszero
  | 0x34 => some .callvalue
  | 0x35 => some .calldataload
  | 0x36 => some .calldatasize
  | 0x50 => some .pop
  | 0x51 => some .mload
  | 0x52 => some .mstore
  | 0x54 => some .sload
  | 0x55 => some .sstore
  | 0x56 => some .jump
  | 0x57 => some .jumpi
  | 0x5b => some .jumpdest
  | 0x80 => some .dup1
  | 0x90 => some .swap1
  | 0xf1 => some .call
  | 0xf3 => some .ret
  | n => if 0x60 ≤ n ∧ n ≤ 0x7f then some (.push (n - 0x60 + 1)) else none

def gasCost : Option Op → UInt64
  | some .stop | some .ret => 0
  | some .add | some .sub => 3
  | some .mul | some .div => 5
  | some .lt | some .gt | some .eq | some .iszero => 3
  | some .callvalue | some .calldatasize => 2
  | some .calldataload => 3
  | some .pop => 2
  | some .mload | some .mstore => 3
  | some .sload => 200
  | some .sstore => 5000
  | some .jump => 8
  | some .jumpi => 10
  | some .jumpdest => 1
  | some (.push _) => 3
  | some .dup1 | some .swap1 => 3
  | some .call => gasCall
  | none => 0

structure Layer where
  acct : AList (fun _ : Address => Account)
  code : AList (fun _ : Address => Bytes)
  storage : AList (fun _ : Address × Hash => Hash)

def Layer.empty : Layer := ⟨∅,∅,∅⟩

structure Scope (S : Type) where
  base : S
  parents : List Layer
  top : Layer

section
variable {S : Type} [StateDB S]

def readAccount (base : S) : List Layer → Address → Account
  | [], a => getAccount base a
  | l::below, a => (l.acct.lookup a).getD (readAccount base below a)

def readCode (base : S) : List Layer → Address → Bytes
  | [], a => getCode base a
  | l::below, a => (l.code.lookup a).getD (readCode base below a)

def readStorage (base : S) : List Layer → Address → Hash → Hash
  | [], a, k => getStorage base a k
  | l::below, a, k => (l.storage.lookup (a,k)).getD (readStorage base below a k)

namespace Scope

def new (base : S) : Scope S := ⟨base,[],Layer.empty⟩
def child (sc : Scope S) : Scope S := ⟨sc.base,sc.top::sc.parents,Layer.empty⟩
def getAccount (sc : Scope S) (a : Address) : Account := readAccount sc.base (sc.top::sc.parents) a
def getCode (sc : Scope S) (a : Address) : Bytes := readCode sc.base (sc.top::sc.parents) a
def getStorage (sc : Scope S) (a : Address) (k : Hash) : Hash := readStorage sc.base (sc.top::sc.parents) a k

def setAccount (sc : Scope S) (a : Address) (acct : Account) : Scope S :=
  {sc with top := {sc.top with acct := sc.top.acct.insert a acct}}
def setCode (sc : Scope S) (a : Address) (code : Bytes) : Scope S :=
  {sc with top := {sc.top with code := sc.top.code.insert a code}}
def setStorage (sc : Scope S) (a : Address) (k v : Hash) : Scope S :=
  {sc with top := {sc.top with storage := sc.top.storage.insert (a,k) v}}

def commit (sc : Scope S) : Scope S :=
  match sc.parents with
  | [] => sc
  | p::ps => ⟨sc.base,ps,⟨sc.top.acct ∪ p.acct,sc.top.code ∪ p.code,sc.top.storage ∪ p.storage⟩⟩

def flush (sc : Scope S) : S :=
  let st := sc.top.acct.entries.foldl (fun st e => StateDB.setAccount st e.1 e.2) sc.base
  let st := sc.top.code.entries.foldl (fun st e => StateDB.setCode st e.1 e.2) st
  sc.top.storage.entries.foldl (fun st e => StateDB.setStorage st e.1.1 e.1.2 e.2) st

def transfer (sc : Scope S) (sender to' : Address) (value : UInt64) : Except VmErr (Scope S) :=
  if value = 0 ∨ sender = to' then .ok sc
  else
    let f := sc.getAccount sender
    if f.balance < value then .error .insufficientFunds
    else
      let sc := sc.setAccount sender {f with balance := f.balance - value}
      let t := sc.getAccount to'
      .ok (sc.setAccount to' {t with balance := t.balance + value})

end Scope
end

structure GasMeter where
  limit : UInt64
  used : UInt64
  deriving DecidableEq, Repr

def GasMeter.charge (g : GasMeter) (cost : UInt64) : GasMeter × Except VmErr Unit :=
  if g.used + cost > g.limit ∨ g.used + cost < g.used then (⟨g.limit,g.limit⟩,.error .outOfGas)
  else (⟨g.limit,g.used + cost⟩,.ok ())

def wrap (x : Int) : Int := x % 2 ^ 256
def boolWord (b : Bool) : Int := if b then 1 else 0
def bigToHash (v : Int) : Hash := BitVec.ofInt 256 v
def addrFromWord (v : Int) : Address := (bigToHash v).setWidth 160
def isUint64 (v : Int) : Bool := 0 ≤ v ∧ v < 2 ^ 64

def toIndex (v : Int) : Option Nat := if isUint64 v ∧ v ≤ 2 ^ 32 - 1 then some v.toNat else none

def push (st : List Int) (v : Int) : Except VmErr (List Int) :=
  if st.length ≥ maxStack then .error .stackOverflow else .ok (v::st)

def pop : List Int → Except VmErr (Int × List Int)
  | [] => .error .stackUnderflow
  | v::st => .ok (v,st)

def pop2 (st : List Int) : Except VmErr (Int × Int × List Int) := do
  let (a,st) ← pop st
  let (b,st) ← pop st
  .ok (a,b,st)

def swap1 : List Int → Except VmErr (List Int)
  | a::b::st => .ok (b::a::st)
  | _ => .error .stackUnderflow

def ensureMem (mem : Bytes) (size : Nat) : Bytes := mem ++ List.replicate (size - mem.length) 0

def writeMem (mem : Bytes) (start : Nat) (bs : Bytes) : Bytes :=
  mem.take start ++ bs ++ mem.drop (start + bs.length)

-- CALLDATALOAD reads zeros where the offset does not fit an index.
def readData (data : Bytes) (off : Int) : Bytes :=
  match toIndex off with
  | none => List.replicate 32 0
  | some idx => window data idx 32

-- Offsets of real JUMPDESTs: the linear scan that skips the immediates of PUSHes.
def scanJumpdests (code : Bytes) : Nat → Nat → List Nat
  | 0, _ => []
  | fuel+1, i =>
    match code[i]? with
    | none => []
    | some byte =>
      match opcode byte with
      | some .jumpdest => i::scanJumpdests code fuel (i + 1)
      | some (.push n) => scanJumpdests code fuel (i + n + 1)
      | _ => scanJumpdests code fuel (i + 1)

def validJumpdests (code : Bytes) : List Nat := scanJumpdests code code.length 0

structure Frame where
  pc : Nat
  stack : List Int
  mem : Bytes

structure CallArgs where
  to' : Address
  value : UInt64
  argsOff : Int
  argsSize : Int
  retOff : Int
  retSize : Int

/- What the frame around an instruction is fixed to: its code, its own address,
the value it was called with and its calldata. -/
structure Context where
  code : Bytes
  self : Address
  callValue : UInt64
  calldata : Bytes

inductive Step (S : Type) where
  | halt (ret : Bytes)
  | next (f : Frame) (sc : Scope S)
  | call (args : CallArgs) (f : Frame)

def popCallArgs (st : List Int) : Except VmErr (CallArgs × List Int) := do
  let (_,st) ← pop st
  let (addrW,st) ← pop st
  let (valueW,st) ← pop st
  let (argsOff,st) ← pop st
  let (argsSize,st) ← pop st
  let (retOff,st) ← pop st
  let (retSize,st) ← pop st
  let value := if isUint64 valueW then UInt64.ofNat valueW.toNat else 0
  .ok (⟨addrFromWord addrW,value,argsOff,argsSize,retOff,retSize⟩,st)

def jumpTo (code : Bytes) (dest : Int) : Except VmErr Nat :=
  match toIndex dest with
  | none => .error .invalidJump
  | some d => if d ∈ validJumpdests code then .ok d else .error .invalidJump

def memWindow (mem : Bytes) (off : Int) : Except VmErr (Nat × Bytes) :=
  match toIndex off with
  | none => .error .memoryLimit
  | some idx => if idx + 32 > maxMemBytes then .error .memoryLimit else .ok (idx,ensureMem mem (idx + 32))

def memRange (mem : Bytes) (off size : Int) : Except VmErr (Nat × Nat × Bytes) :=
  match toIndex off,toIndex size with
  | some i,some n => if i + n > maxMemBytes then .error .memoryLimit else .ok (i,n,ensureMem mem (i + n))
  | _,_ => .error .memoryLimit

section
variable {S : Type} [StateDB S]

def next (f : Frame) (sc : Scope S) (stack : List Int) : Step S := .next ⟨f.pc + 1,stack,f.mem⟩ sc

def binary (f : Frame) (sc : Scope S) (op : Int → Int → Int) : Except VmErr (Step S) := do
  let (a,b,st) ← pop2 f.stack
  let st ← push st (op a b)
  .ok (next f sc st)

def exec (ctx : Context) (f : Frame) (sc : Scope S) : Op → Except VmErr (Step S)
  | .stop => .ok (.halt [])
  | .add => binary f sc (fun a b => wrap (a + b))
  | .sub => binary f sc (fun a b => wrap (a - b))
  | .mul => binary f sc (fun a b => wrap (a * b))
  | .div => binary f sc (fun a b => if b = 0 then 0 else a / b)
  | .lt => binary f sc (fun a b => boolWord (a < b))
  | .gt => binary f sc (fun a b => boolWord (a > b))
  | .eq => binary f sc (fun a b => boolWord (a = b))
  | .iszero => do
    let (a,st) ← pop f.stack
    let st ← push st (boolWord (a = 0))
    .ok (next f sc st)
  | .callvalue => do
    let st ← push f.stack ctx.callValue.toNat
    .ok (next f sc st)
  | .calldatasize => do
    let st ← push f.stack ctx.calldata.length
    .ok (next f sc st)
  | .calldataload => do
    let (off,st) ← pop f.stack
    let st ← push st (beNat (readData ctx.calldata off))
    .ok (next f sc st)
  | .pop => do
    let (_,st) ← pop f.stack
    .ok (next f sc st)
  | .mload => do
    let (off,st) ← pop f.stack
    let (idx,mem) ← memWindow f.mem off
    let st ← push st (beNat ((mem.drop idx).take 32))
    .ok (.next ⟨f.pc + 1,st,mem⟩ sc)
  | .mstore => do
    let (off,st) ← pop f.stack
    let (val,st) ← pop st
    let (idx,mem) ← memWindow f.mem off
    .ok (.next ⟨f.pc + 1,st,writeMem mem idx (Hash.bytes (bigToHash val))⟩ sc)
  | .sload => do
    let (key,st) ← pop f.stack
    let st ← push st (sc.getStorage ctx.self (bigToHash key)).toNat
    .ok (next f sc st)
  | .sstore => do
    let (key,st) ← pop f.stack
    let (val,st) ← pop st
    .ok (next f (sc.setStorage ctx.self (bigToHash key) (bigToHash val)) st)
  | .jump => do
    let (dest,st) ← pop f.stack
    let d ← jumpTo ctx.code dest
    .ok (.next ⟨d,st,f.mem⟩ sc)
  | .jumpi => do
    let (dest,st) ← pop f.stack
    let (cond,st) ← pop st
    if cond ≠ 0 then
      let d ← jumpTo ctx.code dest
      .ok (.next ⟨d,st,f.mem⟩ sc)
    else .ok (next f sc st)
  | .jumpdest => .ok (next f sc f.stack)
  | .push n => do
    let st ← push f.stack (beNat (window ctx.code (f.pc + 1) n))
    .ok (.next ⟨f.pc + 1 + n,st,f.mem⟩ sc)
  | .dup1 =>
    match f.stack with
    | [] => .error .stackUnderflow
    | v::_ => do
      let st ← push f.stack v
      .ok (next f sc st)
  | .swap1 => do
    let st ← swap1 f.stack
    .ok (next f sc st)
  | .ret => do
    let (off,st) ← pop f.stack
    let (size,_) ← pop st
    let (i,n,mem) ← memRange f.mem off size
    .ok (.halt ((mem.drop i).take n))
  | .call => do
    let (args,st) ← popCallArgs f.stack
    .ok (.call args ⟨f.pc,st,f.mem⟩)

def callReturn (args : CallArgs) (f : Frame) (ret : Bytes) : Except VmErr Frame := do
  let mem ← match toIndex args.retOff,toIndex args.retSize with
    | some i,some n =>
      if i + n > maxMemBytes then .error .memoryLimit
      else if n > 0 then .ok (writeMem (ensureMem f.mem (i + n)) i (ret.take n))
      else .ok f.mem
    | _,_ => .error .memoryLimit
  let st ← push f.stack 1
  .ok ⟨f.pc + 1,st,mem⟩

def pushZero (f : Frame) : Except VmErr Frame := do
  let st ← push f.stack 0
  .ok ⟨f.pc + 1,st,f.mem⟩

abbrev RunResult (S : Type) := GasMeter × Except VmErr (Bytes × Scope S)

def run : Nat → GasMeter → Scope S → Nat → Context → Frame → RunResult S
  | 0, g, _, _, _, _ => (g,.error .outOfFuel)
  | fuel+1, g, sc, depth, ctx, f =>
    match ctx.code[f.pc]? with
    | none => (g,.ok ([],sc))
    | some byte =>
      match g.charge (gasCost (opcode byte)) with
      | (g,.error e) => (g,.error e)
      | (g,.ok ()) =>
        match opcode byte with
        | none => (g,.error .invalidOpcode)
        | some op =>
          match exec ctx f sc op with
          | .error e => (g,.error e)
          | .ok (.halt ret) => (g,.ok (ret,sc))
          | .ok (.next f sc) => run fuel g sc depth ctx f
          | .ok (.call args f) =>
            -- the depth limit fails the CALL without looking at its memory
            if depth + 1 > maxCallDepth then
              match pushZero f with
              | .error e => (g,.error e)
              | .ok f => run fuel g sc depth ctx f
            else match memRange f.mem args.argsOff args.argsSize with
            | .error e => (g,.error e)
            | .ok (i,n,mem) =>
              let f : Frame := ⟨f.pc,f.stack,mem⟩
              match sc.child.transfer ctx.self args.to' args.value with
              | .error _ =>
                match pushZero f with
                | .error e => (g,.error e)
                | .ok f => run fuel g sc depth ctx f
              | .ok inner =>
                let callee : Context := ⟨inner.getCode args.to',args.to',args.value,(mem.drop i).take n⟩
                match run fuel g inner (depth + 1) callee ⟨0,[],[]⟩ with
                -- a global out-of-gas aborts the whole message
                | (g,.error .outOfGas) => (g,.error .outOfGas)
                | (g,.error .outOfFuel) => (g,.error .outOfFuel)
                | (g,.error _) =>
                  match pushZero f with
                  | .error e => (g,.error e)
                  | .ok f => run fuel g sc depth ctx f
                | (g,.ok (ret,inner)) =>
                  match callReturn args f ret with
                  | .error e => (g,.error e)
                  | .ok f => run fuel g inner.commit depth ctx f

structure Message where
  sender : Address
  to' : Option Address
  value : UInt64
  gasLimit : UInt64
  nonce : UInt64
  data : Bytes

structure Receipt where
  gasUsed : UInt64
  success : Bool
  returnData : Bytes
  contractAddress : Option Address
  err : Option VmErr
  deriving DecidableEq

def createAddress (sha : Bytes → Hash) (sender : Address) (nonce : UInt64) : Address :=
  (sha (Address.bytes sender ++ be64 nonce)).setWidth 160

def finalGas (g : GasMeter) (e : VmErr) : UInt64 := if e = .outOfGas then g.limit else g.used

def failed (gasUsed : UInt64) (e : VmErr) : Receipt := ⟨gasUsed,false,[],none,some e⟩

def create (sha : Bytes → Hash) (g : GasMeter) (st : S) (msg : Message) : Receipt × S :=
  match g.charge gasCreate with
  | (g,.error _) => (failed g.limit .outOfGas,st)
  | (g,.ok ()) =>
    let addr := createAddress sha msg.sender msg.nonce
    match (Scope.new st).transfer msg.sender addr msg.value with
    | .error e => (failed g.used e,st)
    | .ok root => (⟨g.used,true,[],some addr,none⟩,(root.setCode addr msg.data).flush)

-- Every instruction that does not end its frame costs gas, so the limit bounds
-- the instructions of a message and this much fuel is never used up.
def fuelFor (limit : UInt64) : Nat := limit.toNat + 2

def execute (sha : Bytes → Hash) (st : S) (msg : Message) : Receipt × S :=
  let g : GasMeter := ⟨msg.gasLimit,0⟩
  match msg.to' with
  | none => create sha g st msg
  | some self =>
    match (Scope.new st).transfer msg.sender self msg.value with
    | .error e => (failed g.used e,st)
    | .ok root =>
      match run (fuelFor msg.gasLimit) g root 0 ⟨root.getCode self,self,msg.value,msg.data⟩ ⟨0,[],[]⟩ with
      | (g,.error e) => (failed (finalGas g e) e,st)
      | (g,.ok (ret,root)) => (⟨g.used,true,ret,none,none⟩,root.flush)

end
end L1Chain.StackVM
