import L1Chain.StateDB

/-! Packages evm and evm/adapter: code tags and the journaled `vm.StateDB` over a
base state. The go-ethereum interpreter is not part of the repository: a message
is a `Prog`, a tree of the `vm.StateDB` calls it issues and the replies it goes on
with, ending in the gas it used. The journal's undo closures are the constructors
of `Undo`; a Go panic is `none`. -/
namespace L1Chain.Evm

def deployAddress : Address := 0x45564D0000000000000000000000000000000001

def codeMagic : Bytes := [0xFE,0x4C,0x31,0x45,0x56,0x4D,0x31,0xFE]

def tagCode (runtime : Bytes) : Bytes := codeMagic ++ runtime
def isTaggedCode (code : Bytes) : Bool := code.length ≥ codeMagic.length ∧ code.take codeMagic.length = codeMagic
def untagCode (code : Bytes) : Bytes := if isTaggedCode code then code.drop codeMagic.length else code

end L1Chain.Evm

namespace L1Chain.Adapter
open Evm

abbrev Word := BitVec 256

structure Log where
  address : Address
  topics : List Hash
  data : Bytes
  index : Nat
  deriving DecidableEq

inductive Undo where
  | touched (a : Address)
  | nonce (a : Address) (prev : UInt64)
  | balance (a : Address) (prev : UInt64)
  | code (a : Address) (prev : Bytes)
  | refund (prev : UInt64)
  | newContract (a : Address)
  | selfDestructed (a : Address)
  | warmAddr (a : Address)
  | warmSlot (a : Address) (slot : Hash)
  | transient (a : Address) (key prev : Hash)
  | storage (a : Address) (key prev : Hash)
  | log
  deriving DecidableEq

-- `err` latches the one unrecoverable condition, a balance outside 64 bits.
inductive AdapterErr where
  | overflow (a : Address)
  | underflow (a : Address)
  deriving DecidableEq, Repr

/- `touched` is a Go map that `Finalise` ranges over: the list holds its keys, each
once. The other sets are only asked for membership. -/
structure StateDB (S : Type) where
  base : S
  journal : List Undo
  err : Option AdapterErr
  refund : UInt64
  touched : List Address
  selfDestructed : Address → Bool
  newContracts : Address → Bool
  warmAddrs : Address → Bool
  warmSlots : Address × Hash → Bool
  transient : Address × Hash → Hash
  committed : Address × Hash → Option Hash
  logs : List Log
  preimages : Hash → Option Bytes

def new {S : Type} (base : S) : StateDB S where
  base := base
  journal := []
  err := none
  refund := 0
  touched := []
  selfDestructed := fun _ => false
  newContracts := fun _ => false
  warmAddrs := fun _ => false
  warmSlots := fun _ => false
  transient := fun _ => 0
  committed := fun _ => none
  logs := []
  preimages := fun _ => none

def set {K V : Type} [DecidableEq K] (f : K → V) (k : K) (v : V) : K → V := fun x => if x = k then v else f x

variable {S : Type} [L1Chain.StateDB S]

def setNonce (base : S) (a : Address) (nonce : UInt64) : S :=
  setAccount base a {getAccount base a with nonce := nonce}
def setBalance (base : S) (a : Address) (balance : UInt64) : S :=
  setAccount base a {getAccount base a with balance := balance}

def installCode (base : S) (a : Address) (code : Bytes) : S :=
  setCode base a (if code = [] then [] else tagCode code)

namespace StateDB

def undo (s : StateDB S) : Undo → StateDB S
  | .touched a => {s with touched := s.touched.filter (· ≠ a)}
  | .nonce a prev => {s with base := setNonce s.base a prev}
  | .balance a prev => {s with base := setBalance s.base a prev}
  | .code a prev => {s with base := installCode s.base a prev}
  | .refund prev => {s with refund := prev}
  | .newContract a => {s with newContracts := set s.newContracts a false}
  | .selfDestructed a => {s with selfDestructed := set s.selfDestructed a false}
  | .warmAddr a => {s with warmAddrs := set s.warmAddrs a false}
  | .warmSlot a slot => {s with warmSlots := set s.warmSlots (a,slot) false}
  | .transient a key prev => {s with transient := set s.transient (a,key) prev}
  | .storage a key prev => {s with base := setStorage s.base a key prev}
  | .log => {s with logs := s.logs.dropLast}

-- The journal's newest entry stands first, so a snapshot is the length to keep.
def record (s : StateDB S) (u : Undo) : StateDB S := {s with journal := u::s.journal}

def snapshot (s : StateDB S) : Nat := s.journal.length

def unwind (s : StateDB S) : List Undo → StateDB S
  | [] => s
  | u::rest => (s.undo u).unwind rest

def revertToSnapshot (s : StateDB S) (id : Nat) : Option (StateDB S) :=
  if id ≤ s.journal.length then
    let n := s.journal.length - id
    some {s.unwind (s.journal.take n) with journal := s.journal.drop n}
  else none

def touch (s : StateDB S) (a : Address) : StateDB S :=
  if a ∈ s.touched then s else {s with touched := a::s.touched}.record (.touched a)

def writeBalance (s : StateDB S) (a : Address) (balance : UInt64) : StateDB S :=
  {s with base := setBalance s.base a balance}.record (.balance a (getAccount s.base a).balance)

def toUint256 (v : UInt64) : Word := v.toBitVec.setWidth 256

def fail (s : StateDB S) (e : AdapterErr) : StateDB S :=
  {s with err := s.err.or (some e)}

def addBalance (s : StateDB S) (a : Address) (amount : Word) : StateDB S :=
  let s := s.touch a
  let sum := toUint256 (getAccount s.base a).balance + amount
  if sum.toNat < 2 ^ 64 then s.writeBalance a (UInt64.ofNat sum.toNat) else s.fail (.overflow a)

def subBalance (s : StateDB S) (a : Address) (amount : Word) : StateDB S :=
  let s := s.touch a
  let diff := toUint256 (getAccount s.base a).balance - amount
  if diff.toNat < 2 ^ 64 then s.writeBalance a (UInt64.ofNat diff.toNat) else s.fail (.underflow a)

def addWarmAddr (s : StateDB S) (a : Address) : StateDB S :=
  if s.warmAddrs a then s else {s with warmAddrs := set s.warmAddrs a true}.record (.warmAddr a)

def addWarmSlot (s : StateDB S) (a : Address) (slot : Hash) : StateDB S :=
  if s.warmSlots (a,slot) then s
  else {s with warmSlots := set s.warmSlots (a,slot) true}.record (.warmSlot a slot)

def cacheCommitted (s : StateDB S) (a : Address) (key : Hash) : StateDB S :=
  match s.committed (a,key) with
  | some _ => s
  | none => {s with committed := set s.committed (a,key) (some (getStorage s.base a key))}

def code (s : StateDB S) (a : Address) : Bytes := untagCode (getCode s.base a)

end StateDB

def basePersisted (acct : Account) : Bool :=
  acct.balance ≠ 0 ∨ acct.nonce ≠ 0 ∨ acct.code ≠ [] ∨ ¬ ∀ key, acct.storage key = 0

def basePersistedEmpty (acct : Account) : Bool := acct.balance = 0 ∧ acct.nonce = 0 ∧ acct.code = []

inductive Request where
  | getNonce (a : Address)
  | setNonce (a : Address) (nonce : UInt64)
  | getBalance (a : Address)
  | addBalance (a : Address) (amount : Word)
  | subBalance (a : Address) (amount : Word)
  | getCode (a : Address)
  | getCodeSize (a : Address)
  | getCodeHash (a : Address)
  | setCode (a : Address) (code : Bytes)
  | addRefund (gas : UInt64)
  | subRefund (gas : UInt64)
  | getRefund
  | exist (a : Address)
  | touch (a : Address)
  | empty (a : Address)
  | createAccount (a : Address)
  | createContract (a : Address)
  | isNewContract (a : Address)
  | selfDestruct (a : Address)
  | hasSelfDestructed (a : Address)
  | addAddressToAccessList (a : Address)
  | addSlotToAccessList (a : Address) (slot : Hash)
  | addressInAccessList (a : Address)
  | slotInAccessList (a : Address) (slot : Hash)
  | getTransientState (a : Address) (key : Hash)
  | setTransientState (a : Address) (key value : Hash)
  | getState (a : Address) (key : Hash)
  | setState (a : Address) (key value : Hash)
  | getStateAndCommittedState (a : Address) (key : Hash)
  | snapshot
  | revertToSnapshot (id : Nat)
  | addLog (address : Address) (topics : List Hash) (data : Bytes)
  | addPreimage (hash : Hash) (preimage : Bytes)
  deriving DecidableEq

inductive Reply where
  | unit
  | flag (b : Bool)
  | flags (a b : Bool)
  | number (n : Nat)
  | bytes (bs : Bytes)
  | hash (h : Hash)
  | hashes (current committed : Hash)
  deriving DecidableEq

namespace StateDB

def serve (sha : Bytes → Hash) (s : StateDB S) : Request → Option (Reply × StateDB S)
  | .getNonce a => some (.number (getAccount s.base a).nonce.toNat,s)
  | .setNonce a nonce =>
    let s := s.touch a
    some (.unit,{s with base := setNonce s.base a nonce}.record (.nonce a (getAccount s.base a).nonce))
  | .getBalance a => some (.number (getAccount s.base a).balance.toNat,s)
  | .addBalance a amount => some (.number (getAccount s.base a).balance.toNat,s.addBalance a amount)
  | .subBalance a amount => some (.number (getAccount s.base a).balance.toNat,s.subBalance a amount)
  | .getCode a => some (.bytes (s.code a),s)
  | .getCodeSize a => some (.number (s.code a).length,s)
  | .getCodeHash a => some (.hash (if s.code a = [] then 0 else sha (s.code a)),s)
  | .setCode a code =>
    let prev := s.code a
    let s := s.touch a
    some (.bytes prev,{s with base := installCode s.base a code}.record (.code a prev))
  | .addRefund gas => some (.unit,{s with refund := s.refund + gas}.record (.refund s.refund))
  | .subRefund gas =>
    if gas > s.refund then none else some (.unit,{s with refund := s.refund - gas}.record (.refund s.refund))
  | .getRefund => some (.number s.refund.toNat,s)
  | .exist a => some (.flag (a ∈ s.touched || basePersisted (getAccount s.base a)),s)
  | .touch a => some (.unit,s.touch a)
  | .empty a => some (.flag (basePersistedEmpty (getAccount s.base a)),s)
  | .createAccount a => some (.unit,s.touch a)
  | .createContract a =>
    let s := s.touch a
    if s.newContracts a then some (.unit,s)
    else some (.unit,{s with newContracts := set s.newContracts a true}.record (.newContract a))
  | .isNewContract a => some (.flag (s.newContracts a),s)
  | .selfDestruct a =>
    let s := s.touch a
    if s.selfDestructed a then some (.unit,s)
    else some (.unit,{s with selfDestructed := set s.selfDestructed a true}.record (.selfDestructed a))
  | .hasSelfDestructed a => some (.flag (s.selfDestructed a),s)
  | .addAddressToAccessList a => some (.unit,s.addWarmAddr a)
  | .addSlotToAccessList a slot => some (.unit,(s.addWarmAddr a).addWarmSlot a slot)
  | .addressInAccessList a => some (.flag (s.warmAddrs a),s)
  | .slotInAccessList a slot => some (.flags (s.warmAddrs a) (s.warmSlots (a,slot)),s)
  | .getTransientState a key => some (.hash (s.transient (a,key)),s)
  | .setTransientState a key value =>
    let prev := s.transient (a,key)
    if prev = value then some (.unit,s)
    else some (.unit,{s with transient := set s.transient (a,key) value}.record (.transient a key prev))
  | .getState a key => some (.hash (getStorage s.base a key),s)
  | .setState a key value =>
    let s := (s.touch a).cacheCommitted a key
    let prev := getStorage s.base a key
    some (.hash prev,{s with base := setStorage s.base a key value}.record (.storage a key prev))
  | .getStateAndCommittedState a key =>
    let s := s.cacheCommitted a key
    some (.hashes (getStorage s.base a key) ((s.committed (a,key)).getD 0),s)
  | .snapshot => some (.number s.snapshot,s)
  | .revertToSnapshot id => (s.revertToSnapshot id).map (fun s => (.unit,s))
  | .addLog address topics data =>
    some (.unit,{s with logs := s.logs ++ [(⟨address,topics,data,s.logs.length⟩ : Log)]}.record .log)
  | .addPreimage hash preimage =>
    match s.preimages hash with
    | some _ => some (.unit,s)
    | none => some (.unit,{s with preimages := set s.preimages hash (some preimage)})

def prepare (s : StateDB S) (sender coinbase : Address) (dst : Option Address) (precompiles : List Address) :
    StateDB S :=
  {s with
    warmAddrs := fun a => a = sender ∨ some a = dst ∨ a ∈ precompiles ∨ a = coinbase
    warmSlots := fun _ => false
    transient := fun _ => 0
    committed := fun _ => none}

def deletes (s : StateDB S) (a : Address) : Bool :=
  s.selfDestructed a || basePersistedEmpty (getAccount s.base a)

-- `Finalise(true)`: EIP-158 is active from genesis in ModernChainConfig.
def finaliseOne (s : StateDB S) (a : Address) : StateDB S :=
  if s.deletes a then
    {s with
      base := setAccount s.base a Account.zero
      touched := s.touched.filter (· ≠ a)
      selfDestructed := set s.selfDestructed a false
      newContracts := set s.newContracts a false}
  else s

def finalise (s : StateDB S) : StateDB S := s.touched.foldl finaliseOne s

end StateDB

inductive Prog where
  | done (gasUsed : UInt64)
  | ask (r : Request) (k : Reply → Prog)

def interpret (sha : Bytes → Hash) : Prog → StateDB S → Option (UInt64 × StateDB S)
  | .done gasUsed, s => some (gasUsed,s)
  | .ask r k, s =>
    match s.serve sha r with
    | none => none
    | some (reply,s) => interpret sha (k reply) s

/- The entry points of the interpreter: `Create` and `Call` under the block number
and base fee of the header, and the precompiles `Prepare` warms. -/
structure Interpreter where
  precompiles : List Address
  create : UInt64 → UInt64 → Address → Bytes → UInt64 → UInt64 → Prog
  call : UInt64 → UInt64 → Address → Address → Bytes → UInt64 → UInt64 → Prog

end L1Chain.Adapter
