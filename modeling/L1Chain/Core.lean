import L1Chain.Words
import Mathlib.Data.BitVec

/-! Package core: hashes, addresses, transactions, headers and blocks. SHA-256 is
an explicit primitive `sha`; what a result needs of it is a hypothesis of that
result. `core.Hash` and `core.Address` are the words their bytes spell, so the
zero hash is `0` and `Hex` order is numeric order. -/
namespace L1Chain

abbrev Hash := BitVec 256
abbrev Address := BitVec 160

instance addressLawful : LawfulBEq Address := inferInstance

def Hash.bytes (h : Hash) : Bytes := beBytes 32 h.toNat
def Address.bytes (a : Address) : Bytes := beBytes 20 a.toNat
def Hash.ofBytes (bs : Bytes) : Hash := BitVec.ofNat 256 (beNat bs)
def Address.ofBytes (bs : Bytes) : Address := BitVec.ofNat 160 (beNat bs)

@[simp] theorem hashBytesLength (h : Hash) : (Hash.bytes h).length = 32 := beBytesLength 32 _
@[simp] theorem addressBytesLength (a : Address) : (Address.bytes a).length = 20 := beBytesLength 20 _

@[simp] theorem ofBytesBytes (h : Hash) : Hash.ofBytes (Hash.bytes h) = h := by
  have small : h.toNat % 256 ^ 32 = h.toNat := Nat.mod_eq_of_lt h.isLt
  rw [Hash.ofBytes,Hash.bytes,beNatBytes,small,BitVec.ofNat_toNat,BitVec.setWidth_eq]

theorem addressOfBytes {bs : Bytes} (size : bs.length = 20) : Address.bytes (Address.ofBytes bs) = bs := by
  have bound : beNat bs < 2 ^ 160 := by simpa [size] using beNatLt bs
  rw [Address.bytes,Address.ofBytes,BitVec.toNat_ofNat,Nat.mod_eq_of_lt bound,← size]
  exact beBytesNat bs

theorem hashBytesInjective {h k : Hash} (same : Hash.bytes h = Hash.bytes k) : h = k := by
  simpa using congrArg Hash.ofBytes same

theorem addressBytesInjective {a b : Address} (same : Address.bytes a = Address.bytes b) : a = b :=
  BitVec.eq_of_toNat_eq (beBytesInjective a.isLt b.isLt same)

structure Transaction where
  sender : Address
  recipient : Address
  value : UInt64
  nonce : UInt64
  gasLimit : UInt64
  chainID : UInt64
  gasFeeCap : UInt64
  gasTipCap : UInt64
  data : Bytes
  signature : Bytes
  deriving DecidableEq, Repr

def Transaction.preimage (t : Transaction) (withSig : Bool) : Bytes :=
  Address.bytes t.sender ++ Address.bytes t.recipient ++ be64 t.value ++ be64 t.nonce ++ be64 t.gasLimit ++
    be64 t.chainID ++ be64 t.gasFeeCap ++ be64 t.gasTipCap ++ t.data ++
    (if withSig then t.signature else [])

def Transaction.signingHash (sha : Bytes → Hash) (t : Transaction) : Hash := sha (t.preimage false)
def Transaction.hash (sha : Bytes → Hash) (t : Transaction) : Hash := sha (t.preimage true)

structure Header where
  height : UInt64
  prevHash : Hash
  merkleRoot : Hash
  stateRoot : Hash
  coinbase : Address
  timestamp : Int64
  difficulty : UInt32
  nonce : UInt64
  baseFee : UInt64
  gasUsed : UInt64
  proposerSig : Bytes
  deriving DecidableEq

def Header.preimage (h : Header) (withSig : Bool) : Bytes :=
  be64 h.height ++ Hash.bytes h.prevHash ++ Hash.bytes h.merkleRoot ++ Hash.bytes h.stateRoot ++
    Address.bytes h.coinbase ++ be64 h.timestamp.toUInt64 ++ be32 h.difficulty ++ be64 h.nonce ++
    be64 h.baseFee ++ be64 h.gasUsed ++ (if withSig then h.proposerSig else [])

def Header.signingHash (sha : Bytes → Hash) (h : Header) : Hash := sha (h.preimage false)
def Header.hash (sha : Bytes → Hash) (h : Header) : Hash := sha (h.preimage true)

structure Block where
  header : Header
  txs : List Transaction
  deriving DecidableEq

def Block.hash (sha : Bytes → Hash) (b : Block) : Hash := b.header.hash sha

def hashConcat (sha : Bytes → Hash) (parts : List Bytes) : Hash := sha parts.flatten

/- An odd level repeats its last node, so every internal node has two children. -/
def padOdd (level : List Hash) : List Hash :=
  if level.length % 2 = 1 then level ++ level.getLast?.toList else level

def pairUp (sha : Bytes → Hash) : List Hash → List Hash
  | left::right::rest => hashConcat sha [Hash.bytes left,Hash.bytes right]::pairUp sha rest
  | _ => []

-- Every round at least halves a level of two or more nodes, so the number of
-- leaves bounds the rounds.
def merkleRounds (sha : Bytes → Hash) : Nat → List Hash → Hash
  | 0, level => level.headD 0
  | fuel+1, level =>
      if level.length ≤ 1 then level.headD 0 else merkleRounds sha fuel (pairUp sha (padOdd level))

def merkleRoot (sha : Bytes → Hash) (leaves : List Hash) : Hash :=
  if leaves = [] then 0 else merkleRounds sha leaves.length leaves

def Block.txRoot (sha : Bytes → Hash) (b : Block) : Hash := merkleRoot sha (b.txs.map (·.hash sha))

end L1Chain
