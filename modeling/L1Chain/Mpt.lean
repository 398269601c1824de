import L1Chain.StateDB
import L1Chain.TrieProof
import Mathlib.Data.List.AList

/-! Package state below its interface: the MPT-backed StateDB with its two levels of tries
(mpt.go), the flat reference StateDB (statedb.go) and account and storage proofs (proof.go).
Go maps are association lists. The tries' recursions are bounded by the depth of a path; a
call that exceeded it would leave everything as it is. -/
namespace L1Chain.Mpt
open Trie

structure Account where
  balance : UInt64
  nonce : UInt64
  codeHash : Hash
  storageRoot : Hash
  deriving DecidableEq

def Account.zero : Account := ⟨0,0,0,0⟩

def accountEncLen : ℕ := 8 + 8 + 32 + 32

def encodeAccount (a : Account) : Bytes :=
  be64 a.balance ++ be64 a.nonce ++ Hash.bytes a.codeHash ++ Hash.bytes a.storageRoot

def decodeAccount (b : Bytes) : Account :=
  if b.length < accountEncLen then .zero
  else ⟨read64 (b.take 8),read64 ((b.drop 8).take 8),Hash.ofBytes ((b.drop 16).take 32),Hash.ofBytes ((b.drop 48).take 32)⟩

def Account.isEmpty (a : Account) : Bool := a.balance = 0 ∧ a.nonce = 0 ∧ a.codeHash = 0 ∧ a.storageRoot = 0

structure Backend (S : Type) where
  getAccount : S → Address → Account
  setAccount : S → Address → Account → S
  getCode : S → Address → Bytes
  setCode : S → Address → Bytes → S
  getStorage : S → Address → Hash → Hash
  setStorage : S → Address → Hash → Hash → S

structure MptDB where
  nodes : Nodes
  code : AList (fun _ : Hash => Bytes)
  root : Hash

def new : MptDB := ⟨[],∅,0⟩

namespace MptDB
variable (sha : Bytes → Hash)

def trieGet (nodes : Nodes) (root : Hash) (key : Bytes) : Option Bytes := (Get sha nodes root key).getD none
def triePut (nodes : Nodes) (root : Hash) (key value : Bytes) : Hash × Nodes := (Put sha nodes root key value).getD (root,nodes)
def trieDelete (nodes : Nodes) (root : Hash) (key : Bytes) : Hash × Nodes := (Delete sha nodes root key).getD (root,nodes)

def getAccount (s : MptDB) (a : Address) : Account :=
  match trieGet sha s.nodes s.root (Address.bytes a) with
  | none => .zero
  | some val => decodeAccount val

def setAccount (s : MptDB) (a : Address) (acct : Account) : MptDB :=
  let r := if acct.isEmpty then trieDelete sha s.nodes s.root (Address.bytes a)
    else triePut sha s.nodes s.root (Address.bytes a) (encodeAccount acct)
  {s with nodes := r.2, root := r.1}

def getCode (s : MptDB) (a : Address) : Bytes :=
  let acct := s.getAccount sha a
  if acct.codeHash = 0 then [] else (s.code.lookup acct.codeHash).getD []

def setCode (s : MptDB) (a : Address) (code : Bytes) : MptDB :=
  let acct := s.getAccount sha a
  if code = [] then s.setAccount sha a {acct with codeHash := 0}
  else
    let h := sha code
    let s := if (s.code.lookup h).isSome then s else {s with code := s.code.insert h code}
    s.setAccount sha a {acct with codeHash := h}

def getStorage (s : MptDB) (a : Address) (key : Hash) : Hash :=
  let acct := s.getAccount sha a
  if acct.storageRoot = 0 then 0
  else match trieGet sha s.nodes acct.storageRoot (Hash.bytes key) with
    | none => 0
    | some val => Hash.ofBytes (window val 0 32)

def setStorage (s : MptDB) (a : Address) (key val : Hash) : MptDB :=
  let acct := s.getAccount sha a
  let r := if val = 0 then trieDelete sha s.nodes acct.storageRoot (Hash.bytes key)
    else triePut sha s.nodes acct.storageRoot (Hash.bytes key) (Hash.bytes val)
  MptDB.setAccount sha {s with nodes := r.2} a {acct with storageRoot := r.1}

def stateRoot (s : MptDB) : Hash := s.root

def backend : Backend MptDB :=
  ⟨getAccount sha,setAccount sha,getCode sha,setCode sha,getStorage sha,setStorage sha⟩

end MptDB

structure MemDB where
  accounts : AList (fun _ : Address => Account)
  code : AList (fun _ : Address => Bytes)
  storage : AList (fun _ : Address => AList (fun _ : Hash => Hash))

def newMem : MemDB := ⟨∅,∅,∅⟩

namespace MemDB

def getAccount (s : MemDB) (a : Address) : Account := (s.accounts.lookup a).getD .zero
def setAccount (s : MemDB) (a : Address) (acct : Account) : MemDB := {s with accounts := s.accounts.insert a acct}

def getCode (s : MemDB) (a : Address) : Bytes := (s.code.lookup a).getD []
def setCode (s : MemDB) (a : Address) (code : Bytes) : MemDB :=
  {s with code := if code = [] then s.code.erase a else s.code.insert a code}

def getStorage (s : MemDB) (a : Address) (key : Hash) : Hash :=
  match s.storage.lookup a with
  | none => 0
  | some m => (m.lookup key).getD 0

def setStorage (s : MemDB) (a : Address) (key val : Hash) : MemDB :=
  if val = 0 then
    match s.storage.lookup a with
    | none => s
    | some m =>
      let m := m.erase key
      {s with storage := if m.entries = [] then s.storage.erase a else s.storage.insert a m}
  else {s with storage := s.storage.insert a (((s.storage.lookup a).getD ∅).insert key val)}

def backend : Backend MemDB := ⟨getAccount,setAccount,getCode,setCode,getStorage,setStorage⟩

end MemDB

structure AccountProof where
  account : Account
  proof : Proof

structure StorageProof where
  accountProof : AccountProof
  slotProof : Proof
  value : Hash

section
variable (sha : Bytes → Hash)

def trieProof (nodes : Nodes) (root : Hash) (key : Bytes) : Proof × Option Bytes :=
  (GenerateProof sha nodes root key).getD ([],none)

def generateAccountProof (nodes : Nodes) (stateRoot : Hash) (a : Address) : Option AccountProof :=
  match trieProof sha nodes stateRoot (Address.bytes a) with
  | (_,none) => none
  | (proof,some value) => some ⟨decodeAccount value,proof⟩

def verifyAccountProof (stateRoot : Hash) (a : Address) (ap : AccountProof) : Bool :=
  VerifyProof sha stateRoot (Address.bytes a) (encodeAccount ap.account) ap.proof

def generateStorageProof (nodes : Nodes) (stateRoot : Hash) (a : Address) (key : Hash) : Option StorageProof :=
  match generateAccountProof sha nodes stateRoot a with
  | none => none
  | some ap =>
    if ap.account.storageRoot = 0 then none
    else match trieProof sha nodes ap.account.storageRoot (Hash.bytes key) with
      | (_,none) => none
      | (slotProof,some value) => some ⟨ap,slotProof,Hash.ofBytes (window value 0 32)⟩

def verifyStorageProof (stateRoot : Hash) (a : Address) (key : Hash) (sp : StorageProof) : Bool :=
  verifyAccountProof sha stateRoot a sp.accountProof &&
    VerifyProof sha sp.accountProof.account.storageRoot (Hash.bytes key) (Hash.bytes sp.value) sp.slotProof

def MptDB.accountProof (s : MptDB) (a : Address) : Option AccountProof := generateAccountProof sha s.nodes s.root a

def MptDB.storageProof (s : MptDB) (a : Address) (key : Hash) : Option StorageProof :=
  generateStorageProof sha s.nodes s.root a key

end
end L1Chain.Mpt
