import L1Chain.Core
import Mathlib.Logic.Function.Basic

/-! Package trie: node.go and trie.go. The node store is a Go map that is only ever
assigned to: it is the list of its assignments, newest first, and a lookup finds the
newest. The recursions follow a path of nibbles through nodes read from the store; they
are bounded by fuel, and running out of it is `none`. -/
namespace L1Chain.Trie

abbrev Nibble := Fin 16
abbrev Nodes := List (Hash × Bytes)

inductive Node where
  | leaf (nibbles : List Nibble) (value : Bytes)
  | extension (nibbles : List Nibble) (child : Hash)
  | branch (children : Nibble → Hash) (value : Option Bytes)

inductive TrieErr where
  | shortInput
  | badTag
  deriving DecidableEq, Repr

def tagLeaf : UInt8 := 0x01
def tagExtension : UInt8 := 0x02
def tagBranch : UInt8 := 0x03

def high (b : UInt8) : Nibble := Fin.ofNat 16 (b >>> 4).toNat
def low (b : UInt8) : Nibble := Fin.ofNat 16 (b &&& 0x0f).toNat
def byte (n : Nibble) : UInt8 := UInt8.ofNat n.val

def nibblesOf (bs : Bytes) : List Nibble := bs.flatMap (fun b => [high b,low b])

def path (sha : Bytes → Hash) (key : Bytes) : List Nibble := nibblesOf (Hash.bytes (sha key))

def commonPrefixLen : List Nibble → List Nibble → ℕ
  | a::p, b::w => if a = b then commonPrefixLen p w + 1 else 0
  | _, _ => 0

def packNibbles : List Nibble → Bytes
  | [] => []
  | [a] => [byte a <<< 4]
  | a::b::rest => (byte a <<< 4 ||| byte b)::packNibbles rest

def unpackNibbles (bs : Bytes) (count : ℕ) : List Nibble :=
  (List.range count).map (fun i => if i % 2 = 0 then high (bs.getD (i / 2) 0) else low (bs.getD (i / 2) 0))

def u16 (n : ℕ) : Bytes := beBytes 2 n
def u32 (n : ℕ) : Bytes := beBytes 4 n

def childBytes (children : Nibble → Hash) : Bytes := (List.finRange 16).flatMap (fun i => Hash.bytes (children i))

def valueBytes : Option Bytes → Bytes
  | some v => [1] ++ u32 v.length ++ v
  | none => [0]

def Node.encode : Node → Bytes
  | .leaf nibbles value =>
    [tagLeaf] ++ u16 nibbles.length ++ packNibbles nibbles ++ u32 value.length ++ value
  | .extension nibbles child => [tagExtension] ++ u16 nibbles.length ++ packNibbles nibbles ++ Hash.bytes child
  | .branch children value => [tagBranch] ++ childBytes children ++ valueBytes value

def decodeValue (b : Bytes) : Except TrieErr Bytes :=
  if b.length < 4 then .error .shortInput
  else
    let valLen := beNat (b.take 4)
    let b := b.drop 4
    if b.length < valLen then .error .shortInput else .ok (b.take valLen)

def decodeLeaf (b : Bytes) : Except TrieErr Node :=
  if b.length < 2 then .error .shortInput
  else
    let count := beNat (b.take 2)
    let b := b.drop 2
    let packedLen := (count + 1) / 2
    if b.length < packedLen + 4 then .error .shortInput
    else (decodeValue (b.drop packedLen)).map (.leaf (unpackNibbles (b.take packedLen) count))

def decodeExtension (b : Bytes) : Except TrieErr Node :=
  if b.length < 2 then .error .shortInput
  else
    let count := beNat (b.take 2)
    let b := b.drop 2
    let packedLen := (count + 1) / 2
    if b.length < packedLen + 32 then .error .shortInput
    else .ok (.extension (unpackNibbles (b.take packedLen) count) (Hash.ofBytes ((b.drop packedLen).take 32)))

def decodeBranch (b : Bytes) : Except TrieErr Node :=
  if b.length < 16 * 32 + 1 then .error .shortInput
  else
    let children (i : Nibble) := Hash.ofBytes ((b.drop (i.val * 32)).take 32)
    let b := b.drop (16 * 32)
    if b.getD 0 0 = 1 then (decodeValue (b.drop 1)).map (fun value => .branch children (some value))
    else .ok (.branch children none)

def decodeNode : Bytes → Except TrieErr Node
  | [] => .error .shortInput
  | tag::b =>
    if tag = tagLeaf then decodeLeaf b
    else if tag = tagExtension then decodeExtension b
    else if tag = tagBranch then decodeBranch b
    else .error .badTag

-- A hash that is not in the store and an encoding that does not decode are treated alike everywhere.
def load (nodes : Nodes) (h : Hash) : Option Node :=
  match nodes.lookup h with
  | none => none
  | some enc => (decodeNode enc).toOption

def store (sha : Bytes → Hash) (nodes : Nodes) (n : Node) : Hash × Nodes :=
  (sha n.encode,(sha n.encode,n.encode)::nodes)

def get (nodes : Nodes) : ℕ → Hash → List Nibble → Option (Option Bytes)
  | 0, _, _ => none
  | fuel+1, root, p =>
    if root = 0 then some none
    else match load nodes root with
    | none => some none
    | some (.leaf nibbles value) => some (if nibbles = p then some value else none)
    | some (.extension nibbles child) =>
      if p.length < nibbles.length ∨ nibbles ≠ p.take nibbles.length then some none
      else get nodes fuel child (p.drop nibbles.length)
    | some (.branch children value) =>
      match p with
      | [] => some value
      | i::rest => get nodes fuel (children i) rest

section
variable (sha : Bytes → Hash)

def plant (nodes : Nodes) (children : Nibble → Hash) (held : Option Bytes) (rest : List Nibble) (value : Bytes) :
    (Nibble → Hash) × Option Bytes × Nodes :=
  match rest with
  | [] => (children,some value,nodes)
  | idx::rest =>
    let (child,nodes) := store sha nodes (.leaf rest value)
    (Function.update children idx child,held,nodes)

def storeRest (nodes : Nodes) (rem : List Nibble) (child : Hash) : Hash × Nodes :=
  if rem = [] then (child,nodes) else store sha nodes (.extension rem child)

def storeFork (nodes : Nodes) (p : List Nibble) (cp : ℕ) (children : Nibble → Hash) (value : Option Bytes) :
    Hash × Nodes :=
  let (branchHash,nodes) := store sha nodes (.branch children value)
  if cp > 0 then store sha nodes (.extension (p.take cp) branchHash) else (branchHash,nodes)

def putIntoLeaf (nodes : Nodes) (nibbles : List Nibble) (old : Bytes) (p : List Nibble) (value : Bytes) : Hash × Nodes :=
  let cp := commonPrefixLen p nibbles
  if cp = nibbles.length ∧ cp = p.length then store sha nodes (.leaf p value)
  else
    let (children,held,nodes) := plant sha nodes (fun _ => 0) none (nibbles.drop cp) old
    let (children,held,nodes) := plant sha nodes children held (p.drop cp) value
    storeFork sha nodes p cp children held

def putIntoExtension (put : Nodes → Hash → List Nibble → Bytes → Option (Hash × Nodes)) (nodes : Nodes)
    (nibbles : List Nibble) (child : Hash) (p : List Nibble) (value : Bytes) : Option (Hash × Nodes) :=
  let cp := commonPrefixLen p nibbles
  if cp = nibbles.length then do
    let (newChild,nodes) ← put nodes child (p.drop cp) value
    some (store sha nodes (.extension nibbles newChild))
  else
    let oldIdx := nibbles.getD cp 0
    let (old,nodes) := storeRest sha nodes (nibbles.drop (cp + 1)) child
    let (children,held,nodes) := plant sha nodes (Function.update (fun _ => 0) oldIdx old) none (p.drop cp) value
    some (storeFork sha nodes p cp children held)

def putIntoBranch (put : Nodes → Hash → List Nibble → Bytes → Option (Hash × Nodes)) (nodes : Nodes)
    (children : Nibble → Hash) (held : Option Bytes) (p : List Nibble) (value : Bytes) : Option (Hash × Nodes) :=
  match p with
  | [] => some (store sha nodes (.branch children (some value)))
  | idx::rest => do
    let (newChild,nodes) ← put nodes (children idx) rest value
    some (store sha nodes (.branch (Function.update children idx newChild) held))

def put : ℕ → Nodes → Hash → List Nibble → Bytes → Option (Hash × Nodes)
  | 0, _, _, _, _ => none
  | fuel+1, nodes, root, p, value =>
    if root = 0 then some (store sha nodes (.leaf p value))
    else match load nodes root with
    -- a position that cannot be read is treated as empty, so that the value is not lost
    | none => some (store sha nodes (.leaf p value))
    | some (.leaf nibbles old) => some (putIntoLeaf sha nodes nibbles old p value)
    | some (.extension nibbles child) => putIntoExtension sha (put fuel) nodes nibbles child p value
    | some (.branch children held) => putIntoBranch sha (put fuel) nodes children held p value

def mergeIntoExtensionParent (nodes : Nodes) (pre : List Nibble) (newChild : Hash) : Hash × Nodes :=
  match load nodes newChild with
  | some (.leaf nibbles value) => store sha nodes (.leaf (pre ++ nibbles) value)
  | some (.extension nibbles child) => store sha nodes (.extension (pre ++ nibbles) child)
  | _ => store sha nodes (.extension pre newChild)

def collapseBranch (nodes : Nodes) (children : Nibble → Hash) (held : Option Bytes) : Hash × Nodes :=
  match (List.finRange 16).filter (fun i => children i ≠ 0),held with
  | [],none => (0,nodes)
  | [],some value => store sha nodes (.leaf [] value)
  | [onlyIdx],none => mergeIntoExtensionParent sha nodes [onlyIdx] (children onlyIdx)
  | _,_ => store sha nodes (.branch children held)

def del : ℕ → Nodes → Hash → List Nibble → Option (Hash × Nodes)
  | 0, _, _, _ => none
  | fuel+1, nodes, root, p =>
    if root = 0 then some (root,nodes)
    else match load nodes root with
    | none => some (root,nodes)
    | some (.leaf nibbles _) => some (if nibbles = p then 0 else root,nodes)
    | some (.extension nibbles child) =>
      if p.length < nibbles.length ∨ nibbles ≠ p.take nibbles.length then some (root,nodes)
      else do
        let (newChild,nodes) ← del fuel nodes child (p.drop nibbles.length)
        if newChild = 0 then some (0,nodes)
        else if newChild = child then some (root,nodes)
        else some (mergeIntoExtensionParent sha nodes nibbles newChild)
    | some (.branch children held) =>
      match p with
      | [] => if held = none then some (root,nodes) else some (collapseBranch sha nodes children none)
      | idx::rest =>
        if children idx = 0 then some (root,nodes)
        else do
          let (newChild,nodes) ← del fuel nodes (children idx) rest
          if newChild = children idx then some (root,nodes)
          else some (collapseBranch sha nodes (Function.update children idx newChild) held)

def depth : ℕ := 65

def Get (nodes : Nodes) (root : Hash) (key : Bytes) : Option (Option Bytes) := get nodes depth root (path sha key)
def Put (nodes : Nodes) (root : Hash) (key value : Bytes) : Option (Hash × Nodes) :=
  put sha depth nodes root (path sha key) value
def Delete (nodes : Nodes) (root : Hash) (key : Bytes) : Option (Hash × Nodes) := del sha depth nodes root (path sha key)

end

end L1Chain.Trie
