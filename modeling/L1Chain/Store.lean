import L1Chain.Chain

/-! Package store: the canonical branch on disk. Encoding and BoltDB round-trip, so
a bucket is the map it holds. Save writes every canonical block again; what it
wrote before a failure stays. Load re-validates the branch on a chain with the
parameters of `NewChainWithAlloc`. -/
namespace L1Chain
open Transition

inductive StoreErr where
  | missingCanonicalBlock (height : UInt64)
  | noGenesis
  | genesisMissing (h : Hash)
  | headMissing (h : Hash)
  | missingCanonicalHash (height : UInt64)
  | blockMissing (h : Hash) (height : UInt64)
  | replaying (height : UInt64) (e : ChainErr)
  | headMismatch (found stored : Hash)
  deriving DecidableEq, Repr

structure Store where
  blocks : Hash → Option Block
  heights : UInt64 → Option Hash
  head : Option Hash
  genesisAlloc : Option (AList (fun _ : Address => UInt64))
  genesisBaseAlloc : Option (AList (fun _ : Address => UInt64))

namespace Store

def empty : Store := ⟨fun _ => none,fun _ => none,none,none,none⟩

def putBlock (sha : Bytes → Hash) (s : Store) (b : Block) : Store :=
  {s with blocks := L1Chain.put s.blocks (b.hash sha) (some b)}
def setCanonical (s : Store) (height : UInt64) (h : Hash) : Store :=
  {s with heights := L1Chain.put s.heights height (some h)}
def setHead (s : Store) (h : Hash) : Store := {s with head := some h}
def putGenesisAlloc (s : Store) (alloc : AList (fun _ : Address => UInt64)) : Store :=
  {s with genesisAlloc := some alloc}
def putGenesisBaseAlloc (s : Store) (alloc : AList (fun _ : Address => UInt64)) : Store :=
  {s with genesisBaseAlloc := some alloc}

def saveFrom (sha : Bytes → Hash) (c : Chain) : Nat → UInt64 → Store → Except StoreErr Unit × Store
  | 0, _, s => (.ok (),s)
  | count+1, h, s =>
    match c.getByHeight h with
    | none => (.error (.missingCanonicalBlock h),s)
    | some b => saveFrom sha c count (h + 1) ((s.putBlock sha b).setCanonical h (b.hash sha))

def save (sha : Bytes → Hash) (s : Store) (c : Chain) : Except StoreErr Unit × Store :=
  match saveFrom sha c (c.headD.header.height.toNat + 1) 0 s with
  | (.error e,s) => (.error e,s)
  | (.ok (),s) => (.ok (),s.setHead (c.headD.hash sha))

section
variable {E : Type} (env : Env E) (verifySig : VerifySig)

def replayFrom (s : Store) : Nat → UInt64 → Chain → Except StoreErr Chain
  | 0, _, c => .ok c
  | count+1, h, c =>
    match s.heights h with
    | none => .error (.missingCanonicalHash h)
    | some canonHash =>
      match s.blocks canonHash with
      | none => .error (.blockMissing canonHash h)
      | some b =>
        match c.addBlock env verifySig b with
        | .error e => .error (.replaying h e)
        | .ok c => replayFrom s count (h + 1) c

def load (s : Store) : Except StoreErr (Option Chain) :=
  match s.head with
  | none => .ok none
  | some headHash =>
    match s.heights 0 with
    | none => .error .noGenesis
    | some genHash =>
      match s.blocks genHash with
      | none => .error (.genesisMissing genHash)
      | some genesis =>
        let c := newChain env genesis (s.genesisAlloc.getD ∅) (s.genesisBaseAlloc.getD ∅)
        match s.blocks headHash with
        | none => .error (.headMissing headHash)
        | some headBlock =>
          match replayFrom env verifySig s headBlock.header.height.toNat 1 c with
          | .error e => .error e
          | .ok c =>
            if c.headD.hash env.sha ≠ headHash then .error (.headMismatch (c.headD.hash env.sha) headHash)
            else .ok (some c)

end
end Store
end L1Chain
