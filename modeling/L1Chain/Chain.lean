import L1Chain.Forest
import L1Chain.Transition

/-! chain/chain.go, chain/genesis.go and package consensus: the block store, the
fork choice and the finality gate. `AddBlock` is `validate`, which only reads,
followed by `commit`, which cannot fail. The consensus mode carries the validator
set that `SetConsensusMode` demands of PoS; what AddBlock writes in PoS mode only
is the record `PosState`. The walks over parents take the number of stored blocks
as fuel, which no walk exhausts. -/
namespace L1Chain
open FeeMarket Transition

inductive ChainErr where
  | unknownParent
  | duplicateBlock
  | badHeight
  | badPoW
  | badTxRoot
  | badStateRoot
  | badChainID
  | posRequiresValidators
  | wrongProposer
  | badProposerSig
  | badAttestation
  | conflictsWithFinalized
  | badBaseFee
  | badGasUsed
  | blockGasLimitExceeded
  | pos (e : Pos.PosErr)
  | tx (e : TxErr)
  deriving DecidableEq, Repr

def defaultChainID : UInt64 := 1337
def defaultGasLimit : UInt64 := 8000000

inductive Consensus where
  | pow
  | pos (vs : Pos.ValidatorSet)

def leadingZeroBits (h : Hash) : Nat := ((List.range 256).takeWhile (fun i => ¬ h.getMsbD i)).length

def meetsTarget (h : Hash) (difficulty : UInt32) : Bool := leadingZeroBits h ≥ difficulty.toNat

structure PosState where
  attestedRound : UInt64 → Address → Option Hash
  checkpointStake : Hash → UInt64
  finalizedHash : Hash
  finalizedHeight : UInt64
  jailed : Address → Bool
  proposedAtHeight : Hash → Address → Option Hash

def PosState.init : PosState := ⟨fun _ _ => none,fun _ => 0,0,0,fun _ => false,fun _ _ => none⟩

structure Chain where
  blocks : AList (fun _ : Hash => Block)
  td : Hash → UInt64
  genesisHash : Hash
  genesisAlloc : AList (fun _ : Address => UInt64)
  genesisBaseAlloc : AList (fun _ : Address => UInt64)
  head : Hash
  headState : MptState
  heightIndex : UInt64 → Option Hash
  chainID : UInt64
  gasLimit : UInt64
  exchangeMode : Exchange.Mode
  consensus : Consensus
  pos : PosState

def fund (alloc baseAlloc : AList (fun _ : Address => UInt64)) : MptState :=
  let st := alloc.entries.foldl (fun st e => credit st e.1 e.2) MptState.empty
  baseAlloc.entries.foldl (fun st e => Exchange.creditBase st e.1 e.2) st

namespace Chain

def getByHash (c : Chain) (h : Hash) : Option Block := c.blocks.lookup h
def prev (b : Block) : Hash := b.header.prevHash

-- Newest first; `chainTo` of the source lists the same blocks oldest first.
def ancestry (c : Chain) (h : Hash) : Option (List Block) :=
  Forest.climb c.getByHash c.genesisHash prev c.blocks.entries.length h

def chainTo (c : Chain) (h : Hash) : Option (List Block) := (c.ancestry h).map List.reverse

def fundGenesis (c : Chain) : MptState := fund c.genesisAlloc c.genesisBaseAlloc

def indexOf (sha : Bytes → Hash) (path : List Block) : UInt64 → Option Hash :=
  path.foldl (fun index b h => if h = b.header.height then some (b.hash sha) else index h) (fun _ => none)

def rebuildIndex (sha : Bytes → Hash) (c : Chain) : UInt64 → Option Hash :=
  match c.chainTo c.head with
  | none => fun _ => none
  | some path => indexOf sha path

def headBlock (c : Chain) : Option Block := c.getByHash c.head

def getByHeight (c : Chain) (height : UInt64) : Option Block := do
  let h ← c.heightIndex height
  c.getByHash h

def setChainID (c : Chain) (id : UInt64) : Chain := {c with chainID := id}
def setGasLimit (c : Chain) (limit : UInt64) : Chain := {c with gasLimit := limit}
def setExchangeMode (c : Chain) (mode : Exchange.Mode) : Chain := {c with exchangeMode := mode}
def setConsensusMode (c : Chain) (mode : Consensus) : Chain := {c with consensus := mode}

end Chain

variable {E : Type}

def newChain (env : Env E) (genesis : Block) (alloc baseAlloc : AList (fun _ : Address => UInt64)) : Chain :=
  let gh := genesis.hash env.sha
  let c : Chain :=
    { blocks := AList.singleton gh genesis
      td := fun h => if h = gh then genesis.header.difficulty.toUInt64 else 0
      genesisHash := gh
      genesisAlloc := alloc
      genesisBaseAlloc := baseAlloc
      head := gh
      headState := MptState.empty
      heightIndex := fun _ => none
      chainID := defaultChainID
      gasLimit := defaultGasLimit
      exchangeMode := .continuous
      consensus := .pow
      pos := PosState.init }
  {c with headState := c.fundGenesis, heightIndex := c.rebuildIndex env.sha}

structure Genesis where
  alloc : AList (fun _ : Address => UInt64)
  baseAlloc : AList (fun _ : Address => UInt64)
  difficulty : UInt32
  timestamp : Int64
  initialBaseFee : UInt64

def Genesis.toBlock (env : Env E) (g : Genesis) : Block where
  header :=
    { height := 0, prevHash := 0, merkleRoot := 0, stateRoot := env.stateRoot (fund g.alloc g.baseAlloc), coinbase := 0
      timestamp := g.timestamp, difficulty := g.difficulty, nonce := 0, baseFee := g.initialBaseFee
      gasUsed := 0, proposerSig := [] }
  txs := []

def Genesis.chain (env : Env E) (g : Genesis) : Chain := newChain env (g.toBlock env) g.alloc g.baseAlloc

def liftTx {α : Type} : Except TxErr α → Except ChainErr α
  | .ok a => .ok a
  | .error e => .error (.tx e)

def applyBlockRewarded (env : Env E) (verifySig : VerifySig) (mode : Exchange.Mode) (st : MptState)
    (b : Block) : Except TxErr (MptState × UInt64) := do
  let o ← applyTxsAt env verifySig st b.txs b.header.height mode b.header.baseFee
  let st := if b.header.height ≠ 0 then credit o.st b.header.coinbase (blockReward + o.tip) else o.st
  .ok (st,o.gasUsed)

def replay (env : Env E) (verifySig : VerifySig) (mode : Exchange.Mode) : MptState → List Block → Except TxErr MptState
  | st, [] => .ok st
  | st, b::rest => do
    let (st,_) ← applyBlockRewarded env verifySig mode st b
    replay env verifySig mode st rest

namespace Chain

def deriveState (env : Env E) (verifySig : VerifySig) (c : Chain) (h : Hash) : Except ChainErr MptState :=
  match c.chainTo h with
  | none => .error .unknownParent
  | some path => liftTx (replay env verifySig c.exchangeMode c.fundGenesis path.tail)

def nextBaseFeeOf (c : Chain) (parent : Block) : UInt64 :=
  computeBaseFee parent.header.baseFee parent.header.gasUsed (gasTarget c.gasLimit)

-- A missing head reads as the zero block, as a Go map does.
def zeroBlock : Block := ⟨⟨0,0,0,0,0,0,0,0,0,0,[]⟩,[]⟩
def headD (c : Chain) : Block := c.headBlock.getD zeroBlock
def nextBaseFee (c : Chain) : UInt64 := c.nextBaseFeeOf c.headD

def assertChainID (c : Chain) (txs : List Transaction) : Except ChainErr Unit :=
  if txs.all (fun tx => tx.chainID = c.chainID) then .ok () else .error .badChainID

def candidate (env : Env E) (verifySig : VerifySig) (c : Chain) (txs : List Transaction) (coinbase : Address) :
    Except ChainErr (MptState × UInt64) := do
  let st ← c.deriveState env verifySig c.head
  c.assertChainID txs
  let o ← liftTx (applyTxsAt env verifySig st txs (c.headD.header.height + 1) c.exchangeMode c.nextBaseFee)
  .ok (credit o.st coinbase (blockReward + o.tip),o.gasUsed)

def candidateStateRoot (env : Env E) (verifySig : VerifySig) (c : Chain) (txs : List Transaction)
    (coinbase : Address) : Except ChainErr (Hash × UInt64) := do
  let (st,gasUsed) ← c.candidate env verifySig txs coinbase
  .ok (env.stateRoot st,gasUsed)

def finalityWalk (c : Chain) : Nat → Hash → Except ChainErr Unit
  | 0, _ => .error .unknownParent
  | fuel+1, h =>
    match c.getByHash h with
    | none => .error .unknownParent
    | some blk =>
      if blk.header.height = c.pos.finalizedHeight then
        if h ≠ c.pos.finalizedHash then .error .conflictsWithFinalized else .ok ()
      else if blk.header.height < c.pos.finalizedHeight then .error .conflictsWithFinalized
      else finalityWalk c fuel blk.header.prevHash

def respectsFinality (c : Chain) (b : Block) : Except ChainErr Unit :=
  match c.consensus with
  | .pow => .ok ()
  | .pos _ =>
    if c.pos.finalizedHash = 0 then .ok () else c.finalityWalk c.blocks.entries.length b.header.prevHash

end Chain

def attestationValid (env : Env E) (vs : Pos.ValidatorSet) (chainID height : UInt64) (tx : Transaction) : Bool :=
  match Pos.decodeAttest tx.data with
  | .error _ => false
  | .ok a =>
    if a.targetHeight % Pos.checkpointInterval ≠ 0 then false
    else if a.targetHeight ≥ height then false
    else match vs.byAddress tx.sender with
      | none => false
      | some v => Pos.verify env.blst v.blsPubKey (Hash.bytes a.targetHash) a.blsSig (Pos.dst chainID)

def verifyAttestations (env : Env E) (vs : Pos.ValidatorSet) (chainID : UInt64) (b : Block) :
    Except ChainErr Unit :=
  if (b.txs.filter Pos.isAttestationTx).all (attestationValid env vs chainID b.header.height) then .ok ()
  else .error .badAttestation

def put {K V : Type} [DecidableEq K] (f : K → V) (k : K) (v : V) : K → V := fun x => if x = k then v else f x

namespace PosState

def countVote (vs : Pos.ValidatorSet) (p : PosState) (v : Pos.ValidatorInfo) (a : Pos.Attestation) : PosState :=
  let round := Pos.checkpointRound a.targetHeight
  let stake := p.checkpointStake a.targetHash + v.stake
  let p := {p with
    attestedRound := put p.attestedRound round (put (p.attestedRound round) v.address (some a.targetHash))
    checkpointStake := put p.checkpointStake a.targetHash stake}
  if a.targetHeight > p.finalizedHeight ∧ stake * 3 ≥ (vs.effectiveStake p.jailed).2 * 2 then
    {p with finalizedHash := a.targetHash, finalizedHeight := a.targetHeight}
  else p

def jail (p : PosState) (a : Address) : PosState := {p with jailed := put p.jailed a true}

def recordVote (vs : Pos.ValidatorSet) (p : PosState) (tx : Transaction) : PosState :=
  if ¬ Pos.isAttestationTx tx then p
  else match Pos.decodeAttest tx.data,vs.byAddress tx.sender with
    | .ok a,some v =>
      match p.attestedRound (Pos.checkpointRound a.targetHeight) tx.sender with
      | some existing => if existing ≠ a.targetHash then p.jail tx.sender else p
      | none => if p.jailed tx.sender then p else p.countVote vs v a
    | _,_ => p

def recordAttestations (vs : Pos.ValidatorSet) (p : PosState) (b : Block) : PosState :=
  b.txs.foldl (recordVote vs) p

def detectEquivocation (p : PosState) (b : Block) (hash : Hash) : PosState :=
  match p.proposedAtHeight b.header.prevHash b.header.coinbase with
  | some existing => if existing ≠ hash then p.jail b.header.coinbase else p
  | none =>
    let slot := put (p.proposedAtHeight b.header.prevHash) b.header.coinbase (some hash)
    {p with proposedAtHeight := put p.proposedAtHeight b.header.prevHash slot}

def record (vs : Pos.ValidatorSet) (p : PosState) (b : Block) (hash : Hash) : PosState :=
  (p.recordAttestations vs b).detectEquivocation b hash

end PosState

def proposerFor (env : Env E) (vs : Pos.ValidatorSet) (jailed : Address → Bool) (b : Block) :
    Except Pos.PosErr Pos.ValidatorInfo :=
  let (active,total) := vs.effectiveStake jailed
  Pos.selectProposer active total (Pos.proposerSeed env.sha b.header.prevHash b.header.height)

def checkProposer (env : Env E) (vs : Pos.ValidatorSet) (chainID : UInt64) (jailed : Address → Bool) (b : Block) :
    Except ChainErr Unit :=
  match proposerFor env vs jailed b with
  | .error e => .error (.pos e)
  | .ok selected =>
    if b.header.coinbase ≠ selected.address then .error .wrongProposer
    else if ¬ Pos.verify env.blst selected.blsPubKey (Hash.bytes (b.header.signingHash env.sha))
        b.header.proposerSig (Pos.dst chainID) then .error .badProposerSig
    else .ok ()

namespace Chain

def checkConsensus (env : Env E) (c : Chain) (b : Block) : Except ChainErr UInt64 :=
  match c.consensus with
  | .pos vs => do
    checkProposer env vs c.chainID c.pos.jailed b
    verifyAttestations env vs c.chainID b
    .ok 1
  | .pow => if meetsTarget (b.hash env.sha) b.header.difficulty then .ok b.header.difficulty.toUInt64 else .error .badPoW

def checkHeader (env : Env E) (c : Chain) (b : Block) : Except ChainErr Unit :=
  if (c.getByHash (b.hash env.sha)).isSome then .error .duplicateBlock
  else match c.getByHash b.header.prevHash with
    | none => .error .unknownParent
    | some parent =>
      if b.header.height ≠ parent.header.height + 1 then .error .badHeight
      else if b.header.baseFee ≠ c.nextBaseFeeOf parent then .error .badBaseFee
      else .ok ()

def checkResult (env : Env E) (c : Chain) (b : Block) (st : MptState) (gasUsed : UInt64) : Except ChainErr Unit :=
  if gasUsed ≠ b.header.gasUsed then .error .badGasUsed
  else if gasUsed > c.gasLimit then .error .blockGasLimitExceeded
  else if env.stateRoot st ≠ b.header.stateRoot then .error .badStateRoot
  else .ok ()

def validate (env : Env E) (verifySig : VerifySig) (c : Chain) (b : Block) : Except ChainErr (MptState × UInt64) := do
  c.checkHeader env b
  c.respectsFinality b
  let weight ← c.checkConsensus env b
  if b.txRoot env.sha ≠ b.header.merkleRoot then .error .badTxRoot
  else
    c.assertChainID b.txs
    let st ← c.deriveState env verifySig b.header.prevHash
    let (st,gasUsed) ← liftTx (applyBlockRewarded env verifySig c.exchangeMode st b)
    c.checkResult env b st gasUsed
    .ok (st,weight)

def recordBlock (env : Env E) (c : Chain) (b : Block) : PosState :=
  match c.consensus with
  | .pow => c.pos
  | .pos vs => c.pos.record vs b (b.hash env.sha)

def commit (env : Env E) (c : Chain) (b : Block) (st : MptState) (weight : UInt64) : Chain :=
  let hash := b.hash env.sha
  let weighed := {c with
    blocks := c.blocks.insert hash b
    td := put c.td hash (c.td b.header.prevHash + weight)
    pos := c.recordBlock env b}
  if weighed.td hash > weighed.td c.head then
    let moved := {weighed with head := hash, headState := st}
    {moved with heightIndex := moved.rebuildIndex env.sha}
  else weighed

def addBlock (env : Env E) (verifySig : VerifySig) (c : Chain) (b : Block) : Except ChainErr Chain := do
  let (st,weight) ← c.validate env verifySig b
  .ok (c.commit env b st weight)

def offer (env : Env E) (verifySig : VerifySig) (c : Chain) (b : Block) : Chain :=
  match c.addBlock env verifySig b with
  | .ok c => c
  | .error _ => c

def feed (env : Env E) (verifySig : VerifySig) (c : Chain) (bs : List Block) : Chain :=
  bs.foldl (offer env verifySig) c

end Chain
end L1Chain
