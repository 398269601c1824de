import L1Chain.BlockBuilder
import L1Chain.Production
import L1Chain.Store

/-! node/node.go: a full node and its operations. Each operation takes its locks
first, so a run of a node is a sequence of operations; it answers with an error or
a result and the node it leaves behind. The clock is an argument. `verifySig` is
`wallet.Verify`; of the miner's key only the address is used here, and a BLS key
is the signing function it stands for. -/
namespace L1Chain
open Transition

inductive NodeErr where
  | badSignature
  | badNonce
  | insufficientBalance
  | mempoolFull
  | badChainID
  | consensusModeNotPersisted
  | notPoSMode
  | notMyTurn
  | noValidatorKey
  | miningFailed
  | pos (e : Pos.PosErr)
  | chain (e : ChainErr)
  | store (e : StoreErr)
  deriving DecidableEq, Repr

inductive ConsensusMode where
  | pow
  | pos
  deriving DecidableEq, Repr

-- `Sign` of a BLS key: message, then domain tag.
abbrev SignKey := Bytes → Bytes → Bytes

structure Config where
  persistent : Bool
  miner : Address
  difficulty : UInt32
  genesisAlloc : AList (fun _ : Address => UInt64)
  genesisBaseAlloc : AList (fun _ : Address => UInt64)
  genesisTimestamp : Int64
  maxMempool : Int
  chainID : UInt64
  consensusMode : ConsensusMode
  validators : List Pos.ValidatorInfo
  validatorKey : Option SignKey

def defaultMaxMempool : Nat := 4096

structure Node where
  chain : Chain
  store : Option Store
  mempool : List Transaction
  maxMempool : Nat
  miner : Address
  difficulty : UInt32
  chainID : UInt64
  validatorKey : Option SignKey
  alloc : AList (fun _ : Address => UInt64)
  baseAlloc : AList (fun _ : Address => UInt64)

variable {E : Type}

namespace Config

def mempoolCap (cfg : Config) : Nat := if cfg.maxMempool ≤ 0 then defaultMaxMempool else cfg.maxMempool.toNat
def resolvedChainID (cfg : Config) : UInt64 := if cfg.chainID = 0 then defaultChainID else cfg.chainID

def genesis (cfg : Config) (now : Int64) : Genesis where
  alloc := cfg.genesisAlloc
  baseAlloc := cfg.genesisBaseAlloc
  difficulty := cfg.difficulty
  timestamp := if cfg.genesisTimestamp = 0 then now else cfg.genesisTimestamp
  initialBaseFee := 0

end Config

namespace Node

def withChain (cfg : Config) (c : Chain) (store : Option Store) (key : Option SignKey)
    (alloc baseAlloc : AList (fun _ : Address => UInt64)) : Node where
  chain := c
  store := store
  mempool := []
  maxMempool := cfg.mempoolCap
  miner := cfg.miner
  difficulty := cfg.difficulty
  chainID := cfg.resolvedChainID
  validatorKey := key
  alloc := alloc
  baseAlloc := baseAlloc

def configure (env : Env E) (cfg : Config) (now : Int64) : Except NodeErr Chain :=
  let c := ((cfg.genesis now).chain env).setChainID cfg.resolvedChainID
  match cfg.consensusMode with
  | .pow => .ok c
  | .pos =>
    match Pos.newValidatorSet env.blst cfg.validators with
    | .error e => .error (.pos e)
    | .ok vs => .ok (c.setConsensusMode (.pos vs))

def fresh (env : Env E) (cfg : Config) (disk : Store) (now : Int64) : Except NodeErr Node :=
  match configure env cfg now with
  | .error e => .error e
  | .ok c =>
    if cfg.persistent then
      match ((disk.putGenesisAlloc cfg.genesisAlloc).putGenesisBaseAlloc cfg.genesisBaseAlloc).save env.sha c with
      | (.error e,_) => .error (.store e)
      | (.ok (),disk) => .ok (withChain cfg c (some disk) cfg.validatorKey cfg.genesisAlloc cfg.genesisBaseAlloc)
    else .ok (withChain cfg c none cfg.validatorKey cfg.genesisAlloc cfg.genesisBaseAlloc)

/- `New`: `disk` is what the file at DBPath holds. A loaded chain gets its chain id
only after it was replayed. -/
def new (env : Env E) (verifySig : VerifySig) (cfg : Config) (disk : Store) (now : Int64) : Except NodeErr Node :=
  if cfg.persistent then
    match disk.load env verifySig with
    | .error e => .error (.store e)
    | .ok none => fresh env cfg disk now
    | .ok (some c) =>
      if cfg.consensusMode = .pos then .error .consensusModeNotPersisted
      else .ok (withChain cfg (c.setChainID cfg.resolvedChainID) (some disk) none
        (disk.genesisAlloc.getD cfg.genesisAlloc) (disk.genesisBaseAlloc.getD cfg.genesisBaseAlloc))
  else fresh env cfg disk now

def setExchangeMode (n : Node) (mode : Exchange.Mode) : Node := {n with chain := n.chain.setExchangeMode mode}

def projectSender (n : Node) (addr : Address) : UInt64 × UInt64 :=
  let acct := n.chain.headState.accounts addr
  n.mempool.foldl (fun (nonce,balance) tx =>
    if tx.sender ≠ addr then (nonce,balance)
    else (nonce + 1,if tx.sender ≠ tx.recipient ∧ balance ≥ tx.value then balance - tx.value else balance))
    (acct.nonce,acct.balance)

def submitTx (verifySig : VerifySig) (n : Node) (tx : Transaction) : Except NodeErr Unit × Node :=
  if ¬ verifySig tx then (.error .badSignature,n)
  else if tx.chainID ≠ n.chainID then (.error .badChainID,n)
  else
    let (nextNonce,spendable) := n.projectSender tx.sender
    if tx.nonce ≠ nextNonce then (.error .badNonce,n)
    else if tx.sender ≠ tx.recipient ∧ spendable < tx.value then (.error .insufficientBalance,n)
    else if n.mempool.length ≥ n.maxMempool then (.error .mempoolFull,n)
    else (.ok (),{n with mempool := n.mempool ++ [tx]})

def saveChain (sha : Bytes → Hash) (n : Node) : Except NodeErr Unit × Node :=
  match n.store with
  | none => (.ok (),n)
  | some s =>
    match s.save sha n.chain with
    | (.error e,s) => (.error (.store e),{n with store := some s})
    | (.ok (),s) => (.ok (),{n with store := some s})

def prune (sha : Bytes → Hash) (n : Node) (txs : List Transaction) : Node :=
  {n with mempool := n.mempool.filter (fun tx => tx.hash sha ∉ txs.map (·.hash sha))}

def commitBlock (env : Env E) (verifySig : VerifySig) (n : Node) (blk : Block) (txs : List Transaction) :
    Except NodeErr Block × Node :=
  match n.chain.addBlock env verifySig blk with
  | .error e => (.error (.chain e),n)
  | .ok c =>
    match (({n with chain := c} : Node).prune env.sha txs).saveChain env.sha with
    | (.error e,n) => (.error e,n)
    | (.ok (),n) => (.ok blk,n)

end Node

/- `consensus.Mine` with no bound on its iterations: the first nonce that meets the
target. `none` is a search that has tried every nonce and would start over. -/
def mineFrom (sha : Bytes → Hash) (h : Header) : Nat → UInt64 → Option Header
  | 0, _ => none
  | fuel+1, i =>
    let h := {h with nonce := i}
    if meetsTarget (h.hash sha) h.difficulty then some h else mineFrom sha h fuel (i + 1)

def mine (sha : Bytes → Hash) (h : Header) : Option Header := mineFrom sha h (2 ^ 64) 0

namespace Node

def mineBlock (env : Env E) (verifySig : VerifySig) (n : Node) (now : Int64) : Except NodeErr Block × Node :=
  let txs := n.chain.buildBlockTxs n.mempool
  match n.chain.candidateStateRoot env verifySig txs n.miner with
  | .error e => (.error (.chain e),n)
  | .ok (stateRoot,gasUsed) =>
    let blk := assemble env n.chain txs n.miner now n.difficulty stateRoot gasUsed
    match mine env.sha blk.header with
    | none => (.error .miningFailed,n)
    | some header => n.commitBlock env verifySig {blk with header := header} txs

def proposeBlock (env : Env E) (verifySig : VerifySig) (n : Node) (now : Int64) : Except NodeErr Block × Node :=
  match n.chain.consensus with
  | .pow => (.error .notPoSMode,n)
  | .pos vs =>
    let (active,total) := vs.effectiveStake n.chain.pos.jailed
    let seed := Pos.proposerSeed env.sha (n.chain.headD.hash env.sha) (n.chain.headD.header.height + 1)
    match Pos.selectProposer active total seed with
    | .error e => (.error (.pos e),n)
    | .ok selected =>
      if selected.address ≠ n.miner then (.error .notMyTurn,n)
      else match n.validatorKey with
      | none => (.error .noValidatorKey,n)
      | some sign =>
        let txs := n.chain.buildBlockTxs n.mempool
        match n.chain.candidateStateRoot env verifySig txs n.miner with
        | .error e => (.error (.chain e),n)
        | .ok (stateRoot,gasUsed) =>
          let blk := assemble env n.chain txs n.miner now 0 stateRoot gasUsed
          let sig := sign (Hash.bytes (blk.header.signingHash env.sha)) (Pos.dst n.chainID)
          n.commitBlock env verifySig {blk with header := {blk.header with proposerSig := sig}} txs

def acceptExternalBlock (env : Env E) (verifySig : VerifySig) (n : Node) (b : Block) : Except NodeErr Unit × Node :=
  match n.chain.addBlock env verifySig b with
  | .error e => if e = .duplicateBlock then (.ok (),n) else (.error (.chain e),n)
  | .ok c => ({n with chain := c} : Node).saveChain env.sha

end Node

inductive Op where
  | submitTx (tx : Transaction)
  | mineBlock (now : Int64)
  | proposeBlock (now : Int64)
  | acceptExternalBlock (b : Block)

def Node.step (env : Env E) (verifySig : VerifySig) (n : Node) : Op → Node
  | .submitTx tx => (n.submitTx verifySig tx).2
  | .mineBlock now => (n.mineBlock env verifySig now).2
  | .proposeBlock now => (n.proposeBlock env verifySig now).2
  | .acceptExternalBlock b => (n.acceptExternalBlock env verifySig b).2

end L1Chain
