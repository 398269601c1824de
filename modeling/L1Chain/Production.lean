import L1Chain.ChainSteps
import L1Chain.TransitionSteps

/-! Block production: `assemble` is the header MineBlock and ProposeBlock fill in
over the head. An assembled block whose candidate state was derived passes every
check of AddBlock that does not depend on the consensus mode, so producing and
validating agree. -/
namespace L1Chain
open Transition Runs

variable {E : Type} {env : Env E} {verifySig : VerifySig} {c : Chain} {st : MptState}

def assemble (env : Env E) (c : Chain) (txs : List Transaction) (coinbase : Address) (timestamp : Int64)
    (difficulty : UInt32) (stateRoot : Hash) (gasUsed : UInt64) : Block :=
  let blk : Block :=
    { header :=
        { height := c.headD.header.height + 1
          prevHash := c.headD.hash env.sha
          merkleRoot := 0
          stateRoot := stateRoot
          coinbase := coinbase
          timestamp := timestamp
          difficulty := difficulty
          nonce := 0
          baseFee := c.nextBaseFee
          gasUsed := gasUsed
          proposerSig := [] }
      txs := txs }
  {blk with header := {blk.header with merkleRoot := blk.txRoot env.sha}}

structure Sealed (env : Env E) (c : Chain) (b : Block) (txs : List Transaction) (coinbase : Address)
    (stateRoot : Hash) (gasUsed : UInt64) : Prop where
  txs : b.txs = txs
  height : b.header.height = c.headD.header.height + 1
  prevHash : b.header.prevHash = c.headD.hash env.sha
  merkleRoot : b.header.merkleRoot = b.txRoot env.sha
  stateRoot : b.header.stateRoot = stateRoot
  coinbase : b.header.coinbase = coinbase
  baseFee : b.header.baseFee = c.nextBaseFee
  gasUsed : b.header.gasUsed = gasUsed

theorem headFound (s : Sound env verifySig c) : c.getByHash c.head = some c.headD := by
  obtain ⟨b,found⟩ := s.headStored
  simp [Chain.headD,Chain.headBlock,found]

theorem setupHead (env : Env E) (setup : Setup) : (setup.chain env).headD = setup.genesis.toBlock env := by
  have found : (setup.chain env).getByHash (setup.chain env).head = some (setup.genesis.toBlock env) := setupRoot env setup
  simp only [Chain.headD,Chain.headBlock,found,Option.getD_some]

theorem candidateOk (s : Sound env verifySig c) {txs : List Transaction} {coinbase : Address} {gasUsed : UInt64} :
    c.candidate env verifySig txs coinbase = .ok (st,gasUsed) ↔ (∀ tx ∈ txs, tx.chainID = c.chainID) ∧
      ∃ o, applyTxsAt env verifySig c.headState txs (c.headD.header.height + 1) c.exchangeMode c.nextBaseFee = .ok o ∧
        st = credit o.st coinbase (blockReward + o.tip) ∧ gasUsed = o.gasUsed := by
  simp only [Chain.candidate,bindOk,s.headState,liftTxOk]
  constructor
  · rintro ⟨_,derived,_,chainID,o,applied,last⟩
    cases derived
    cases last
    exact ⟨assertChainIDOk.mp chainID,o,applied,rfl,rfl⟩
  · rintro ⟨chainID,o,applied,rfl,rfl⟩
    exact ⟨_,rfl,(),assertChainIDOk.mpr chainID,o,applied,rfl⟩

theorem rewardedOk {b : Block} {mode : Exchange.Mode} {before : MptState} {gas : UInt64} (tall : b.header.height ≠ 0) :
    applyBlockRewarded env verifySig mode before b = .ok (st,gas) ↔
      ∃ o, applyTxsAt env verifySig before b.txs b.header.height mode b.header.baseFee = .ok o ∧
        st = credit o.st b.header.coinbase (blockReward + o.tip) ∧ gas = o.gasUsed := by
  simp only [applyBlockRewarded,bindOk,if_pos tall]
  constructor
  · rintro ⟨o,applied,last⟩
    cases last
    exact ⟨o,applied,rfl,rfl⟩
  · rintro ⟨o,applied,rfl,rfl⟩
    exact ⟨o,applied,rfl⟩

theorem sealedBy {other : VerifySig} (s : Sound env other c) {b : Block} {txs : List Transaction} {coinbase : Address}
    {root : Hash} {gasUsed w : UInt64} {before : MptState} {o : BlockOutcome MptState}
    (built : Sealed env c b txs coinbase root gasUsed) (ids : c.assertChainID txs = .ok ())
    (derived : c.deriveState env verifySig c.head = .ok before)
    (applied : applyTxsAt env verifySig before txs (c.headD.header.height + 1) c.exchangeMode c.nextBaseFee = .ok o)
    (after : root = env.stateRoot (credit o.st coinbase (blockReward + o.tip))) (used : gasUsed = o.gasUsed)
    (gas : gasUsed ≤ c.gasLimit) (fresh : c.getByHash (b.hash env.sha) = none) (tall : c.headD.header.height + 1 ≠ 0)
    (gate : c.respectsFinality b = .ok ()) (consensus : c.checkConsensus env b = .ok w) :
    Accepted env verifySig c b (credit o.st coinbase (blockReward + o.tip)) w := by
  have prev : b.header.prevHash = c.head := built.prevHash.trans (s.keyed _ _ (headFound s))
  rw [← built.height] at tall
  refine ⟨fresh,⟨c.headD,?_,built.height,built.baseFee⟩,gate,consensus,built.merkleRoot.symm,?_,⟨before,?_,?_⟩,?_,?_⟩
  · rw [prev]
    exact headFound s
  · rw [built.txs]
    exact ids
  · rw [prev]
    exact derived
  · refine (rewardedOk tall).mpr ⟨o,?_,by rw [built.coinbase],built.gasUsed.trans used⟩
    rw [built.txs,built.height,built.baseFee]
    exact applied
  · rw [built.gasUsed]
    exact gas
  · rw [built.stateRoot,after]

theorem sealedAccepted (s : Sound env verifySig c) {b : Block} {txs : List Transaction} {coinbase : Address}
    {gasUsed w : UInt64} (built : Sealed env c b txs coinbase (env.stateRoot st) gasUsed)
    (cand : c.candidate env verifySig txs coinbase = .ok (st,gasUsed)) (gas : gasUsed ≤ c.gasLimit)
    (fresh : c.getByHash (b.hash env.sha) = none) (tall : c.headD.header.height + 1 ≠ 0)
    (gate : c.respectsFinality b = .ok ()) (consensus : c.checkConsensus env b = .ok w) :
    Accepted env verifySig c b st w := by
  obtain ⟨ids,o,applied,rfl,used⟩ := (candidateOk s).mp cand
  exact sealedBy s built (assertChainIDOk.mpr ids) s.headState applied rfl used gas fresh tall gate consensus

theorem votesCandidate (s : Sound env verifySig c) {txs : List Transaction} (coinbase : Address)
    (ids : ∀ tx ∈ txs, tx.chainID = c.chainID)
    (fits : Along castVote (fun st tx => verifySig tx = true ∧ tx.nonce = (getAccount st tx.sender).nonce ∧
      tx.recipient = Pos.attestAddress ∧ getCode st Pos.attestAddress = []) c.headState txs) :
    c.candidate env verifySig txs coinbase = .ok (credit (txs.foldl castVote c.headState) coinbase blockReward,0) := by
  have votes : ∀ tx ∈ txs, tx.recipient = Pos.attestAddress := alongMem fits (fun _ _ fit => fit.2.2.1)
  have plain : exchangeSenders txs = [] := by
    rw [exchangeSenders,List.map_eq_nil_iff,List.filter_eq_nil_iff]
    intro tx member
    rw [Exchange.isExchangeTx,votes tx member]
    decide
  refine (candidateOk s).mpr ⟨ids,⟨txs.foldl castVote c.headState,0,0⟩,?_,?_,rfl⟩
  · exact (applyTxsClosed (plainClosed plain)).mpr ⟨_,attestationsApplied fits,rfl,rfl,rfl⟩
  · rw [UInt64.add_zero]

theorem openGate {vs : Pos.ValidatorSet} {b : Block} (mode : c.consensus = .pos vs)
    (unfinalized : c.pos.finalizedHash = 0) : c.respectsFinality b = .ok () := by
  simp [Chain.respectsFinality,mode,unfinalized]

theorem posConsensus {vs : Pos.ValidatorSet} {b : Block} (mode : c.consensus = .pos vs)
    (proposer : checkProposer env vs c.chainID c.pos.jailed b = .ok ())
    (votes : ∀ tx ∈ b.txs, Pos.isAttestationTx tx → attestationValid env vs c.chainID b.header.height tx = true) :
    c.checkConsensus env b = .ok 1 := by
  have all : verifyAttestations env vs c.chainID b = .ok () := by
    unfold verifyAttestations
    rw [if_pos]
    rw [List.all_eq_true]
    intro tx member
    obtain ⟨inBlock,isVote⟩ := List.mem_filter.mp member
    exact votes tx inBlock isVote
  simp [Chain.checkConsensus,mode,proposer,all,bind,Except.bind]

end L1Chain
