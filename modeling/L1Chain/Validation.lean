import L1Chain.ForkChoice
import L1Chain.Reach

/-! Producing a block and validating it. CandidateStateRoot derives height, base fee,
reward and tip by itself, AddBlock reads them from a header; over the current head the
two agree on every list of transactions. -/
namespace L1Chain
open Transition Runs

section
variable {E : Type} {env : Env E} {verifySig : VerifySig} {c c' : Chain} {b : Block} {st : MptState} {w : UInt64}
  {txs : List Transaction} {mode : Exchange.Mode}

theorem nextHeight (s : Sound env verifySig c) (fits : c.FitsMap) : c.headD.header.height + 1 ≠ 0 := by
  obtain ⟨p,path,_⟩ := s.rooted _ _ (headFound s)
  obtain ⟨x,older,rfl,own⟩ := Forest.pathHead path
  have small := pathFits s fits path
  have height := heightNat s fits path
  cases Option.some.inj ((headFound s).symm.trans own)
  simp only [List.length_cons] at small
  intro wrapped
  have sum := congrArg UInt64.toNat wrapped
  have one : (1 : UInt64).toNat = 1 := rfl
  have zero : (0 : UInt64).toNat = 0 := rfl
  rw [UInt64.toNat_add,height,one,zero,Nat.mod_eq_of_lt (by omega)] at sum
  omega

theorem candidateRootOk {coinbase : Address} {root : Hash} {gas : UInt64} :
    c.candidateStateRoot env verifySig txs coinbase = .ok (root,gas) ↔
      c.assertChainID txs = .ok () ∧ ∃ before o, c.deriveState env verifySig c.head = .ok before ∧
        applyTxsAt env verifySig before txs (c.headD.header.height + 1) c.exchangeMode c.nextBaseFee = .ok o ∧
        root = env.stateRoot (credit o.st coinbase (blockReward + o.tip)) ∧ gas = o.gasUsed := by
  simp only [Chain.candidateStateRoot,Chain.candidate,bindOk,liftTxOk]
  constructor
  · rintro ⟨_,⟨before,derived,_,ids,o,applied,made⟩,last⟩
    cases made
    cases last
    exact ⟨ids,before,o,derived,applied,rfl,rfl⟩
  · rintro ⟨ids,before,o,derived,applied,rfl,rfl⟩
    exact ⟨_,⟨before,derived,(),ids,o,applied,rfl⟩,rfl⟩

theorem acceptedCandidate {coinbase : Address} (s : Sound env anySig c) (fits : c.FitsMap)
    (prev : b.header.prevHash = c.head) (carries : b.txs = txs) (mined : b.header.coinbase = coinbase)
    (a : Accepted env verifySig c b st w) : b.header.baseFee = c.nextBaseFee ∧
      c.candidateStateRoot env verifySig txs coinbase = .ok (b.header.stateRoot,b.header.gasUsed) := by
  obtain ⟨p,stored,height,fee⟩ := a.parent
  rw [prev,headFound s] at stored
  cases Option.some.inj stored
  obtain ⟨before,derived,applied⟩ := a.derived
  have tall := nextHeight s fits
  rw [← height] at tall
  obtain ⟨o,ran,after,gas⟩ := (rewardedOk tall).mp applied
  subst carries mined
  refine ⟨fee,candidateRootOk.mpr ⟨a.chainID,before,o,?_,?_,?_,gas⟩⟩
  · rw [← prev]
    exact derived
  · rw [height,fee] at ran
    exact ran
  · rw [← a.root,after]

theorem candidateAccepted {coinbase : Address} {root : Hash} {gas : UInt64} (s : Sound env anySig c)
    (pow : c.consensus = .pow) (fits : c.FitsMap) (built : Sealed env c b txs coinbase root gas)
    (fresh : c.getByHash (b.hash env.sha) = none) (meets : meetsTarget (b.hash env.sha) b.header.difficulty = true)
    (cand : c.candidateStateRoot env verifySig txs coinbase = .ok (root,gas)) (limit : gas ≤ c.gasLimit) :
    ∃ st w, Accepted env verifySig c b st w := by
  obtain ⟨ids,before,o,derived,applied,after,used⟩ := candidateRootOk.mp cand
  refine ⟨_,b.header.difficulty.toUInt64,sealedBy s built ids derived applied after used limit fresh (nextHeight s fits) ?_ ?_⟩
  · simp only [Chain.respectsFinality,pow]
  · simp only [Chain.checkConsensus,pow]
    exact if_pos meets

/- Over the head of a reachable PoW chain, a block with the candidate's values is accepted
exactly when the candidate is, and a block with other values never. -/
theorem miningValidates {setup : Setup} (r : Extended env (setup.chain env) c) (pow : setup.consensus = .pow) (fits : c.FitsMap)
    (verifySig : VerifySig) (txs : List Transaction) (coinbase : Address) :
    (∀ root gas b, Sealed env c b txs coinbase root gas → c.getByHash (b.hash env.sha) = none →
      meetsTarget (b.hash env.sha) b.header.difficulty = true →
      ((c.candidateStateRoot env verifySig txs coinbase = .ok (root,gas) ∧ gas ≤ c.gasLimit) ↔
        ∃ c', c.addBlock env verifySig b = .ok c')) ∧
    (∀ b c', b.header.prevHash = c.head → b.txs = txs → b.header.coinbase = coinbase →
      c.addBlock env verifySig b = .ok c' → b.header.baseFee = c.nextBaseFee ∧
        c.candidateStateRoot env verifySig txs coinbase = .ok (b.header.stateRoot,b.header.gasUsed)) := by
  obtain ⟨s,_,grows⟩ := extendedSetup r
  have mode : c.consensus = .pow := grows.config.consensus.trans pow
  refine ⟨fun root gas b built fresh meets => ⟨?_,?_⟩,fun b c' prev carries mined added => ?_⟩
  · rintro ⟨cand,limit⟩
    obtain ⟨st,w,a⟩ := candidateAccepted s mode fits built fresh meets cand limit
    exact ⟨_,addBlockOk.mpr ⟨st,w,a,rfl⟩⟩
  · rintro ⟨c',added⟩
    obtain ⟨st,w,a,_⟩ := addBlockOk.mp added
    have prev : b.header.prevHash = c.head := built.prevHash.trans (s.keyed _ _ (headFound s))
    obtain ⟨_,cand⟩ := acceptedCandidate s fits prev built.txs built.coinbase a
    have limit := a.gas
    rw [built.stateRoot,built.gasUsed] at cand
    rw [built.gasUsed] at limit
    exact ⟨cand,limit⟩
  · obtain ⟨st,w,a,_⟩ := addBlockOk.mp added
    exact acceptedCandidate s fits prev carries mined a

end
namespace Devnet

theorem soloValidates : (∃ c', ((soloSetup 0).chain env).addBlock env acceptNonEmptySig (soloBlock 0) = .ok c') ∧
    (soloBlock 0).header.baseFee = ((soloSetup 0).chain env).nextBaseFee := by
  have accepted := soloAccepted 0
  have fits : ((soloSetup 0).chain env).FitsMap := show 1 < 2 ^ 63 by decide
  obtain ⟨_,_,meets⟩ := mineFromSound (soloMined 0)
  have cand : ((soloSetup 0).chain env).candidateStateRoot env acceptNonEmptySig (soloBlock 0).txs (account 3) = .ok (0,0) := by
    simp only [Chain.candidateStateRoot,bindOk]
    exact ⟨_,soloCandidate 0,rfl⟩
  obtain ⟨agree,only⟩ := miningValidates (@Extended.start _ env ((soloSetup 0).chain env)) rfl fits acceptNonEmptySig (soloBlock 0).txs (account 3)
  have added := (agree 0 0 (soloBlock 0) ⟨rfl,rfl,rfl,rfl,rfl,rfl,rfl,rfl⟩ accepted.fresh meets).mp ⟨cand,by decide⟩
  obtain ⟨c',ok⟩ := added
  exact ⟨⟨c',ok⟩,(only (soloBlock 0) c' (soloPrev 0) rfl rfl ok).1⟩

end Devnet
end L1Chain
