import L1Chain.Accountability
import L1Chain.Attesting

/-! Validators that run this program, and the nodes that hear of them. What a validator's node
signs over its whole run is no evidence against it; so while the validators that run anything
else hold less than a third of the stake, no two nodes finalize different blocks at one height,
whatever blocks each of them is given. -/
namespace L1Chain
open Transition Runs Pos

section
variable {E : Type} {env : Env E} {verifySig : VerifySig} {vs : ValidatorSet} {good : Finset ValidatorInfo}

structure Operator (env : Env E) (verifySig : VerifySig) where
  cfg : Config
  disk : Store
  now : Int64
  node : Node
  mode : Exchange.Mode
  ecdsa : Hash → Bytes
  events : List Event
  pos : cfg.consensusMode = .pos
  made : Node.new env verifySig cfg disk now = .ok node
  fits : (events.foldl (Validator.step env verifySig ecdsa) ⟨node.setExchangeMode mode,0,.idle⟩).node.chain.FitsMap

namespace Operator

def start (o : Operator env verifySig) : Validator := ⟨o.node.setExchangeMode o.mode,0,.idle⟩
def blocks (o : Operator env verifySig) : List Block := o.start.proposals env verifySig o.ecdsa o.events
def votes (o : Operator env verifySig) : List Transaction := o.start.admissions env verifySig o.ecdsa o.events

theorem oneBlock (o : Operator env verifySig) {b b' : Block} (left : b ∈ o.blocks) (right : b' ∈ o.blocks)
    (parent : b.header.prevHash = b'.header.prevHash) : b = b' := by
  obtain ⟨setup,own⟩ : ∃ setup : Setup, o.start.node.chain = setup.chain env := by
    obtain ⟨consensus,chain,_⟩ := freshSetup (posFresh o.pos o.made)
    refine ⟨⟨o.cfg.genesis o.now,o.cfg.resolvedChainID,defaultGasLimit,o.mode,consensus⟩,?_⟩
    rw [start,Node.setExchangeMode,chain]
    rfl
  have started : Started env verifySig setup o.start.node.chain := by
    rw [own]
    exact ⟨setupSound setup,Grows.refl _⟩
  have fits := (alongBack (B := fun v : Validator => v.node.chain.FitsMap)
    (fun v e small => Nat.lt_of_le_of_lt (eventSize env verifySig o.ecdsa v e) small) o.fits).2
  exact List.inj_on_of_nodup_map (List.pairwise_map.mpr (collectRelated proposalsMarking started fits).2) left right parent

theorem oneVote (o : Operator env verifySig) {tx tx' : Transaction} {a a' : Attestation} (left : tx ∈ o.votes) (right : tx' ∈ o.votes)
    (read : decodeAttest tx.data = .ok a) (read' : decodeAttest tx'.data = .ok a')
    (round : checkpointRound a.targetHeight = checkpointRound a'.targetHeight) : a = a' := by
  have idle : o.start.Ready := trivial
  have apart : o.votes.Pairwise (fun tx tx' => voteRound tx ≠ voteRound tx') :=
    (collectRelated admissionsMarking idle (alongOfMem (fun _ => True) (fun _ _ => trivial))).2
  have same : voteRound tx = voteRound tx' := by simp only [voteRound,read,read',round]
  obtain rfl := List.inj_on_of_nodup_map (List.pairwise_map.mpr apart) left right same
  exact Except.ok.inj (read.symm.trans read')

end Operator

/- Whatever verifies in the delivered blocks in the name of a validator in `good` has left its
node: its votes as they read, its blocks as they are. -/
structure Genuine (vs : ValidatorSet) (chainID : UInt64) (good : Finset ValidatorInfo)
    (run : ValidatorInfo → Operator env verifySig) (bs : List Block) : Prop where
  votes : ∀ v ∈ good, ∀ b ∈ bs, ∀ tx ∈ b.txs, tx.sender = v.address → isAttestationTx tx = true → verifySig tx = true →
    attestationValid env vs chainID b.header.height tx = true →
    ∃ tx' ∈ (run v).votes, decodeAttest tx'.data = decodeAttest tx.data
  blocks : ∀ v ∈ good, ∀ b ∈ bs, b.header.coinbase = v.address → SignedBy env vs chainID b → b ∈ (run v).blocks

theorem storedVetted (setup : Setup) (mode : setup.consensus = .pos vs) {bs : List Block} {b : Block}
    (stored : b ∈ storedBlocks ((setup.chain env).feed env verifySig bs)) : b ∈ bs ∧ SignedBy env vs setup.chainID b ∧
      ∀ tx ∈ b.txs, verifySig tx = true ∧
        (isAttestationTx tx = true → attestationValid env vs setup.chainID b.header.height tx = true) := by
  have g : Grown env verifySig (setup.chain env) bs _ := feedGrown (setupSound setup) (setupIndexed setup)
  obtain ⟨h,below,found⟩ := stored
  have linked := g.sound.linked h b found below
  obtain ⟨signed,votes⟩ := linked.stake vs (g.grows.config.consensus.trans mode)
  rw [g.grows.config.chainID] at signed votes
  refine ⟨(g.only h b found).resolve_left fun root => ?_,signed,fun tx member => ⟨?_,fun attests => ?_⟩⟩
  · exact below ((setupOnly root).1.trans g.grows.config.genesisHash.symm)
  · obtain ⟨before,st,_,applied,_⟩ := linked.derived
    simp only [applyBlockRewarded,bindOk] at applied
    obtain ⟨r,ran,_⟩ := applied
    exact blockSigned ran tx member
  · unfold verifyAttestations at votes
    split at votes
    · rename_i all
      exact List.all_eq_true.mp all tx (List.mem_filter.mpr ⟨member,attests⟩)
    · cases votes

section
variable {run : ValidatorInfo → Operator env verifySig} {bs : List Block} {v : ValidatorInfo}

theorem genuineVote (setup : Setup) (mode : setup.consensus = .pos vs) (genuine : Genuine vs setup.chainID good run bs)
    (member : v ∈ good) {tx : Transaction} {round : UInt64} {target : Hash}
    (stored : tx ∈ storedTxs ((setup.chain env).feed env verifySig bs)) (voted : VotedFor tx v.address round target) :
    ∃ tx' ∈ (run v).votes, ∃ a, decodeAttest tx'.data = .ok a ∧ checkpointRound a.targetHeight = round ∧ a.targetHash = target := by
  obtain ⟨attests,sender,a,read,own,hash⟩ := voted
  obtain ⟨h,b,found,inside⟩ := stored
  have above : h ≠ ((setup.chain env).feed env verifySig bs).genesisHash := by
    rintro rfl
    have grows : Grows (setup.chain env) ((setup.chain env).feed env verifySig bs) := feedGrows env verifySig _ bs
    have root := grows.blocks _ _ (setupRoot env setup)
    rw [grows.config.genesisHash,root] at found
    cases Option.some.inj found
    cases inside
  obtain ⟨sent,_,vetted⟩ := storedVetted setup mode ⟨h,above,found⟩
  obtain ⟨signed,valid⟩ := vetted tx inside
  obtain ⟨tx',left,same⟩ := genuine.votes v member b sent tx inside sender attests signed (valid attests)
  exact ⟨tx',left,a,same.trans read,own,hash⟩

theorem votesAgree {first second : Setup} {bs' : List Block} (mode : first.consensus = .pos vs) (mode' : second.consensus = .pos vs)
    (genuine : Genuine vs first.chainID good run bs) (genuine' : Genuine vs second.chainID good run bs') (member : v ∈ good)
    {tx tx' : Transaction} {round : UInt64} {target target' : Hash}
    (stored : tx ∈ storedTxs ((first.chain env).feed env verifySig bs))
    (stored' : tx' ∈ storedTxs ((second.chain env).feed env verifySig bs'))
    (voted : VotedFor tx v.address round target) (voted' : VotedFor tx' v.address round target') : target = target' := by
  obtain ⟨_,left,a,read,same,hash⟩ := genuineVote first mode genuine member stored voted
  obtain ⟨_,right,a',read',same',hash'⟩ := genuineVote second mode' genuine' member stored' voted'
  have one := (run v).oneVote left right read read' (same.trans same'.symm)
  exact hash.symm.trans (one ▸ hash')

theorem neverConvicted {setup : Setup} (mode : setup.consensus = .pos vs) (genuine : Genuine vs setup.chainID good run bs)
    (member : v ∈ good) : ¬ Convicted ((setup.chain env).feed env verifySig bs) v.address := by
  rintro (⟨b,stored,b',stored',differ,parent,own,own'⟩ | ⟨tx,stored,tx',stored',_,_,_,voted,voted',differ⟩)
  · obtain ⟨sent,signed,_⟩ := storedVetted setup mode stored
    obtain ⟨sent',signed',_⟩ := storedVetted setup mode stored'
    exact differ ((run v).oneBlock (genuine.blocks v member b sent own signed) (genuine.blocks v member b' sent' own' signed') parent)
  · exact differ (votesAgree mode mode genuine genuine member stored stored' voted voted')

end

/- Finality is safe for validators that run this program. The validators in `good` each run a node
of their own, in any interleaving with the rest of the network; all others, with less than a third
of the stake, do as they like. Two nodes that are given any blocks, in any order, never record
different hashes at one finalized height. -/
theorem operatorsAgree (first second : Setup) (mode : first.consensus = .pos vs) (mode' : second.consensus = .pos vs)
    (run : ValidatorInfo → Operator env verifySig) (minority : 3 * stakeOf (vs.members \ good) < vs.totalStake.toNat)
    {bs bs' : List Block} (genuine : Genuine vs first.chainID good run bs) (genuine' : Genuine vs second.chainID good run bs')
    (quorum : VotesMeet env verifySig vs (RoundQuorum vs) (first.chain env) bs)
    (quorum' : VotesMeet env verifySig vs (RoundQuorum vs) (second.chain env) bs')
    (level : ((first.chain env).feed env verifySig bs).pos.finalizedHeight =
      ((second.chain env).feed env verifySig bs').pos.finalizedHeight) :
    ((first.chain env).feed env verifySig bs).pos.finalizedHash = ((second.chain env).feed env verifySig bs').pos.finalizedHash := by
  by_contra differ
  obtain ⟨guilty,within,third,convicted⟩ := splitConvicts (feedWitnessed first mode bs) (feedWitnessed second mode' bs')
    (feedBacked first mode quorum) (feedBacked second mode' quorum') level differ
  have others : guilty ⊆ vs.members \ good := by
    intro v member
    refine Finset.mem_sdiff.mpr ⟨within member,fun honest => ?_⟩
    rcases convicted v member with here | there | ⟨tx,stored,tx',stored',_,_,_,voted,voted',apart⟩
    · exact neverConvicted mode genuine honest here
    · exact neverConvicted mode' genuine' honest there
    · exact apart (votesAgree mode mode' genuine genuine' honest stored stored' voted voted')
  have most := stakeOfMono others
  omega

end

namespace Devnet

/- Validators 2, 3 and 4 run the program, and each votes for the checkpoint it hears of. -/
def number (v : ValidatorInfo) : UInt8 := UInt8.ofNat v.address.toNat

def operators (v : ValidatorInfo) : Operator env acceptNonEmptySig :=
  ⟨{validatorConfig with miner := account (number v)},Store.empty,0,seat (account (number v)) start [],.continuous,signs,listens,
    rfl,rfl,listensFits (number v)⟩

theorem operatorVotes {v : ValidatorInfo} {n : UInt8} (own : v.address = account n) :
    vote n 0 32 (hashAt 32 0) ∈ (operators v).votes := by
  have same : number v = n := by
    have small : n.toNat < 2 ^ 160 := n.toNat_lt.trans (by decide)
    rw [number,own,account,BitVec.toNat_ofNat,Nat.mod_eq_of_lt small,UInt8.ofNat_toNat]
  have left : (operators v).votes = (idle (account (number v)) start [] 0).admissions env acceptNonEmptySig signs listens := rfl
  rw [left,same,(listensAll n).admitted]
  exact List.mem_cons_self

theorem ballotsGenuine (ns : List UInt8) (time : Int64) : Genuine vs defaultChainID others operators
    (quietBlocks 32 ++ [block 32 time (ballots ns (hashAt 32 0))]) := by
  constructor
  · intro v _ b member tx cast own _ _ _
    obtain ⟨n,_,rfl⟩ := List.mem_map.mp ((deliveredMember member).2 tx cast)
    exact ⟨_,operatorVotes own.symm,rfl⟩
  · intro v good b member own _
    have apart : ∀ v ∈ others, v.address ≠ account 1 := by decide
    exact absurd (own.symm.trans (deliveredMember member).1) (apart v good)

/- One node gets their votes in one block, the other gets one of them with that of validator 1
in another block on the same parent; both finalize the checkpoint. -/
theorem operatorsFinalize : (othersChain (hashAt 32 0)).pos.finalizedHeight = 32 ∧
    (quorumChain (hashAt 32 0)).pos.finalizedHeight = 32 ∧
    (othersChain (hashAt 32 0)).pos.finalizedHash = (quorumChain (hashAt 32 0)).pos.finalizedHash := by
  have high := (othersFinal (hashAt 32 0)).2
  have high' := (quorumFinal (hashAt 32 0)).2
  exact ⟨high,high',operatorsAgree setup setup rfl rfl operators (by decide) (ballotsGenuine [4,2,3] 1)
    (ballotsGenuine [4,1] 0) (othersMeet _) (quorumMeets _) (high.trans high'.symm)⟩

end Devnet
end L1Chain
