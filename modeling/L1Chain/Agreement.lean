import L1Chain.Quorum
import L1Chain.Finality

/-! Finality agreement between two nodes that see different blocks. `authored` and
`proposes` say which attestations and blocks each validator really signed; with
unforgeable signatures everything a node accepts is among them. A node's records
stay `Faithful` to these relations, and a checkpoint it finalizes by a quorum of
one round is `Certified` by correct validators. -/
namespace L1Chain
open Transition Runs Pos

section
variable {E : Type} {env : Env E} {verifySig : VerifySig} {vs : ValidatorSet} {p : PosState} {tx : Transaction}
  {authored : Address → Attestation → Prop} {proposes : Address → Block → Prop} {good : Finset ValidatorInfo}

structure Honest (authored : Address → Attestation → Prop) (proposes : Address → Block → Prop) (v : ValidatorInfo) :
    Prop where
  oneBlock : ∀ b b', proposes v.address b → proposes v.address b' → b.header.prevHash = b'.header.prevHash → b = b'
  oneVote : ∀ a a', authored v.address a → authored v.address a' →
    checkpointRound a.targetHeight = checkpointRound a'.targetHeight → a.targetHash = a'.targetHash
  oneHeight : ∀ a a', authored v.address a → authored v.address a' → a.targetHash = a'.targetHash →
    a.targetHeight = a'.targetHeight

structure Unforgeable (env : Env E) (verifySig : VerifySig) (vs : ValidatorSet) (chainID : UInt64)
    (authored : Address → Attestation → Prop) (proposes : Address → Block → Prop) (bs : List Block) : Prop where
  votes : ∀ b ∈ bs, ∀ tx ∈ b.txs, ∀ a, isAttestationTx tx = true → decodeAttest tx.data = .ok a →
    verifySig tx = true → attestationValid env vs chainID b.header.height tx = true → authored tx.sender a
  blocks : ∀ b ∈ bs, SignedBy env vs chainID b → proposes b.header.coinbase b

def free (vs : ValidatorSet) (p : PosState) : Finset ValidatorInfo :=
  vs.members.filter (fun v => p.jailed v.address = false)

def roundVoters (vs : ValidatorSet) (p : PosState) (round : UInt64) (target : Hash) : Finset ValidatorInfo :=
  (free vs p).filter (fun v => p.attestedRound round v.address = some target)

/- A vote that finalizes has a quorum of its own round behind it: validators that
are not jailed and hold two thirds of the stake that is not jailed. -/
def RoundQuorum (vs : ValidatorSet) (p : PosState) (tx : Transaction) : Prop :=
  ∀ v a, Counted vs p tx v a → p.finalizes vs v a → 2 * stakeOf (free vs p) ≤
    3 * stakeOf (insert v (roundVoters vs p (checkpointRound a.targetHeight) a.targetHash))

def Certified (authored : Address → Attestation → Prop) (vs : ValidatorSet) (good : Finset ValidatorInfo)
    (target : Hash) (height : UInt64) : Prop :=
  ∃ s ⊆ good, 2 * stakeOf good ≤ 3 * stakeOf s + stakeOf (vs.members \ good) ∧
    ∀ v ∈ s, ∃ a, authored v.address a ∧ a.targetHash = target ∧
      checkpointRound a.targetHeight = checkpointRound height

structure Faithful (env : Env E) (vs : ValidatorSet) (authored : Address → Attestation → Prop)
    (proposes : Address → Block → Prop) (good : Finset ValidatorInfo) (p : PosState) : Prop where
  votes : ∀ r x t, p.attestedRound r x = some t → ∃ a, authored x a ∧ a.targetHash = t ∧ checkpointRound a.targetHeight = r
  slots : ∀ prev x h, p.proposedAtHeight prev x = some h →
    ∃ b, proposes x b ∧ b.header.prevHash = prev ∧ b.hash env.sha = h
  free : ∀ v ∈ good, p.jailed v.address = false
  final : (p.finalizedHash = 0 ∧ p.finalizedHeight = 0) ∨
    (p.finalizedHeight ≠ 0 ∧ Certified authored vs good p.finalizedHash p.finalizedHeight)

theorem faithfulInit : Faithful env vs authored proposes good PosState.init :=
  ⟨fun _ _ _ entry => absurd entry (Option.some_ne_none _).symm,fun _ _ _ entry => absurd entry (Option.some_ne_none _).symm,
    fun _ _ => rfl,.inl ⟨rfl,rfl⟩⟩

theorem conflictNotGood {v : ValidatorInfo} {a : Attestation} (f : Faithful env vs authored proposes good p)
    (honest : ∀ v ∈ good, Honest authored proposes v) (conflict : Conflicting vs p tx v a)
    (signed : authored v.address a) : v ∉ good := by
  intro member
  obtain ⟨existing,entry,different⟩ := conflict.earlier
  obtain ⟨a',signed',target,round⟩ := f.votes _ _ _ entry
  exact different (target.symm.trans ((honest v member).oneVote a' a signed' signed round))

theorem certify {v : ValidatorInfo} {a : Attestation} (f : Faithful env vs authored proposes good p)
    (within : good ⊆ vs.members) (counted : Counted vs p tx v a) (signed : authored v.address a)
    (quorum : 2 * stakeOf (free vs p) ≤
      3 * stakeOf (insert v (roundVoters vs p (checkpointRound a.targetHeight) a.targetHash))) :
    Certified authored vs good a.targetHash a.targetHeight := by
  have own : v ∈ free vs p := by
    refine Finset.mem_filter.mpr ⟨?_,counted.free⟩
    simpa [ValidatorSet.members] using (byAddressSound counted.validator).1
  have voted : insert v (roundVoters vs p (checkpointRound a.targetHeight) a.targetHash) ⊆ free vs p :=
    Finset.insert_subset own (Finset.filter_subset _ _)
  have kept : good ⊆ free vs p := fun x member => Finset.mem_filter.mpr ⟨within member,f.free x member⟩
  refine ⟨_,Finset.inter_subset_right,Quorum.correctShare (fun v : ValidatorInfo => v.stake.toNat) voted kept
    (Finset.filter_subset _ _) quorum,?_⟩
  intro x member
  rcases Finset.mem_insert.mp (Finset.mem_inter.mp member).1 with rfl | earlier
  · exact ⟨a,signed,rfl,rfl⟩
  · exact f.votes _ _ _ (Finset.mem_filter.mp earlier).2

theorem jailFaithful {x : Address} (f : Faithful env vs authored proposes good p) (bad : ∀ v ∈ good, v.address ≠ x) :
    Faithful env vs authored proposes good (p.jail x) := by
  refine ⟨f.votes,f.slots,?_,f.final⟩
  intro v member
  simp only [PosState.jail,put,if_neg (bad v member)]
  exact f.free v member

theorem countFaithful {v : ValidatorInfo} {a : Attestation} (f : Faithful env vs authored proposes good p)
    (within : good ⊆ vs.members) (counted : Counted vs p tx v a) (signed : authored v.address a)
    (quorum : RoundQuorum vs p tx) : Faithful env vs authored proposes good (p.countVote vs v a) := by
  refine ⟨?_,?_,?_,?_⟩
  · intro r x t entry
    rw [PosState.countVoteRound] at entry
    split at entry
    · rename_i own
      cases entry
      rw [own.1,own.2]
      exact ⟨a,signed,rfl,rfl⟩
    · exact f.votes r x t entry
  · rw [PosState.countVoteEq]
    exact f.slots
  · rw [PosState.countVoteJailed]
    exact f.free
  · rw [PosState.countVoteEq]
    by_cases reached : p.finalizes vs v a
    · simp only [if_pos reached]
      have above : a.targetHeight ≠ 0 := UInt64.pos_iff_ne_zero.mp
        (UInt64.lt_of_le_of_lt (UInt64.le_iff_toNat_le.mpr (Nat.zero_le _)) reached.1)
      exact .inr ⟨above,certify f within counted signed (quorum v a counted reached)⟩
    · simp only [if_neg reached]
      exact f.final

theorem recordFaithful (f : Faithful env vs authored proposes good p) (within : good ⊆ vs.members)
    (honest : ∀ v ∈ good, Honest authored proposes v)
    (signed : ∀ a, isAttestationTx tx = true → decodeAttest tx.data = .ok a → authored tx.sender a)
    (quorum : RoundQuorum vs p tx) : Faithful env vs authored proposes good (p.recordVote vs tx) := by
  rcases recordVoteCases vs p tx with same | ⟨v,a,conflict,same⟩ | ⟨v,a,counted,same⟩
  · rw [same]
    exact f
  · obtain ⟨member,sender⟩ := byAddressSound conflict.validator
    have own : authored v.address a := sender ▸ signed a conflict.attests conflict.decoded
    have bad := conflictNotGood f honest conflict own
    rw [same]
    refine jailFaithful f ?_
    intro x isGood address
    have valid : x ∈ vs.validators := by simpa [ValidatorSet.members] using within isGood
    exact bad (memberOfAddress valid member address ▸ isGood)
  · have own : authored v.address a :=
      (byAddressSound counted.validator).2 ▸ signed a counted.attests counted.decoded
    rw [same]
    exact countFaithful f within counted own quorum

theorem detectFaithful {b : Block} (f : Faithful env vs authored proposes good p)
    (honest : ∀ v ∈ good, Honest authored proposes v) (signed : proposes b.header.coinbase b) :
    Faithful env vs authored proposes good (p.detectEquivocation b (b.hash env.sha)) := by
  cases slot : p.proposedAtHeight b.header.prevHash b.header.coinbase with
  | none =>
    rw [detectFirst slot]
    refine ⟨f.votes,?_,f.free,f.final⟩
    intro prev x h entry
    simp only [put] at entry
    split at entry
    · rename_i parent
      simp only [put] at entry
      split at entry
      · rename_i author
        cases entry
        exact ⟨b,author ▸ signed,parent.symm,rfl⟩
      · exact parent ▸ f.slots _ x h entry
    · exact f.slots prev x h entry
  | some existing =>
    simp only [PosState.detectEquivocation,slot]
    split
    · rename_i different
      refine jailFaithful f ?_
      intro v member address
      obtain ⟨b',signed',parent,hash⟩ := f.slots _ _ _ slot
      have same := (honest v member).oneBlock b' b (address ▸ signed') (address ▸ signed) parent
      rw [same] at hash
      exact different hash.symm
    · exact f

theorem acceptedFaithful {c : Chain} {b : Block} {bs : List Block} {st : MptState} {w : UInt64}
    (mode : c.consensus = .pos vs) (a : Accepted env verifySig c b st w)
    (f : Faithful env vs authored proposes good c.pos) (within : good ⊆ vs.members)
    (honest : ∀ v ∈ good, Honest authored proposes v)
    (delivered : Unforgeable env verifySig vs c.chainID authored proposes bs) (member : b ∈ bs)
    (quorum : Along (PosState.recordVote vs) (RoundQuorum vs) c.pos b.txs) :
    Faithful env vs authored proposes good (c.commit env b st w).pos := by
  have checked := a.consensus
  simp only [Chain.checkConsensus,mode,bindOk] at checked
  obtain ⟨_,proposer,_,attested,_⟩ := checked
  obtain ⟨before,_,applied⟩ := a.derived
  simp only [applyBlockRewarded,bindOk] at applied
  obtain ⟨o,txs,_⟩ := applied
  have valid : ∀ tx ∈ b.txs, isAttestationTx tx = true → attestationValid env vs c.chainID b.header.height tx = true := by
    unfold verifyAttestations at attested
    split at attested
    · rename_i all
      intro tx inside isVote
      exact List.all_eq_true.mp all tx (List.mem_filter.mpr ⟨inside,isVote⟩)
    · contradiction
  have signed : ∀ tx ∈ b.txs, ∀ a, isAttestationTx tx = true → decodeAttest tx.data = .ok a → authored tx.sender a :=
    fun tx inside a isVote decoded =>
      delivered.votes b member tx inside a isVote decoded (blockSigned txs tx inside) (valid tx inside isVote)
  have voted : Faithful env vs authored proposes good (b.txs.foldl (PosState.recordVote vs) c.pos) :=
    invariant (Faithful env vs authored proposes good)
      (fun p tx f both => recordFaithful f within honest both.1 both.2) f (alongAnd (alongOfMem
        (fun tx => ∀ a, isAttestationTx tx = true → decodeAttest tx.data = .ok a → authored tx.sender a) signed) quorum)
  rw [Chain.commitPos]
  simp only [Chain.recordBlock,mode]
  exact detectFaithful voted honest (delivered.blocks b member (checkProposerOk.mp proposer).2)

theorem feedFaithful {bs : List Block} (setup : Setup) (mode : setup.consensus = .pos vs) (within : good ⊆ vs.members)
    (honest : ∀ v ∈ good, Honest authored proposes v)
    (delivered : Unforgeable env verifySig vs setup.chainID authored proposes bs)
    (quorum : VotesMeet env verifySig vs (RoundQuorum vs) (setup.chain env) bs) :
    Faithful env vs authored proposes good ((setup.chain env).feed env verifySig bs).pos := by
  have keep : ∀ (c : Chain) b, (c.consensus = .pos vs ∧ c.chainID = setup.chainID ∧
      Faithful env vs authored proposes good c.pos) →
      (b ∈ bs ∧ (Accepts env verifySig c b → Along (PosState.recordVote vs) (RoundQuorum vs) c.pos b.txs)) →
      (c.offer env verifySig b).consensus = .pos vs ∧ (c.offer env verifySig b).chainID = setup.chainID ∧
        Faithful env vs authored proposes good (c.offer env verifySig b).pos := by
    rintro c b ⟨mode,id,f⟩ ⟨member,quorum⟩
    have config := offerConfig env verifySig c b
    refine ⟨config.consensus.trans mode,config.chainID.trans id,?_⟩
    rcases offerCases env verifySig c b with ⟨same,_⟩ | ⟨st,w,a,same⟩
    · rw [same]
      exact f
    · rw [same]
      exact acceptedFaithful mode a f within honest (id.symm ▸ delivered) member
        (quorum ⟨_,addBlockOk.mpr ⟨st,w,a,rfl⟩⟩)
  exact (invariant (fun c : Chain => c.consensus = .pos vs ∧ c.chainID = setup.chainID ∧
    Faithful env vs authored proposes good c.pos) keep ⟨mode,rfl,faithfulInit⟩
    (alongAnd (alongOfMem (· ∈ bs) (fun _ member => member)) quorum)).2.2

theorem certifiedAgree {t t' : Hash} {height : UInt64} (within : good ⊆ vs.members)
    (honest : ∀ v ∈ good, Honest authored proposes v)
    (minority : 3 * stakeOf (vs.members \ good) < vs.totalStake.toNat) (first : Certified authored vs good t height)
    (second : Certified authored vs good t' height) : t = t' := by
  obtain ⟨s,left,share,signed⟩ := first
  obtain ⟨s',right,share',signed'⟩ := second
  rw [← stakeOfMembers] at minority
  obtain ⟨v,inFirst,inSecond⟩ := Quorum.sharesMeet (fun v : ValidatorInfo => v.stake.toNat) left right within
    share share' minority
  obtain ⟨a,own,target,round⟩ := signed v inFirst
  obtain ⟨a',own',target',round'⟩ := signed' v inSecond
  rw [← target,← target']
  exact (honest v (left inFirst)).oneVote a a' own own' (round.trans round'.symm)

/- Two nodes with the same chain id and validator set never record different hashes
at the same finalized height, as long as less than a third of the stake deviates
and every vote that finalizes has a quorum of its own round behind it. -/
theorem finalizedHashesAgree (first second : Setup) (mode : first.consensus = .pos vs)
    (mode' : second.consensus = .pos vs) (id : second.chainID = first.chainID) (within : good ⊆ vs.members)
    (honest : ∀ v ∈ good, Honest authored proposes v)
    (minority : 3 * stakeOf (vs.members \ good) < vs.totalStake.toNat) {bs bs' : List Block}
    (delivered : Unforgeable env verifySig vs first.chainID authored proposes bs)
    (delivered' : Unforgeable env verifySig vs first.chainID authored proposes bs')
    (quorum : VotesMeet env verifySig vs (RoundQuorum vs) (first.chain env) bs)
    (quorum' : VotesMeet env verifySig vs (RoundQuorum vs) (second.chain env) bs')
    (level : ((first.chain env).feed env verifySig bs).pos.finalizedHeight =
      ((second.chain env).feed env verifySig bs').pos.finalizedHeight) :
    ((first.chain env).feed env verifySig bs).pos.finalizedHash =
      ((second.chain env).feed env verifySig bs').pos.finalizedHash := by
  have f := feedFaithful first mode within honest delivered quorum
  have f' := feedFaithful second mode' within honest (id.symm ▸ delivered') quorum'
  rcases f.final with ⟨none,zero⟩ | ⟨above,mine⟩
  · rcases f'.final with ⟨none',_⟩ | ⟨above,_⟩
    · rw [none,none']
    · exact absurd (level.symm.trans zero) above
  · rcases f'.final with ⟨_,zero⟩ | ⟨_,other⟩
    · exact absurd (level.trans zero) above
    · rw [← level] at other
      exact certifiedAgree within honest minority mine other

end

namespace Devnet

/- Validator 1, with two of the seven stakes, deviates: it signs two blocks on one
parent and puts its vote into both under two heights. Validators 2 and 3 vote once
each, for different blocks of height 32. -/
def others : Finset ValidatorInfo := vs.members.erase (validator 1 2)

def castVotes (x : Address) (a : Attestation) : Prop :=
  x = account 1 ∨ (x = account 2 ∧ a = ⟨32,hashAt 32 0,sig⟩) ∨ (x = account 3 ∧ a = ⟨32,hashAt 32 1,sig⟩)

def madeBlocks (x : Address) (_ : Block) : Prop := x = account 1

theorem othersHonest : ∀ v ∈ others, Honest castVotes madeBlocks v := by
  intro v member
  have apart : v.address ≠ account 1 := by
    have all : ∀ v ∈ others, v.address ≠ account 1 := by decide
    exact all v member
  have single : ∀ a a', castVotes v.address a → castVotes v.address a' → a = a' := by
    intro a a' first second
    rcases first with bad | ⟨left,rfl⟩ | ⟨left,rfl⟩
    · exact absurd bad apart
    · rcases second with bad | ⟨_,rfl⟩ | ⟨right,rfl⟩
      · exact absurd bad apart
      · rfl
      · exact absurd (left.symm.trans right) (by decide)
    · rcases second with bad | ⟨right,rfl⟩ | ⟨_,rfl⟩
      · exact absurd bad apart
      · exact absurd (left.symm.trans right) (by decide)
      · rfl
  refine ⟨fun _ _ bad => absurd bad apart,?_,?_⟩
  · intro a a' first second _
    rw [single a a' first second]
  · intro a a' first second _
    rw [single a a' first second]

theorem quietMember {n : Nat} {b : Block} (member : b ∈ quietBlocks n) : ∃ k, k < n ∧ b = empty k := by
  unfold quietBlocks at member
  obtain ⟨k,inside,rfl⟩ := List.mem_map.mp member
  exact ⟨k,List.mem_range.mp inside,rfl⟩

theorem deliveredMember {n : Nat} {time : Int64} {txs : List Transaction} {b : Block}
    (member : b ∈ quietBlocks n ++ [block n time txs]) : b.header.coinbase = account 1 ∧ ∀ tx ∈ b.txs, tx ∈ txs := by
  rcases List.mem_append.mp member with quiet | last
  · obtain ⟨k,_,rfl⟩ := quietMember quiet
    exact ⟨rfl,fun tx none => absurd none List.not_mem_nil⟩
  · rw [List.mem_singleton.mp last]
    exact ⟨rfl,fun tx => id⟩

theorem splitUnforgeable {w : UInt8} {time : Int64} {target : Hash} (authored : Address → Attestation → Prop)
    (first : ∀ a, authored (account 1) a) (second : authored (account w) ⟨32,target,sig⟩) :
    Unforgeable env acceptNonEmptySig vs defaultChainID authored madeBlocks
      (quietBlocks 32 ++ [splitBlock w time target]) := by
  refine ⟨?_,fun b member _ => (deliveredMember member).1⟩
  intro b member tx inside a _ decoded _ _
  have cast := (deliveredMember member).2 tx inside
  simp only [doubleVotes,List.mem_cons,List.not_mem_nil,or_false] at cast
  rcases cast with rfl | rfl | rfl
  · exact first a
  · rw [voteDecoded] at decoded
    cases decoded
    exact second
  · exact first a

def deliveredFirst : List Block := quietBlocks 32 ++ [splitBlock 2 0 (hashAt 32 0)]
def deliveredSecond : List Block := quietBlocks 32 ++ [splitBlock 3 1 (hashAt 32 1)]

theorem deliveredHashes {b b' : Block} (left : b ∈ deliveredFirst ++ deliveredSecond)
    (right : b' ∈ deliveredFirst ++ deliveredSecond) (same : b.hash env.sha = b'.hash env.sha) : b = b' := by
  let named (k t : Nat) : Block :=
    if t = 1 then splitBlock 3 1 (hashAt 32 1) else if k = 33 then splitBlock 2 0 (hashAt 32 0) else empty (k - 1)
  have quietNamed : ∀ x ∈ quietBlocks 32, ∃ k t, k < 2 ^ 64 ∧ t < 2 ^ 64 ∧ x.hash env.sha = hashAt k t ∧ x = named k t := by
    intro x quiet
    obtain ⟨k,below,rfl⟩ := quietMember quiet
    refine ⟨k + 1,0,by omega,by omega,blockHash (by omega) 0 [],?_⟩
    simp only [named,Nat.zero_ne_one,if_false,if_neg (show ¬ k + 1 = 33 by omega),Nat.add_sub_cancel]
  have spelled : ∀ x ∈ deliveredFirst ++ deliveredSecond,
      ∃ k t, k < 2 ^ 64 ∧ t < 2 ^ 64 ∧ x.hash env.sha = hashAt k t ∧ x = named k t := by
    intro x member
    simp only [deliveredFirst,deliveredSecond,List.mem_append,List.mem_singleton] at member
    rcases member with (quiet | rfl) | (quiet | rfl)
    · exact quietNamed x quiet
    · exact ⟨33,0,by omega,by omega,blockHash (by decide) 0 _,rfl⟩
    · exact quietNamed x quiet
    · exact ⟨33,1,by omega,by omega,blockHash (by decide) 1 _,rfl⟩
  obtain ⟨k,t,ks,ts,hash,rfl⟩ := spelled b left
  obtain ⟨k',t',ks',ts',hash',rfl⟩ := spelled b' right
  rw [hash,hash'] at same
  obtain ⟨rfl,rfl⟩ := hashAtInj ks ks' ts ts' same
  rfl

/- Less than a third deviates, yet the two nodes finalize different blocks at height
32: each tally holds the stake of validator 1 twice. -/
theorem doubledStakeSplitsFinality :
    3 * stakeOf (vs.members \ others) < vs.totalStake.toNat ∧ (∀ v ∈ others, Honest castVotes madeBlocks v) ∧
    Unforgeable env acceptNonEmptySig vs defaultChainID castVotes madeBlocks deliveredFirst ∧
    Unforgeable env acceptNonEmptySig vs defaultChainID castVotes madeBlocks deliveredSecond ∧
    (∀ b ∈ deliveredFirst ++ deliveredSecond, ∀ b' ∈ deliveredFirst ++ deliveredSecond,
      b.hash env.sha = b'.hash env.sha → b = b') ∧
    (start.feed env acceptNonEmptySig deliveredFirst).pos.finalizedHeight =
      (start.feed env acceptNonEmptySig deliveredSecond).pos.finalizedHeight ∧
    (start.feed env acceptNonEmptySig deliveredFirst).pos.finalizedHash ≠
      (start.feed env acceptNonEmptySig deliveredSecond).pos.finalizedHash := by
  have left : Split 2 (hashAt 32 0) (start.feed env acceptNonEmptySig deliveredFirst).pos := splitState (.inl rfl) 0 _
  have right : Split 3 (hashAt 32 1) (start.feed env acceptNonEmptySig deliveredSecond).pos := splitState (.inr rfl) 1 _
  refine ⟨by decide,othersHonest,splitUnforgeable castVotes (fun _ => .inl rfl) (.inr (.inl ⟨rfl,rfl⟩)),
    splitUnforgeable castVotes (fun _ => .inl rfl) (.inr (.inr ⟨rfl,rfl⟩)),
    fun b inFirst b' inSecond => deliveredHashes inFirst inSecond,?_,?_⟩
  · rw [left.finalizedHeight,right.finalizedHeight]
  · rw [left.finalizedHash,right.finalizedHash]
    intro same
    exact absurd (hashAtInj (by omega) (by omega) (by omega) (by omega) same).2 (by omega)

theorem Tallied.backed {target : Hash} {ns : List UInt8} {sum : UInt64} {p : PosState} {n : UInt8} (t : Tallied target ns sum p)
    (known : n ∈ [1,2,3,4]) (others : ns ⊆ [1,2,3,4]) (most : (sum + stakes n) * 3 ≥ 14 →
      14 ≤ 3 * stakeOf (insert (validator n (stakes n)) (ns.map fun m => validator m (stakes m)).toFinset)) :
    RoundQuorum vs p (vote n 0 32 target) := by
  intro v a counted reached
  have decoded := counted.decoded
  rw [voteDecoded] at decoded
  cases decoded
  cases (knownVoter n known).symm.trans counted.validator
  have voted : (ns.map fun m => validator m (stakes m)).toFinset ⊆ roundVoters vs p (checkpointRound 32) target := by
    intro w member
    obtain ⟨m,inside,rfl⟩ := List.mem_map.mp (List.mem_toFinset.mp member)
    have valid := (byAddressSound (knownVoter m (others inside))).1
    refine Finset.mem_filter.mpr ⟨Finset.mem_filter.mpr ⟨valid,by rw [t.jailed]⟩,?_⟩
    rw [t.rounds]
    exact if_pos ⟨by decide,List.mem_map_of_mem inside⟩
  have enough := most (t.finalizes.mp reached)
  have more := stakeOfMono (Finset.insert_subset_insert (validator n (stakes n)) voted)
  have bound : stakeOf (free vs p) ≤ stakeOf vs.members := stakeOfMono (Finset.filter_subset _ _)
  have seven : stakeOf vs.members = 7 := by decide
  dsimp only
  omega

theorem quorumRound {c : Chain} (q : Quiet 32 c) (target : Hash) :
    Along (PosState.recordVote vs) (RoundQuorum vs) c.pos (quorumVotes target) :=
  ⟨(quietTallied q target).backed (by decide) (by decide) (by decide),
    (quorumFirst q target).backed (by decide) (by decide) (by decide),trivial⟩

theorem othersRound {c : Chain} (q : Quiet 32 c) (target : Hash) :
    Along (PosState.recordVote vs) (RoundQuorum vs) c.pos (ballots [4,2,3] target) :=
  ⟨(quietTallied q target).backed (by decide) (by decide) (by decide),
    (quorumFirst q target).backed (by decide) (by decide) (by decide),
    (othersSecond q target).backed (by decide) (by decide) (by decide),trivial⟩

theorem quorumMeets (target : Hash) : VotesMeet env acceptNonEmptySig vs (RoundQuorum vs) start
    (quietBlocks 32 ++ [quorumBlock target]) :=
  quietThenVotes (P := fun _ _ => RoundQuorum vs) (fun _ q => quorumRound q target)

theorem othersMeet (target : Hash) : VotesMeet env acceptNonEmptySig vs (RoundQuorum vs) start
    (quietBlocks 32 ++ [othersBlock target]) :=
  quietThenVotes (P := fun _ _ => RoundQuorum vs) (fun _ q => othersRound q target)

theorem ballotsUnforgeable (ns : List UInt8) (time : Int64) (target : Hash) :
    Unforgeable env acceptNonEmptySig vs defaultChainID (fun _ a => a = ⟨32,target,sig⟩) madeBlocks
      (quietBlocks 32 ++ [block 32 time (ballots ns target)]) := by
  refine ⟨?_,fun b member _ => (deliveredMember member).1⟩
  intro b member tx inside a _ decoded _ _
  obtain ⟨n,_,rfl⟩ := List.mem_map.mp ((deliveredMember member).2 tx inside)
  rw [voteDecoded] at decoded
  exact (Except.ok.inj decoded).symm

/- One node gets the votes of validators 4 and 1, the other, in another block on the same
parent, those of 4, 2 and 3. -/
theorem roundQuorumsAgree : quorumBlock (hashAt 32 0) ≠ othersBlock (hashAt 32 0) ∧
    (quorumChain (hashAt 32 0)).pos.finalizedHeight = 32 ∧ (othersChain (hashAt 32 0)).pos.finalizedHeight = 32 ∧
    (quorumChain (hashAt 32 0)).pos.finalizedHash = (othersChain (hashAt 32 0)).pos.finalizedHash := by
  have honest : ∀ v ∈ others, Honest (fun _ a => a = ⟨32,hashAt 32 0,sig⟩) madeBlocks v := by
    intro v member
    refine ⟨fun b b' bad => absurd bad ?_,fun a a' first second _ => by rw [first,second],
      fun a a' first second _ => by rw [first,second]⟩
    have all : ∀ v ∈ others, v.address ≠ account 1 := by decide
    exact all v member
  have high := (quorumFinal (hashAt 32 0)).2
  have high' := (othersFinal (hashAt 32 0)).2
  refine ⟨fun same => absurd (congrArg (·.header.timestamp) same) (by decide),high,high',?_⟩
  exact finalizedHashesAgree setup setup rfl rfl rfl (Finset.erase_subset _ _) honest (by decide)
    (ballotsUnforgeable [4,1] 0 _) (ballotsUnforgeable [4,2,3] 1 _) (quorumMeets _) (othersMeet _)
    (high.trans high'.symm)

end Devnet
end L1Chain
