import L1Chain.Agreement
import L1Chain.Evidence
import L1Chain.TwoThirds

/-! What finality rests on and what becomes of those who break it. A vote once on record stays,
a validator once jailed stays jailed, and the finalized height only rises. The quorum behind a
checkpoint can therefore be read off the records for good: two nodes that finalize different
blocks at one height hold between them the evidence against a third of the stake, and two thirds
of the stake on record for one target never leave it unfinalized. -/
namespace L1Chain
open Transition Runs Pos

section
variable {E : Type} {env : Env E} {verifySig : VerifySig} {vs : ValidatorSet} {p p' : PosState} {tx : Transaction}
  {a : Address} {c : Chain}

structure Later (p p' : PosState) : Prop where
  votes : ∀ r x t, p.attestedRound r x = some t → p'.attestedRound r x = some t
  jailed : ∀ x, p.jailed x = true → p'.jailed x = true
  height : p.finalizedHeight ≤ p'.finalizedHeight

theorem Later.refl (p : PosState) : Later p p := ⟨fun _ _ _ entry => entry,fun _ jailed => jailed,UInt64.le_refl _⟩

theorem jailLater (p : PosState) (x : Address) : Later p (p.jail x) :=
  ⟨fun _ _ _ entry => entry,fun y jailed => (jailMarks p x y).mpr (.inr jailed),UInt64.le_refl _⟩

section
variable {v : ValidatorInfo} {vote : Attestation}

theorem countReached (reached : p.finalizes vs v vote) : (p.countVote vs v vote).finalizedHash = vote.targetHash ∧
    (p.countVote vs v vote).finalizedHeight = vote.targetHeight := by
  rw [PosState.countVoteEq]
  exact ⟨if_pos reached,if_pos reached⟩

theorem countMissed (missed : ¬ p.finalizes vs v vote) : (p.countVote vs v vote).finalizedHash = p.finalizedHash ∧
    (p.countVote vs v vote).finalizedHeight = p.finalizedHeight := by
  rw [PosState.countVoteEq]
  exact ⟨if_neg missed,if_neg missed⟩

end

theorem countLater {v : ValidatorInfo} {a : Attestation} (counted : Counted vs p tx v a) : Later p (p.countVote vs v a) := by
  refine ⟨fun r x t entry => ?_,fun x jailed => ?_,?_⟩
  · rw [PosState.countVoteRound]
    split
    · rename_i own
      rw [own.1,own.2,counted.first] at entry
      cases entry
    · exact entry
  · rw [PosState.countVoteJailed]
    exact jailed
  · by_cases reached : p.finalizes vs v a
    · rw [(countReached reached).2]
      exact UInt64.le_of_lt reached.1
    · rw [(countMissed reached).2]
      exact UInt64.le_refl _

theorem recordLater (vs : ValidatorSet) (p : PosState) (tx : Transaction) : Later p (p.recordVote vs tx) := by
  rcases recordVoteCases vs p tx with same | ⟨v,a,_,same⟩ | ⟨v,a,counted,same⟩
  · rw [same]
    exact .refl p
  · rw [same]
    exact jailLater p v.address
  · rw [same]
    exact countLater counted

theorem detectLater (p : PosState) (b : Block) (h : Hash) : Later p (p.detectEquivocation b h) := by
  unfold PosState.detectEquivocation
  split
  · split
    · exact jailLater p b.header.coinbase
    · exact .refl p
  · exact ⟨fun _ _ _ entry => entry,fun _ jailed => jailed,UInt64.le_refl _⟩

/- The quorum behind the finalized checkpoint: voters of its round with two thirds of what is
left once the validators of `jail` are out. -/
structure Backing (vs : ValidatorSet) (p : PosState) (voters jail : Finset ValidatorInfo) : Prop where
  above : p.finalizedHeight ≠ 0
  members : voters ⊆ vs.members
  members' : jail ⊆ vs.members
  apart : Disjoint voters jail
  quorum : 2 * stakeOf (vs.members \ jail) ≤ 3 * stakeOf voters
  voted : ∀ v ∈ voters, p.attestedRound (checkpointRound p.finalizedHeight) v.address = some p.finalizedHash
  jailed : ∀ v ∈ jail, p.jailed v.address = true

def Backed (vs : ValidatorSet) (p : PosState) : Prop :=
  (p.finalizedHash = 0 ∧ p.finalizedHeight = 0) ∨ ∃ voters jail, Backing vs p voters jail

theorem Backed.later (backed : Backed vs p) (later : Later p p') (hash : p'.finalizedHash = p.finalizedHash)
    (height : p'.finalizedHeight = p.finalizedHeight) : Backed vs p' := by
  rcases backed with ⟨none,zero⟩ | ⟨voters,jail,b⟩
  · exact .inl ⟨hash.trans none,height.trans zero⟩
  · refine .inr ⟨voters,jail,height.symm ▸ b.above,b.members,b.members',b.apart,b.quorum,fun v member => ?_,
      fun v member => later.jailed _ (b.jailed v member)⟩
    rw [hash,height]
    exact later.votes _ _ _ (b.voted v member)

theorem freeComplement (vs : ValidatorSet) (p : PosState) :
    vs.members \ vs.members.filter (fun v => p.jailed v.address = true) = free vs p := by
  ext v
  simp only [free,Finset.mem_sdiff,Finset.mem_filter,not_and,Bool.not_eq_true]
  constructor
  · rintro ⟨member,out⟩
    exact ⟨member,out member⟩
  · rintro ⟨member,out⟩
    exact ⟨member,fun _ => out⟩

theorem countBacked {v : ValidatorInfo} {a : Attestation} (backed : Backed vs p) (counted : Counted vs p tx v a)
    (quorum : RoundQuorum vs p tx) : Backed vs (p.countVote vs v a) := by
  have later := countLater counted
  by_cases reached : p.finalizes vs v a
  · obtain ⟨hash,height⟩ := countReached reached
    have own : v ∈ free vs p := by
      refine Finset.mem_filter.mpr ⟨?_,counted.free⟩
      simpa [ValidatorSet.members] using (byAddressSound counted.validator).1
    have inside : insert v (roundVoters vs p (checkpointRound a.targetHeight) a.targetHash) ⊆ free vs p :=
      Finset.insert_subset own (Finset.filter_subset _ _)
    have above : a.targetHeight ≠ 0 := UInt64.pos_iff_ne_zero.mp (UInt64.lt_of_le_of_lt (UInt64.zero_le) reached.1)
    refine .inr ⟨_,vs.members.filter (fun v => p.jailed v.address = true),height.symm ▸ above,
      inside.trans (Finset.filter_subset _ _),Finset.filter_subset _ _,?_,?_,fun x member => ?_,fun x member => ?_⟩
    · refine Finset.disjoint_left.mpr fun x member out => ?_
      have clear := (Finset.mem_filter.mp (inside member)).2
      rw [(Finset.mem_filter.mp out).2] at clear
      cases clear
    · rw [freeComplement]
      exact quorum v a counted reached
    · rw [hash,height]
      rcases Finset.mem_insert.mp member with rfl | earlier
      · rw [PosState.countVoteRound]
        exact if_pos ⟨rfl,rfl⟩
      · exact later.votes _ _ _ (Finset.mem_filter.mp earlier).2
    · exact later.jailed _ (Finset.mem_filter.mp member).2
  · exact backed.later later (countMissed reached).1 (countMissed reached).2

theorem recordBacked (backed : Backed vs p) (quorum : RoundQuorum vs p tx) : Backed vs (p.recordVote vs tx) := by
  rcases recordVoteCases vs p tx with same | ⟨v,a,_,same⟩ | ⟨v,a,counted,same⟩
  · rw [same]
    exact backed
  · rw [same]
    exact backed.later (jailLater p v.address) rfl rfl
  · rw [same]
    exact countBacked backed counted quorum

theorem detectBacked (backed : Backed vs p) (b : Block) (h : Hash) : Backed vs (p.detectEquivocation b h) := by
  obtain ⟨_,_,hash,height⟩ := p.detectVotes b h
  exact backed.later (detectLater p b h) hash height

theorem feedBacked (setup : Setup) (mode : setup.consensus = .pos vs) {bs : List Block}
    (quorum : VotesMeet env verifySig vs (RoundQuorum vs) (setup.chain env) bs) :
    Backed vs ((setup.chain env).feed env verifySig bs).pos :=
  feedVotes (fun _ _ backed quorum => recordBacked backed quorum) (fun _ b h backed => detectBacked backed b h) mode
    (.inl ⟨rfl,rfl⟩) quorum

/- Evidence within the blocks of one node, and votes of one round for different targets in the
blocks of two. -/
def Convicted (c : Chain) (a : Address) : Prop := DoubleProposed c a ∨ DoubleVoted c a

def SplitVote (c d : Chain) (a : Address) : Prop :=
  ∃ tx ∈ storedTxs c, ∃ tx' ∈ storedTxs d, ∃ round target target', VotedFor tx a round target ∧
    VotedFor tx' a round target' ∧ target ≠ target'

theorem memberRegistered {v : ValidatorInfo} (member : v ∈ vs.members) : (vs.byAddress v.address).isSome :=
  List.find?_isSome.mpr ⟨v,by simpa [ValidatorSet.members] using member,by simp⟩

theorem jailedConvicted {v : ValidatorInfo} (witnessed : Witnessed env verifySig vs c) (member : v ∈ vs.members)
    (jailed : c.pos.jailed v.address = true) : Convicted c v.address := by
  obtain ⟨s,_,evident⟩ := witnessed
  rw [Convicted,← clashVotes (memberRegistered member),← clashProposals s,or_comm]
  exact evident.marked.mp jailed

theorem voteStored {v : ValidatorInfo} {round : UInt64} {target : Hash} (witnessed : Witnessed env verifySig vs c)
    (member : v ∈ vs.members) (entry : c.pos.attestedRound round v.address = some target) :
    ∃ tx ∈ storedTxs c, VotedFor tx v.address round target := by
  obtain ⟨_,_,evident⟩ := witnessed
  obtain ⟨tx,stored,cast⟩ := evident.1.recorded (round,v.address) target entry
  exact ⟨tx,stored,(ballotIff (memberRegistered member)).mp cast⟩

/- The two quorums meet outside their jails, or the jails hold a third of the stake: either way
the blocks stored at the two nodes convict a third. -/
theorem splitConvicts {d : Chain} (witnessed : Witnessed env verifySig vs c) (witnessed' : Witnessed env verifySig vs d)
    (backed : Backed vs c.pos) (backed' : Backed vs d.pos) (level : c.pos.finalizedHeight = d.pos.finalizedHeight)
    (differ : c.pos.finalizedHash ≠ d.pos.finalizedHash) :
    ∃ guilty ⊆ vs.members, vs.totalStake.toNat ≤ 3 * stakeOf guilty ∧ ∀ v ∈ guilty,
      Convicted c v.address ∨ Convicted d v.address ∨ SplitVote c d v.address := by
  rcases backed with ⟨none,zero⟩ | ⟨s,j,own⟩
  · rcases backed' with ⟨none',_⟩ | ⟨s',j',other⟩
    · exact absurd (none.trans none'.symm) differ
    · exact absurd (level.symm.trans zero) other.above
  · rcases backed' with ⟨_,zero⟩ | ⟨s',j',other⟩
    · exact absurd (level.trans zero) own.above
    · have third := Quorum.quorumsConvict (fun v : ValidatorInfo => v.stake.toNat) own.members other.members own.members'
        other.members' own.apart other.apart own.quorum other.quorum
      refine ⟨s ∩ s' ∪ (j ∪ j'),?_,?_,fun v member => ?_⟩
      · exact Finset.union_subset (Finset.inter_subset_left.trans own.members) (Finset.union_subset own.members' other.members')
      · rw [← stakeOfMembers]
        exact third
      · rcases Finset.mem_union.mp member with both | jailed
        · obtain ⟨left,right⟩ := Finset.mem_inter.mp both
          obtain ⟨tx,stored,voted⟩ := voteStored witnessed (own.members left) (own.voted v left)
          obtain ⟨tx',stored',voted'⟩ := voteStored witnessed' (other.members right) (other.voted v right)
          rw [← level] at voted'
          exact .inr (.inr ⟨tx,stored,tx',stored',_,_,_,voted,voted',differ⟩)
        · rcases Finset.mem_union.mp jailed with here | there
          · exact .inl (jailedConvicted witnessed (own.members' here) (own.jailed v here))
          · exact .inr (.inl (jailedConvicted witnessed' (other.members' there) (other.jailed v there)))

/- Two nodes that record different hashes at one finalized height: the blocks that they have
stored convict validators with at least a third of the stake, whatever blocks each was given. -/
theorem accountableFinality (first second : Setup) (mode : first.consensus = .pos vs) (mode' : second.consensus = .pos vs)
    {bs bs' : List Block} (quorum : VotesMeet env verifySig vs (RoundQuorum vs) (first.chain env) bs)
    (quorum' : VotesMeet env verifySig vs (RoundQuorum vs) (second.chain env) bs')
    (level : ((first.chain env).feed env verifySig bs).pos.finalizedHeight =
      ((second.chain env).feed env verifySig bs').pos.finalizedHeight)
    (differ : ((first.chain env).feed env verifySig bs).pos.finalizedHash ≠
      ((second.chain env).feed env verifySig bs').pos.finalizedHash) :
    ∃ guilty ⊆ vs.members, vs.totalStake.toNat ≤ 3 * stakeOf guilty ∧ ∀ v ∈ guilty,
      Convicted ((first.chain env).feed env verifySig bs) v.address ∨
      Convicted ((second.chain env).feed env verifySig bs') v.address ∨
      SplitVote ((first.chain env).feed env verifySig bs) ((second.chain env).feed env verifySig bs') v.address :=
  splitConvicts (feedWitnessed first mode bs) (feedWitnessed second mode' bs') (feedBacked first mode quorum)
    (feedBacked second mode' quorum') level differ

def inRound (vs : ValidatorSet) (p : PosState) (round : UInt64) (target : Hash) : Finset ValidatorInfo :=
  vs.members.filter (fun v => p.attestedRound round v.address = some target)

structure QuorumExact (vs : ValidatorSet) (p : PosState) : Prop where
  tallied : Tallied vs p
  complete : ∀ round target, 2 * vs.totalStake.toNat ≤ 3 * stakeOf (inRound vs p round target) →
    round ≤ checkpointRound p.finalizedHeight
  sound : p.finalizedHeight ≠ 0 → 2 * stakeOf (free vs p) ≤ 3 * stakeOf (voters vs p p.finalizedHash)

theorem roundMono {h h' : UInt64} (below : h ≤ h') : checkpointRound h ≤ checkpointRound h' := by
  rw [UInt64.le_iff_toNat_le] at below ⊢
  rw [checkpointRound,checkpointRound,UInt64.toNat_div,UInt64.toNat_div]
  exact Nat.div_le_div_right below

theorem freeStake (vs : ValidatorSet) (p : PosState) : stakeOf (free vs p) = stakeSum (vs.active p.jailed) := by
  have same : free vs p = (vs.active p.jailed).toFinset := by
    ext v
    simp [free,ValidatorSet.members,ValidatorSet.active]
  rw [same]
  exact List.sum_toFinset _ ((validatorsNodup vs).filter _)

theorem freeMono (later : Later p p') : stakeOf (free vs p') ≤ stakeOf (free vs p) := by
  refine stakeOfMono fun v member => ?_
  obtain ⟨inside,clear⟩ := Finset.mem_filter.mp member
  refine Finset.mem_filter.mpr ⟨inside,?_⟩
  cases before : p.jailed v.address with
  | false => rfl
  | true => exact absurd (later.jailed _ before) (by rw [clear]; decide)

theorem votersMono (later : Later p p') (target : Hash) : stakeOf (voters vs p target) ≤ stakeOf (voters vs p' target) := by
  refine stakeOfMono fun v member => ?_
  obtain ⟨valid,round,entry⟩ := mem_voters.mp member
  exact mem_voters.mpr ⟨valid,round,later.votes _ _ _ entry⟩

theorem inRoundVoters (round : UInt64) (target : Hash) : stakeOf (inRound vs p round target) ≤ stakeOf (voters vs p target) := by
  refine stakeOfMono fun v member => ?_
  obtain ⟨inside,entry⟩ := Finset.mem_filter.mp member
  exact mem_voters.mpr ⟨by simpa [ValidatorSet.members] using inside,round,entry⟩

theorem QuorumExact.later (exact : QuorumExact vs p) (later : Later p p') (votes : p'.attestedRound = p.attestedRound)
    (stakes : p'.checkpointStake = p.checkpointStake) (hash : p'.finalizedHash = p.finalizedHash)
    (height : p'.finalizedHeight = p.finalizedHeight) : QuorumExact vs p' := by
  refine ⟨?_,fun round target => ?_,fun above => ?_⟩
  · unfold Tallied voters
    rw [votes,stakes]
    exact exact.tallied
  · rw [inRound,votes,height]
    exact exact.complete round target
  · rw [height] at above
    rw [hash]
    calc 2 * stakeOf (free vs p') ≤ 2 * stakeOf (free vs p) := Nat.mul_le_mul_left 2 (freeMono later)
      _ ≤ 3 * stakeOf (voters vs p p.finalizedHash) := exact.sound above
      _ ≤ 3 * stakeOf (voters vs p' p.finalizedHash) := Nat.mul_le_mul_left 3 (votersMono later _)

theorem finalizesExact {v : ValidatorInfo} {a : Attestation} (tallied : Tallied vs (p.countVote vs v a))
    (small : 3 * vs.totalStake.toNat < 2 ^ 64) (higher : p.finalizedHeight < a.targetHeight) :
    p.finalizes vs v a ↔ 2 * stakeOf (free vs p) ≤ 3 * stakeOf (voters vs (p.countVote vs v a) a.targetHash) := by
  have tally : (p.checkpointStake a.targetHash + v.stake).toNat = stakeOf (voters vs (p.countVote vs v a) a.targetHash) := by
    rw [← tallied a.targetHash,PosState.countVoteEq]
    simp only [put,if_true]
  have total : (vs.effectiveStake p.jailed).2.toNat = stakeOf (free vs p) := by
    rw [effectiveTotal,freeStake]
  have most := stakeOfMono (votersSub vs (p.countVote vs v a) a.targetHash)
  have rest : stakeOf (free vs p) ≤ stakeOf vs.members := stakeOfMono (Finset.filter_subset _ _)
  rw [stakeOfMembers] at most rest
  have left : ((p.checkpointStake a.targetHash + v.stake) * 3).toNat =
      3 * stakeOf (voters vs (p.countVote vs v a) a.targetHash) := by
    rw [UInt64.toNat_mul,tally]
    exact (Nat.mod_eq_of_lt (by omega : _ * 3 < 2 ^ 64)).trans (Nat.mul_comm _ _)
  have right : ((vs.effectiveStake p.jailed).2 * 2).toNat = 2 * stakeOf (free vs p) := by
    rw [UInt64.toNat_mul,total]
    exact (Nat.mod_eq_of_lt (by omega : _ * 2 < 2 ^ 64)).trans (Nat.mul_comm _ _)
  rw [PosState.finalizes,ge_iff_le,UInt64.le_iff_toNat_le,left,right]
  exact and_iff_right higher

theorem countInRound (vs : ValidatorSet) (p : PosState) (v : ValidatorInfo) {a : Attestation} {round : UInt64} {target : Hash}
    (other : ¬ (round = checkpointRound a.targetHeight ∧ target = a.targetHash)) :
    inRound vs (p.countVote vs v a) round target ⊆ inRound vs p round target := by
  intro x member
  obtain ⟨inside,entry⟩ := Finset.mem_filter.mp member
  refine Finset.mem_filter.mpr ⟨inside,?_⟩
  rw [PosState.countVoteRound] at entry
  split at entry
  · rename_i own
    exact absurd ⟨own.1,(Option.some.inj entry).symm⟩ other
  · exact entry

theorem countExact {v : ValidatorInfo} {a : Attestation} (exact : QuorumExact vs p) (counted : Counted vs p tx v a)
    (fresh : FreshTarget vs p tx) (small : 3 * vs.totalStake.toNat < 2 ^ 64) : QuorumExact vs (p.countVote vs v a) := by
  have tallied := countTallied counted (fresh v a counted) exact.tallied
  have later := countLater counted
  have jail : free vs (p.countVote vs v a) = free vs p := by
    unfold free
    rw [PosState.countVoteJailed]
  refine ⟨tallied,fun round target quorum => ?_,fun above => ?_⟩
  · by_cases own : round = checkpointRound a.targetHeight ∧ target = a.targetHash
    · obtain ⟨rfl,rfl⟩ := own
      by_cases higher : p.finalizedHeight < a.targetHeight
      · have reached : p.finalizes vs v a := by
          rw [finalizesExact tallied small higher]
          have part := @inRoundVoters vs (p.countVote vs v a) (checkpointRound a.targetHeight) a.targetHash
          have rest : stakeOf (free vs p) ≤ stakeOf vs.members := stakeOfMono (Finset.filter_subset _ _)
          rw [stakeOfMembers] at rest
          omega
        exact (countReached reached).2 ▸ UInt64.le_refl _
      · exact roundMono (UInt64.le_trans (UInt64.not_lt.mp higher) later.height)
    · have before := stakeOfMono (countInRound vs p v own)
      exact UInt64.le_trans (exact.complete round target (by omega)) (roundMono later.height)
  · by_cases reached : p.finalizes vs v a
    · rw [(countReached reached).1,jail]
      exact (finalizesExact tallied small reached.1).mp reached
    · obtain ⟨hash,height⟩ := countMissed reached
      rw [height] at above
      rw [hash,jail]
      exact (exact.sound above).trans (Nat.mul_le_mul_left 3 (votersMono later _))

theorem recordExact (exact : QuorumExact vs p) (fresh : FreshTarget vs p tx) (small : 3 * vs.totalStake.toNat < 2 ^ 64) :
    QuorumExact vs (p.recordVote vs tx) := by
  rcases recordVoteCases vs p tx with same | ⟨v,a,_,same⟩ | ⟨v,a,counted,same⟩
  · rw [same]
    exact exact
  · rw [same]
    exact exact.later (jailLater p v.address) rfl rfl rfl rfl
  · rw [same]
    exact countExact exact counted fresh small

theorem totalPositive (vs : ValidatorSet) : 0 < vs.totalStake.toNat := by
  obtain ⟨v,member⟩ := List.exists_mem_of_ne_nil _ vs.nonempty
  have inside : {v} ⊆ vs.members := Finset.singleton_subset_iff.mpr (by simpa [ValidatorSet.members] using member)
  have part := stakeOfMono inside
  have own : 0 < v.stake.toNat := UInt64.lt_iff_toNat_lt.mp (UInt64.pos_iff_ne_zero.mpr (vs.staked v member))
  rw [stakeOfMembers,stakeOf,Finset.sum_singleton] at part
  omega

theorem emptyExact (vs : ValidatorSet) : QuorumExact vs PosState.init := by
  refine ⟨emptyTallied vs,fun round target quorum => ?_,fun above => absurd rfl above⟩
  have none : inRound vs PosState.init round target = ∅ := Finset.filter_eq_empty_iff.mpr fun v _ entry => by cases entry
  have nothing : stakeOf (∅ : Finset ValidatorInfo) = 0 := rfl
  have positive := totalPositive vs
  rw [none,nothing] at quorum
  omega

/- Finality is a quorum and a quorum is finality, in every state that a run reaches: two thirds of
the stake on record for one target of a round have taken the finalized height to that round, and
whoever voted for the finalized hash holds two thirds of the stake that is not jailed. -/
theorem finalityIsQuorum (setup : Setup) (mode : setup.consensus = .pos vs) (small : 3 * vs.totalStake.toNat < 2 ^ 64)
    {bs pre : List Block} (fresh : VotesMeet env verifySig vs (FreshTarget vs) (setup.chain env) bs) (reached : pre <+: bs) :
    (∀ round target, 2 * vs.totalStake.toNat ≤
        3 * stakeOf (inRound vs ((setup.chain env).feed env verifySig pre).pos round target) →
      round ≤ checkpointRound ((setup.chain env).feed env verifySig pre).pos.finalizedHeight) ∧
    (((setup.chain env).feed env verifySig pre).pos.finalizedHeight ≠ 0 →
      2 * stakeOf (free vs ((setup.chain env).feed env verifySig pre).pos) ≤
        3 * stakeOf (voters vs ((setup.chain env).feed env verifySig pre).pos
          ((setup.chain env).feed env verifySig pre).pos.finalizedHash)) := by
  have detected : ∀ (p : PosState) (b : Block) (h : Hash), QuorumExact vs p → QuorumExact vs (p.detectEquivocation b h) := by
    intro p b h exact
    obtain ⟨votes,stakes,hash,height⟩ := p.detectVotes b h
    exact exact.later (detectLater p b h) votes stakes hash height
  have exact : QuorumExact vs ((setup.chain env).feed env verifySig pre).pos :=
    feedVotes (fun _ _ exact fresh => recordExact exact fresh small) detected mode (emptyExact vs)
      (votesMeetPrefix reached fresh)
  exact ⟨exact.complete,exact.sound⟩

structure Closed (a : Address) (p p' : PosState) : Prop where
  jailed : p'.jailed a = true
  votes : ∀ r, p'.attestedRound r a = p.attestedRound r a

theorem recordClosed (vs : ValidatorSet) (tx : Transaction) (jailed : p.jailed a = true) : Closed a p (p.recordVote vs tx) := by
  refine ⟨(recordLater vs p tx).jailed a jailed,fun r => ?_⟩
  rcases recordVoteCases vs p tx with same | ⟨v,vote,_,same⟩ | ⟨v,vote,counted,same⟩
  · rw [same]
  · rw [same]
    rfl
  · rw [same,PosState.countVoteRound,if_neg]
    rintro ⟨-,rfl⟩
    rw [counted.free] at jailed
    cases jailed

theorem recordedClosed (vs : ValidatorSet) (b : Block) (h : Hash) (jailed : p.jailed a = true) : Closed a p (p.record vs b h) := by
  have voted : ∀ (txs : List Transaction) (q : PosState), q.jailed a = true → Closed a q (txs.foldl (PosState.recordVote vs) q) := by
    intro txs
    induction txs with
    | nil => exact fun q jailed => ⟨jailed,fun _ => rfl⟩
    | cons tx txs ih =>
      intro q jailed
      have first := recordClosed vs tx jailed
      have rest := ih _ first.jailed
      exact ⟨rest.jailed,fun r => (rest.votes r).trans (first.votes r)⟩
  have votes := voted b.txs p jailed
  have detected := (p.recordAttestations vs b).detectVotes b h
  refine ⟨(detectLater _ b h).jailed a votes.jailed,fun r => ?_⟩
  rw [PosState.record,detected.1]
  exact votes.votes r

theorem acceptedFree {b : Block} {st : MptState} {w : UInt64} (mode : c.consensus = .pos vs)
    (accepted : Accepted env verifySig c b st w) :
    ∃ v ∈ vs.validators, v.address = b.header.coinbase ∧ c.pos.jailed v.address = false := by
  have checked := accepted.consensus
  simp only [Chain.checkConsensus,mode,bindOk] at checked
  obtain ⟨_,proposer,_⟩ := checked
  obtain ⟨⟨v,chosen,same⟩,_⟩ := checkProposerOk.mp proposer
  have active := (List.mem_filter.mp (Pos.selectedMember chosen)).2
  exact ⟨v,proposerMember chosen,same,by simpa using active⟩

def Silenced (a : Address) (c d : Chain) : Prop :=
  Closed a c.pos d.pos ∧ ∀ h b, d.getByHash h = some b → c.getByHash h = some b ∨ b.header.coinbase ≠ a

theorem offerSilenced (mode : c.consensus = .pos vs) (jailed : c.pos.jailed a = true) (x : Block) :
    Silenced a c (c.offer env verifySig x) := by
  rcases offerCases env verifySig c x with ⟨same,_⟩ | ⟨st,w,accepted,same⟩
  · rw [same]
    exact ⟨⟨jailed,fun _ => rfl⟩,fun h b found => .inl found⟩
  · rw [same]
    refine ⟨?_,fun h b found => ?_⟩
    · rw [Chain.commitPos,Chain.recordBlock,mode]
      exact recordedClosed vs x _ jailed
    · rcases (commitFound accepted.fresh h b).mp found with old | ⟨_,rfl⟩
      · exact .inl old
      · obtain ⟨v,_,own,free⟩ := acceptedFree mode accepted
        refine .inr fun mine => ?_
        rw [own,mine,jailed] at free
        cases free

/- Jail is for good: whatever blocks come, the validator stays there, its votes are those it had,
and no block of its own is stored any more. With every validator in jail the chain stands still. -/
theorem jailIsFinal (mode : c.consensus = .pos vs) (bs : List Block) :
    (∀ a, c.pos.jailed a = true → Silenced a c (c.feed env verifySig bs)) ∧
    ((∀ v ∈ vs.validators, c.pos.jailed v.address = true) → c.feed env verifySig bs = c) := by
  induction bs generalizing c with
  | nil => exact ⟨fun a jailed => ⟨⟨jailed,fun _ => rfl⟩,fun h b found => .inl found⟩,fun _ => rfl⟩
  | cons x bs ih =>
    have unfolded : c.feed env verifySig (x::bs) = (c.offer env verifySig x).feed env verifySig bs := rfl
    obtain ⟨silent,still⟩ := ih ((offerConfig env verifySig c x).consensus.trans mode)
    rw [unfolded]
    refine ⟨fun a jailed => ?_,fun all => ?_⟩
    · have step : Silenced a c (c.offer env verifySig x) := offerSilenced mode jailed x
      obtain ⟨closed,stored⟩ := step
      obtain ⟨closed',stored'⟩ := silent a closed.jailed
      refine ⟨⟨closed'.jailed,fun r => (closed'.votes r).trans (closed.votes r)⟩,fun h b found => ?_⟩
      rcases stored' h b found with middle | other
      · exact stored h b middle
      · exact .inr other
    · have same : c.offer env verifySig x = c := by
        rcases offerCases env verifySig c x with ⟨same,_⟩ | ⟨st,w,accepted,_⟩
        · exact same
        · obtain ⟨v,member,_,free⟩ := acceptedFree mode accepted
          rw [all v member] at free
          cases free
      rw [same] at still ⊢
      exact still all

end

namespace Devnet

theorem siblingsConvict : ∃ guilty ⊆ vs.members, vs.totalStake.toNat ≤ 3 * stakeOf guilty ∧ ∀ v ∈ guilty,
    Convicted (quorumChain (hashAt 32 0)) v.address ∨ Convicted (quorumChain (hashAt 32 1)) v.address ∨
      SplitVote (quorumChain (hashAt 32 0)) (quorumChain (hashAt 32 1)) v.address := by
  have left := quorumFinal (hashAt 32 0)
  have right := quorumFinal (hashAt 32 1)
  refine accountableFinality setup setup rfl rfl (quorumMeets (hashAt 32 0)) (quorumMeets (hashAt 32 1))
    (left.2.trans right.2.symm) ?_
  intro same
  have hashes : hashAt 32 0 = hashAt 32 1 := left.1.symm.trans (same.trans right.1)
  exact absurd (hashAtInj (by omega) (by omega) (by omega) (by omega) hashes).2 (by omega)

theorem quorumFresh (target : Hash) : VotesMeet env acceptNonEmptySig vs (FreshTarget vs) start
    (quietBlocks 32 ++ [quorumBlock target]) := by
  refine quietThenVotes (P := fun _ _ => FreshTarget vs) (fun c q => ⟨quietFreshTarget q _,?_,trivial⟩)
  intro v a counted round
  have sender : vs.byAddress (account 1) = some (validator 1 2) := by decide
  cases sender.symm.trans counted.validator
  have other : (validator 1 2).address ∉ ([4] : List UInt8).map account := by decide
  rw [(quorumFirst q target).rounds,if_neg fun voted => other voted.2]
  exact (Option.some_ne_none _).symm

theorem quorumReachesRound : (∀ round target, 2 * vs.totalStake.toNat ≤
        3 * stakeOf (inRound vs (quorumChain (hashAt 32 0)).pos round target) →
      round ≤ checkpointRound (quorumChain (hashAt 32 0)).pos.finalizedHeight) ∧
    2 * stakeOf (free vs (quorumChain (hashAt 32 0)).pos) ≤ 3 * stakeOf (voters vs (quorumChain (hashAt 32 0)).pos (hashAt 32 0)) := by
  have both := finalityIsQuorum setup rfl (by decide) (quorumFresh (hashAt 32 0)) (List.prefix_refl _)
  have final := quorumFinal (hashAt 32 0)
  refine ⟨both.1,?_⟩
  have sound := both.2
  rw [show (setup.chain env).feed env acceptNonEmptySig (quietBlocks 32 ++ [quorumBlock (hashAt 32 0)]) =
    quorumChain (hashAt 32 0) from rfl,final.1,final.2] at sound
  exact sound (by decide)

theorem twinSilenced : Silenced (account 1) twice (twice.feed env acceptNonEmptySig (quietBlocks 3)) := by
  have mode : twice.consensus = .pos vs :=
    (commitConfig env once twin (credit start.headState 1 blockReward) 1).consensus.trans onceQuiet.mode
  refine (jailIsFinal mode (quietBlocks 3)).1 (account 1) ?_
  rw [twiceJails.1]
  rfl

end Devnet
end L1Chain
