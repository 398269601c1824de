import Mathlib.Algebra.BigOperators.Group.Finset.Basic
import Mathlib.Algebra.BigOperators.Group.Finset.Piecewise
import Mathlib.Algebra.Order.BigOperators.Group.Finset
import Mathlib.Data.FinEnum
import L1Chain.Devnet

/-! Checkpoint votes. `Counted` is the one way a vote enters the tally; a run's
conditions on votes are stated over the votes of its accepted blocks. The tally
of a target is the stake of its distinct voters exactly as long as no validator's
vote for it is counted under a second round. -/
namespace L1Chain
open Transition Runs Pos

variable {E : Type} {env : Env E} {verifySig : VerifySig} {vs : ValidatorSet} {p : PosState} {tx : Transaction}

structure Counted (vs : ValidatorSet) (p : PosState) (tx : Transaction) (v : ValidatorInfo) (a : Attestation) :
    Prop where
  attests : isAttestationTx tx = true
  decoded : decodeAttest tx.data = .ok a
  validator : vs.byAddress tx.sender = some v
  first : p.attestedRound (checkpointRound a.targetHeight) v.address = none
  free : p.jailed v.address = false

structure Conflicting (vs : ValidatorSet) (p : PosState) (tx : Transaction) (v : ValidatorInfo) (a : Attestation) :
    Prop where
  attests : isAttestationTx tx = true
  decoded : decodeAttest tx.data = .ok a
  validator : vs.byAddress tx.sender = some v
  earlier : ∃ existing, p.attestedRound (checkpointRound a.targetHeight) v.address = some existing ∧
    existing ≠ a.targetHash

theorem byAddressSound {a : Address} {v : ValidatorInfo} (found : vs.byAddress a = some v) :
    v ∈ vs.validators ∧ v.address = a := by
  have member := List.mem_of_find?_eq_some found
  have same := List.find?_some found
  exact ⟨member,by simpa using same⟩

theorem recordVoteCases (vs : ValidatorSet) (p : PosState) (tx : Transaction) :
    p.recordVote vs tx = p ∨ (∃ v a, Conflicting vs p tx v a ∧ p.recordVote vs tx = p.jail v.address) ∨
      ∃ v a, Counted vs p tx v a ∧ p.recordVote vs tx = p.countVote vs v a := by
  unfold PosState.recordVote
  split
  · exact .inl rfl
  · rename_i attests
    have isVote : isAttestationTx tx = true := by simpa using attests
    split
    · rename_i a v decoded found
      have sender := (byAddressSound found).2
      rw [← sender]
      cases earlier : p.attestedRound (checkpointRound a.targetHeight) v.address with
      | some existing =>
        simp only
        split
        · rename_i different
          exact .inr (.inl ⟨v,a,⟨isVote,decoded,found,existing,earlier,different⟩,rfl⟩)
        · exact .inl rfl
      | none =>
        simp only
        split
        · exact .inl rfl
        · rename_i free
          exact .inr (.inr ⟨v,a,⟨isVote,decoded,found,earlier,by simpa using free⟩,rfl⟩)
    · exact .inl rfl

theorem recordVoteCounted {v : ValidatorInfo} {a : Attestation} (counted : Counted vs p tx v a) :
    p.recordVote vs tx = p.countVote vs v a := by
  have sender := (byAddressSound counted.validator).2
  have first := counted.first
  have free := counted.free
  rw [sender] at first free
  simp [PosState.recordVote,counted.attests,counted.decoded,counted.validator,first,free]

namespace PosState

def finalizes (vs : ValidatorSet) (p : PosState) (v : ValidatorInfo) (a : Attestation) : Prop :=
  a.targetHeight > p.finalizedHeight ∧
    (p.checkpointStake a.targetHash + v.stake) * 3 ≥ (vs.effectiveStake p.jailed).2 * 2

instance (v : ValidatorInfo) (a : Attestation) : Decidable (p.finalizes vs v a) := by
  unfold finalizes; infer_instance

theorem countVoteEq (vs : ValidatorSet) (p : PosState) (v : ValidatorInfo) (a : Attestation) :
    p.countVote vs v a = {p with
      attestedRound := put p.attestedRound (checkpointRound a.targetHeight)
        (put (p.attestedRound (checkpointRound a.targetHeight)) v.address (some a.targetHash))
      checkpointStake := put p.checkpointStake a.targetHash (p.checkpointStake a.targetHash + v.stake)
      finalizedHash := if p.finalizes vs v a then a.targetHash else p.finalizedHash
      finalizedHeight := if p.finalizes vs v a then a.targetHeight else p.finalizedHeight} := by
  unfold countVote
  by_cases reached : p.finalizes vs v a
  · simp only [reached,if_true]
    exact if_pos reached
  · simp only [reached,if_false]
    exact if_neg reached

theorem countVoteRound {v : ValidatorInfo} {a : Attestation} {r : UInt64} {x : Address} :
    (p.countVote vs v a).attestedRound r x =
      if r = checkpointRound a.targetHeight ∧ x = v.address then some a.targetHash else p.attestedRound r x := by
  rw [countVoteEq]
  simp only [put]
  by_cases round : r = checkpointRound a.targetHeight
  · by_cases voter : x = v.address
    · simp [put,round,voter]
    · simp [put,round,voter]
  · simp [round]

@[simp] theorem countVoteJailed {v : ValidatorInfo} {a : Attestation} :
    (p.countVote vs v a).jailed = p.jailed := by rw [countVoteEq]

theorem detectVotes (p : PosState) (b : Block) (h : Hash) :
    (p.detectEquivocation b h).attestedRound = p.attestedRound ∧
    (p.detectEquivocation b h).checkpointStake = p.checkpointStake ∧
    (p.detectEquivocation b h).finalizedHash = p.finalizedHash ∧
    (p.detectEquivocation b h).finalizedHeight = p.finalizedHeight := by
  unfold detectEquivocation
  split
  · split <;> exact ⟨rfl,rfl,rfl,rfl⟩
  · exact ⟨rfl,rfl,rfl,rfl⟩

end PosState

def Accepts (env : Env E) (verifySig : VerifySig) (c : Chain) (b : Block) : Prop :=
  ∃ c', c.addBlock env verifySig b = .ok c'

/- A condition on the votes of a run: it holds at every vote of every block the
chain accepts, in the state in which the vote is recorded. -/
def VotesMeet (env : Env E) (verifySig : VerifySig) (vs : ValidatorSet) (P : PosState → Transaction → Prop) :
    Chain → List Block → Prop :=
  Along (Chain.offer env verifySig) (fun c b =>
    Accepts env verifySig c b → Along (PosState.recordVote vs) P c.pos b.txs)

theorem offerPos (env : Env E) (verifySig : VerifySig) {c : Chain} (b : Block) (mode : c.consensus = .pos vs) :
    (c.offer env verifySig b = c ∧ ¬ Accepts env verifySig c b) ∨
    (Accepts env verifySig c b ∧
      (c.offer env verifySig b).pos = c.pos.record vs b (b.hash env.sha)) := by
  rcases offerCases env verifySig c b with ⟨same,e,refused⟩ | ⟨st,w,a,same⟩
  · refine .inl ⟨same,?_⟩
    rintro ⟨c',ok⟩
    rw [refused] at ok
    contradiction
  · refine .inr ⟨⟨_,addBlockOk.mpr ⟨st,w,a,rfl⟩⟩,?_⟩
    rw [same,Chain.commitPos]
    simp [Chain.recordBlock,mode]

theorem feedVotes {Inv : PosState → Prop} {P : PosState → Transaction → Prop}
    (vote : ∀ p tx, Inv p → P p tx → Inv (p.recordVote vs tx))
    (proposal : ∀ p b h, Inv p → Inv (p.detectEquivocation b h))
    {c : Chain} {bs : List Block} (mode : c.consensus = .pos vs) (start : Inv c.pos)
    (meets : VotesMeet env verifySig vs P c bs) : Inv (c.feed env verifySig bs).pos := by
  have keep : ∀ (d : Chain) b, (d.consensus = .pos vs ∧ Inv d.pos) →
      (Accepts env verifySig d b → Along (PosState.recordVote vs) P d.pos b.txs) →
      (d.offer env verifySig b).consensus = .pos vs ∧ Inv (d.offer env verifySig b).pos := by
    rintro d b ⟨mode,inv⟩ votes
    refine ⟨(offerConfig env verifySig d b).consensus.trans mode,?_⟩
    rcases offerPos env verifySig b mode with ⟨same,_⟩ | ⟨accepted,same⟩
    · rw [same]
      exact inv
    · rw [same]
      exact proposal _ _ _ (invariant Inv vote inv (votes accepted))
  exact (invariant (fun d : Chain => d.consensus = .pos vs ∧ Inv d.pos) keep ⟨mode,start⟩ meets).2

def Pos.ValidatorSet.members (vs : ValidatorSet) : Finset ValidatorInfo := vs.validators.toFinset

def stakeOf (s : Finset ValidatorInfo) : Nat := ∑ v ∈ s, v.stake.toNat

theorem validatorsNodup (vs : ValidatorSet) : vs.validators.Nodup := List.Nodup.of_map _ vs.distinct

theorem stakeOfMembers (vs : ValidatorSet) : stakeOf vs.members = vs.totalStake.toNat := by
  rw [← vs.total]
  exact List.sum_toFinset _ (validatorsNodup vs)

theorem stakeOfMono {s t : Finset ValidatorInfo} (sub : s ⊆ t) : stakeOf s ≤ stakeOf t :=
  Finset.sum_le_sum_of_subset sub

open Classical in
noncomputable def voters (vs : ValidatorSet) (p : PosState) (target : Hash) : Finset ValidatorInfo :=
  vs.members.filter (fun v => ∃ round, p.attestedRound round v.address = some target)

def Tallied (vs : ValidatorSet) (p : PosState) : Prop :=
  ∀ target, (p.checkpointStake target).toNat = stakeOf (voters vs p target)

def FreshTarget (vs : ValidatorSet) (p : PosState) (tx : Transaction) : Prop :=
  ∀ v a, Counted vs p tx v a → ∀ round, p.attestedRound round v.address ≠ some a.targetHash

theorem mem_voters {target : Hash} {v : ValidatorInfo} :
    v ∈ voters vs p target ↔ v ∈ vs.validators ∧ ∃ round, p.attestedRound round v.address = some target := by
  simp [voters,ValidatorSet.members]

theorem votersSub (vs : ValidatorSet) (p : PosState) (target : Hash) : voters vs p target ⊆ vs.members := by
  intro v member
  simpa [ValidatorSet.members] using (mem_voters.mp member).1

theorem countVoters {v : ValidatorInfo} {a : Attestation} (counted : Counted vs p tx v a) (target : Hash) :
    voters vs (p.countVote vs v a) target =
      if target = a.targetHash then insert v (voters vs p target) else voters vs p target := by
  obtain ⟨member,_⟩ := byAddressSound counted.validator
  ext x
  by_cases same : target = a.targetHash
  · subst same
    simp only [if_true,Finset.mem_insert,mem_voters,PosState.countVoteRound]
    constructor
    · rintro ⟨valid,round,entry⟩
      split at entry
      · rename_i hit
        exact .inl (memberOfAddress valid member hit.2)
      · exact .inr ⟨valid,round,entry⟩
    · rintro (rfl | ⟨valid,round,entry⟩)
      · exact ⟨member,_,if_pos ⟨rfl,rfl⟩⟩
      · refine ⟨valid,round,?_⟩
        split
        · rfl
        · exact entry
  · simp only [if_neg same,mem_voters,PosState.countVoteRound]
    constructor
    · rintro ⟨valid,round,entry⟩
      split at entry
      · exact absurd (Option.some.inj entry).symm same
      · exact ⟨valid,round,entry⟩
    · rintro ⟨valid,round,entry⟩
      refine ⟨valid,round,?_⟩
      rw [if_neg]
      · exact entry
      · rintro ⟨hit,voter⟩
        rw [hit,voter,counted.first] at entry
        contradiction

theorem countTallied {v : ValidatorInfo} {a : Attestation} (counted : Counted vs p tx v a)
    (fresh : ∀ round, p.attestedRound round v.address ≠ some a.targetHash) (tally : Tallied vs p) :
    Tallied vs (p.countVote vs v a) := by
  intro target
  obtain ⟨member,_⟩ := byAddressSound counted.validator
  rw [countVoters counted,PosState.countVoteEq]
  by_cases same : target = a.targetHash
  · subst same
    simp only [put,if_true]
    have absent : v ∉ voters vs p a.targetHash := by
      rw [mem_voters]
      rintro ⟨_,round,entry⟩
      exact fresh round entry
    have sum : stakeOf (insert v (voters vs p a.targetHash)) = v.stake.toNat + stakeOf (voters vs p a.targetHash) :=
      Finset.sum_insert absent
    have within : insert v (voters vs p a.targetHash) ⊆ vs.members := by
      refine Finset.insert_subset ?_ (votersSub vs p _)
      simpa [ValidatorSet.members] using member
    -- distinct voters never hold more than the total, so the sum fits in 64 bits
    have bound := stakeOfMono within
    have small := vs.totalStake.toNat_lt
    rw [stakeOfMembers] at bound
    have before := tally a.targetHash
    rw [UInt64.toNat_add,Nat.mod_eq_of_lt (by omega)]
    omega
  · simpa only [put,if_neg same] using tally target

theorem recordTallied (tally : Tallied vs p) (fresh : FreshTarget vs p tx) : Tallied vs (p.recordVote vs tx) := by
  rcases recordVoteCases vs p tx with same | ⟨v,a,_,same⟩ | ⟨v,a,counted,same⟩
  · rw [same]
    exact tally
  · rw [same]
    exact tally
  · rw [same]
    exact countTallied counted (fresh v a counted) tally

theorem detectTallied {b : Block} {h : Hash} (tally : Tallied vs p) : Tallied vs (p.detectEquivocation b h) := by
  obtain ⟨rounds,stakes,_,_⟩ := p.detectVotes b h
  unfold Tallied voters
  rw [rounds,stakes]
  exact tally

theorem emptyTallied (vs : ValidatorSet) : Tallied vs PosState.init := by
  intro target
  have none : voters vs PosState.init target = ∅ := by
    ext v
    simp [mem_voters,PosState.init]
  rw [none]
  rfl

theorem votesMeetPrefix {P : PosState → Transaction → Prop} {c : Chain} {bs pre : List Block} (reached : pre <+: bs)
    (meets : VotesMeet env verifySig vs P c bs) : VotesMeet env verifySig vs P c pre := by
  obtain ⟨rest,rfl⟩ := reached
  exact (alongAppend.mp meets).1

/- In every state a PoS chain reaches, as long as no counted vote repeats a target
its sender voted for in another round, each tally is the stake of its distinct
voters. -/
theorem tallyCountsDistinctVoters (setup : Setup) (mode : setup.consensus = .pos vs) {bs pre : List Block}
    (fresh : VotesMeet env verifySig vs (FreshTarget vs) (setup.chain env) bs) (reached : pre <+: bs) (target : Hash) :
    (((setup.chain env).feed env verifySig pre).pos.checkpointStake target).toNat =
      stakeOf (voters vs ((setup.chain env).feed env verifySig pre).pos target) :=
  feedVotes (fun _ _ tally fresh => recordTallied tally fresh) (fun _ _ _ tally => detectTallied tally)
    mode (emptyTallied vs) (votesMeetPrefix reached fresh) target

end L1Chain

namespace L1Chain.Devnet
open Transition Runs Pos

theorem voteCounted {set : ValidatorSet} {p : PosState} {n : UInt8} {nonce height : UInt64} {target : Hash} {v : ValidatorInfo}
    (member : set.byAddress (account n) = some v)
    (first : p.attestedRound (checkpointRound height) v.address = none) (free : p.jailed v.address = false) :
    Counted set p (vote n nonce height target) v ⟨height,target,sig⟩ :=
  ⟨rfl,voteDecoded n nonce height target,member,first,free⟩

/- What the two votes of validator 1 and the one of `w` leave: the target has five
stakes, enough of the seven to be finalized at height 32. -/
structure Split (w : UInt8) (target : Hash) (p : PosState) : Prop where
  rounds : ∀ r x, p.attestedRound r x =
    if (r = 1 ∧ x = account 1) ∨ (r = 1 ∧ x = account w) ∨ (r = 0 ∧ x = account 1) then some target else none
  stake : p.checkpointStake target = 5
  finalizedHash : p.finalizedHash = target
  finalizedHeight : p.finalizedHeight = 32
  jailed : p.jailed = fun _ => false

theorem Split.slots {w : UInt8} {target : Hash} {p : PosState} (split : Split w target p)
    (slots : Hash → Address → Option Hash) : Split w target {p with proposedAtHeight := slots} :=
  ⟨split.rounds,split.stake,split.finalizedHash,split.finalizedHeight,split.jailed⟩

theorem doubleRecorded {p : PosState} (unvoted : p = {PosState.init with proposedAtHeight := p.proposedAtHeight})
    {w : UInt8} (voter : w = 2 ∨ w = 3) (target : Hash) :
    Split w target ((doubleVotes w target).foldl (PosState.recordVote vs) p) ∧
      ((doubleVotes w target).foldl (PosState.recordVote vs) p).proposedAtHeight = p.proposedAtHeight := by
  have other : account w ≠ account 1 := by rcases voter with rfl | rfl <;> decide
  have first : vs.byAddress (account 1) = some (validator 1 2) := by decide
  have second : vs.byAddress (account w) = some (validator w 1) := by rcases voter with rfl | rfl <;> decide
  have total : (vs.effectiveStake (fun _ => false)).2 = 7 := by decide
  have jailed : p.jailed = fun _ => false := by rw [unvoted]; rfl
  have silent : p.attestedRound = fun _ _ => none := by rw [unvoted]; rfl
  have nothing : p.checkpointStake = fun _ => 0 := by rw [unvoted]; rfl
  have low : p.finalizedHeight = 0 := by rw [unvoted]; rfl
  let p₁ := p.countVote vs (validator 1 2) ⟨0,target,sig⟩
  have step₁ : p.recordVote vs (vote 1 0 0 target) = p₁ :=
    recordVoteCounted (voteCounted first (by rw [silent]) (by rw [jailed]))
  have no₁ : ¬ p.finalizes vs (validator 1 2) ⟨0,target,sig⟩ := by
    simp [PosState.finalizes,low]
  have jailed₁ : p₁.jailed = fun _ => false := by rw [PosState.countVoteJailed,jailed]
  have stake₁ : p₁.checkpointStake target = 2 := by
    simp only [p₁,PosState.countVoteEq,put,if_true,nothing]
    rfl
  have height₁ : p₁.finalizedHeight = 0 := by simp only [p₁,PosState.countVoteEq,if_neg no₁,low]
  have round₁ : p₁.attestedRound 1 (account w) = none := by
    simp [p₁,PosState.countVoteRound,silent,checkpointRound,checkpointInterval]
  let p₂ := p₁.countVote vs (validator w 1) ⟨32,target,sig⟩
  have step₂ : p₁.recordVote vs (vote w 0 32 target) = p₂ :=
    recordVoteCounted (voteCounted second round₁ (by rw [jailed₁]))
  have no₂ : ¬ p₁.finalizes vs (validator w 1) ⟨32,target,sig⟩ := by
    rw [PosState.finalizes,jailed₁,total,height₁]
    simp only [stake₁,validator]
    decide
  have jailed₂ : p₂.jailed = fun _ => false := by rw [PosState.countVoteJailed,jailed₁]
  have stake₂ : p₂.checkpointStake target = 3 := by
    simp only [p₂,PosState.countVoteEq,put,if_true,stake₁]
    rfl
  have height₂ : p₂.finalizedHeight = 0 := by simp only [p₂,PosState.countVoteEq,if_neg no₂,height₁]
  have round₂ : p₂.attestedRound 1 (account 1) = none := by
    have same : (validator w 1).address = account w := rfl
    simp only [p₂,p₁,PosState.countVoteRound,silent,same,other.symm,and_false,if_false]
    exact if_neg (by decide)
  let p₃ := p₂.countVote vs (validator 1 2) ⟨32,target,sig⟩
  have step₃ : p₂.recordVote vs (vote 1 1 32 target) = p₃ :=
    recordVoteCounted (voteCounted first round₂ (by rw [jailed₂]))
  have yes₃ : p₂.finalizes vs (validator 1 2) ⟨32,target,sig⟩ := by
    rw [PosState.finalizes,jailed₂,total,height₂]
    simp only [stake₂]
    decide
  have folded : (doubleVotes w target).foldl (PosState.recordVote vs) p = p₃ := by
    simp only [doubleVotes,List.foldl_cons,List.foldl_nil,step₁,step₂,step₃]
  rw [folded]
  refine ⟨⟨?_,?_,?_,?_,?_⟩,?_⟩
  · intro r x
    simp only [p₃,p₂,p₁,PosState.countVoteRound,silent]
    change (if r = 1 ∧ x = account 1 then some target else if r = 1 ∧ x = account w then some target
      else if r = 0 ∧ x = account 1 then some target else none) = _
    by_cases a : r = 1 ∧ x = account 1
    · simp [a]
    · by_cases b : r = 1 ∧ x = account w
      · simp [b]
      · simp [a,b]
  · simp only [p₃,PosState.countVoteEq,put,if_true,stake₂]
    rfl
  · simp only [p₃,PosState.countVoteEq,if_pos yes₃]
  · simp only [p₃,PosState.countVoteEq,if_pos yes₃]
  · rw [PosState.countVoteJailed,jailed₂]
  · simp only [p₃,p₂,p₁,PosState.countVoteEq]

theorem splitRecorded {c : Chain} (q : Quiet 32 c) {w : UInt8} (voter : w = 2 ∨ w = 3) (time : Int64) (target : Hash) :
    Split w target (c.offer env acceptNonEmptySig (splitBlock w time target)).pos := by
  have a := splitAccepted q voter time target
  obtain ⟨split,slots⟩ := doubleRecorded q.unvoted voter target
  have free : ((doubleVotes w target).foldl (PosState.recordVote vs) c.pos).proposedAtHeight
      (splitBlock w time target).header.prevHash (splitBlock w time target).header.coinbase = none := by
    have prev : (splitBlock w time target).header.prevHash = hashAt 32 0 := rfl
    rw [slots,prev]
    exact q.slots 32 (Nat.le_refl 32) (by decide) _
  have votes : PosState.recordAttestations vs c.pos (splitBlock w time target) =
    (doubleVotes w target).foldl (PosState.recordVote vs) c.pos := rfl
  rw [offerAccepted a,Chain.commitPos]
  simp only [Chain.recordBlock,q.mode,PosState.record]
  rw [votes,detectFirst free]
  exact split.slots _

def splitChain (w : UInt8) (time : Int64) (target : Hash) : Chain :=
  start.feed env acceptNonEmptySig (quietBlocks 32 ++ [splitBlock w time target])

theorem splitState {w : UInt8} (voter : w = 2 ∨ w = 3) (time : Int64) (target : Hash) :
    Split w target (splitChain w time target).pos := by
  have q : Quiet 32 (start.feed env acceptNonEmptySig (quietBlocks 32)) := quietFeed (by decide)
  rw [splitChain,feedSnoc]
  exact splitRecorded q voter time target

theorem splitVoters {w : UInt8} (voter : w = 2 ∨ w = 3) {target : Hash} {p : PosState} (split : Split w target p) :
    voters vs p target = {validator 1 2,validator w 1} := by
  ext v
  rw [mem_voters]
  simp only [split.rounds,Finset.mem_insert,Finset.mem_singleton]
  constructor
  · rintro ⟨member,round,entry⟩
    split at entry
    · rename_i hit
      have sender : v.address = account 1 ∨ v.address = account w := by
        rcases hit with ⟨_,hit⟩ | ⟨_,hit⟩ | ⟨_,hit⟩
        · exact .inl hit
        · exact .inr hit
        · exact .inl hit
      rcases sender with same | same
      · exact .inl (memberOfAddress member (by decide) same)
      · exact .inr (memberOfAddress member (by rcases voter with rfl | rfl <;> decide) same)
    · contradiction
  · rintro (rfl | rfl)
    · exact ⟨by decide,1,by simp [validator,account]⟩
    · exact ⟨by rcases voter with rfl | rfl <;> decide,1,by simp [validator,account]⟩

/- The stake of validator 1 stands twice in the tally of a target it voted for once
under height 0 and once under height 32. -/
theorem splitTallyExceedsVoters :
    ((splitChain 2 0 (hashAt 32 1)).pos.checkpointStake (hashAt 32 1)).toNat = 5 ∧
      stakeOf (voters vs (splitChain 2 0 (hashAt 32 1)).pos (hashAt 32 1)) = 3 := by
  have split := splitState (.inl rfl) 0 (hashAt 32 1)
  refine ⟨by rw [split.stake]; rfl,?_⟩
  rw [splitVoters (.inl rfl) split]
  decide

theorem quietVotesMeet (P : Chain → Block → PosState → Transaction → Prop) (n : Nat) :
    Along (Chain.offer env acceptNonEmptySig) (fun c b => Accepts env acceptNonEmptySig c b →
      Along (PosState.recordVote vs) (P c b) c.pos b.txs) start (quietBlocks n) := by
  refine alongMono (fun _ _ none _ => ?_) (alongOfMem (fun b => b.txs = []) ?_)
  · rw [none]
    trivial
  · intro b member
    unfold quietBlocks at member
    obtain ⟨k,_,rfl⟩ := List.mem_map.mp member
    rfl

theorem quietThenVotes {txs : List Transaction} {time : Int64} {P : Chain → Block → PosState → Transaction → Prop}
    (meets : ∀ c, Quiet 32 c → Along (PosState.recordVote vs) (P c (block 32 time txs)) c.pos txs) :
    Along (Chain.offer env acceptNonEmptySig) (fun c b => Accepts env acceptNonEmptySig c b →
      Along (PosState.recordVote vs) (P c b) c.pos b.txs) start (quietBlocks 32 ++ [block 32 time txs]) := by
  refine alongAppend.mpr ⟨quietVotesMeet P 32,fun _ => ?_,trivial⟩
  exact meets _ (quietFeed (by decide))

theorem quietFreshTarget {n : Nat} {c : Chain} (q : Quiet n c) (tx : Transaction) : FreshTarget vs c.pos tx := by
  intro v a _ round
  rw [q.unvoted]
  exact (Option.some_ne_none _).symm

theorem singleVoteTallied :
    VotesMeet env acceptNonEmptySig vs (FreshTarget vs) start (quietBlocks 32 ++ [block 32 0 [vote 1 0 32 (hashAt 32 1)]]) ∧
    ((start.feed env acceptNonEmptySig (quietBlocks 32 ++ [block 32 0 [vote 1 0 32 (hashAt 32 1)]])).pos.checkpointStake
      (hashAt 32 1)).toNat = stakeOf (voters vs (start.feed env acceptNonEmptySig
        (quietBlocks 32 ++ [block 32 0 [vote 1 0 32 (hashAt 32 1)]])).pos (hashAt 32 1)) := by
  have meets : VotesMeet env acceptNonEmptySig vs (FreshTarget vs) start
      (quietBlocks 32 ++ [block 32 0 [vote 1 0 32 (hashAt 32 1)]]) :=
    quietThenVotes (P := fun _ _ => FreshTarget vs) (fun _ q => ⟨quietFreshTarget q _,trivial⟩)
  exact ⟨meets,tallyCountsDistinctVoters setup rfl meets (List.prefix_refl _) (hashAt 32 1)⟩

end L1Chain.Devnet
