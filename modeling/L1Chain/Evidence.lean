import L1Chain.FirstSeen
import L1Chain.Replay

/-! Jailing is evidence and nothing else. Both detectors keep the first value they see, a
target per round and validator and a block per parent and proposer, and share the jail. What
they have seen is the set of stored blocks, so the jail depends on that set alone. -/
namespace L1Chain
open Transition Runs Pos FirstSeen

section
variable {E : Type} {env : Env E} {verifySig : VerifySig} {vs : ValidatorSet} {p : PosState} {tx : Transaction}
  {b : Block} {c : Chain} {txs : Set Transaction} {blocks : Set Block} {sha : Bytes → Hash} {a : Address}

def ballot (vs : ValidatorSet) (tx : Transaction) : Option ((UInt64 × Address) × Hash) :=
  if ¬ isAttestationTx tx then none
  else match decodeAttest tx.data,vs.byAddress tx.sender with
    | .ok a,some _ => some ((checkpointRound a.targetHeight,tx.sender),a.targetHash)
    | _,_ => none

def proposal (sha : Bytes → Hash) (b : Block) : (Hash × Address) × Hash :=
  ((b.header.prevHash,b.header.coinbase),b.hash sha)

def ballots (vs : ValidatorSet) (txs : Set Transaction) : Set ((UInt64 × Address) × Hash) :=
  {x | ∃ tx ∈ txs, ballot vs tx = some x}

def proposals (sha : Bytes → Hash) (blocks : Set Block) : Set ((Hash × Address) × Hash) := proposal sha '' blocks

def Evident (sha : Bytes → Hash) (vs : ValidatorSet) (p : PosState) (txs : Set Transaction) (blocks : Set Block) : Prop :=
  Pair Prod.snd (fun k => p.attestedRound k.1 k.2) (ballots vs txs) Prod.snd (fun k => p.proposedAtHeight k.1 k.2)
    (proposals sha blocks) (fun a => p.jailed a = true)

theorem ballotsNone (none : ballot vs tx = none) : ballots vs (insert tx txs) = ballots vs txs := by
  ext x
  constructor
  · rintro ⟨t,member,cast⟩
    rcases Set.mem_insert_iff.mp member with rfl | old
    · cases none.symm.trans cast
    · exact ⟨t,old,cast⟩
  · rintro ⟨t,old,cast⟩
    exact ⟨t,Set.mem_insert_of_mem _ old,cast⟩

theorem ballotsSome {x : (UInt64 × Address) × Hash} (some : ballot vs tx = some x) :
    ballots vs (insert tx txs) = insert x (ballots vs txs) := by
  ext y
  rw [Set.mem_insert_iff]
  constructor
  · rintro ⟨t,member,cast⟩
    rcases Set.mem_insert_iff.mp member with rfl | old
    · exact .inl (Option.some.inj (cast.symm.trans some))
    · exact .inr ⟨t,old,cast⟩
  · rintro (rfl | ⟨t,old,cast⟩)
    · exact ⟨tx,Set.mem_insert _ _,some⟩
    · exact ⟨t,Set.mem_insert_of_mem _ old,cast⟩

theorem proposalsInsert : proposals sha (insert b blocks) = insert (proposal sha b) (proposals sha blocks) := Set.image_insert_eq

theorem jailMarks (p : PosState) (x a : Address) : (p.jail x).jailed a = true ↔ a = x ∨ p.jailed a = true := by
  simp only [PosState.jail,put]
  split
  · rename_i same
    simp [same]
  · rename_i other
    simp [other]

theorem recordVoteNone (none : ballot vs tx = none) : p.recordVote vs tx = p := by
  unfold ballot at none
  unfold PosState.recordVote
  split at none
  · rename_i other
    rw [if_pos other]
  · rename_i attests
    rw [if_neg attests]
    cases decoded : decodeAttest tx.data with
    | error e => rfl
    | ok a =>
      cases found : vs.byAddress tx.sender with
      | none => rfl
      | some v =>
        rw [decoded,found] at none
        cases none

theorem ballotSome {r : UInt64} {x : Address} {t : Hash} (cast : ballot vs tx = some ((r,x),t)) :
    isAttestationTx tx = true ∧ ∃ a v, decodeAttest tx.data = .ok a ∧ vs.byAddress tx.sender = some v ∧
      r = checkpointRound a.targetHeight ∧ x = tx.sender ∧ t = a.targetHash := by
  unfold ballot at cast
  split at cast
  · cases cast
  · rename_i attests
    split at cast
    · rename_i a v decoded found
      cases Option.some.inj cast
      exact ⟨not_not.mp attests,a,v,decoded,found,rfl,rfl,rfl⟩
    · cases cast

theorem recordVoteSome {r : UInt64} {x : Address} {t : Hash} (cast : ballot vs tx = some ((r,x),t)) :
    (∃ w, p.attestedRound r x = some w ∧ w ≠ t ∧ p.recordVote vs tx = p.jail x) ∨
    ((p.jailed x = true ∨ p.attestedRound r x = some t) ∧ p.recordVote vs tx = p) ∨
    (p.attestedRound r x = none ∧ (p.recordVote vs tx).jailed = p.jailed ∧
      (p.recordVote vs tx).proposedAtHeight = p.proposedAtHeight ∧
      (fun k : UInt64 × Address => (p.recordVote vs tx).attestedRound k.1 k.2) =
        Function.update (fun k : UInt64 × Address => p.attestedRound k.1 k.2) (r,x) (some t)) := by
  obtain ⟨attests,a,v,decoded,found,rfl,rfl,rfl⟩ := ballotSome cast
  unfold PosState.recordVote
  rw [if_neg (not_not.mpr attests),decoded,found]
  dsimp only
  cases held : p.attestedRound (checkpointRound a.targetHeight) tx.sender with
  | some w =>
    dsimp only
    by_cases same : w = a.targetHash
    · exact .inr (.inl ⟨.inr (congrArg some same),if_neg (not_not.mpr same)⟩)
    · exact .inl ⟨w,rfl,same,if_pos same⟩
  | none =>
    dsimp only
    by_cases free : p.jailed tx.sender = true
    · exact .inr (.inl ⟨.inl free,if_pos free⟩)
    · rw [if_neg free]
      refine .inr (.inr ⟨rfl,PosState.countVoteJailed,?_,?_⟩)
      · rw [PosState.countVoteEq]
      · funext k
        simp only [PosState.countVoteRound,(byAddressSound found).2,Function.update_apply,Prod.ext_iff]

theorem detectCases (p : PosState) (b : Block) (h : Hash) :
    (∃ w, p.proposedAtHeight b.header.prevHash b.header.coinbase = some w ∧ w ≠ h ∧
      p.detectEquivocation b h = p.jail b.header.coinbase) ∨
    (p.proposedAtHeight b.header.prevHash b.header.coinbase = some h ∧ p.detectEquivocation b h = p) ∨
    (p.proposedAtHeight b.header.prevHash b.header.coinbase = none ∧ (p.detectEquivocation b h).jailed = p.jailed ∧
      (p.detectEquivocation b h).attestedRound = p.attestedRound ∧
      (fun k : Hash × Address => (p.detectEquivocation b h).proposedAtHeight k.1 k.2) =
        Function.update (fun k : Hash × Address => p.proposedAtHeight k.1 k.2)
          (b.header.prevHash,b.header.coinbase) (some h)) := by
  cases held : p.proposedAtHeight b.header.prevHash b.header.coinbase with
  | some w =>
    simp only [PosState.detectEquivocation,held]
    by_cases same : w = h
    · exact .inr (.inl ⟨congrArg some same,if_neg (not_not.mpr same)⟩)
    · exact .inl ⟨w,rfl,same,if_pos same⟩
  | none =>
    rw [detectFirst held]
    refine .inr (.inr ⟨rfl,rfl,rfl,funext (fun k => ?_)⟩)
    simp only [put,Function.update_apply,Prod.ext_iff]
    by_cases parent : k.1 = b.header.prevHash
    · by_cases author : k.2 = b.header.coinbase
      · simp [put,parent,author]
      · simp [put,parent,author]
    · simp [parent]

theorem voteEvident (evident : Evident sha vs p txs blocks) (tx : Transaction) :
    Evident sha vs (p.recordVote vs tx) (insert tx txs) blocks := by
  unfold Evident at evident ⊢
  cases cast : ballot vs tx with
  | none =>
    rw [recordVoteNone cast,ballotsNone cast]
    exact evident
  | some vote =>
    obtain ⟨⟨r,x⟩,t⟩ := vote
    rw [ballotsSome cast]
    rcases @recordVoteSome vs p tx r x t cast with ⟨w,held,other,same⟩ | ⟨held,same⟩ | ⟨empty,jailed,slots,table⟩
    · rw [same]
      exact evident.second held other (jailMarks p x)
    · rw [same]
      exact evident.known held
    · rw [table,slots,jailed]
      exact evident.first empty

theorem proposalEvident (evident : Evident sha vs p txs blocks) (b : Block) :
    Evident sha vs (p.detectEquivocation b (b.hash sha)) txs (insert b blocks) := by
  unfold Evident at evident ⊢
  rw [proposalsInsert]
  rcases detectCases p b (b.hash sha) with ⟨w,held,other,same⟩ | ⟨held,same⟩ | ⟨empty,jailed,votes,table⟩
  · rw [same]
    exact (evident.swap.second held other (jailMarks p b.header.coinbase)).swap
  · rw [same]
    exact (evident.swap.known (.inr held)).swap
  · rw [table,votes,jailed]
    exact (evident.swap.first empty).swap

theorem recordEvident (evident : Evident sha vs p txs blocks) (b : Block) :
    Evident sha vs (p.record vs b (b.hash sha)) (txs ∪ {tx | tx ∈ b.txs}) (insert b blocks) := by
  have votes : ∀ (l : List Transaction) (p : PosState) (txs : Set Transaction), Evident sha vs p txs blocks →
      Evident sha vs (l.foldl (PosState.recordVote vs) p) (txs ∪ {tx | tx ∈ l}) blocks := by
    intro l
    induction l with
    | nil =>
      intro p txs evident
      simpa using evident
    | cons tx l ih =>
      intro p txs evident
      have after := ih _ _ (voteEvident evident tx)
      have same : insert tx txs ∪ {t | t ∈ l} = txs ∪ {t | t ∈ tx::l} := by
        ext t
        simp only [Set.mem_union,Set.mem_insert_iff,Set.mem_ofPred_eq,List.mem_cons]
        tauto
      rwa [same] at after
  exact proposalEvident (votes b.txs p txs evident) b

/- What a chain has stored: its blocks but genesis, and the transactions of all of them. -/
def storedBlocks (c : Chain) : Set Block := {b | ∃ h, h ≠ c.genesisHash ∧ c.getByHash h = some b}
def storedTxs (c : Chain) : Set Transaction := {tx | ∃ h b, c.getByHash h = some b ∧ tx ∈ b.txs}

theorem commitStored {st : MptState} {w : UInt64} (s : Sound env verifySig c) (a : Accepted env verifySig c b st w) :
    storedBlocks (c.commit env b st w) = insert b (storedBlocks c) ∧
      storedTxs (c.commit env b st w) = storedTxs c ∪ {tx | tx ∈ b.txs} := by
  obtain ⟨g,genesis,_⟩ := s.genesis
  have below : b.hash env.sha ≠ c.genesisHash := (parentNotOwn a.fresh genesis).symm
  have found := fun h x => @commitFound _ env c b st w a.fresh h x
  constructor
  · ext x
    simp only [storedBlocks,(commitConfig env c b st w).genesisHash,found,Set.mem_ofPred_eq,Set.mem_insert_iff]
    constructor
    · rintro ⟨h,notRoot,old | ⟨_,new⟩⟩
      · exact .inr ⟨h,notRoot,old⟩
      · exact .inl new
    · rintro (new | ⟨h,notRoot,old⟩)
      · exact ⟨_,below,.inr ⟨rfl,new⟩⟩
      · exact ⟨h,notRoot,.inl old⟩
  · ext tx
    simp only [storedTxs,found,Set.mem_ofPred_eq,Set.mem_union]
    constructor
    · rintro ⟨h,x,old | ⟨_,rfl⟩,member⟩
      · exact .inl ⟨h,x,old,member⟩
      · exact .inr member
    · rintro (⟨h,x,old,member⟩ | member)
      · exact ⟨h,x,.inl old,member⟩
      · exact ⟨_,b,.inr ⟨rfl,rfl⟩,member⟩

def Witnessed (env : Env E) (verifySig : VerifySig) (vs : ValidatorSet) (c : Chain) : Prop :=
  Sound env verifySig c ∧ c.consensus = .pos vs ∧ Evident env.sha vs c.pos (storedTxs c) (storedBlocks c)

theorem offerWitnessed (witnessed : Witnessed env verifySig vs c) : Witnessed env verifySig vs (c.offer env verifySig b) := by
  obtain ⟨s,mode,evident⟩ := witnessed
  refine ⟨offerSound s,(offerConfig env verifySig c b).consensus.trans mode,?_⟩
  rcases offerCases env verifySig c b with ⟨same,_⟩ | ⟨st,w,a,same⟩
  · rw [same]
    exact evident
  · obtain ⟨blocks,txs⟩ := commitStored s a
    rw [same,blocks,txs,Chain.commitPos,Chain.recordBlock,mode]
    exact recordEvident evident b

theorem startWitnessed (setup : Setup) (mode : setup.consensus = .pos vs) : Witnessed env verifySig vs (setup.chain env) := by
  have blocks : storedBlocks (setup.chain env) = ∅ := by
    refine Set.eq_empty_of_forall_notMem (fun x stored => ?_)
    obtain ⟨h,below,there⟩ := stored
    exact below (setupOnly there).1
  have txs : storedTxs (setup.chain env) = ∅ := by
    refine Set.eq_empty_of_forall_notMem (fun x stored => ?_)
    obtain ⟨h,b,there,member⟩ := stored
    rw [(setupOnly there).2] at member
    cases member
  refine ⟨setupSound setup,mode,?_⟩
  rw [blocks,txs]
  refine ⟨⟨fun k v held => (nomatch held),?_⟩,⟨fun k v held => (nomatch held),?_⟩,fun a bad => (nomatch bad)⟩
  · rintro k v ⟨tx,member,_⟩
    cases member
  · rintro k v ⟨x,member,_⟩
    cases member

theorem feedWitnessed (setup : Setup) (mode : setup.consensus = .pos vs) (bs : List Block) :
    Witnessed env verifySig vs ((setup.chain env).feed env verifySig bs) :=
  invariant (Witnessed env verifySig vs) (fun _ _ witnessed _ => offerWitnessed witnessed) (startWitnessed setup mode)
    (alongOfMem (fun _ => True) (fun _ _ => trivial))

def DoubleProposed (c : Chain) (a : Address) : Prop :=
  ∃ b ∈ storedBlocks c, ∃ b' ∈ storedBlocks c, b ≠ b' ∧ b.header.prevHash = b'.header.prevHash ∧
    b.header.coinbase = a ∧ b'.header.coinbase = a

def VotedFor (tx : Transaction) (a : Address) (round : UInt64) (target : Hash) : Prop :=
  isAttestationTx tx = true ∧ tx.sender = a ∧
    ∃ vote, decodeAttest tx.data = .ok vote ∧ checkpointRound vote.targetHeight = round ∧ vote.targetHash = target

def DoubleVoted (c : Chain) (a : Address) : Prop :=
  ∃ tx ∈ storedTxs c, ∃ tx' ∈ storedTxs c, ∃ round target target', VotedFor tx a round target ∧
    VotedFor tx' a round target' ∧ target ≠ target'

theorem ballotIff {round : UInt64} {target : Hash} (registered : (vs.byAddress a).isSome) :
    ballot vs tx = some ((round,a),target) ↔ VotedFor tx a round target := by
  unfold ballot
  constructor
  · intro cast
    split at cast
    · cases cast
    · rename_i attests
      split at cast
      · rename_i vote _ decoded _
        cases Option.some.inj cast
        exact ⟨not_not.mp attests,rfl,vote,decoded,rfl,rfl⟩
      · cases cast
  · rintro ⟨attests,rfl,vote,decoded,rfl,rfl⟩
    obtain ⟨v,found⟩ := Option.isSome_iff_exists.mp registered
    rw [if_neg (not_not.mpr attests)]
    simp only [decoded,found]

theorem clashVotes (registered : (vs.byAddress a).isSome) : Clash Prod.snd (ballots vs (storedTxs c)) a ↔ DoubleVoted c a := by
  constructor
  · rintro ⟨⟨round,x⟩,target,target',rfl,⟨tx,member,cast⟩,⟨tx',member',cast'⟩,apart⟩
    exact ⟨tx,member,tx',member',round,target,target',(ballotIff registered).mp cast,(ballotIff registered).mp cast',apart⟩
  · rintro ⟨tx,member,tx',member',round,target,target',voted,voted',apart⟩
    exact ⟨(round,a),target,target',rfl,⟨tx,member,(ballotIff registered).mpr voted⟩,
      ⟨tx',member',(ballotIff registered).mpr voted'⟩,apart⟩

theorem clashProposals (s : Sound env verifySig c) :
    Clash Prod.snd (proposals env.sha (storedBlocks c)) a ↔ DoubleProposed c a := by
  constructor
  · rintro ⟨⟨parent,x⟩,h,h',rfl,⟨b,stored,same⟩,⟨b',stored',same'⟩,apart⟩
    cases same
    refine ⟨b,stored,b',stored',?_,?_,rfl,?_⟩
    · rintro rfl
      exact apart (congrArg Prod.snd same')
    · exact (congrArg (fun x => x.1.1) same').symm
    · exact congrArg (fun x => x.1.2) same'
  · rintro ⟨b,stored,b',stored',apart,parent,rfl,author⟩
    refine ⟨(b.header.prevHash,b.header.coinbase),b.hash env.sha,b'.hash env.sha,rfl,⟨b,stored,rfl⟩,⟨b',stored',?_⟩,?_⟩
    · rw [proposal,← parent,author]
    · obtain ⟨h,_,found⟩ := stored
      obtain ⟨h',_,found'⟩ := stored'
      rw [s.keyed h b found,s.keyed h' b' found']
      rintro rfl
      exact apart (Option.some.inj (found.symm.trans found'))

theorem jailedExactly (setup : Setup) (mode : setup.consensus = .pos vs) (bs : List Block) {v : ValidatorInfo}
    (member : v ∈ vs.validators) :
    (((setup.chain env).feed env verifySig bs).pos.jailed v.address = true ↔
      DoubleProposed ((setup.chain env).feed env verifySig bs) v.address ∨
      DoubleVoted ((setup.chain env).feed env verifySig bs) v.address) ∧
    ∀ bs', (∀ h, ((setup.chain env).feed env verifySig bs').getByHash h = ((setup.chain env).feed env verifySig bs).getByHash h) →
      ((setup.chain env).feed env verifySig bs').pos.jailed v.address =
        ((setup.chain env).feed env verifySig bs).pos.jailed v.address := by
  have registered : (vs.byAddress v.address).isSome := List.find?_isSome.mpr ⟨v,member,by simp⟩
  have exactly : ∀ bs, ((setup.chain env).feed env verifySig bs).pos.jailed v.address = true ↔
      DoubleProposed ((setup.chain env).feed env verifySig bs) v.address ∨
      DoubleVoted ((setup.chain env).feed env verifySig bs) v.address := by
    intro bs
    obtain ⟨s,_,evident⟩ := @feedWitnessed _ env verifySig vs setup mode bs
    rw [← clashVotes registered,← clashProposals s,or_comm]
    exact evident.marked
  refine ⟨exactly bs,fun bs' same => ?_⟩
  have root := (feedConfig env verifySig (setup.chain env) bs).genesisHash
  have root' := (feedConfig env verifySig (setup.chain env) bs').genesisHash
  have blocks : storedBlocks ((setup.chain env).feed env verifySig bs') = storedBlocks ((setup.chain env).feed env verifySig bs) := by
    simp only [storedBlocks,same,root,root']
  have txs : storedTxs ((setup.chain env).feed env verifySig bs') = storedTxs ((setup.chain env).feed env verifySig bs) := by
    simp only [storedTxs,same]
  rw [Bool.eq_iff_iff,exactly,exactly]
  simp only [DoubleProposed,DoubleVoted,blocks,txs]

end
namespace Devnet

theorem twinJailed : twice.pos.jailed (validator 1 2).address = true ∧
    (DoubleProposed twice (validator 1 2).address ∨ DoubleVoted twice (validator 1 2).address) := by
  have fed : (setup.chain env).feed env acceptNonEmptySig [empty 0,twin] = twice := offerAccepted twinAccepted
  have exactly := (@jailedExactly _ env acceptNonEmptySig vs setup rfl [empty 0,twin] (validator 1 2) (by decide)).1
  rw [fed] at exactly
  have jailed : twice.pos.jailed (validator 1 2).address = true := by
    rw [twiceJails.1]
    rfl
  exact ⟨jailed,exactly.mp jailed⟩

end Devnet
end L1Chain
