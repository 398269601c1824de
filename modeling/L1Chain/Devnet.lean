import L1Chain.Production

/-! A development network of four validators with stakes 2, 1, 1 and 3, on which
the behaviour of the chain can be followed block by block. Its hash spells a
header's height and timestamp, and sends a proposer seed to zero, so the first
active validator proposes every block; its BLS accepts every signature of the
right size, and its state root is constant. `Quiet n` is the state after `n`
blocks without votes; it extends to `n + 1` for every `n` below `2 ^ 32`. -/
namespace L1Chain.Devnet
open Transition Runs Pos

@[irreducible] def sha (bs : Bytes) : Hash :=
  if bs.length ≤ 40 then 0 else BitVec.ofNat 256 (beNat (bs.take 8) * 2 ^ 64 + beNat ((bs.drop 124).take 8) + 1)

def engine : Exchange.Engine Unit where
  new _ := ()
  credit _ _ _ _ := ()
  restore _ _ := .ok ()
  applyPositioned _ _ _ _ := (⟨false,none⟩,())
  stagePlace _ _ _ _ := (⟨false,none⟩,none,())
  clearBatch _ _ := .ok (⟨false,0,0⟩,())
  book _ := []
  balances _ := ∅

def env : Env Unit where
  sha := sha
  blst := ⟨fun _ _ _ _ => true,fun _ => true⟩
  engine := engine
  evm := ⟨[],fun _ _ _ _ _ _ => .done 0,fun _ _ _ _ _ _ _ => .done 0⟩
  stateRoot _ := 0

def trading {E : Type} (eng : Exchange.Engine E) : Env E := ⟨sha,env.blst,eng,env.evm,env.stateRoot⟩

def validator (n : UInt8) (stake : UInt64) : ValidatorInfo :=
  ⟨BitVec.ofNat 160 n.toNat,List.replicate 48 n,stake⟩

def vs : ValidatorSet where
  validators := [validator 1 2,validator 2 1,validator 3 1,validator 4 3]
  totalStake := 7
  nonempty := by decide
  staked := by decide
  distinct := by decide
  distinctKeys := by decide
  total := by decide

def setup : Setup where
  genesis := ⟨∅,∅,0,0,0⟩
  chainID := defaultChainID
  gasLimit := defaultGasLimit
  exchangeMode := .continuous
  consensus := .pos vs

def start : Chain := setup.chain env

@[irreducible] def hashAt (height time : Nat) : Hash := BitVec.ofNat 256 (height * 2 ^ 64 + time + 1)

theorem shaLong {bs : Bytes} (long : ¬ bs.length ≤ 40) :
    sha bs = hashAt (beNat (bs.take 8)) (beNat ((bs.drop 124).take 8)) := by
  unfold hashAt sha
  exact if_neg long

theorem shaShort {bs : Bytes} (short : bs.length ≤ 40) : sha bs = 0 := by
  unfold sha
  exact if_pos short

theorem headerHash (h : Header) : h.hash env.sha = hashAt h.height.toNat h.timestamp.toUInt64.toNat := by
  have shape : h.preimage true = (be64 h.height ++ (Hash.bytes h.prevHash ++ Hash.bytes h.merkleRoot ++
      Hash.bytes h.stateRoot ++ Address.bytes h.coinbase)) ++ (be64 h.timestamp.toUInt64 ++ (be32 h.difficulty ++
      be64 h.nonce ++ be64 h.baseFee ++ be64 h.gasUsed ++ h.proposerSig)) := by
    simp [Header.preimage,List.append_assoc]
  have long : ¬ (h.preimage true).length ≤ 40 := by
    rw [shape]
    simp only [List.length_append,be64Length,hashBytesLength,addressBytesLength]
    omega
  have height : (h.preimage true).take 8 = be64 h.height := by
    rw [shape,List.append_assoc]
    exact List.take_left' (be64Length _)
  have time : ((h.preimage true).drop 124).take 8 = be64 h.timestamp.toUInt64 := by
    rw [shape,List.drop_left' (by simp)]
    exact List.take_left' (be64Length _)
  have spelled : ∀ n : UInt64, beNat (be64 n) = n.toNat := fun n => by
    rw [be64,beNatBytes]
    exact Nat.mod_eq_of_lt n.toNat_lt
  have own : env.sha = sha := rfl
  rw [Header.hash,own,shaLong long,height,time,spelled,spelled]

theorem hashAtInj {h k s t : Nat} (hs : h < 2 ^ 64) (ks : k < 2 ^ 64) (ss : s < 2 ^ 64) (ts : t < 2 ^ 64)
    (same : hashAt h s = hashAt k t) : h = k ∧ s = t := by
  have values := congrArg BitVec.toNat same
  simp only [hashAt,BitVec.toNat_ofNat] at values
  rw [Nat.mod_eq_of_lt (by omega),Nat.mod_eq_of_lt (by omega)] at values
  omega

theorem hashApart {h k s t : Nat} (small : h < 2 ^ 64 ∧ k < 2 ^ 64 ∧ s < 2 ^ 64 ∧ t < 2 ^ 64) (differ : h ≠ k ∨ s ≠ t) :
    hashAt h s ≠ hashAt k t := by
  intro same
  obtain ⟨heights,times⟩ := hashAtInj small.1 small.2.1 small.2.2.1 small.2.2.2 same
  rcases differ with other | other
  · exact other heights
  · exact other times

theorem hashAtPos {h t : Nat} (hs : h < 2 ^ 64) (ts : t < 2 ^ 64) : hashAt h t ≠ 0 := by
  intro zero
  have value := congrArg BitVec.toNat zero
  simp only [hashAt,BitVec.toNat_ofNat] at value
  rw [Nat.mod_eq_of_lt (by omega)] at value
  simp at value

def sig : Bytes := List.replicate 96 0

def block (n : Nat) (time : Int64) (txs : List Transaction) : Block where
  header :=
    { height := UInt64.ofNat (n + 1), prevHash := hashAt n 0, merkleRoot := merkleRoot sha (txs.map (·.hash sha))
      stateRoot := 0, coinbase := 1, timestamp := time, difficulty := 0, nonce := 0, baseFee := 0, gasUsed := 0
      proposerSig := sig }
  txs := txs

theorem blockHash {n : Nat} (small : n < 2 ^ 32) (time : Int64) (txs : List Transaction) :
    (block n time txs).hash env.sha = hashAt (n + 1) time.toUInt64.toNat := by
  have height : (UInt64.ofNat (n + 1)).toNat = n + 1 := by
    rw [UInt64.toNat_ofNat']
    exact Nat.mod_eq_of_lt (by omega)
  rw [Block.hash,headerHash]
  exact congrArg (fun h => hashAt h _) height

structure Quiet (n : Nat) (c : Chain) : Prop where
  sound : Sound env acceptNonEmptySig c
  mode : c.consensus = .pos vs
  chainID : c.chainID = defaultChainID
  gasLimit : c.gasLimit = defaultGasLimit
  head : c.head = hashAt n 0
  headHeader : c.headD.header.height = UInt64.ofNat n ∧ c.headD.header.baseFee = 0 ∧ c.headD.header.gasUsed = 0
  keys : ∀ h b, c.getByHash h = some b → ∃ k, k ≤ n ∧ h = hashAt k 0
  held : ∀ k, k ≤ n → ∃ b, c.getByHash (hashAt k 0) = some b
  weight : c.td c.head = UInt64.ofNat n
  unvoted : c.pos = {PosState.init with proposedAtHeight := c.pos.proposedAtHeight}
  slots : ∀ k, n ≤ k → k < 2 ^ 64 → ∀ a, c.pos.proposedAtHeight (hashAt k 0) a = none
  accounts : ∀ a, (c.headState.accounts a).nonce = 0 ∧ (c.headState.accounts a).code = []

theorem startFound (h : Hash) :
    start.getByHash h = if h = hashAt 0 0 then some (setup.genesis.toBlock env) else none := by
  have own : start.genesisHash = hashAt 0 0 := headerHash _
  rw [← own]
  exact setupFound env setup h

theorem quietStart : Quiet 0 start := by
  have head : start.head = hashAt 0 0 := headerHash _
  have found : start.headD = setup.genesis.toBlock env := setupHead env setup
  refine ⟨setupSound setup,rfl,rfl,rfl,head,?_,?_,?_,?_,rfl,fun _ _ _ _ => rfl,fun _ => ⟨rfl,rfl⟩⟩
  · rw [found]
    exact ⟨rfl,rfl,rfl⟩
  · intro h b stored
    rw [startFound] at stored
    split at stored
    · rename_i same
      exact ⟨0,Nat.le_refl 0,same⟩
    · contradiction
  · intro k low
    rw [Nat.le_zero.mp low,startFound,if_pos rfl]
    exact ⟨_,rfl⟩
  · exact if_pos rfl

theorem heightSmall {n : Nat} (small : n < 2 ^ 32) : (UInt64.ofNat n).toNat = n := by
  rw [UInt64.toNat_ofNat']
  exact Nat.mod_eq_of_lt (by omega)

theorem seedZero (prev : Hash) (height : UInt64) : proposerSeed env.sha prev height = 0 := by
  have own : env.sha = sha := rfl
  rw [proposerSeed,hashConcat,own]
  exact shaShort (by simp)

theorem firstProposes (b : Block) : proposerFor env vs (fun _ => false) b = .ok (validator 1 2) := by
  rw [proposerFor,seedZero]
  rfl

theorem proposerOk (n : Nat) (time : Int64) (txs : List Transaction) (chainID : UInt64) :
    checkProposer env vs chainID (fun _ => false) (block n time txs) = .ok () := by
  rw [checkProposer,firstProposes]
  rfl

theorem quietFresh {n : Nat} {c : Chain} (q : Quiet n c) (small : n < 2 ^ 32) (time : Int64) (txs : List Transaction) :
    c.getByHash ((block n time txs).hash env.sha) = none := by
  rw [blockHash small]
  cases found : c.getByHash (hashAt (n + 1) time.toUInt64.toNat) with
  | none => rfl
  | some b =>
    obtain ⟨k,below,same⟩ := q.keys _ _ found
    have equal := hashAtInj (by omega) (by omega) (UInt64.toNat_lt _) (by omega) same
    omega

theorem quietSealed {n : Nat} {c : Chain} (q : Quiet n c) (time : Int64) (txs : List Transaction) :
    Sealed env c (block n time txs) txs 1 0 0 := by
  obtain ⟨height,fee,gas⟩ := q.headHeader
  refine ⟨rfl,?_,?_,rfl,rfl,rfl,?_,rfl⟩
  · rw [height,ofNatSucc]
    rfl
  · exact q.head.symm.trans (q.sound.keyed _ _ (headFound q.sound)).symm
  · simp [Chain.nextBaseFee,Chain.nextBaseFeeOf,FeeMarket.computeBaseFee,fee,block]

theorem blockAccepted {n : Nat} {c : Chain} {txs : List Transaction} (q : Quiet n c) (small : n < 2 ^ 32)
    (time : Int64) (ids : ∀ tx ∈ txs, tx.chainID = defaultChainID)
    (fits : Along castVote (fun st tx => acceptNonEmptySig tx = true ∧ tx.nonce = (getAccount st tx.sender).nonce ∧
      tx.recipient = attestAddress ∧ getCode st attestAddress = []) c.headState txs)
    (valid : ∀ tx ∈ txs, attestationValid env vs defaultChainID (UInt64.ofNat (n + 1)) tx = true) :
    Accepted env acceptNonEmptySig c (block n time txs)
      (credit (txs.foldl castVote c.headState) 1 blockReward) 1 := by
  have jailed : c.pos.jailed = fun _ => false := by rw [q.unvoted]; rfl
  have cand := votesCandidate q.sound 1 (by rw [q.chainID]; exact ids) fits
  have tall : c.headD.header.height + 1 ≠ 0 := by
    rw [q.headHeader.1,ofNatSucc]
    intro zero
    have value := congrArg UInt64.toNat zero
    rw [UInt64.toNat_ofNat',Nat.mod_eq_of_lt (by omega)] at value
    exact absurd value (Nat.succ_ne_zero n)
  have room : (0 : UInt64) ≤ c.gasLimit := by
    rw [q.gasLimit]
    decide
  have open' : c.pos.finalizedHash = 0 := by
    rw [q.unvoted]
    rfl
  refine sealedAccepted q.sound (quietSealed q time txs) cand room (quietFresh q small time txs) tall
    (openGate q.mode open') (posConsensus q.mode ?_ ?_)
  · rw [jailed]
    exact proposerOk n time txs _
  · intro tx member _
    rw [q.chainID]
    exact valid tx member

def empty (n : Nat) : Block := block n 0 []

theorem emptyAccepted {n : Nat} {c : Chain} (q : Quiet n c) (small : n < 2 ^ 32) :
    Accepted env acceptNonEmptySig c (empty n) (credit c.headState 1 blockReward) 1 :=
  blockAccepted q small 0 (by simp) trivial (by simp)

theorem quietMoves {n : Nat} {c : Chain} (q : Quiet n c) (small : n < 2 ^ 32) (time : Int64) (txs : List Transaction) :
    c.outweighs env (block n time txs) 1 := by
  rw [outweighsIff q.sound.headStored (quietFresh q small time txs)]
  have prev : (block n time txs).header.prevHash = c.head := q.head.symm
  rw [prev,q.weight,ofNatSucc]
  change UInt64.ofNat n < UInt64.ofNat (n + 1)
  rw [UInt64.lt_iff_toNat_lt,UInt64.toNat_ofNat',UInt64.toNat_ofNat',Nat.mod_eq_of_lt (by omega),
    Nat.mod_eq_of_lt (by omega)]
  omega

def proposed (n : Nat) (slots : Hash → Address → Option Hash) : Hash → Address → Option Hash :=
  put slots (hashAt n 0) (put (slots (hashAt n 0)) 1 (some (hashAt (n + 1) 0)))

theorem quietStep {n : Nat} {c : Chain} (q : Quiet n c) (small : n < 2 ^ 32) :
    Quiet (n + 1) (c.offer env acceptNonEmptySig (empty n)) := by
  have a := emptyAccepted q small
  have heavier : c.outweighs env (empty n) 1 := quietMoves q small 0 []
  have own : (empty n).hash env.sha = hashAt (n + 1) 0 := blockHash small 0 []
  have config := commitConfig env c (empty n) (credit c.headState 1 blockReward) 1
  have sound := commitSound q.sound a
  have head : (c.commit env (empty n) (credit c.headState 1 blockReward) 1).head = hashAt (n + 1) 0 := by
    rw [Chain.commitHead,if_pos heavier,own]
  have headIs : (c.commit env (empty n) (credit c.headState 1 blockReward) 1).headD = empty n := by
    rw [Chain.headD,Chain.headBlock,Chain.commitHead,if_pos heavier,
      (commitFound a.fresh _ _).mpr (.inr ⟨rfl,rfl⟩)]
    rfl
  have slot : c.pos.proposedAtHeight (empty n).header.prevHash (empty n).header.coinbase = none :=
    q.slots n (Nat.le_refl n) (by omega) 1
  have record : c.recordBlock env (empty n) = {c.pos with proposedAtHeight := proposed n c.pos.proposedAtHeight} := by
    simp only [Chain.recordBlock,q.mode]
    exact (detectFirst slot).trans (by rw [own]; rfl)
  rw [offerAccepted a]
  refine ⟨sound,config.consensus.trans q.mode,config.chainID.trans q.chainID,config.gasLimit.trans q.gasLimit,head,
    ?_,?_,?_,?_,?_,?_,?_⟩
  · rw [headIs]
    exact ⟨rfl,rfl,rfl⟩
  · intro h b found
    rcases (commitFound a.fresh h b).mp found with old | ⟨same,_⟩
    · obtain ⟨k,below,key⟩ := q.keys h b old
      exact ⟨k,by omega,key⟩
    · exact ⟨n + 1,Nat.le_refl _,same.trans own⟩
  · intro k low
    rcases Nat.lt_or_eq_of_le low with below | rfl
    · obtain ⟨b,found⟩ := q.held k (by omega)
      exact ⟨b,(commitFound a.fresh _ _).mpr (.inl found)⟩
    · exact ⟨empty n,(commitFound a.fresh _ _).mpr (.inr ⟨own.symm,rfl⟩)⟩
  · rw [Chain.commitHead,if_pos heavier,Chain.commitTd]
    have prev : (empty n).header.prevHash = c.head := q.head.symm
    simp only [put,if_true,prev,q.weight,ofNatSucc]
  · rw [Chain.commitPos,record]
    simp only [PosState.mk.injEq,and_true]
    rw [q.unvoted]
    exact ⟨rfl,rfl,rfl,rfl,rfl⟩
  · intro k above bound a
    rw [Chain.commitPos,record]
    have other : hashAt k 0 ≠ hashAt n 0 := by
      intro same
      have equal := hashAtInj bound (by omega) (by omega) (by omega) same
      omega
    simp only [proposed,put,if_neg other]
    exact q.slots k (by omega) bound a
  · intro x
    rw [Chain.commitHeadState,if_pos heavier]
    simp only [credit,MptState.getAccountEq,MptState.setAccountAt]
    split
    · exact q.accounts 1
    · exact q.accounts x

@[irreducible] def quietBlocks (n : Nat) : List Block := (List.range n).map empty

theorem quietBlocksSucc (n : Nat) : quietBlocks (n + 1) = quietBlocks n ++ [empty n] := by
  simp [quietBlocks,List.range_succ]

theorem quietFeed {n : Nat} (small : n ≤ 2 ^ 32) : Quiet n (start.feed env acceptNonEmptySig (quietBlocks n)) := by
  induction n with
  | zero =>
    unfold quietBlocks
    exact quietStart
  | succ n ih =>
    rw [quietBlocksSucc,feedSnoc]
    exact quietStep (ih (by omega)) (by omega)

def account (n : UInt8) : Address := BitVec.ofNat 160 n.toNat

def payment (id : UInt64) : Transaction where
  sender := account 1
  recipient := account 2
  value := 40
  nonce := 0
  gasLimit := 0
  chainID := id
  gasFeeCap := 0
  gasTipCap := 0
  data := []
  signature := [1]

def vote (n : UInt8) (nonce height : UInt64) (target : Hash) : Transaction where
  sender := account n
  recipient := attestAddress
  value := 0
  nonce := nonce
  gasLimit := 0
  chainID := defaultChainID
  gasFeeCap := 0
  gasTipCap := 0
  data := encodeAttest ⟨height,target,sig⟩
  signature := [1]

theorem voteDecoded (n : UInt8) (nonce height : UInt64) (target : Hash) :
    decodeAttest (vote n nonce height target).data = .ok ⟨height,target,sig⟩ := decodeEncode rfl

theorem voteValid {n : UInt8} {nonce height : UInt64} {target : Hash} {v : ValidatorInfo} {top : UInt64}
    (member : vs.byAddress (account n) = some v) (sized : v.blsPubKey.length = pubKeySize)
    (checkpoint : height % checkpointInterval = 0) (past : height < top) :
    attestationValid env vs defaultChainID top (vote n nonce height target) = true := by
  have below : ¬ height ≥ top := UInt64.not_le.mpr past
  have sender : vs.byAddress (vote n nonce height target).sender = some v := member
  simp only [attestationValid,voteDecoded,checkpoint,ne_eq,not_true_eq_false,if_false,below,sender,verify,sized,
    decide_true,Bool.true_and]
  rfl

/- Validator 1 votes for a target twice, under the heights 0 and 32, with the vote
of validator `w` in between. -/
def doubleVotes (w : UInt8) (target : Hash) : List Transaction :=
  [vote 1 0 0 target,vote w 0 32 target,vote 1 1 32 target]

def splitBlock (w : UInt8) (time : Int64) (target : Hash) : Block := block 32 time (doubleVotes w target)

theorem splitAccepted {c : Chain} (q : Quiet 32 c) {w : UInt8} (voter : w = 2 ∨ w = 3) (time : Int64) (target : Hash) :
    Accepted env acceptNonEmptySig c (splitBlock w time target)
      (credit ((doubleVotes w target).foldl castVote c.headState) 1 blockReward) 1 := by
  have other : account w ≠ account 1 := by rcases voter with rfl | rfl <;> decide
  have valid : vs.byAddress (account w) = some (validator w 1) := by rcases voter with rfl | rfl <;> decide
  refine blockAccepted q (by decide) time ?_ ?_ ?_
  · simp [doubleVotes,vote]
  · refine ⟨⟨rfl,?_,rfl,?_⟩,⟨rfl,?_,rfl,?_⟩,⟨rfl,?_,rfl,?_⟩,trivial⟩
    · exact (q.accounts _).1.symm
    · exact (q.accounts _).2
    · change 0 = ((castVote c.headState (vote 1 0 0 target)).accounts (account w)).nonce
      simp only [castVote,bumpNonce,vote,MptState.setAccountAt,if_neg other,(q.accounts _).1]
    · exact (castVoteCode _ _ _).trans (q.accounts _).2
    · change 1 = ((castVote (castVote c.headState (vote 1 0 0 target)) (vote w 0 32 target)).accounts (account 1)).nonce
      simp [castVote,bumpNonce,vote,other.symm,q.accounts]
    · exact (castVoteCode _ _ _).trans ((castVoteCode _ _ _).trans (q.accounts _).2)
  · have first : vs.byAddress (account 1) = some (validator 1 2) := by decide
    simp only [doubleVotes,List.mem_cons,List.not_mem_nil,or_false,forall_eq_or_imp,forall_eq]
    exact ⟨voteValid first (by decide) (by decide) (by decide),voteValid valid (by simp [validator,pubKeySize]) (by decide) (by decide),
      voteValid first (by decide) (by decide) (by decide)⟩

/- Some validators vote once each for a block of height 32. -/
def ballots (ns : List UInt8) (target : Hash) : List Transaction := ns.map (vote · 0 32 target)

def stakes (n : UInt8) : UInt64 := if n = 1 then 2 else if n = 4 then 3 else 1

theorem knownVoter : ∀ n ∈ ([1,2,3,4] : List UInt8), vs.byAddress (account n) = some (validator n (stakes n)) := by
  decide +kernel

theorem ballotsCast {st : MptState} {ns : List UInt8} (target : Hash) (apart : (ns.map account).Nodup)
    (fresh : ∀ n ∈ ns, (st.accounts (account n)).nonce = 0) (code : getCode st attestAddress = []) :
    Along castVote (fun st tx => acceptNonEmptySig tx = true ∧ tx.nonce = (getAccount st tx.sender).nonce ∧
      tx.recipient = attestAddress ∧ getCode st attestAddress = []) st (ballots ns target) := by
  induction ns generalizing st with
  | nil => trivial
  | cons n ns ih =>
    obtain ⟨first,rest⟩ := List.nodup_cons.mp apart
    refine ⟨⟨rfl,(fresh n List.mem_cons_self).symm,rfl,code⟩,ih rest (fun m later => ?_) ((castVoteCode _ _ _).trans code)⟩
    have other : account m ≠ account n := fun same => first (same ▸ List.mem_map_of_mem later)
    simp only [castVote,bumpNonce,vote,MptState.setAccountAt,if_neg other,fresh m (List.mem_cons_of_mem _ later)]

theorem ballotsAccepted {c : Chain} (q : Quiet 32 c) {ns : List UInt8} (apart : (ns.map account).Nodup)
    (known : ns ⊆ [1,2,3,4]) (time : Int64) (target : Hash) :
    Accepted env acceptNonEmptySig c (block 32 time (ballots ns target))
      (credit ((ballots ns target).foldl castVote c.headState) 1 blockReward) 1 := by
  refine blockAccepted q (by decide) time ?_ (ballotsCast target apart (fun n _ => (q.accounts _).1) (q.accounts _).2) ?_
  · intro tx member
    obtain ⟨n,_,rfl⟩ := List.mem_map.mp member
    rfl
  · intro tx member
    obtain ⟨n,inside,rfl⟩ := List.mem_map.mp member
    exact voteValid (knownVoter n (known inside)) (by simp [validator,pubKeySize]) (by decide) (by decide)

/- Validators 4 and 1 hold five of the seven stakes, and so do 4, 2 and 3. -/
def quorumVotes (target : Hash) : List Transaction := ballots [4,1] target
def quorumBlock (target : Hash) : Block := block 32 0 (quorumVotes target)

def othersBlock (target : Hash) : Block := block 32 1 (ballots [4,2,3] target)

theorem quorumAccepted {c : Chain} (q : Quiet 32 c) (target : Hash) :
    Accepted env acceptNonEmptySig c (quorumBlock target)
      (credit ((quorumVotes target).foldl castVote c.headState) 1 blockReward) 1 :=
  ballotsAccepted q (by decide) (by decide) 0 target

end L1Chain.Devnet
