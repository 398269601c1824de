import L1Chain.Chain

/-! What one `AddBlock` can do. `Accepted` lists every check a block passed, so
later results invert an accepted block once; the lemmas about `commit` say what
it writes. `Sound` is what the block store keeps in every reachable state. -/
namespace L1Chain
open Transition Runs

variable {E : Type} {env : Env E} {verifySig : VerifySig} {c : Chain} {b : Block} {st : MptState} {w : UInt64}

structure Accepted (env : Env E) (verifySig : VerifySig) (c : Chain) (b : Block) (st : MptState) (w : UInt64) :
    Prop where
  fresh : c.getByHash (b.hash env.sha) = none
  parent : ∃ p, c.getByHash b.header.prevHash = some p ∧ b.header.height = p.header.height + 1 ∧
    b.header.baseFee = c.nextBaseFeeOf p
  gate : c.respectsFinality b = .ok ()
  consensus : c.checkConsensus env b = .ok w
  txRoot : b.txRoot env.sha = b.header.merkleRoot
  chainID : c.assertChainID b.txs = .ok ()
  derived : ∃ before, c.deriveState env verifySig b.header.prevHash = .ok before ∧
    applyBlockRewarded env verifySig c.exchangeMode before b = .ok (st,b.header.gasUsed)
  gas : b.header.gasUsed ≤ c.gasLimit
  root : env.stateRoot st = b.header.stateRoot

theorem liftTxOk {α : Type} {x : Except TxErr α} {a : α} : liftTx x = .ok a ↔ x = .ok a := by
  cases x <;> simp [liftTx]

theorem checkHeaderOk : c.checkHeader env b = .ok () ↔ c.getByHash (b.hash env.sha) = none ∧
    ∃ p, c.getByHash b.header.prevHash = some p ∧ b.header.height = p.header.height + 1 ∧
      b.header.baseFee = c.nextBaseFeeOf p := by
  unfold Chain.checkHeader
  cases own : c.getByHash (b.hash env.sha) with
  | some _ => simp
  | none =>
    cases found : c.getByHash b.header.prevHash with
    | none => simp
    | some p =>
      simp only [Option.isSome_none,Bool.false_eq_true,if_false,true_and,Option.some.injEq,
        exists_eq_left']
      split
      · rename_i height
        simp [height]
      · rename_i height
        split
        · rename_i fee
          simp [fee]
        · rename_i fee
          simp only [ne_eq,not_not] at height fee
          simp [height,fee]

theorem checkResultOk {gasUsed : UInt64} : c.checkResult env b st gasUsed = .ok () ↔
    gasUsed = b.header.gasUsed ∧ gasUsed ≤ c.gasLimit ∧ env.stateRoot st = b.header.stateRoot := by
  unfold Chain.checkResult
  split
  · rename_i gas
    simp [gas]
  · rename_i gas
    split
    · rename_i limit
      simp only [reduceCtorEq,false_iff]
      intro all
      exact absurd limit (UInt64.not_lt.mpr all.2.1)
    · rename_i limit
      simp only [ne_eq,not_not] at gas
      split
      · rename_i root
        simp [root]
      · rename_i root
        simp only [ne_eq,not_not] at root
        subst gas
        simp [root,UInt64.not_lt.mp limit]

theorem assertChainIDOk {txs : List Transaction} :
    c.assertChainID txs = .ok () ↔ ∀ tx ∈ txs, tx.chainID = c.chainID := by
  unfold Chain.assertChainID
  split <;> simp_all

theorem validateOk : c.validate env verifySig b = .ok (st,w) ↔ Accepted env verifySig c b st w := by
  constructor
  · intro ok
    simp only [Chain.validate,bindOk] at ok
    obtain ⟨_,header,_,gate,weight,consensus,ok⟩ := ok
    split at ok
    · contradiction
    · rename_i txRoot
      simp only [ne_eq,not_not] at txRoot
      simp only [bindOk] at ok
      obtain ⟨_,chainID,before,derived,⟨after,gasUsed⟩,applied,_,result,last⟩ := ok
      cases last
      obtain ⟨gas,limit,root⟩ := checkResultOk.mp result
      subst gas
      obtain ⟨fresh,parent⟩ := checkHeaderOk.mp header
      exact ⟨fresh,parent,gate,consensus,txRoot,chainID,⟨before,derived,liftTxOk.mp applied⟩,limit,root⟩
  · intro a
    obtain ⟨before,derived,applied⟩ := a.derived
    have header := checkHeaderOk.mpr ⟨a.fresh,a.parent⟩
    have result := checkResultOk.mpr ⟨rfl,a.gas,a.root⟩
    simp only [Chain.validate,bind,Except.bind,header,a.gate,a.consensus,a.txRoot,ne_eq,not_true_eq_false,
      if_false,a.chainID,derived,applied,liftTx,result]

theorem addBlockOk {c' : Chain} : c.addBlock env verifySig b = .ok c' ↔
    ∃ st w, Accepted env verifySig c b st w ∧ c' = c.commit env b st w := by
  simp only [Chain.addBlock,bindOk]
  constructor
  · rintro ⟨⟨st,w⟩,ok,last⟩
    cases last
    exact ⟨st,w,validateOk.mp ok,rfl⟩
  · rintro ⟨st,w,a,rfl⟩
    exact ⟨(st,w),validateOk.mpr a,rfl⟩

theorem offerOk {c' : Chain} (added : c.addBlock env verifySig b = .ok c') : c.offer env verifySig b = c' := by
  simp [Chain.offer,added]

theorem offerAccepted (a : Accepted env verifySig c b st w) : c.offer env verifySig b = c.commit env b st w := by
  have ok : c.addBlock env verifySig b = .ok (c.commit env b st w) := addBlockOk.mpr ⟨st,w,a,rfl⟩
  simp [Chain.offer,ok]

theorem offerCases (env : Env E) (verifySig : VerifySig) (c : Chain) (b : Block) :
    (c.offer env verifySig b = c ∧ ∃ e, c.addBlock env verifySig b = .error e) ∨
    ∃ st w, Accepted env verifySig c b st w ∧ c.offer env verifySig b = c.commit env b st w := by
  cases result : c.addBlock env verifySig b with
  | error e => exact .inl ⟨by simp [Chain.offer,result],e,rfl⟩
  | ok c' =>
    obtain ⟨st,w,a,_⟩ := addBlockOk.mp result
    exact .inr ⟨st,w,a,offerAccepted a⟩

/- What `commit` writes. The head moves only to a strictly heavier block. -/
namespace Chain

def outweighs (env : Env E) (c : Chain) (b : Block) (w : UInt64) : Prop :=
  c.td b.header.prevHash + w > put c.td (b.hash env.sha) (c.td b.header.prevHash + w) c.head

instance : Decidable (c.outweighs env b w) := by unfold outweighs; infer_instance

theorem commitEq (env : Env E) (c : Chain) (b : Block) (st : MptState) (w : UInt64) :
    ∃ index, c.commit env b st w = {c with
      blocks := c.blocks.insert (b.hash env.sha) b
      td := put c.td (b.hash env.sha) (c.td b.header.prevHash + w)
      pos := c.recordBlock env b
      head := if c.outweighs env b w then b.hash env.sha else c.head
      headState := if c.outweighs env b w then st else c.headState
      heightIndex := index} := by
  unfold commit
  by_cases heavier : c.outweighs env b w
  · have moved : c.td b.header.prevHash + w > put c.td (b.hash env.sha) (c.td b.header.prevHash + w) c.head := heavier
    simp only [heavier,if_true]
    exact ⟨_,if_pos (by simpa [put] using moved)⟩
  · have stays : ¬ c.td b.header.prevHash + w > put c.td (b.hash env.sha) (c.td b.header.prevHash + w) c.head := heavier
    simp only [heavier,if_false]
    exact ⟨c.heightIndex,if_neg (by simpa [put] using stays)⟩

@[simp] theorem commitBlocks : (c.commit env b st w).blocks = c.blocks.insert (b.hash env.sha) b := by
  obtain ⟨index,same⟩ := commitEq env c b st w
  rw [same]

@[simp] theorem commitTd :
    (c.commit env b st w).td = put c.td (b.hash env.sha) (c.td b.header.prevHash + w) := by
  obtain ⟨index,same⟩ := commitEq env c b st w
  rw [same]

@[simp] theorem commitPos : (c.commit env b st w).pos = c.recordBlock env b := by
  obtain ⟨index,same⟩ := commitEq env c b st w
  rw [same]

@[simp] theorem commitHead :
    (c.commit env b st w).head = if c.outweighs env b w then b.hash env.sha else c.head := by
  obtain ⟨index,same⟩ := commitEq env c b st w
  rw [same]

@[simp] theorem commitHeadState :
    (c.commit env b st w).headState = if c.outweighs env b w then st else c.headState := by
  obtain ⟨index,same⟩ := commitEq env c b st w
  rw [same]

end Chain

theorem detectFirst {p : PosState} {h : Hash}
    (first : p.proposedAtHeight b.header.prevHash b.header.coinbase = none) :
    p.detectEquivocation b h = {p with
      proposedAtHeight := put p.proposedAtHeight b.header.prevHash
        (put (p.proposedAtHeight b.header.prevHash) b.header.coinbase (some h))} := by
  simp only [PosState.detectEquivocation,first]

structure SameConfig (c d : Chain) : Prop where
  genesisHash : d.genesisHash = c.genesisHash
  genesisAlloc : d.genesisAlloc = c.genesisAlloc
  genesisBaseAlloc : d.genesisBaseAlloc = c.genesisBaseAlloc
  chainID : d.chainID = c.chainID
  gasLimit : d.gasLimit = c.gasLimit
  exchangeMode : d.exchangeMode = c.exchangeMode
  consensus : d.consensus = c.consensus

theorem SameConfig.refl (c : Chain) : SameConfig c c := ⟨rfl,rfl,rfl,rfl,rfl,rfl,rfl⟩

theorem SameConfig.trans {a b c : Chain} (ab : SameConfig a b) (bc : SameConfig b c) : SameConfig a c :=
  ⟨bc.genesisHash.trans ab.genesisHash,bc.genesisAlloc.trans ab.genesisAlloc,
    bc.genesisBaseAlloc.trans ab.genesisBaseAlloc,bc.chainID.trans ab.chainID,bc.gasLimit.trans ab.gasLimit,
    bc.exchangeMode.trans ab.exchangeMode,bc.consensus.trans ab.consensus⟩

theorem commitConfig (env : Env E) (c : Chain) (b : Block) (st : MptState) (w : UInt64) :
    SameConfig c (c.commit env b st w) := by
  obtain ⟨index,same⟩ := Chain.commitEq env c b st w
  rw [same]
  exact ⟨rfl,rfl,rfl,rfl,rfl,rfl,rfl⟩

theorem offerConfig (env : Env E) (verifySig : VerifySig) (c : Chain) (b : Block) :
    SameConfig c (c.offer env verifySig b) := by
  rcases offerCases env verifySig c b with ⟨same,_⟩ | ⟨st,w,_,same⟩
  · rw [same]
    exact SameConfig.refl c
  · rw [same]
    exact commitConfig env c b st w

theorem feedConfig (env : Env E) (verifySig : VerifySig) (c : Chain) (bs : List Block) :
    SameConfig c (c.feed env verifySig bs) := by
  induction bs generalizing c with
  | nil => exact SameConfig.refl c
  | cons b bs ih => exact (offerConfig env verifySig c b).trans (ih _)

/- A store that has grown: old blocks are found where they were, at the weight
they had. -/
structure Grows (c d : Chain) : Prop where
  config : SameConfig c d
  blocks : ∀ h b, c.getByHash h = some b → d.getByHash h = some b
  weights : ∀ h b, c.getByHash h = some b → d.td h = c.td h
  size : c.blocks.entries.length ≤ d.blocks.entries.length

theorem Grows.refl (c : Chain) : Grows c c :=
  ⟨SameConfig.refl c,fun _ _ found => found,fun _ _ _ => rfl,Nat.le_refl _⟩

theorem Grows.trans {a b c : Chain} (ab : Grows a b) (bc : Grows b c) : Grows a c :=
  ⟨ab.config.trans bc.config,fun h x found => bc.blocks h x (ab.blocks h x found),
    fun h x found => (bc.weights h x (ab.blocks h x found)).trans (ab.weights h x found),
    Nat.le_trans ab.size bc.size⟩

theorem commitFound (fresh : c.getByHash (b.hash env.sha) = none) (h : Hash) (x : Block) :
    (c.commit env b st w).getByHash h = some x ↔ c.getByHash h = some x ∨ (h = b.hash env.sha ∧ x = b) := by
  simp only [Chain.getByHash,Chain.commitBlocks] at fresh ⊢
  by_cases same : h = b.hash env.sha
  · subst same
    simp [fresh,eq_comm]
  · rw [AList.lookup_insert_ne same]
    simp [same]

theorem commitSize (fresh : c.getByHash (b.hash env.sha) = none) :
    (c.commit env b st w).blocks.entries.length = c.blocks.entries.length + 1 := by
  have absent : b.hash env.sha ∉ c.blocks := AList.lookup_eq_none.mp fresh
  rw [Chain.commitBlocks,AList.entries_insert_of_notMem absent,List.length_cons]

theorem commitGrows (fresh : c.getByHash (b.hash env.sha) = none) : Grows c (c.commit env b st w) where
  config := commitConfig env c b st w
  blocks h x found := (commitFound fresh h x).mpr (.inl found)
  weights h x found := by
    have different : h ≠ b.hash env.sha := by
      intro same
      rw [same,fresh] at found
      contradiction
    simp [put,different]
  size := by
    rw [commitSize fresh]
    exact Nat.le_succ _

theorem offerGrows (env : Env E) (verifySig : VerifySig) (c : Chain) (b : Block) :
    Grows c (c.offer env verifySig b) := by
  rcases offerCases env verifySig c b with ⟨same,_⟩ | ⟨st,w,a,same⟩
  · rw [same]
    exact Grows.refl c
  · rw [same]
    exact commitGrows a.fresh

theorem feedGrows (env : Env E) (verifySig : VerifySig) (c : Chain) (bs : List Block) :
    Grows c (c.feed env verifySig bs) := by
  induction bs generalizing c with
  | nil => exact Grows.refl c
  | cons b bs ih => exact (offerGrows env verifySig c b).trans (ih _)

abbrev Chain.Path (c : Chain) : Hash → List Block → Prop :=
  Forest.Path c.getByHash c.genesisHash Chain.prev

abbrev Chain.Rooted (c : Chain) : Prop :=
  Forest.Rooted c.getByHash c.genesisHash Chain.prev c.blocks.entries.length

theorem ancestryPath {h : Hash} {p : List Block} (rooted : c.Rooted) :
    c.ancestry h = some p ↔ c.Path h p := by
  constructor
  · exact Forest.climbPath
  · intro path
    obtain ⟨b,_,_,found⟩ := Forest.pathHead path
    obtain ⟨q,climbed,path'⟩ := Forest.rootedClimb rooted found
    rw [Forest.pathUnique path path']
    exact climbed

theorem growsPath {d : Chain} {h : Hash} {p : List Block} (grows : Grows c d) (path : c.Path h p) : d.Path h p := by
  unfold Chain.Path
  rw [grows.config.genesisHash]
  exact Forest.pathMono grows.blocks path

theorem growsAncestry {d : Chain} {h : Hash} {x : Block} (rooted : c.Rooted) (grows : Grows c d)
    (found : c.getByHash h = some x) : d.ancestry h = c.ancestry h := by
  obtain ⟨p,path,fits⟩ := rooted h x found
  rw [(ancestryPath rooted).mpr path]
  exact Forest.pathClimb (growsPath grows path) (Nat.le_trans fits grows.size)

theorem growsDerive {d : Chain} {h : Hash} {x : Block} (rooted : c.Rooted) (grows : Grows c d)
    (found : c.getByHash h = some x) : d.deriveState env verifySig h = c.deriveState env verifySig h := by
  simp only [Chain.deriveState,Chain.chainTo,growsAncestry rooted grows found,Chain.fundGenesis,
    grows.config.exchangeMode,grows.config.genesisAlloc,grows.config.genesisBaseAlloc]

def weightOf : Consensus → Block → UInt64
  | .pow, b => b.header.difficulty.toUInt64
  | .pos _, _ => 1

theorem consensusWeight (ok : c.checkConsensus env b = .ok w) : w = weightOf c.consensus b := by
  unfold Chain.checkConsensus at ok
  cases mode : c.consensus with
  | pow =>
    simp only [mode] at ok
    split at ok
    · cases ok
      rfl
    · contradiction
  | pos vs =>
    simp only [mode,bindOk] at ok
    obtain ⟨_,_,_,_,last⟩ := ok
    cases last
    rfl

def SignedBy (env : Env E) (vs : Pos.ValidatorSet) (chainID : UInt64) (b : Block) : Prop :=
  ∃ v ∈ vs.validators, v.address = b.header.coinbase ∧
    Pos.verify env.blst v.blsPubKey (Hash.bytes (b.header.signingHash env.sha)) b.header.proposerSig
      (Pos.dst chainID) = true

theorem proposerMember {vs : Pos.ValidatorSet} {jailed : Address → Bool} {v : Pos.ValidatorInfo}
    (ok : proposerFor env vs jailed b = .ok v) : v ∈ vs.validators :=
  (List.mem_filter.mp (Pos.selectedMember ok)).1

theorem checkProposerOk {vs : Pos.ValidatorSet} {chainID : UInt64} {jailed : Address → Bool} :
    checkProposer env vs chainID jailed b = .ok () ↔
      (∃ v, proposerFor env vs jailed b = .ok v ∧ v.address = b.header.coinbase) ∧ SignedBy env vs chainID b := by
  unfold checkProposer
  cases chosen : proposerFor env vs jailed b with
  | error e => simp
  | ok v =>
    have member := proposerMember chosen
    simp only [Except.ok.injEq,exists_eq_left']
    split
    · rename_i other
      simp [Ne.symm other]
    · rename_i own
      simp only [ne_eq,not_not] at own
      have only : SignedBy env vs chainID b ↔ Pos.verify env.blst v.blsPubKey
          (Hash.bytes (b.header.signingHash env.sha)) b.header.proposerSig (Pos.dst chainID) = true := by
        constructor
        · rintro ⟨w,valid,address,signed⟩
          rw [Pos.memberOfAddress member valid (own.symm.trans address.symm)]
          exact signed
        · intro signed
          exact ⟨v,member,own.symm,signed⟩
      rw [only]
      split
      · rename_i unsigned
        simp [unsigned]
      · rename_i signed
        simp only [not_not] at signed
        simp [signed,own]

/- What stays true of a stored block other than genesis: every check of AddBlock
that reads only its ancestors and the configuration. -/
structure Linked (env : Env E) (verifySig : VerifySig) (c : Chain) (b : Block) : Prop where
  parent : ∃ p, c.getByHash b.header.prevHash = some p ∧ b.header.height = p.header.height + 1 ∧
    b.header.baseFee = c.nextBaseFeeOf p
  work : c.consensus = .pow → meetsTarget (b.hash env.sha) b.header.difficulty
  stake : ∀ vs, c.consensus = .pos vs → SignedBy env vs c.chainID b ∧ verifyAttestations env vs c.chainID b = .ok ()
  txRoot : b.txRoot env.sha = b.header.merkleRoot
  chainID : ∀ tx ∈ b.txs, tx.chainID = c.chainID
  derived : ∃ before st, c.deriveState env verifySig b.header.prevHash = .ok before ∧
    applyBlockRewarded env verifySig c.exchangeMode before b = .ok (st,b.header.gasUsed) ∧
    env.stateRoot st = b.header.stateRoot
  gas : b.header.gasUsed ≤ c.gasLimit
  weight : c.td (b.hash env.sha) = c.td b.header.prevHash + weightOf c.consensus b

structure Sound (env : Env E) (verifySig : VerifySig) (c : Chain) : Prop where
  keyed : ∀ h b, c.getByHash h = some b → b.hash env.sha = h
  genesis : ∃ g, c.getByHash c.genesisHash = some g ∧ g.header.height = 0
  rooted : c.Rooted
  linked : ∀ h b, c.getByHash h = some b → h ≠ c.genesisHash → Linked env verifySig c b
  headStored : ∃ b, c.getByHash c.head = some b
  headState : c.deriveState env verifySig c.head = .ok c.headState
  heaviest : ∀ h b, c.getByHash h = some b → c.td h ≤ c.td c.head
  ahead : ∀ p, c.Path c.head p → ∀ b ∈ p.tail, c.td (b.hash env.sha) < c.td c.head

theorem commitPath {older : List Block} (s : Sound env verifySig c) (fresh : c.getByHash (b.hash env.sha) = none)
    (path : c.Path b.header.prevHash older) : (c.commit env b st w).Path (b.hash env.sha) (b::older) := by
  refine .step ((commitFound fresh _ _).mpr (.inr ⟨rfl,rfl⟩)) ?_ (growsPath (commitGrows fresh) path)
  obtain ⟨g,genesis,_⟩ := s.genesis
  rw [(commitConfig env c b st w).genesisHash]
  intro same
  rw [← same,fresh] at genesis
  contradiction

theorem growsLinked {d : Chain} (rooted : c.Rooted) (grows : Grows c d)
    (own : c.getByHash (b.hash env.sha) = some b) (l : Linked env verifySig c b) : Linked env verifySig d b := by
  obtain ⟨p,found,height,fee⟩ := l.parent
  refine ⟨⟨p,grows.blocks _ _ found,height,?_⟩,?_,?_,l.txRoot,?_,?_,?_,?_⟩
  · simpa only [Chain.nextBaseFeeOf,grows.config.gasLimit] using fee
  · rw [grows.config.consensus]
    exact l.work
  · rw [grows.config.consensus,grows.config.chainID]
    exact l.stake
  · rw [grows.config.chainID]
    exact l.chainID
  · rw [growsDerive rooted grows found,grows.config.exchangeMode]
    exact l.derived
  · rw [grows.config.gasLimit]
    exact l.gas
  · rw [grows.weights _ _ own,grows.weights _ _ found,grows.config.consensus]
    exact l.weight

theorem replayAppend {mode : Exchange.Mode} {xs ys : List Block} {s : MptState} :
    replay env verifySig mode s (xs ++ ys) =
      (replay env verifySig mode s xs >>= fun s => replay env verifySig mode s ys) := by
  induction xs generalizing s with
  | nil => rfl
  | cons x xs ih =>
    simp only [List.cons_append,replay]
    cases applied : applyBlockRewarded env verifySig mode s x with
    | error e => rfl
    | ok pair =>
      simp only [bind,Except.bind]
      exact ih

theorem deriveStep {h : Hash} (rooted : c.Rooted) (found : c.getByHash h = some b) (notRoot : h ≠ c.genesisHash)
    (parent : ∃ p, c.getByHash b.header.prevHash = some p) :
    c.deriveState env verifySig h = (c.deriveState env verifySig b.header.prevHash >>= fun s =>
      liftTx ((applyBlockRewarded env verifySig c.exchangeMode s b).map (·.1))) := by
  obtain ⟨p,stored⟩ := parent
  obtain ⟨q,path,_⟩ := rooted _ p stored
  have own : c.Path h (b::q) := .step found notRoot path
  obtain ⟨x,q',shape,_⟩ := Forest.pathHead path
  have tail : (b::q).reverse.tail = q.reverse.tail ++ [b] := by
    rw [List.reverse_cons,List.tail_append_of_ne_nil]
    simp [shape]
  simp only [Chain.deriveState,Chain.chainTo,(ancestryPath rooted).mpr own,(ancestryPath rooted).mpr path,
    Option.map_some,tail,replayAppend]
  cases before : replay env verifySig c.exchangeMode c.fundGenesis q.reverse.tail with
  | error e => rfl
  | ok s =>
    cases applied : applyBlockRewarded env verifySig c.exchangeMode s b with
    | error e => simp [bind,Except.bind,liftTx,replay,applied,Except.map]
    | ok pair => simp [bind,Except.bind,liftTx,replay,applied,Except.map]

theorem commitRooted (rooted : c.Rooted) (genesis : ∃ g, c.getByHash c.genesisHash = some g)
    (fresh : c.getByHash (b.hash env.sha) = none) (parent : ∃ p, c.getByHash b.header.prevHash = some p) :
    (c.commit env b st w).Rooted := by
  have config := commitConfig env c b st w
  have notRoot : b.hash env.sha ≠ c.genesisHash := by
    intro same
    obtain ⟨g,found⟩ := genesis
    rw [same,found] at fresh
    contradiction
  unfold Chain.Rooted
  rw [config.genesisHash,commitSize fresh]
  refine Forest.rootedGrow rooted (Nat.lt_succ_self _) notRoot ?_ ?_ ?_ parent
  · exact fun h x found => (commitFound fresh h x).mpr (.inl found)
  · exact fun h x found => (commitFound fresh h x).mp found
  · exact (commitFound fresh _ _).mpr (.inr ⟨rfl,rfl⟩)

theorem acceptedLinked (rooted : c.Rooted) (a : Accepted env verifySig c b st w) :
    Linked env verifySig (c.commit env b st w) b := by
  have grows : Grows c (c.commit env b st w) := commitGrows a.fresh
  obtain ⟨p,found,height,fee⟩ := a.parent
  obtain ⟨before,derived,applied⟩ := a.derived
  refine ⟨⟨p,grows.blocks _ _ found,height,?_⟩,?_,?_,a.txRoot,?_,⟨before,st,?_,?_,a.root⟩,?_,?_⟩
  · simpa only [Chain.nextBaseFeeOf,grows.config.gasLimit] using fee
  · intro mode
    rw [grows.config.consensus] at mode
    have work := a.consensus
    simp only [Chain.checkConsensus,mode] at work
    split at work
    · assumption
    · contradiction
  · intro vs mode
    rw [grows.config.consensus] at mode
    have checked := a.consensus
    simp only [Chain.checkConsensus,mode,bindOk] at checked
    obtain ⟨_,proposer,_,votes,_⟩ := checked
    rw [grows.config.chainID]
    exact ⟨(checkProposerOk.mp proposer).2,votes⟩
  · rw [grows.config.chainID]
    exact assertChainIDOk.mp a.chainID
  · rw [growsDerive rooted grows found]
    exact derived
  · rw [grows.config.exchangeMode]
    exact applied
  · rw [grows.config.gasLimit]
    exact a.gas
  · rw [grows.weights _ _ found,Chain.commitTd,grows.config.consensus,consensusWeight a.consensus]
    simp [put]

theorem parentNotOwn (fresh : c.getByHash (b.hash env.sha) = none) {p : Block} {h : Hash}
    (found : c.getByHash h = some p) : h ≠ b.hash env.sha := by
  intro same
  rw [same,fresh] at found
  contradiction

theorem acceptedDerive (s : Sound env verifySig c) (a : Accepted env verifySig c b st w) :
    (c.commit env b st w).deriveState env verifySig (b.hash env.sha) = .ok st := by
  have grows : Grows c (c.commit env b st w) := commitGrows a.fresh
  obtain ⟨g,genesis,_⟩ := s.genesis
  obtain ⟨p,found,_,_⟩ := a.parent
  obtain ⟨before,derived,applied⟩ := a.derived
  have rooted : (c.commit env b st w).Rooted := commitRooted s.rooted ⟨g,genesis⟩ a.fresh ⟨p,found⟩
  have own : (c.commit env b st w).getByHash (b.hash env.sha) = some b := (commitFound a.fresh _ _).mpr (.inr ⟨rfl,rfl⟩)
  have notRoot : b.hash env.sha ≠ (c.commit env b st w).genesisHash := by
    rw [grows.config.genesisHash]
    exact (parentNotOwn a.fresh genesis).symm
  rw [deriveStep rooted own notRoot ⟨p,grows.blocks _ _ found⟩,growsDerive s.rooted grows found,derived,
    grows.config.exchangeMode]
  simp [bind,Except.bind,applied,Except.map,liftTx]

theorem outweighsIff (stored : ∃ x, c.getByHash c.head = some x) (fresh : c.getByHash (b.hash env.sha) = none) :
    c.outweighs env b w ↔ c.td b.header.prevHash + w > c.td c.head := by
  obtain ⟨x,found⟩ := stored
  simp only [Chain.outweighs,put,if_neg (parentNotOwn fresh found)]

theorem commitHeaviest (s : Sound env verifySig c) (a : Accepted env verifySig c b st w) :
    ∀ h x, (c.commit env b st w).getByHash h = some x →
      (c.commit env b st w).td h ≤ (c.commit env b st w).td (c.commit env b st w).head := by
  intro h x found
  obtain ⟨y,headFound⟩ := s.headStored
  have other := parentNotOwn a.fresh headFound
  simp only [Chain.commitTd,Chain.commitHead]
  rcases (commitFound a.fresh h x).mp found with old | ⟨same,_⟩
  · have different := parentNotOwn a.fresh old
    have below := s.heaviest h x old
    split
    · rename_i heavier
      have more := (outweighsIff s.headStored a.fresh).mp heavier
      simp only [put,if_neg different,if_true]
      exact UInt64.le_trans below (UInt64.le_of_lt more)
    · simpa only [put,if_neg different,if_neg other] using below
  · subst same
    split
    · exact UInt64.le_refl _
    · rename_i lighter
      rw [outweighsIff s.headStored a.fresh] at lighter
      simpa only [put,if_true,if_neg other] using UInt64.not_lt.mp lighter

theorem commitAhead (s : Sound env verifySig c) (a : Accepted env verifySig c b st w) :
    ∀ p, (c.commit env b st w).Path (c.commit env b st w).head p →
      ∀ x ∈ p.tail, (c.commit env b st w).td (x.hash env.sha) <
        (c.commit env b st w).td (c.commit env b st w).head := by
  intro p path x member
  have grows : Grows c (c.commit env b st w) := commitGrows a.fresh
  obtain ⟨y,headFound⟩ := s.headStored
  have other := parentNotOwn a.fresh headFound
  rw [Chain.commitHead] at path ⊢
  split at path
  · -- the new block is the head: its ancestors are old, and the old head was heaviest
    rename_i heavier
    obtain ⟨q,found,_,_⟩ := a.parent
    obtain ⟨older,below,_⟩ := s.rooted _ q found
    have own : (c.commit env b st w).Path (b.hash env.sha) (b::older) := by
      refine .step ((commitFound a.fresh _ _).mpr (.inr ⟨rfl,rfl⟩)) ?_ (growsPath grows below)
      obtain ⟨g,genesis,_⟩ := s.genesis
      rw [grows.config.genesisHash]
      exact (parentNotOwn a.fresh genesis).symm
    rw [Forest.pathUnique path own,List.tail_cons] at member
    obtain ⟨key,stored⟩ := Forest.pathStored below x member
    rw [s.keyed key x stored,if_pos heavier,Chain.commitTd]
    have more := (outweighsIff s.headStored a.fresh).mp heavier
    simp only [put,if_neg (parentNotOwn a.fresh stored),if_true]
    exact UInt64.lt_of_le_of_lt (s.heaviest key x stored) more
  · rename_i lighter
    obtain ⟨older,below,_⟩ := s.rooted _ y headFound
    rw [Forest.pathUnique path (growsPath grows below)] at member
    obtain ⟨key,stored⟩ := Forest.pathStored below x (List.mem_of_mem_tail member)
    have before := s.ahead older below x member
    rw [s.keyed key x stored] at before ⊢
    rw [if_neg lighter,grows.weights _ _ stored,grows.weights _ _ headFound]
    exact before

theorem commitSound (s : Sound env verifySig c) (a : Accepted env verifySig c b st w) :
    Sound env verifySig (c.commit env b st w) := by
  have grows : Grows c (c.commit env b st w) := commitGrows a.fresh
  obtain ⟨g,genesis,zero⟩ := s.genesis
  obtain ⟨p,found,_,_⟩ := a.parent
  refine ⟨?_,?_,commitRooted s.rooted ⟨g,genesis⟩ a.fresh ⟨p,found⟩,?_,?_,?_,commitHeaviest s a,commitAhead s a⟩
  · intro h x stored
    rcases (commitFound a.fresh h x).mp stored with old | ⟨same,new⟩
    · exact s.keyed h x old
    · rw [same,new]
  · exact ⟨g,by rw [grows.config.genesisHash]; exact grows.blocks _ _ genesis,zero⟩
  · intro h x stored below
    rw [grows.config.genesisHash] at below
    rcases (commitFound a.fresh h x).mp stored with old | ⟨_,new⟩
    · have own : c.getByHash (x.hash env.sha) = some x := by
        rw [s.keyed h x old]
        exact old
      exact growsLinked s.rooted grows own (s.linked h x old below)
    · subst new
      exact acceptedLinked s.rooted a
  · obtain ⟨y,headFound⟩ := s.headStored
    rw [Chain.commitHead]
    split
    · exact ⟨b,(commitFound a.fresh _ _).mpr (.inr ⟨rfl,rfl⟩)⟩
    · exact ⟨y,grows.blocks _ _ headFound⟩
  · rw [Chain.commitHead,Chain.commitHeadState]
    split
    · exact acceptedDerive s a
    · obtain ⟨y,headFound⟩ := s.headStored
      rw [growsDerive s.rooted grows headFound]
      exact s.headState

theorem offerSound (s : Sound env verifySig c) : Sound env verifySig (c.offer env verifySig b) := by
  rcases offerCases env verifySig c b with ⟨same,_⟩ | ⟨st,w,a,same⟩
  · rw [same]
    exact s
  · rw [same]
    exact commitSound s a

theorem feedSnoc (env : Env E) (verifySig : VerifySig) (c : Chain) (bs : List Block) (b : Block) :
    c.feed env verifySig (bs ++ [b]) = (c.feed env verifySig bs).offer env verifySig b := by
  simp [Chain.feed]

theorem feedSound {bs : List Block} (s : Sound env verifySig c) : Sound env verifySig (c.feed env verifySig bs) :=
  invariant (Sound env verifySig) (fun _ _ sound _ => offerSound sound) s (alongOfMem (fun _ => True) (fun _ _ => trivial))

structure Setup where
  genesis : Genesis
  chainID : UInt64
  gasLimit : UInt64
  exchangeMode : Exchange.Mode
  consensus : Consensus

def Setup.chain (env : Env E) (s : Setup) : Chain :=
  ((((s.genesis.chain env).setChainID s.chainID).setGasLimit s.gasLimit).setExchangeMode s.exchangeMode).setConsensusMode
    s.consensus

theorem singletonLookup (k h : Hash) (x : Block) :
    (AList.singleton k x : AList (fun _ : Hash => Block)).lookup h = if h = k then some x else none := by
  split
  · rename_i same
    subst same
    exact AList.lookup_insert ∅
  · rename_i different
    rw [AList.lookup_eq_none,AList.mem_keys,AList.keys_singleton,List.mem_singleton]
    exact different

theorem setupFound (env : Env E) (setup : Setup) (h : Hash) : (setup.chain env).getByHash h =
    if h = (setup.chain env).genesisHash then some (setup.genesis.toBlock env) else none :=
  singletonLookup _ h _

theorem setupRoot (env : Env E) (setup : Setup) :
    (setup.chain env).getByHash (setup.chain env).genesisHash = some (setup.genesis.toBlock env) :=
  (setupFound env setup _).trans (if_pos rfl)

theorem setupStart (env : Env E) (setup : Setup) :
    (setup.chain env).Path (setup.chain env).genesisHash [setup.genesis.toBlock env] := .root (setupRoot env setup)

theorem setupOnly {setup : Setup} {h : Hash} {x : Block} (found : (setup.chain env).getByHash h = some x) :
    h = (setup.chain env).genesisHash ∧ x = setup.genesis.toBlock env := by
  rw [setupFound] at found
  split at found
  · rename_i same
    exact ⟨same,(Option.some.inj found).symm⟩
  · cases found

theorem setupGenesis {setup : Setup} (grows : Grows (setup.chain env) c) :
    c.getByHash c.genesisHash = some (setup.genesis.toBlock env) := by
  rw [grows.config.genesisHash]
  exact grows.blocks _ _ (setupRoot env setup)

theorem setupStored {setup : Setup} {x : Block} (grows : Grows (setup.chain env) c)
    (found : c.getByHash c.genesisHash = some x) : x = setup.genesis.toBlock env :=
  (Option.some.inj ((setupGenesis grows).symm.trans found)).symm

theorem setupPath {setup : Setup} {p : List Block} (path : (setup.chain env).Path (setup.chain env).head p) :
    p = [setup.genesis.toBlock env] := Forest.pathUnique path (setupStart env setup)

theorem setupSound (setup : Setup) : Sound env verifySig (setup.chain env) := by
  have look := setupFound env setup
  have own := setupRoot env setup
  have rooted : (setup.chain env).Rooted := by
    have same : (setup.chain env).getByHash = fun h =>
        if h = (setup.chain env).genesisHash then some (setup.genesis.toBlock env) else none := funext look
    unfold Chain.Rooted
    rw [same]
    exact Forest.rootedSingle
  refine ⟨?_,⟨_,own,rfl⟩,rooted,?_,⟨_,own⟩,?_,?_,?_⟩
  · intro h b found
    obtain ⟨rfl,rfl⟩ := setupOnly found
    rfl
  · intro h b found below
    exact absurd (setupOnly found).1 below
  · have path : (setup.chain env).Path (setup.chain env).head [setup.genesis.toBlock env] := .root own
    simp only [Chain.deriveState,Chain.chainTo,(ancestryPath rooted).mpr path]
    rfl
  · intro h b found
    rw [(setupOnly found).1]
    exact UInt64.le_refl _
  · intro p path b member
    rw [setupPath path] at member
    contradiction

theorem reachedSound (setup : Setup) (bs : List Block) :
    Sound env verifySig ((setup.chain env).feed env verifySig bs) := feedSound (setupSound setup)

end L1Chain
