import L1Chain.ForkChoice

/-! MaybeAttest, and what a validator's node signs over a whole run. MaybeAttest takes the
lock three times: to read the head, inside SubmitTx and to record the height. Whatever else
the node does may come in between; two calls of it do not overlap. The head only moves to a
heavier block, so no parent is built on twice, and the recorded height only rises. -/
namespace L1Chain
open Transition Runs

inductive AttestCall where
  | idle
  | built (height : UInt64) (tx : Transaction)
  | admitted (height : UInt64)

structure Validator where
  node : Node
  lastAttestedHeight : UInt64
  attest : AttestCall

inductive Event where
  | call (op : Op)
  | attest

-- `wallet.Key.Sign`; `ecdsa` is SignCompact under the miner's key.
def Transaction.sign (sha : Bytes → Hash) (ecdsa : Hash → Bytes) (miner : Address) (tx : Transaction) : Transaction :=
  let tx := {tx with sender := miner}
  {tx with signature := ecdsa (tx.signingHash sha)}

def Node.attestation (sha : Bytes → Hash) (ecdsa : Hash → Bytes) (n : Node) (last : UInt64) :
    Option (UInt64 × Transaction) :=
  match n.chain.consensus,n.validatorKey with
  | .pos _,some key =>
    let nonce := (n.projectSender n.miner).1
    let head := n.chain.headD
    let height := head.header.height
    if height = 0 ∨ height % Pos.checkpointInterval ≠ 0 ∨ height ≤ last then none
    else
      let targetHash := head.hash sha
      let blsSig := key (Hash.bytes targetHash) (Pos.dst n.chainID)
      let tx : Transaction :=
        { sender := 0, recipient := Pos.attestAddress, value := 0, nonce := nonce, gasLimit := 0, chainID := n.chainID
          gasFeeCap := 0, gasTipCap := 0, data := Pos.encodeAttest ⟨height,targetHash,blsSig⟩, signature := [] }
      some (height,tx.sign sha ecdsa n.miner)
  | _,_ => none

section
variable {E : Type} (env : Env E) (verifySig : VerifySig) (ecdsa : Hash → Bytes)

def Validator.step (v : Validator) : Event → Validator
  | .call op => {v with node := v.node.step env verifySig op}
  | .attest =>
    match v.attest with
    | .idle =>
      match v.node.attestation env.sha ecdsa v.lastAttestedHeight with
      | none => v
      | some (height,tx) => {v with attest := .built height tx}
    | .built height tx =>
      match v.node.submitTx verifySig tx with
      | (.error _,n) => {v with node := n, attest := .idle}
      | (.ok (),n) => {v with node := n, attest := .admitted height}
    | .admitted height => {v with lastAttestedHeight := height, attest := .idle}

def Validator.proposal (v : Validator) : Event → Option Block
  | .call (.proposeBlock now) =>
    match v.node.proposeBlock env verifySig now with
    | (.ok b,_) => some b
    | (.error _,_) => none
  | _ => none

def Validator.admission (v : Validator) : Event → Option Transaction
  | .attest =>
    match v.attest with
    | .built _ tx =>
      match v.node.submitTx verifySig tx with
      | (.ok (),_) => some tx
      | (.error _,_) => none
    | _ => none
  | _ => none

def Validator.proposals (v : Validator) (events : List Event) : List Block :=
  collect (Validator.step env verifySig ecdsa) (Validator.proposal env verifySig) v events

def Validator.admissions (v : Validator) (events : List Event) : List Transaction :=
  collect (Validator.step env verifySig ecdsa) (Validator.admission verifySig) v events

end

section
variable {E : Type} {env : Env E} {verifySig : VerifySig} {ecdsa : Hash → Bytes} {v : Validator} {e : Event} {c : Chain}
  {setup : Setup}

theorem eventChain (env : Env E) (verifySig : VerifySig) (ecdsa : Hash → Bytes) (v : Validator) (e : Event) :
    (v.step env verifySig ecdsa e).node.chain = v.node.chain ∨
      ∃ b, v.node.chain.addBlock env verifySig b = .ok (v.step env verifySig ecdsa e).node.chain := by
  cases e with
  | call op =>
    rcases stepChain env verifySig v.node op with ⟨same,_⟩ | ⟨b,c',added,same,_⟩
    · exact .inl same
    · refine .inr ⟨b,?_⟩
      rw [added,← same]
      rfl
  | attest =>
    refine .inl ?_
    unfold Validator.step
    dsimp only
    split
    · split <;> rfl
    · rename_i height tx _
      have kept : (v.node.submitTx verifySig tx).2.chain = v.node.chain := by
        rcases submitTxCases verifySig v.node tx with same | ⟨_,same⟩ <;> rw [same]
        rfl
      split
      · rename_i n submitted
        rw [submitted] at kept
        exact kept
      · rename_i n submitted
        rw [submitted] at kept
        exact kept
    · rfl

theorem eventSize (env : Env E) (verifySig : VerifySig) (ecdsa : Hash → Bytes) (v : Validator) (e : Event) :
    v.node.chain.blocks.entries.length ≤ (v.step env verifySig ecdsa e).node.chain.blocks.entries.length := by
  rcases eventChain env verifySig ecdsa v e with same | ⟨b,added⟩
  · rw [same]
  · obtain ⟨st,w,a,grown⟩ := addBlockOk.mp added
    rw [grown]
    exact (commitGrows a.fresh).size

structure Started (env : Env E) (verifySig : VerifySig) (setup : Setup) (c : Chain) : Prop where
  sound : Sound env verifySig c
  grows : Grows (setup.chain env) c

theorem addStarted {b : Block} {c' : Chain} (started : Started env verifySig setup c)
    (added : c.addBlock env verifySig b = .ok c') : Started env verifySig setup c' ∧ Grows c c' := by
  obtain ⟨st,w,a,rfl⟩ := addBlockOk.mp added
  have grows : Grows c (c.commit env b st w) := commitGrows a.fresh
  exact ⟨⟨commitSound started.sound a,started.grows.trans grows⟩,grows⟩

theorem eventStarted (started : Started env verifySig setup v.node.chain) :
    Started env verifySig setup (v.step env verifySig ecdsa e).node.chain ∧
      Grows v.node.chain (v.step env verifySig ecdsa e).node.chain := by
  rcases eventChain env verifySig ecdsa v e with same | ⟨b,added⟩
  · rw [same]
    exact ⟨started,Grows.refl _⟩
  · exact addStarted started added

theorem growsHead {d : Chain} {h : Hash} {x : Block} (s : Sound env verifySig d) (grows : Grows c d)
    (found : c.getByHash h = some x) : c.td h ≤ d.td d.head := by
  rw [← grows.weights h x found]
  exact s.heaviest h x (grows.blocks h x found)

def Passed (c : Chain) (b : Block) : Prop :=
  ∃ x, c.getByHash b.header.prevHash = some x ∧ c.td b.header.prevHash < c.td c.head

theorem passedStays {d : Chain} {b : Block} (s : Sound env verifySig c) (s' : Sound env verifySig d) (grows : Grows c d)
    (passed : Passed c b) : Passed d b := by
  obtain ⟨x,found,less⟩ := passed
  obtain ⟨y,head⟩ := s.headStored
  refine ⟨x,grows.blocks _ _ found,?_⟩
  rw [grows.weights _ _ found]
  exact UInt64.lt_of_lt_of_le less (growsHead s' grows head)

theorem ownParent {n : Node} {b : Block} (s : Sound env verifySig n.chain) (own : Own env n b) :
    b.header.prevHash = n.chain.head := by
  obtain ⟨root,gasUsed,built⟩ := own.built
  exact built.prevHash.trans (s.keyed _ _ (headFound s))

theorem proposalOk {b : Block} (proposed : v.proposal env verifySig e = some b) :
    (∃ vs, v.node.chain.consensus = .pos vs) ∧ Own env v.node b ∧
      v.node.chain.addBlock env verifySig b = .ok (v.step env verifySig ecdsa e).node.chain := by
  unfold Validator.proposal at proposed
  split at proposed
  · rename_i now
    cases made : v.node.proposeBlock env verifySig now with
    | mk result n =>
      rw [made] at proposed
      cases result with
      | error err => cases proposed
      | ok b' =>
        cases Option.some.inj proposed
        have node : (v.step env verifySig ecdsa (.call (.proposeBlock now))).node = n := by
          simp only [Validator.step,Node.step,made]
        rw [node]
        obtain ⟨mode,own,added,_⟩ := proposeBlockOk made
        exact ⟨mode,own,added⟩
  · cases proposed

theorem proposalPassed {b : Block} (started : Started env verifySig setup v.node.chain)
    (fits : (v.step env verifySig ecdsa e).node.chain.FitsMap) (proposed : v.proposal env verifySig e = some b) :
    Passed (v.step env verifySig ecdsa e).node.chain b := by
  obtain ⟨⟨vs,pos⟩,own,added⟩ := @proposalOk _ env verifySig ecdsa v e b proposed
  obtain ⟨after,grows⟩ := addStarted started added
  obtain ⟨st,w,a,same⟩ := addBlockOk.mp added
  have stored : (v.step env verifySig ecdsa e).node.chain.getByHash (b.hash env.sha) = some b := by
    rw [same]
    exact (commitFound a.fresh _ _).mpr (.inr ⟨rfl,rfl⟩)
  have below : b.hash env.sha ≠ (v.step env verifySig ecdsa e).node.chain.genesisHash := by
    obtain ⟨g,genesis,_⟩ := started.sound.genesis
    rw [grows.config.genesisHash]
    exact (parentNotOwn a.fresh genesis).symm
  obtain ⟨p,parent,_⟩ := a.parent
  have mode := grows.config.consensus.trans pos
  have weight := weightNat after.sound (unwrappedPos after.sound fits mode) (rootWeight after.grows) stored below
  have top := after.sound.heaviest _ _ stored
  refine ⟨p,grows.blocks _ _ parent,?_⟩
  rw [mode,weightOf,UInt64.toNat_one] at weight
  rw [UInt64.le_iff_toNat_le] at top
  rw [UInt64.lt_iff_toNat_lt]
  omega

theorem proposalsMarking : Marking (Validator.step env verifySig ecdsa) (Validator.proposal env verifySig)
    (fun v e => (v.step env verifySig ecdsa e).node.chain.FitsMap) (fun v => Started env verifySig setup v.node.chain)
    (fun v b => Passed v.node.chain b) (fun b b' => b.header.prevHash ≠ b'.header.prevHash) where
  keep v e started _ := (eventStarted started).1
  left v e b started fits proposed := proposalPassed started fits proposed
  stays v e b started _ passed := by
    obtain ⟨after,grows⟩ := @eventStarted _ env verifySig ecdsa v e setup started
    exact passedStays started.sound after.sound grows passed
  related v e b b' started passed proposed := by
    obtain ⟨_,own,_⟩ := @proposalOk _ env verifySig ecdsa v e b' proposed
    obtain ⟨x,_,less⟩ := passed
    intro same
    rw [same,ownParent started.sound own] at less
    exact UInt64.lt_irrefl _ less

def voteRound (tx : Transaction) : Option UInt64 :=
  match Pos.decodeAttest tx.data with
  | .ok a => some (Pos.checkpointRound a.targetHeight)
  | .error _ => none

def VotesAt (tx : Transaction) (height : UInt64) : Prop :=
  height % Pos.checkpointInterval = 0 ∧ voteRound tx = some (Pos.checkpointRound height)

def Validator.voted (v : Validator) : UInt64 :=
  match v.attest with
  | .admitted height => height
  | _ => v.lastAttestedHeight

def Validator.Ready (v : Validator) : Prop :=
  match v.attest with
  | .built height tx => v.lastAttestedHeight < height ∧ VotesAt tx height
  | _ => True

theorem attestationReady {n : Node} {last height : UInt64} {tx : Transaction}
    (built : n.attestation env.sha ecdsa last = some (height,tx)) : last < height ∧ VotesAt tx height := by
  unfold Node.attestation at built
  split at built
  · rename_i vs key _ _
    dsimp only at built
    split at built
    · cases built
    · rename_i checked
      simp only [not_or,ne_eq,not_not,UInt64.not_le] at checked
      cases Option.some.inj built
      obtain ⟨padded,decoded⟩ := Pos.decodePadded n.chain.headD.header.height (n.chain.headD.hash env.sha)
        (key (Hash.bytes (n.chain.headD.hash env.sha)) (Pos.dst n.chainID))
      refine ⟨checked.2.2,checked.2.1,?_⟩
      simp only [voteRound,Transaction.sign,decoded]
  · cases built

theorem roundsRise {low high : UInt64} {tx tx' : Transaction} (less : low < high) (votes : VotesAt tx low)
    (votes' : VotesAt tx' high) : voteRound tx ≠ voteRound tx' := by
  intro same
  rw [votes.2,votes'.2] at same
  have rounds := congrArg UInt64.toNat (Option.some.inj same)
  have low' := congrArg UInt64.toNat votes.1
  have high' := congrArg UInt64.toNat votes'.1
  rw [UInt64.lt_iff_toNat_lt] at less
  simp only [Pos.checkpointRound,Pos.checkpointInterval,UInt64.toNat_div,UInt64.toNat_mod,UInt64.reduceToNat,
    UInt64.toNat_zero] at rounds low' high'
  omega

theorem eventVotes (ready : v.Ready) (e : Event) : (v.step env verifySig ecdsa e).Ready ∧
    ((v.admission verifySig e = none ∧ (v.step env verifySig ecdsa e).voted = v.voted) ∨
      ∃ height tx, v.admission verifySig e = some tx ∧ v.voted < height ∧
        (v.step env verifySig ecdsa e).voted = height ∧ VotesAt tx height) := by
  cases e with
  | call op => exact ⟨ready,.inl ⟨rfl,rfl⟩⟩
  | attest =>
    unfold Validator.Ready at ready
    cases now : v.attest with
    | idle =>
      simp only [Validator.step,Validator.admission,now]
      split
      · refine ⟨?_,.inl ⟨trivial,rfl⟩⟩
        simp only [Validator.Ready,now]
      · rename_i height tx built
        refine ⟨attestationReady built,.inl ⟨trivial,?_⟩⟩
        simp only [Validator.voted,now]
    | built height tx =>
      rw [now] at ready
      simp only [Validator.step,Validator.admission,now]
      cases v.node.submitTx verifySig tx with
      | mk result n =>
        cases result with
        | error err => exact ⟨trivial,.inl ⟨rfl,by simp only [Validator.voted,now]⟩⟩
        | ok _ =>
          refine ⟨trivial,.inr ⟨height,tx,rfl,?_,rfl,ready.2⟩⟩
          simp only [Validator.voted,now]
          exact ready.1
    | admitted height =>
      simp only [Validator.step,Validator.admission,now]
      refine ⟨trivial,.inl ⟨trivial,?_⟩⟩
      simp only [Validator.voted,now]

theorem admissionsMarking : Marking (Validator.step env verifySig ecdsa) (Validator.admission verifySig)
    (fun _ _ => True) Validator.Ready (fun v tx => ∃ height, height ≤ v.voted ∧ VotesAt tx height)
    (fun tx tx' => voteRound tx ≠ voteRound tx') where
  keep v e ready _ := (eventVotes ready e).1
  left v e tx ready _ admitted := by
    rcases (@eventVotes _ env verifySig ecdsa v ready e).2 with ⟨none,_⟩ | ⟨height,tx',some,_,last,votes⟩
    · cases none.symm.trans admitted
    · cases Option.some.inj (some.symm.trans admitted)
      exact ⟨height,UInt64.le_of_eq last.symm,votes⟩
  stays v e tx ready _ mark := by
    obtain ⟨low,below,votes⟩ := mark
    rcases (@eventVotes _ env verifySig ecdsa v ready e).2 with ⟨_,same⟩ | ⟨height,_,_,less,last,_⟩
    · exact ⟨low,by rw [same]; exact below,votes⟩
    · exact ⟨low,by rw [last]; exact UInt64.le_of_lt (UInt64.lt_of_le_of_lt below less),votes⟩
  related v e tx tx' ready mark admitted := by
    obtain ⟨low,below,votes⟩ := mark
    rcases (@eventVotes _ env verifySig ecdsa v ready e).2 with ⟨none,_⟩ | ⟨height,_,some,less,_,votes'⟩
    · cases none.symm.trans admitted
    · cases Option.some.inj (some.symm.trans admitted)
      exact roundsRise (UInt64.lt_of_le_of_lt below less) votes votes'

theorem honestValidator {cfg : Config} {disk : Store} {now : Int64} {n : Node} (mode : Exchange.Mode) {events : List Event}
    (pos : cfg.consensusMode = .pos) (made : Node.new env verifySig cfg disk now = .ok n)
    (fits : (events.foldl (Validator.step env verifySig ecdsa) ⟨n.setExchangeMode mode,0,.idle⟩).node.chain.FitsMap) :
    ((⟨n.setExchangeMode mode,0,.idle⟩ : Validator).proposals env verifySig ecdsa events).Pairwise
        (fun b b' => b.header.prevHash ≠ b'.header.prevHash) ∧
      ((⟨n.setExchangeMode mode,0,.idle⟩ : Validator).admissions env verifySig ecdsa events).Pairwise
        (fun tx tx' => voteRound tx ≠ voteRound tx') := by
  obtain ⟨consensus,chain,_⟩ := freshSetup (posFresh pos made)
  have own : (n.setExchangeMode mode).chain =
      (⟨cfg.genesis now,cfg.resolvedChainID,defaultGasLimit,mode,consensus⟩ : Setup).chain env := by
    rw [Node.setExchangeMode,chain]
    rfl
  have started : Started env verifySig ⟨cfg.genesis now,cfg.resolvedChainID,defaultGasLimit,mode,consensus⟩
      (n.setExchangeMode mode).chain := by
    rw [own]
    exact ⟨setupSound _,Grows.refl _⟩
  have idle : Validator.Ready ⟨n.setExchangeMode mode,0,.idle⟩ := trivial
  refine ⟨(collectRelated proposalsMarking started ?_).2,(collectRelated admissionsMarking idle ?_).2⟩
  · refine (alongBack (B := fun v : Validator => v.node.chain.FitsMap) (fun v e small => ?_) fits).2
    exact Nat.lt_of_le_of_lt (eventSize env verifySig ecdsa v e) small
  · exact alongOfMem (fun _ => True) (fun _ _ => trivial)

end
namespace Devnet

/- A node of the development network with the first validator's key. -/
def validatorConfig : Config where
  persistent := false
  miner := 1
  difficulty := 0
  genesisAlloc := ∅
  genesisBaseAlloc := ∅
  genesisTimestamp := 0
  maxMempool := 0
  chainID := 0
  consensusMode := .pos
  validators := vs.validators
  validatorKey := some (fun _ _ => sig)

def validatorNode (c : Chain) : Node := Node.withChain validatorConfig c none (some (fun _ _ => sig)) ∅ ∅

theorem validatorMade : Node.new env acceptNonEmptySig validatorConfig Store.empty 0 = .ok (validatorNode start) := by
  rfl

theorem quietProposes {n : Nat} {c : Chain} (q : Quiet n c) (small : n < 2 ^ 32) :
    (validatorNode c).proposeBlock env acceptNonEmptySig 0 =
      (.ok (empty n),validatorNode (c.offer env acceptNonEmptySig (empty n))) := by
  have chain : (validatorNode c).chain = c := rfl
  have jailed : c.pos.jailed = fun _ => false := by rw [q.unvoted]; rfl
  have cand : c.candidateStateRoot env acceptNonEmptySig [] 1 = .ok (0,0) := by
    have voted := votesCandidate q.sound 1 (show ∀ tx ∈ [], _ from by simp) (show Along _ _ _ [] from trivial)
    simp only [Chain.candidateStateRoot,voted]
    rfl
  have added : c.addBlock env acceptNonEmptySig (empty n) = .ok (c.offer env acceptNonEmptySig (empty n)) := by
    rw [offerAccepted (emptyAccepted q small)]
    exact addBlockOk.mpr ⟨_,_,emptyAccepted q small,rfl⟩
  have made : ({assemble env c [] 1 0 0 0 0 with
      header := {(assemble env c [] 1 0 0 0 0).header with proposerSig := sig}} : Block) = empty n := by
    have built := quietSealed q 0 []
    simp only [assemble,empty,block,Block.mk.injEq,Header.mk.injEq,and_true,true_and]
    exact ⟨built.height.symm,built.prevHash.symm,rfl,built.baseFee.symm⟩
  have selected : ∀ prev height, Pos.selectProposer (vs.effectiveStake (fun _ => false)).1
      (vs.effectiveStake (fun _ => false)).2 (Pos.proposerSeed env.sha prev height) = .ok (validator 1 2) := by
    intro prev height
    rw [seedZero]
    rfl
  have committed : (validatorNode c).commitBlock env acceptNonEmptySig (empty n) [] =
      (.ok (empty n),validatorNode (c.offer env acceptNonEmptySig (empty n))) := by
    rw [Node.commitBlock,chain,added]
    rfl
  have pool : c.buildBlockTxs [] = [] := rfl
  simp only [Node.proposeBlock,chain,q.mode,jailed,selected]
  simp only [validatorNode,Node.withChain,validatorConfig,pool,cand,made]
  exact committed

/- A validator's node over a chain, with the transactions it holds. -/
def seat (a : Address) (c : Chain) (pool : List Transaction) : Node := {validatorNode c with miner := a, mempool := pool}
def idle (a : Address) (c : Chain) (pool : List Transaction) (last : UInt64) : Validator := ⟨seat a c pool,last,.idle⟩
def signs (_ : Hash) : Bytes := [1]

/- What the events make of a validator, and what it signs on the way. -/
structure Ran (es : List Event) (v v' : Validator) (blocks : List Block) (votes : List Transaction) : Prop where
  ends : es.foldl (Validator.step env acceptNonEmptySig signs) v = v'
  proposed : v.proposals env acceptNonEmptySig signs es = blocks
  admitted : v.admissions env acceptNonEmptySig signs es = votes

theorem Ran.trans {es es' : List Event} {v v' v'' : Validator} {bs bs' : List Block} {txs txs' : List Transaction}
    (first : Ran es v v' bs txs) (second : Ran es' v' v'' bs' txs') : Ran (es ++ es') v v'' (bs ++ bs') (txs ++ txs') := by
  refine ⟨?_,?_,?_⟩
  · rw [List.foldl_append,first.ends,second.ends]
  · rw [Validator.proposals,collectAppend,first.ends]
    exact congrArg₂ (· ++ ·) first.proposed second.proposed
  · rw [Validator.admissions,collectAppend,first.ends]
    exact congrArg₂ (· ++ ·) first.admitted second.admitted

theorem proposesRan {n : ℕ} (small : n ≤ 2 ^ 32) :
    Ran (List.replicate n (.call (.proposeBlock 0))) (idle (account 1) start [] 0)
      (idle (account 1) (start.feed env acceptNonEmptySig (quietBlocks n)) [] 0) (quietBlocks n) [] := by
  induction n with
  | zero =>
    unfold quietBlocks
    exact ⟨rfl,rfl,rfl⟩
  | succ n ih =>
    have made := quietProposes (quietFeed (by omega)) (show n < 2 ^ 32 by omega)
    have last : Ran [.call (.proposeBlock 0)] (idle (account 1) (start.feed env acceptNonEmptySig (quietBlocks n)) [] 0)
        (idle (account 1) ((start.feed env acceptNonEmptySig (quietBlocks n)).offer env acceptNonEmptySig (empty n)) [] 0)
        [empty n] [] := by
      have own : seat (account 1) (start.feed env acceptNonEmptySig (quietBlocks n)) [] =
        validatorNode (start.feed env acceptNonEmptySig (quietBlocks n)) := rfl
      refine ⟨?_,?_,rfl⟩
      · simp only [List.foldl_cons,List.foldl_nil,Validator.step,Node.step,idle,own,made]
        rfl
      · simp only [Validator.proposals,collect,Validator.proposal,idle,own,made]
        rfl
    rw [List.replicate_succ',quietBlocksSucc,feedSnoc]
    exact (ih (by omega)).trans last

def heard (b : Block) : Event := .call (.acceptExternalBlock b)

theorem hearsRan (a : Address) (c : Chain) (pool : List Transaction) (last : UInt64) (bs : List Block) :
    Ran (bs.map heard) (idle a c pool last) (idle a (c.feed env acceptNonEmptySig bs) pool last) [] [] := by
  induction bs generalizing c with
  | nil => exact ⟨rfl,rfl,rfl⟩
  | cons b bs ih =>
    have next : (seat a c pool).step env acceptNonEmptySig (.acceptExternalBlock b) =
        seat a (c.offer env acceptNonEmptySig b) pool := by
      have own : (seat a c pool).chain = c := rfl
      simp only [Node.step,Node.acceptExternalBlock,own,Chain.offer]
      cases c.addBlock env acceptNonEmptySig b with
      | error e =>
        dsimp only
        split <;> rfl
      | ok c' => rfl
    have first : Ran [heard b] (idle a c pool last) (idle a (c.offer env acceptNonEmptySig b) pool last) [] [] := by
      refine ⟨?_,rfl,rfl⟩
      simp only [List.foldl_cons,List.foldl_nil,heard,Validator.step,idle,next]
    exact first.trans (ih _)

theorem votesRan {h : ℕ} {c : Chain} (q : Quiet h c) (n : UInt8) {pool : List Transaction} {last nonce : UInt64}
    (due : ¬ (UInt64.ofNat h = 0 ∨ UInt64.ofNat h % Pos.checkpointInterval ≠ 0 ∨ UInt64.ofNat h ≤ last))
    (projected : ((seat (account n) c pool).projectSender (account n)).1 = nonce)
    (room : pool.length < validatorConfig.mempoolCap) :
    Ran [.attest,.attest,.attest] (idle (account n) c pool last)
      (idle (account n) c (pool ++ [vote n nonce (UInt64.ofNat h) (hashAt h 0)]) (UInt64.ofNat h)) []
      [vote n nonce (UInt64.ofNat h) (hashAt h 0)] := by
  have own : (seat (account n) c pool).chain = c := rfl
  have miner : (seat (account n) c pool).miner = account n := rfl
  have head : c.headD.hash env.sha = hashAt h 0 := by
    rw [q.sound.keyed _ _ (headFound q.sound),q.head]
  have built : (seat (account n) c pool).attestation env.sha signs last =
      some (UInt64.ofNat h,vote n nonce (UInt64.ofNat h) (hashAt h 0)) := by
    simp only [Node.attestation,own,q.mode,q.headHeader.1,head,miner,projected]
    exact if_neg due
  have taken : (seat (account n) c pool).submitTx acceptNonEmptySig (vote n nonce (UInt64.ofNat h) (hashAt h 0)) =
      (.ok (),(seat (account n) c pool).pool (vote n nonce (UInt64.ofNat h) (hashAt h 0))) :=
    submitTxOk ⟨rfl,rfl,projected.symm,fun _ => UInt64.zero_le,room⟩
  refine ⟨?_,rfl,?_⟩
  · simp only [List.foldl_cons,List.foldl_nil,Validator.step,idle,built,taken]
    rfl
  · simp only [Validator.admissions,collect,Validator.admission,Validator.step,idle,built,taken]
    rfl

/- Validator 1 proposes the blocks up to the first checkpoint and votes for it. -/
def proposes : List Event := List.replicate 32 (.call (.proposeBlock 0)) ++ [.attest,.attest,.attest]

/- Another validator hears of them, votes, hears of more and votes again. -/
def laterBlocks : List Block := (List.range 32).map (fun k => empty (32 + k))
def listens : List Event :=
  (quietBlocks 32).map heard ++ [.attest,.attest,.attest] ++ (laterBlocks.map heard ++ [.attest,.attest,.attest])

theorem quietSize {n : ℕ} (small : n ≤ 2 ^ 32) :
    (start.feed env acceptNonEmptySig (quietBlocks n)).blocks.entries.length = n + 1 := by
  induction n with
  | zero =>
    unfold quietBlocks
    rfl
  | succ n ih =>
    have a := emptyAccepted (quietFeed (show n ≤ 2 ^ 32 by omega)) (by omega)
    rw [quietBlocksSucc,feedSnoc,offerAccepted a,commitSize a.fresh,ih (by omega)]

theorem quietSplit : start.feed env acceptNonEmptySig (quietBlocks 64) =
    (start.feed env acceptNonEmptySig (quietBlocks 32)).feed env acceptNonEmptySig laterBlocks := by
  have all : quietBlocks 64 = quietBlocks 32 ++ laterBlocks := by
    unfold quietBlocks laterBlocks
    rw [show 64 = 32 + 32 from rfl,List.range_add,List.map_append,List.map_map]
    rfl
  rw [all]
  exact List.foldl_append

theorem unspent {h : ℕ} {c : Chain} (q : Quiet h c) (n : UInt8) :
    ((seat (account n) c []).projectSender (account n)).1 = 0 := (q.accounts _).1

theorem proposesAll : Ran proposes (idle (account 1) start [] 0)
    (idle (account 1) (start.feed env acceptNonEmptySig (quietBlocks 32)) [vote 1 0 32 (hashAt 32 0)] 32)
    (quietBlocks 32) [vote 1 0 32 (hashAt 32 0)] := by
  have q : Quiet 32 (start.feed env acceptNonEmptySig (quietBlocks 32)) := quietFeed (by decide)
  have both := (proposesRan (show 32 ≤ 2 ^ 32 by decide)).trans (votesRan q 1 (by decide) (unspent q 1) (by decide))
  rwa [List.append_nil] at both

theorem listensFirst (n : UInt8) : Ran ((quietBlocks 32).map heard ++ [.attest,.attest,.attest]) (idle (account n) start [] 0)
    (idle (account n) (start.feed env acceptNonEmptySig (quietBlocks 32)) [vote n 0 32 (hashAt 32 0)] 32) []
      [vote n 0 32 (hashAt 32 0)] := by
  have q : Quiet 32 (start.feed env acceptNonEmptySig (quietBlocks 32)) := quietFeed (by decide)
  exact (hearsRan (account n) start [] 0 (quietBlocks 32)).trans (votesRan q n (by decide) (unspent q n) (by decide))

theorem onceSpent {h : ℕ} {c : Chain} (q : Quiet h c) (n : UInt8) (height : UInt64) (target : Hash) :
    ((seat (account n) c [vote n 0 height target]).projectSender (account n)).1 = 1 := by
  have fresh := unspent q n
  simp only [Node.projectSender,seat,List.foldl_cons,List.foldl_nil] at fresh ⊢
  rw [if_neg (fun other => other rfl),fresh]
  rfl

theorem listensLater (n : UInt8) : Ran (laterBlocks.map heard ++ [.attest,.attest,.attest])
    (idle (account n) (start.feed env acceptNonEmptySig (quietBlocks 32)) [vote n 0 32 (hashAt 32 0)] 32)
    (idle (account n) (start.feed env acceptNonEmptySig (quietBlocks 64))
      [vote n 0 32 (hashAt 32 0),vote n 1 64 (hashAt 64 0)] 64) [] [vote n 1 64 (hashAt 64 0)] := by
  have q : Quiet 64 (start.feed env acceptNonEmptySig (quietBlocks 64)) := quietFeed (by decide)
  have more := hearsRan (account n) (start.feed env acceptNonEmptySig (quietBlocks 32)) [vote n 0 32 (hashAt 32 0)] 32 laterBlocks
  rw [← quietSplit] at more
  exact more.trans (votesRan q n (by decide) (onceSpent q n 32 _) (show 1 < validatorConfig.mempoolCap by decide))

theorem listensAll (n : UInt8) : Ran listens (idle (account n) start [] 0)
    (idle (account n) (start.feed env acceptNonEmptySig (quietBlocks 64))
      [vote n 0 32 (hashAt 32 0),vote n 1 64 (hashAt 64 0)] 64) [] [vote n 0 32 (hashAt 32 0),vote n 1 64 (hashAt 64 0)] :=
  (listensFirst n).trans (listensLater n)

theorem proposesFits : (proposes.foldl (Validator.step env acceptNonEmptySig signs) (idle (account 1) start [] 0)).node.chain.FitsMap := by
  rw [proposesAll.ends]
  show (start.feed env acceptNonEmptySig (quietBlocks 32)).blocks.entries.length < 2 ^ 63
  rw [quietSize (by decide)]
  decide

theorem listensFits (n : UInt8) :
    (listens.foldl (Validator.step env acceptNonEmptySig signs) (idle (account n) start [] 0)).node.chain.FitsMap := by
  rw [(listensAll n).ends]
  show (start.feed env acceptNonEmptySig (quietBlocks 64)).blocks.entries.length < 2 ^ 63
  rw [quietSize (by decide)]
  decide

theorem validatorHonest :
    (quietBlocks 32).Pairwise (fun b b' => b.header.prevHash ≠ b'.header.prevHash) ∧
      (idle (account 1) start [] 0).admissions env acceptNonEmptySig signs proposes = [vote 1 0 32 (hashAt 32 0)] ∧
      (idle (account 4) start [] 0).admissions env acceptNonEmptySig signs listens =
        [vote 4 0 32 (hashAt 32 0),vote 4 1 64 (hashAt 64 0)] ∧
      voteRound (vote 4 0 32 (hashAt 32 0)) ≠ voteRound (vote 4 1 64 (hashAt 64 0)) := by
  have made : Node.new env acceptNonEmptySig {validatorConfig with miner := account 4} Store.empty 0 =
      .ok (seat (account 4) start []) := rfl
  have blocks := (honestValidator .continuous rfl validatorMade proposesFits).1
  have votes := (honestValidator .continuous rfl made (listensFits 4)).2
  refine ⟨proposesAll.proposed ▸ blocks,proposesAll.admitted,(listensAll 4).admitted,?_⟩
  have pairs : [vote 4 0 32 (hashAt 32 0),vote 4 1 64 (hashAt 64 0)].Pairwise (fun tx tx' => voteRound tx ≠ voteRound tx') :=
    (listensAll 4).admitted ▸ votes
  exact (List.pairwise_cons.mp pairs).1 _ (List.mem_singleton_self _)

end Devnet
end L1Chain
