import L1Chain.BranchNonces
import L1Chain.BlockBuilderSteps

/-! The pool against the head state. SubmitTx appends the next nonce of its sender,
and a block of the node's own making takes the first of every sender's pooled
transactions and raises the head nonce by as many. A block from outside moves the
head nonces too, but nothing is taken from the pool for it. -/
namespace L1Chain
open Transition Runs

def pooled (mempool : List Transaction) (a : Address) : List Transaction := mempool.filter (·.sender = a)

def Sequenced (n : Node) : Prop := ∀ a, Consecutive (n.chain.headState.accounts a).nonce (pooled n.mempool a)

section
variable {k : UInt64} {l taken : List Transaction} {tx u : Transaction} {i j : Nat}

theorem filterDrop {m : Nat} {gone : Transaction → Bool}
    (front : ∀ i tx, l[i]? = some tx → (gone tx = true ↔ i < m)) : l.filter (fun tx => !gone tx) = l.drop m := by
  induction l generalizing m with
  | nil => simp
  | cons t rest ih =>
    have first := front 0 t rfl
    cases m with
    | zero =>
      have kept : gone t = false := by simpa using first
      rw [List.filter_cons,kept,Bool.not_false,if_pos rfl,List.drop_zero]
      refine congrArg _ ((ih (m := 0) fun i tx found => ?_).trans List.drop_zero)
      simpa using front (i + 1) tx found
    | succ m =>
      have dropped : gone t = true := first.mpr (Nat.succ_pos m)
      rw [List.filter_cons,dropped,Bool.not_true,if_neg Bool.false_ne_true,List.drop_succ_cons]
      refine ih fun i tx found => ?_
      simpa using front (i + 1) tx found

theorem takenShorter (counts : Consecutive k l) (takes : Consecutive k taken) (sub : ∀ u ∈ taken, u ∈ l)
    (small : l.length < 2 ^ 64) : taken.length ≤ l.length := by
  by_contra longer
  have less : l.length < taken.length := by omega
  have found : taken[l.length]? = some (taken[l.length]) := List.getElem?_eq_getElem less
  obtain ⟨i,again⟩ := List.mem_iff_getElem?.mp (sub _ (List.mem_of_getElem? found))
  have same := (nonceAt counts again).symm.trans (nonceAt takes found)
  have inside := (List.getElem?_eq_some_iff.mp again).1
  exact absurd (positionEq (by omega) (by omega) same) (by omega)

theorem takenFront {gone : Transaction → Bool} (counts : Consecutive k l) (takes : Consecutive k taken)
    (sub : ∀ u ∈ taken, u ∈ l) (small : l.length < 2 ^ 64)
    (same : ∀ tx ∈ l, gone tx = true ↔ ∃ u ∈ taken, u.nonce = tx.nonce) :
    Consecutive (k + UInt64.ofNat taken.length) (l.filter (fun tx => !gone tx)) := by
  have short := takenShorter counts takes sub small
  rw [filterDrop (m := taken.length)]
  · exact consecutiveDrop counts _
  · intro i tx found
    have inside := (List.getElem?_eq_some_iff.mp found).1
    rw [same tx (List.mem_of_getElem? found)]
    constructor
    · rintro ⟨u,member,nonce⟩
      obtain ⟨j,there⟩ := List.mem_iff_getElem?.mp member
      have less := (List.getElem?_eq_some_iff.mp there).1
      rw [nonceAt takes there,nonceAt counts found] at nonce
      rwa [← positionEq (by omega) (by omega) nonce]
    · intro less
      have there : taken[i]? = some (taken[i]) := List.getElem?_eq_getElem less
      exact ⟨_,List.mem_of_getElem? there,(nonceAt takes there).trans (nonceAt counts found).symm⟩

end
section
variable {E : Type} {env : Env E} {verifySig : VerifySig} {n : Node} {tx : Transaction} {b : Block} {op : Op}

theorem projectNonce (n : Node) (a : Address) : (n.projectSender a).1 =
    (n.chain.headState.accounts a).nonce + UInt64.ofNat (pooled n.mempool a).length := by
  have fold : ∀ (l : List Transaction) (nonce balance : UInt64), (l.foldl (fun (x : UInt64 × UInt64) tx =>
      if tx.sender ≠ a then (x.1,x.2)
      else (x.1 + 1,if tx.sender ≠ tx.recipient ∧ x.2 ≥ tx.value then x.2 - tx.value else x.2)) (nonce,balance)).1 =
      nonce + UInt64.ofNat (pooled l a).length := by
    intro l
    induction l with
    | nil => simp [pooled]
    | cons t rest ih =>
      intro nonce balance
      rw [List.foldl_cons,pooled,List.filter_cons]
      by_cases own : t.sender = a
      · simp only [own,ne_eq,not_true_eq_false,if_false,decide_true,if_true,List.length_cons,← ofNatSucc]
        rw [ih,UInt64.add_assoc,UInt64.add_comm 1]
        rfl
      · simp only [own,ne_eq,not_false_eq_true,if_true,decide_false]
        exact ih nonce balance
  exact fold _ _ _

/- What a block of the node's own making asks for: it becomes the head, no two pooled
transactions share a hash, and no EVM message in it moves the nonce of a pooled
sender other than its own. -/
structure Produces (env : Env E) (verifySig : VerifySig) (n : Node) : Prop where
  heavier : n.chain.td n.chain.head < n.chain.td n.chain.head + ownWeight n
  hashes : ∀ t ∈ n.mempool, ∀ u ∈ n.mempool, t.hash env.sha = u.hash env.sha → t.sender = u.sender ∧ t.nonce = u.nonce
  nonces : ∀ x ∈ blockTrace env verifySig n.chain.headState (n.chain.buildBlockTxs n.mempool)
    (n.chain.headD.header.height + 1) n.chain.exchangeMode n.chain.nextBaseFee, ∀ p ∈ n.mempool, x.KeepsNonce p.sender

def Steady (env : Env E) (verifySig : VerifySig) (n : Node) : Op → Prop
  | .submitTx _ => True
  | .mineBlock _ => Produces env verifySig n
  | .proposeBlock _ => Produces env verifySig n
  | .acceptExternalBlock b => ∀ c', n.chain.addBlock env verifySig b = .ok c' →
      ∀ p ∈ n.mempool, (c'.headState.accounts p.sender).nonce = (n.chain.headState.accounts p.sender).nonce

structure Pooling (env : Env E) (verifySig : VerifySig) (n : Node) : Prop where
  sound : Sound env verifySig n.chain
  room : n.mempool.length ≤ n.maxMempool
  cap : n.maxMempool < 2 ^ 64
  sequenced : Sequenced n

theorem poolingPooled (p : Pooling env verifySig n) (a : Address) : (pooled n.mempool a).length < 2 ^ 64 := by
  have less := List.length_filter_le (fun tx : Transaction => decide (tx.sender = a)) n.mempool
  have room := p.room
  have cap := p.cap
  unfold pooled
  omega

theorem submitSequenced (p : Pooling env verifySig n) (a : Admitted verifySig n tx) : Sequenced (n.pool tx) := by
  intro x
  have before := p.sequenced x
  simp only [Node.pool,pooled,List.filter_append,List.filter_cons,List.filter_nil]
  split
  · rename_i own
    refine consecutiveSnoc before ?_
    have sender : tx.sender = x := by simpa using own
    rw [a.nonce,projectNonce,sender]
    rfl
  · rw [List.append_nil]
    exact before

theorem ownDerived {st : MptState} {w : UInt64} (s : Sound env verifySig n.chain) (own : Own env n b)
    (a : Accepted env verifySig n.chain b st w) :
    ∃ r, applyTxsAt env verifySig n.chain.headState (n.chain.buildBlockTxs n.mempool)
      (n.chain.headD.header.height + 1) n.chain.exchangeMode n.chain.nextBaseFee = .ok r ∧
      ∀ x, (st.accounts x).nonce = (r.st.accounts x).nonce := by
  obtain ⟨root,gasUsed,built⟩ := own.built
  have prev : b.header.prevHash = n.chain.head := built.prevHash.trans (s.keyed _ _ (headFound s))
  obtain ⟨before,derived,applied⟩ := a.derived
  rw [prev,s.headState] at derived
  cases Except.ok.inj derived
  simp only [applyBlockRewarded,bindOk,built.txs,built.height,built.baseFee] at applied
  obtain ⟨r,ran,last⟩ := applied
  refine ⟨r,ran,fun x => ?_⟩
  rw [← (Prod.mk.inj (Except.ok.inj last)).1]
  split
  · exact creditNonce _ _
  · rfl

theorem ownHead {st : MptState} {w : UInt64} (s : Sound env verifySig n.chain) (own : Own env n b)
    (heavier : n.chain.td n.chain.head < n.chain.td n.chain.head + ownWeight n)
    (a : Accepted env verifySig n.chain b st w) : (n.chain.commit env b st w).headState = st := by
  obtain ⟨root,gasUsed,built⟩ := own.built
  have prev : b.header.prevHash = n.chain.head := built.prevHash.trans (s.keyed _ _ (headFound s))
  rw [Chain.commitHeadState,if_pos]
  rw [outweighsIff s.headStored a.fresh,prev,consensusWeight a.consensus,own.weight]
  exact heavier

theorem ownSequenced {st : MptState} {w : UInt64} (p : Pooling env verifySig n) (produces : Produces env verifySig n)
    (own : Own env n b) (a : Accepted env verifySig n.chain b st w) :
    Sequenced ((n.prune env.sha b.txs).extend env.sha (n.chain.commit env b st w)) := by
  obtain ⟨r,ran,nonces⟩ := ownDerived p.sound own a
  obtain ⟨root,gasUsed,built⟩ := own.built
  intro x
  have left : pooled ((n.prune env.sha b.txs).extend env.sha (n.chain.commit env b st w)).mempool x =
      (pooled n.mempool x).filter (fun tx => !decide (tx.hash env.sha ∈ b.txs.map (·.hash env.sha))) := by
    simp only [Node.extend,Node.prune,pooled,decide_not]
    exact List.filter_comm ..
  rw [left]
  show Consecutive (((n.chain.commit env b st w).headState).accounts x).nonce _
  rw [ownHead p.sound own produces.heavier a,nonces]
  cases held : pooled n.mempool x with
  | nil => trivial
  | cons first others =>
    rw [← held]
    have sent : first ∈ n.mempool ∧ first.sender = x := by
      have member : first ∈ pooled n.mempool x := by simp [held]
      simpa [pooled] using member
    obtain ⟨takes,total⟩ := blockNonces (a := x) (fun t member => sent.2 ▸ produces.nonces t member first sent.1) ran
    rw [total]
    have owned : ∀ u, u ∈ (n.chain.buildBlockTxs n.mempool).filter (·.sender = x) ↔
        u ∈ n.chain.buildBlockTxs n.mempool ∧ u.sender = x := by
      intro u
      simp
    have sub : ∀ u ∈ (n.chain.buildBlockTxs n.mempool).filter (·.sender = x), u ∈ pooled n.mempool x := by
      intro u member
      obtain ⟨taken,sender⟩ := (owned u).mp member
      simp [pooled,buildMember taken,sender]
    refine takenFront (p.sequenced x) takes sub (poolingPooled p x) (fun tx member => ?_)
    have pooledTx : tx ∈ n.mempool ∧ tx.sender = x := by simpa [pooled] using member
    rw [decide_eq_true_iff,built.txs,List.mem_map]
    constructor
    · rintro ⟨u,taken,same⟩
      obtain ⟨sender,nonce⟩ := produces.hashes u (buildMember taken) tx pooledTx.1 same
      exact ⟨u,(owned u).mpr ⟨taken,sender.trans pooledTx.2⟩,nonce⟩
    · rintro ⟨u,taken,nonce⟩
      have same := nonceUnique (p.sequenced x) (poolingPooled p x) (sub u taken) member nonce
      exact ⟨u,((owned u).mp taken).1,congrArg _ same⟩

theorem acceptSequenced {c' : Chain} (before : Sequenced n)
    (still : ∀ p ∈ n.mempool, (c'.headState.accounts p.sender).nonce = (n.chain.headState.accounts p.sender).nonce) :
    Sequenced (n.extend env.sha c') := by
  intro x
  show Consecutive (c'.headState.accounts x).nonce (pooled n.mempool x)
  have counts := before x
  cases held : pooled n.mempool x with
  | nil => trivial
  | cons first others =>
    have sent : first ∈ n.mempool ∧ first.sender = x := by
      have member : first ∈ pooled n.mempool x := by simp [held]
      simpa [pooled] using member
    have same := still first sent.1
    rw [sent.2] at same
    rwa [same,← held]

theorem ownPooling {c' : Chain} (p : Pooling env verifySig n) (produces : Produces env verifySig n)
    (own : Own env n b) (added : n.chain.addBlock env verifySig b = .ok c') :
    Pooling env verifySig ((n.prune env.sha b.txs).extend env.sha c') := by
  obtain ⟨st,w,a,rfl⟩ := addBlockOk.mp added
  exact ⟨commitSound p.sound a,(List.length_filter_le _ _).trans p.room,p.cap,ownSequenced p produces own a⟩

theorem stepPooling (p : Pooling env verifySig n) (steady : Steady env verifySig n op) :
    Pooling env verifySig (n.step env verifySig op) := by
  cases op with
  | submitTx tx =>
    rcases submitTxCases verifySig n tx with same | ⟨admitted,same⟩
    · rwa [Node.step,same]
    · rw [Node.step,same]
      refine ⟨p.sound,?_,p.cap,submitSequenced p admitted⟩
      have room := admitted.room
      simp only [Node.pool,List.length_append,List.length_singleton]
      omega
  | mineBlock now =>
    rcases mineBlockCases env verifySig n now with same | ⟨b,c',own,added,same⟩
    · rwa [Node.step,same]
    · rw [Node.step,same]
      exact ownPooling p steady own added
  | proposeBlock now =>
    rcases proposeBlockCases env verifySig n now with same | ⟨b,c',own,added,same⟩
    · rwa [Node.step,same]
    · rw [Node.step,same]
      exact ownPooling p steady own added
  | acceptExternalBlock b =>
    rcases acceptCases env verifySig n b with same | ⟨c',added,same⟩
    · rwa [Node.step,same]
    · rw [Node.step,same]
      have still := steady c' added
      obtain ⟨st,w,a,rfl⟩ := addBlockOk.mp added
      exact ⟨commitSound p.sound a,p.room,p.cap,acceptSequenced p.sequenced still⟩

theorem newFresh {cfg : Config} {now : Int64} (started : Node.new env verifySig cfg Store.empty now = .ok n) :
    ∃ consensus, n.chain = (⟨cfg.genesis now,cfg.resolvedChainID,defaultGasLimit,.continuous,consensus⟩ : Setup).chain env ∧
      (cfg.consensusMode = .pow → consensus = .pow) ∧ n.mempool = [] ∧ n.maxMempool = cfg.mempoolCap ∧
      n.chainID = cfg.resolvedChainID := by
  have fresh : Node.fresh env cfg Store.empty now = .ok n := by
    have none : Store.empty.load env verifySig = .ok none := rfl
    simp only [Node.new,none] at started
    split at started <;> exact started
  exact freshSetup fresh

theorem newPooling {cfg : Config} {now : Int64} (mode : Exchange.Mode) (int : cfg.maxMempool < 2 ^ 63)
    (started : Node.new env verifySig cfg Store.empty now = .ok n) :
    Pooling env verifySig (n.setExchangeMode mode) := by
  obtain ⟨consensus,chain,_,empty,cap,_⟩ := newFresh started
  have own : (n.setExchangeMode mode).chain =
      (⟨cfg.genesis now,cfg.resolvedChainID,defaultGasLimit,mode,consensus⟩ : Setup).chain env := by
    rw [Node.setExchangeMode,chain]
    rfl
  have pool : (n.setExchangeMode mode).mempool = [] := empty
  refine ⟨own ▸ setupSound _,?_,?_,?_⟩
  · rw [pool]
    exact Nat.zero_le _
  · show n.maxMempool < 2 ^ 64
    rw [cap,Config.mempoolCap]
    split
    · decide
    · omega
  · intro a
    rw [pool]
    trivial

/- A block that holds no transaction of `senders` and whose messages set no nonce of theirs. -/
structure PassesBy (env : Env E) (verifySig : VerifySig) (mode : Exchange.Mode) (senders : List Address) (st : MptState)
    (b : Block) : Prop where
  absent : ∀ tx ∈ b.txs, tx.sender ∉ senders
  law : NonceLaw env verifySig mode senders st b

/- The canonical branch and the one that ends in `b` start alike, genesis aside; of the blocks
behind that, which leave the canonical branch or enter it, none concerns `senders`. -/
def Diverts (env : Env E) (verifySig : VerifySig) (c : Chain) (senders : List Address) (b : Block) : Prop :=
  ∀ path path', c.Path c.head path → c.Path b.header.prevHash path' →
    ∃ common left entered, path.reverse.tail = common ++ left ∧ (b::path').reverse.tail = common ++ entered ∧
      ∀ part ∈ [left,entered], Along (replayNext env verifySig c.exchangeMode)
        (PassesBy env verifySig c.exchangeMode senders)
        (common.foldl (replayNext env verifySig c.exchangeMode) c.fundGenesis) part

/- What an operation has to meet, in terms of the node before it: a block of the node's own
making becomes the head, no two pooled transactions share a hash and no message in it sets the
nonce of another pooled sender; a block from outside that becomes the head diverts the canonical
branch past the pooled senders. -/
def Spares (env : Env E) (verifySig : VerifySig) (n : Node) : Op → Prop
  | .submitTx _ => True
  | .acceptExternalBlock b => n.chain.outweighs env b (weightOf n.chain.consensus b) →
      Diverts env verifySig n.chain (n.mempool.map (·.sender)) b
  | _ => n.chain.td n.chain.head < n.chain.td n.chain.head + ownWeight n ∧
      (∀ t ∈ n.mempool, ∀ u ∈ n.mempool, t.hash env.sha = u.hash env.sha → t.sender = u.sender ∧ t.nonce = u.nonce) ∧
      ∀ x ∈ blockTrace env verifySig n.chain.headState (n.chain.buildBlockTxs n.mempool)
        (n.chain.headD.header.height + 1) n.chain.exchangeMode n.chain.nextBaseFee,
        x.NonceLaw env (n.chain.headD.header.height + 1) n.chain.nextBaseFee (n.mempool.map (·.sender))

theorem passedNonce {mode : Exchange.Mode} {senders : List Address} {st : MptState} {bs : List Block} {a : Address}
    (passes : Along (replayNext env verifySig mode) (PassesBy env verifySig mode senders) st bs)
    (applied : Along (replayNext env verifySig mode) (fun st b => ∃ gas, applyBlockRewarded env verifySig mode st b =
      .ok (replayNext env verifySig mode st b,gas)) st bs) (sends : a ∈ senders) :
    ((bs.foldl (replayNext env verifySig mode) st).accounts a).nonce = (st.accounts a).nonce := by
  refine invariant (fun now => (now.accounts a).nonce = (st.accounts a).nonce) (fun now b same step => ?_) rfl
    (alongAnd passes applied)
  obtain ⟨passing,gas,done⟩ := step
  have none : b.txs.filter (·.sender = a) = [] := by
    refine List.filter_eq_nil_iff.mpr (fun tx member own => ?_)
    rw [decide_eq_true_iff] at own
    exact passing.absent tx member (own ▸ sends)
  have total := (rewardedNonces passing.law sends done).2
  rw [none] at total
  simpa [same] using total

theorem divertedNonce {c : Chain} {st : MptState} {w : UInt64} {senders : List Address} {a : Address}
    (s : Sound env verifySig c) (accepted : Accepted env verifySig c b st w) (diverts : Diverts env verifySig c senders b)
    (sends : a ∈ senders) : (st.accounts a).nonce = (c.headState.accounts a).nonce := by
  obtain ⟨x,headStored⟩ := s.headStored
  obtain ⟨path,walk,_⟩ := s.rooted _ _ headStored
  obtain ⟨y,parentStored,_⟩ := accepted.parent
  obtain ⟨path',walk',_⟩ := s.rooted _ _ parentStored
  obtain ⟨before,derived,applied⟩ := accepted.derived
  have now := s.headState
  rw [derivePath s.rooted walk,liftTxOk] at now
  rw [derivePath s.rooted walk',liftTxOk] at derived
  have next : replay env verifySig c.exchangeMode c.fundGenesis (b::path').reverse.tail = .ok st := by
    obtain ⟨g,root,_⟩ := s.genesis
    have grown : (b::path').reverse.tail = path'.reverse.tail ++ [b] := by
      rw [List.reverse_cons,pathHeadGenesis walk' root]
      rfl
    rw [grown,replayAppend,bindOk]
    refine ⟨before,derived,?_⟩
    simp only [replay,bindOk]
    exact ⟨_,applied,rfl⟩
  obtain ⟨common,left,entered,first,second,part⟩ := diverts path path' walk walk'
  rw [first] at now
  rw [second] at next
  have stays : ∀ l after, l ∈ [left,entered] → replay env verifySig c.exchangeMode c.fundGenesis (common ++ l) = .ok after →
      (after.accounts a).nonce =
        ((common.foldl (replayNext env verifySig c.exchangeMode) c.fundGenesis).accounts a).nonce := by
    intro l after member ok
    obtain ⟨run,taken⟩ := replayRun ok
    rw [← run,List.foldl_append]
    exact passedNonce (part l member) (alongAppend.mp taken).2 sends
  rw [stays entered st (by simp) next,stays left c.headState (by simp) now]

theorem sparesSteady (s : Sound env verifySig n.chain) (spares : Spares env verifySig n op) :
    Steady env verifySig n op := by
  have own : Spares env verifySig n (.mineBlock 0) → Produces env verifySig n := by
    rintro ⟨heavier,hashes,law⟩
    exact ⟨heavier,hashes,fun x member p pooled => traceKeeps law (List.mem_map_of_mem pooled) x member⟩
  cases op with
  | submitTx tx => trivial
  | mineBlock now => exact own spares
  | proposeBlock now => exact own spares
  | acceptExternalBlock b =>
    intro c' added p pooled
    obtain ⟨st,w,a,rfl⟩ := addBlockOk.mp added
    rw [Chain.commitHeadState]
    split
    · rename_i heavier
      rw [consensusWeight a.consensus] at heavier
      exact divertedNonce s a (spares heavier) (List.mem_map_of_mem pooled)
    · rfl

end
namespace Devnet

def soloPayment : Transaction := payment (soloConfig 0).resolvedChainID

theorem soloSubmitted (disk : Store) : Node.step env acceptNonEmptySig ((soloNode 0 disk).setExchangeMode .continuous)
    (.submitTx soloPayment) = (soloNode 0 disk).pool soloPayment :=
  congrArg Prod.snd (submitTxOk (soloAdmits 0 disk))

theorem soloMinesPast (disk : Store) :
    Spares env acceptNonEmptySig ((soloNode 0 disk).pool soloPayment) (.mineBlock 1) := by
  refine ⟨?_,?_,?_⟩
  · have weight := soloWeight 0
    show ((soloSetup 0).chain env).td ((soloSetup 0).chain env).head <
      ((soloSetup 0).chain env).td ((soloSetup 0).chain env).head + 1
    rw [weight]
    decide
  · intro t left u right _
    cases List.mem_singleton.mp left
    cases List.mem_singleton.mp right
    exact ⟨rfl,rfl⟩
  · intro x member evm
    have single : ((soloNode 0 disk).pool soloPayment).chain.buildBlockTxs [soloPayment] = [soloPayment] :=
      buildSingle (soloUnpriced _)
    have pool : ((soloNode 0 disk).pool soloPayment).mempool = [soloPayment] := rfl
    rw [pool,single] at member
    obtain ⟨before,same⟩ := traceSingle member
    rw [before,same] at evm
    have routed : route soloFunds soloPayment = .transfer := rfl
    exact absurd (routed.symm.trans evm) (by decide)

theorem soloDivertsPast (disk : Store) :
    Spares env acceptNonEmptySig ((soloNode 0 disk).pool soloPayment) (.acceptExternalBlock (firstBlock 0 [])) := by
  intro _ path path' walk walk'
  have start := setupStart env (soloSetup 0)
  rw [firstPrev 0 []] at walk'
  obtain rfl := Forest.pathUnique start walk
  obtain rfl := Forest.pathUnique start walk'
  refine ⟨[],[],[firstBlock 0 []],rfl,rfl,fun part member => ?_⟩
  rcases List.mem_cons.mp member with rfl | member
  · trivial
  · cases List.mem_singleton.mp member
    exact ⟨⟨fun tx inside => (nomatch inside),fun x inside => (nomatch inside)⟩,trivial⟩

end Devnet
end L1Chain
