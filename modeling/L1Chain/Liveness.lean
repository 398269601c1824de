import L1Chain.Progress
import L1Chain.Mempool

/-! Block production of a running node. SubmitTx, the selection and the transition
check a transaction separately: what admission guarantees is its signature, its
chain id and its place in the sender's sequence, what the selection guarantees is
its fee cap and the block's gas. Everything else a pooled transaction needs to be
applied is in `Ready`; where it holds, MineBlock produces a block. -/
namespace L1Chain.BlockBuilder
open Transition

section
variable {st : MptState} {baseFee gasLimit : UInt64} {active : List Queue} {addr : Address} {tx : Transaction}

def Queued (active : List Queue) (tx : Transaction) : Prop := ∃ q ∈ active, tx ∈ q.txs

theorem queuedFilter {p : Queue → Bool} (inside : Queued (active.filter p) tx) : Queued active tx := by
  obtain ⟨q,member,held⟩ := inside
  exact ⟨q,List.mem_of_mem_filter member,held⟩

theorem queuedCut {cut : Queue → List Transaction} (sub : ∀ q, ∀ tx ∈ cut q, tx ∈ q.txs)
    (inside : Queued (active.map (fun q => {q with txs := cut q})) tx) : Queued active tx := by
  obtain ⟨q,member,held⟩ := inside
  obtain ⟨q₀,original,rfl⟩ := List.mem_map.mp member
  exact ⟨q₀,original,sub q₀ tx held⟩

theorem queuedWaiting (inside : Queued (waiting st active) tx) : Queued active tx :=
  queuedCut (fun _ _ member => (List.dropWhile_suffix _).subset member) (queuedFilter inside)

theorem queuedAdvance (inside : Queued (advance addr active) tx) : Queued active tx := by
  rw [advanceEq] at inside
  refine queuedCut (fun q tx member => ?_) (queuedFilter inside)
  split at member
  · exact List.mem_of_mem_tail member
  · exact member

theorem winnerPriced (won : winner baseFee ((waiting st active).filter (candidate baseFee)) = some (addr,tx)) :
    Queued active tx ∧ isFeePriced st tx = true ∧ baseFee ≤ tx.gasFeeCap := by
  obtain ⟨q,member,_,rest,front⟩ := winnerFront won
  obtain ⟨waits,meets⟩ := List.mem_filter.mp member
  refine ⟨queuedWaiting ⟨q,waits,front ▸ List.mem_cons_self⟩,?_,by simpa [candidate,front] using meets⟩
  obtain ⟨q₀,_,rfl⟩ := List.mem_map.mp (List.mem_of_mem_filter waits)
  have stopped := List.head?_dropWhile_not (free st) q₀.txs
  dsimp only at front
  rw [front] at stopped
  simpa [free] using stopped

theorem selectFloor {fuel : Nat} {budget : UInt64} (taken : tx ∈ select st baseFee gasLimit fuel active budget)
    (priced : isFeePriced st tx = true) : baseFee ≤ tx.gasFeeCap := by
  induction fuel generalizing active budget with
  | zero => cases taken
  | succ fuel ih =>
    have unfree : tx ∉ drained st active := fun inside => by simp [drainedFree inside] at priced
    unfold select at taken
    dsimp only at taken
    split at taken
    · exact absurd taken unfree
    · rename_i addr front won
      split at taken
      · exact ih ((List.mem_append.mp taken).resolve_left unfree)
      · rcases List.mem_cons.mp ((List.mem_append.mp taken).resolve_left unfree) with rfl | later
        · exact (winnerPriced won).2.2
        · exact ih later

theorem selectGas {fuel : Nat} {budget : UInt64} (within : budget ≤ gasLimit)
    (small : ∀ tx, Queued active tx → isFeePriced st tx = true → tx.gasLimit.toNat + gasLimit.toNat < 2 ^ 64) :
    budget.toNat + gasDue (isFeePriced st) (select st baseFee gasLimit fuel active budget) ≤ gasLimit.toNat := by
  induction fuel generalizing active budget with
  | zero => exact UInt64.le_iff_toNat_le.mp within
  | succ fuel ih =>
    have nothing : gasDue (isFeePriced st) (drained st active) = 0 := gasDueFree fun _ => drainedFree
    unfold select
    dsimp only
    split
    · rw [nothing]
      exact UInt64.le_iff_toNat_le.mp within
    · rename_i addr tx won
      obtain ⟨queued,priced,_⟩ := winnerPriced won
      split
      · rw [gasDueAppend,nothing,Nat.zero_add]
        exact ih within (fun tx inside => small tx (queuedWaiting (queuedFilter (queuedFilter inside))))
      · rename_i fits
        have sum : (budget + tx.gasLimit).toNat = budget.toNat + tx.gasLimit.toNat := by
          have room := small tx queued priced
          have below := UInt64.le_iff_toNat_le.mp within
          rw [UInt64.toNat_add]
          exact Nat.mod_eq_of_lt (by omega)
        have later := @ih (advance addr ((waiting st active).filter (candidate baseFee))) _ (UInt64.not_lt.mp fits)
          (fun tx inside => small tx (queuedWaiting (queuedFilter (queuedAdvance inside))))
        rw [gasDueAppend,nothing,gasDueCons,if_pos priced]
        omega

end
end L1Chain.BlockBuilder

namespace L1Chain
open Transition Runs

section
variable {k : UInt64} {l taken : List Transaction}

theorem consecutiveAbove (counts : Consecutive k l) (below : ∀ tx ∈ l, tx.nonce + 1 ≠ 0) :
    (∀ tx ∈ l, k.toNat ≤ tx.nonce.toNat) ∧ l.Pairwise (fun a b => a.nonce.toNat ≤ b.nonce.toNat) := by
  induction l generalizing k with
  | nil => exact ⟨by simp,List.Pairwise.nil⟩
  | cons tx rest ih =>
    obtain ⟨above,sorted⟩ := ih counts.2 (fun x member => below x (List.mem_cons_of_mem _ member))
    have next : (k + 1).toNat = k.toNat + 1 := by
      have unwrapped := below tx List.mem_cons_self
      rw [counts.1,ne_eq,← UInt64.toNat_inj,UInt64.toNat_add] at unwrapped
      have small := UInt64.toNat_lt k
      have one : (1 : UInt64).toNat = 1 := rfl
      have zero : (0 : UInt64).toNat = 0 := rfl
      rw [UInt64.toNat_add]
      omega
    have later : ∀ x ∈ rest, k.toNat ≤ x.nonce.toNat := fun x member => by
      have := above x member
      omega
    refine ⟨fun x member => ?_,List.pairwise_cons.mpr ⟨fun x member => counts.1 ▸ later x member,sorted⟩⟩
    rcases List.mem_cons.mp member with rfl | inside
    · rw [counts.1]
    · exact later x inside

theorem queueSequenced {mempool : List Transaction} {a : Address} (counts : Consecutive k (pooled mempool a))
    (below : ∀ tx ∈ mempool, tx.nonce + 1 ≠ 0) : BlockBuilder.queueOf mempool a = pooled mempool a :=
  (consecutiveAbove counts fun tx member => below tx (List.mem_of_mem_filter member)).2.insertionSort_eq

theorem costsPrefix {costly : Transaction → Bool} (front : taken <+: l) : costs costly taken ≤ costs costly l := by
  obtain ⟨rest,rfl⟩ := front
  simp [costs]

end
section
variable {E : Type} {env : Env E} {verifySig : VerifySig} {n : Node} {tx : Transaction} {op : Op}

def Node.priced (n : Node) (tx : Transaction) : Bool := isFeePriced n.chain.headState tx

def Watched (n : Node) (a : Address) : Prop :=
  ∃ tx ∈ n.mempool, a = tx.sender ∨ (n.priced tx = false ∧ a = tx.recipient)

/- What admission and selection leave unchecked. -/
structure Ready (env : Env E) (n : Node) : Prop where
  orders : ∀ tx ∈ n.mempool, tx.recipient ≠ Exchange.address
  tips : ∀ tx ∈ n.mempool, n.priced tx = true → tx.gasTipCap ≤ tx.gasFeeCap
  gas : ∀ tx ∈ n.mempool, n.priced tx = true → tx.gasLimit.toNat + n.chain.gasLimit.toNat < 2 ^ 64
  funds : ∀ a, costs n.priced (pooled n.mempool a) ≤ n.chain.headState.balances a
  supply : n.chain.headState.supply < 2 ^ 64
  nonces : ∀ tx ∈ n.mempool, tx.nonce + 1 ≠ 0
  codeless : Codeless (Watched n) n.chain.headState
  deploys : ∀ tx ∈ n.mempool, tx.recipient = 0 → ¬ Watched n (StackVM.createAddress env.sha tx.sender tx.nonce)
  evm : ∀ tx ∈ n.mempool, n.priced tx = true →
    EvmRespects env (Watched n) tx (n.chain.headD.header.height + 1) n.chain.nextBaseFee
  tall : n.chain.headD.header.height + 1 ≠ 0
  size : n.chain.blocks.entries.length < 2 ^ 64

structure Mining (env : Env E) (verifySig : VerifySig) (n : Node) : Prop where
  pooling : Pooling env verifySig n
  indexed : Indexed env n.chain
  pow : n.chain.consensus = .pow
  chainID : n.chain.chainID = n.chainID
  vetted : ∀ tx ∈ n.mempool, verifySig tx = true ∧ tx.chainID = n.chainID

theorem stepPool (env : Env E) (verifySig : VerifySig) (n : Node) (op : Op) :
    (n.step env verifySig op).chainID = n.chainID ∧
      ∀ tx ∈ (n.step env verifySig op).mempool, tx ∈ n.mempool ∨ Admitted verifySig n tx := by
  have stays : ∀ m : Node, m = n → m.chainID = n.chainID ∧ ∀ tx ∈ m.mempool, tx ∈ n.mempool ∨ Admitted verifySig n tx := by
    rintro m rfl
    exact ⟨rfl,fun _ => .inl⟩
  cases op with
  | submitTx tx =>
    rcases submitTxCases verifySig n tx with same | ⟨admitted,same⟩
    · exact stays _ same
    · rw [Node.step,same]
      refine ⟨rfl,fun x member => ?_⟩
      rcases List.mem_append.mp member with old | new
      · exact .inl old
      · cases List.mem_singleton.mp new
        exact .inr admitted
  | mineBlock now =>
    rcases mineBlockCases env verifySig n now with same | ⟨b,c',_,_,same⟩
    · exact stays _ same
    · rw [Node.step,same]
      exact ⟨rfl,fun _ member => .inl (List.mem_of_mem_filter member)⟩
  | proposeBlock now =>
    rcases proposeBlockCases env verifySig n now with same | ⟨b,c',_,_,same⟩
    · exact stays _ same
    · rw [Node.step,same]
      exact ⟨rfl,fun _ member => .inl (List.mem_of_mem_filter member)⟩
  | acceptExternalBlock b =>
    rcases acceptCases env verifySig n b with same | ⟨c',_,same⟩
    · exact stays _ same
    · rw [Node.step,same]
      exact ⟨rfl,fun _ => .inl⟩

theorem stepMining (m : Mining env verifySig n) (steady : Steady env verifySig n op) :
    Mining env verifySig (n.step env verifySig op) := by
  obtain ⟨id,pool⟩ := stepPool env verifySig n op
  have vetted : ∀ tx ∈ (n.step env verifySig op).mempool, verifySig tx = true ∧
      tx.chainID = (n.step env verifySig op).chainID := by
    intro tx member
    rw [id]
    rcases pool tx member with old | admitted
    · exact m.vetted tx old
    · exact ⟨admitted.signed,admitted.chainID⟩
  have pooling := stepPooling m.pooling steady
  rcases stepChain env verifySig n op with ⟨chain,_⟩ | ⟨b,c',added,chain,_⟩
  · refine ⟨pooling,?_,?_,?_,vetted⟩ <;> rw [chain]
    · exact m.indexed
    · exact m.pow
    · rw [id]
      exact m.chainID
  · obtain ⟨st,w,a,rfl⟩ := addBlockOk.mp added
    have config := commitConfig env n.chain b st w
    refine ⟨pooling,?_,?_,?_,vetted⟩ <;> rw [chain]
    · exact commitIndexed m.pooling.sound m.indexed a
    · exact config.consensus.trans m.pow
    · rw [id]
      exact config.chainID.trans m.chainID

theorem newMining {cfg : Config} {now : Int64} (mode : Exchange.Mode) (pow : cfg.consensusMode = .pow)
    (int : cfg.maxMempool < 2 ^ 63) (started : Node.new env verifySig cfg Store.empty now = .ok n) :
    Mining env verifySig (n.setExchangeMode mode) := by
  obtain ⟨consensus,chain,powered,empty,_,id⟩ := newFresh started
  have own : (n.setExchangeMode mode).chain =
      (⟨cfg.genesis now,cfg.resolvedChainID,defaultGasLimit,mode,consensus⟩ : Setup).chain env := by
    rw [Node.setExchangeMode,chain]
    rfl
  refine ⟨newPooling mode int started,own ▸ setupIndexed _,?_,?_,?_⟩
  · rw [own]
    exact powered pow
  · rw [own]
    exact id.symm
  · intro tx member
    have none : (n.setExchangeMode mode).mempool = [] := empty
    rw [none] at member
    cases member

theorem selectionPayable (m : Mining env verifySig n) (ready : Ready env n)
    (taken : tx ∈ n.chain.buildBlockTxs n.mempool) :
    Payable env verifySig (Watched n) n.priced (n.chain.headD.header.height + 1) n.chain.nextBaseFee tx := by
  have member := buildMember taken
  have plain : Exchange.isExchangeTx tx = false := by simpa [Exchange.isExchangeTx] using ready.orders tx member
  refine ⟨(m.vetted tx member).1,plain,⟨tx,member,.inl rfl⟩,ready.deploys tx member,?_,ready.tips tx member,
    BlockBuilder.selectFloor taken,ready.evm tx member⟩
  intro unpriced st codeless
  exact freeRoute plain unpriced (codeless _ ⟨tx,member,.inr ⟨unpriced,rfl⟩⟩)

theorem selectionFits (m : Mining env verifySig n) (ready : Ready env n) :
    Fits (Watched n) n.priced n.chain.headState (n.chain.buildBlockTxs n.mempool) := by
  have front : ∀ a, (n.chain.buildBlockTxs n.mempool).filter (·.sender = a) <+: pooled n.mempool a := by
    intro a
    have part := buildPrefix n.chain n.mempool a
    rwa [queueSequenced (m.pooling.sequenced a) ready.nonces] at part
  exact ⟨ready.supply,ready.codeless,fun a _ => consecutivePrefix (m.pooling.sequenced a) (front a),
    fun a _ => (costsPrefix (front a)).trans (ready.funds a)⟩

theorem selectionGas (ready : Ready env n) :
    gasDue n.priced (n.chain.buildBlockTxs n.mempool) ≤ n.chain.gasLimit.toNat := by
  have queued : ∀ tx, BlockBuilder.Queued (BlockBuilder.queues n.mempool) tx → tx ∈ n.mempool := by
    rintro tx ⟨q,member,inside⟩
    obtain ⟨a,_,rfl⟩ := List.mem_map.mp member
    exact (BlockBuilder.queueMember.mp inside).1
  have bound := @BlockBuilder.selectGas n.chain.headState n.chain.nextBaseFee n.chain.gasLimit _
    (2 * n.mempool.length + 1) 0 UInt64.zero_le (fun tx inside => ready.gas tx (queued tx inside))
  exact (Nat.le_add_left _ _).trans bound

theorem readyCandidate (m : Mining env verifySig n) (ready : Ready env n) : ∃ st gasUsed,
    n.chain.candidate env verifySig (n.chain.buildBlockTxs n.mempool) n.miner = .ok (st,gasUsed) ∧
      gasUsed ≤ n.chain.gasLimit := by
  obtain ⟨r,applied,gas⟩ := progressBlock (fun _ => selectionPayable m ready) (selectionFits m ready) (selectionGas ready)
  refine ⟨_,_,(candidateOk m.pooling.sound).mpr ⟨fun tx taken => ?_,r,applied,rfl,rfl⟩,gas⟩
  exact (m.vetted tx (buildMember taken)).2.trans m.chainID.symm

theorem commitSucceeds {b : Block} {txs : List Transaction} {st : MptState} {w : UInt64} (m : Mining env verifySig n)
    (size : n.chain.blocks.entries.length < 2 ^ 64) (a : Accepted env verifySig n.chain b st w) :
    (n.commitBlock env verifySig b txs).1 = .ok b := by
  have sound := commitSound m.pooling.sound a
  have indexed := commitIndexed m.pooling.sound m.indexed a
  have small : (n.chain.commit env b st w).blocks.entries.length ≤ 2 ^ 64 := by
    rw [commitSize a.fresh]
    exact size
  simp only [Node.commitBlock,addBlockOk.mpr ⟨st,w,a,rfl⟩,Node.saveChain,Node.prune]
  cases n.store with
  | none => rfl
  | some s =>
    obtain ⟨s',saved,_⟩ := saveOk s sound indexed small
    simp only [saved]

/- Where nothing in the pool needs more than admission and selection have checked, the
selection is accepted as a candidate, and a block that meets the target is produced. -/
theorem readyProduces {cfg : Config} {now : Int64} {ops : List Op} {n₀ : Node} (mode : Exchange.Mode)
    (pow : cfg.consensusMode = .pow) (int : cfg.maxMempool < 2 ^ 63)
    (started : Node.new env verifySig cfg Store.empty now = .ok n₀)
    (steady : Along (Node.step env verifySig) (Steady env verifySig) (n₀.setExchangeMode mode) ops)
    (ran : n = ops.foldl (Node.step env verifySig) (n₀.setExchangeMode mode)) (ready : Ready env n) :
    ∃ root gasUsed, n.chain.candidateStateRoot env verifySig (n.chain.buildBlockTxs n.mempool) n.miner =
      .ok (root,gasUsed) ∧ ∀ later header,
        mine env.sha (assemble env n.chain (n.chain.buildBlockTxs n.mempool) n.miner later n.difficulty root gasUsed).header =
          some header → n.chain.getByHash (header.hash env.sha) = none →
        (n.mineBlock env verifySig later).1 = .ok ⟨header,n.chain.buildBlockTxs n.mempool⟩ := by
  have m : Mining env verifySig n := ran ▸ invariant (Mining env verifySig) (fun _ _ m steady => stepMining m steady)
    (newMining mode pow int started) steady
  obtain ⟨st,gasUsed,cand,gas⟩ := readyCandidate m ready
  refine ⟨env.stateRoot st,gasUsed,?_,fun later header found fresh => ?_⟩
  · simp only [Chain.candidateStateRoot,cand]
    rfl
  · rw [mineBlockEq rfl cand found]
    exact commitSucceeds m ready.size (minedAccepted m.pooling.sound m.pow cand gas ready.tall found fresh)

end
namespace Devnet

def overspend : Transaction := {soloPayment with recipient := account 1, value := 1000}

theorem overspendAdmitted (disk : Store) : Admitted acceptNonEmptySig (soloNode 0 disk) overspend :=
  ⟨rfl,rfl,rfl,fun different => absurd rfl different,show 0 < 4096 by decide⟩

theorem overspendRejected : applyTxsAt env acceptNonEmptySig soloFunds [overspend] 1 .continuous 0 =
    .error .insufficientBalance := rfl

theorem overspendCandidate (coinbase : Address) :
    ((soloSetup 0).chain env).candidateStateRoot env acceptNonEmptySig [overspend] coinbase =
      .error (.tx .insufficientBalance) := by
  have sound : Sound env acceptNonEmptySig ((soloSetup 0).chain env) := setupSound _
  have ids : ((soloSetup 0).chain env).assertChainID [overspend] = .ok () := rfl
  have height : ((soloSetup 0).chain env).headD.header.height + 1 = 1 := by
    rw [setupHead]
    rfl
  have fee : ((soloSetup 0).chain env).nextBaseFee = 0 := by
    rw [Chain.nextBaseFee,setupHead]
    rfl
  have rejected : applyTxsAt env acceptNonEmptySig ((soloSetup 0).chain env).headState [overspend] 1
      ((soloSetup 0).chain env).exchangeMode 0 = .error .insufficientBalance := overspendRejected
  simp only [Chain.candidateStateRoot,Chain.candidate,sound.headState,ids,height,fee,bind,Except.bind,rejected,liftTx]

/- One admitted self-payment of more than the balance, and the node never mines again:
every attempt fails on the same selection and leaves the pool as it is. -/
theorem overspendStallsMining : ∃ disk n,
    Node.new env acceptNonEmptySig (soloConfig 0) Store.empty 0 = .ok (soloNode 0 disk) ∧
    n = [.submitTx overspend].foldl (Node.step env acceptNonEmptySig) ((soloNode 0 disk).setExchangeMode .continuous) ∧
    n.mempool = [overspend] ∧
    n.chain.candidateStateRoot env acceptNonEmptySig (n.chain.buildBlockTxs n.mempool) n.miner =
      .error (.tx .insufficientBalance) ∧
    ∀ now, n.mineBlock env acceptNonEmptySig now = (.error (.chain (.tx .insufficientBalance)),n) := by
  obtain ⟨disk,_,started,_⟩ := soloReached 0
  have step : Node.step env acceptNonEmptySig ((soloNode 0 disk).setExchangeMode .continuous) (.submitTx overspend) =
      (soloNode 0 disk).pool overspend := congrArg Prod.snd (submitTxOk (overspendAdmitted disk))
  have selected : ((soloNode 0 disk).pool overspend).chain.buildBlockTxs ((soloNode 0 disk).pool overspend).mempool =
      [overspend] := buildSingle (show isFeePriced soloFunds overspend = false from rfl)
  have refused : ((soloNode 0 disk).pool overspend).chain.candidateStateRoot env acceptNonEmptySig [overspend]
      ((soloNode 0 disk).pool overspend).miner = .error (.tx .insufficientBalance) := overspendCandidate _
  refine ⟨disk,(soloNode 0 disk).pool overspend,started,step.symm,rfl,?_,fun now => ?_⟩
  · rw [selected]
    exact refused
  · simp only [Node.mineBlock,selected,refused]

theorem soloReady (disk : Store) : Ready env ((soloNode 0 disk).pool soloPayment) := by
  have member : ∀ tx ∈ ((soloNode 0 disk).pool soloPayment).mempool, tx = soloPayment := fun tx inside =>
    List.mem_singleton.mp inside
  have unpriced : ((soloNode 0 disk).pool soloPayment).priced soloPayment = false := soloUnpriced _
  have plain : ∀ tx ∈ ((soloNode 0 disk).pool soloPayment).mempool,
      ((soloNode 0 disk).pool soloPayment).priced tx ≠ true := by
    intro tx inside
    rw [member tx inside,unpriced]
    decide
  refine ⟨?_,fun tx inside priced => absurd priced (plain tx inside),fun tx inside priced => absurd priced (plain tx inside),
    ?_,?_,?_,?_,?_,fun tx inside priced => absurd priced (plain tx inside),?_,?_⟩
  · intro tx inside
    rw [member tx inside]
    decide
  · intro a
    have pool : pooled ((soloNode 0 disk).pool soloPayment).mempool a = [soloPayment].filter (·.sender = a) := rfl
    rw [pool,List.filter_cons]
    split
    · rename_i own
      have sender : soloPayment.sender = a := by simpa using own
      rw [← sender]
      have enough : 40 ≤ soloFunds.balances soloPayment.sender := by decide
      simp only [List.filter_nil,costs,List.map_cons,List.map_nil,List.sum_cons,List.sum_nil,cost,unpriced]
      exact enough
    · exact Nat.zero_le _
  · exact soloFundsSupply.trans_lt (by decide)
  · intro tx inside
    rw [member tx inside]
    decide
  · intro a _
    show (soloFunds.accounts a).code = []
    exact MptState.putKeeps (·.code) rfl
  · intro tx inside deploys
    rw [member tx inside] at deploys
    exact absurd deploys (by decide)
  · show ((soloSetup 0).chain env).headD.header.height + 1 ≠ 0
    rw [setupHead]
    exact (by decide : (0 : UInt64) + 1 ≠ 0)
  · show ((soloSetup 0).chain env).blocks.entries.length < 2 ^ 64
    have one : ((soloSetup 0).chain env).blocks.entries.length = 1 := rfl
    rw [one]
    decide

theorem soloMinesPayment : ∃ disk n,
    Node.new env acceptNonEmptySig (soloConfig 0) Store.empty 0 = .ok (soloNode 0 disk) ∧
    n = [.submitTx soloPayment].foldl (Node.step env acceptNonEmptySig) ((soloNode 0 disk).setExchangeMode .continuous) ∧
    Ready env n ∧ (n.mineBlock env acceptNonEmptySig 1).1 = .ok (soloBlock 0) := by
  obtain ⟨disk,_,started,_⟩ := soloReached 0
  have ran : (soloNode 0 disk).pool soloPayment =
      [.submitTx soloPayment].foldl (Node.step env acceptNonEmptySig) ((soloNode 0 disk).setExchangeMode .continuous) :=
    (soloSubmitted disk).symm
  refine ⟨disk,(soloNode 0 disk).pool soloPayment,started,ran,soloReady disk,?_⟩
  have steady : Along (Node.step env acceptNonEmptySig) (Steady env acceptNonEmptySig)
      ((soloNode 0 disk).setExchangeMode .continuous) [.submitTx soloPayment] := ⟨trivial,trivial⟩
  obtain ⟨root,gasUsed,cand,mines⟩ := readyProduces .continuous rfl (by decide) started steady ran (soloReady disk)
  have selected : ((soloNode 0 disk).pool soloPayment).chain.buildBlockTxs ((soloNode 0 disk).pool soloPayment).mempool =
      [soloPayment] := buildSingle (soloUnpriced _)
  have known : ((soloNode 0 disk).pool soloPayment).chain.candidateStateRoot env acceptNonEmptySig [soloPayment]
      ((soloNode 0 disk).pool soloPayment).miner = .ok (env.stateRoot soloPaid,0) := by
    have own := soloCandidate 0
    show ((soloSetup 0).chain env).candidateStateRoot env acceptNonEmptySig [soloPayment] (account 3) = _
    simp only [Chain.candidateStateRoot,soloPayment,own]
    rfl
  rw [selected] at cand mines
  obtain ⟨rfl,rfl⟩ := Prod.mk.inj (Except.ok.inj (cand.symm.trans known))
  exact mines 1 (soloBlock 0).header (soloMined 0) (soloAccepted 0).fresh

end Devnet
end L1Chain
