import L1Chain.Node

/-! What one operation of a node can do: nothing, admit one transaction, or put one
block on the chain. `Admitted` lists the checks of SubmitTx; the block of a node's
own making holds the selected transactions, which then leave the pool. -/
namespace L1Chain
open Transition Runs

variable {E : Type} {env : Env E} {verifySig : VerifySig} {n : Node} {tx : Transaction}

structure Admitted (verifySig : VerifySig) (n : Node) (tx : Transaction) : Prop where
  signed : verifySig tx = true
  chainID : tx.chainID = n.chainID
  nonce : tx.nonce = (n.projectSender tx.sender).1
  funds : tx.sender ≠ tx.recipient → tx.value ≤ (n.projectSender tx.sender).2
  room : n.mempool.length < n.maxMempool

def Node.pool (n : Node) (tx : Transaction) : Node := {n with mempool := n.mempool ++ [tx]}

def Node.extend (sha : Bytes → Hash) (n : Node) (c : Chain) : Node :=
  {n with chain := c, store := n.store.map (fun s => (s.save sha c).2)}

theorem submitTxCases (verifySig : VerifySig) (n : Node) (tx : Transaction) :
    (n.submitTx verifySig tx).2 = n ∨ (Admitted verifySig n tx ∧ (n.submitTx verifySig tx).2 = n.pool tx) := by
  unfold Node.submitTx
  split
  · exact .inl rfl
  · rename_i signed
    split
    · exact .inl rfl
    · rename_i chainID
      simp only
      split
      · exact .inl rfl
      · rename_i nonce
        split
        · exact .inl rfl
        · rename_i funds
          split
          · exact .inl rfl
          · rename_i room
            refine .inr ⟨⟨by simpa using signed,by simpa using chainID,by simpa using nonce,?_,by omega⟩,rfl⟩
            intro different
            simp only [not_and,UInt64.not_lt] at funds
            exact funds different

theorem submitTxOk (a : Admitted verifySig n tx) : n.submitTx verifySig tx = (.ok (),n.pool tx) := by
  have funds : ¬ (tx.sender ≠ tx.recipient ∧ (n.projectSender tx.sender).2 < tx.value) := by
    rintro ⟨different,short⟩
    exact absurd short (UInt64.not_lt.mpr (a.funds different))
  simp only [Node.submitTx,a.signed,a.chainID,← a.nonce,if_neg funds,if_neg (Nat.not_le.mpr a.room),
    not_true_eq_false,ne_eq,if_false]
  rfl

theorem saveChainNode (sha : Bytes → Hash) (n : Node) : (n.saveChain sha).2 = n.extend sha n.chain := by
  unfold Node.saveChain Node.extend
  cases held : n.store with
  | none =>
    obtain ⟨_,_,_,_,_,_,_,_,_,_⟩ := n
    cases held
    rfl
  | some s =>
    simp only [Option.map_some]
    cases saved : s.save sha n.chain with
    | mk result s' =>
      cases result <;> rfl

theorem commitBlockNode {b : Block} {txs : List Transaction} {c' : Chain}
    (added : n.chain.addBlock env verifySig b = .ok c') :
    (n.commitBlock env verifySig b txs).2 = (n.prune env.sha txs).extend env.sha c' := by
  have saved := saveChainNode env.sha (({n with chain := c'} : Node).prune env.sha txs)
  simp only [Node.commitBlock,added]
  split
  · rename_i e m same
    rw [same] at saved
    exact saved
  · rename_i m same
    rw [same] at saved
    exact saved

theorem commitBlockCases (env : Env E) (verifySig : VerifySig) (n : Node) (b : Block) (txs : List Transaction) :
    (n.commitBlock env verifySig b txs).2 = n ∨ ∃ c', n.chain.addBlock env verifySig b = .ok c' ∧
      (n.commitBlock env verifySig b txs).2 = (n.prune env.sha txs).extend env.sha c' := by
  cases added : n.chain.addBlock env verifySig b with
  | error e => exact .inl (by simp [Node.commitBlock,added])
  | ok c' => exact .inr ⟨c',rfl,commitBlockNode added⟩

def ownWeight (n : Node) : UInt64 :=
  match n.chain.consensus with
  | .pow => n.difficulty.toUInt64
  | .pos _ => 1

structure Own (env : Env E) (n : Node) (b : Block) : Prop where
  built : ∃ root gasUsed, Sealed env n.chain b (n.chain.buildBlockTxs n.mempool) n.miner root gasUsed
  weight : weightOf n.chain.consensus b = ownWeight n

theorem mineFromSound {sha : Bytes → Hash} {h h' : Header} {fuel : Nat} {i : UInt64}
    (found : mineFrom sha h fuel i = some h') :
    ∃ nonce, h' = {h with nonce := nonce} ∧ meetsTarget (h'.hash sha) h'.difficulty = true := by
  induction fuel generalizing h i with
  | zero => simp [mineFrom] at found
  | succ fuel ih =>
    simp only [mineFrom] at found
    split at found
    · rename_i meets
      cases found
      exact ⟨i,rfl,meets⟩
    · obtain ⟨nonce,same,meets⟩ := ih found
      exact ⟨nonce,same,meets⟩

theorem mineBlockCases (env : Env E) (verifySig : VerifySig) (n : Node) (now : Int64) :
    (n.mineBlock env verifySig now).2 = n ∨ ∃ b c', Own env n b ∧ n.chain.addBlock env verifySig b = .ok c' ∧
      (n.mineBlock env verifySig now).2 = (n.prune env.sha b.txs).extend env.sha c' := by
  unfold Node.mineBlock
  simp only
  split
  · exact .inl rfl
  · rename_i root gasUsed _
    split
    · exact .inl rfl
    · rename_i header found
      rcases commitBlockCases env verifySig n _ (n.chain.buildBlockTxs n.mempool) with same | ⟨c',added,same⟩
      · exact .inl same
      · obtain ⟨nonce,rfl,_⟩ := mineFromSound found
        refine .inr ⟨_,c',⟨⟨root,gasUsed,⟨rfl,rfl,rfl,rfl,rfl,rfl,rfl,rfl⟩⟩,?_⟩,added,same⟩
        unfold weightOf ownWeight
        cases n.chain.consensus <;> rfl

theorem proposeBlockCases (env : Env E) (verifySig : VerifySig) (n : Node) (now : Int64) :
    (n.proposeBlock env verifySig now).2 = n ∨ ∃ b c', Own env n b ∧ n.chain.addBlock env verifySig b = .ok c' ∧
      (n.proposeBlock env verifySig now).2 = (n.prune env.sha b.txs).extend env.sha c' := by
  unfold Node.proposeBlock
  split
  · exact .inl rfl
  · rename_i vs mode
    simp only
    split
    · exact .inl rfl
    · split
      · exact .inl rfl
      · split
        · exact .inl rfl
        · split
          · exact .inl rfl
          · rename_i root gasUsed _
            rcases commitBlockCases env verifySig n _ (n.chain.buildBlockTxs n.mempool) with same | ⟨c',added,same⟩
            · exact .inl same
            · refine .inr ⟨_,c',⟨⟨root,gasUsed,⟨rfl,rfl,rfl,rfl,rfl,rfl,rfl,rfl⟩⟩,?_⟩,added,same⟩
              rw [ownWeight,mode]
              rfl

theorem freshSetup {cfg : Config} {disk : Store} {now : Int64} (made : Node.fresh env cfg disk now = .ok n) :
    ∃ consensus, n.chain = (⟨cfg.genesis now,cfg.resolvedChainID,defaultGasLimit,.continuous,consensus⟩ : Setup).chain env ∧
      (cfg.consensusMode = .pow → consensus = .pow) ∧ n.mempool = [] ∧ n.maxMempool = cfg.mempoolCap ∧
      n.chainID = cfg.resolvedChainID := by
  have chain : ∀ {c : Chain}, Node.configure env cfg now = .ok c → ∃ consensus,
      c = (⟨cfg.genesis now,cfg.resolvedChainID,defaultGasLimit,.continuous,consensus⟩ : Setup).chain env ∧
      (cfg.consensusMode = .pow → consensus = .pow) := by
    intro c configured
    unfold Node.configure at configured
    dsimp only at configured
    split at configured
    · exact ⟨.pow,(Except.ok.inj configured).symm,fun _ => rfl⟩
    · rename_i pos
      split at configured
      · cases configured
      · rename_i vs _
        exact ⟨.pos vs,(Except.ok.inj configured).symm,fun pow => nomatch pos.symm.trans pow⟩
  unfold Node.fresh at made
  split at made
  · cases made
  · rename_i c configured
    obtain ⟨consensus,same,pow⟩ := chain configured
    split at made
    · split at made
      · cases made
      · cases Except.ok.inj made
        exact ⟨consensus,same,pow,rfl,rfl,rfl⟩
    · cases Except.ok.inj made
      exact ⟨consensus,same,pow,rfl,rfl,rfl⟩

theorem posFresh {cfg : Config} {disk : Store} {now : Int64} (pos : cfg.consensusMode = .pos)
    (made : Node.new env verifySig cfg disk now = .ok n) : Node.fresh env cfg disk now = .ok n := by
  simp only [Node.new,pos,if_true] at made
  split at made
  · split at made
    · cases made
    · exact made
    · cases made
  · exact made

theorem commitBlockOk {b b' : Block} {txs : List Transaction} {n' : Node}
    (ok : n.commitBlock env verifySig b txs = (.ok b',n')) :
    b' = b ∧ n.chain.addBlock env verifySig b = .ok n'.chain ∧ n'.mempool = (n.prune env.sha txs).mempool := by
  cases added : n.chain.addBlock env verifySig b with
  | error e =>
    rw [Node.commitBlock,added] at ok
    cases ok
  | ok c' =>
    have node : (n.commitBlock env verifySig b txs).2 = _ := commitBlockNode added
    rw [ok] at node
    cases node
    simp only [Node.commitBlock,added] at ok
    split at ok
    · cases ok
    · cases ok
      exact ⟨rfl,rfl,rfl⟩

theorem mineBlockOk {b : Block} {n' : Node} {now : Int64} (ok : n.mineBlock env verifySig now = (.ok b,n')) :
    Own env n b ∧ n.chain.addBlock env verifySig b = .ok n'.chain ∧ n'.mempool = (n.prune env.sha b.txs).mempool := by
  unfold Node.mineBlock at ok
  simp only at ok
  split at ok
  · cases ok
  · rename_i root gasUsed _
    split at ok
    · cases ok
    · rename_i header found
      obtain ⟨rfl,added,pool⟩ := commitBlockOk ok
      obtain ⟨nonce,rfl,_⟩ := mineFromSound found
      refine ⟨⟨⟨root,gasUsed,⟨rfl,rfl,rfl,rfl,rfl,rfl,rfl,rfl⟩⟩,?_⟩,added,pool⟩
      unfold weightOf ownWeight
      cases n.chain.consensus <;> rfl

theorem proposeBlockOk {b : Block} {n' : Node} {now : Int64} (ok : n.proposeBlock env verifySig now = (.ok b,n')) :
    (∃ vs, n.chain.consensus = .pos vs) ∧ Own env n b ∧ n.chain.addBlock env verifySig b = .ok n'.chain ∧
      n'.mempool = (n.prune env.sha b.txs).mempool := by
  unfold Node.proposeBlock at ok
  split at ok
  · cases ok
  · rename_i vs mode
    simp only at ok
    split at ok
    · cases ok
    · split at ok
      · cases ok
      · split at ok
        · cases ok
        · split at ok
          · cases ok
          · rename_i root gasUsed _
            obtain ⟨rfl,added,pool⟩ := commitBlockOk ok
            refine ⟨⟨vs,mode⟩,⟨⟨root,gasUsed,⟨rfl,rfl,rfl,rfl,rfl,rfl,rfl,rfl⟩⟩,?_⟩,added,pool⟩
            rw [ownWeight,mode]
            rfl

theorem acceptNode {b : Block} {c' : Chain} (added : n.chain.addBlock env verifySig b = .ok c') :
    (n.acceptExternalBlock env verifySig b).2 = n.extend env.sha c' := by
  simp only [Node.acceptExternalBlock,added]
  exact saveChainNode env.sha {n with chain := c'}

theorem acceptCases (env : Env E) (verifySig : VerifySig) (n : Node) (b : Block) :
    (n.acceptExternalBlock env verifySig b).2 = n ∨ ∃ c', n.chain.addBlock env verifySig b = .ok c' ∧
      (n.acceptExternalBlock env verifySig b).2 = n.extend env.sha c' := by
  cases added : n.chain.addBlock env verifySig b with
  | error e =>
    refine .inl ?_
    simp only [Node.acceptExternalBlock,added]
    split <;> rfl
  | ok c' => exact .inr ⟨c',rfl,acceptNode added⟩

theorem stepChain (env : Env E) (verifySig : VerifySig) (n : Node) (op : Op) :
    ((n.step env verifySig op).chain = n.chain ∧ (n.step env verifySig op).store = n.store) ∨
    ∃ b c', n.chain.addBlock env verifySig b = .ok c' ∧ (n.step env verifySig op).chain = c' ∧
      (n.step env verifySig op).store = n.store.map (fun s => (s.save env.sha c').2) := by
  cases op with
  | submitTx tx =>
    refine .inl ?_
    rcases submitTxCases verifySig n tx with same | ⟨_,same⟩ <;> simp [Node.step,same,Node.pool]
  | mineBlock now =>
    rcases mineBlockCases env verifySig n now with same | ⟨b,c',_,added,same⟩
    · exact .inl (by simp [Node.step,same])
    · exact .inr ⟨b,c',added,by simp [Node.step,same,Node.extend,Node.prune]⟩
  | proposeBlock now =>
    rcases proposeBlockCases env verifySig n now with same | ⟨b,c',_,added,same⟩
    · exact .inl (by simp [Node.step,same])
    · exact .inr ⟨b,c',added,by simp [Node.step,same,Node.extend,Node.prune]⟩
  | acceptExternalBlock b =>
    rcases acceptCases env verifySig n b with same | ⟨c',added,same⟩
    · exact .inl (by simp [Node.step,same])
    · exact .inr ⟨b,c',added,by simp [Node.step,same,Node.extend]⟩

theorem mineFirst {sha : Bytes → Hash} {h : Header}
    (meets : meetsTarget (({h with nonce := 0} : Header).hash sha) h.difficulty = true) :
    mine sha h = some {h with nonce := 0} := by
  have fuel : 2 ^ 64 = 2 ^ 64 - 1 + 1 := by omega
  rw [mine,fuel,mineFrom]
  exact if_pos meets

theorem minedAccepted {c : Chain} {st : MptState} {txs : List Transaction} {miner : Address} {now : Int64}
    {difficulty : UInt32} {gasUsed : UInt64} {header : Header} (s : Sound env verifySig c) (pow : c.consensus = .pow)
    (cand : c.candidate env verifySig txs miner = .ok (st,gasUsed)) (gas : gasUsed ≤ c.gasLimit)
    (tall : c.headD.header.height + 1 ≠ 0)
    (found : mine env.sha (assemble env c txs miner now difficulty (env.stateRoot st) gasUsed).header = some header)
    (fresh : c.getByHash (header.hash env.sha) = none) :
    Accepted env verifySig c ⟨header,txs⟩ st difficulty.toUInt64 := by
  obtain ⟨nonce,rfl,meets⟩ := mineFromSound found
  have built : Sealed env c ⟨{(assemble env c txs miner now difficulty (env.stateRoot st) gasUsed).header with
      nonce := nonce},txs⟩ txs miner (env.stateRoot st) gasUsed := ⟨rfl,rfl,rfl,rfl,rfl,rfl,rfl,rfl⟩
  refine sealedAccepted s built cand gas fresh tall ?_ ?_
  · simp only [Chain.respectsFinality,pow]
  · simp only [Chain.checkConsensus,pow]
    exact if_pos meets

theorem mineBlockEq {st : MptState} {txs : List Transaction} {now : Int64} {gasUsed : UInt64} {header : Header}
    (selected : n.chain.buildBlockTxs n.mempool = txs)
    (cand : n.chain.candidate env verifySig txs n.miner = .ok (st,gasUsed))
    (found : mine env.sha (assemble env n.chain txs n.miner now n.difficulty (env.stateRoot st) gasUsed).header =
      some header) : n.mineBlock env verifySig now = n.commitBlock env verifySig ⟨header,txs⟩ txs := by
  have root : n.chain.candidateStateRoot env verifySig txs n.miner = .ok (env.stateRoot st,gasUsed) := by
    simp only [Chain.candidateStateRoot,cand]
    rfl
  subst selected
  simp only [Node.mineBlock,root,found]
  rfl

end L1Chain
