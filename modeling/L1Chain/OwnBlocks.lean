import L1Chain.BlockBody
import L1Chain.Mempool

/-! The blocks a node makes itself. MineBlock and ProposeBlock report success when AddBlock
has stored the block, and take its transactions from the pool; whether the block is the
head afterwards is decided by the weights, of which a block of difficulty 0 adds none. -/
namespace L1Chain
open Transition Runs

/- `GetTxByHash`: the canonical blocks from height 0 on, `count` of them. For a head at the
last height the source's counter wraps and an unsuccessful search starts over. -/
def Node.scanTx (sha : Bytes → Hash) (n : Node) (h : Hash) : ℕ → UInt64 → Option Transaction
  | 0, _ => none
  | count+1, height =>
    match (n.chain.getByHeight height).bind (fun b => b.txs.find? (·.hash sha = h)) with
    | some tx => some tx
    | none => scanTx sha n h count (height + 1)

def Node.getTxByHash (sha : Bytes → Hash) (n : Node) (h : Hash) : Option Transaction :=
  n.scanTx sha h (n.chain.headD.header.height.toNat + 1) 0

section
variable {E : Type} (env : Env E) (verifySig : VerifySig)

inductive Node.Reached : Node → Prop
  | new {cfg : Config} {disk : Store} {now : Int64} {n : Node} (started : Node.new env verifySig cfg disk now = .ok n) :
      Reached n
  | step {n : Node} (before : Reached n) (op : Op) : Reached (n.step env verifySig op)
  | mode {n : Node} (before : Reached n) (mode : Exchange.Mode) : Reached (n.setExchangeMode mode)

inductive Node.Produced (n : Node) (b : Block) (n' : Node) : Prop
  | mined (now : Int64) (ok : n.mineBlock env verifySig now = (.ok b,n'))
  | proposed (now : Int64) (ok : n.proposeBlock env verifySig now = (.ok b,n'))

structure Node.Canonical (sha : Bytes → Hash) (n : Node) (b : Block) (n' : Node) : Prop where
  head : n'.chain.head = b.hash sha ∧ n'.chain.headBlock = some b
  found : ∀ tx ∈ n.mempool, tx ∉ n'.mempool →
    ∃ u, n'.getTxByHash sha (tx.hash sha) = some u ∧ u.hash sha = tx.hash sha
  removed : ∀ tx ∈ n.mempool, tx ∉ n'.mempool → tx ∈ b.txs

/- What a chain has from its first block on, whatever its configuration: blocks under
their hashes, with their ancestors. -/
structure Trunk (c : Chain) : Prop where
  keyed : ∀ h b, c.getByHash h = some b → b.hash env.sha = h
  genesis : ∃ g, c.getByHash c.genesisHash = some g
  rooted : c.Rooted
  headStored : ∃ b, c.getByHash c.head = some b

structure Held (n : Node) : Prop where
  trunk : Trunk env n.chain
  signed : ∀ tx ∈ n.mempool, verifySig tx = true

end

section
variable {E : Type} {env : Env E} {verifySig : VerifySig} {c c' : Chain} {n n' : Node} {b : Block} {st : MptState}
  {w : UInt64} {h : Hash} {tx : Transaction}

theorem addGrows (x y : UInt64) : x + y > x ↔ y ≠ 0 ∧ x.toNat + y.toNat < 2 ^ 64 := by
  have left := x.toNat_lt
  have right := y.toNat_lt
  have zero : y = 0 ↔ y.toNat = 0 := UInt64.toNat_inj.symm
  rw [gt_iff_lt,UInt64.lt_iff_toNat_lt,UInt64.toNat_add,Ne,zero]
  omega

theorem soundTrunk (s : Sound env verifySig c) : Trunk env c :=
  ⟨s.keyed,s.genesis.imp fun _ found => found.1,s.rooted,s.headStored⟩

theorem newChainTrunk (genesis : Block) (alloc baseAlloc : AList (fun _ : Address => UInt64)) :
    Trunk env (newChain env genesis alloc baseAlloc) := by
  have look : (newChain env genesis alloc baseAlloc).getByHash = fun h =>
      if h = genesis.hash env.sha then some genesis else none := funext fun h => singletonLookup _ h _
  refine ⟨fun h b found => ?_,⟨genesis,?_⟩,?_,⟨genesis,?_⟩⟩
  · rw [look] at found
    dsimp only at found
    split at found
    · rename_i same
      cases found
      exact same.symm
    · cases found
  · rw [look]
    exact if_pos rfl
  · unfold Chain.Rooted
    rw [look]
    exact Forest.rootedSingle
  · rw [look]
    exact if_pos rfl

theorem commitTrunk (t : Trunk env c) (a : Accepted env verifySig c b st w) : Trunk env (c.commit env b st w) := by
  have grows : Grows c (c.commit env b st w) := commitGrows a.fresh
  obtain ⟨g,genesis⟩ := t.genesis
  obtain ⟨p,found,_,_⟩ := a.parent
  refine ⟨fun h x stored => ?_,⟨g,?_⟩,commitRooted t.rooted ⟨g,genesis⟩ a.fresh ⟨p,found⟩,?_⟩
  · rcases (commitFound a.fresh h x).mp stored with old | ⟨same,new⟩
    · exact t.keyed h x old
    · rw [same,new]
  · rw [grows.config.genesisHash]
    exact grows.blocks _ _ genesis
  · obtain ⟨y,headFound⟩ := t.headStored
    rw [Chain.commitHead]
    split
    · exact ⟨b,(commitFound a.fresh _ _).mpr (.inr ⟨rfl,rfl⟩)⟩
    · exact ⟨y,grows.blocks _ _ headFound⟩

theorem addTrunk (t : Trunk env c) (added : c.addBlock env verifySig b = .ok c') : Trunk env c' := by
  obtain ⟨st,w,a,rfl⟩ := addBlockOk.mp added
  exact commitTrunk t a

theorem replayTrunk {s : Store} {count : ℕ} {height : UInt64} (t : Trunk env c)
    (ok : s.replayFrom env verifySig count height c = .ok c') : Trunk env c' := by
  induction count generalizing c height with
  | zero =>
    cases ok
    exact t
  | succ count ih =>
    unfold Store.replayFrom at ok
    split at ok
    · cases ok
    · split at ok
      · cases ok
      · split at ok
        · cases ok
        · rename_i added
          exact ih (addTrunk t added) ok

theorem loadTrunk {s : Store} (ok : s.load env verifySig = .ok (some c)) : Trunk env c := by
  unfold Store.load at ok
  split at ok
  · cases ok
  · split at ok
    · cases ok
    · split at ok
      · cases ok
      · dsimp only at ok
        split at ok
        · cases ok
        · split at ok
          · cases ok
          · rename_i replayed
            split at ok
            · cases ok
            · cases ok
              exact replayTrunk (newChainTrunk _ _ _) replayed

theorem newHeld {cfg : Config} {disk : Store} {now : Int64} (started : Node.new env verifySig cfg disk now = .ok n) :
    Held env verifySig n := by
  have fresh : Node.fresh env cfg disk now = .ok n → Held env verifySig n := fun made => by
    obtain ⟨consensus,chain,_,empty,_⟩ := freshSetup made
    refine ⟨?_,by simp [empty]⟩
    rw [chain]
    exact soundTrunk (setupSound _ : Sound env verifySig _)
  unfold Node.new at started
  split at started
  · split at started
    · cases started
    · exact fresh started
    · rename_i loaded
      split at started
      · cases started
      · cases started
        have t := loadTrunk loaded
        exact ⟨⟨t.keyed,t.genesis,t.rooted,t.headStored⟩,fun tx member => (nomatch member)⟩
  · exact fresh started

theorem pruneHeld (held : Held env verifySig n) (txs : List Transaction) (added : n.chain.addBlock env verifySig b = .ok c') :
    Held env verifySig ((n.prune env.sha txs).extend env.sha c') :=
  ⟨addTrunk held.trunk added,fun tx member => held.signed tx (List.mem_of_mem_filter member)⟩

theorem stepHeld (held : Held env verifySig n) (op : Op) : Held env verifySig (n.step env verifySig op) := by
  cases op with
  | submitTx tx =>
    rcases submitTxCases verifySig n tx with same | ⟨admitted,same⟩
    · rwa [Node.step,same]
    · rw [Node.step,same]
      refine ⟨held.trunk,fun u member => ?_⟩
      rcases List.mem_append.mp member with old | new
      · exact held.signed u old
      · rw [List.mem_singleton.mp new]
        exact admitted.signed
  | mineBlock now =>
    rcases mineBlockCases env verifySig n now with same | ⟨b,c',_,added,same⟩
    · rwa [Node.step,same]
    · rw [Node.step,same]
      exact pruneHeld held _ added
  | proposeBlock now =>
    rcases proposeBlockCases env verifySig n now with same | ⟨b,c',_,added,same⟩
    · rwa [Node.step,same]
    · rw [Node.step,same]
      exact pruneHeld held _ added
  | acceptExternalBlock b =>
    rcases acceptCases env verifySig n b with same | ⟨c',added,same⟩
    · rwa [Node.step,same]
    · rw [Node.step,same]
      exact ⟨addTrunk held.trunk added,held.signed⟩

theorem reachedHeld (reached : Node.Reached env verifySig n) : Held env verifySig n := by
  induction reached with
  | new started => exact newHeld started
  | step _ op held => exact stepHeld held op
  | mode _ _ held => exact ⟨⟨held.trunk.keyed,held.trunk.genesis,held.trunk.rooted,held.trunk.headStored⟩,held.signed⟩

theorem producedOwn (made : n.Produced env verifySig b n') :
    Own env n b ∧ n.chain.addBlock env verifySig b = .ok n'.chain ∧ n'.mempool = (n.prune env.sha b.txs).mempool := by
  cases made with
  | mined now ok => exact mineBlockOk ok
  | proposed now ok => exact (proposeBlockOk ok).2

theorem ownOnHead (t : Trunk env n.chain) (own : Own env n b) : b.header.prevHash = n.chain.head := by
  obtain ⟨root,gasUsed,built⟩ := own.built
  obtain ⟨x,found⟩ := t.headStored
  have head : n.chain.headD = x := by simp [Chain.headD,Chain.headBlock,found]
  rw [built.prevHash,head]
  exact t.keyed _ _ found

theorem ownOutweighs (t : Trunk env n.chain) (own : Own env n b) (a : Accepted env verifySig n.chain b st w) :
    n.chain.outweighs env b w ↔ ownWeight n ≠ 0 ∧ (n.chain.td n.chain.head).toNat + (ownWeight n).toNat < 2 ^ 64 := by
  rw [outweighsIff t.headStored a.fresh,ownOnHead t own,consensusWeight a.consensus,own.weight]
  exact addGrows _ _

theorem headIndexed (t : Trunk env c) (a : Accepted env verifySig c b st w) (heavier : c.outweighs env b w) :
    (c.commit env b st w).getByHeight b.header.height = some b := by
  have own : (c.commit env b st w).getByHash (b.hash env.sha) = some b := (commitFound a.fresh _ _).mpr (.inr ⟨rfl,rfl⟩)
  have rooted := (commitTrunk t a).rooted
  have head : (c.commit env b st w).head = b.hash env.sha := by rw [Chain.commitHead,if_pos heavier]
  obtain ⟨p,path,_⟩ := rooted _ b own
  obtain ⟨x,older,rfl,first⟩ := Forest.pathHead path
  cases Option.some.inj (own.symm.trans first)
  have index : (c.commit env b st w).heightIndex b.header.height = some (b.hash env.sha) := by
    rw [commitIndex,if_pos heavier,rebuildIndexed rooted (head ▸ path),List.reverse_cons,Chain.indexOf,List.foldl_append]
    exact if_pos rfl
  rw [Chain.getByHeight,index]
  exact own

theorem scanHash {sha : Bytes → Hash} {count : ℕ} {height : UInt64} (found : n.scanTx sha h count height = some tx) :
    tx.hash sha = h := by
  induction count generalizing height with
  | zero => cases found
  | succ count ih =>
    unfold Node.scanTx at found
    split at found
    · rename_i u here
      cases found
      obtain ⟨b,_,listed⟩ := Option.bind_eq_some_iff.mp here
      simpa using List.find?_some listed
    · exact ih found

theorem scanFinds {sha : Bytes → Hash} {count i : ℕ} {height : UInt64} (inside : i < count)
    (stored : n.chain.getByHeight (height + UInt64.ofNat i) = some b) (listed : tx ∈ b.txs) :
    ∃ u, n.scanTx sha (tx.hash sha) count height = some u := by
  induction count generalizing height i with
  | zero => omega
  | succ count ih =>
    unfold Node.scanTx
    cases here : (n.chain.getByHeight height).bind (fun b => b.txs.find? (·.hash sha = tx.hash sha)) with
    | some u => exact ⟨u,rfl⟩
    | none =>
      cases i with
      | zero =>
        have own : n.chain.getByHeight height = some b := by simpa using stored
        rw [own,Option.bind_some,List.find?_eq_none] at here
        exact absurd (here tx listed) (by simp)
      | succ i =>
        refine ih (by omega) (?_ : n.chain.getByHeight (height + 1 + UInt64.ofNat i) = some b)
        rw [UInt64.add_assoc,UInt64.add_comm 1,ofNatSucc]
        exact stored

theorem getTxFinds {sha : Bytes → Hash} (head : n.chain.headBlock = some b)
    (stored : n.chain.getByHeight b.header.height = some b) (listed : tx ∈ b.txs) :
    ∃ u, n.getTxByHash sha (tx.hash sha) = some u ∧ u.hash sha = tx.hash sha := by
  have top : n.chain.headD = b := by rw [Chain.headD,head,Option.getD_some]
  have there : n.chain.getByHeight (0 + UInt64.ofNat b.header.height.toNat) = some b := by
    rw [UInt64.zero_add,UInt64.ofNat_toNat]
    exact stored
  obtain ⟨u,found⟩ := scanFinds (Nat.lt_succ_self b.header.height.toNat) there listed
  rw [← top] at found
  exact ⟨u,found,scanHash found⟩

theorem prunedHash {sha : Bytes → Hash} {txs : List Transaction} (pooled : tx ∈ n.mempool)
    (gone : tx ∉ (n.prune sha txs).mempool) : ∃ u ∈ txs, u.hash sha = tx.hash sha := by
  simpa [Node.prune,pooled] using gone

end

section
variable {E : Type} {env : Env E} {recoverCompact : Wallet.RecoverCompact} {n n' : Node} {b : Block}

/- A block that MineBlock or ProposeBlock returns is the head, with all that left the pool
found on the chain and nothing else taken from it, exactly when its weight is not 0 and
does not wrap the head's total. -/
theorem producedCanonical (reached : Node.Reached env (Wallet.verify env.sha recoverCompact) n)
    (sums : Set.InjOn env.sha {x | ∃ tx ∈ n.mempool, x = tx.preimage true})
    (made : n.Produced env (Wallet.verify env.sha recoverCompact) b n') :
    n.Canonical env.sha b n' ↔
      ownWeight n ≠ 0 ∧ (n.chain.td n.chain.head).toNat + (ownWeight n).toNat < 2 ^ 64 := by
  have held := reachedHeld reached
  obtain ⟨own,added,pool⟩ := producedOwn made
  obtain ⟨st,w,a,chain⟩ := addBlockOk.mp added
  have heavier := ownOutweighs held.trunk own a
  constructor
  · rintro ⟨⟨head,_⟩,_,_⟩
    rw [← heavier]
    by_contra lighter
    rw [chain,Chain.commitHead,if_neg lighter] at head
    obtain ⟨x,stored⟩ := held.trunk.headStored
    exact parentNotOwn a.fresh stored head
  · intro weighs
    have moves := heavier.mpr weighs
    have stored : n'.chain.getByHeight b.header.height = some b := chain ▸ headIndexed held.trunk a moves
    have head : n'.chain.head = b.hash env.sha := by rw [chain,Chain.commitHead,if_pos moves]
    have block : n'.chain.headBlock = some b := by
      rw [Chain.headBlock,head,chain]
      exact (commitFound a.fresh _ _).mpr (.inr ⟨rfl,rfl⟩)
    refine ⟨⟨head,block⟩,fun tx pooled gone => ?_,fun tx pooled gone => ?_⟩
    · obtain ⟨u,listed,same⟩ := prunedHash pooled (pool ▸ gone)
      rw [← same]
      exact getTxFinds block stored listed
    · obtain ⟨u,listed,same⟩ := prunedHash pooled (pool ▸ gone)
      obtain ⟨root,gasUsed,built⟩ := own.built
      have selected : u ∈ n.mempool := buildMember (built.txs ▸ listed)
      have equal : u = tx := transactionInjective (Wallet.verifySize (held.signed u selected))
        (Wallet.verifySize (held.signed tx pooled)) (sums ⟨u,selected,rfl⟩ ⟨tx,pooled,rfl⟩ same)
      exact equal ▸ listed

end

namespace Devnet

/- The single miner without a file, at a difficulty of choice, with the wallet's payment
in its pool. -/
def lightConfig (difficulty : UInt32) : Config := {soloConfig 0 with persistent := false, difficulty := difficulty}

def lightChain (difficulty : UInt32) : Chain := ((lightConfig difficulty).setup 0 .continuous).chain env

def lightNode (difficulty : UInt32) : Node :=
  Node.withChain (lightConfig difficulty) (lightChain difficulty) none none (lightConfig difficulty).genesisAlloc ∅

def lightBlock (difficulty : UInt32) : Block :=
  assemble env (lightChain difficulty) [signedPayment] (account 3) 1 difficulty 0 0

def lightAfter (difficulty : UInt32) : Node :=
  {lightNode difficulty with chain := (lightChain difficulty).commit env (lightBlock difficulty) soloPaid difficulty.toUInt64}

theorem lightReached (difficulty : UInt32) :
    Node.Reached env (Wallet.verify env.sha recoverFirst) ((lightNode difficulty).pool signedPayment) := by
  have started : Node.new env (Wallet.verify env.sha recoverFirst) (lightConfig difficulty) Store.empty 0 =
      .ok (lightNode difficulty) := rfl
  have admitted : Admitted (Wallet.verify env.sha recoverFirst) (lightNode difficulty) signedPayment :=
    ⟨signedVerified,rfl,rfl,fun _ => show (40 : UInt64) ≤ (soloFunds.accounts (account 1)).balance by decide,
      show 0 < 4096 by decide⟩
  have step : (lightNode difficulty).step env (Wallet.verify env.sha recoverFirst) (.submitTx signedPayment) =
      (lightNode difficulty).pool signedPayment := congrArg Prod.snd (submitTxOk admitted)
  rw [← step]
  exact .step (.new started) _

theorem lightHash (difficulty : UInt32) : (lightBlock difficulty).hash env.sha = hashAt 1 1 := by
  have height : (lightBlock difficulty).header.height = (lightChain difficulty).headD.header.height + 1 := rfl
  rw [Block.hash,headerHash,height,lightChain,setupHead]
  rfl

theorem lightCandidate (difficulty : UInt32) : (lightChain difficulty).candidate env (Wallet.verify env.sha recoverFirst)
    [signedPayment] (account 3) = .ok (soloPaid,0) := by
  have fee : (lightChain difficulty).nextBaseFee = 0 := by
    rw [lightChain,Chain.nextBaseFee,setupHead]
    exact (by decide : FeeMarket.computeBaseFee 0 0 (FeeMarket.gasTarget defaultGasLimit) = 0)
  have height : (lightChain difficulty).headD.header.height + 1 = 1 := by
    rw [lightChain,setupHead]
    rfl
  refine (candidateOk (setupSound _)).mpr ⟨?_,⟨soloMoved,0,0⟩,?_,rfl,rfl⟩
  · intro tx member
    rw [List.mem_singleton.mp member]
    rfl
  · rw [← lightChain,height,fee]
    exact signedApplied

theorem lightMined {difficulty : UInt32} (meets : meetsTarget (hashAt 1 1) difficulty = true) :
    mine env.sha (lightBlock difficulty).header = some (lightBlock difficulty).header := by
  have hash := lightHash difficulty
  rw [Block.hash] at hash
  exact mineFirst (hash ▸ meets)

theorem lightAccepted {difficulty : UInt32} (meets : meetsTarget (hashAt 1 1) difficulty = true) :
    Accepted env (Wallet.verify env.sha recoverFirst) (lightChain difficulty) (lightBlock difficulty) soloPaid
      difficulty.toUInt64 := by
  have root : (lightChain difficulty).genesisHash = hashAt 0 0 := headerHash _
  have fresh : (lightChain difficulty).getByHash ((lightBlock difficulty).hash env.sha) = none := by
    rw [lightHash,lightChain,setupFound,← lightChain,root]
    exact if_neg fun same => absurd (hashAtInj (by omega) (by omega) (by omega) (by omega) same).1 (by omega)
  have tall : (lightChain difficulty).headD.header.height + 1 ≠ 0 := by
    rw [lightChain,setupHead]
    exact (by decide : (0 : UInt64) + 1 ≠ 0)
  have room : 0 ≤ (lightChain difficulty).gasLimit := (by decide : (0 : UInt64) ≤ defaultGasLimit)
  exact minedAccepted (setupSound _) rfl (lightCandidate difficulty) room tall (lightMined meets) fresh

theorem lightMines {difficulty : UInt32} (meets : meetsTarget (hashAt 1 1) difficulty = true) :
    ((lightNode difficulty).pool signedPayment).mineBlock env (Wallet.verify env.sha recoverFirst) 1 =
      (.ok (lightBlock difficulty),lightAfter difficulty) := by
  have selected : ((lightNode difficulty).pool signedPayment).chain.buildBlockTxs
      ((lightNode difficulty).pool signedPayment).mempool = [signedPayment] :=
    buildSingle (show isFeePriced soloFunds signedPayment = false from rfl)
  have added : (lightChain difficulty).addBlock env (Wallet.verify env.sha recoverFirst)
      ⟨(lightBlock difficulty).header,[signedPayment]⟩ =
      .ok ((lightChain difficulty).commit env (lightBlock difficulty) soloPaid difficulty.toUInt64) :=
    addBlockOk.mpr ⟨_,_,lightAccepted meets,rfl⟩
  have emptied : ([signedPayment].filter fun tx => tx.hash env.sha ∉ [signedPayment].map (·.hash env.sha)) = [] := by
    simp
  have chain : ((lightNode difficulty).pool signedPayment).chain = lightChain difficulty := rfl
  have pool : ((lightNode difficulty).pool signedPayment).mempool = [signedPayment] := rfl
  rw [mineBlockEq selected (lightCandidate difficulty) (lightMined meets),Node.commitBlock,chain,added]
  simp only [Node.saveChain,Node.prune,pool,emptied]
  rfl

theorem workedCanonical : ((lightNode 1).pool signedPayment).Canonical env.sha (lightBlock 1) (lightAfter 1) := by
  have meets : meetsTarget (hashAt 1 1) 1 = true := by
    unfold hashAt
    decide +kernel
  have sums : Set.InjOn env.sha {x | ∃ tx ∈ ((lightNode 1).pool signedPayment).mempool, x = tx.preimage true} := by
    have only : ∀ x, (∃ tx ∈ [signedPayment], x = tx.preimage true) → x = signedPayment.preimage true := by
      intro x listed
      obtain ⟨tx,member,same⟩ := listed
      rw [same,List.mem_singleton.mp member]
    intro x left y right _
    rw [only x left,only y right]
  have weight : (lightChain 1).td (lightChain 1).head = 1 := if_pos rfl
  refine (producedCanonical (lightReached 1) sums (.mined 1 (lightMines meets))).mpr ⟨by decide,?_⟩
  show ((lightChain 1).td (lightChain 1).head).toNat + 1 < 2 ^ 64
  rw [weight]
  decide

/- At difficulty 0 the block is stored beside the head: the miner reports it, forgets the
payment, and the chain does not have it. -/
theorem worklessForgets : Node.Reached env (Wallet.verify env.sha recoverFirst) ((lightNode 0).pool signedPayment) ∧
    ((lightNode 0).pool signedPayment).mineBlock env (Wallet.verify env.sha recoverFirst) 1 =
      (.ok (lightBlock 0),lightAfter 0) ∧
    (lightAfter 0).chain.head ≠ (lightBlock 0).hash env.sha ∧
    signedPayment ∈ ((lightNode 0).pool signedPayment).mempool ∧ (lightAfter 0).mempool = [] ∧
    (lightAfter 0).getTxByHash env.sha (signedPayment.hash env.sha) = none := by
  have meets : meetsTarget (hashAt 1 1) 0 = true := decide_eq_true (Nat.zero_le _)
  have a := lightAccepted meets
  have weight : (lightChain 0).td (lightChain 0).head = 0 := if_pos rfl
  have s : Sound env (Wallet.verify env.sha recoverFirst) (lightChain 0) := setupSound _
  have prev : (lightBlock 0).header.prevHash = (lightChain 0).head := by
    have own : (lightBlock 0).header.prevHash = (lightChain 0).headD.hash env.sha := rfl
    rw [own,lightChain,setupHead]
    rfl
  have lighter : ¬ (lightChain 0).outweighs env (lightBlock 0) 0 := by
    rw [outweighsIff s.headStored a.fresh,prev,weight]
    decide
  have head : (lightAfter 0).chain.head = (lightChain 0).head := by
    show ((lightChain 0).commit env (lightBlock 0) soloPaid 0).head = _
    rw [Chain.commitHead,if_neg lighter]
  have genesis : (lightChain 0).getByHash (lightChain 0).head = some (((lightConfig 0).setup 0 .continuous).genesis.toBlock env) :=
    setupRoot env _
  have kept : (lightAfter 0).chain.getByHash (lightChain 0).head = _ := (commitGrows a.fresh).blocks _ _ genesis
  have index : (lightAfter 0).chain.heightIndex 0 = some (lightChain 0).head := by
    show ((lightChain 0).commit env (lightBlock 0) soloPaid 0).heightIndex 0 = _
    rw [commitIndex,if_neg lighter,lightChain,setupIndexed _ _ (setupStart env _)]
    rfl
  have top : (lightAfter 0).chain.headD = ((lightConfig 0).setup 0 .continuous).genesis.toBlock env := by
    rw [Chain.headD,Chain.headBlock,head,kept,Option.getD_some]
  refine ⟨lightReached 0,lightMines meets,?_,List.mem_singleton_self _,rfl,?_⟩
  · rw [head]
    exact parentNotOwn a.fresh genesis
  · have first : (lightAfter 0).chain.getByHeight 0 = some (((lightConfig 0).setup 0 .continuous).genesis.toBlock env) := by
      rw [Chain.getByHeight,index]
      exact kept
    rw [Node.getTxByHash,top]
    show (lightAfter 0).scanTx env.sha _ 1 0 = none
    rw [Node.scanTx,first]
    rfl

end Devnet
end L1Chain
