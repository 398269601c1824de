import L1Chain.Reach
import L1Chain.Replay

/-! What a PoW chain decides about a block. Apart from the hash being new, AddBlock
reads the ancestors of the block and the configuration and nothing else: neither the
head, nor other branches, nor the order of arrival. So a branch of one chain is taken
by a fresh chain exactly when each of its blocks is `WellMined` over its ancestors
under the parameters of that chain. -/
namespace L1Chain
open Transition Runs

section
variable {E : Type} {env : Env E} {verifySig other : VerifySig} {c d : Chain} {b : Block} {setup : Setup}

structure WellMined (env : Env E) (verifySig : VerifySig) (setup : Setup) (older : List Block) (b : Block) : Prop where
  parent : ∃ p, older.head? = some p ∧ b.header.height = p.header.height + 1 ∧
    b.header.baseFee = FeeMarket.computeBaseFee p.header.baseFee p.header.gasUsed (FeeMarket.gasTarget setup.gasLimit)
  work : meetsTarget (b.hash env.sha) b.header.difficulty = true
  txRoot : b.txRoot env.sha = b.header.merkleRoot
  chainID : ∀ tx ∈ b.txs, tx.chainID = setup.chainID
  derived : ∃ before st,
    replay env verifySig setup.exchangeMode (fund setup.genesis.alloc setup.genesis.baseAlloc) older.reverse.tail =
      .ok before ∧
    applyBlockRewarded env verifySig setup.exchangeMode before b = .ok (st,b.header.gasUsed) ∧
    env.stateRoot st = b.header.stateRoot
  gas : b.header.gasUsed ≤ setup.gasLimit

theorem setupDerive {k : Hash} {p : List Block} (rooted : c.Rooted) (config : SameConfig (setup.chain env) c)
    (path : c.Path k p) : c.deriveState env verifySig k = liftTx (replay env verifySig setup.exchangeMode
      (fund setup.genesis.alloc setup.genesis.baseAlloc) p.reverse.tail) := by
  rw [derivePath rooted path,config.exchangeMode,Chain.fundGenesis,config.genesisAlloc,config.genesisBaseAlloc]
  rfl

theorem powAccepts {older : List Block} (rooted : c.Rooted) (config : SameConfig (setup.chain env) c)
    (pow : setup.consensus = .pow) (path : c.Path b.header.prevHash older) :
    (∃ st w, Accepted env verifySig c b st w) ↔
      c.getByHash (b.hash env.sha) = none ∧ WellMined env verifySig setup older b := by
  have mode : c.consensus = .pow := config.consensus.trans pow
  have limit : c.gasLimit = setup.gasLimit := config.gasLimit
  have id : c.chainID = setup.chainID := config.chainID
  have exchange : c.exchangeMode = setup.exchangeMode := config.exchangeMode
  obtain ⟨x,_,rfl,stored⟩ := Forest.pathHead path
  constructor
  · rintro ⟨st,w,a⟩
    obtain ⟨p,found,height,fee⟩ := a.parent
    cases Option.some.inj (stored.symm.trans found)
    obtain ⟨before,derived,applied⟩ := a.derived
    rw [setupDerive rooted config path] at derived
    rw [exchange] at applied
    rw [Chain.nextBaseFeeOf,limit] at fee
    have work := a.consensus
    have ids := assertChainIDOk.mp a.chainID
    have gas := a.gas
    simp only [Chain.checkConsensus,mode] at work
    rw [id] at ids
    rw [limit] at gas
    refine ⟨a.fresh,⟨_,rfl,height,fee⟩,?_,a.txRoot,ids,⟨before,st,liftTxOk.mp derived,applied,a.root⟩,gas⟩
    split at work
    · assumption
    · contradiction
  · rintro ⟨fresh,m⟩
    obtain ⟨p,first,height,fee⟩ := m.parent
    cases Option.some.inj first
    obtain ⟨before,st,derived,applied,root⟩ := m.derived
    refine ⟨st,b.header.difficulty.toUInt64,fresh,⟨x,stored,height,?_⟩,?_,?_,m.txRoot,?_,⟨before,?_,?_⟩,?_,root⟩
    · rw [Chain.nextBaseFeeOf,limit]
      exact fee
    · simp only [Chain.respectsFinality,mode]
    · simp only [Chain.checkConsensus,mode]
      exact if_pos m.work
    · rw [assertChainIDOk,id]
      exact m.chainID
    · rw [setupDerive rooted config path]
      exact liftTxOk.mpr derived
    · rw [exchange]
      exact applied
    · rw [limit]
      exact m.gas

theorem powExtends {older : List Block} (r : Extended env (setup.chain env) c) (pow : setup.consensus = .pow)
    (path : c.Path b.header.prevHash older) (fresh : c.getByHash (b.hash env.sha) = none)
    (mined : WellMined env verifySig setup older b) :
    ∃ c', c.addBlock env verifySig b = .ok c' ∧ Extended env (setup.chain env) c' ∧ c'.Path (b.hash env.sha) (b::older) ∧
      ∀ h x, c'.getByHash h = some x ↔ c.getByHash h = some x ∨ (h = b.hash env.sha ∧ x = b) := by
  obtain ⟨s,_,grows⟩ := extendedSetup r
  obtain ⟨st,w,a⟩ := (powAccepts s.rooted grows.config pow path).mpr ⟨fresh,mined⟩
  have added : c.addBlock env verifySig b = .ok (c.commit env b st w) := addBlockOk.mpr ⟨st,w,a,rfl⟩
  exact ⟨_,added,.add r added,commitPath s fresh path,commitFound fresh⟩

theorem linkedMined {k : Hash} {older : List Block} (s : Sound env verifySig c) (config : SameConfig (setup.chain env) c)
    (pow : setup.consensus = .pow) (path : c.Path k (b::older)) (below : older ≠ []) :
    WellMined env verifySig setup older b := by
  obtain ⟨found,notRoot,rest⟩ := Forest.pathTail path below
  have walk : c.Path b.header.prevHash older := rest
  have l := s.linked _ _ found notRoot
  obtain ⟨p,stored,height,fee⟩ := l.parent
  obtain ⟨before,st,derived,applied,root⟩ := l.derived
  obtain ⟨x,q,rfl,head⟩ := Forest.pathHead walk
  cases Option.some.inj (stored.symm.trans head)
  have ids := l.chainID
  have gas := l.gas
  rw [config.chainID] at ids
  rw [config.gasLimit] at gas
  rw [Chain.nextBaseFeeOf,config.gasLimit] at fee
  rw [config.exchangeMode] at applied
  rw [setupDerive s.rooted config walk] at derived
  exact ⟨⟨p,rfl,height,fee⟩,l.work (config.consensus.trans pow),l.txRoot,ids,
    ⟨before,st,liftTxOk.mp derived,applied,root⟩,gas⟩

def powWeight : List Block → UInt64
  | [] => 0
  | b::older => powWeight older + b.header.difficulty.toUInt64

theorem powTd {h : Hash} {p : List Block} (s : Sound env other c) (grows : Grows (setup.chain env) c)
    (pow : setup.consensus = .pow) (path : c.Path h p) : c.td h = powWeight p := by
  induction path with
  | @root g found =>
    rw [setupStored grows found,grows.config.genesisHash,grows.weights _ _ (setupRoot env setup),powWeight,powWeight,
      UInt64.zero_add]
    exact if_pos rfl
  | @step k x p found notRoot rest ih =>
    have mode : c.consensus = .pow := grows.config.consensus.trans pow
    have weight := (s.linked _ _ found notRoot).weight
    rw [s.keyed _ _ found,mode] at weight
    have below : c.td x.header.prevHash = powWeight p := ih
    rw [weight,below]
    rfl

structure Reopened (env : Env E) (verifySig : VerifySig) (setup : Setup) (c : Chain) (p : List Block) (d : Chain) : Prop where
  copied : Copied c d p
  sound : Sound env verifySig d
  indexed : Indexed env d
  grows : Grows (setup.chain env) d

theorem reopenedKeeps {k : Hash} {older : List Block} {d' : Chain} (s : Sound env other c) (pow : setup.consensus = .pow)
    (r : Reopened env verifySig setup c older d) (path : c.Path k (b::older)) (below : older ≠ [])
    (ok : d.addBlock env verifySig b = .ok d') :
    WellMined env verifySig setup older b ∧ Reopened env verifySig setup c (b::older) d' := by
  obtain ⟨st,w,a,rfl⟩ := addBlockOk.mp ok
  obtain ⟨_,_,_,_,rest⟩ := copiedNext s r.copied path below
  have judged := (powAccepts r.sound.rooted r.grows.config pow (copiedPath r.copied rest)).mp ⟨st,w,a⟩
  exact ⟨judged.2,copiedCommit s r.copied path below a,commitSound r.sound a,commitIndexed r.sound r.indexed a,
    r.grows.trans (commitGrows a.fresh)⟩

theorem reopenedTakes {k : Hash} {older : List Block} (s : Sound env other c) (pow : setup.consensus = .pow)
    (r : Reopened env verifySig setup c older d) (path : c.Path k (b::older)) (below : older ≠ [])
    (mined : WellMined env verifySig setup older b) : ∃ d', d.addBlock env verifySig b = .ok d' := by
  obtain ⟨hash,_,_,fresh,rest⟩ := copiedNext s r.copied path below
  rw [← hash] at fresh
  obtain ⟨st,w,a⟩ := (powAccepts r.sound.rooted r.grows.config pow (copiedPath r.copied rest)).mpr ⟨fresh,mined⟩
  exact ⟨_,addBlockOk.mpr ⟨st,w,a,rfl⟩⟩

theorem reopens {start : Setup} {k : Hash} {p : List Block} (s : Sound env other c) (grows : Grows (start.chain env) c)
    (genesis : setup.genesis = start.genesis) (pow : setup.consensus = .pow) (path : c.Path k p) :
    (∀ d, (setup.chain env).addBlocks env verifySig p.reverse.tail = .ok d → Reopened env verifySig setup c p d) ∧
      ((∃ d, (setup.chain env).addBlocks env verifySig p.reverse.tail = .ok d) ↔
        ∀ b older, b::older <:+ p → older ≠ [] → WellMined env verifySig setup older b) := by
  refine replays (Reopened env verifySig setup c) (WellMined env verifySig setup) (fun g found => ?_)
    (fun _ _ _ _ _ r path below => reopenedKeeps s pow r path below)
    (fun _ _ _ _ r path below => reopenedTakes s pow r path below) path
  exact ⟨(copiedStart setup grows s genesis found).2,setupSound setup,setupIndexed setup,Grows.refl _⟩

def Leads (p : List Block) : Prop := ∀ q, q <:+ p → q ≠ [] → q ≠ p → powWeight q < powWeight p

theorem suffixPath {k : Hash} {p q : List Block} (s : Sound env other c) (path : c.Path k p) (part : q <:+ p) (some' : q ≠ []) :
    ∃ x older, q = x::older ∧ c.Path (x.hash env.sha) q := by
  obtain ⟨x,older,rfl⟩ := List.exists_cons_of_ne_nil some'
  obtain ⟨key,walk⟩ := Forest.pathSuffix path part
  obtain ⟨y,_,shape,found⟩ := Forest.pathHead walk
  cases shape
  rw [← s.keyed _ _ found] at walk
  exact ⟨x,older,rfl,walk⟩

theorem headLeads {p : List Block} (s : Sound env other c) (grows : Grows (setup.chain env) c)
    (pow : setup.consensus = .pow) (path : c.Path c.head p) : Leads p := by
  intro q part some' differ
  obtain ⟨y,rest,rfl,walk⟩ := suffixPath s path part some'
  obtain ⟨x,older,rfl,found⟩ := Forest.pathHead path
  have inside : y ∈ older := by
    rcases List.suffix_cons_iff.mp part with same | within
    · exact absurd same differ
    · exact within.subset (List.mem_cons_self ..)
  have less := s.ahead _ path y inside
  rw [powTd s grows pow walk,powTd s grows pow path] at less
  exact less

theorem leadsHead {p : List Block} {k : Hash} {y : Block} (s : Sound env other c) (grows : Grows (setup.chain env) c)
    (pow : setup.consensus = .pow) (path : c.Path k p) (leads : Leads p) (found : c.getByHash c.head = some y)
    (member : y ∈ p) : c.head = k := by
  obtain ⟨x,older,rfl,tip⟩ := Forest.pathHead path
  rcases List.mem_cons.mp member with rfl | within
  · rw [← s.keyed _ _ found,s.keyed _ _ tip]
  · obtain ⟨u,v,shape⟩ := List.append_of_mem within
    have part : y::v <:+ x::older := by
      rw [shape]
      exact ⟨x::u,by simp⟩
    have differ : y::v ≠ x::older := by
      intro same
      have sizes := congrArg List.length same
      rw [shape] at sizes
      simp at sizes
      omega
    obtain ⟨_,_,same,walk⟩ := suffixPath s path part (by simp)
    cases same
    have less := leads _ part (by simp) differ
    have heaviest := s.heaviest _ _ tip
    rw [← s.keyed _ _ found,powTd s grows pow walk,powTd s grows pow path] at heaviest
    exact absurd less (UInt64.not_lt.mpr heaviest)

theorem reopenedHead {p : List Block} {k : Hash} (pow : setup.consensus = .pow)
    (r : Reopened env verifySig setup c p d) (path : c.Path k p) : d.head = k ↔ Leads p := by
  have own := copiedPath r.copied path
  constructor
  · rintro rfl
    exact headLeads r.sound r.grows pow own
  · intro leads
    obtain ⟨y,headStored⟩ := r.sound.headStored
    exact leadsHead r.sound r.grows pow own leads headStored ((r.copied.stored _ _).mp headStored).2

end
end L1Chain
