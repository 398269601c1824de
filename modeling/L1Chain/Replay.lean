import L1Chain.Finality
import L1Chain.HeightIndex

/-! Replaying a canonical branch on a fresh chain. A `Replica` stores one branch of
another chain and nothing else, at the same weights; adding the next block of the
branch keeps it so, and a replica of the whole branch has the same head. What a
fresh PoS chain may refuse is then exactly what it judges by the history of the
branch alone: the jailed validators and the finalized checkpoint. -/
namespace L1Chain
open Transition Runs Pos

section
variable {E : Type} {env : Env E} {verifySig : VerifySig} {vs : ValidatorSet} {c d : Chain} {b : Block}

def Chain.addBlocks (env : Env E) (verifySig : VerifySig) (c : Chain) (bs : List Block) : Except ChainErr Chain :=
  bs.foldlM (Chain.addBlock env verifySig) c

structure Copied (c d : Chain) (p : List Block) : Prop where
  genesisHash : d.genesisHash = c.genesisHash
  stored : ∀ h x, d.getByHash h = some x ↔ c.getByHash h = some x ∧ x ∈ p

structure Replica (env : Env E) (verifySig : VerifySig) (c d : Chain) (p : List Block) : Prop where
  sound : Sound env verifySig d
  genesisHash : d.genesisHash = c.genesisHash
  gasLimit : d.gasLimit = c.gasLimit
  consensus : d.consensus = c.consensus
  stored : ∀ h x, d.getByHash h = some x ↔ c.getByHash h = some x ∧ x ∈ p
  weights : ∀ h x, d.getByHash h = some x → d.td h = c.td h

theorem Replica.copied {p : List Block} (r : Replica env verifySig c d p) : Copied c d p := ⟨r.genesisHash,r.stored⟩

theorem copiedPath {k : Hash} {p : List Block} (r : Copied c d p) (path : c.Path k p) : d.Path k p := by
  unfold Chain.Path
  rw [r.genesisHash]
  exact Forest.pathSub path (fun h x found member => (r.stored h x).mpr ⟨found,member⟩)

theorem copiedNext {k : Hash} {older : List Block} (s : Sound env verifySig c) (r : Copied c d older)
    (path : c.Path k (b::older)) (below : older ≠ []) : b.hash env.sha = k ∧ c.getByHash k = some b ∧
      k ≠ c.genesisHash ∧ d.getByHash k = none ∧ c.Path b.header.prevHash older := by
  obtain ⟨found,notRoot,rest⟩ := Forest.pathTail path below
  refine ⟨s.keyed _ _ found,found,notRoot,?_,rest⟩
  cases inside : d.getByHash k with
  | none => rfl
  | some x =>
    obtain ⟨same,member⟩ := (r.stored _ _).mp inside
    rw [found] at same
    cases same
    refine absurd member (Forest.pathOnce path ?_)
    intro key stored
    rw [← s.keyed _ _ stored,s.keyed _ _ found]

theorem copiedCommit {other : VerifySig} {k : Hash} {older : List Block} {st : MptState} {w : UInt64}
    (s : Sound env other c) (r : Copied c d older) (path : c.Path k (b::older)) (below : older ≠ [])
    (a : Accepted env verifySig d b st w) : Copied c (d.commit env b st w) (b::older) := by
  obtain ⟨own,found,_⟩ := copiedNext s r path below
  refine ⟨(commitConfig env d b st w).genesisHash.trans r.genesisHash,?_⟩
  intro h x
  rw [commitFound a.fresh,r.stored,List.mem_cons]
  constructor
  · rintro (⟨stored,member⟩ | ⟨rfl,rfl⟩)
    · exact ⟨stored,.inr member⟩
    · rw [own]
      exact ⟨found,.inl rfl⟩
  · rintro ⟨stored,rfl | member⟩
    · exact .inr ⟨(s.keyed _ _ stored).symm,rfl⟩
    · exact .inl ⟨stored,member⟩

theorem replicaParent {k : Hash} {older : List Block} (s : Sound env verifySig c)
    (r : Replica env verifySig c d older) (path : c.Path k (b::older)) (below : older ≠ []) :
    ∃ p, d.getByHash b.header.prevHash = some p ∧ b.header.height = p.header.height + 1 ∧
      b.header.baseFee = d.nextBaseFeeOf p := by
  obtain ⟨_,found,notRoot,_,rest⟩ := copiedNext s r.copied path below
  obtain ⟨p,parent,height,fee⟩ := (s.linked _ _ found notRoot).parent
  obtain ⟨x,q,rfl,head⟩ := Forest.pathHead rest
  rw [parent] at head
  cases head
  refine ⟨p,(r.stored _ _).mpr ⟨parent,List.mem_cons_self ..⟩,height,?_⟩
  simpa only [Chain.nextBaseFeeOf,r.gasLimit] using fee

theorem replicaCommit {k : Hash} {older : List Block} {st : MptState} {w : UInt64} (s : Sound env verifySig c)
    (r : Replica env verifySig c d older) (path : c.Path k (b::older)) (below : older ≠ [])
    (a : Accepted env verifySig d b st w) : Replica env verifySig c (d.commit env b st w) (b::older) := by
  obtain ⟨own,found,notRoot,_,_⟩ := copiedNext s r.copied path below
  have config := commitConfig env d b st w
  have copied := copiedCommit s r.copied path below a
  refine ⟨commitSound r.sound a,copied.genesisHash,config.gasLimit.trans r.gasLimit,
    config.consensus.trans r.consensus,copied.stored,?_⟩
  intro h x stored
  rcases (commitFound a.fresh h x).mp stored with old | ⟨rfl,rfl⟩
  · rw [(commitGrows a.fresh).weights h x old]
    exact r.weights h x old
  · obtain ⟨p,parent,_,_⟩ := a.parent
    have weight := (s.linked _ _ found notRoot).weight
    rw [Chain.commitTd,weight,consensusWeight a.consensus,r.consensus,← r.weights _ _ parent]
    simp only [put,if_true]

theorem replicaHead {p : List Block} (s : Sound env verifySig c) (path : c.Path c.head p)
    (r : Replica env verifySig c d p) : d.head = c.head := by
  obtain ⟨y,headStored⟩ := r.sound.headStored
  obtain ⟨x,q,rfl,found⟩ := Forest.pathHead path
  obtain ⟨inside,member⟩ := (r.stored _ _).mp headStored
  have own : d.getByHash c.head = some x := (r.stored _ _).mpr ⟨found,List.mem_cons_self ..⟩
  rcases List.mem_cons.mp member with rfl | older
  · rw [← s.keyed _ _ inside,s.keyed _ _ found]
  · have ahead := s.ahead _ path y older
    have heaviest := r.sound.heaviest _ _ own
    rw [s.keyed _ _ inside] at ahead
    rw [r.weights _ _ own,r.weights _ _ headStored] at heaviest
    exact absurd ahead (UInt64.not_lt.mpr heaviest)

/- The rule for replays: if a fresh chain takes each next block of a branch exactly
when `judge` holds of it and its ancestors, and keeps `Inv`, then it takes the
whole branch exactly when every block of it is judged so. -/
theorem replays {d₀ : Chain} (Inv : List Block → Chain → Prop) (judge : List Block → Block → Prop)
    (start : ∀ g, c.getByHash c.genesisHash = some g → Inv [g] d₀)
    (keeps : ∀ d d' k b older, Inv older d → c.Path k (b::older) → older ≠ [] →
      d.addBlock env verifySig b = .ok d' → judge older b ∧ Inv (b::older) d')
    (takes : ∀ d k b older, Inv older d → c.Path k (b::older) → older ≠ [] → judge older b →
      ∃ d', d.addBlock env verifySig b = .ok d') {k : Hash} {p : List Block} (path : c.Path k p) :
    (∀ d, d₀.addBlocks env verifySig p.reverse.tail = .ok d → Inv p d) ∧
      ((∃ d, d₀.addBlocks env verifySig p.reverse.tail = .ok d) ↔
        ∀ b older, b::older <:+ p → older ≠ [] → judge older b) := by
  induction path with
  | @root g found =>
    refine ⟨?_,?_⟩
    · rintro d ok
      cases ok
      exact start g found
    · refine ⟨?_,fun _ => ⟨d₀,rfl⟩⟩
      rintro _ b older ⟨before,shape⟩ below
      have size := congrArg List.length shape
      simp only [List.length_append,List.length_cons,List.length_nil] at size
      exact absurd (List.eq_nil_of_length_eq_zero (by omega)) below
  | @step k x p found notRoot rest ih =>
    have nonempty : p ≠ [] := by
      obtain ⟨_,_,rfl,_⟩ := Forest.pathHead rest
      simp
    have full : c.Path k (x::p) := .step found notRoot rest
    have split : ∀ d, d₀.addBlocks env verifySig (x::p).reverse.tail = .ok d ↔
        ∃ e, d₀.addBlocks env verifySig p.reverse.tail = .ok e ∧ e.addBlock env verifySig x = .ok d := by
      intro d
      rw [List.reverse_cons,List.tail_append_of_ne_nil (by simpa using nonempty),Chain.addBlocks,List.foldlM_append,bindOk]
      simp [Chain.addBlocks]
    refine ⟨?_,?_⟩
    · intro d ok
      obtain ⟨e,before,added⟩ := (split d).mp ok
      exact (keeps e d k x p (ih.1 e before) full nonempty added).2
    · constructor
      · rintro ⟨d,ok⟩ b older suffix below
        obtain ⟨e,before,added⟩ := (split d).mp ok
        rcases List.suffix_cons_iff.mp suffix with same | within
        · cases same
          exact (keeps e d k x p (ih.1 e before) full nonempty added).1
        · exact ih.2.mp ⟨e,before⟩ b older within below
      · intro judged
        obtain ⟨e,before⟩ := ih.2.mpr (fun b older within below => judged b older
          (List.suffix_cons_iff.mpr (.inr within)) below)
        obtain ⟨d,added⟩ := takes e k x p (ih.1 e before) full nonempty (judged x p (List.suffix_refl _) nonempty)
        exact ⟨d,(split d).mpr ⟨e,before,added⟩⟩

theorem copiedStart {setup : Setup} (setup' : Setup) {g : Block} (grows : Grows (setup.chain env) c) (s : Sound env verifySig c)
    (genesis : setup'.genesis = setup.genesis) (found : c.getByHash c.genesisHash = some g) :
    g = setup.genesis.toBlock env ∧ Copied c (setup'.chain env) [g] := by
  have same : g = setup.genesis.toBlock env := setupStored grows found
  have root : (setup'.chain env).genesisHash = (setup.chain env).genesisHash :=
    congrArg (fun x => (Genesis.toBlock env x).hash env.sha) genesis
  have looks : ∀ h, (setup'.chain env).getByHash h = (setup.chain env).getByHash h := by
    intro h
    rw [setupFound,setupFound,root,genesis]
  refine ⟨same,root.trans grows.config.genesisHash.symm,?_⟩
  intro h x
  rw [looks]
  constructor
  · intro inside
    exact ⟨grows.blocks h x inside,List.mem_singleton.mpr ((setupOnly inside).2.trans same.symm)⟩
  · rintro ⟨inside,member⟩
    cases List.mem_singleton.mp member
    rw [← s.keyed _ _ inside,s.keyed _ _ found,grows.config.genesisHash,setupRoot,same]

def branchState (env : Env E) (vs : ValidatorSet) (path : List Block) : PosState :=
  path.tail.foldl (fun p b => p.record vs b (b.hash env.sha)) PosState.init

theorem branchSnoc {older : List Block} (below : older ≠ []) : branchState env vs (older ++ [b]) =
    (branchState env vs older).record vs b (b.hash env.sha) := by
  rw [branchState,List.tail_append_of_ne_nil below,List.foldl_append]
  rfl

def passesCheckpoint (sha : Bytes → Hash) (p : PosState) : List Block → Bool
  | [] => false
  | x::older =>
    if x.header.height = p.finalizedHeight then x.hash sha = p.finalizedHash
    else if x.header.height < p.finalizedHeight then false
    else passesCheckpoint sha p older

/- A block is judged by its own ancestors when they alone select its coinbase as
the proposer and finalize nothing that it does not descend from. -/
def JudgedByAncestors (env : Env E) (vs : ValidatorSet) (older : List Block) (b : Block) : Prop :=
  let p := branchState env vs older
  (∃ v, proposerFor env vs p.jailed b = .ok v ∧ v.address = b.header.coinbase) ∧
    (p.finalizedHash = 0 ∨ passesCheckpoint env.sha p older.reverse = true)

theorem walkBranch {fuel : Nat} {h : Hash} {p : List Block} (s : Sound env verifySig d) (path : d.Path h p)
    (enough : p.length ≤ fuel) : d.finalityWalk fuel h = .ok () ↔ passesCheckpoint env.sha d.pos p = true := by
  induction path generalizing fuel with
  | @root g found =>
    obtain ⟨fuel,rfl⟩ : ∃ n, fuel = n + 1 := ⟨fuel - 1,by simp only [List.length_singleton] at enough; omega⟩
    obtain ⟨g',genesis,zero⟩ := s.genesis
    rw [found] at genesis
    cases genesis
    simp only [Chain.finalityWalk,found,passesCheckpoint,s.keyed _ _ found]
    by_cases level : g.header.height = d.pos.finalizedHeight
    · by_cases same : d.genesisHash = d.pos.finalizedHash <;> simp [level,same]
    · have short : g.header.height < d.pos.finalizedHeight := by
        rw [zero] at level ⊢
        exact UInt64.pos_iff_ne_zero.mpr (Ne.symm level)
      simp [level,short]
  | @step k x p found _ _ ih =>
    obtain ⟨fuel,rfl⟩ : ∃ n, fuel = n + 1 := ⟨fuel - 1,by simp only [List.length_cons] at enough; omega⟩
    simp only [Chain.finalityWalk,found,passesCheckpoint,s.keyed _ _ found]
    by_cases level : x.header.height = d.pos.finalizedHeight
    · by_cases same : k = d.pos.finalizedHash <;> simp [level,same]
    · by_cases short : x.header.height < d.pos.finalizedHeight
      · simp [level,short]
      · simp only [level,short,if_false]
        exact ih (by simp only [List.length_cons] at enough; omega)

theorem gateBranch {p : List Block} (s : Sound env verifySig d) (mode : d.consensus = .pos vs)
    (path : d.Path b.header.prevHash p) : d.respectsFinality b = .ok () ↔
      (d.pos.finalizedHash = 0 ∨ passesCheckpoint env.sha d.pos p = true) := by
  obtain ⟨x,_,_,found⟩ := Forest.pathHead path
  obtain ⟨q,other,fits⟩ := s.rooted _ _ found
  rw [Forest.pathUnique other path] at fits
  simp only [Chain.respectsFinality,mode]
  by_cases none : d.pos.finalizedHash = 0
  · simp [none]
  · simp only [none,if_false,false_or]
    exact walkBranch s path fits

structure Resynced (env : Env E) (verifySig : VerifySig) (vs : ValidatorSet) (c : Chain) (p : List Block) (d : Chain) :
    Prop where
  replica : Replica env verifySig c d p
  config : SameConfig c d
  pos : d.pos = branchState env vs p.reverse

theorem resyncedDerive {k : Hash} {p : List Block} (s : Sound env verifySig c) (r : Resynced env verifySig vs c p d)
    (path : c.Path k p) : d.deriveState env verifySig k = c.deriveState env verifySig k := by
  rw [derivePath s.rooted path,derivePath r.replica.sound.rooted (copiedPath r.replica.copied path),r.config.exchangeMode,
    Chain.fundGenesis,r.config.genesisAlloc,r.config.genesisBaseAlloc,Chain.fundGenesis]

theorem resyncedKeeps {k : Hash} {older : List Block} {d' : Chain} (s : Sound env verifySig c)
    (mode : c.consensus = .pos vs) (r : Resynced env verifySig vs c older d) (path : c.Path k (b::older))
    (below : older ≠ []) (ok : d.addBlock env verifySig b = .ok d') :
    JudgedByAncestors env vs older.reverse b ∧ Resynced env verifySig vs c (b::older) d' := by
  obtain ⟨st,w,a,rfl⟩ := addBlockOk.mp ok
  have own : d.consensus = .pos vs := r.config.consensus.trans mode
  obtain ⟨_,_,_,_,rest⟩ := copiedNext s r.replica.copied path below
  have checked := a.consensus
  simp only [Chain.checkConsensus,own,bindOk] at checked
  obtain ⟨_,proposer,_,_,_⟩ := checked
  have gate := (gateBranch r.replica.sound own (copiedPath r.replica.copied rest)).mp a.gate
  rw [r.pos] at proposer gate
  refine ⟨⟨(checkProposerOk.mp proposer).1,?_⟩,replicaCommit s r.replica path below a,
    r.config.trans (commitConfig env d b st w),?_⟩
  · rw [List.reverse_reverse]
    exact gate
  · rw [List.reverse_cons,branchSnoc (by simpa using below),← r.pos,Chain.commitPos]
    simp only [Chain.recordBlock,own]

theorem resyncedTakes {k : Hash} {older : List Block} (s : Sound env verifySig c) (mode : c.consensus = .pos vs)
    (r : Resynced env verifySig vs c older d) (path : c.Path k (b::older)) (below : older ≠ [])
    (judged : JudgedByAncestors env vs older.reverse b) : ∃ d', d.addBlock env verifySig b = .ok d' := by
  have own : d.consensus = .pos vs := r.config.consensus.trans mode
  obtain ⟨hash,found,notRoot,fresh,rest⟩ := copiedNext s r.replica.copied path below
  have l := s.linked _ _ found notRoot
  obtain ⟨signed,votes⟩ := l.stake vs mode
  obtain ⟨before,st,derived,applied,root⟩ := l.derived
  obtain ⟨selects,gate⟩ := judged
  rw [← r.pos] at selects gate
  rw [List.reverse_reverse] at gate
  have proposer : checkProposer env vs c.chainID d.pos.jailed b = .ok () := checkProposerOk.mpr ⟨selects,signed⟩
  have consensus : d.checkConsensus env b = .ok 1 := by
    simp [Chain.checkConsensus,own,proposer,r.config.chainID,votes,bind,Except.bind]
  refine ⟨_,addBlockOk.mpr ⟨st,1,?_,rfl⟩⟩
  refine ⟨?_,replicaParent s r.replica path below,
    (gateBranch r.replica.sound own (copiedPath r.replica.copied rest)).mpr gate,consensus,l.txRoot,?_,
    ⟨before,?_,?_⟩,?_,root⟩
  · rw [hash]
    exact fresh
  · refine assertChainIDOk.mpr ?_
    rw [r.config.chainID]
    exact l.chainID
  · rw [resyncedDerive s r rest]
    exact derived
  · rw [r.config.exchangeMode]
    exact applied
  · rw [r.config.gasLimit]
    exact l.gas

theorem resyncedStart (setup : Setup) (bs : List Block) (g : Block)
    (found : ((setup.chain env).feed env verifySig bs).getByHash ((setup.chain env).feed env verifySig bs).genesisHash =
      some g) : Resynced env verifySig vs ((setup.chain env).feed env verifySig bs) [g] (setup.chain env) := by
  have grows := feedGrows env verifySig (setup.chain env) bs
  have config := grows.config
  have copied := (copiedStart setup grows (reachedSound setup bs : Sound env verifySig _) rfl found).2
  exact ⟨⟨setupSound setup,copied.genesisHash,config.gasLimit.symm,config.consensus.symm,copied.stored,
      fun h x inside => (grows.weights h x inside).symm⟩,
    ⟨config.genesisHash.symm,config.genesisAlloc.symm,config.genesisBaseAlloc.symm,config.chainID.symm,
      config.gasLimit.symm,config.exchangeMode.symm,config.consensus.symm⟩,rfl⟩

/- A fresh chain given the canonical blocks in order, and nothing else, takes all of
them and ends at the same head and state root exactly when each of them is judged
well by its own ancestors. -/
theorem canonicalReplays (setup : Setup) (mode : setup.consensus = .pos vs) {bs path : List Block}
    (canonical : ((setup.chain env).feed env verifySig bs).chainTo ((setup.chain env).feed env verifySig bs).head =
      some path) :
    (∃ d, (setup.chain env).addBlocks env verifySig path.tail = .ok d ∧
      d.head = ((setup.chain env).feed env verifySig bs).head ∧
      env.stateRoot d.headState = env.stateRoot ((setup.chain env).feed env verifySig bs).headState) ↔
    ∀ older b, older ++ [b] <+: path → older ≠ [] → JudgedByAncestors env vs older b := by
  have s : Sound env verifySig ((setup.chain env).feed env verifySig bs) := reachedSound setup bs
  have posMode : ((setup.chain env).feed env verifySig bs).consensus = .pos vs :=
    (feedConfig env verifySig (setup.chain env) bs).consensus.trans mode
  obtain ⟨p,climbed,rfl⟩ := Option.map_eq_some_iff.mp canonical
  have walk := (ancestryPath s.rooted).mp climbed
  obtain ⟨kept,taken⟩ := replays (Resynced env verifySig vs ((setup.chain env).feed env verifySig bs))
    (fun older b => JudgedByAncestors env vs older.reverse b) (resyncedStart setup bs)
    (fun _ _ _ _ _ r path below => resyncedKeeps s posMode r path below)
    (fun _ _ _ _ r path below => resyncedTakes s posMode r path below) walk
  have sides : (∀ older b, older ++ [b] <+: p.reverse → older ≠ [] → JudgedByAncestors env vs older b) ↔
      ∀ b older, b::older <:+ p → older ≠ [] → JudgedByAncestors env vs older.reverse b := by
    constructor
    · intro every b older suffix below
      refine every older.reverse b ?_ (by simpa using below)
      rw [← List.reverse_cons,List.reverse_prefix]
      exact suffix
    · intro every older b isPrefix below
      have turned := every b older.reverse (by rw [← List.reverse_prefix]; simpa using isPrefix) (by simpa using below)
      rwa [List.reverse_reverse] at turned
  rw [sides,← taken]
  constructor
  · rintro ⟨d,ok,_⟩
    exact ⟨d,ok⟩
  · rintro ⟨d,ok⟩
    have r := kept d ok
    have head := replicaHead s walk r.replica
    have derived := resyncedDerive s r walk
    rw [s.headState,← head,r.replica.sound.headState] at derived
    exact ⟨d,ok,head,congrArg env.stateRoot (Except.ok.inj derived)⟩

end

namespace Devnet

/- Validator 1 signs two blocks on genesis. A node that stores both jails it and
takes the next block from validator 2; the second of the two blocks stays off the
canonical branch. -/
def twin : Block := block 0 1 []

def heir : Block :=
  let b := block 1 0 []
  {b with header := {b.header with coinbase := 2}}

def once : Chain := start.offer env acceptNonEmptySig (empty 0)

theorem onceQuiet : Quiet 1 once := quietStep quietStart (by decide)

theorem onceEq : once = start.commit env (empty 0) (credit start.headState 1 blockReward) 1 :=
  offerAccepted (emptyAccepted quietStart (by decide))

theorem onceGenesis : once.getByHash (hashAt 0 0) = some (setup.genesis.toBlock env) := by
  rw [onceEq,commitFound (emptyAccepted quietStart (by decide)).fresh]
  refine .inl ?_
  rw [startFound,if_pos rfl]

theorem onceDerive : once.deriveState env acceptNonEmptySig (hashAt 0 0) = .ok start.headState := by
  have found : start.getByHash (hashAt 0 0) = some (setup.genesis.toBlock env) := by rw [startFound,if_pos rfl]
  have fresh := (emptyAccepted quietStart (by decide)).fresh
  rw [onceEq,growsDerive quietStart.sound.rooted (commitGrows fresh) found,← quietStart.head]
  exact quietStart.sound.headState

theorem twinHash : twin.hash env.sha = hashAt 1 1 := blockHash (by decide) 1 []

theorem heirHash : heir.hash env.sha = hashAt 2 0 := headerHash heir.header

theorem twinAccepted : Accepted env acceptNonEmptySig once twin (credit start.headState 1 blockReward) 1 := by
  have q := onceQuiet
  refine ⟨?_,⟨_,onceGenesis,rfl,?_⟩,openGate q.mode ?_,posConsensus q.mode ?_ ?_,rfl,?_,
    ⟨start.headState,onceDerive,?_⟩,?_,rfl⟩
  · cases found : once.getByHash (twin.hash env.sha) with
    | none => rfl
    | some x =>
      obtain ⟨k,_,same⟩ := q.keys _ _ found
      rw [twinHash] at same
      have equal := hashAtInj (by decide) (by omega) (by decide) (by decide) same
      omega
  · rw [Chain.nextBaseFeeOf,q.gasLimit]
    rfl
  · rw [q.unvoted]
    rfl
  · rw [q.unvoted]
    exact proposerOk 0 1 [] _
  · intro tx member
    contradiction
  · exact assertChainIDOk.mpr (by intro tx member; contradiction)
  · have mode : once.exchangeMode = .continuous := (offerConfig env acceptNonEmptySig start (empty 0)).exchangeMode
    rw [mode]
    rfl
  · rw [q.gasLimit]
    decide

def twice : Chain := once.commit env twin (credit start.headState 1 blockReward) 1

theorem twiceSound : Sound env acceptNonEmptySig twice := commitSound onceQuiet.sound twinAccepted

theorem twiceHead : twice.head = hashAt 1 0 := by
  have lighter : ¬ once.outweighs env twin 1 := by
    rw [outweighsIff onceQuiet.sound.headStored twinAccepted.fresh,onceQuiet.weight]
    have root : once.td twin.header.prevHash = 0 := by
      have found : start.getByHash (hashAt 0 0) = some (setup.genesis.toBlock env) := by rw [startFound,if_pos rfl]
      have kept := (offerGrows env acceptNonEmptySig start (empty 0)).weights _ _ found
      exact kept.trans (by rw [← quietStart.head]; exact quietStart.weight)
    rw [root]
    decide
  rw [twice,Chain.commitHead,if_neg lighter]
  exact onceQuiet.head

theorem onceStored : once.getByHash (hashAt 1 0) = some (empty 0) := by
  rw [onceEq,commitFound (emptyAccepted quietStart (by decide)).fresh]
  exact .inr ⟨(blockHash (by decide) 0 []).symm,rfl⟩

theorem twiceStored : twice.getByHash (hashAt 1 0) = some (empty 0) :=
  (commitFound twinAccepted.fresh _ _).mpr (.inl onceStored)

theorem twiceJails : twice.pos.jailed = put (fun _ => false) 1 true ∧ twice.pos.finalizedHash = 0 := by
  have first : once.pos.proposedAtHeight (hashAt 0 0) 1 = some (hashAt 1 0) := by
    have slot : start.pos.proposedAtHeight (empty 0).header.prevHash (empty 0).header.coinbase = none := rfl
    have own : (empty 0).hash env.sha = hashAt 1 0 := blockHash (by decide) 0 []
    rw [onceEq,Chain.commitPos]
    have recorded : start.recordBlock env (empty 0) =
        start.pos.detectEquivocation (empty 0) ((empty 0).hash env.sha) := rfl
    have place : (empty 0).header.prevHash = hashAt 0 0 := rfl
    have author : (empty 0).header.coinbase = 1 := rfl
    simp only [recorded,detectFirst slot,own,place,author,put,if_true]
  have other : hashAt 1 0 ≠ twin.hash env.sha := by
    rw [twinHash]
    intro same
    have equal := hashAtInj (by decide) (by decide) (by decide) (by decide) same
    omega
  have recorded : once.recordBlock env twin = once.pos.jail 1 := by
    have votes : once.recordBlock env twin = once.pos.detectEquivocation twin (twin.hash env.sha) := by
      simp only [Chain.recordBlock,onceQuiet.mode]
      rfl
    rw [votes]
    have slot : once.pos.proposedAtHeight twin.header.prevHash twin.header.coinbase = some (hashAt 1 0) := first
    simp only [PosState.detectEquivocation,slot,ne_eq,other,not_false_eq_true,if_true]
    rfl
  rw [twice,Chain.commitPos,recorded,onceQuiet.unvoted]
  exact ⟨rfl,rfl⟩

theorem heirProposer : proposerFor env vs (put (fun _ => false) 1 true) heir = .ok (validator 2 1) := by
  rw [proposerFor,seedZero]
  rfl

theorem twiceHeadBlock : twice.headD = empty 0 := by
  rw [Chain.headD,Chain.headBlock,twiceHead,twiceStored]
  rfl

theorem twiceConfig : SameConfig once twice := commitConfig env once twin _ 1

theorem heirAccepted : Accepted env acceptNonEmptySig twice heir (credit twice.headState 2 blockReward) 1 := by
  have q := onceQuiet
  have mode : twice.consensus = .pos vs := twiceConfig.consensus.trans q.mode
  have cand : twice.candidate env acceptNonEmptySig [] 2 = .ok (credit twice.headState 2 blockReward,0) :=
    votesCandidate twiceSound 2 (by intro tx member; contradiction) trivial
  have built : Sealed env twice heir [] 2 0 0 := by
    refine ⟨rfl,?_,?_,rfl,rfl,rfl,?_,rfl⟩
    · rw [twiceHeadBlock]
      rfl
    · rw [twiceHeadBlock,empty,blockHash (by decide)]
      rfl
    · rw [Chain.nextBaseFee,twiceHeadBlock,Chain.nextBaseFeeOf,twiceConfig.gasLimit,q.gasLimit]
      rfl
  refine sealedAccepted twiceSound built cand ?_ ?_ ?_ (openGate mode twiceJails.2) (posConsensus mode ?_ ?_)
  · rw [twiceConfig.gasLimit,q.gasLimit]
    decide
  · cases found : twice.getByHash (heir.hash env.sha) with
    | none => rfl
    | some x =>
      rw [heirHash] at found
      rcases (commitFound twinAccepted.fresh _ _).mp found with old | ⟨same,_⟩
      · obtain ⟨k,_,same⟩ := q.keys _ _ old
        have equal := hashAtInj (by decide) (by omega) (by decide) (by decide) same
        omega
      · rw [twinHash] at same
        have equal := hashAtInj (by decide) (by decide) (by decide) (by decide) same
        omega
  · rw [twiceHeadBlock]
    decide
  · rw [twiceJails.1,checkProposer,heirProposer]
    rfl
  · intro tx member
    contradiction

theorem heirRefused : once.addBlock env acceptNonEmptySig heir = .error .wrongProposer := by
  have q := onceQuiet
  have header : once.checkHeader env heir = .ok () := by
    refine checkHeaderOk.mpr ⟨?_,empty 0,onceStored,rfl,?_⟩
    · have fresh := quietFresh q (by decide) 0 []
      rw [heirHash]
      rw [blockHash (by decide)] at fresh
      exact fresh
    · rw [Chain.nextBaseFeeOf,q.gasLimit]
      rfl
  have gate : once.respectsFinality heir = .ok () := openGate q.mode (by rw [q.unvoted]; rfl)
  have consensus : once.checkConsensus env heir = .error .wrongProposer := by
    have proposer : checkProposer env vs once.chainID once.pos.jailed heir = .error .wrongProposer := by
      have none : once.pos.jailed = fun _ => false := by rw [q.unvoted]; rfl
      rw [none,checkProposer,firstProposes]
      rfl
    simp [Chain.checkConsensus,q.mode,proposer,bind,Except.bind]
  simp [Chain.addBlock,Chain.validate,header,gate,consensus,bind,Except.bind]

theorem onceRoot : once.genesisHash = hashAt 0 0 :=
  (offerConfig env acceptNonEmptySig start (empty 0)).genesisHash.trans (headerHash _)

theorem oncePath : once.Path (hashAt 1 0) [empty 0,setup.genesis.toBlock env] := by
  refine .step onceStored ?_ ?_
  · rw [onceRoot]
    intro same
    have equal := hashAtInj (by decide) (by decide) (by decide) (by decide) same
    omega
  · have found : once.getByHash once.genesisHash = some (setup.genesis.toBlock env) := by
      rw [onceRoot]
      exact onceGenesis
    have base : once.Path once.genesisHash [setup.genesis.toBlock env] := .root found
    have prev : Chain.prev (empty 0) = once.genesisHash := onceRoot.symm
    rw [prev]
    exact base

/- After both blocks of validator 1 and the block of validator 2, a fresh chain
refuses the canonical branch. -/
theorem sideBlockDecidesProposer :
    (start.feed env acceptNonEmptySig [empty 0,twin,heir]).chainTo
      (start.feed env acceptNonEmptySig [empty 0,twin,heir]).head = some [setup.genesis.toBlock env,empty 0,heir] ∧
    start.addBlocks env acceptNonEmptySig [empty 0,heir] = .error .wrongProposer := by
  have second : once.offer env acceptNonEmptySig twin = twice := offerAccepted twinAccepted
  have third := offerAccepted heirAccepted
  have fed : start.feed env acceptNonEmptySig [empty 0,twin,heir] =
      twice.commit env heir (credit twice.headState 2 blockReward) 1 := by
    rw [← third,← second]
    rfl
  have first : start.addBlock env acceptNonEmptySig (empty 0) = .ok once :=
    addBlockOk.mpr ⟨_,1,emptyAccepted quietStart (by decide),onceEq⟩
  refine ⟨?_,?_⟩
  · have heavier : twice.outweighs env heir 1 := by
      rw [outweighsIff twiceSound.headStored heirAccepted.fresh,twiceHead]
      have kept : twice.td (hashAt 1 0) = once.td (hashAt 1 0) := (commitGrows twinAccepted.fresh).weights _ _ onceStored
      have weight := onceQuiet.weight
      rw [onceQuiet.head] at weight
      have prev : heir.header.prevHash = hashAt 1 0 := rfl
      rw [prev,kept,weight]
      decide
    have grows : Grows once (twice.commit env heir (credit twice.headState 2 blockReward) 1) :=
      (commitGrows twinAccepted.fresh).trans (commitGrows heirAccepted.fresh)
    have head : (twice.commit env heir (credit twice.headState 2 blockReward) 1).head = hashAt 2 0 := by
      rw [Chain.commitHead,if_pos heavier,heirHash]
    have path : (twice.commit env heir (credit twice.headState 2 blockReward) 1).Path (hashAt 2 0)
        [heir,empty 0,setup.genesis.toBlock env] := by
      refine .step ((commitFound heirAccepted.fresh _ _).mpr (.inr ⟨heirHash.symm,rfl⟩)) ?_ (growsPath grows oncePath)
      rw [grows.config.genesisHash,onceRoot]
      intro same
      have equal := hashAtInj (by decide) (by decide) (by decide) (by decide) same
      omega
    rw [fed,head,Chain.chainTo,(ancestryPath (commitSound twiceSound heirAccepted).rooted).mpr path]
    rfl
  · simp only [Chain.addBlocks,List.foldlM,first,heirRefused,bind,Except.bind]

/- The second block is stored and its proposer jailed, and the branch without it still replays. -/
theorem besideTwinReplays : twice.getByHash (hashAt 1 1) = some twin ∧ twice.pos.jailed 1 = true ∧
    ∃ d, start.addBlocks env acceptNonEmptySig [empty 0] = .ok d ∧ d.head = twice.head ∧
      env.stateRoot d.headState = env.stateRoot twice.headState := by
  have path : twice.Path (hashAt 1 0) [empty 0,setup.genesis.toBlock env] :=
    growsPath (commitGrows twinAccepted.fresh) oncePath
  have canonical : twice.chainTo twice.head = some [setup.genesis.toBlock env,empty 0] := by
    rw [twiceHead,Chain.chainTo,(ancestryPath twiceSound.rooted).mpr path]
    rfl
  have reached : twice = (setup.chain env).feed env acceptNonEmptySig [empty 0,twin] := (offerAccepted twinAccepted).symm
  refine ⟨(commitFound twinAccepted.fresh _ _).mpr (.inr ⟨twinHash.symm,rfl⟩),by rw [twiceJails.1]; rfl,?_⟩
  rw [reached] at canonical ⊢
  refine (canonicalReplays setup rfl canonical).mpr ?_
  intro older b within below
  have shape : older = [setup.genesis.toBlock env] ∧ b = empty 0 := by
    obtain ⟨rest,same⟩ := within
    rcases older with _ | ⟨first,_ | ⟨second,older⟩⟩
    · exact absurd rfl below
    · injection same with first same
      injection same with second _
      exact ⟨by rw [first],second⟩
    · have size := congrArg List.length same
      simp at size
  rw [shape.1,shape.2]
  exact ⟨⟨validator 1 2,firstProposes _,rfl⟩,.inl rfl⟩

end Devnet
end L1Chain
