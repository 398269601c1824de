import L1Chain.Votes

/-! The finality gate. `respectsFinality` walks from a block's parent down to the
finalized height; what it accepts descends from the finalized checkpoint. From
this follow when the checkpoint stays on the canonical branch, and exactly which
blocks the gate turns away although they do not conflict. -/
namespace L1Chain
open Transition Runs Pos

variable {E : Type} {env : Env E} {verifySig : VerifySig} {vs : ValidatorSet} {c : Chain} {b : Block}

theorem walkFinds {fuel : Nat} {h : Hash} (s : Sound env verifySig c) (ok : c.finalityWalk fuel h = .ok ()) :
    ∃ p x, c.Path h p ∧ x ∈ p ∧ x.hash env.sha = c.pos.finalizedHash ∧ x.header.height = c.pos.finalizedHeight := by
  induction fuel generalizing h with
  | zero => simp [Chain.finalityWalk] at ok
  | succ fuel ih =>
    simp only [Chain.finalityWalk] at ok
    cases found : c.getByHash h with
    | none => simp [found] at ok
    | some blk =>
      simp only [found] at ok
      obtain ⟨p,path,_⟩ := s.rooted h blk found
      obtain ⟨y,q,shape,head⟩ := Forest.pathHead path
      rw [found] at head
      cases head
      split at ok
      · rename_i level
        split at ok
        · contradiction
        · rename_i same
          simp only [ne_eq,not_not] at same
          exact ⟨p,blk,path,by simp [shape],(s.keyed h blk found).trans same,level⟩
      · rename_i different
        split at ok
        · contradiction
        · rename_i above
          have below : h ≠ c.genesisHash := by
            intro root
            obtain ⟨g,genesis,zero⟩ := s.genesis
            rw [root,genesis] at found
            cases found
            rw [zero] at different above
            exact above (UInt64.pos_iff_ne_zero.mpr (fun none => different none.symm))
          obtain ⟨p',x,rest,member,hash,height⟩ := ih ok
          exact ⟨blk::p',x,.step found below rest,List.mem_cons_of_mem _ member,hash,height⟩

theorem gateFinds (s : Sound env verifySig c) (mode : c.consensus = .pos vs) (final : c.pos.finalizedHash ≠ 0)
    (ok : c.respectsFinality b = .ok ()) :
    ∃ p x, c.Path b.header.prevHash p ∧ x ∈ p ∧ x.hash env.sha = c.pos.finalizedHash ∧
      x.header.height = c.pos.finalizedHeight := by
  simp only [Chain.respectsFinality,mode,if_neg final] at ok
  exact walkFinds s ok

/- The branch that is canonical once an accepted block is stored, newest first. -/
def branchAfter (c : Chain) (b : Block) : Option (List Block) :=
  if c.td b.header.prevHash + 1 > c.td c.head then (c.ancestry b.header.prevHash).map (b::·)
  else c.ancestry c.head

def OnBranch (env : Env E) (c : Chain) (b : Block) (target : Hash) (height : UInt64) : Prop :=
  ∃ path, branchAfter c b = some path ∧ ∃ x ∈ path, x.hash env.sha = target ∧ x.header.height = height

def FinalizesOnBranch (env : Env E) (vs : ValidatorSet) (c : Chain) (b : Block) (p : PosState) (tx : Transaction) :
    Prop :=
  ∀ v a, Counted vs p tx v a → p.finalizes vs v a → OnBranch env c b a.targetHash a.targetHeight

def FinalizedOnBranch (c : Chain) : Prop :=
  ∃ path x, c.chainTo c.head = some path ∧ c.getByHash c.pos.finalizedHash = some x ∧ x ∈ path ∧
    x.header.height = c.pos.finalizedHeight

theorem branchPath (s : Sound env verifySig c) {st : MptState} (a : Accepted env verifySig c b st 1) {path : List Block}
    (branch : branchAfter c b = some path) : (c.commit env b st 1).Path (c.commit env b st 1).head path := by
  have grows : Grows c (c.commit env b st 1) := commitGrows a.fresh
  rw [Chain.commitHead]
  unfold branchAfter at branch
  by_cases heavier : c.outweighs env b 1
  · rw [if_pos ((outweighsIff s.headStored a.fresh).mp heavier)] at branch
    obtain ⟨older,climbed,rfl⟩ := Option.map_eq_some_iff.mp branch
    rw [if_pos heavier]
    obtain ⟨g,genesis,_⟩ := s.genesis
    refine .step ((commitFound a.fresh _ _).mpr (.inr ⟨rfl,rfl⟩)) ?_ (growsPath grows ((ancestryPath s.rooted).mp climbed))
    rw [grows.config.genesisHash]
    exact (parentNotOwn a.fresh genesis).symm
  · rw [if_neg (fun more => heavier ((outweighsIff s.headStored a.fresh).mpr more))] at branch
    rw [if_neg heavier]
    exact growsPath grows ((ancestryPath s.rooted).mp branch)

theorem finalizedOfPath {path : List Block} {x : Block} (s : Sound env verifySig c) (canonical : c.Path c.head path)
    (member : x ∈ path) (hash : x.hash env.sha = c.pos.finalizedHash)
    (height : x.header.height = c.pos.finalizedHeight) : FinalizedOnBranch c := by
  obtain ⟨key,stored⟩ := Forest.pathStored canonical x member
  refine ⟨path.reverse,x,?_,?_,by simpa using member,height⟩
  · rw [Chain.chainTo,(ancestryPath s.rooted).mpr canonical]
    rfl
  · rw [← hash,s.keyed key x stored]
    exact stored

theorem votesFinalize {p : PosState} {txs : List Transaction}
    (meets : Along (PosState.recordVote vs) (FinalizesOnBranch env vs c b) p txs)
    (start : (p.finalizedHash = c.pos.finalizedHash ∧ p.finalizedHeight = c.pos.finalizedHeight) ∨
      OnBranch env c b p.finalizedHash p.finalizedHeight) :
    let q := txs.foldl (PosState.recordVote vs) p
    (q.finalizedHash = c.pos.finalizedHash ∧ q.finalizedHeight = c.pos.finalizedHeight) ∨
      OnBranch env c b q.finalizedHash q.finalizedHeight := by
  refine invariant (fun q : PosState => (q.finalizedHash = c.pos.finalizedHash ∧
    q.finalizedHeight = c.pos.finalizedHeight) ∨ OnBranch env c b q.finalizedHash q.finalizedHeight) ?_ start meets
  intro q tx kept branch
  rcases recordVoteCases vs q tx with same | ⟨v,a,_,same⟩ | ⟨v,a,counted,same⟩
  · rw [same]
    exact kept
  · rw [same]
    exact kept
  · rw [same,PosState.countVoteEq]
    by_cases reached : q.finalizes vs v a
    · simp only [if_pos reached]
      exact .inr (branch v a counted reached)
    · simp only [if_neg reached]
      exact kept

theorem commitFinalized (s : Sound env verifySig c) (mode : c.consensus = .pos vs) {st : MptState} {w : UInt64}
    (a : Accepted env verifySig c b st w) (kept : c.pos.finalizedHash ≠ 0 → FinalizedOnBranch c)
    (meets : Along (PosState.recordVote vs) (FinalizesOnBranch env vs c b) c.pos b.txs)
    (final : (c.commit env b st w).pos.finalizedHash ≠ 0) : FinalizedOnBranch (c.commit env b st w) := by
  have weight : w = 1 := by
    rw [consensusWeight a.consensus,mode]
    rfl
  subst weight
  have sound := commitSound s a
  have grows : Grows c (c.commit env b st 1) := commitGrows a.fresh
  have recorded : (c.commit env b st 1).pos = c.pos.record vs b (b.hash env.sha) := by
    rw [Chain.commitPos]
    simp only [Chain.recordBlock,mode]
  obtain ⟨_,_,hash,height⟩ := (c.pos.recordAttestations vs b).detectVotes b (b.hash env.sha)
  rcases votesFinalize meets (.inl ⟨rfl,rfl⟩) with ⟨sameHash,sameHeight⟩ | ⟨path,branch,x,member,isTarget,level⟩
  · -- the checkpoint is the old one: the gate put it below the new block
    have oldHash : (c.commit env b st 1).pos.finalizedHash = c.pos.finalizedHash := by
      rw [recorded]
      exact hash.trans sameHash
    have oldHeight : (c.commit env b st 1).pos.finalizedHeight = c.pos.finalizedHeight := by
      rw [recorded]
      exact height.trans sameHeight
    rw [oldHash] at final
    by_cases heavier : c.td b.header.prevHash + 1 > c.td c.head
    · obtain ⟨p,x,below,member,isFinal,level⟩ := gateFinds s mode final a.gate
      have branch : branchAfter c b = some (b::p) := by
        rw [branchAfter,if_pos heavier,(ancestryPath s.rooted).mpr below]
        rfl
      exact finalizedOfPath sound (branchPath s a branch) (List.mem_cons_of_mem _ member)
        (isFinal.trans oldHash.symm) (level.trans oldHeight.symm)
    · obtain ⟨path,x,canonical,stored,member,level⟩ := kept final
      obtain ⟨p,climbed,rfl⟩ := Option.map_eq_some_iff.mp canonical
      have branch : branchAfter c b = some p := by
        rw [branchAfter,if_neg heavier]
        exact climbed
      exact finalizedOfPath sound (branchPath s a branch) (by simpa using member)
        ((s.keyed _ _ stored).trans oldHash.symm) (level.trans oldHeight.symm)
  · have newHash : (c.commit env b st 1).pos.finalizedHash =
        (b.txs.foldl (PosState.recordVote vs) c.pos).finalizedHash := by
      rw [recorded]
      exact hash
    have newHeight : (c.commit env b st 1).pos.finalizedHeight =
        (b.txs.foldl (PosState.recordVote vs) c.pos).finalizedHeight := by
      rw [recorded]
      exact height
    exact finalizedOfPath sound (branchPath s a branch) member (isTarget.trans newHash.symm) (level.trans newHeight.symm)

/- In every state a PoS chain reaches, as long as each vote that finalizes names a
block of that height on the branch canonical after its own block, the finalized
checkpoint is a stored block of the finalized height on the canonical branch. -/
theorem finalizedStaysCanonical (setup : Setup) (mode : setup.consensus = .pos vs) {bs pre : List Block}
    (meets : Along (Chain.offer env verifySig) (fun c b => Accepts env verifySig c b →
      Along (PosState.recordVote vs) (FinalizesOnBranch env vs c b) c.pos b.txs) (setup.chain env) bs)
    (reached : pre <+: bs) (final : ((setup.chain env).feed env verifySig pre).pos.finalizedHash ≠ 0) :
    FinalizedOnBranch ((setup.chain env).feed env verifySig pre) := by
  obtain ⟨rest,rfl⟩ := reached
  have keep : ∀ (d : Chain) b, (Sound env verifySig d ∧ d.consensus = .pos vs ∧
      (d.pos.finalizedHash ≠ 0 → FinalizedOnBranch d)) →
      (Accepts env verifySig d b → Along (PosState.recordVote vs) (FinalizesOnBranch env vs d b) d.pos b.txs) →
      Sound env verifySig (d.offer env verifySig b) ∧ (d.offer env verifySig b).consensus = .pos vs ∧
        ((d.offer env verifySig b).pos.finalizedHash ≠ 0 → FinalizedOnBranch (d.offer env verifySig b)) := by
    rintro d b ⟨sound,mode,kept⟩ votes
    refine ⟨offerSound sound,(offerConfig env verifySig d b).consensus.trans mode,?_⟩
    rcases offerCases env verifySig d b with ⟨same,_⟩ | ⟨st,w,a,same⟩
    · rw [same]
      exact kept
    · rw [same]
      exact commitFinalized sound mode a kept (votes ⟨_,addBlockOk.mpr ⟨st,w,a,rfl⟩⟩)
  exact (invariant (fun d : Chain => Sound env verifySig d ∧ d.consensus = .pos vs ∧
    (d.pos.finalizedHash ≠ 0 → FinalizedOnBranch d)) keep ⟨setupSound setup,mode,fun final => absurd rfl final⟩
    (alongAppend.mp meets).1).2.2 final

/- A tree of blocks around a chain: it holds every stored block, and possibly blocks
the node has not seen. Heights count from genesis without wrapping. -/
structure TreeOver (env : Env E) (c : Chain) (tree : Hash → Option Block) : Prop where
  keyed : ∀ h x, tree h = some x → x.hash env.sha = h
  stored : ∀ h x, c.getByHash h = some x → tree h = some x
  linked : ∀ h x, tree h = some x → h ≠ c.genesisHash → ∃ p, tree x.header.prevHash = some p ∧
    x.header.height.toNat = p.header.height.toNat + 1

def Below (env : Env E) (c : Chain) (tree : Hash → Option Block) (x y : Block) : Prop :=
  ∃ p, Forest.Path tree c.genesisHash Chain.prev (y.hash env.sha) p ∧ x ∈ p

def Conflicts (env : Env E) (c : Chain) (tree : Hash → Option Block) (x y : Block) : Prop :=
  ¬ Below env c tree x y ∧ ¬ Below env c tree y x

theorem treePath {tree : Hash → Option Block} (t : TreeOver env c tree) {h : Hash} {x : Block} (found : tree h = some x) :
    ∃ p, Forest.Path tree c.genesisHash Chain.prev h p := by
  induction level : x.header.height.toNat using Nat.strong_induction_on generalizing h x with
  | _ n ih =>
    by_cases root : h = c.genesisHash
    · subst root
      exact ⟨[x],.root found⟩
    · obtain ⟨p,parent,height⟩ := t.linked h x found root
      obtain ⟨q,path⟩ := ih p.header.height.toNat (by omega) parent rfl
      exact ⟨x::q,.step found root path⟩

theorem pathHeights {tree : Hash → Option Block} (t : TreeOver env c tree) {h : Hash} {p : List Block}
    (path : Forest.Path tree c.genesisHash Chain.prev h p) {x : Block} (found : tree h = some x) :
    ∀ y ∈ p, y = x ∨ y.header.height.toNat < x.header.height.toNat := by
  induction path generalizing x with
  | root own =>
    rw [own] at found
    cases found
    simp
  | @step k v p own below rest ih =>
    rw [own] at found
    cases found
    intro y member
    rcases List.mem_cons.mp member with rfl | older
    · exact .inl rfl
    · obtain ⟨q,parent,height⟩ := t.linked k v own below
      rcases ih parent y older with rfl | lower
      · exact .inr (by omega)
      · exact .inr (by omega)

theorem belowSelf {tree : Hash → Option Block} (t : TreeOver env c tree) {x : Block}
    (found : tree (x.hash env.sha) = some x) : Below env c tree x x := by
  obtain ⟨p,path⟩ := treePath t found
  obtain ⟨y,q,shape,head⟩ := Forest.pathHead path
  rw [found] at head
  cases head
  exact ⟨p,path,by simp [shape]⟩

theorem walkHit {fuel : Nat} {h : Hash} {x : Block} (found : c.getByHash h = some x)
    (level : x.header.height = c.pos.finalizedHeight) (hash : h = c.pos.finalizedHash) :
    c.finalityWalk (fuel + 1) h = .ok () := by
  simp only [Chain.finalityWalk,found,if_pos level]
  exact if_neg (not_not.mpr hash)

theorem walkReaches {tree : Hash → Option Block} (t : TreeOver env c tree) {f : Block}
    (hash : f.hash env.sha = c.pos.finalizedHash) (level : f.header.height = c.pos.finalizedHeight)
    {h : Hash} {p : List Block} (path : c.Path h p) (member : f ∈ p) {fuel : Nat} (fits : p.length ≤ fuel) :
    c.finalityWalk fuel h = .ok () := by
  induction path generalizing fuel with
  | @root v found =>
    cases fuel with
    | zero => simp at fits
    | succ fuel =>
      rw [List.mem_singleton.mp member] at hash level
      rw [t.keyed _ _ (t.stored _ _ found)] at hash
      exact walkHit found level hash
  | @step k v p found below rest ih =>
    cases fuel with
    | zero => simp at fits
    | succ fuel =>
      rcases List.mem_cons.mp member with rfl | older
      · rw [t.keyed _ _ (t.stored _ _ found)] at hash
        exact walkHit found level hash
      · obtain ⟨q,parent,height⟩ := t.linked k v (t.stored _ _ found) below
        have lower : f.header.height.toNat < v.header.height.toNat := by
          rcases pathHeights t (Forest.pathMono t.stored rest) parent f older with rfl | less
          · omega
          · omega
        have notLevel : ¬ v.header.height = c.pos.finalizedHeight := by
          intro same
          rw [level,same] at lower
          exact Nat.lt_irrefl _ lower
        have notUnder : ¬ v.header.height < c.pos.finalizedHeight := by
          rw [← level,UInt64.lt_iff_toNat_lt]
          omega
        simp only [Chain.finalityWalk,found,if_neg notLevel,if_neg notUnder]
        exact ih older (Nat.le_of_succ_le_succ fits)

theorem gateBelow (s : Sound env verifySig c) (mode : c.consensus = .pos vs) (final : c.pos.finalizedHash ≠ 0)
    {p : Block} (parent : c.getByHash b.header.prevHash = some p) (low : p.header.height < c.pos.finalizedHeight) :
    c.respectsFinality b = .error .conflictsWithFinalized := by
  obtain ⟨q,path,fits⟩ := s.rooted _ p parent
  obtain ⟨_,_,shape,_⟩ := Forest.pathHead path
  have notLevel : ¬ p.header.height = c.pos.finalizedHeight := UInt64.ne_of_lt low
  simp only [Chain.respectsFinality,mode,if_neg final]
  cases size : c.blocks.entries.length with
  | zero => simp [shape,size] at fits
  | succ n => simp only [Chain.finalityWalk,parent,if_neg notLevel,if_pos low]

/- In every state a PoS chain reaches with a checkpoint, and for every tree around
it that holds the checkpoint's block, the gate's refusal of a block with a stored
parent is a real conflict exactly when the block is neither the checkpoint nor one
of its ancestors. -/
theorem gateRefusesConflicts (setup : Setup) (mode : setup.consensus = .pos vs) {bs : List Block}
    (reached : c = (setup.chain env).feed env verifySig bs) {tree : Hash → Option Block} {f p : Block}
    (final : c.pos.finalizedHash ≠ 0) (t : TreeOver env c tree) (checkpoint : tree c.pos.finalizedHash = some f)
    (level : f.header.height = c.pos.finalizedHeight) (own : tree (b.hash env.sha) = some b)
    (notGenesis : b.hash env.sha ≠ c.genesisHash) (parent : c.getByHash b.header.prevHash = some p) :
    (c.respectsFinality b = .error .conflictsWithFinalized → Conflicts env c tree b f) ↔ ¬ Below env c tree b f := by
  have s : Sound env verifySig c := reached ▸ reachedSound setup bs
  have mode' : c.consensus = .pos vs :=
    reached ▸ (feedConfig env verifySig (setup.chain env) bs).consensus.trans mode
  have hash : f.hash env.sha = c.pos.finalizedHash := t.keyed _ _ checkpoint
  obtain ⟨p',parent',height⟩ := t.linked _ b own notGenesis
  rw [t.stored _ _ parent] at parent'
  cases parent'
  constructor
  · intro onlyConflicts below
    obtain ⟨q,path,member⟩ := below
    rw [hash] at path
    have low : p.header.height < c.pos.finalizedHeight := by
      rw [← level,UInt64.lt_iff_toNat_lt]
      rcases pathHeights t path checkpoint b member with rfl | less
      · omega
      · omega
    exact (onlyConflicts (gateBelow s mode' final parent low)).1 ⟨q,hash ▸ path,member⟩
  · intro notBelow refused
    refine ⟨notBelow,?_⟩
    rintro ⟨q,path,member⟩
    obtain ⟨v,rest,shape,found,path⟩ := Forest.pathSplit path notGenesis
    rw [own] at found
    cases found
    rw [shape] at member
    rcases List.mem_cons.mp member with rfl | older
    · exact notBelow (belowSelf t own)
    · obtain ⟨stored,climb,fits⟩ := s.rooted _ p parent
      rw [Forest.pathUnique path (Forest.pathMono t.stored climb)] at older
      have accepted := walkReaches t hash level climb older fits
      simp only [Chain.respectsFinality,mode',if_neg final] at refused
      rw [accepted] at refused
      cases refused

end L1Chain

namespace L1Chain.Devnet
open Transition Runs Pos

theorem spelledHeight {v : VerifySig} {c : Chain} (s : Sound env v c) {k t : Nat} (ks : k < 2 ^ 64) (ts : t < 2 ^ 64)
    {x : Block} (found : c.getByHash (hashAt k t) = some x) : x.header.height.toNat = k := by
  have own := s.keyed _ _ found
  rw [Block.hash,headerHash] at own
  exact (hashAtInj (UInt64.toNat_lt _) ks (UInt64.toNat_lt _) ts own).1

/- Votes for one target in round 1, none of which has finalized it. -/
structure Tallied (target : Hash) (ns : List UInt8) (sum : UInt64) (p : PosState) : Prop where
  jailed : p.jailed = fun _ => false
  tally : p.checkpointStake target = sum
  height : p.finalizedHeight = 0
  rounds : ∀ r x, p.attestedRound r x = if r = 1 ∧ x ∈ ns.map account then some target else none

theorem quietTallied {n : ℕ} {c : Chain} (q : Quiet n c) (target : Hash) : Tallied target [] 0 c.pos := by
  rw [q.unvoted]
  exact ⟨rfl,rfl,rfl,fun r x => by simp [PosState.init]⟩

section
variable {target : Hash} {ns : List UInt8} {sum : UInt64} {p : PosState} {n : UInt8}

theorem Tallied.counted (t : Tallied target ns sum p) (known : n ∈ [1,2,3,4])
    (fresh : account n ∉ ns.map account) : Counted vs p (vote n 0 32 target) (validator n (stakes n)) ⟨32,target,sig⟩ := by
  refine voteCounted (knownVoter n known) ?_ (by rw [t.jailed])
  rw [t.rounds]
  exact if_neg fun voted => fresh voted.2

theorem Tallied.finalizes (t : Tallied target ns sum p) :
    p.finalizes vs (validator n (stakes n)) ⟨32,target,sig⟩ ↔ (sum + stakes n) * 3 ≥ 14 := by
  have total : (vs.effectiveStake (fun _ => false)).2 * 2 = 14 := by decide
  have above : (32 : UInt64) > 0 := by decide
  rw [PosState.finalizes,t.jailed,total,t.height]
  simp only [t.tally,above,true_and]
  rfl

theorem Tallied.more (t : Tallied target ns sum p) (known : n ∈ [1,2,3,4])
    (fresh : account n ∉ ns.map account) (short : ¬ (sum + stakes n) * 3 ≥ 14) :
    Tallied target (n::ns) (sum + stakes n) (p.recordVote vs (vote n 0 32 target)) := by
  rw [recordVoteCounted (t.counted known fresh)]
  refine ⟨?_,?_,?_,fun r x => ?_⟩
  · rw [PosState.countVoteJailed,t.jailed]
  · simp only [PosState.countVoteEq,put,if_true,t.tally]
    rfl
  · simp only [PosState.countVoteEq,if_neg (t.finalizes.not.mpr short),t.height]
  · have round : checkpointRound 32 = 1 := by decide
    have sender : (validator n (stakes n)).address = account n := rfl
    rw [PosState.countVoteRound,t.rounds,round,sender]
    by_cases own : r = 1 ∧ x = account n
    · simp [own]
    · by_cases earlier : r = 1 ∧ x ∈ ns.map account
      · rw [if_neg own,if_pos earlier,if_pos ⟨earlier.1,List.mem_cons_of_mem _ earlier.2⟩]
      · rw [if_neg own,if_neg earlier,if_neg]
        rintro ⟨rfl,voted⟩
        rcases List.mem_cons.mp voted with same | before
        · exact own ⟨rfl,same⟩
        · exact earlier ⟨rfl,before⟩

theorem Tallied.final (t : Tallied target ns sum p) (known : n ∈ [1,2,3,4])
    (fresh : account n ∉ ns.map account) (enough : (sum + stakes n) * 3 ≥ 14) :
    (p.recordVote vs (vote n 0 32 target)).finalizedHash = target ∧
      (p.recordVote vs (vote n 0 32 target)).finalizedHeight = 32 := by
  rw [recordVoteCounted (t.counted known fresh),PosState.countVoteEq]
  simp only [if_pos (t.finalizes.mpr enough),and_self]

end

theorem ballotsRecorded {c : Chain} (q : Quiet 32 c) {ns : List UInt8} (apart : (ns.map account).Nodup)
    (known : ns ⊆ [1,2,3,4]) (time : Int64) (target : Hash) :
    (c.offer env acceptNonEmptySig (block 32 time (ballots ns target))).pos.finalizedHash =
        ((ballots ns target).foldl (PosState.recordVote vs) c.pos).finalizedHash ∧
      (c.offer env acceptNonEmptySig (block 32 time (ballots ns target))).pos.finalizedHeight =
        ((ballots ns target).foldl (PosState.recordVote vs) c.pos).finalizedHeight := by
  rw [offerAccepted (ballotsAccepted q apart known time target),Chain.commitPos]
  simp only [Chain.recordBlock,q.mode,PosState.record,PosState.recordAttestations]
  obtain ⟨_,_,hash,level⟩ := ((ballots ns target).foldl (PosState.recordVote vs) c.pos).detectVotes
    (block 32 time (ballots ns target)) ((block 32 time (ballots ns target)).hash env.sha)
  exact ⟨hash,level⟩

theorem ballotsFold (n : UInt8) (ns : List UInt8) (target : Hash) (p : PosState) :
    (ballots (n::ns) target).foldl (PosState.recordVote vs) p =
      (ballots ns target).foldl (PosState.recordVote vs) (p.recordVote vs (vote n 0 32 target)) := by
  simp only [ballots,List.map_cons,List.foldl_cons]

theorem ballotsNil (target : Hash) (p : PosState) : (ballots [] target).foldl (PosState.recordVote vs) p = p := rfl

theorem quorumFirst {c : Chain} (q : Quiet 32 c) (target : Hash) :
    Tallied target [4] 3 (c.pos.recordVote vs (vote 4 0 32 target)) :=
  (quietTallied q target).more (by decide) (by decide) (by decide)

theorem othersSecond {c : Chain} (q : Quiet 32 c) (target : Hash) :
    Tallied target [2,4] 4 ((c.pos.recordVote vs (vote 4 0 32 target)).recordVote vs (vote 2 0 32 target)) :=
  (quorumFirst q target).more (by decide) (by decide) (by decide)

theorem quorumRecorded {c : Chain} (q : Quiet 32 c) (target : Hash) :
    (c.offer env acceptNonEmptySig (quorumBlock target)).pos.finalizedHash = target ∧
      (c.offer env acceptNonEmptySig (quorumBlock target)).pos.finalizedHeight = 32 := by
  obtain ⟨hash,level⟩ := @ballotsRecorded c q [4,1] (by decide) (by decide) 0 target
  obtain ⟨final,high⟩ := (quorumFirst q target).final (n := 1) (by decide) (by decide) (by decide)
  rw [ballotsFold,ballotsFold,ballotsNil] at hash level
  exact ⟨hash.trans final,level.trans high⟩

theorem othersRecorded {c : Chain} (q : Quiet 32 c) (target : Hash) :
    (c.offer env acceptNonEmptySig (othersBlock target)).pos.finalizedHash = target ∧
      (c.offer env acceptNonEmptySig (othersBlock target)).pos.finalizedHeight = 32 := by
  obtain ⟨hash,level⟩ := @ballotsRecorded c q [4,2,3] (by decide) (by decide) 1 target
  obtain ⟨final,high⟩ := (othersSecond q target).final (n := 3) (by decide) (by decide) (by decide)
  rw [ballotsFold,ballotsFold,ballotsFold,ballotsNil] at hash level
  exact ⟨hash.trans final,level.trans high⟩

def quorumChain (target : Hash) : Chain :=
  start.feed env acceptNonEmptySig (quietBlocks 32 ++ [quorumBlock target])

theorem quorumFinal (target : Hash) : (quorumChain target).pos.finalizedHash = target ∧
    (quorumChain target).pos.finalizedHeight = 32 := by
  have q : Quiet 32 (start.feed env acceptNonEmptySig (quietBlocks 32)) := quietFeed (by decide)
  rw [quorumChain,feedSnoc]
  exact quorumRecorded q target

def othersChain (target : Hash) : Chain :=
  start.feed env acceptNonEmptySig (quietBlocks 32 ++ [othersBlock target])

theorem othersFinal (target : Hash) : (othersChain target).pos.finalizedHash = target ∧
    (othersChain target).pos.finalizedHeight = 32 := by
  have q : Quiet 32 (start.feed env acceptNonEmptySig (quietBlocks 32)) := quietFeed (by decide)
  rw [othersChain,feedSnoc]
  exact othersRecorded q target

/- A sibling of the quiet block of height 32, at time 1. The network votes for it
below without having it. -/
def sibling : Block := block 31 1 []

theorem siblingHash : sibling.hash env.sha = hashAt 32 1 := blockHash (by decide) 1 []

def withSibling (c : Chain) (h : Hash) : Option Block := if h = hashAt 32 1 then some sibling else c.getByHash h

structure Grown (c : Chain) : Prop where
  sound : Sound env acceptNonEmptySig c
  mode : c.consensus = .pos vs
  keys : ∀ h x, c.getByHash h = some x → ∃ k, k ≤ 33 ∧ h = hashAt k 0
  held : ∃ x, c.getByHash (hashAt 31 0) = some x
  root : c.genesisHash = hashAt 0 0

theorem quorumGrown {c : Chain} (q : Quiet 32 c) (root : c.genesisHash = hashAt 0 0) (target : Hash) :
    Grown (c.offer env acceptNonEmptySig (quorumBlock target)) := by
  have a := quorumAccepted q target
  have own : (quorumBlock target).hash env.sha = hashAt 33 0 := blockHash (by decide) 0 _
  have config := offerConfig env acceptNonEmptySig c (quorumBlock target)
  refine ⟨offerSound q.sound,config.consensus.trans q.mode,?_,?_,config.genesisHash.trans root⟩
  · intro h x found
    rw [offerAccepted a] at found
    rcases (commitFound a.fresh h x).mp found with old | ⟨same,_⟩
    · obtain ⟨k,low,key⟩ := q.keys h x old
      exact ⟨k,by omega,key⟩
    · exact ⟨33,Nat.le_refl _,same.trans own⟩
  · obtain ⟨x,found⟩ := q.held 31 (by decide)
    rw [offerAccepted a]
    exact ⟨x,(commitFound a.fresh _ _).mpr (.inl found)⟩

theorem siblingUnknown {c : Chain} (g : Grown c) : c.getByHash (hashAt 32 1) = none := by
  cases found : c.getByHash (hashAt 32 1) with
  | none => rfl
  | some x =>
    obtain ⟨k,low,same⟩ := g.keys _ _ found
    have equal := hashAtInj (by decide) (by omega) (by decide) (by decide) same
    omega

theorem siblingTree {c : Chain} (g : Grown c) : TreeOver env c (withSibling c) := by
  have unknown := siblingUnknown g
  have stored : ∀ h x, c.getByHash h = some x → withSibling c h = some x := by
    intro h x found
    have other : h ≠ hashAt 32 1 := by
      intro same
      rw [same,unknown] at found
      contradiction
    rw [withSibling,if_neg other]
    exact found
  refine ⟨?_,stored,?_⟩
  · intro h x found
    rw [withSibling] at found
    split at found
    · rename_i same
      cases found
      rw [same]
      exact siblingHash
    · exact g.sound.keyed h x found
  · intro h x found below
    rw [withSibling] at found
    split at found
    · cases found
      obtain ⟨p,parent⟩ := g.held
      refine ⟨p,stored _ _ parent,?_⟩
      rw [spelledHeight g.sound (by decide) (by decide) parent]
      rfl
    · obtain ⟨k,low,key⟩ := g.keys h x found
      obtain ⟨p,parent,height,_⟩ := (g.sound.linked h x found below).parent
      obtain ⟨j,lowp,keyp⟩ := g.keys _ _ parent
      refine ⟨p,stored _ _ parent,?_⟩
      rw [keyp] at parent
      have level := spelledHeight g.sound (by omega) (by decide) parent
      rw [height,UInt64.toNat_add,level]
      exact Nat.mod_eq_of_lt (show j + 1 < 2 ^ 64 by omega)

theorem quorumChainGrown : Grown (quorumChain (hashAt 32 1)) := by
  have q : Quiet 32 (start.feed env acceptNonEmptySig (quietBlocks 32)) := quietFeed (by decide)
  have root : (start.feed env acceptNonEmptySig (quietBlocks 32)).genesisHash = hashAt 0 0 :=
    (feedConfig env acceptNonEmptySig start (quietBlocks 32)).genesisHash.trans (headerHash _)
  rw [quorumChain,feedSnoc]
  exact quorumGrown q root (hashAt 32 1)

/- Votes alone advance the checkpoint: here to a hash that no stored block has. -/
theorem quorumFinalizesUnknownBlock : (quorumChain (hashAt 32 1)).pos.finalizedHash ≠ 0 ∧
    ¬ FinalizedOnBranch (quorumChain (hashAt 32 1)) := by
  obtain ⟨hash,height⟩ := quorumFinal (hashAt 32 1)
  rw [hash]
  refine ⟨hashAtPos (by decide) (by decide),?_⟩
  rintro ⟨path,x,_,stored,_⟩
  rw [hash,siblingUnknown quorumChainGrown] at stored
  contradiction

/- The checkpoint's own block, offered once its parent is stored, is refused as a
conflict with itself. -/
theorem quorumRefusesCheckpoint : TreeOver env (quorumChain (hashAt 32 1)) (withSibling (quorumChain (hashAt 32 1))) ∧
    withSibling (quorumChain (hashAt 32 1)) (quorumChain (hashAt 32 1)).pos.finalizedHash = some sibling ∧
    sibling.header.height = (quorumChain (hashAt 32 1)).pos.finalizedHeight ∧
    (∃ p, (quorumChain (hashAt 32 1)).getByHash sibling.header.prevHash = some p) ∧
    (quorumChain (hashAt 32 1)).respectsFinality sibling = .error .conflictsWithFinalized ∧
    ¬ Conflicts env (quorumChain (hashAt 32 1)) (withSibling (quorumChain (hashAt 32 1))) sibling sibling := by
  obtain ⟨hash,height⟩ := quorumFinal (hashAt 32 1)
  have g := quorumChainGrown
  have tree := siblingTree g
  obtain ⟨p,parent⟩ := g.held
  have found : withSibling (quorumChain (hashAt 32 1)) (hashAt 32 1) = some sibling := if_pos rfl
  refine ⟨tree,?_,?_,⟨p,parent⟩,?_,?_⟩
  · rw [hash]
    exact found
  · rw [height]
    rfl
  · refine gateBelow g.sound g.mode ?_ parent ?_
    · rw [hash]
      exact hashAtPos (by decide) (by decide)
    · rw [height,UInt64.lt_iff_toNat_lt,spelledHeight g.sound (by decide) (by decide) parent]
      decide
  · rintro ⟨apart,_⟩
    exact apart (belowSelf tree (by rw [siblingHash]; exact found))

theorem quietOnBranch {c : Chain} (q : Quiet 32 c) (txs : List Transaction) :
    OnBranch env c (block 32 0 txs) (hashAt 32 0) 32 := by
  have prev : (block 32 0 txs).header.prevHash = c.head := q.head.symm
  have heavier := (outweighsIff q.sound.headStored (quietFresh q (by decide) 0 txs)).mp (quietMoves q (by decide) 0 txs)
  have found := headFound q.sound
  obtain ⟨p,path,_⟩ := q.sound.rooted _ _ found
  obtain ⟨x,rest,shape,own⟩ := Forest.pathHead path
  rw [found] at own
  cases own
  refine ⟨block 32 0 txs::p,?_,c.headD,by simp [shape],(q.sound.keyed _ _ found).trans q.head,q.headHeader.1⟩
  rw [branchAfter,if_pos heavier,prev,(ancestryPath q.sound.rooted).mpr path]
  rfl

theorem quorumFinalizesHead : FinalizedOnBranch (quorumChain (hashAt 32 0)) := by
  have branch : ∀ c, Quiet 32 c → ∀ (p : PosState) n, FinalizesOnBranch env vs c (quorumBlock (hashAt 32 0)) p
      (vote n 0 32 (hashAt 32 0)) := by
    intro c q p n v a counted _
    have decoded := counted.decoded
    rw [voteDecoded] at decoded
    cases decoded
    exact quietOnBranch q _
  have meets : Along (Chain.offer env acceptNonEmptySig) (fun c b => Accepts env acceptNonEmptySig c b →
      Along (PosState.recordVote vs) (FinalizesOnBranch env vs c b) c.pos b.txs) start
      (quietBlocks 32 ++ [quorumBlock (hashAt 32 0)]) :=
    quietThenVotes (P := FinalizesOnBranch env vs) (fun c q => ⟨branch c q _ 4,branch c q _ 1,trivial⟩)
  refine finalizedStaysCanonical setup rfl meets (List.prefix_refl _) ?_
  have final := (quorumFinal (hashAt 32 0)).1
  change (quorumChain (hashAt 32 0)).pos.finalizedHash ≠ 0
  rw [final]
  exact hashAtPos (by decide) (by decide)

theorem siblingGate :
    ((quorumChain (hashAt 32 1)).respectsFinality sibling = .error .conflictsWithFinalized →
      Conflicts env (quorumChain (hashAt 32 1)) (withSibling (quorumChain (hashAt 32 1))) sibling sibling) ↔
    ¬ Below env (quorumChain (hashAt 32 1)) (withSibling (quorumChain (hashAt 32 1))) sibling sibling := by
  obtain ⟨hash,height⟩ := quorumFinal (hashAt 32 1)
  have g := quorumChainGrown
  obtain ⟨p,parent⟩ := g.held
  have found : withSibling (quorumChain (hashAt 32 1)) (hashAt 32 1) = some sibling := if_pos rfl
  have reached : quorumChain (hashAt 32 1) = (setup.chain env).feed env acceptNonEmptySig
    (quietBlocks 32 ++ [quorumBlock (hashAt 32 1)]) := rfl
  refine gateRefusesConflicts setup rfl reached ?_ (siblingTree g) (by rw [hash]; exact found) (by rw [height]; rfl)
    (by rw [siblingHash]; exact found) ?_ parent
  · rw [hash]
    exact hashAtPos (by decide) (by decide)
  · rw [siblingHash,g.root]
    intro same
    exact absurd (hashAtInj (by decide) (by decide) (by decide) (by decide) same).1 (by decide)

end L1Chain.Devnet
