import Mathlib.Data.List.Induction
import L1Chain.Reach
import L1Chain.Restart

/-! The fork choice over whole feeds of blocks: what weighs what, which of the
heaviest blocks is the head, and what the head state and the height index hold
then. A feed may hold any blocks in any order; those refused change nothing. -/
namespace L1Chain
open Transition Runs

section
variable {E : Type} {env : Env E} {verifySig : VerifySig} {c d : Chain} {b : Block}

-- The length of a Go map is an int.
def Chain.FitsMap (c : Chain) : Prop := c.blocks.entries.length < 2 ^ 63

theorem pathFits {h : Hash} {p : List Block} (s : Sound env verifySig c) (fits : c.FitsMap) (path : c.Path h p) :
    p.length < 2 ^ 63 := by
  obtain ⟨x,_,_,found⟩ := Forest.pathHead path
  obtain ⟨q,other,short⟩ := s.rooted _ _ found
  rw [Forest.pathUnique path other]
  exact Nat.lt_of_le_of_lt short fits

theorem heightNat {h : Hash} {p : List Block} (s : Sound env verifySig c) (fits : c.FitsMap) (path : c.Path h (b::p)) :
    b.header.height.toNat = p.length := by
  have small := pathFits s fits path
  simp only [List.length_cons] at small
  rw [pathHeight s path,UInt64.toNat_ofNat',Nat.mod_eq_of_lt (by omega)]

/- The weight of a branch, newest block first, over the integers: genesis counts with
its difficulty, every other block with what AddBlock adds for it. -/
def branchWeight (consensus : Consensus) : List Block → ℕ
  | [] => 0
  | [g] => g.header.difficulty.toUInt64.toNat
  | b::older => (weightOf consensus b).toNat + branchWeight consensus older

def Chain.Unwrapped (c : Chain) : Prop := ∀ h p, c.Path h p → branchWeight c.consensus p < 2 ^ 64

theorem branchWeightCons {p : List Block} {consensus : Consensus} (below : p ≠ []) :
    branchWeight consensus (b::p) = (weightOf consensus b).toNat + branchWeight consensus p := by
  cases p with
  | nil => contradiction
  | cons _ _ => rfl

theorem branchWeightLe (consensus : Consensus) (p : List Block) : branchWeight consensus p ≤ p.length * 2 ^ 32 := by
  have difficulty : ∀ b : Block, b.header.difficulty.toUInt64.toNat < 2 ^ 32 := by
    intro b
    rw [UInt32.toNat_toUInt64]
    exact UInt32.toNat_lt _
  have one : ∀ b : Block, (weightOf consensus b).toNat ≤ 2 ^ 32 := by
    intro b
    cases consensus with
    | pow => exact Nat.le_of_lt (difficulty b)
    | pos vs => exact Nat.one_le_two_pow
  induction p with
  | nil => exact Nat.zero_le _
  | cons b p ih =>
    cases p with
    | nil =>
      have last := difficulty b
      simp only [branchWeight,List.length_singleton]
      omega
    | cons y p =>
      have first := one b
      simp only [branchWeight,List.length_cons] at ih ⊢
      omega

theorem unwrappedSmall (s : Sound env verifySig c) (few : c.blocks.entries.length < 2 ^ 32) : c.Unwrapped := by
  intro h p path
  obtain ⟨x,_,_,found⟩ := Forest.pathHead path
  obtain ⟨q,other,short⟩ := s.rooted _ _ found
  rw [Forest.pathUnique path other]
  refine Nat.lt_of_le_of_lt (branchWeightLe c.consensus q) ?_
  omega

theorem tdBranch {h : Hash} {p : List Block} (s : Sound env verifySig c) (unwrapped : c.Unwrapped)
    (start : ∀ g, c.getByHash c.genesisHash = some g → c.td c.genesisHash = g.header.difficulty.toUInt64)
    (path : c.Path h p) : (c.td h).toNat = branchWeight c.consensus p := by
  induction path with
  | root found =>
    rw [start _ found]
    rfl
  | @step k x p found notRoot rest ih =>
    have small := unwrapped _ _ (.step found notRoot rest)
    have nonempty : p ≠ [] := by
      obtain ⟨_,_,rfl,_⟩ := Forest.pathHead rest
      simp
    have weight := (s.linked _ _ found notRoot).weight
    have below : (c.td x.header.prevHash).toNat = branchWeight c.consensus p := ih
    rw [branchWeightCons nonempty] at small ⊢
    rw [s.keyed _ _ found] at weight
    rw [weight,UInt64.toNat_add,below,Nat.mod_eq_of_lt (by omega),Nat.add_comm]

theorem unwrappedPos {vs : Pos.ValidatorSet} (s : Sound env verifySig c) (fits : c.FitsMap) (pos : c.consensus = .pos vs) :
    c.Unwrapped := by
  have light : ∀ p : List Block, branchWeight (.pos vs) p ≤ 2 ^ 32 + p.length := by
    intro p
    induction p with
    | nil => exact Nat.zero_le _
    | cons b p ih =>
      cases p with
      | nil =>
        have difficulty : b.header.difficulty.toUInt64.toNat < 2 ^ 32 := by
          rw [UInt32.toNat_toUInt64]
          exact UInt32.toNat_lt _
        simp only [branchWeight]
        omega
      | cons y p =>
        simp only [branchWeight,weightOf,List.length_cons,UInt64.reduceToNat] at ih ⊢
        omega
  intro h p path
  have small := pathFits s fits path
  rw [pos]
  have bound := light p
  omega

theorem rootWeight {setup : Setup} (grows : Grows (setup.chain env) c) :
    ∀ g, c.getByHash c.genesisHash = some g → c.td c.genesisHash = g.header.difficulty.toUInt64 := by
  intro g found
  rw [setupStored grows found,grows.config.genesisHash,grows.weights _ _ (setupRoot env setup)]
  exact if_pos rfl

theorem weightNat {h : Hash} (s : Sound env verifySig c) (unwrapped : c.Unwrapped)
    (start : ∀ g, c.getByHash c.genesisHash = some g → c.td c.genesisHash = g.header.difficulty.toUInt64)
    (found : c.getByHash h = some b) (below : h ≠ c.genesisHash) :
    (c.td h).toNat = (c.td b.header.prevHash).toNat + (weightOf c.consensus b).toNat := by
  obtain ⟨p,stored,_⟩ := (s.linked _ _ found below).parent
  obtain ⟨q,path,_⟩ := s.rooted _ _ stored
  have nonempty : q ≠ [] := by
    obtain ⟨_,_,rfl,_⟩ := Forest.pathHead path
    simp
  rw [tdBranch s unwrapped start (.step found below path),tdBranch s unwrapped start path,branchWeightCons nonempty,
    Nat.add_comm]

theorem indexPath {p : List Block} (s : Sound env verifySig c) (indexed : Indexed env c) (fits : c.FitsMap)
    (path : c.Path c.head p) (h : UInt64) : c.heightIndex h = (p.reverse[h.toNat]?).map (·.hash env.sha) := by
  have levels := pathLevels s path
  have small := pathFits s fits path
  have once := levelsOnce (by rw [List.length_reverse]; omega) levels
  rw [indexed p path,Chain.indexOf]
  cases found : p.reverse[h.toNat]? with
  | some x =>
    have height := levels _ _ found
    rw [UInt64.ofNat_toNat] at height
    have entry := indexFinds env.sha (fun _ => none) once found
    rw [height] at entry
    exact entry
  | none =>
    refine indexSkips env.sha _ (fun x member same => ?_)
    obtain ⟨i,there⟩ := List.mem_iff_getElem?.mp member
    have height := levels _ _ there
    have less := (List.getElem?_eq_some_iff.mp there).1
    rw [List.length_reverse] at less
    rw [← same,height,UInt64.toNat_ofNat',Nat.mod_eq_of_lt (by omega),there] at found
    cases found

def StoredBefore (env : Env E) (verifySig : VerifySig) (start : Chain) (bs : List Block) (h k : Hash) : Prop :=
  ∃ pre, pre <+: bs ∧ (∃ x, (start.feed env verifySig pre).getByHash h = some x) ∧
    (start.feed env verifySig pre).getByHash k = none

theorem headFirst {start : Chain} (s : Sound env verifySig start)
    (alone : ∀ h x, start.getByHash h = some x → h = start.head) (bs : List Block) {h : Hash} {x : Block}
    (found : (start.feed env verifySig bs).getByHash h = some x)
    (tie : (start.feed env verifySig bs).td h = (start.feed env verifySig bs).td (start.feed env verifySig bs).head)
    (other : h ≠ (start.feed env verifySig bs).head) :
    StoredBefore env verifySig start bs (start.feed env verifySig bs).head h := by
  induction bs using List.reverseRecOn with
  | nil => exact absurd (alone h x found) other
  | append_singleton bs b ih =>
    have sound : Sound env verifySig (start.feed env verifySig bs) := feedSound s
    have longer : ∀ {k}, StoredBefore env verifySig start bs k h → StoredBefore env verifySig start (bs ++ [b]) k h := by
      rintro k ⟨pre,part,rest⟩
      exact ⟨pre,part.trans (List.prefix_append _ _),rest⟩
    rw [feedSnoc] at found tie other ⊢
    rcases offerCases env verifySig (start.feed env verifySig bs) b with ⟨same,_⟩ | ⟨st,w,a,same⟩
    · rw [same] at found tie other ⊢
      exact longer (ih found tie other)
    · have heaviest := sound.heaviest
      obtain ⟨y,headStored⟩ := sound.headStored
      have apart := parentNotOwn a.fresh headStored
      rw [same] at found tie other ⊢
      rw [Chain.commitHead] at tie other ⊢
      rw [Chain.commitTd] at tie
      by_cases heavier : (start.feed env verifySig bs).outweighs env b w
      · -- the new head is heavier than everything stored before it
        rw [if_pos heavier] at tie other
        have more := (outweighsIff sound.headStored a.fresh).mp heavier
        have old := ((commitFound a.fresh h x).mp found).resolve_right (fun own => other own.1)
        simp only [put,if_neg other,if_true] at tie
        have below := heaviest h x old
        rw [tie] at below
        exact absurd more (UInt64.not_lt.mpr below)
      · rw [if_neg heavier] at tie other ⊢
        rcases (commitFound a.fresh h x).mp found with old | ⟨own,_⟩
        · simp only [put,if_neg (parentNotOwn a.fresh old),if_neg apart] at tie
          exact longer (ih old tie other)
        · refine ⟨bs,List.prefix_append _ _,⟨y,headStored⟩,?_⟩
          rw [own]
          exact a.fresh

theorem reachedRoot (setup : Setup) (bs : List Block) : env.stateRoot ((setup.chain env).feed env verifySig bs).headState =
    ((setup.chain env).feed env verifySig bs).headD.header.stateRoot := by
  have s : Sound env verifySig ((setup.chain env).feed env verifySig bs) := reachedSound setup bs
  have grows := feedGrows env verifySig (setup.chain env) bs
  obtain ⟨x,found⟩ := s.headStored
  have head : ((setup.chain env).feed env verifySig bs).headD = x := by
    simp only [Chain.headD,Chain.headBlock,found,Option.getD_some]
  rw [head]
  by_cases root : ((setup.chain env).feed env verifySig bs).head = ((setup.chain env).feed env verifySig bs).genesisHash
  · have state := s.headState
    rw [root] at found state
    have block : x = setup.genesis.toBlock env := setupStored grows found
    rw [derivePath s.rooted (.root found)] at state
    rw [← Except.ok.inj state,block,Chain.fundGenesis,grows.config.genesisAlloc,grows.config.genesisBaseAlloc]
    rfl
  · exact headRoot s found root

structure ForkChoice (env : Env E) (verifySig : VerifySig) (start : Chain) (bs : List Block) (c : Chain) : Prop where
  linked : ∀ h b, c.getByHash h = some b → h ≠ c.genesisHash → ∃ p, c.getByHash b.header.prevHash = some p ∧
    b.header.height.toNat = p.header.height.toNat + 1 ∧
    (c.td h).toNat = (c.td b.header.prevHash).toNat + (weightOf c.consensus b).toNat
  heaviest : ∀ h b, c.getByHash h = some b → c.td h ≤ c.td c.head
  first : ∀ h b, c.getByHash h = some b → c.td h = c.td c.head → h ≠ c.head →
    StoredBefore env verifySig start bs c.head h
  path : ∃ path, c.chainTo c.head = some path ∧
    replay env verifySig c.exchangeMode c.fundGenesis path.tail = .ok c.headState ∧
    path.length = c.headD.header.height.toNat + 1 ∧ ∀ h, c.heightIndex h = (path[h.toNat]?).map (·.hash env.sha)
  root : env.stateRoot c.headState = c.headD.header.stateRoot
  refused : ∀ b e, c.addBlock env verifySig b = .error e → c.offer env verifySig b = c

theorem forkChoiceKept (setup : Setup) {bs : List Block} (unwrapped : ((setup.chain env).feed env verifySig bs).Unwrapped)
    (fits : ((setup.chain env).feed env verifySig bs).FitsMap) :
    ForkChoice env verifySig (setup.chain env) bs ((setup.chain env).feed env verifySig bs) := by
  have s : Sound env verifySig ((setup.chain env).feed env verifySig bs) := reachedSound setup bs
  have indexed : Indexed env ((setup.chain env).feed env verifySig bs) := (feedGrown (setupSound setup) (setupIndexed setup)).indexed
  have start := rootWeight (feedGrows env verifySig (setup.chain env) bs)
  refine ⟨fun h b found below => ?_,s.heaviest,fun h b found => headFirst (setupSound setup) ?_ bs found,?_,
    reachedRoot setup bs,fun b e failed => ?_⟩
  · obtain ⟨p,stored,_⟩ := (s.linked _ _ found below).parent
    obtain ⟨q,path,_⟩ := s.rooted _ _ stored
    obtain ⟨x,older,rfl,own⟩ := Forest.pathHead path
    cases Option.some.inj (stored.symm.trans own)
    refine ⟨p,stored,?_,weightNat s unwrapped start found below⟩
    rw [heightNat s fits (.step found below path),heightNat s fits path,List.length_cons]
  · exact fun h x found => (setupOnly found).1
  · obtain ⟨x,found⟩ := s.headStored
    obtain ⟨p,path,_⟩ := s.rooted _ _ found
    refine ⟨p.reverse,?_,?_,?_,indexPath s indexed fits path⟩
    · rw [Chain.chainTo,(ancestryPath s.rooted).mpr path]
      rfl
    · have state := s.headState
      rw [derivePath s.rooted path] at state
      exact liftTxOk.mp state
    · obtain ⟨y,older,rfl,own⟩ := Forest.pathHead path
      cases Option.some.inj (found.symm.trans own)
      have head : ((setup.chain env).feed env verifySig bs).headD = x := by
        simp only [Chain.headD,Chain.headBlock,found,Option.getD_some]
      rw [head,heightNat s fits path,List.length_reverse,List.length_cons]
  · simp [Chain.offer,failed]

end
end L1Chain
