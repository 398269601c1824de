import L1Chain.BlockBody
import L1Chain.Crash

/-! A PoW chain and the order in which its blocks arrive. `Mined` says from a set of
blocks alone which branches a chain that got them all must hold: those that start at
genesis and whose blocks are well mined over their ancestors. A chain fed the set in any
order that delivers parents first holds exactly these, so two orders give one store. -/
namespace L1Chain
open Transition Runs

inductive Mined {E : Type} (env : Env E) (verifySig : VerifySig) (setup : Setup) (sent : List Block) :
    Hash → List Block → Prop where
  | root : Mined env verifySig setup sent (setup.chain env).genesisHash [setup.genesis.toBlock env]
  | step {b : Block} {older : List Block} (below : Mined env verifySig setup sent b.header.prevHash older)
      (inside : b ∈ sent) (new : b.hash env.sha ≠ (setup.chain env).genesisHash)
      (mined : WellMined env verifySig setup older b) : Mined env verifySig setup sent (b.hash env.sha) (b::older)

def ParentsFirst (sha : Bytes → Hash) (bs : List Block) : Prop := bs.Pairwise (fun x y => x.header.prevHash ≠ y.hash sha)

def Chain.taken {E : Type} (env : Env E) (verifySig : VerifySig) : Chain → List Block → List Block
  | _, [] => []
  | c, b::rest =>
    match c.addBlock env verifySig b with
    | .ok c' => b::taken env verifySig c' rest
    | .error _ => taken env verifySig c rest

section
variable {E : Type} {env : Env E} {verifySig : VerifySig} {setup : Setup} {c d : Chain} {b b' : Block} {h : Hash}
  {p older older' sent xs ys : List Block}

/- Different valid blocks of the set have different hashes. -/
def HashesApart (env : Env E) (verifySig : VerifySig) (setup : Setup) (sent : List Block) : Prop :=
  ∀ h b b' older older', Mined env verifySig setup sent h (b::older) → Mined env verifySig setup sent h (b'::older') → b = b'

theorem minedMono (m : Mined env verifySig setup xs h p) (part : xs ⊆ ys) : Mined env verifySig setup ys h p := by
  induction m with
  | root => exact .root
  | step _ inside new mined ih => exact .step ih (part inside) new mined

theorem minedSome (m : Mined env verifySig setup sent h p) : p ≠ [] := by
  cases m with
  | root => exact List.cons_ne_nil _ _
  | step _ _ _ _ => exact List.cons_ne_nil _ _

theorem minedCases (m : Mined env verifySig setup sent h (b::older)) :
    (h = (setup.chain env).genesisHash ∧ b = setup.genesis.toBlock env ∧ older = []) ∨
    (h = b.hash env.sha ∧ h ≠ (setup.chain env).genesisHash ∧ b ∈ sent ∧ older ≠ [] ∧
      Mined env verifySig setup sent b.header.prevHash older ∧ WellMined env verifySig setup older b) := by
  cases m with
  | root => exact .inl ⟨rfl,rfl,rfl⟩
  | step below inside new mined => exact .inr ⟨rfl,new,inside,minedSome below,below,mined⟩

theorem minedHead (m : Mined env verifySig setup sent h (b::older)) (deep : older ≠ []) : b ∈ sent ∧ b.hash env.sha = h := by
  rcases minedCases m with ⟨_,_,short⟩ | ⟨hash,_,inside,_,_,_⟩
  · contradiction
  · exact ⟨inside,hash.symm⟩

theorem apartOf (same : ∀ b b' older older', b ∈ sent → b' ∈ sent → Mined env verifySig setup sent b.header.prevHash older →
    Mined env verifySig setup sent b'.header.prevHash older' → WellMined env verifySig setup older b →
    WellMined env verifySig setup older' b' → b.hash env.sha = b'.hash env.sha → b = b') :
    HashesApart env verifySig setup sent := by
  intro h b b' older older' m m'
  rcases minedCases m with ⟨root,first,_⟩ | ⟨hash,new,inside,_,below,mined⟩
  · rcases minedCases m' with ⟨_,second,_⟩ | ⟨_,new',_⟩
    · rw [first,second]
    · exact absurd root new'
  · rcases minedCases m' with ⟨root,_⟩ | ⟨hash',_,inside',_,below',mined'⟩
    · exact absurd root new
    · exact same b b' older older' inside inside' below below' mined mined' (hash.symm.trans hash')

theorem storedMined (pow : setup.consensus = .pow) (g : Grown env verifySig (setup.chain env) sent c) (path : c.Path h p) :
    Mined env verifySig setup sent h p := by
  induction path with
  | root found =>
    rw [setupStored g.grows found,g.grows.config.genesisHash]
    exact .root
  | @step k x p found notRoot rest ih =>
    have mined := linkedMined g.sound g.grows.config pow (.step found notRoot rest) (minedSome ih)
    rw [g.grows.config.genesisHash] at notRoot
    have inside : x ∈ sent := by
      exact (g.only _ _ found).resolve_left (fun old => notRoot (setupOnly old).1)
    rw [← g.sound.keyed _ _ found] at notRoot ⊢
    exact .step ih inside notRoot mined

theorem parentFront {front back : List Block} (first : ParentsFirst env.sha (front ++ b::back))
    (below : Mined env verifySig setup (front ++ b::back) b.header.prevHash (b'::older)) (deep : older ≠ [])
    (mined : WellMined env verifySig setup (b'::older) b) : b' ∈ front := by
  obtain ⟨inside,hash⟩ := minedHead below deep
  rcases List.mem_append.mp inside with early | late
  · exact early
  · rcases List.mem_cons.mp late with rfl | later
    · obtain ⟨_,own,height,_⟩ := mined.parent
      cases Option.some.inj own
      have still : b'.header.height + 0 = b'.header.height + 1 := by rwa [UInt64.add_zero]
      exact absurd ((UInt64.add_right_inj _).mp still) (by decide)
    · have apart := (List.pairwise_append.mp first).2.1
      exact absurd hash.symm ((List.pairwise_cons.mp apart).1 b' later)

theorem offerMined (pow : setup.consensus = .pow) (apart : HashesApart env verifySig setup sent)
    (g : Grown env verifySig (setup.chain env) sent c) (path : c.Path b.header.prevHash older) (inside : b ∈ sent)
    (new : b.hash env.sha ≠ (setup.chain env).genesisHash) (mined : WellMined env verifySig setup older b) :
    (c.offer env verifySig b).Path (b.hash env.sha) (b::older) := by
  cases known : c.getByHash (b.hash env.sha) with
  | some x =>
    obtain ⟨q,walk,_⟩ := g.sound.rooted _ _ known
    obtain ⟨y,q,rfl,found⟩ := Forest.pathHead walk
    cases Option.some.inj (known.symm.trans found)
    have same := apart _ _ _ _ _ (storedMined pow g walk) (.step (storedMined pow g path) inside new mined)
    rw [same] at known
    rw [← g.grows.config.genesisHash] at new
    exact growsPath (offerGrows env verifySig c b) (.step known new path)
  | none =>
    obtain ⟨st,w,a⟩ := (powAccepts g.sound.rooted g.grows.config pow path).mpr ⟨known,mined⟩
    rw [offerAccepted a]
    have grows : Grows c (c.commit env b st w) := commitGrows a.fresh
    refine .step ((commitFound a.fresh _ _).mpr (.inr ⟨rfl,rfl⟩)) ?_ (growsPath grows path)
    rw [grows.config.genesisHash,g.grows.config.genesisHash]
    exact new

theorem deliveredPath (pow : setup.consensus = .pow) (apart : HashesApart env verifySig setup xs)
    (first : ParentsFirst env.sha xs) (m : Mined env verifySig setup xs h p) :
    ∀ front back, xs = front ++ back → (∀ b older, p = b::older → older ≠ [] → b ∈ front) →
      ((setup.chain env).feed env verifySig front).Path h p := by
  induction m with
  | root =>
    intro front back _ _
    exact growsPath (feedGrows env verifySig _ front) (setupStart env setup)
  | @step b older below inside new mined ih =>
    intro front back whole tip
    obtain ⟨early,late,rfl⟩ := List.append_of_mem (tip b older rfl (minedSome below))
    rw [List.append_assoc,List.cons_append] at whole
    rw [whole] at first below
    have path := ih early _ whole (by
      rintro b' older' rfl deep
      exact parentFront first below deep mined)
    have g : Grown env verifySig (setup.chain env) xs ((setup.chain env).feed env verifySig early) :=
      grownMono (feedGrown (setupSound setup) (setupIndexed setup)) (by simp [whole])
    have walk := offerMined pow apart g path inside new mined
    rw [← feedSnoc] at walk
    have rest : (setup.chain env).feed env verifySig (early ++ b::late) =
        ((setup.chain env).feed env verifySig (early ++ [b])).feed env verifySig late := by
      simp [Chain.feed]
    rw [rest]
    exact growsPath (feedGrows env verifySig _ late) walk

theorem deliveredIff (pow : setup.consensus = .pow) (apart : HashesApart env verifySig setup xs)
    (first : ParentsFirst env.sha xs) :
    ((setup.chain env).feed env verifySig xs).Path h p ↔ Mined env verifySig setup xs h p := by
  constructor
  · exact storedMined pow (feedGrown (setupSound setup) (setupIndexed setup))
  · intro m
    refine deliveredPath pow apart first m xs [] (List.append_nil xs).symm ?_
    rintro b older rfl deep
    exact (minedHead m deep).1

theorem takenSent (member : b ∈ c.taken env verifySig xs) : b ∈ xs := by
  induction xs generalizing c with
  | nil => exact member
  | cons x xs ih =>
    rw [Chain.taken] at member
    split at member
    · rcases List.mem_cons.mp member with rfl | later
      · exact List.mem_cons_self ..
      · exact List.mem_cons_of_mem _ (ih later)
    · exact List.mem_cons_of_mem _ (ih member)

theorem takenStored : b ∈ c.taken env verifySig xs ↔
    (c.feed env verifySig xs).getByHash (b.hash env.sha) = some b ∧ c.getByHash (b.hash env.sha) = none := by
  induction xs generalizing c with
  | nil =>
    have rest : c.feed env verifySig [] = c := rfl
    rw [Chain.taken,rest]
    constructor
    · intro member
      cases member
    · rintro ⟨found,none⟩
      rw [none] at found
      cases found
  | cons x xs ih =>
    have rest : c.feed env verifySig (x::xs) = (c.offer env verifySig x).feed env verifySig xs := rfl
    rw [Chain.taken,rest]
    rcases offerCases env verifySig c x with ⟨same,e,refused⟩ | ⟨st,w,a,same⟩
    · rw [refused,same]
      exact ih
    · rw [addBlockOk.mpr ⟨st,w,a,rfl⟩,same,List.mem_cons,ih]
      have own : (c.commit env x st w).getByHash (x.hash env.sha) = some x := (commitFound a.fresh _ _).mpr (.inr ⟨rfl,rfl⟩)
      constructor
      · rintro (rfl | ⟨found,unknown⟩)
        · exact ⟨(feedGrows env verifySig _ xs).blocks _ _ own,a.fresh⟩
        · refine ⟨found,?_⟩
          cases known : c.getByHash (b.hash env.sha) with
          | none => rfl
          | some y =>
            rw [(commitGrows a.fresh).blocks _ _ known] at unknown
            cases unknown
      · rintro ⟨found,unknown⟩
        cases known : (c.commit env x st w).getByHash (b.hash env.sha) with
        | none => exact .inr ⟨found,rfl⟩
        | some y =>
          rcases (commitFound a.fresh _ _).mp known with old | ⟨_,rfl⟩
          · rw [unknown] at old
            cases old
          · rw [(feedGrows env verifySig _ xs).blocks _ _ known] at found
            exact .inl (Option.some.inj found).symm

def Heaviest (c : Chain) (h : Hash) : Prop := ∀ k x, c.getByHash k = some x → c.td k ≤ c.td h

theorem headAhead (g : Grown env verifySig (setup.chain env) xs c) (moved : c.head ≠ (setup.chain env).genesisHash) :
    c.td (setup.chain env).genesisHash < c.td c.head := by
  obtain ⟨x,found⟩ := g.sound.headStored
  obtain ⟨p,walk,_⟩ := g.sound.rooted _ _ found
  obtain ⟨root,last,stored⟩ := Forest.pathRoot walk
  obtain ⟨y,rest,rfl,_,below⟩ := Forest.pathSplit walk (by rw [g.grows.config.genesisHash]; exact moved)
  obtain ⟨z,older,rfl,_⟩ := Forest.pathHead below
  have inside : root ∈ z::older := by
    rw [List.getLast?_cons_cons] at last
    exact List.mem_of_getLast? last
  have less := g.sound.ahead _ walk root inside
  rwa [g.sound.keyed _ _ stored,g.grows.config.genesisHash] at less

section
variable (g : Grown env verifySig (setup.chain env) xs c) (g' : Grown env verifySig (setup.chain env) ys d)
  (paths : ∀ h p, c.Path h p ↔ d.Path h p)
include g g' paths

theorem sameStored (h : Hash) : c.getByHash h = d.getByHash h := by
  refine Option.ext (fun x => ⟨fun found => ?_,fun found => ?_⟩)
  · obtain ⟨p,walk,_⟩ := g.sound.rooted _ _ found
    obtain ⟨y,q,rfl,stored⟩ := Forest.pathHead walk
    cases Option.some.inj (found.symm.trans stored)
    obtain ⟨z,_,shape,theirs⟩ := Forest.pathHead ((paths _ _).mp walk)
    cases shape
    exact theirs
  · obtain ⟨p,walk,_⟩ := g'.sound.rooted _ _ found
    obtain ⟨y,q,rfl,stored⟩ := Forest.pathHead walk
    cases Option.some.inj (found.symm.trans stored)
    obtain ⟨z,_,shape,ours⟩ := Forest.pathHead ((paths _ _).mpr walk)
    cases shape
    exact ours

theorem sameTd (pow : setup.consensus = .pow) {x : Block} (found : c.getByHash h = some x) : c.td h = d.td h := by
  obtain ⟨p,walk,_⟩ := g.sound.rooted _ _ found
  rw [powTd g.sound g.grows pow walk,powTd g'.sound g'.grows pow ((paths _ _).mp walk)]

theorem sameHeadTd (pow : setup.consensus = .pow) : c.td c.head = d.td d.head := by
  obtain ⟨x,mine⟩ := g.sound.headStored
  obtain ⟨y,theirs⟩ := g'.sound.headStored
  have swapped : c.getByHash d.head = some y := (sameStored g g' paths _).trans theirs
  have below := g.sound.heaviest _ _ swapped
  have above := g'.sound.heaviest _ _ ((sameStored g g' paths _).symm.trans mine)
  rw [sameTd g g' paths pow swapped] at below
  rw [← sameTd g g' paths pow mine] at above
  exact UInt64.le_antisymm above below

theorem sameIndex (head : c.head = d.head) : c.heightIndex = d.heightIndex := by
  obtain ⟨x,found⟩ := g.sound.headStored
  obtain ⟨p,walk,_⟩ := g.sound.rooted _ _ found
  have own := (paths _ _).mp walk
  rw [head] at own
  rw [g.indexed _ walk,g'.indexed _ own]

theorem sameHeadState (head : c.head = d.head) : c.headState = d.headState := by
  obtain ⟨x,found⟩ := g.sound.headStored
  obtain ⟨p,walk,_⟩ := g.sound.rooted _ _ found
  have own := (paths _ _).mp walk
  rw [head] at own
  have mine := g.sound.headState
  have theirs := g'.sound.headState
  rw [setupDerive g.sound.rooted g.grows.config walk] at mine
  rw [setupDerive g'.sound.rooted g'.grows.config own,mine] at theirs
  exact Except.ok.inj theirs

theorem sameHead (pow : setup.consensus = .pow) (unique : ∀ b b', c.getByHash (b.hash env.sha) = some b →
    c.getByHash (b'.hash env.sha) = some b' → b.hash env.sha ≠ (setup.chain env).genesisHash →
    b'.hash env.sha ≠ (setup.chain env).genesisHash → Heaviest c (b.hash env.sha) → Heaviest c (b'.hash env.sha) → b = b') :
    c.head = d.head := by
  have heads := sameHeadTd g g' paths pow
  obtain ⟨x,mine⟩ := g.sound.headStored
  obtain ⟨y,theirs⟩ := g'.sound.headStored
  rw [← sameStored g g' paths] at theirs
  have level : c.td d.head = c.td c.head := by rw [sameTd g g' paths pow theirs,heads]
  have root : c.getByHash (setup.chain env).genesisHash = some (setup.genesis.toBlock env) :=
    g.grows.blocks _ _ (setupRoot env setup)
  by_cases still : c.head = (setup.chain env).genesisHash
  · by_contra differ
    have less := headAhead g' (fun same => differ (still.trans same.symm))
    rw [← heads,still,sameTd g g' paths pow root] at less
    exact absurd less (UInt64.lt_irrefl _)
  · have moved : d.head ≠ (setup.chain env).genesisHash := by
      intro same
      have less := headAhead g still
      rw [← level,same] at less
      exact absurd less (UInt64.lt_irrefl _)
    have hash := g.sound.keyed _ _ mine
    have hash' := g.sound.keyed _ _ theirs
    rw [← hash] at mine still
    rw [← hash'] at theirs moved
    rw [← hash,← hash',unique x y mine theirs still moved]
    · rw [hash]
      exact g.sound.heaviest
    · intro k z found
      rw [hash',level]
      exact g.sound.heaviest k z found

end

/- Two orders of one set of blocks, parents first, leave two chains with the same
accepted blocks at the same weights and heads of one weight; where no two accepted blocks
are the heaviest, with the same head, height index and head state. -/
theorem deliveryOrderFree (pow : setup.consensus = .pow) (orders : xs.Perm ys) (first : ParentsFirst env.sha xs)
    (first' : ParentsFirst env.sha ys) (apart : HashesApart env verifySig setup xs)
    (mine : c = (setup.chain env).feed env verifySig xs) (theirs : d = (setup.chain env).feed env verifySig ys) :
    (∀ b, b ∈ (setup.chain env).taken env verifySig xs ↔ b ∈ (setup.chain env).taken env verifySig ys) ∧
    (∀ b ∈ (setup.chain env).taken env verifySig xs, c.td (b.hash env.sha) = d.td (b.hash env.sha)) ∧
    c.td c.head = d.td d.head ∧
    ((∀ b ∈ (setup.chain env).taken env verifySig xs, ∀ b' ∈ (setup.chain env).taken env verifySig xs,
        Heaviest c (b.hash env.sha) → Heaviest c (b'.hash env.sha) → b = b') →
      c.head = d.head ∧ c.heightIndex = d.heightIndex ∧ env.stateRoot c.headState = env.stateRoot d.headState) := by
  subst mine theirs
  have g : Grown env verifySig (setup.chain env) xs ((setup.chain env).feed env verifySig xs) :=
    feedGrown (setupSound setup) (setupIndexed setup)
  have g' : Grown env verifySig (setup.chain env) ys ((setup.chain env).feed env verifySig ys) :=
    feedGrown (setupSound setup) (setupIndexed setup)
  have apart' : HashesApart env verifySig setup ys := fun h b b' older older' m m' =>
    apart h b b' older older' (minedMono m orders.symm.subset) (minedMono m' orders.symm.subset)
  have paths : ∀ h p, ((setup.chain env).feed env verifySig xs).Path h p ↔ ((setup.chain env).feed env verifySig ys).Path h p := by
    intro h p
    rw [deliveredIff pow apart first,deliveredIff pow apart' first']
    exact ⟨fun m => minedMono m orders.subset,fun m => minedMono m orders.symm.subset⟩
  have stored := sameStored g g' paths
  have taken : ∀ b, b ∈ (setup.chain env).taken env verifySig xs ↔ b ∈ (setup.chain env).taken env verifySig ys := by
    intro b
    rw [takenStored,takenStored,stored]
  refine ⟨taken,fun b accepted => sameTd g g' paths pow (takenStored.mp accepted).1,sameHeadTd g g' paths pow,fun unique => ?_⟩
  have head : ((setup.chain env).feed env verifySig xs).head = ((setup.chain env).feed env verifySig ys).head := by
    refine sameHead g g' paths pow (fun b b' mine theirs new new' heavy heavy' => ?_)
    have accepted : ∀ b, ((setup.chain env).feed env verifySig xs).getByHash (b.hash env.sha) = some b →
        b.hash env.sha ≠ (setup.chain env).genesisHash → b ∈ (setup.chain env).taken env verifySig xs :=
      fun b found new => takenStored.mpr ⟨found,by rw [setupFound,if_neg new]⟩
    exact unique b (accepted b mine new) b' (accepted b' theirs new') heavy heavy'
  exact ⟨head,sameIndex g g' paths head,congrArg env.stateRoot (sameHeadState g g' paths head)⟩

end

namespace Devnet

/- The race of two miners delivered in another order: the tip of the second branch is the
only heaviest block, so it is the head again. -/
theorem raceOrderFree : (((soloSetup 0).chain env).feed env acceptNonEmptySig [rightBlock,rightTip,leftBlock]).head = hashAt 2 1 := by
  obtain ⟨c₁,c₂,f⟩ := raceForks
  have left : leftBlock.hash env.sha = hashAt 1 1 := racedHash (by omega) _ _
  have right : rightBlock.hash env.sha = hashAt 1 2 := racedHash (by omega) _ _
  have tip : rightTip.hash env.sha = hashAt 2 1 := racedHash (by omega) _ _
  have genesis : leftBlock.header.prevHash = hashAt 0 0 ∧ rightBlock.header.prevHash = hashAt 0 0 := ⟨rfl,rfl⟩
  have parent : rightTip.header.prevHash = hashAt 1 2 := rfl
  have hashes : ([leftBlock,rightBlock,rightTip].map (·.hash env.sha)).Nodup := by
    simp only [List.map_cons,List.map_nil,left,right,tip,List.nodup_cons,List.mem_cons,List.not_mem_nil,or_false,not_or]
    exact ⟨⟨hashApart (by omega) (by omega),hashApart (by omega) (by omega)⟩,hashApart (by omega) (by omega),fun h => h,
      List.nodup_nil⟩
  have apart : HashesApart env acceptNonEmptySig (soloSetup 0) [leftBlock,rightBlock,rightTip] :=
    apartOf (fun _ _ _ _ inside inside' _ _ _ _ same => List.inj_on_of_nodup_map hashes inside inside' same)
  have first : ParentsFirst env.sha [leftBlock,rightBlock,rightTip] := by
    simp only [ParentsFirst,List.pairwise_cons,List.mem_cons,List.not_mem_nil,or_false,forall_eq_or_imp,forall_eq,right,tip,
      genesis,parent]
    exact ⟨⟨hashApart (by omega) (by omega),hashApart (by omega) (by omega)⟩,hashApart (by omega) (by omega),by simp⟩
  have first' : ParentsFirst env.sha [rightBlock,rightTip,leftBlock] := by
    simp only [ParentsFirst,List.pairwise_cons,List.mem_cons,List.not_mem_nil,or_false,forall_eq_or_imp,forall_eq,left,tip,
      genesis,parent]
    exact ⟨⟨hashApart (by omega) (by omega),hashApart (by omega) (by omega)⟩,hashApart (by omega) (by omega),by simp⟩
  have orders : [leftBlock,rightBlock,rightTip].Perm [rightBlock,rightTip,leftBlock] :=
    @List.perm_append_comm _ [leftBlock] [rightBlock,rightTip]
  obtain ⟨_,_,_,unique⟩ := deliveryOrderFree rfl orders first first' apart f.fed.2 rfl
  have walk := f.right.2
  have side : c₂.Path (hashAt 1 2) [rightBlock,genesisBlock] := (Forest.pathTail walk (by simp)).2.2
  have tipTd : c₂.td (hashAt 2 1) = 3 := powTd f.after.sound f.after.grows rfl walk
  have sideTd : c₂.td (hashAt 1 2) = 2 := powTd f.after.sound f.after.grows rfl side
  have leftTd : c₂.td (hashAt 1 1) = 2 := powTd f.after.sound f.after.grows rfl (growsPath f.grows f.left.2)
  obtain ⟨_,_,shape,stored⟩ := Forest.pathHead walk
  have only : ∀ b ∈ ((soloSetup 0).chain env).taken env acceptNonEmptySig [leftBlock,rightBlock,rightTip],
      Heaviest c₂ (b.hash env.sha) → b = rightTip := by
    intro b accepted heavy
    have more := heavy _ _ stored
    have inside := takenSent accepted
    simp only [List.mem_cons,List.not_mem_nil,or_false] at inside
    rcases inside with rfl | rfl | rfl
    · rw [left,tipTd,leftTd] at more
      exact absurd more (by decide)
    · rw [right,tipTd,sideTd] at more
      exact absurd more (by decide)
    · rfl
  rw [← (unique (fun b accepted b' accepted' heavy heavy' =>
    (only b accepted heavy).trans (only b' accepted' heavy').symm)).1]
  exact f.right.1

end Devnet
end L1Chain
