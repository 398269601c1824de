import L1Chain.ChainSteps

/-! The canonical branch and its height index. Heights count from genesis along every
branch, so an index rebuilt from the head's ancestors has one entry a height; the
head state is the replay of the same branch and has the root the head declares. -/
namespace L1Chain
open Transition Runs

section
variable {E : Type} {env : Env E} {verifySig : VerifySig} {c d : Chain} {b : Block}

theorem derivePath {k : Hash} {p : List Block} (rooted : d.Rooted) (path : d.Path k p) :
    d.deriveState env verifySig k = liftTx (replay env verifySig d.exchangeMode d.fundGenesis p.reverse.tail) := by
  simp only [Chain.deriveState,Chain.chainTo,(ancestryPath rooted).mpr path,Option.map_some]

theorem pathHeadGenesis {k : Hash} {p : List Block} {g : Block} (path : c.Path k p) (found : c.getByHash c.genesisHash = some g) :
    p.reverse = g::p.reverse.tail := by
  obtain ⟨v,last,root⟩ := Forest.pathRoot path
  cases Option.some.inj (found.symm.trans root)
  rw [← List.head?_reverse] at last
  exact List.eq_cons_of_mem_head? last

theorem storedReplays {k : Hash} {x : Block} (s : Sound env verifySig c) (found : c.getByHash k = some x) :
    ∃ st, c.deriveState env verifySig k = .ok st := by
  by_cases root : k = c.genesisHash
  · rw [root] at found ⊢
    rw [derivePath s.rooted (.root found)]
    exact ⟨_,rfl⟩
  · have l := s.linked _ _ found root
    obtain ⟨p,stored,_⟩ := l.parent
    obtain ⟨before,st,derived,applied,_⟩ := l.derived
    rw [deriveStep s.rooted found root ⟨p,stored⟩,derived]
    refine ⟨st,?_⟩
    simp only [bind,Except.bind,applied,Except.map,liftTx]

def Indexed (env : Env E) (c : Chain) : Prop :=
  ∀ p, c.Path c.head p → c.heightIndex = Chain.indexOf env.sha p.reverse

theorem rebuildIndexed {p : List Block} (rooted : c.Rooted) (path : c.Path c.head p) :
    c.rebuildIndex env.sha = Chain.indexOf env.sha p.reverse := by
  simp only [Chain.rebuildIndex,Chain.chainTo,(ancestryPath rooted).mpr path,Option.map_some]

theorem commitIndex {st : MptState} {w : UInt64} : (c.commit env b st w).heightIndex =
    if c.outweighs env b w then (c.commit env b st w).rebuildIndex env.sha else c.heightIndex := by
  by_cases heavier : c.outweighs env b w
  · have moves : c.td b.header.prevHash + w > put c.td (b.hash env.sha) (c.td b.header.prevHash + w) c.head := heavier
    rw [if_pos heavier]
    unfold Chain.commit
    simp only [put,if_true] at moves ⊢
    rw [if_pos moves]
    rfl
  · have stays : ¬ c.td b.header.prevHash + w > put c.td (b.hash env.sha) (c.td b.header.prevHash + w) c.head := heavier
    rw [if_neg heavier]
    unfold Chain.commit
    simp only [put,if_true] at stays ⊢
    rw [if_neg stays]

theorem commitIndexed {st : MptState} {w : UInt64} (s : Sound env verifySig c) (indexed : Indexed env c)
    (a : Accepted env verifySig c b st w) : Indexed env (c.commit env b st w) := by
  intro p path
  rw [commitIndex]
  by_cases heavier : c.outweighs env b w
  · rw [if_pos heavier]
    exact rebuildIndexed (commitSound s a).rooted path
  · rw [if_neg heavier]
    rw [Chain.commitHead,if_neg heavier] at path
    obtain ⟨x,found⟩ := s.headStored
    obtain ⟨q,old,_⟩ := s.rooted _ x found
    rw [Forest.pathUnique path (growsPath (commitGrows a.fresh) old)]
    exact indexed q old

theorem setupIndexed (setup : Setup) : Indexed env (setup.chain env) := by
  intro p path
  have s : Sound env (fun _ => false) (setup.chain env) := setupSound setup
  exact rebuildIndexed s.rooted path

theorem pathHeight {h : Hash} {p : List Block} (s : Sound env verifySig c) (path : c.Path h (b::p)) :
    b.header.height = UInt64.ofNat p.length := by
  generalize shape : b::p = q at path
  induction path generalizing b p with
  | root found =>
    cases shape
    obtain ⟨g,genesis,zero⟩ := s.genesis
    rw [found] at genesis
    cases genesis
    exact zero
  | step found below rest ih =>
    cases shape
    obtain ⟨parent,stored,height,_⟩ := (s.linked _ _ found below).parent
    obtain ⟨x,older,rfl,head⟩ := Forest.pathHead rest
    cases Option.some.inj (stored.symm.trans head)
    rw [height,ih rfl,List.length_cons,UInt64.ofNat_add]
    rfl

theorem indexSkips (sha : Bytes → Hash) (f : UInt64 → Option Hash) {path : List Block} {h : UInt64}
    (other : ∀ b ∈ path, b.header.height ≠ h) :
    path.foldl (fun index b h => if h = b.header.height then some (b.hash sha) else index h) f h = f h := by
  induction path generalizing f with
  | nil => rfl
  | cons b path ih =>
    rw [List.foldl_cons,ih _ (fun x member => other x (List.mem_cons_of_mem _ member)),
      if_neg (Ne.symm (other b (List.mem_cons_self ..)))]

theorem indexFinds (sha : Bytes → Hash) (f : UInt64 → Option Hash) {path : List Block} {i : Nat}
    (once : path.Pairwise (fun x y => x.header.height ≠ y.header.height)) (at' : path[i]? = some b) :
    path.foldl (fun index b h => if h = b.header.height then some (b.hash sha) else index h) f b.header.height =
      some (b.hash sha) := by
  induction path generalizing f i with
  | nil => simp at at'
  | cons x path ih =>
    rw [List.pairwise_cons] at once
    cases i with
    | zero =>
      cases Option.some.inj at'
      rw [List.foldl_cons,indexSkips sha _ (fun y member => (once.1 y member).symm),if_pos rfl]
    | succ i => exact ih _ once.2 at'

theorem indexMember (sha : Bytes → Hash) (f : UInt64 → Option Hash) {path : List Block} {h : UInt64} {k : Hash}
    (found : path.foldl (fun index b h => if h = b.header.height then some (b.hash sha) else index h) f h = some k) :
    f h = some k ∨ ∃ b ∈ path, b.hash sha = k := by
  induction path generalizing f with
  | nil => exact .inl found
  | cons x path ih =>
    rcases ih _ found with first | ⟨b,inside,same⟩
    · dsimp only at first
      split at first
      · exact .inr ⟨x,List.mem_cons_self ..,Option.some.inj first⟩
      · exact .inl first
    · exact .inr ⟨b,List.mem_cons_of_mem _ inside,same⟩

theorem pathLevels {h : Hash} {p : List Block} (s : Sound env verifySig c) (path : c.Path h p) :
    ∀ i b, p.reverse[i]? = some b → b.header.height = UInt64.ofNat i := by
  induction path with
  | @root g found =>
    intro i b at'
    cases i with
    | zero =>
      cases Option.some.inj at'
      exact pathHeight s (.root found)
    | succ i => simp at at'
  | @step k x p found below rest ih =>
    intro i b at'
    rw [List.reverse_cons,List.getElem?_append] at at'
    split at at'
    · exact ih i b at'
    · rename_i past
      simp only [List.length_reverse] at past at'
      have last : i = p.length := by
        have bound := List.getElem?_eq_some_iff.mp at'
        obtain ⟨small,_⟩ := bound
        simp only [List.length_singleton] at small
        omega
      subst last
      simp only [Nat.sub_self,List.getElem?_cons_zero,Option.some.injEq] at at'
      subst at'
      exact pathHeight s (.step found below rest)

theorem levelsOnce {path : List Block} (small : path.length ≤ 2 ^ 64)
    (levels : ∀ i b, path[i]? = some b → b.header.height = UInt64.ofNat i) :
    path.Pairwise (fun x y => x.header.height ≠ y.header.height) := by
  rw [List.pairwise_iff_getElem]
  intro i j iBound jBound before same
  rw [levels i _ (List.getElem?_eq_getElem iBound),levels j _ (List.getElem?_eq_getElem jBound)] at same
  have values := congrArg UInt64.toNat same
  rw [UInt64.toNat_ofNat',UInt64.toNat_ofNat',Nat.mod_eq_of_lt (by omega),Nat.mod_eq_of_lt (by omega)] at values
  omega

theorem getByHeightPath {p : List Block} (s : Sound env verifySig c) (indexed : Indexed env c) (path : c.Path c.head p)
    (small : p.length ≤ 2 ^ 64) {i : Nat} (at' : p.reverse[i]? = some b) : c.getByHeight (UInt64.ofNat i) = some b := by
  have levels := pathLevels s path
  have height := levels i b at'
  have member : b ∈ p := by
    have inside := List.mem_of_getElem? at'
    simpa using inside
  obtain ⟨key,stored⟩ := Forest.pathStored path b member
  have found := indexFinds env.sha (fun _ => none) (levelsOnce (by simpa using small) levels) at'
  simp only [Chain.getByHeight,indexed p path,Chain.indexOf,← height,found]
  rw [s.keyed _ _ stored]
  exact stored

theorem headRoot (s : Sound env verifySig c) (found : c.getByHash c.head = some b) (below : c.head ≠ c.genesisHash) :
    env.stateRoot c.headState = b.header.stateRoot := by
  have l := s.linked _ _ found below
  obtain ⟨parent,stored,_⟩ := l.parent
  obtain ⟨before,st,derived,applied,root⟩ := l.derived
  have state := s.headState
  rw [deriveStep s.rooted found below ⟨parent,stored⟩,derived] at state
  simp only [bind,Except.bind,applied,Except.map,liftTx,Except.ok.injEq] at state
  rw [← state]
  exact root

end
end L1Chain
