import L1Chain.Effects
import L1Chain.NodeSteps
import L1Chain.PowRule

/-! Restart of a persistent PoW node. After every operation the store holds the
canonical branch; New replays it on a chain with the default chain id and the
continuous exchange mode. So a restart finds the node it left exactly when the
branch is also valid under those parameters. -/
namespace L1Chain
open Transition Runs

section
variable {E : Type} {env : Env E} {verifySig other : VerifySig} {c d : Chain} {b : Block}

structure Synced (sha : Bytes → Hash) (s : Store) (c : Chain) : Prop where
  head : s.head = some c.head
  branch : ∀ p, c.Path c.head p → ∀ i b, p.reverse[i]? = some b →
    s.heights (UInt64.ofNat i) = some (b.hash sha) ∧ s.blocks (b.hash sha) = some b
  alloc : s.genesisAlloc = some c.genesisAlloc
  baseAlloc : s.genesisBaseAlloc = some c.genesisBaseAlloc

theorem saveRest {sha : Bytes → Hash} {rest : List Block} (done : Nat) (s : Store) (fits : done + rest.length ≤ 2 ^ 64)
    (found : ∀ j b, rest[j]? = some b → c.getByHeight (UInt64.ofNat (done + j)) = some b)
    (keyed : ∀ b ∈ rest, ∀ b' ∈ rest, b.hash sha = b'.hash sha → b = b') :
    ∃ s', Store.saveFrom sha c rest.length (UInt64.ofNat done) s = (.ok (),s') ∧
      (∀ j b, rest[j]? = some b → s'.heights (UInt64.ofNat (done + j)) = some (b.hash sha)) ∧
      (∀ b ∈ rest, s'.blocks (b.hash sha) = some b) ∧
      (∀ k, k < done → s'.heights (UInt64.ofNat k) = s.heights (UInt64.ofNat k)) ∧
      (∀ h, (∀ b ∈ rest, b.hash sha ≠ h) → s'.blocks h = s.blocks h) ∧
      s'.genesisAlloc = s.genesisAlloc ∧ s'.genesisBaseAlloc = s.genesisBaseAlloc := by
  induction rest generalizing done s with
  | nil => exact ⟨s,rfl,by simp,by simp,fun _ _ => rfl,fun _ _ => rfl,rfl,rfl⟩
  | cons b rest ih =>
    simp only [List.length_cons] at fits
    have first : c.getByHeight (UInt64.ofNat done) = some b := found 0 b rfl
    obtain ⟨s',saved,heights,blocks,lower,others,alloc,baseAlloc⟩ :=
      ih (done + 1) ((s.putBlock sha b).setCanonical (UInt64.ofNat done) (b.hash sha)) (by omega)
        (fun j x at' => by rw [Nat.add_right_comm,Nat.add_assoc]; exact found (j + 1) x at')
        (fun x inside y inside' => keyed x (List.mem_cons_of_mem _ inside) y (List.mem_cons_of_mem _ inside'))
    refine ⟨s',?_,?_,?_,?_,?_,alloc,baseAlloc⟩
    · simp only [List.length_cons,Store.saveFrom,first,ofNatSucc]
      exact saved
    · intro j x at'
      cases j with
      | zero =>
        cases Option.some.inj at'
        rw [Nat.add_zero,lower done (by omega)]
        simp [Store.setCanonical,put]
      | succ j =>
        rw [← Nat.add_assoc,Nat.add_right_comm]
        exact heights j x at'
    · intro x inside
      rcases List.mem_cons.mp inside with rfl | later
      · by_cases again : ∃ y ∈ rest, y.hash sha = x.hash sha
        · obtain ⟨y,inside',same⟩ := again
          have equal := keyed y (List.mem_cons_of_mem _ inside') x (List.mem_cons_self ..) same
          rw [← equal]
          exact blocks y inside'
        · rw [others _ (fun y inside' same => again ⟨y,inside',same⟩)]
          simp [Store.setCanonical,Store.putBlock,put]
      · exact blocks x later
    · intro k less
      rw [lower k (by omega)]
      simp [Store.setCanonical,Store.putBlock,put,ofNatNe (Nat.ne_of_lt less) (by omega) (by omega)]
    · intro h apart
      rw [others h (fun y inside' => apart y (List.mem_cons_of_mem _ inside'))]
      simp [Store.setCanonical,Store.putBlock,put,(apart b (List.mem_cons_self ..)).symm]

theorem saveOk (s : Store) (sound : Sound env verifySig c) (indexed : Indexed env c)
    (small : c.blocks.entries.length ≤ 2 ^ 64) :
    ∃ s', s.save env.sha c = (.ok (),s') ∧ s'.head = some c.head ∧
      (∀ p, c.Path c.head p → ∀ i b, p.reverse[i]? = some b →
        s'.heights (UInt64.ofNat i) = some (b.hash env.sha) ∧ s'.blocks (b.hash env.sha) = some b) ∧
      s'.genesisAlloc = s.genesisAlloc ∧ s'.genesisBaseAlloc = s.genesisBaseAlloc := by
  obtain ⟨x,found⟩ := sound.headStored
  obtain ⟨p,path,fits⟩ := sound.rooted _ x found
  have bound : p.length ≤ 2 ^ 64 := Nat.le_trans fits small
  have keyed : ∀ b ∈ p.reverse, ∀ b' ∈ p.reverse, b.hash env.sha = b'.hash env.sha → b = b' := by
    intro b inside b' inside' same
    obtain ⟨key,stored⟩ := Forest.pathStored path b (by simpa using inside)
    obtain ⟨key',stored'⟩ := Forest.pathStored path b' (by simpa using inside')
    rw [sound.keyed _ _ stored,sound.keyed _ _ stored'] at same
    rw [same,stored'] at stored
    exact (Option.some.inj stored).symm
  obtain ⟨s',saved,heights,blocks,_,_,sameAlloc,sameBase⟩ := saveRest 0 s (by simpa using bound)
    (fun j b at' => by rw [Nat.zero_add]; exact getByHeightPath sound indexed path bound at') keyed
  have head : c.headD = x := by simp [Chain.headD,Chain.headBlock,found]
  have count : c.headD.header.height.toNat + 1 = p.reverse.length := by
    obtain ⟨y,older,rfl,own⟩ := Forest.pathHead path
    rw [found] at own
    cases own
    simp only [List.length_cons] at bound
    rw [head,pathHeight sound path,UInt64.toNat_ofNat',Nat.mod_eq_of_lt (by omega)]
    simp
  refine ⟨s'.setHead (c.headD.hash env.sha),?_,?_,?_,sameAlloc,sameBase⟩
  · have start : (0 : UInt64) = UInt64.ofNat 0 := rfl
    simp only [Store.save,count,start,saved]
  · rw [head,sound.keyed _ _ found]
    rfl
  · intro q path' i b at'
    rw [Forest.pathUnique path' path] at at'
    refine ⟨?_,blocks b (List.mem_of_getElem? at')⟩
    have stored := heights i b at'
    rw [Nat.zero_add] at stored
    exact stored

theorem saveSynced {s : Store} (sound : Sound env verifySig c) (indexed : Indexed env c)
    (small : c.blocks.entries.length ≤ 2 ^ 64) (alloc : s.genesisAlloc = some c.genesisAlloc)
    (baseAlloc : s.genesisBaseAlloc = some c.genesisBaseAlloc) :
    ∃ s', s.save env.sha c = (.ok (),s') ∧ Synced env.sha s' c := by
  obtain ⟨s',saved,head,branch,sameAlloc,sameBase⟩ := saveOk s sound indexed small
  exact ⟨s',saved,head,branch,sameAlloc.trans alloc,sameBase.trans baseAlloc⟩

theorem addBlocksCons {bs : List Block} : c.addBlocks env verifySig (b::bs) = .ok d ↔
    ∃ e, c.addBlock env verifySig b = .ok e ∧ e.addBlocks env verifySig bs = .ok d := by
  simp only [Chain.addBlocks,List.foldlM_cons,bindOk]

theorem replayRest {rest : List Block} (s : Store) (k : Nat) (c : Chain) (stored : ∀ j b, rest[j]? = some b →
    s.heights (UInt64.ofNat (k + j)) = some (b.hash env.sha) ∧ s.blocks (b.hash env.sha) = some b) :
    s.replayFrom env verifySig rest.length (UInt64.ofNat k) c = .ok d ↔ c.addBlocks env verifySig rest = .ok d := by
  induction rest generalizing k c with
  | nil =>
    simp [Store.replayFrom,Chain.addBlocks,pure,Except.pure]
  | cons b rest ih =>
    obtain ⟨height,block⟩ := stored 0 b rfl
    rw [Nat.add_zero] at height
    simp only [List.length_cons,Store.replayFrom,height,block,addBlocksCons,ofNatSucc]
    cases added : c.addBlock env verifySig b with
    | error e => simp
    | ok e =>
      simp only [Except.ok.injEq,exists_eq_left']
      refine ih (k + 1) e (fun j x at' => ?_)
      rw [Nat.add_right_comm,Nat.add_assoc]
      exact stored (j + 1) x at'

theorem loadRows {s : Store} {g x : Block} {rest : List Block} {h : Hash} {alloc baseAlloc : AList (fun _ : Address => UInt64)}
    (head : s.head = some h) (last : s.blocks h = some x) (height : x.header.height.toNat = rest.length)
    (rows : ∀ j b, (g::rest)[j]? = some b →
      s.heights (UInt64.ofNat j) = some (b.hash env.sha) ∧ s.blocks (b.hash env.sha) = some b)
    (allocs : s.genesisAlloc = some alloc) (baseAllocs : s.genesisBaseAlloc = some baseAlloc) :
    s.load env verifySig = .ok (some d) ↔
      (newChain env g alloc baseAlloc).addBlocks env verifySig rest = .ok d ∧ d.headD.hash env.sha = h := by
  have first := rows 0 g rfl
  have zero : s.heights 0 = some (g.hash env.sha) := first.1
  have one : (1 : UInt64) = UInt64.ofNat 1 := rfl
  have later : ∀ j b, rest[j]? = some b →
      s.heights (UInt64.ofNat (1 + j)) = some (b.hash env.sha) ∧ s.blocks (b.hash env.sha) = some b := by
    intro j b at'
    rw [Nat.add_comm]
    exact rows (j + 1) b at'
  simp only [Store.load,head,zero,first.2,last,allocs,baseAllocs,Option.getD_some,height,one]
  constructor
  · intro loaded
    split at loaded
    · contradiction
    · rename_i e replayed
      split at loaded
      · contradiction
      · rename_i same
        cases loaded
        exact ⟨(replayRest s 1 _ later).mp replayed,by simpa using same⟩
  · rintro ⟨added,same⟩
    simp only [(replayRest s 1 _ later).mpr added,same,ne_eq,not_true_eq_false,if_false]

theorem loadSynced {s : Store} {p : List Block} (sound : Sound env other c) (synced : Synced env.sha s c)
    (small : c.blocks.entries.length ≤ 2 ^ 64) (path : c.Path c.head p) {g : Block} {rest : List Block}
    (shape : p.reverse = g::rest) : s.load env verifySig = .ok (some d) ↔
      (newChain env g c.genesisAlloc c.genesisBaseAlloc).addBlocks env verifySig rest = .ok d ∧
        d.headD.hash env.sha = c.head := by
  obtain ⟨x,older,rfl,found⟩ := Forest.pathHead path
  obtain ⟨q,path',fits⟩ := sound.rooted _ x found
  rw [Forest.pathUnique path' path] at fits
  have stored := synced.branch _ path
  have last := stored older.length x (by simp)
  rw [sound.keyed _ _ found] at last
  have size : older.length = rest.length := by
    have lengths := congrArg List.length shape
    simpa using lengths
  have height : x.header.height.toNat = rest.length := by
    simp only [List.length_cons] at fits
    rw [pathHeight sound path,UInt64.toNat_ofNat',Nat.mod_eq_of_lt (by omega),size]
  rw [shape] at stored
  exact loadRows synced.head last.2 height stored synced.alloc synced.baseAlloc

def Config.setup (cfg : Config) (now : Int64) (mode : Exchange.Mode) : Setup :=
  ⟨cfg.genesis now,cfg.resolvedChainID,defaultGasLimit,mode,.pow⟩

structure Running (env : Env E) (verifySig : VerifySig) (setup : Setup) (n : Node) : Prop where
  sound : Sound env verifySig n.chain
  indexed : Indexed env n.chain
  grows : Grows (setup.chain env) n.chain
  synced : n.chain.blocks.entries.length ≤ 2 ^ 64 → ∃ s, n.store = some s ∧ Synced env.sha s n.chain

theorem newStarted (env : Env E) (verifySig : VerifySig) {cfg : Config} (now : Int64)
    (persistent : cfg.persistent = true) (pow : cfg.consensusMode = .pow) :
    ∃ disk, Node.new env verifySig cfg Store.empty now = .ok (Node.withChain cfg ((cfg.setup now .continuous).chain env)
      (some disk) cfg.validatorKey cfg.genesisAlloc cfg.genesisBaseAlloc) ∧
      Synced env.sha disk ((cfg.setup now .continuous).chain env) := by
  have sound : Sound env verifySig ((cfg.setup now .continuous).chain env) := setupSound _
  have indexed : Indexed env ((cfg.setup now .continuous).chain env) := setupIndexed _
  have chain : Node.configure env cfg now = .ok ((cfg.setup now .continuous).chain env) := by
    simp only [Node.configure,pow]
    rfl
  obtain ⟨disk,saved,synced⟩ := saveSynced
    (s := (Store.empty.putGenesisAlloc cfg.genesisAlloc).putGenesisBaseAlloc cfg.genesisBaseAlloc) sound indexed
    (show 1 ≤ 2 ^ 64 by omega) rfl rfl
  refine ⟨disk,?_,synced⟩
  have none : Store.empty.load env verifySig = .ok none := rfl
  simp only [Node.new,persistent,if_true,none,Node.fresh,chain,saved]

theorem newRunning {cfg : Config} {now : Int64} {n : Node} (mode : Exchange.Mode) (persistent : cfg.persistent = true)
    (pow : cfg.consensusMode = .pow) (started : Node.new env verifySig cfg Store.empty now = .ok n) :
    Running env verifySig (cfg.setup now mode) (n.setExchangeMode mode) := by
  obtain ⟨disk,built,synced⟩ := newStarted env verifySig now persistent pow
  cases Except.ok.inj (built.symm.trans started)
  refine ⟨setupSound (cfg.setup now mode),setupIndexed (cfg.setup now mode),Grows.refl _,fun _ => ⟨disk,rfl,?_⟩⟩
  exact ⟨synced.head,synced.branch,synced.alloc,synced.baseAlloc⟩

theorem stepRunning {setup : Setup} {n : Node} {op : Op} (r : Running env verifySig setup n) :
    Running env verifySig setup (n.step env verifySig op) := by
  rcases stepChain env verifySig n op with ⟨chain,store⟩ | ⟨b,c',added,chain,store⟩
  · refine ⟨?_,?_,?_,?_⟩ <;> rw [chain]
    · exact r.sound
    · exact r.indexed
    · exact r.grows
    · rw [store]
      exact r.synced
  · obtain ⟨st,w,a,rfl⟩ := addBlockOk.mp added
    have grows : Grows n.chain (n.chain.commit env b st w) := commitGrows a.fresh
    have sound := commitSound r.sound a
    have indexed := commitIndexed r.sound r.indexed a
    refine ⟨?_,?_,?_,?_⟩ <;> rw [chain]
    · exact sound
    · exact indexed
    · exact r.grows.trans grows
    · intro small
      obtain ⟨s,held,synced⟩ := r.synced (Nat.le_trans grows.size small)
      obtain ⟨s',saved,synced'⟩ := saveSynced sound indexed small
        (synced.alloc.trans (congrArg some grows.config.genesisAlloc.symm))
        (synced.baseAlloc.trans (congrArg some grows.config.genesisBaseAlloc.symm))
      refine ⟨s',?_,synced'⟩
      rw [store,held,Option.map_some,saved]

theorem runRunning {setup : Setup} {n : Node} (ops : List Op) (r : Running env verifySig setup n) :
    Running env verifySig setup (ops.foldl (Node.step env verifySig) n) :=
  invariant (Running env verifySig setup) (fun _ _ r _ => stepRunning r) r
    (alongOfMem (fun _ => True) (fun _ _ => trivial))

def Rederived (env : Env E) (verifySig : VerifySig) (mode : Exchange.Mode) (st : MptState) (path : List Block) : Prop :=
  ∀ older b, older ++ [b] <+: path → older ≠ [] → ∃ before after, replay env verifySig mode st older.tail = .ok before ∧
    applyBlockRewarded env verifySig mode before b = .ok (after,b.header.gasUsed) ∧
    env.stateRoot after = b.header.stateRoot

def Setup.defaults (setup : Setup) : Setup := ⟨setup.genesis,defaultChainID,defaultGasLimit,.continuous,.pow⟩

theorem reloadedRoot {setup : Setup} {p : List Block} (s : Sound env verifySig c) (grows : Grows (setup.chain env) c)
    (path : c.Path c.head p) (r : Reopened env verifySig setup.defaults c p d) (head : d.head = c.head) :
    env.stateRoot d.headState = env.stateRoot c.headState := by
  obtain ⟨b,older,rfl,found⟩ := Forest.pathHead path
  by_cases root : c.head = c.genesisHash
  · -- a chain of genesis alone: both states are the funded genesis
    have single : b::older = [b] := by
      rw [root] at path found
      exact Forest.pathUnique path (.root found)
    rw [single] at path r
    have state := s.headState
    have state' := r.sound.headState
    rw [setupDerive s.rooted grows.config path] at state
    rw [head,setupDerive r.sound.rooted r.grows.config (copiedPath r.copied path)] at state'
    rw [← Except.ok.inj state,← Except.ok.inj state']
    rfl
  · have own : d.getByHash d.head = some b := by
      rw [head]
      exact (r.copied.stored _ _).mpr ⟨found,List.mem_cons_self ..⟩
    rw [headRoot s found root,headRoot r.sound own (by rw [head,r.copied.genesisHash]; exact root)]

theorem reloadedHeights {setup : Setup} {p : List Block} (s : Sound env verifySig c) (indexed : Indexed env c)
    (path : c.Path c.head p) (r : Reopened env verifySig setup c p d) (head : d.head = c.head) (h : UInt64) :
    d.getByHeight h = c.getByHeight h := by
  have own : d.Path d.head p := by
    rw [head]
    exact copiedPath r.copied path
  have lookups : ∀ k, Chain.indexOf env.sha p.reverse h = some k → d.getByHash k = c.getByHash k := by
    intro k entry
    rcases indexMember env.sha _ entry with none | ⟨b,inside,rfl⟩
    · contradiction
    · have member : b ∈ p := by simpa using inside
      obtain ⟨key,stored⟩ := Forest.pathStored path b member
      rw [s.keyed _ _ stored,stored]
      exact (r.copied.stored _ _).mpr ⟨stored,member⟩
  simp only [Chain.getByHeight,r.indexed p own,indexed p path]
  cases entry : Chain.indexOf env.sha p.reverse h with
  | none => rfl
  | some k => exact lookups k entry

theorem reloadStart {setup : Setup} {g : Block} (grows : Grows (setup.chain env) c)
    (found : c.getByHash c.genesisHash = some g) :
    newChain env g c.genesisAlloc c.genesisBaseAlloc = setup.defaults.chain env := by
  rw [grows.config.genesisAlloc,grows.config.genesisBaseAlloc,setupStored grows found]
  rfl

theorem loadSome {s : Store} {h : Hash} (held : s.head = some h) : s.load env verifySig ≠ .ok none := by
  intro loaded
  simp only [Store.load,held] at loaded
  repeat' split at loaded
  all_goals cases loaded

theorem newLoaded {cfg : Config} {disk : Store} {h : Hash} {later : Int64} {m : Node} (persistent : cfg.persistent = true)
    (pow : cfg.consensusMode = .pow) (held : disk.head = some h) : Node.new env verifySig cfg disk later = .ok m ↔
      ∃ d, disk.load env verifySig = .ok (some d) ∧ m = Node.withChain cfg (d.setChainID cfg.resolvedChainID) (some disk)
        none (disk.genesisAlloc.getD cfg.genesisAlloc) (disk.genesisBaseAlloc.getD cfg.genesisBaseAlloc) := by
  simp only [Node.new,persistent,if_true,pow,reduceCtorEq,if_false]
  cases loaded : disk.load env verifySig with
  | error e => simp
  | ok found =>
    cases found with
    | none => exact absurd loaded (loadSome held)
    | some d => simp [eq_comm]

theorem suffixOfTail {p : List Block} {g : Block} {rest : List Block} (shape : p.reverse = g::rest) (member : b ∈ rest) :
    ∃ older, b::older <:+ p ∧ older ≠ [] := by
  obtain ⟨u,v,rfl⟩ := List.append_of_mem member
  refine ⟨u.reverse ++ [g],⟨v.reverse,?_⟩,by simp⟩
  have turned := congrArg List.reverse shape
  rw [List.reverse_reverse] at turned
  rw [turned]
  simp

theorem tailOfSuffix {p older : List Block} {g : Block} {rest : List Block} (shape : p.reverse = g::rest)
    (suffix : b::older <:+ p) (below : older ≠ []) : b ∈ rest := by
  obtain ⟨front,rfl⟩ := suffix
  rw [List.reverse_append,List.reverse_cons] at shape
  obtain ⟨x,xs,turned⟩ := List.exists_cons_of_ne_nil (l := older.reverse) (by simpa using below)
  rw [turned] at shape
  injection shape with _ same
  rw [← same]
  simp

theorem reloadableIff {p rest : List Block} {g : Block} {setup : Setup} (s : Sound env verifySig c)
    (grows : Grows (setup.chain env) c) (pow : setup.consensus = .pow) (limit : setup.gasLimit = defaultGasLimit)
    (walk : c.Path c.head p) (shape : p.reverse = g::rest) :
    (∀ b older, b::older <:+ p → older ≠ [] → WellMined env verifySig setup.defaults older b) ↔
      (setup.chainID = defaultChainID ∨ ∀ b ∈ rest, b.txs = []) ∧
      (setup.exchangeMode = .continuous ∨ Rederived env verifySig .continuous c.fundGenesis (g::rest)) := by
  have funds : c.fundGenesis = fund setup.genesis.alloc setup.genesis.baseAlloc := by
    rw [Chain.fundGenesis,grows.config.genesisAlloc,grows.config.genesisBaseAlloc]
    rfl
  have mined : ∀ b older, b::older <:+ p → older ≠ [] → WellMined env verifySig setup older b := by
    intro b older suffix below
    obtain ⟨key,path⟩ := Forest.pathSuffix walk suffix
    exact linkedMined s grows.config pow path below
  constructor
  · intro every
    refine ⟨?_,.inr ?_⟩
    · by_cases same : setup.chainID = defaultChainID
      · exact .inl same
      · refine .inr ?_
        intro b member
        obtain ⟨older,suffix,below⟩ := suffixOfTail shape member
        refine List.eq_nil_iff_forall_not_mem.mpr ?_
        intro tx inside
        have own := (mined b older suffix below).chainID tx inside
        exact same (own.symm.trans ((every b older suffix below).chainID tx inside))
    · intro older b within below
      rw [← shape] at within
      have suffix : b::older.reverse <:+ p := by
        rw [← List.reverse_prefix]
        simpa using within
      have derived := (every b older.reverse suffix (by simpa using below)).derived
      rw [List.reverse_reverse] at derived
      rw [funds]
      exact derived
  · rintro ⟨ids,modes⟩ b older suffix below
    have m := mined b older suffix below
    obtain ⟨parent,first,height,fee⟩ := m.parent
    rw [limit] at fee
    have gas := m.gas
    rw [limit] at gas
    refine ⟨⟨parent,first,height,fee⟩,m.work,m.txRoot,?_,?_,gas⟩
    · intro tx inside
      rcases ids with same | none
      · exact (m.chainID tx inside).trans same
      · rw [none b (tailOfSuffix shape suffix below)] at inside
        contradiction
    · rcases modes with same | rederived
      · have derived := m.derived
        rw [same] at derived
        exact derived
      · rw [funds] at rederived
        have derived := rederived older.reverse b (by rw [← shape,← List.reverse_cons,List.reverse_prefix]; exact suffix)
          (by simpa using below)
        exact derived

/- New with the same configuration finds the same head, blocks and state root exactly
when the transactions carry the default chain id and the blocks are also valid in
the continuous exchange mode. -/
theorem restartRecovers {cfg : Config} (persistent : cfg.persistent = true) (pow : cfg.consensusMode = .pow)
    {now later : Int64} {mode : Exchange.Mode} {n₀ n : Node} {ops : List Op} {disk : Store} {path : List Block}
    (started : Node.new env verifySig cfg Store.empty now = .ok n₀)
    (ran : n = ops.foldl (Node.step env verifySig) (n₀.setExchangeMode mode)) (closed : n.store = some disk)
    (small : n.chain.blocks.entries.length ≤ 2 ^ 64) (canonical : n.chain.chainTo n.chain.head = some path) :
    (∃ m, Node.new env verifySig cfg disk later = .ok m ∧ m.chain.head = n.chain.head ∧
      (∀ h, m.chain.getByHeight h = n.chain.getByHeight h) ∧
      env.stateRoot m.chain.headState = env.stateRoot n.chain.headState) ↔
    (cfg.resolvedChainID = defaultChainID ∨ ∀ b ∈ path.tail, b.txs = []) ∧
      (mode = .continuous ∨ Rederived env verifySig .continuous n.chain.fundGenesis path) := by
  have r : Running env verifySig (cfg.setup now mode) n := ran ▸ runRunning ops (newRunning mode persistent pow started)
  obtain ⟨s,held,synced⟩ := r.synced small
  cases closed.symm.trans held
  obtain ⟨p,climbed,rfl⟩ := Option.map_eq_some_iff.mp canonical
  have walk := (ancestryPath r.sound.rooted).mp climbed
  obtain ⟨g,last,root⟩ := Forest.pathRoot walk
  obtain ⟨rest,shape⟩ : ∃ rest, p.reverse = g::rest := by
    rw [← List.head?_reverse] at last
    exact ⟨_,(List.eq_cons_of_mem_head? last)⟩
  obtain ⟨kept,taken⟩ := @reopens _ env verifySig verifySig _ (cfg.setup now mode).defaults _ _ p r.sound r.grows rfl rfl walk
  have load := fun d => @loadSynced _ env verifySig verifySig n.chain d disk p r.sound synced small walk g rest shape
  rw [reloadStart r.grows root] at load
  rw [shape] at kept taken
  rw [shape,List.tail_cons]
  refine Iff.trans ?_ (taken.trans (reloadableIff r.sound r.grows rfl rfl walk shape))
  constructor
  · rintro ⟨m,restarted,_⟩
    obtain ⟨d,loaded,_⟩ := (newLoaded persistent pow synced.head).mp restarted
    exact ⟨d,((load d).mp loaded).1⟩
  · rintro ⟨d,added⟩
    have reloaded := kept d added
    have head := (reopenedHead rfl reloaded walk).mpr (headLeads r.sound r.grows rfl walk)
    have own : d.headD.hash env.sha = n.chain.head := (reloaded.sound.keyed _ _ (headFound reloaded.sound)).trans head
    have loaded := (load d).mpr ⟨added,own⟩
    have heights : ∀ h, d.getByHeight h = n.chain.getByHeight h := reloadedHeights r.sound r.indexed walk reloaded head
    have roots : env.stateRoot d.headState = env.stateRoot n.chain.headState :=
      reloadedRoot r.sound r.grows walk reloaded head
    exact ⟨_,(newLoaded persistent pow synced.head).mpr ⟨d,loaded,rfl⟩,head,heights,roots⟩

end

namespace Devnet

/- A single miner with the development network's primitives: one funded account and
one transfer, on a chain id of choice. -/
def soloConfig (id : UInt64) : Config where
  persistent := true
  miner := account 3
  difficulty := 1
  genesisAlloc := AList.singleton (account 1) 100
  genesisBaseAlloc := ∅
  genesisTimestamp := 0
  maxMempool := 0
  chainID := id
  consensusMode := .pow
  validators := []
  validatorKey := none

def soloSetup (id : UInt64) : Setup := (soloConfig id).setup 0 .continuous

def soloFunds : MptState := fund (AList.singleton (account 1) 100) ∅

theorem soloFundsSupply : soloFunds.supply = 100 := by
  have empty : MptState.empty.supply = 0 := by
    unfold MptState.supply Ledger.total
    exact Finset.sum_const_zero
  have funded : soloFunds = credit MptState.empty (account 1) 100 := rfl
  rw [funded,creditSupply (by rw [empty]; decide),empty]
  rfl

def soloMoved : MptState :=
  let payer := soloFunds.accounts (account 1)
  let payee := soloFunds.accounts (account 2)
  let st := setAccount soloFunds (account 1) {payer with balance := payer.balance - 40, nonce := payer.nonce + 1}
  setAccount st (account 2) {payee with balance := payee.balance + 40}

def soloPaid : MptState := credit soloMoved (account 3) blockReward

theorem paymentApplied (id : UInt64) : applyTxsAt env acceptNonEmptySig soloFunds [payment id] 1 .continuous 0 =
    .ok ⟨soloMoved,0,0⟩ := rfl

theorem soloFee {E : Type} (eng : Exchange.Engine E) (id : UInt64) :
    ((soloSetup id).chain (trading eng)).nextBaseFeeOf ((soloSetup id).genesis.toBlock (trading eng)) = 0 :=
  (by decide : FeeMarket.computeBaseFee 0 0 (FeeMarket.gasTarget defaultGasLimit) = 0)

theorem firstCandidate {E : Type} {eng : Exchange.Engine E} {verifySig : VerifySig} {id : UInt64} {txs : List Transaction}
    {r : BlockOutcome MptState} (ids : ∀ tx ∈ txs, tx.chainID = (soloConfig id).resolvedChainID)
    (ran : applyTxsAt (trading eng) verifySig soloFunds txs 1 .continuous 0 = .ok r) :
    ((soloSetup id).chain (trading eng)).candidate (trading eng) verifySig txs (account 3) =
      .ok (credit r.st (account 3) (blockReward + r.tip),r.gasUsed) := by
  refine (candidateOk (setupSound _)).mpr ⟨ids,r,?_,rfl,rfl⟩
  have height : ((soloSetup id).genesis.toBlock (trading eng)).header.height + 1 = 1 := rfl
  rw [Chain.nextBaseFee,setupHead,height,soloFee]
  exact ran

theorem soloCandidate (id : UInt64) :
    ((soloSetup id).chain env).candidate env acceptNonEmptySig [payment (soloConfig id).resolvedChainID] (account 3) =
      .ok (soloPaid,0) := by
  have own : ∀ tx ∈ [payment (soloConfig id).resolvedChainID], tx.chainID = (soloConfig id).resolvedChainID := by
    intro tx member
    rw [List.mem_singleton.mp member]
    rfl
  exact @firstCandidate _ engine acceptNonEmptySig id _ ⟨soloMoved,0,0⟩ own (paymentApplied _)

def soloNode (id : UInt64) (disk : Store) : Node :=
  Node.withChain (soloConfig id) ((soloSetup id).chain env) (some disk) none (soloConfig id).genesisAlloc ∅

theorem soloAdmits (id : UInt64) (disk : Store) :
    Admitted acceptNonEmptySig (soloNode id disk) (payment (soloConfig id).resolvedChainID) :=
  ⟨rfl,rfl,rfl,fun _ => show (40 : UInt64) ≤ (soloFunds.accounts (account 1)).balance by decide,show 0 < 4096 by decide⟩

def firstBlock (id : UInt64) (txs : List Transaction) : Block :=
  assemble env ((soloSetup id).chain env) txs (account 3) 1 1 0 0

theorem firstHeader (id : UInt64) (txs : List Transaction) :
    (firstBlock id txs).header.height = 1 ∧ (firstBlock id txs).header.baseFee = 0 := by
  have height : (firstBlock id txs).header.height = ((soloSetup id).chain env).headD.header.height + 1 := rfl
  have fee : (firstBlock id txs).header.baseFee = ((soloSetup id).chain env).nextBaseFee := rfl
  rw [height,fee,Chain.nextBaseFee,setupHead]
  exact ⟨rfl,soloFee engine id⟩

theorem firstHash (id : UInt64) (txs : List Transaction) : (firstBlock id txs).hash env.sha = hashAt 1 1 := by
  rw [Block.hash,headerHash,(firstHeader id txs).1]
  rfl

theorem firstMined (id : UInt64) (txs : List Transaction) :
    mine env.sha (firstBlock id txs).header = some (firstBlock id txs).header := by
  have own : ({(firstBlock id txs).header with nonce := 0} : Header) = (firstBlock id txs).header := rfl
  have meets : meetsTarget ((firstBlock id txs).header.hash env.sha) 1 = true := by
    have hash := firstHash id txs
    rw [Block.hash] at hash
    rw [hash]
    unfold hashAt
    decide +kernel
  exact mineFirst meets

theorem firstPrev (id : UInt64) (txs : List Transaction) :
    (firstBlock id txs).header.prevHash = ((soloSetup id).chain env).genesisHash := by
  have own : (firstBlock id txs).header.prevHash = ((soloSetup id).chain env).headD.hash env.sha := rfl
  rw [own,setupHead]
  rfl

theorem firstApart (id : UInt64) : hashAt 1 1 ≠ ((soloSetup id).chain env).genesisHash := by
  have root : ((soloSetup id).chain env).genesisHash = hashAt 0 0 := headerHash _
  rw [root]
  intro same
  exact absurd (hashAtInj (by omega) (by omega) (by omega) (by omega) same).1 (by omega)

section
variable {E : Type} {eng : Exchange.Engine E} {verifySig : VerifySig} {st : MptState} {id : UInt64} {txs : List Transaction}

theorem firstAccepted
    (cand : ((soloSetup id).chain (trading eng)).candidate (trading eng) verifySig txs (account 3) = .ok (st,0)) :
    Accepted (trading eng) verifySig ((soloSetup id).chain (trading eng)) (firstBlock id txs) st 1 := by
  have fresh : ((soloSetup id).chain (trading eng)).getByHash ((firstBlock id txs).hash env.sha) = none := by
    rw [setupFound,firstHash]
    exact if_neg (firstApart id)
  have tall : ((soloSetup id).chain (trading eng)).headD.header.height + 1 ≠ 0 := by
    rw [setupHead]
    exact (by decide : (0 : UInt64) + 1 ≠ 0)
  have room : 0 ≤ ((soloSetup id).chain (trading eng)).gasLimit := (by decide : (0 : UInt64) ≤ defaultGasLimit)
  exact minedAccepted (setupSound _) rfl cand room tall (firstMined id txs) fresh

def firstChain (eng : Exchange.Engine E) (id : UInt64) (txs : List Transaction) (st : MptState) : Chain :=
  ((soloSetup id).chain (trading eng)).commit (trading eng) (firstBlock id txs) st 1

theorem firstHeavier (a : Accepted (trading eng) verifySig ((soloSetup id).chain (trading eng)) (firstBlock id txs) st 1) :
    ((soloSetup id).chain (trading eng)).outweighs (trading eng) (firstBlock id txs) 1 := by
  have s : Sound (trading eng) verifySig ((soloSetup id).chain (trading eng)) := setupSound _
  have prev : (firstBlock id txs).header.prevHash = ((soloSetup id).chain (trading eng)).head := firstPrev id txs
  have weight : ((soloSetup id).chain (trading eng)).td ((soloSetup id).chain (trading eng)).head = 1 := if_pos rfl
  rw [outweighsIff s.headStored a.fresh,prev,weight]
  decide

theorem firstHead (a : Accepted (trading eng) verifySig ((soloSetup id).chain (trading eng)) (firstBlock id txs) st 1) :
    (firstChain eng id txs st).head = hashAt 1 1 ∧ (firstChain eng id txs st).headState = st := by
  rw [firstChain,Chain.commitHead,Chain.commitHeadState,if_pos (firstHeavier a),if_pos (firstHeavier a)]
  exact ⟨firstHash id txs,rfl⟩

theorem firstPath (a : Accepted (trading eng) verifySig ((soloSetup id).chain (trading eng)) (firstBlock id txs) st 1) :
    (firstChain eng id txs st).Path (hashAt 1 1) [firstBlock id txs,(soloSetup id).genesis.toBlock (trading eng)] := by
  have genesis := setupStart (trading eng) (soloSetup id)
  have sound : Sound (trading eng) verifySig ((soloSetup id).chain (trading eng)) := setupSound _
  have own : (firstBlock id txs).header.prevHash = ((soloSetup id).chain (trading eng)).genesisHash := firstPrev id txs
  rw [← own] at genesis
  rw [← firstHash id txs]
  exact commitPath sound a.fresh genesis

theorem firstSound (a : Accepted (trading eng) verifySig ((soloSetup id).chain (trading eng)) (firstBlock id txs) st 1) :
    Sound (trading eng) verifySig (firstChain eng id txs st) := commitSound (setupSound _) a

theorem firstBranch (a : Accepted (trading eng) verifySig ((soloSetup id).chain (trading eng)) (firstBlock id txs) st 1) :
    (firstChain eng id txs st).chainTo (hashAt 1 1) =
      some [(soloSetup id).genesis.toBlock (trading eng),firstBlock id txs] := by
  rw [Chain.chainTo,(ancestryPath (firstSound a).rooted).mpr (firstPath a)]
  rfl

theorem firstDerived (a : Accepted (trading eng) verifySig ((soloSetup id).chain (trading eng)) (firstBlock id txs) st 1) :
    (firstChain eng id txs st).deriveState (trading eng) verifySig (firstChain eng id txs st).head = .ok st :=
  (firstSound a).headState.trans (congrArg Except.ok (firstHead a).2)

theorem firstConfig : (firstChain eng id txs st).exchangeMode = .continuous ∧
    (firstChain eng id txs st).fundGenesis = soloFunds := by
  have config := commitConfig (trading eng) ((soloSetup id).chain (trading eng)) (firstBlock id txs) st 1
  refine ⟨config.exchangeMode,?_⟩
  rw [Chain.fundGenesis,firstChain,config.genesisAlloc,config.genesisBaseAlloc]
  rfl

end

def soloBlock (id : UInt64) : Block :=
  assemble env ((soloSetup id).chain env) [payment (soloConfig id).resolvedChainID] (account 3) 1 1 0 0

theorem soloMined (id : UInt64) : mine env.sha (soloBlock id).header = some (soloBlock id).header := firstMined id _

theorem soloAccepted (id : UInt64) :
    Accepted env acceptNonEmptySig ((soloSetup id).chain env) (soloBlock id) soloPaid 1 := firstAccepted (soloCandidate id)

def soloOps (id : UInt64) : List Op := [.submitTx (payment (soloConfig id).resolvedChainID),.mineBlock 1]

def soloChain (id : UInt64) : Chain := ((soloSetup id).chain env).commit env (soloBlock id) soloPaid 1

theorem soloUnpriced (id : UInt64) : isFeePriced soloFunds (payment id) = false := rfl

def soloRun (id : UInt64) (disk : Store) : Node :=
  (soloOps id).foldl (Node.step env acceptNonEmptySig) ((soloNode id disk).setExchangeMode .continuous)

theorem soloRan (id : UInt64) (disk : Store) : (soloRun id disk).chain = soloChain id := by
  have still : (soloNode id disk).setExchangeMode .continuous = soloNode id disk := rfl
  have submitted : (soloNode id disk).submitTx acceptNonEmptySig (payment (soloConfig id).resolvedChainID) =
      (.ok (),(soloNode id disk).pool (payment (soloConfig id).resolvedChainID)) := submitTxOk (soloAdmits id disk)
  have mined := mineBlockEq (n := (soloNode id disk).pool (payment (soloConfig id).resolvedChainID))
    (buildSingle (soloUnpriced _)) (soloCandidate id) (soloMined id)
  have added : ((soloNode id disk).pool (payment (soloConfig id).resolvedChainID)).chain.addBlock env acceptNonEmptySig
      (soloBlock id) = .ok (soloChain id) := addBlockOk.mpr ⟨_,_,soloAccepted id,rfl⟩
  have same : soloBlock id = ⟨(soloBlock id).header,[payment (soloConfig id).resolvedChainID]⟩ := rfl
  rw [same] at added
  simp only [soloRun,still,soloOps,List.foldl_cons,List.foldl_nil,Node.step,submitted]
  rw [mined,commitBlockNode added]
  rfl

theorem soloPrev (id : UInt64) : (soloBlock id).header.prevHash = ((soloSetup id).chain env).genesisHash := firstPrev id _

theorem soloWeight (id : UInt64) : ((soloSetup id).chain env).td ((soloSetup id).chain env).head = 1 := if_pos rfl

theorem soloHeavier (id : UInt64) : ((soloSetup id).chain env).outweighs env (soloBlock id) 1 := firstHeavier (soloAccepted id)

theorem soloPath (id : UInt64) : (soloChain id).head = hashAt 1 1 ∧
    (soloChain id).Path (hashAt 1 1) [soloBlock id,(soloSetup id).genesis.toBlock env] :=
  ⟨(firstHead (soloAccepted id)).1,firstPath (soloAccepted id)⟩

theorem soloSound (id : UInt64) : Sound env acceptNonEmptySig (soloChain id) :=
  commitSound (setupSound _) (soloAccepted id)

theorem soloTwo (id : UInt64) : (soloChain id).blocks.entries.length = 2 := by
  have one : ((soloSetup id).chain env).blocks.entries.length = 1 := rfl
  rw [soloChain,commitSize (soloAccepted id).fresh,one]

theorem soloSmall (id : UInt64) : (soloChain id).blocks.entries.length ≤ 2 ^ 64 := by
  rw [soloTwo]
  decide

theorem soloReached (id : UInt64) : ∃ disk₀ disk,
    Node.new env acceptNonEmptySig (soloConfig id) Store.empty 0 = .ok (soloNode id disk₀) ∧
    (soloRun id disk₀).store = some disk ∧ Synced env.sha disk (soloChain id) := by
  obtain ⟨disk₀,started,_⟩ := newStarted env acceptNonEmptySig 0 (show (soloConfig id).persistent = true from rfl) rfl
  have r : Running env acceptNonEmptySig (soloSetup id) (soloRun id disk₀) :=
    runRunning (soloOps id) (newRunning .continuous rfl rfl started)
  have synced := r.synced
  rw [soloRan] at synced
  obtain ⟨disk,held,synced⟩ := synced (soloSmall id)
  exact ⟨disk₀,disk,started,held,synced⟩

/- On chain id 7 the node admits a payment, mines it and saves it. It cannot be
started again: the replay expects the default chain id. -/
theorem otherChainIDNotReloaded : ∃ disk₀ disk,
    Node.new env acceptNonEmptySig (soloConfig 7) Store.empty 0 = .ok (soloNode 7 disk₀) ∧
    (soloRun 7 disk₀).store = some disk ∧ (soloRun 7 disk₀).chain.head = hashAt 1 1 ∧
    ∀ later m, Node.new env acceptNonEmptySig (soloConfig 7) disk later ≠ .ok m := by
  obtain ⟨disk₀,disk,started,held,synced⟩ := soloReached 7
  obtain ⟨head,path⟩ := soloPath 7
  refine ⟨disk₀,disk,started,held,by rw [soloRan,head],?_⟩
  intro later m restarted
  obtain ⟨d,loaded,_⟩ := (newLoaded rfl rfl synced.head).mp restarted
  rw [← head] at path
  obtain ⟨added,_⟩ := (loadSynced (soloSound 7) synced (soloSmall 7) path rfl).mp loaded
  obtain ⟨e,first,_⟩ := addBlocksCons.mp added
  obtain ⟨st,w,a,_⟩ := addBlockOk.mp first
  have id := assertChainIDOk.mp a.chainID (payment 7) (List.mem_cons_self ..)
  exact absurd id (by decide : (7 : UInt64) ≠ defaultChainID)

theorem defaultChainIDReloaded : ∃ disk₀ disk m,
    Node.new env acceptNonEmptySig (soloConfig 0) Store.empty 0 = .ok (soloNode 0 disk₀) ∧
    (soloRun 0 disk₀).store = some disk ∧ Node.new env acceptNonEmptySig (soloConfig 0) disk 5 = .ok m ∧
    m.chain.head = hashAt 1 1 := by
  obtain ⟨disk₀,disk,started,held,synced⟩ := soloReached 0
  obtain ⟨head,path⟩ := soloPath 0
  have small : (soloRun 0 disk₀).chain.blocks.entries.length ≤ 2 ^ 64 := by
    rw [soloRan]
    exact soloSmall 0
  have canonical : (soloRun 0 disk₀).chain.chainTo (soloRun 0 disk₀).chain.head =
      some [(soloSetup 0).genesis.toBlock env,soloBlock 0] := by
    rw [soloRan,head,Chain.chainTo,(ancestryPath (soloSound 0).rooted).mpr path]
    rfl
  obtain ⟨m,restarted,same,_⟩ := (restartRecovers rfl rfl started rfl held small canonical).mpr
    ⟨.inl rfl,.inl rfl⟩
  exact ⟨disk₀,disk,m,started,held,restarted,same.trans ((congrArg Chain.head (soloRan 0 disk₀)).trans head)⟩

end Devnet
end L1Chain
