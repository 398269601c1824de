import L1Chain.Crash

/-! Catching up with a peer (package p2p). The requester asks for the peer's canonical
blocks above its own head and applies them in order until one fails; the stream and
its encoding are taken to deliver what was sent. The blocks asked for start above the
local head, so they attach only where the local node already knows the peer's branch
at its own height. -/
namespace L1Chain
open Transition Runs

namespace Node
variable {E : Type}

def blocksFrom (c : Chain) : Nat → UInt64 → List Block
  | 0, _ => []
  | count+1, h => (c.getByHeight h).toList ++ blocksFrom c count (h + 1)

def canonicalBlocksFrom (n : Node) (height : UInt64) : List Block :=
  blocksFrom n.chain (n.chain.headD.header.height.toNat + 1 - height.toNat) height

def maxBlocksPerSync : Nat := 1024

def applyBlocks (env : Env E) (verifySig : VerifySig) : Node → List Block → Except NodeErr Unit × Node
  | n, [] => (.ok (),n)
  | n, b::bs =>
    match n.acceptExternalBlock env verifySig b with
    | (.error e,n) => (.error e,n)
    | (.ok (),n) => applyBlocks env verifySig n bs

def syncFrom (env : Env E) (verifySig : VerifySig) (n peer : Node) (start : UInt64) : Except NodeErr Unit × Node :=
  n.applyBlocks env verifySig ((peer.canonicalBlocksFrom start).take maxBlocksPerSync)

def resync (env : Env E) (verifySig : VerifySig) (n peer : Node) : Except NodeErr Unit × Node :=
  n.syncFrom env verifySig peer (n.chain.headD.header.height + 1)

def handleBlock (env : Env E) (verifySig : VerifySig) (n peer : Node) (b : Block) : Node :=
  match n.acceptExternalBlock env verifySig b with
  | (.error (.chain .unknownParent),n) =>
    match n.resync env verifySig peer with
    | (.error _,n) => n
    | (.ok (),n) => (n.acceptExternalBlock env verifySig b).2
  | (_,n) => n

end Node

section
variable {E : Type} {env : Env E} {verifySig : VerifySig} {c d : Chain} {n : Node} {b : Block} {setup : Setup}

/- Block hashes are collision free: two nodes never store different blocks under one. -/
def Compatible (c d : Chain) : Prop := ∀ h x y, c.getByHash h = some x → d.getByHash h = some y → x = y

theorem compatiblePath {k : Hash} {p q : List Block} (agree : Compatible c d) (genesis : d.genesisHash = c.genesisHash)
    (mine : c.Path k p) (theirs : d.Path k q) : p = q := by
  induction mine generalizing q with
  | root found =>
    rw [← genesis] at found theirs
    cases theirs with
    | root found' => rw [agree _ _ _ found found']
    | step _ below _ => exact absurd rfl below
  | step found below _ ih =>
    cases theirs with
    | root _ => exact absurd genesis.symm (fun same => below same.symm)
    | step found' _ rest =>
      cases agree _ _ _ found found'
      rw [ih rest]

theorem blocksFromPath {q : List Block} (done : Nat)
    (found : ∀ j b, q[j]? = some b → c.getByHeight (UInt64.ofNat (done + j)) = some b) :
    Node.blocksFrom c q.length (UInt64.ofNat done) = q := by
  induction q generalizing done with
  | nil => rfl
  | cons b q ih =>
    have first : c.getByHeight (UInt64.ofNat done) = some b := found 0 b rfl
    rw [List.length_cons,Node.blocksFrom,first,ofNatSucc,
      ih (done + 1) (fun j x at' => by rw [Nat.add_right_comm,Nat.add_assoc]; exact found (j + 1) x at')]
    rfl

theorem headHeight {p : List Block} (s : Sound env verifySig c) (fits : c.FitsMap) (path : c.Path c.head p) :
    c.headD.header.height.toNat + 1 = p.length := by
  obtain ⟨x,older,rfl,found⟩ := Forest.pathHead path
  have head : c.headD = x := by simp [Chain.headD,Chain.headBlock,found]
  rw [head,heightNat s fits path,List.length_cons]

theorem canonicalFrom {p : List Block} (s : Sound env verifySig n.chain) (indexed : Indexed env n.chain)
    (fits : n.chain.FitsMap) (path : n.chain.Path n.chain.head p) {m : Nat} (small : m < 2 ^ 64) :
    n.canonicalBlocksFrom (UInt64.ofNat m) = p.reverse.drop m := by
  have short := pathFits s fits path
  have size : n.chain.headD.header.height.toNat + 1 - (UInt64.ofNat m).toNat = (p.reverse.drop m).length := by
    rw [headHeight s fits path,UInt64.toNat_ofNat',Nat.mod_eq_of_lt small,List.length_drop,List.length_reverse]
  rw [Node.canonicalBlocksFrom,size]
  refine blocksFromPath m (fun j b at' => getByHeightPath s indexed path (by omega) ?_)
  rw [List.getElem?_drop] at at'
  exact at'

theorem acceptSaved {c' : Chain} (added : n.chain.addBlock env verifySig b = .ok c') (s : Sound env verifySig c')
    (indexed : Indexed env c') (small : c'.blocks.entries.length ≤ 2 ^ 64) :
    n.acceptExternalBlock env verifySig b = (.ok (),n.extend env.sha c') := by
  have node := acceptNode added
  have fine : (n.acceptExternalBlock env verifySig b).1 = .ok () := by
    simp only [Node.acceptExternalBlock,added,Node.saveChain]
    cases n.store with
    | none => rfl
    | some disk =>
      obtain ⟨disk',saved,_⟩ := saveOk disk s indexed small
      simp only [saved]
  exact Prod.ext fine node

theorem acceptKnown {x : Block} (known : n.chain.getByHash (b.hash env.sha) = some x) :
    n.acceptExternalBlock env verifySig b = (.ok (),n) := by
  have duplicate : n.chain.addBlock env verifySig b = .error .duplicateBlock := by
    simp [Chain.addBlock,Chain.validate,Chain.checkHeader,known,bind,Except.bind]
  simp only [Node.acceptExternalBlock,duplicate,if_true]

theorem applyGrown {c₀ : Chain} {sent bs : List Block} (g : Grown env verifySig c₀ sent n.chain) (part : ∀ x ∈ bs, x ∈ sent) :
    Grown env verifySig c₀ sent (n.applyBlocks env verifySig bs).2.chain := by
  induction bs generalizing n with
  | nil => exact g
  | cons b bs ih =>
    have after : Grown env verifySig c₀ sent (n.acceptExternalBlock env verifySig b).2.chain := by
      rcases acceptCases env verifySig n b with same | ⟨c',added,same⟩
      · rw [same]
        exact g
      · rw [same]
        exact grownAdd g added (part b (List.mem_cons_self ..))
    rw [Node.applyBlocks]
    split
    · rename_i e n' failed
      rw [failed] at after
      exact after
    · rename_i n' ok
      rw [ok] at after
      exact ih after (fun x inside => part x (List.mem_cons_of_mem _ inside))

structure Following (env : Env E) (verifySig : VerifySig) (c₀ : Chain) (q : List Block) (m done : Nat) (c : Chain) : Prop where
  grown : Grown env verifySig c₀ (q.drop m) c
  held : ∀ x ∈ q.take done, c.getByHash (x.hash env.sha) = some x
  size : c.blocks.entries.length + m ≤ c₀.blocks.entries.length + done

structure Peers (env : Env E) (verifySig : VerifySig) (setup : Setup) (c₀ peer : Chain) (p : List Block) : Prop where
  pow : setup.consensus = .pow
  sound₀ : Sound env verifySig c₀
  indexed₀ : Indexed env c₀
  grows₀ : Grows (setup.chain env) c₀
  sound : Sound env verifySig peer
  grows : Grows (setup.chain env) peer
  path : peer.Path peer.head p
  agree : Compatible c₀ peer

theorem grownAgree {c₀ peer : Chain} {p sent : List Block} (r : Peers env verifySig setup c₀ peer p)
    (g : Grown env verifySig c₀ sent c) (theirs : ∀ x ∈ sent, ∃ k, peer.getByHash k = some x) : Compatible c peer := by
  intro h x y found stored
  rcases g.only h x found with old | inside
  · exact r.agree h x y old stored
  · obtain ⟨k,known⟩ := theirs x inside
    rw [← g.sound.keyed _ _ found,r.sound.keyed _ _ known,known] at stored
    exact Option.some.inj stored

theorem branchTheirs {c₀ peer : Chain} {p : List Block} {m : Nat} (r : Peers env verifySig setup c₀ peer p) :
    ∀ x ∈ p.reverse.drop m, ∃ k, peer.getByHash k = some x := by
  intro x inside
  exact Forest.pathStored r.path x (by simpa using List.mem_of_mem_drop inside)

theorem followNext {c₀ peer : Chain} {p : List Block} {m done : Nat} (r : Peers env verifySig setup c₀ peer p)
    (f : Following env verifySig c₀ p.reverse m done n.chain) (next : p.reverse[done]? = some b) (some' : 0 < done)
    (past : m ≤ done) (room : c₀.blocks.entries.length + p.length < 2 ^ 64) :
    ∃ n', n.acceptExternalBlock env verifySig b = (.ok (),n') ∧
      Following env verifySig c₀ p.reverse m (done + 1) n'.chain := by
  have agree := grownAgree r f.grown (branchTheirs r)
  have low := (List.getElem?_eq_some_iff.mp next).1
  have taken : p.reverse.take (done + 1) = p.reverse.take done ++ [b] := by
    rw [List.take_add_one,next]
    rfl
  have suffix : b::(p.reverse.take done).reverse <:+ p := by
    rw [← List.reverse_prefix,List.reverse_cons,List.reverse_reverse,← taken]
    exact List.take_prefix ..
  have below : (p.reverse.take done).reverse ≠ [] := by
    intro none
    have sizes := congrArg List.length none
    simp only [List.length_reverse,List.length_take,List.length_nil] at sizes low
    omega
  obtain ⟨key,walk⟩ := Forest.pathSuffix r.path suffix
  have mined := linkedMined r.sound r.grows.config r.pow walk below
  obtain ⟨found,notRoot,rest⟩ := Forest.pathTail walk below
  have theirs : peer.getByHash (b.hash env.sha) = some b := by
    rw [r.sound.keyed _ _ found]
    exact found
  have inside : b ∈ p.reverse.drop m := by
    have at' : (p.reverse.drop m)[done - m]? = some b := by
      rw [List.getElem?_drop,Nat.add_sub_cancel' past]
      exact next
    exact List.mem_of_getElem? at'
  have grows := r.grows₀.trans f.grown.grows
  have mine : n.chain.Path b.header.prevHash (p.reverse.take done).reverse := by
    unfold Chain.Path
    rw [grows.config.genesisHash.trans r.grows.config.genesisHash.symm]
    refine Forest.pathSub rest (fun h x stored member => ?_)
    rw [← r.sound.keyed _ _ stored]
    exact f.held x (by simpa using member)
  have size := f.size
  rw [List.length_reverse] at low
  cases known : n.chain.getByHash (b.hash env.sha) with
  | some x =>
    cases agree _ _ _ known theirs
    refine ⟨n,acceptKnown known,f.grown,?_,by omega⟩
    intro x member
    rw [taken,List.mem_append,List.mem_singleton] at member
    rcases member with old | rfl
    · exact f.held x old
    · exact known
  | none =>
    obtain ⟨st,w,a⟩ := (powAccepts f.grown.sound.rooted grows.config r.pow mine).mpr ⟨known,mined⟩
    have added : n.chain.addBlock env verifySig b = .ok _ := addBlockOk.mpr ⟨st,w,a,rfl⟩
    have grown := grownAdd f.grown added inside
    have more := @commitSize _ env n.chain b st w a.fresh
    refine ⟨_,acceptSaved added grown.sound grown.indexed (by omega),grown,?_,?_⟩
    · intro x member
      rw [taken,List.mem_append,List.mem_singleton] at member
      rcases member with old | rfl
      · exact (commitGrows a.fresh).blocks _ _ (f.held x old)
      · exact (commitFound a.fresh _ _).mpr (.inr ⟨rfl,rfl⟩)
    · have own : (n.extend env.sha (n.chain.commit env b st w)).chain = n.chain.commit env b st w := rfl
      rw [own]
      omega

theorem followAll {c₀ peer : Chain} {p bs : List Block} {m done : Nat} (r : Peers env verifySig setup c₀ peer p)
    (f : Following env verifySig c₀ p.reverse m done n.chain) (rest : p.reverse.drop done = bs) (some' : 0 < done)
    (past : m ≤ done) (within : done ≤ p.length) (room : c₀.blocks.entries.length + p.length < 2 ^ 64) :
    ∃ n', n.applyBlocks env verifySig bs = (.ok (),n') ∧ Following env verifySig c₀ p.reverse m p.length n'.chain := by
  induction bs generalizing n done with
  | nil =>
    have all : done = p.length := by
      have size := congrArg List.length rest
      rw [List.length_drop,List.length_reverse,List.length_nil] at size
      omega
    rw [all] at f
    exact ⟨n,rfl,f⟩
  | cons b bs ih =>
    have next : p.reverse[done]? = some b := by
      rw [← List.head?_drop,rest]
      rfl
    have low := (List.getElem?_eq_some_iff.mp next).1
    rw [List.length_reverse] at low
    obtain ⟨n',accepted,f'⟩ := followNext r f next some' past room
    obtain ⟨last,applied,followed⟩ := ih f' (by rw [← List.tail_drop,rest]; rfl) (by omega) (by omega) (by omega)
    refine ⟨last,?_,followed⟩
    simp only [Node.applyBlocks,accepted]
    exact applied

theorem followedHead {c₀ peer : Chain} {p : List Block} {m : Nat} (r : Peers env verifySig setup c₀ peer p)
    (f : Following env verifySig c₀ p.reverse m p.length c) (heavier : c₀.td c₀.head < peer.td peer.head) :
    c.head = peer.head := by
  have grows := r.grows₀.trans f.grown.grows
  have sound := f.grown.sound
  have all : p.reverse.take p.length = p.reverse := List.take_of_length_le (by rw [List.length_reverse])
  have path : c.Path peer.head p := by
    unfold Chain.Path
    rw [grows.config.genesisHash.trans r.grows.config.genesisHash.symm]
    refine Forest.pathSub r.path (fun h x stored member => ?_)
    rw [← r.sound.keyed _ _ stored]
    refine f.held x ?_
    rw [all]
    simpa using member
  obtain ⟨x,_,_,tip⟩ := Forest.pathHead path
  obtain ⟨y,found⟩ := sound.headStored
  rcases f.grown.only _ _ found with old | inside
  · have heaviest := sound.heaviest _ _ tip
    rw [powTd sound grows r.pow path,← powTd r.sound r.grows r.pow r.path,f.grown.grows.weights _ _ old] at heaviest
    have light := r.sound₀.heaviest _ _ old
    exact absurd (UInt64.lt_of_le_of_lt light heavier) (UInt64.not_lt.mpr heaviest)
  · exact leadsHead sound grows r.pow path (headLeads r.sound r.grows r.pow r.path) found
      (by simpa using List.mem_of_mem_drop inside)

theorem takeDropApart {p : List Block} {k : Hash} {m : Nat} {x : Block} (s : Sound env verifySig c) (path : c.Path k p)
    (small : p.length ≤ 2 ^ 64) (early : x ∈ p.reverse.take m) (late : x ∈ p.reverse.drop m) : False := by
  have once := levelsOnce (by rw [List.length_reverse]; exact small) (pathLevels s path)
  rw [← List.take_append_drop m p.reverse,List.pairwise_append] at once
  exact once.2.2 x early x late rfl

theorem grownNeeds {c₀ peer : Chain} {p : List Block} {m : Nat} (r : Peers env verifySig setup c₀ peer p)
    (g : Grown env verifySig c₀ (p.reverse.drop m) c) (small : p.length ≤ 2 ^ 64) (head : c.head = peer.head) :
    ∀ x ∈ p.reverse.take m, c₀.getByHash (x.hash env.sha) = some x := by
  intro x early
  have agree := grownAgree r g (branchTheirs r)
  have genesis : peer.genesisHash = c.genesisHash :=
    r.grows.config.genesisHash.trans (r.grows₀.trans g.grows).config.genesisHash.symm
  obtain ⟨y,found⟩ := g.sound.headStored
  obtain ⟨q,own,_⟩ := g.sound.rooted _ _ found
  rw [head] at own
  cases compatiblePath agree genesis own r.path
  obtain ⟨k,stored⟩ := Forest.pathStored own x (by simpa using List.mem_of_mem_take early)
  rw [g.sound.keyed _ _ stored]
  rcases g.only _ _ stored with old | late
  · exact old
  · exact (takeDropApart r.sound r.path small early late).elim

theorem knownPrefix {c₀ peer : Chain} {p : List Block} {m : Nat} (r : Peers env verifySig setup c₀ peer p)
    (indexed : Indexed env peer) (small : p.length ≤ 2 ^ 64) (within : m < p.length) :
    (∃ b, peer.getByHeight (UInt64.ofNat m) = some b ∧ c₀.getByHash (b.hash env.sha) = some b) ↔
      ∀ x ∈ p.reverse.take (m + 1), c₀.getByHash (x.hash env.sha) = some x := by
  obtain ⟨b,at'⟩ : ∃ b, p.reverse[m]? = some b := by
    refine ⟨_,List.getElem?_eq_getElem ?_⟩
    rw [List.length_reverse]
    exact within
  have level := getByHeightPath r.sound indexed r.path small at'
  have taken : p.reverse.take (m + 1) = p.reverse.take m ++ [b] := by
    rw [List.take_add_one,at']
    rfl
  constructor
  · rintro ⟨x,found,known⟩
    cases Option.some.inj (level.symm.trans found)
    have suffix : b::(p.reverse.take m).reverse <:+ p := by
      rw [← List.reverse_prefix,List.reverse_cons,List.reverse_reverse,← taken]
      exact List.take_prefix ..
    obtain ⟨_,_,same,theirs⟩ := suffixPath r.sound r.path suffix (by simp)
    cases same
    obtain ⟨q,mine,_⟩ := r.sound₀.rooted _ _ known
    cases compatiblePath r.agree (r.grows.config.genesisHash.trans r.grows₀.config.genesisHash.symm) mine theirs
    intro x inside
    rw [taken] at inside
    obtain ⟨k,stored⟩ := Forest.pathStored mine x (by simpa [or_comm] using inside)
    rw [r.sound₀.keyed _ _ stored]
    exact stored
  · intro held
    exact ⟨b,level,held b (by rw [taken]; simp)⟩

def Attached (env : Env E) (n peer : Node) : Prop :=
  n.chain.headD.header.height < peer.chain.headD.header.height ∧
    ∃ b, peer.chain.getByHeight n.chain.headD.header.height = some b ∧ n.chain.getByHash (b.hash env.sha) = some b

structure Syncing (env : Env E) (verifySig : VerifySig) (setup : Setup) (n peer : Node) (p : List Block) (m : Nat) : Prop where
  peers : Peers env verifySig setup n.chain peer.chain p
  indexed : Indexed env peer.chain
  own : n.chain.headD.header.height = UInt64.ofNat m
  theirs : peer.chain.headD.header.height.toNat + 1 = p.length
  small : m < 2 ^ 63
  room : n.chain.blocks.entries.length + p.length < 2 ^ 64
  heavier : n.chain.td n.chain.head < peer.chain.td peer.chain.head
  asks : n.resync env verifySig peer = n.applyBlocks env verifySig (p.reverse.drop (m + 1))

variable {peer : Node} {p : List Block} {m : Nat}

theorem syncAttached (s : Syncing env verifySig setup n peer p m) :
    Attached env n peer ↔ m + 1 < p.length ∧ ∀ x ∈ p.reverse.take (m + 1), n.chain.getByHash (x.hash env.sha) = some x := by
  have room := s.room
  have theirs := s.theirs
  have higher : n.chain.headD.header.height < peer.chain.headD.header.height ↔ m + 1 < p.length := by
    rw [UInt64.lt_iff_toNat_lt,s.own,UInt64.toNat_ofNat',Nat.mod_eq_of_lt (Nat.lt_of_lt_of_le s.small (by omega))]
    omega
  rw [Attached,higher,s.own]
  refine and_congr_right (fun above => ?_)
  exact knownPrefix s.peers s.indexed (by omega) (by omega)

theorem syncStart (s : Syncing env verifySig setup n peer p m) :
    Grown env verifySig n.chain (p.reverse.drop (m + 1)) n.chain :=
  ⟨s.peers.sound₀,s.peers.indexed₀,Grows.refl _,fun _ _ found => .inl found⟩

theorem attachedFollows (s : Syncing env verifySig setup n peer p m) (attached : Attached env n peer) :
    ∃ n', n.resync env verifySig peer = (.ok (),n') ∧ Following env verifySig n.chain p.reverse (m + 1) p.length n'.chain := by
  obtain ⟨above,held⟩ := (syncAttached s).mp attached
  rw [s.asks]
  exact followAll s.peers ⟨syncStart s,held,Nat.le_refl _⟩ rfl (Nat.succ_pos m) (Nat.le_refl _) (Nat.le_of_lt above) s.room

theorem grownAttached (s : Syncing env verifySig setup n peer p m)
    (g : Grown env verifySig n.chain (p.reverse.drop (m + 1)) c) (head : c.head = peer.chain.head) : Attached env n peer := by
  have r := s.peers
  have room := s.room
  refine (syncAttached s).mpr ⟨?_,grownNeeds r g (by omega) head⟩
  by_contra low
  have none : p.reverse.drop (m + 1) = [] := List.drop_eq_nil_of_le (by rw [List.length_reverse]; omega)
  obtain ⟨y,found⟩ := g.sound.headStored
  rw [head] at found
  have old : n.chain.getByHash peer.chain.head = some y := by
    rcases g.only _ _ found with old | new
    · exact old
    · rw [none] at new
      contradiction
  obtain ⟨q,mine,_⟩ := r.sound₀.rooted _ _ old
  cases compatiblePath r.agree (r.grows.config.genesisHash.trans r.grows₀.config.genesisHash.symm) mine r.path
  have light := r.sound₀.heaviest _ _ old
  rw [powTd r.sound₀ r.grows₀ r.pow mine,← powTd r.sound r.grows r.pow r.path] at light
  exact absurd s.heavier (UInt64.not_lt.mpr light)

theorem resyncHead (s : Syncing env verifySig setup n peer p m) :
    (n.resync env verifySig peer).2.chain.head = peer.chain.head ↔ Attached env n peer := by
  constructor
  · intro head
    rw [s.asks] at head
    exact grownAttached s (applyGrown (syncStart s) (fun _ inside => inside)) head
  · intro attached
    obtain ⟨n',synced,followed⟩ := attachedFollows s attached
    rw [synced]
    exact followedHead s.peers followed s.heavier

theorem retryHead {n' : Node} (s : Syncing env verifySig setup n peer p m)
    (g : Grown env verifySig n.chain (p.reverse.drop (m + 1)) n'.chain) (head : n'.chain.head = peer.chain.head)
    (known : peer.chain.getByHash (b.hash env.sha) = some b) :
    (n'.acceptExternalBlock env verifySig b).2.chain.head = peer.chain.head := by
  have r := s.peers
  rcases acceptCases env verifySig n' b with same | ⟨c',added,same⟩
  · rw [same]
    exact head
  · have own : (n'.extend env.sha c').chain = c' := rfl
    rw [same,own]
    have after := grownAdd (grownMono g (List.subset_cons_self b _)) added (List.mem_cons_self ..)
    have agree := grownAgree r after (by
      intro x inside
      rcases List.mem_cons.mp inside with rfl | sent
      · exact ⟨_,known⟩
      · exact branchTheirs r x sent)
    obtain ⟨st,w,a,rfl⟩ := addBlockOk.mp added
    rw [Chain.commitHead]
    refine (if_neg (fun heavier => ?_)).trans head
    have more := (outweighsIff g.sound.headStored a.fresh).mp heavier
    have grows := r.grows₀.trans after.grows
    have stored := (@commitFound _ env n'.chain b st w a.fresh _ _).mpr (.inr ⟨rfl,rfl⟩)
    obtain ⟨q,mine,_⟩ := after.sound.rooted _ _ stored
    obtain ⟨q',theirs,_⟩ := r.sound.rooted _ _ known
    cases compatiblePath agree (r.grows.config.genesisHash.trans grows.config.genesisHash.symm) mine theirs
    have light := r.sound.heaviest _ _ known
    have weight : (n'.chain.commit env b st w).td (b.hash env.sha) = n'.chain.td b.header.prevHash + w := by
      rw [Chain.commitTd]
      exact if_pos rfl
    obtain ⟨y,tip⟩ := g.sound.headStored
    obtain ⟨q₁,path,_⟩ := g.sound.rooted _ _ tip
    rw [head] at path
    cases compatiblePath (grownAgree r g (branchTheirs r))
      (r.grows.config.genesisHash.trans (r.grows₀.trans g.grows).config.genesisHash.symm) path r.path
    rw [← weight,powTd after.sound grows r.pow mine,head,powTd g.sound (r.grows₀.trans g.grows) r.pow path] at more
    rw [powTd r.sound r.grows r.pow theirs,powTd r.sound r.grows r.pow r.path] at light
    exact absurd more (UInt64.not_lt.mpr light)

theorem gapNode (refused : (n.acceptExternalBlock env verifySig b).1 = .error (.chain .unknownParent)) :
    n.acceptExternalBlock env verifySig b = (.error (.chain .unknownParent),n) ∧
      n.chain.addBlock env verifySig b = .error .unknownParent := by
  cases added : n.chain.addBlock env verifySig b with
  | error e =>
    simp only [Node.acceptExternalBlock,added] at refused ⊢
    split at refused
    · contradiction
    · rename_i other
      injection refused with same
      injection same with cause
      rw [if_neg other,cause]
      exact ⟨rfl,rfl⟩
  | ok c' =>
    simp only [Node.acceptExternalBlock,added,Node.saveChain] at refused
    split at refused
    · cases refused
    · split at refused
      · injection refused with same
        cases same
      · cases refused

theorem gapHead (s : Syncing env verifySig setup n peer p m)
    (refused : (n.acceptExternalBlock env verifySig b).1 = .error (.chain .unknownParent))
    (known : peer.chain.getByHash (b.hash env.sha) = some b) :
    (n.handleBlock env verifySig peer b).chain.head = peer.chain.head ↔ Attached env n peer := by
  obtain ⟨gap,unknown⟩ := gapNode refused
  have grown : Grown env verifySig n.chain (p.reverse.drop (m + 1)) (n.resync env verifySig peer).2.chain := by
    rw [s.asks]
    exact applyGrown (syncStart s) (fun _ inside => inside)
  constructor
  · intro head
    simp only [Node.handleBlock,gap] at head
    rcases synced : n.resync env verifySig peer with ⟨(e | _),n'⟩
    · simp only [synced] at head grown
      exact grownAttached s grown head
    · simp only [synced] at head grown
      rcases acceptCases env verifySig n' b with same | ⟨c',added,same⟩
      · rw [same] at head
        exact grownAttached s grown head
      · have own : (n'.extend env.sha c').chain = c' := rfl
        rw [same,own] at head
        by_cases above : m + 1 < p.length
        · by_cases moved : c'.head = n'.chain.head
          · exact grownAttached s grown (moved.symm.trans head)
          · -- the retried block became the head, so it is the peer's and was among those asked for
            obtain ⟨st,w,a,rfl⟩ := addBlockOk.mp added
            have tip : b.hash env.sha = peer.chain.head := by
              rw [Chain.commitHead] at moved head
              split at moved
              · rename_i heavier
                rw [if_pos heavier] at head
                exact head
              · exact absurd rfl moved
            obtain ⟨x,older,shape,found⟩ := Forest.pathHead s.peers.path
            rw [tip,found] at known
            cases Option.some.inj known
            have inside : b ∈ p.reverse.drop (m + 1) := by
              rw [shape,List.reverse_cons,List.drop_append_of_le_length]
              · simp
              · rw [shape,List.length_cons] at above
                rw [List.length_reverse]
                omega
            exact grownAttached s (grownAdd grown added inside) head
        · have none : p.reverse.drop (m + 1) = [] := List.drop_eq_nil_of_le (by rw [List.length_reverse]; omega)
          rw [s.asks,none] at synced
          cases synced
          rw [unknown] at added
          contradiction
  · intro attached
    obtain ⟨n',synced,followed⟩ := attachedFollows s attached
    simp only [Node.handleBlock,gap,synced]
    rw [synced] at grown
    exact retryHead s grown (followedHead s.peers followed s.heavier) known

theorem syncing (pow : setup.consensus = .pow) {bs bs' : List Block}
    (mine : n.chain = (setup.chain env).feed env verifySig bs) (theirs : peer.chain = (setup.chain env).feed env verifySig bs')
    (agree : Compatible n.chain peer.chain) (fits : n.chain.FitsMap) (fits' : peer.chain.FitsMap)
    (heavier : n.chain.td n.chain.head < peer.chain.td peer.chain.head)
    (near : peer.chain.headD.header.height.toNat < n.chain.headD.header.height.toNat + 1024) :
    ∃ p, Syncing env verifySig setup n peer p n.chain.headD.header.height.toNat := by
  have reached : ∀ bs, Sound env verifySig ((setup.chain env).feed env verifySig bs) ∧
      Indexed env ((setup.chain env).feed env verifySig bs) ∧ Grows (setup.chain env) ((setup.chain env).feed env verifySig bs) :=
    fun bs => ⟨reachedSound setup bs,(feedGrown (setupSound setup) (setupIndexed setup)).indexed,feedGrows env verifySig _ bs⟩
  obtain ⟨sound₀,indexed₀,grows₀⟩ := reached bs
  obtain ⟨sound,indexed,grows⟩ := reached bs'
  rw [← mine] at sound₀ indexed₀ grows₀
  rw [← theirs] at sound indexed grows
  obtain ⟨x,found⟩ := sound.headStored
  obtain ⟨p,path,_⟩ := sound.rooted _ _ found
  obtain ⟨x₀,found₀⟩ := sound₀.headStored
  obtain ⟨p₀,path₀,_⟩ := sound₀.rooted _ _ found₀
  have own := headHeight sound₀ fits path₀
  have high := headHeight sound fits' path
  have short₀ := pathFits sound₀ fits path₀
  have short := pathFits sound fits' path
  have count : n.chain.blocks.entries.length < 2 ^ 63 := fits
  have height : n.chain.headD.header.height = UInt64.ofNat n.chain.headD.header.height.toNat := (UInt64.ofNat_toNat).symm
  have asks : n.resync env verifySig peer =
      n.applyBlocks env verifySig (p.reverse.drop (n.chain.headD.header.height.toNat + 1)) := by
    rw [Node.resync,Node.syncFrom,height,ofNatSucc,canonicalFrom sound indexed fits' path (by omega),UInt64.ofNat_toNat,
      List.take_of_length_le]
    rw [List.length_drop,List.length_reverse,Node.maxBlocksPerSync]
    omega
  exact ⟨p,⟨pow,sound₀,indexed₀,grows₀,sound,grows,path,agree⟩,indexed,height,high,by omega,by omega,heavier,asks⟩

/- One sync, asked for explicitly or over a gap, reaches the head of a heavier peer
exactly when the peer is higher and its branch is known up to the local height. -/
theorem syncConverges (pow : setup.consensus = .pow) {bs bs' : List Block}
    (mine : n.chain = (setup.chain env).feed env verifySig bs) (theirs : peer.chain = (setup.chain env).feed env verifySig bs')
    (agree : Compatible n.chain peer.chain) (fits : n.chain.FitsMap) (fits' : peer.chain.FitsMap)
    (heavier : n.chain.td n.chain.head < peer.chain.td peer.chain.head)
    (near : peer.chain.headD.header.height.toNat < n.chain.headD.header.height.toNat + 1024) :
    ((n.resync env verifySig peer).2.chain.head = peer.chain.head ↔ Attached env n peer) ∧
    (∀ b, (n.acceptExternalBlock env verifySig b).1 = .error (.chain .unknownParent) →
      peer.chain.getByHash (b.hash env.sha) = some b →
      ((n.handleBlock env verifySig peer b).chain.head = peer.chain.head ↔ Attached env n peer)) := by
  obtain ⟨p,s⟩ := syncing pow mine theirs agree fits fits' heavier near
  exact ⟨resyncHead s,fun b refused known => gapHead s refused known⟩

end

namespace Devnet

def racer (c : Chain) : Node := Node.withChain (soloConfig 0) c none none (soloConfig 0).genesisAlloc ∅

theorem growsCompatible {c d : Chain} (grows : Grows c d) : Compatible c d := by
  intro h x y mine theirs
  rw [grows.blocks _ _ mine] at theirs
  exact Option.some.inj theirs

theorem forkHeads {c₁ c₂ : Chain} (f : Forked c₁ c₂) : c₁.headD = leftBlock ∧ c₂.headD = rightTip := by
  obtain ⟨x,_,one,found₁⟩ := Forest.pathHead f.left.2
  obtain ⟨y,_,two,found₂⟩ := Forest.pathHead f.right.2
  cases one
  cases two
  simp [Chain.headD,Chain.headBlock,f.left.1,f.right.1,found₁,found₂]

theorem forkWeights {c₁ c₂ : Chain} (f : Forked c₁ c₂) : c₁.td c₁.head = 2 ∧ c₂.td c₂.head = 3 := by
  rw [f.left.1,f.right.1,powTd f.before.sound f.before.grows rfl f.left.2,powTd f.after.sound f.after.grows rfl f.right.2]
  exact ⟨rfl,rfl⟩

theorem forkFits {c₁ c₂ : Chain} (f : Forked c₁ c₂) : c₁.FitsMap := Nat.lt_of_le_of_lt f.grows.size f.fits

/- The local node holds the left block, the peer two blocks on the right. The block it
asks for has a parent it never asks for. -/
theorem forkNeverSynced : ∃ n peer : Node,
    n.chain = ((soloSetup 0).chain env).feed env acceptNonEmptySig [leftBlock] ∧
    peer.chain = ((soloSetup 0).chain env).feed env acceptNonEmptySig [leftBlock,rightBlock,rightTip] ∧
    Compatible n.chain peer.chain ∧ n.chain.td n.chain.head < peer.chain.td peer.chain.head ∧
    peer.chain.headD.header.height.toNat < n.chain.headD.header.height.toNat + 1024 ∧
    (n.resync env acceptNonEmptySig peer).2.chain.head ≠ peer.chain.head := by
  obtain ⟨c₁,c₂,f⟩ := raceForks
  obtain ⟨left,right⟩ := forkHeads f
  obtain ⟨light,heavy⟩ := forkWeights f
  have mine : (racer c₁).chain = c₁ := rfl
  have theirs : (racer c₂).chain = c₂ := rfl
  have heavier : (racer c₁).chain.td (racer c₁).chain.head < (racer c₂).chain.td (racer c₂).chain.head := by
    rw [mine,theirs,light,heavy]
    decide
  have near : (racer c₂).chain.headD.header.height.toNat < (racer c₁).chain.headD.header.height.toNat + 1024 := by
    rw [mine,theirs,left,right]
    decide
  have agree : Compatible (racer c₁).chain (racer c₂).chain := growsCompatible f.grows
  refine ⟨racer c₁,racer c₂,f.fed.1,f.fed.2,agree,heavier,near,fun head => ?_⟩
  obtain ⟨p,s⟩ := syncing rfl f.fed.1 f.fed.2 agree (forkFits f) f.fits heavier near
  obtain ⟨_,b,found,known⟩ := (resyncHead s).mp head
  rw [mine] at known found
  rw [theirs,left] at found
  obtain ⟨sound,indexed,_⟩ := extendedSetup f.after.reached
  have path : c₂.Path c₂.head [rightTip,rightBlock,genesisBlock] := by rw [f.right.1]; exact f.right.2
  have level : c₂.getByHeight (UInt64.ofNat 1) = some rightBlock := getByHeightPath sound indexed path (by decide) rfl
  cases Option.some.inj (level.symm.trans found)
  have hash : rightBlock.hash env.sha = hashAt 1 2 := racedHash (by decide) _ 2
  rw [hash,f.unknown] at known
  contradiction

theorem lateNodeSynced : ∃ n peer : Node, n.chain = (soloSetup 0).chain env ∧
    peer.chain = ((soloSetup 0).chain env).feed env acceptNonEmptySig [leftBlock] ∧
    (n.resync env acceptNonEmptySig peer).2.chain.head = peer.chain.head := by
  obtain ⟨c₁,c₂,f⟩ := raceForks
  have mine : (racer ((soloSetup 0).chain env)).chain = (soloSetup 0).chain env := rfl
  have theirs : (racer c₁).chain = c₁ := rfl
  have root : ((soloSetup 0).chain env).headD = genesisBlock := setupHead env _
  refine ⟨racer ((soloSetup 0).chain env),racer c₁,mine,f.fed.1,?_⟩
  have fed : (racer ((soloSetup 0).chain env)).chain = ((soloSetup 0).chain env).feed env acceptNonEmptySig [] := rfl
  have fed' : (racer c₁).chain = ((soloSetup 0).chain env).feed env acceptNonEmptySig [leftBlock] := f.fed.1
  have agree : Compatible (racer ((soloSetup 0).chain env)).chain (racer c₁).chain := growsCompatible f.before.grows
  refine (syncConverges rfl fed fed' agree (show 1 < 2 ^ 63 by decide) (forkFits f)
    ?_ ?_).1.mpr ⟨?_,genesisBlock,?_,?_⟩
  · rw [mine,theirs,genesisTd,(forkWeights f).1]
    decide
  · rw [mine,theirs,root,(forkHeads f).1]
    decide
  · rw [mine,theirs,root,(forkHeads f).1]
    decide
  · rw [mine,theirs,root]
    obtain ⟨sound,indexed,_⟩ := extendedSetup f.before.reached
    have path : c₁.Path c₁.head [leftBlock,genesisBlock] := by rw [f.left.1]; exact f.left.2
    exact getByHeightPath sound indexed path (by decide) rfl
  · rw [mine,setupFound,if_pos]
    rfl
    rfl

end Devnet
end L1Chain
