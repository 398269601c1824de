import L1Chain.Network
import L1Chain.DeliveryOrder

/-! Whole runs of a network. Whatever is delivered, forged, repeated, reordered or lost, a
host's chain is only ever fed through AddBlock, so it keeps every block and its head never
gets lighter; hosts that share a block share its history; a catch-up from a host whose
branch is known locally goes through whatever else happens meanwhile; and hosts that hear
each other's blocks end up with the same ones. -/
namespace L1Chain.P2P
open Transition Runs

section
variable {P E : Type} [DecidableEq P] {env : Env E} {verifySig : VerifySig} {s start : Net P} {i j : P} {h h' : Host P}
  {k : Fin maxConcurrentSyncs} {setup : Setup} {c d : Chain} {es es' : List (Event P)} {b : Block}

/- Hosts of one network: each has got where it is by AddBlock calls on the common setup. -/
def Net.Started (env : Env E) (verifySig : VerifySig) (setup : Setup) (s : Net P) : Prop :=
  ∀ i h, s i = some h → ∃ bs, h.node.chain = (setup.chain env).feed env verifySig bs

theorem feedAppend (c : Chain) (xs ys : List Block) :
    c.feed env verifySig (xs ++ ys) = (c.feed env verifySig xs).feed env verifySig ys := List.foldl_append

theorem runStarted (started : start.Started env verifySig setup) (es : List (Event P)) :
    (start.run env verifySig es).Started env verifySig setup := by
  intro i h' found
  cases was : start i with
  | none =>
    rw [runNone env verifySig was es] at found
    cases found
  | some h =>
    obtain ⟨bs,fed⟩ := started i h was
    obtain ⟨h₁,more,ran,grown⟩ := runFeeds env verifySig was es
    obtain rfl := Option.some.inj (ran.symm.trans found)
    exact ⟨bs ++ more,by rw [grown,fed,feedAppend]⟩

omit [DecidableEq P] in
theorem startedGrown (started : s.Started env verifySig setup) (found : s i = some h) :
    ∃ bs, Grown env verifySig (setup.chain env) bs h.node.chain := by
  obtain ⟨bs,fed⟩ := started i h found
  refine ⟨bs,?_⟩
  rw [fed]
  exact feedGrown (setupSound setup) (setupIndexed setup)

theorem runAppend (s : Net P) (es es' : List (Event P)) :
    s.run env verifySig (es ++ es') = (s.run env verifySig es).run env verifySig es' := List.foldl_append

theorem runLater (found : start.run env verifySig (es ++ es') i = some h') :
    ∃ h bs, start.run env verifySig es i = some h ∧ h'.node.chain = h.node.chain.feed env verifySig bs := by
  rw [runAppend] at found
  cases was : start.run env verifySig es i with
  | none =>
    rw [runNone env verifySig was es'] at found
    cases found
  | some h =>
    obtain ⟨h₁,bs,ran,fed⟩ := runFeeds env verifySig was es'
    obtain rfl := Option.some.inj (ran.symm.trans found)
    exact ⟨h,bs,rfl,fed⟩

/- Whatever happens in a network, each of its hosts runs AddBlock and nothing else on its
chain: between two moments it is fed further blocks, keeps the ones it has at the weights
they have, and its head never gets lighter. -/
theorem hostsOnlyGrow (started : start.Started env verifySig setup)
    (found : start.run env verifySig (es ++ es') i = some h') :
    ∃ h bs bs', start.run env verifySig es i = some h ∧
      h.node.chain = (setup.chain env).feed env verifySig bs ∧
      h'.node.chain = (setup.chain env).feed env verifySig (bs ++ bs') ∧
      (∀ k x, h.node.chain.getByHash k = some x →
        h'.node.chain.getByHash k = some x ∧ h'.node.chain.td k = h.node.chain.td k) ∧
      h.node.chain.td h.node.chain.head ≤ h'.node.chain.td h'.node.chain.head := by
  obtain ⟨h,bs',was,fed'⟩ := runLater found
  obtain ⟨bs,fed⟩ := runStarted started es i h was
  obtain ⟨_,before⟩ := startedGrown (runStarted started es) was
  obtain ⟨_,after⟩ := startedGrown (runStarted started (es ++ es')) found
  have grows : Grows h.node.chain h'.node.chain := by
    rw [fed']
    exact feedGrows env verifySig _ bs'
  obtain ⟨x,head⟩ := before.sound.headStored
  refine ⟨h,bs,bs',was,fed,?_,fun k x known => ⟨grows.blocks k x known,grows.weights k x known⟩,?_⟩
  · rw [feedAppend,← fed]
    exact fed'
  · rw [← grows.weights _ _ head]
    exact after.sound.heaviest _ _ (grows.blocks _ _ head)

theorem compatibleGrows {c' d' : Chain} (agree : Compatible c' d') (grows : Grows c c') (grows' : Grows d d') :
    Compatible c d := fun k x y mine theirs => agree k x y (grows.blocks k x mine) (grows'.blocks k y theirs)

section
variable {xs ys : List Block} (g : Grown env verifySig (setup.chain env) xs c) (g' : Grown env verifySig (setup.chain env) ys d)
include g g'

theorem sharedGenesis : d.genesisHash = c.genesisHash := g'.grows.config.genesisHash.trans g.grows.config.genesisHash.symm

theorem sharedPath {q : Hash} {x y : Block} (agree : Compatible c d) (mine : c.getByHash q = some x) (theirs : d.getByHash q = some y) :
    ∃ p, c.Path q p ∧ d.Path q p := by
  obtain ⟨p,walk,_⟩ := g.sound.rooted _ _ mine
  obtain ⟨p',walk',_⟩ := g'.sound.rooted _ _ theirs
  obtain rfl := compatiblePath agree (sharedGenesis g g') walk walk'
  exact ⟨p,walk,walk'⟩

theorem sharedTd {q : Hash} {p : List Block} (mine : c.Path q p) (theirs : d.Path q p) : c.td q = d.td q := by
  induction mine with
  | root found =>
    have stored := setupRoot env setup
    rw [g.grows.config.genesisHash,g.grows.weights _ _ stored,g'.grows.weights _ _ stored]
  | @step q x p found below rest ih =>
    obtain ⟨found',below',rest'⟩ := Forest.pathTail theirs (by
      obtain ⟨_,_,shape,_⟩ := Forest.pathHead rest
      rw [shape]
      exact List.cons_ne_nil _ _)
    have weight := (g.sound.linked _ _ found below).weight
    have weight' := (g'.sound.linked _ _ found' below').weight
    rw [g.sound.keyed _ _ found] at weight
    rw [g'.sound.keyed _ _ found'] at weight'
    have parents : c.td x.header.prevHash = d.td x.header.prevHash := ih rest'
    rw [weight,weight',parents,g.grows.config.consensus,g'.grows.config.consensus]

end

/- Two hosts that hold a block, at any two moments of a run and in either consensus mode,
hold the same ancestors of it, weigh it the same and derive the same state at it. -/
theorem sharedBlocksAgree (started : start.Started env verifySig setup) (found : start.run env verifySig es i = some h)
    (found' : start.run env verifySig (es ++ es') j = some h') (agree : Compatible h.node.chain h'.node.chain)
    {q : Hash} {x y : Block} (mine : h.node.chain.getByHash q = some x) (theirs : h'.node.chain.getByHash q = some y) :
    (∃ p, h.node.chain.ancestry q = some p ∧ h'.node.chain.ancestry q = some p) ∧
    h.node.chain.td q = h'.node.chain.td q ∧
    h.node.chain.deriveState env verifySig q = h'.node.chain.deriveState env verifySig q := by
  obtain ⟨_,g⟩ := startedGrown (runStarted started es) found
  obtain ⟨_,g'⟩ := startedGrown (runStarted started (es ++ es')) found'
  obtain ⟨p,walk,walk'⟩ := sharedPath g g' agree mine theirs
  refine ⟨⟨p,(ancestryPath g.sound.rooted).mpr walk,(ancestryPath g'.sound.rooted).mpr walk'⟩,sharedTd g g' walk walk',?_⟩
  rw [setupDerive g.sound.rooted g.grows.config walk,setupDerive g'.sound.rooted g'.grows.config walk']

theorem pathSingle {q : Hash} (walk : d.Path q [b]) : q = d.genesisHash := by
  cases walk with
  | root found => rfl
  | step _ _ rest =>
    obtain ⟨_,_,shape,_⟩ := Forest.pathHead rest
    cases shape

theorem nextTaken {xs ys older : List Block} {n : Node} (g : Grown env verifySig (setup.chain env) xs n.chain)
    (g' : Grown env verifySig (setup.chain env) ys d) (pow : setup.consensus = .pow) (agree : Compatible n.chain d)
    (walk : d.Path (b.hash env.sha) (b::older)) (parent : older ≠ [] → (n.chain.getByHash b.header.prevHash).isSome)
    (small : (n.acceptExternalBlock env verifySig b).2.chain.blocks.entries.length ≤ 2 ^ 64) :
    ∃ n', n.acceptExternalBlock env verifySig b = (.ok (),n') ∧ n'.chain.getByHash (b.hash env.sha) = some b := by
  obtain ⟨_,_,shape,theirs⟩ := Forest.pathHead walk
  cases shape
  cases known : n.chain.getByHash (b.hash env.sha) with
  | some x =>
    obtain rfl := agree _ _ _ known theirs
    exact ⟨n,acceptKnown known,known⟩
  | none =>
    have deep : older ≠ [] := by
      rintro rfl
      have stored := g.grows.blocks _ _ (setupRoot env setup)
      rw [pathSingle walk,g'.grows.config.genesisHash,stored] at known
      cases known
    obtain ⟨y,mine⟩ := Option.isSome_iff_exists.mp (parent deep)
    obtain ⟨found,below,rest⟩ := Forest.pathTail walk deep
    obtain ⟨x,q,shape,stored⟩ := Forest.pathHead rest
    obtain ⟨p,own,theirs'⟩ := sharedPath g g' agree mine stored
    obtain rfl := Forest.pathUnique rest theirs'
    have mined := linkedMined g'.sound g'.grows.config pow walk deep
    obtain ⟨st,w,a⟩ := (powAccepts g.sound.rooted g.grows.config pow own).mpr ⟨known,mined⟩
    have added : n.chain.addBlock env verifySig b = .ok _ := addBlockOk.mpr ⟨st,w,a,rfl⟩
    have node := acceptNode added
    rw [node] at small
    exact ⟨_,acceptSaved added (commitSound g.sound a) (commitIndexed g.sound g.indexed a) small,
      (commitFound a.fresh _ _).mpr (.inr ⟨rfl,rfl⟩)⟩

theorem answerAt {xs p : List Block} {n : Node} {first : UInt64} {m : Nat} (g : Grown env verifySig (setup.chain env) xs n.chain)
    (fits : n.chain.FitsMap) (path : n.chain.Path n.chain.head p)
    (at' : ((n.canonicalBlocksFrom first).take Node.maxBlocksPerSync)[m]? = some b) :
    ∃ older, n.chain.Path (b.hash env.sha) (b::older) ∧
      ∀ m', m = m' + 1 → ∃ a, ((n.canonicalBlocksFrom first).take Node.maxBlocksPerSync)[m']? = some a ∧
        b.header.prevHash = a.hash env.sha := by
  have answer : n.canonicalBlocksFrom first = p.reverse.drop first.toNat := by
    have listed := canonicalFrom g.sound g.indexed fits path first.toNat_lt
    rwa [UInt64.ofNat_toNat] at listed
  rw [answer] at at' ⊢
  rw [List.getElem?_take] at at'
  split at at'
  · rename_i room
    rw [List.getElem?_drop] at at'
    have taken : p.reverse.take (first.toNat + m + 1) = p.reverse.take (first.toNat + m) ++ [b] := by
      rw [List.take_add_one,at']
      rfl
    have suffix : b::(p.reverse.take (first.toNat + m)).reverse <:+ p := by
      rw [← List.reverse_prefix,List.reverse_cons,List.reverse_reverse,← taken]
      exact List.take_prefix ..
    obtain ⟨_,_,shape,walk⟩ := suffixPath g.sound path suffix (by simp)
    cases shape
    refine ⟨_,walk,fun m' next => ?_⟩
    subst next
    have before : (first.toNat + m') < p.reverse.length := by
      have := (List.getElem?_eq_some_iff.mp at').1
      omega
    refine ⟨p.reverse[first.toNat + m'],?_,?_⟩
    · rw [List.getElem?_take,if_pos (by omega),List.getElem?_drop]
      exact List.getElem?_eq_getElem before
    · have deep : (p.reverse.take (first.toNat + (m' + 1))).reverse ≠ [] := by
        intro none'
        have size := congrArg List.length none'
        simp only [List.length_reverse,List.length_take,List.length_nil] at size before
        omega
      obtain ⟨_,_,rest⟩ := Forest.pathTail walk deep
      obtain ⟨x,q,shape,stored⟩ := Forest.pathHead rest
      have last : (p.reverse.take (first.toNat + (m' + 1))).reverse = p.reverse[first.toNat + m']::(p.reverse.take (first.toNat + m')).reverse := by
        rw [← Nat.add_assoc,List.take_add_one,List.getElem?_eq_getElem before]
        simp
      rw [last] at shape
      cases shape
      exact (g.sound.keyed _ _ stored).symm
  · cases at'

def Event.reads (i : P) (k : Fin maxConcurrentSyncs) : Event P → Bool
  | .read a l => a = i ∧ l = k
  | _ => false

structure Catching (env : Env E) (answer : List Block) (j : P) (gap : Block) (k : Fin maxConcurrentSyncs) (n : Nat) (h : Host P) :
    Prop where
  slot : h.syncSem k = some ⟨j,gap,.reading (answer.drop n)⟩
  held : ∀ x ∈ answer.take n, h.node.chain.getByHash (x.hash env.sha) = some x
  below : ∀ x, answer[0]? = some x → (h.node.chain.getByHash x.header.prevHash).isSome

theorem knownGrows {q : Hash} (grows : Grows c d) (known : (c.getByHash q).isSome) : (d.getByHash q).isSome := by
  obtain ⟨y,stored⟩ := Option.isSome_iff_exists.mp known
  rw [grows.blocks _ _ stored]
  rfl

omit [DecidableEq P] in
theorem catchingGrows {answer : List Block} {gap : Block} {n : Nat} (catching : Catching env answer j gap k n h)
    (grows : Grows h.node.chain h'.node.chain) (slot : h'.syncSem k = some ⟨j,gap,.reading (answer.drop n)⟩) :
    Catching env answer j gap k n h' :=
  ⟨slot,fun x member => grows.blocks _ _ (catching.held x member),fun x first => knownGrows grows (catching.below x first)⟩

omit [DecidableEq P] in
theorem readNode (env : Env E) (verifySig : VerifySig) {gap : Block} {rest : List Block}
    (slot : h.syncSem k = some ⟨j,gap,.reading (b::rest)⟩) :
    (h.read env verifySig k).node = (h.node.acceptExternalBlock env verifySig b).2 := by
  simp only [Host.read,slot]
  split <;> rename_i taken <;> simp only [taken,Host.release,Host.progress]

omit [DecidableEq P] in
theorem catchingReads {xs ys p : List Block} {peer : Node} {first : UInt64} {gap : Block} {n : Nat}
    (catching : Catching env ((peer.canonicalBlocksFrom first).take Node.maxBlocksPerSync) j gap k n h)
    (g : Grown env verifySig (setup.chain env) xs h.node.chain) (g' : Grown env verifySig (setup.chain env) ys peer.chain)
    (pow : setup.consensus = .pow) (agree : Compatible h.node.chain peer.chain) (path : peer.chain.Path peer.chain.head p)
    (fits : (h.read env verifySig k).node.chain.FitsMap) (fits' : peer.chain.FitsMap)
    (grows : Grows h.node.chain (h.read env verifySig k).node.chain) :
    Catching env ((peer.canonicalBlocksFrom first).take Node.maxBlocksPerSync) j gap k (n + 1) (h.read env verifySig k) := by
  have slot := catching.slot
  cases next : ((peer.canonicalBlocksFrom first).take Node.maxBlocksPerSync)[n]? with
  | none =>
    have past := List.getElem?_eq_none_iff.mp next
    rw [List.drop_eq_nil_of_le past] at slot
    have idle : h.read env verifySig k = h := by simp only [Host.read,slot]
    rw [idle]
    refine ⟨?_,fun x member => catching.held x ?_,catching.below⟩
    · rw [slot,List.drop_eq_nil_of_le (by omega)]
    · rw [List.take_of_length_le (by omega)] at member
      rw [List.take_of_length_le past]
      exact member
  | some b =>
    obtain ⟨older,walk,before⟩ := answerAt g' fits' path next
    have parent : older ≠ [] → (h.node.chain.getByHash b.header.prevHash).isSome := by
      intro _
      cases n with
      | zero => exact catching.below b next
      | succ m =>
        obtain ⟨a,at',link⟩ := before m rfl
        have inside : a ∈ ((peer.canonicalBlocksFrom first).take Node.maxBlocksPerSync).take (m + 1) := by
          refine List.mem_of_getElem? (i := m) ?_
          rw [List.getElem?_take,if_pos (Nat.lt_succ_self m)]
          exact at'
        rw [link,catching.held a inside]
        rfl
    have low := (List.getElem?_eq_some_iff.mp next).1
    have own : ((peer.canonicalBlocksFrom first).take Node.maxBlocksPerSync)[n] = b := (List.getElem?_eq_some_iff.mp next).2
    rw [List.drop_eq_getElem_cons low,own] at slot
    have node := readNode env verifySig slot
    have small : (h.node.acceptExternalBlock env verifySig b).2.chain.blocks.entries.length ≤ 2 ^ 64 := by
      rw [← node]
      exact Nat.le_of_lt (Nat.lt_of_lt_of_le fits (Nat.pow_le_pow_right (by decide) (by decide)))
    obtain ⟨n',ok,stored⟩ := nextTaken g g' pow agree walk parent small
    have after : h.read env verifySig k = Host.progress {h with node := n'} k
        ⟨j,gap,.reading (((peer.canonicalBlocksFrom first).take Node.maxBlocksPerSync).drop (n + 1))⟩ := by
      simp only [Host.read,slot,ok]
    rw [after] at grows ⊢
    refine ⟨if_pos rfl,fun x member => ?_,fun x first' => knownGrows grows (catching.below x first')⟩
    rw [List.take_add_one,next,List.mem_append] at member
    rcases member with old | new
    · exact grows.blocks _ _ (catching.held x old)
    · obtain rfl := List.mem_singleton.mp new
      exact stored

omit [DecidableEq P] in
theorem movedGrows {e : Event P} (moved : Moved env verifySig s e i h h') : Grows h.node.chain h'.node.chain := by
  rcases moved.chain with same | ⟨b,added⟩
  · rw [same]
    exact Grows.refl _
  · obtain ⟨st,w,a,same⟩ := addBlockOk.mp added
    rw [same]
    exact commitGrows a.fresh

theorem catchingRuns {ys p : List Block} {peer : Node} {first : UInt64} {gap : Block}
    (started : s.Started env verifySig setup) (found : s i = some h)
    (catching : Catching env ((peer.canonicalBlocksFrom first).take Node.maxBlocksPerSync) j gap k 0 h)
    (g' : Grown env verifySig (setup.chain env) ys peer.chain) (pow : setup.consensus = .pow)
    (path : peer.chain.Path peer.chain.head p) (fits' : peer.chain.FitsMap)
    (only : ∀ e ∈ es, e.Of i k → e.reads i k = true) (after : s.run env verifySig es i = some h')
    (agree : Compatible h'.node.chain peer.chain) (fits : h'.node.chain.FitsMap) :
    Catching env ((peer.canonicalBlocksFrom first).take Node.maxBlocksPerSync) j gap k (es.countP (Event.reads i k)) h' := by
  induction es using List.reverseRecOn generalizing h' with
  | nil =>
    obtain rfl := Option.some.inj (found.symm.trans after)
    exact catching
  | append_singleton es e ih =>
    obtain ⟨h₁,_,was,_⟩ := runLater after
    obtain ⟨_,g⟩ := startedGrown (runStarted started es) was
    obtain ⟨h₂,stepped,moved⟩ := stepMoved env verifySig was e
    rw [runAppend] at after
    obtain rfl : h₂ = h' := Option.some.inj (stepped.symm.trans after)
    have grows := movedGrows moved
    have agree₁ := compatibleGrows agree grows (Grows.refl _)
    have before := ih (fun e' member => only e' (List.mem_append_left _ member)) was agree₁
      (Nat.lt_of_le_of_lt grows.size fits)
    rw [List.countP_append,List.countP_singleton]
    by_cases own : e.Of i k
    · have reads := only e (List.mem_append_right _ (List.mem_singleton_self e)) own
      rw [if_pos reads]
      cases e with
      | read a l =>
        obtain ⟨rfl,rfl⟩ : a = i ∧ l = k := own
        have read : (s.run env verifySig es).step env verifySig (.read a l) a = some (h₁.read env verifySig l) := by
          refine (atFound was a _).trans ?_
          rw [if_pos rfl]
        obtain rfl := Option.some.inj (read.symm.trans stepped)
        exact catchingReads before g g' pow agree₁ path fits fits' grows
      | _ => cases reads
    · have quiet : e.reads i k = false := by
        cases e with
        | read a l => exact decide_eq_false own
        | _ => rfl
      rw [quiet]
      exact catchingGrows before grows (slotKept (moved.slots k) before.slot own)

/- A catch-up that a host answers while the branch it sends is known up to its first block
goes through: whatever else happens at either host meanwhile, no block of the answer is
refused, and once all are read the head is at least as heavy as that of the peer when it
answered. -/
theorem catchUpReaches {peer peer' : Host P} {gap : Block} {first : UInt64} (pow : setup.consensus = .pow)
    (started : s.Started env verifySig setup) (found : s i = some h) (held : h.syncSem k = some ⟨j,gap,.asked first⟩)
    (runs : s j = some peer) (free : peer.serve = some peer')
    (known : ∀ x, ((peer.node.canonicalBlocksFrom first).take Node.maxBlocksPerSync)[0]? = some x →
      (h.node.chain.getByHash x.header.prevHash).isSome)
    (only : ∀ e ∈ es, e.Of i k → e.reads i k = true)
    (after : (s.step env verifySig (.answer i k)).run env verifySig es i = some h')
    (agree : Compatible h'.node.chain peer.node.chain) (fits : h'.node.chain.FitsMap) (fits' : peer.node.chain.FitsMap) :
    h'.syncSem k = some ⟨j,gap,.reading
      (((peer.node.canonicalBlocksFrom first).take Node.maxBlocksPerSync).drop (es.countP (Event.reads i k)))⟩ ∧
    (((peer.node.canonicalBlocksFrom first).take Node.maxBlocksPerSync).length ≤ es.countP (Event.reads i k) →
      first ≤ peer.node.chain.headD.header.height →
      peer.node.chain.headD.header.height.toNat < first.toNat + Node.maxBlocksPerSync →
      peer.node.chain.td peer.node.chain.head ≤ h'.node.chain.td h'.node.chain.head) := by
  obtain ⟨_,g'⟩ := startedGrown started runs
  obtain ⟨x,headStored⟩ := g'.sound.headStored
  obtain ⟨p,path,_⟩ := g'.sound.rooted _ _ headStored
  obtain ⟨h₁,asked,chain,slot⟩ := answered found held runs free
  have startedNow : (s.step env verifySig (.answer i k)).Started env verifySig setup := runStarted started [.answer i k]
  have start : Catching env ((peer.node.canonicalBlocksFrom first).take Node.maxBlocksPerSync) j gap k 0 h₁ := by
    refine ⟨slot,fun x member => ?_,fun x at' => ?_⟩
    · rw [List.take_zero] at member
      cases member
    · rw [chain]
      exact known x at'
  have done := catchingRuns startedNow asked start g' pow path fits' only after agree fits
  refine ⟨done.slot,fun all low near => ?_⟩
  obtain ⟨_,g⟩ := startedGrown (runStarted startedNow es) after
  have answer : peer.node.canonicalBlocksFrom first = p.reverse.drop first.toNat := by
    have listed := canonicalFrom g'.sound g'.indexed fits' path first.toNat_lt
    rwa [UInt64.ofNat_toNat] at listed
  have tall := headHeight g'.sound fits' path
  rw [UInt64.le_iff_toNat_le] at low
  have whole : (peer.node.canonicalBlocksFrom first).take Node.maxBlocksPerSync = p.reverse.drop first.toNat := by
    rw [answer,List.take_of_length_le]
    rw [List.length_drop,List.length_reverse]
    omega
  obtain ⟨y,older,rfl,tip⟩ := Forest.pathHead path
  have inside : y ∈ (peer.node.canonicalBlocksFrom first).take Node.maxBlocksPerSync := by
    rw [List.length_cons] at tall
    rw [whole,List.reverse_cons,List.drop_append_of_le_length (by rw [List.length_reverse]; omega)]
    exact List.mem_append_right _ (List.mem_singleton_self y)
  have stored := done.held y (by rwa [List.take_of_length_le all])
  rw [g'.sound.keyed _ _ tip] at stored
  obtain ⟨q,walk,walk'⟩ := sharedPath g g' agree stored tip
  rw [← sharedTd g g' walk walk']
  exact g.sound.heaviest _ _ stored

theorem topicAdmits {q : Hash} (s : Sound env verifySig d) (pow : d.consensus = .pow) (found : d.getByHash q = some b)
    (below : q ≠ d.genesisHash)
    (size : b.header.proposerSig.length = 0 ∨ b.header.proposerSig.length = Pos.sigSize) :
    blockTopicValidator env.sha b = true := by
  have linked := s.linked _ _ found below
  unfold blockTopicValidator
  rw [if_neg (fun differ => differ linked.txRoot)]
  split
  · rename_i signed
    rw [if_neg (fun other => other (size.resolve_left (Nat.ne_of_gt signed)))]
  · exact linked.work pow

theorem handleBlockNode (sender : Option P) :
    (h.handleBlock env verifySig i sender b).node = (h.node.acceptExternalBlock env verifySig b).2 := by
  unfold Host.handleBlock
  split
  · rename_i gap
    rw [gap]
    cases sender with
    | none => rfl
    | some j =>
      dsimp only
      split
      · rfl
      · split <;> rfl
  · rename_i result
    rw [result]

theorem blockHandled {sender : Option P} (found : s i = some h) (admitted : blockTopicValidator env.sha b = true)
    (foreign : sender ≠ some i) :
    s.step env verifySig (.block i sender b) i = some (h.handleBlock env verifySig i sender b) := by
  refine (atFound found i _).trans ?_
  rw [if_pos rfl,Host.readBlocks,if_neg]
  rintro (refused | own)
  · exact refused admitted
  · exact foreign own

theorem blockElsewhere (env : Env E) (verifySig : VerifySig) (sender : Option P) (b : Block) (found : s j = some h) (other : j ≠ i) :
    s.step env verifySig (.block i sender b) j = some h := by
  have kept := atFound found i (·.readBlocks env verifySig i sender b)
  rwa [if_neg other] at kept

/- At some moment of the run the host got the block on its topic, with the parent known. -/
def Heard (env : Env E) (verifySig : VerifySig) (start : Net P) (es : List (Event P)) (i : P) (x : Block) : Prop :=
  ∃ es₁ sender es₂ h, es = es₁ ++ .block i sender x::es₂ ∧ sender ≠ some i ∧ start.run env verifySig es₁ i = some h ∧
    (h.node.chain.getByHash x.header.prevHash).isSome

theorem heardStored {q : Hash} {x : Block} (pow : setup.consensus = .pow) (started : start.Started env verifySig setup)
    (found : start.run env verifySig es i = some h) (found' : start.run env verifySig es j = some h')
    (agree : Compatible h.node.chain h'.node.chain) (fits : h.node.chain.FitsMap)
    (theirs : h'.node.chain.getByHash q = some x) (below : q ≠ h'.node.chain.genesisHash)
    (size : x.header.proposerSig.length = 0 ∨ x.header.proposerSig.length = Pos.sigSize)
    (heard : Heard env verifySig start es i x) : h.node.chain.getByHash q = some x := by
  obtain ⟨es₁,sender,es₂,h₁,rfl,foreign,was,parent⟩ := heard
  obtain ⟨_,g'⟩ := startedGrown (runStarted started _) found'
  obtain ⟨_,g⟩ := startedGrown (runStarted started es₁) was
  have admitted := topicAdmits g'.sound (g'.grows.config.consensus.trans pow) theirs below size
  have next : start.run env verifySig (es₁ ++ [.block i sender x]) i =
      some (h₁.handleBlock env verifySig i sender x) := by
    rw [runAppend]
    exact blockHandled was admitted foreign
  have later : start.run env verifySig ((es₁ ++ [.block i sender x]) ++ es₂) i = some h := by
    rw [List.append_assoc]
    exact found
  obtain ⟨h₂,bs,was₂,fed⟩ := runLater later
  obtain rfl := Option.some.inj (next.symm.trans was₂)
  have grows₂ : Grows (h₁.handleBlock env verifySig i sender x).node.chain h.node.chain := by
    rw [fed]
    exact feedGrows env verifySig _ bs
  have grows₁ : Grows h₁.node.chain (h₁.handleBlock env verifySig i sender x).node.chain :=
    movedGrows (handleBlockMoved (s := start) (e := .block i sender x) sender x)
  obtain ⟨p,walk,_⟩ := g'.sound.rooted _ _ theirs
  obtain ⟨y,older,rfl,tip⟩ := Forest.pathHead walk
  obtain rfl := Option.some.inj (theirs.symm.trans tip)
  rw [← g'.sound.keyed _ _ theirs] at walk ⊢
  have small : (h₁.node.acceptExternalBlock env verifySig x).2.chain.blocks.entries.length ≤ 2 ^ 64 := by
    rw [← handleBlockNode (i := i) sender]
    exact Nat.le_of_lt (Nat.lt_of_lt_of_le (Nat.lt_of_le_of_lt grows₂.size fits) (Nat.pow_le_pow_right (by decide) (by decide)))
  obtain ⟨n',ok,stored⟩ := nextTaken g g' pow (compatibleGrows agree (grows₁.trans grows₂) (Grows.refl _)) walk
    (fun _ => parent) small
  refine grows₂.blocks _ _ ?_
  rw [handleBlockNode,ok]
  exact stored

/- Two hosts that hear each other's blocks, each after its parent, in any order, with anything
else in between and from anyone, hold the same blocks, and their heads weigh the same; where
one block is heaviest, it is the head of both, with one height index and one state. A block whose
proposer signature has another length than none or 96 would not get past the topic. -/
theorem gossipConverges (pow : setup.consensus = .pow) (started : start.Started env verifySig setup)
    (found : start.run env verifySig es i = some h) (found' : start.run env verifySig es j = some h')
    (agree : Compatible h.node.chain h'.node.chain) (fits : h.node.chain.FitsMap) (fits' : h'.node.chain.FitsMap)
    (hears : ∀ q x, h'.node.chain.getByHash q = some x → q ≠ h'.node.chain.genesisHash →
      (x.header.proposerSig.length = 0 ∨ x.header.proposerSig.length = Pos.sigSize) ∧ Heard env verifySig start es i x)
    (heard : ∀ q x, h.node.chain.getByHash q = some x → q ≠ h.node.chain.genesisHash →
      (x.header.proposerSig.length = 0 ∨ x.header.proposerSig.length = Pos.sigSize) ∧ Heard env verifySig start es j x) :
    (∀ q, h.node.chain.getByHash q = h'.node.chain.getByHash q) ∧
    h.node.chain.td h.node.chain.head = h'.node.chain.td h'.node.chain.head ∧
    ((∀ x y, h.node.chain.getByHash (x.hash env.sha) = some x → h.node.chain.getByHash (y.hash env.sha) = some y →
        Heaviest h.node.chain (x.hash env.sha) → Heaviest h.node.chain (y.hash env.sha) → x = y) →
      h.node.chain.head = h'.node.chain.head ∧ h.node.chain.heightIndex = h'.node.chain.heightIndex ∧
        h.node.chain.headState = h'.node.chain.headState) := by
  obtain ⟨_,g⟩ := startedGrown (runStarted started es) found
  obtain ⟨_,g'⟩ := startedGrown (runStarted started es) found'
  have genesis := sharedGenesis g g'
  have root := g.grows.blocks _ _ (setupRoot env setup)
  have root' := g'.grows.blocks _ _ (setupRoot env setup)
  rw [← g.grows.config.genesisHash] at root
  rw [← g'.grows.config.genesisHash] at root'
  have stored (q : Hash) : h.node.chain.getByHash q = h'.node.chain.getByHash q := by
    refine Option.ext fun x => ⟨fun mine => ?_,fun theirs => ?_⟩
    · by_cases below : q = h.node.chain.genesisHash
      · rw [below,root] at mine
        rw [below,← genesis,root',← mine]
      · obtain ⟨size,hear⟩ := heard q x mine below
        exact heardStored pow started found' found (fun k x y a b => (agree k y x b a).symm) fits' mine below size hear
    · by_cases below : q = h'.node.chain.genesisHash
      · rw [below,root'] at theirs
        rw [below,genesis,root,← theirs]
      · obtain ⟨size,hear⟩ := hears q x theirs below
        exact heardStored pow started found found' agree fits theirs below size hear
  have paths (q : Hash) (p : List Block) : h.node.chain.Path q p ↔ h'.node.chain.Path q p := by
    unfold Chain.Path
    rw [genesis,funext stored]
  refine ⟨stored,sameHeadTd g g' paths pow,fun unique => ?_⟩
  have head := sameHead g g' paths pow fun x y mine theirs _ _ heavy heavy' => unique x y mine theirs heavy heavy'
  exact ⟨head,sameIndex g g' paths head,sameHeadState g g' paths head⟩

theorem topicExact {c' : Chain} (added : c.addBlock env verifySig b = .ok c') :
    blockTopicValidator env.sha b = true ↔ b.header.proposerSig.length = 0 ∨ b.header.proposerSig.length = Pos.sigSize := by
  obtain ⟨st,w,a,_⟩ := addBlockOk.mp added
  have consensus := a.consensus
  unfold blockTopicValidator
  rw [if_neg (fun differ => differ a.txRoot)]
  by_cases empty : b.header.proposerSig.length = 0
  · rw [if_neg (by omega)]
    refine iff_of_true ?_ (.inl empty)
    unfold Chain.checkConsensus at consensus
    cases mode : c.consensus with
    | pow =>
      simp only [mode] at consensus
      split at consensus
      · assumption
      · cases consensus
    | pos vs =>
      simp only [mode,bindOk] at consensus
      obtain ⟨_,proposer,_⟩ := consensus
      obtain ⟨_,v,_,_,signed⟩ := checkProposerOk.mp proposer
      simp [Pos.verify,empty,Pos.sigSize] at signed
  · rw [if_pos (by omega)]
    simp [empty]

theorem minedUnsigned {n n' : Node} {now : Int64} (ok : n.mineBlock env verifySig now = (.ok b,n')) :
    b.header.proposerSig = [] := by
  unfold Node.mineBlock at ok
  simp only at ok
  split at ok
  · cases ok
  · split at ok
    · cases ok
    · rename_i header found
      obtain ⟨rfl,_,_⟩ := commitBlockOk ok
      obtain ⟨nonce,rfl,_⟩ := mineFromSound found
      rfl

theorem proposedSigned {vs : Pos.ValidatorSet} {c' : Chain} (mode : c.consensus = .pos vs)
    (added : c.addBlock env verifySig b = .ok c') : b.header.proposerSig.length = Pos.sigSize := by
  obtain ⟨st,w,a,_⟩ := addBlockOk.mp added
  have consensus := a.consensus
  simp only [Chain.checkConsensus,mode,bindOk] at consensus
  obtain ⟨_,proposer,_⟩ := consensus
  obtain ⟨_,v,_,_,signed⟩ := checkProposerOk.mp proposer
  simp only [Pos.verify,Bool.and_eq_true,decide_eq_true_eq] at signed
  exact signed.1.2

/- The topic validator, which knows no chain, against AddBlock: of the blocks a PoW chain takes
it drops exactly those with a stray proposer signature of a wrong size, of those a PoS chain
takes none, and none that a node makes. -/
theorem topicValidatorExact (env : Env E) (verifySig : VerifySig) :
    (∀ (c c' : Chain) b, c.addBlock env verifySig b = .ok c' →
      (blockTopicValidator env.sha b = true ↔
        b.header.proposerSig.length = 0 ∨ b.header.proposerSig.length = Pos.sigSize) ∧
      (∀ vs, c.consensus = .pos vs → blockTopicValidator env.sha b = true)) ∧
    (∀ (n n' : Node) b now, n.mineBlock env verifySig now = (.ok b,n') ∨ n.proposeBlock env verifySig now = (.ok b,n') →
      blockTopicValidator env.sha b = true) := by
  refine ⟨fun c c' b added => ⟨topicExact added,fun vs mode => ?_⟩,fun n n' b now made => ?_⟩
  · exact (topicExact added).mpr (.inr (proposedSigned mode added))
  · rcases made with mined | proposed
    · obtain ⟨_,added,_⟩ := mineBlockOk mined
      exact (topicExact added).mpr (.inl (by rw [minedUnsigned mined]; rfl))
    · obtain ⟨⟨vs,mode⟩,_,added,_⟩ := proposeBlockOk proposed
      exact (topicExact added).mpr (.inr (proposedSigned mode added))

end
end L1Chain.P2P

namespace L1Chain.Devnet
open Transition Runs P2P

def lone (n : Node) : Host Bool := ⟨n,fun _ => none,fun _ => false⟩
def pair (mine theirs : Chain) : Net Bool := fun i => some (lone (racer (if i then mine else theirs)))

theorem pairStarted {c₁ c₂ : Chain} (f : Forked c₁ c₂) :
    (pair ((soloSetup 0).chain env) c₁).Started env acceptNonEmptySig (soloSetup 0) := by
  intro i h found
  obtain rfl := Option.some.inj found
  cases i with
  | true => exact ⟨[],rfl⟩
  | false => exact ⟨[leftBlock],f.fed.1⟩

theorem leftAdded {c₁ c₂ : Chain} (f : Forked c₁ c₂) :
    ((soloSetup 0).chain env).addBlock env acceptNonEmptySig leftBlock = .ok c₁ := by
  have fed : c₁ = ((soloSetup 0).chain env).offer env acceptNonEmptySig leftBlock := f.fed.1
  rcases offerCases env acceptNonEmptySig ((soloSetup 0).chain env) leftBlock with ⟨same,_⟩ | ⟨st,w,a,same⟩
  · have head := f.left.1
    rw [fed,same] at head
    exact absurd (headerHash _ |>.symm.trans head) (hashApart (by decide) (by decide))
  · rw [fed,same]
    exact addBlockOk.mpr ⟨st,w,a,rfl⟩

theorem leftStored {c₁ c₂ : Chain} (f : Forked c₁ c₂) {h : Hash} {x : Block} :
    c₁.getByHash h = some x ↔ ((soloSetup 0).chain env).getByHash h = some x ∨ (h = leftBlock.hash env.sha ∧ x = leftBlock) := by
  obtain ⟨st,w,a,same⟩ := addBlockOk.mp (leftAdded f)
  rw [same]
  exact commitFound a.fresh h x

theorem leftParent : ((soloSetup 0).chain env).getByHash leftBlock.header.prevHash = some genesisBlock := by
  obtain ⟨_,_,shape,stored⟩ := Forest.pathHead genesisPath
  cases shape
  exact stored

def tells (i : Bool) : P2P.Event Bool := .block i (some !i) leftBlock

theorem pairHears {c₀ c₁ : Chain} (added : c₀.addBlock env acceptNonEmptySig leftBlock = .ok c₁) :
    ∃ h, (pair c₀ c₁).run env acceptNonEmptySig [tells true] true = some h ∧ h.node.chain = c₁ := by
  have admitted := (topicExact added).mpr (.inl rfl)
  have first : pair c₀ c₁ true = some (lone (racer c₀)) := rfl
  refine ⟨_,blockHandled first admitted (by simp),?_⟩
  rw [handleBlockNode,acceptNode added]
  rfl

theorem pairQuiet (c₀ c₁ : Chain) :
    (pair c₀ c₁).run env acceptNonEmptySig [tells true] false = some (lone (racer c₁)) := by
  have other : pair c₀ c₁ false = some (lone (racer c₁)) := rfl
  exact blockElsewhere env acceptNonEmptySig (some false) leftBlock other Bool.false_ne_true

theorem pairGrows : ∃ c₁ h', (pair ((soloSetup 0).chain env) c₁).run env acceptNonEmptySig ([] ++ [tells true]) true = some h' ∧
    h'.node.chain = c₁ ∧
    ∃ h bs bs', (pair ((soloSetup 0).chain env) c₁).run env acceptNonEmptySig [] true = some h ∧
      h.node.chain = ((soloSetup 0).chain env).feed env acceptNonEmptySig bs ∧
      h'.node.chain = ((soloSetup 0).chain env).feed env acceptNonEmptySig (bs ++ bs') ∧
      (∀ k x, h.node.chain.getByHash k = some x →
        h'.node.chain.getByHash k = some x ∧ h'.node.chain.td k = h.node.chain.td k) ∧
      h.node.chain.td h.node.chain.head ≤ h'.node.chain.td h'.node.chain.head := by
  obtain ⟨c₁,c₂,f⟩ := raceForks
  obtain ⟨h',heard,chain⟩ := pairHears (leftAdded f)
  exact ⟨c₁,h',heard,chain,hostsOnlyGrow (pairStarted f) heard⟩

theorem pairAgrees : ∃ c₁ h h', (pair ((soloSetup 0).chain env) c₁).run env acceptNonEmptySig [tells true] true = some h ∧
    (pair ((soloSetup 0).chain env) c₁).run env acceptNonEmptySig ([tells true] ++ []) false = some h' ∧
    (∃ p, h.node.chain.ancestry (hashAt 1 1) = some p ∧ h'.node.chain.ancestry (hashAt 1 1) = some p) ∧
    h.node.chain.td (hashAt 1 1) = h'.node.chain.td (hashAt 1 1) ∧
    h.node.chain.deriveState env acceptNonEmptySig (hashAt 1 1) = h'.node.chain.deriveState env acceptNonEmptySig (hashAt 1 1) := by
  obtain ⟨c₁,c₂,f⟩ := raceForks
  obtain ⟨h,heard,chain⟩ := pairHears (leftAdded f)
  obtain ⟨_,_,shape,stored⟩ := Forest.pathHead f.left.2
  cases shape
  have theirs : (lone (racer c₁)).node.chain = c₁ := rfl
  refine ⟨c₁,h,_,heard,pairQuiet _ c₁,sharedBlocksAgree (pairStarted f) heard (pairQuiet _ c₁) ?_ (chain ▸ stored)
    (theirs ▸ stored)⟩
  rw [chain,theirs]
  exact growsCompatible (Grows.refl c₁)

/- Each tells the other of the block, which one of them has already. -/
theorem pairConverges : ∃ c₁ h h',
    (pair ((soloSetup 0).chain env) c₁).run env acceptNonEmptySig [tells true,tells false] true = some h ∧
    (pair ((soloSetup 0).chain env) c₁).run env acceptNonEmptySig [tells true,tells false] false = some h' ∧
    (∀ q, h.node.chain.getByHash q = h'.node.chain.getByHash q) ∧
    h.node.chain.td h.node.chain.head = h'.node.chain.td h'.node.chain.head := by
  obtain ⟨c₁,c₂,f⟩ := raceForks
  obtain ⟨h,heard,chain⟩ := pairHears (leftAdded f)
  have admitted := (topicExact (leftAdded f)).mpr (.inl rfl)
  have mine : (pair ((soloSetup 0).chain env) c₁).run env acceptNonEmptySig [tells true,tells false] true = some h :=
    blockElsewhere env acceptNonEmptySig (some true) leftBlock heard Bool.false_ne_true.symm
  have theirs : (pair ((soloSetup 0).chain env) c₁).run env acceptNonEmptySig [tells true,tells false] false =
      some ((lone (racer c₁)).handleBlock env acceptNonEmptySig false (some true) leftBlock) :=
    blockHandled (pairQuiet _ c₁) admitted (by simp)
  have own : c₁.getByHash (leftBlock.hash env.sha) = some leftBlock := (leftStored f).mpr (.inr ⟨rfl,rfl⟩)
  have kept : ((lone (racer c₁)).handleBlock env acceptNonEmptySig false (some true) leftBlock).node.chain = c₁ := by
    rw [handleBlockNode,acceptKnown (n := (lone (racer c₁)).node) own]
    rfl
  have small : c₁.FitsMap := forkFits f
  have only : ∀ q x, c₁.getByHash q = some x → q ≠ c₁.genesisHash → x = leftBlock := by
    intro q x found above
    rcases (leftStored f).mp found with old | ⟨_,same⟩
    · rw [f.before.grows.config.genesisHash] at above
      exact absurd (setupOnly old).1 above
    · exact same
  have heardFirst : Heard env acceptNonEmptySig (pair ((soloSetup 0).chain env) c₁) [tells true,tells false] true leftBlock :=
    ⟨[],some false,[tells false],_,rfl,by simp,rfl,Option.isSome_iff_exists.mpr ⟨_,leftParent⟩⟩
  have heardSecond : Heard env acceptNonEmptySig (pair ((soloSetup 0).chain env) c₁) [tells true,tells false] false leftBlock :=
    ⟨[tells true],some true,[],_,rfl,by simp,pairQuiet _ c₁,
      Option.isSome_iff_exists.mpr ⟨_,f.before.grows.blocks _ _ leftParent⟩⟩
  refine ⟨c₁,h,_,mine,theirs,?_⟩
  have converges := gossipConverges rfl (pairStarted f) mine theirs (by rw [chain,kept]; exact growsCompatible (Grows.refl c₁))
    (by rw [chain]; exact small) (by rw [kept]; exact small)
    (by
      intro q x found above
      rw [kept] at found above
      rw [only q x found above]
      exact ⟨.inl rfl,heardFirst⟩)
    (by
      intro q x found above
      rw [chain] at found above
      rw [only q x found above]
      exact ⟨.inl rfl,heardSecond⟩)
  exact ⟨converges.1,converges.2.1⟩

def firstSlot : Fin maxConcurrentSyncs := ⟨0,Nat.succ_pos 3⟩

def asker (mine : Chain) : Host Bool := ⟨racer mine,fun _ => some ⟨false,leftBlock,.asked 1⟩,fun _ => false⟩
def asking (mine theirs : Chain) : Net Bool := fun i => some (if i then asker mine else lone (racer theirs))

theorem askingFound (mine theirs : Chain) :
    asking mine theirs true = some (asker mine) ∧ asking mine theirs false = some (lone (racer theirs)) := ⟨rfl,rfl⟩

theorem askingStarted {c₁ c₂ : Chain} (f : Forked c₁ c₂) :
    (asking ((soloSetup 0).chain env) c₁).Started env acceptNonEmptySig (soloSetup 0) := by
  intro i h found
  obtain rfl := Option.some.inj found
  cases i with
  | true => exact ⟨[],rfl⟩
  | false => exact ⟨[leftBlock],f.fed.1⟩

theorem leftAnswer {c₁ c₂ : Chain} (f : Forked c₁ c₂) :
    ((racer c₁).canonicalBlocksFrom 1).take Node.maxBlocksPerSync = [leftBlock] := by
  obtain ⟨sound,indexed,_⟩ := extendedSetup f.before.reached
  have path : c₁.Path c₁.head [leftBlock,genesisBlock] := by
    rw [f.left.1]
    exact f.left.2
  exact congrArg (List.take _) (canonicalFrom (n := racer c₁) (m := 1) sound indexed (forkFits f) path (by decide))

theorem askedReads {c₀ c₁ : Chain} (added : c₀.addBlock env acceptNonEmptySig leftBlock = .ok c₁)
    (answer : ((racer c₁).canonicalBlocksFrom 1).take Node.maxBlocksPerSync = [leftBlock]) : ∃ h',
    ((asking c₀ c₁).step env acceptNonEmptySig (.answer true firstSlot)).run env acceptNonEmptySig
      [.read true firstSlot] true = some h' ∧ h'.node.chain = c₁ := by
  obtain ⟨first,second⟩ := askingFound c₀ c₁
  obtain ⟨busy,free⟩ : ∃ busy, (lone (racer c₁)).serve = some busy := ⟨_,rfl⟩
  obtain ⟨h₁,answers,still,slot⟩ := answered (k := firstSlot) first rfl second free
  have reads := atFound answers true (·.read env acceptNonEmptySig firstSlot)
  rw [if_pos rfl] at reads
  refine ⟨_,reads,?_⟩
  rw [show (lone (racer c₁)).node = racer c₁ from rfl,answer] at slot
  have held : h₁.node.chain.addBlock env acceptNonEmptySig leftBlock = .ok c₁ := still ▸ added
  rw [readNode env acceptNonEmptySig slot,acceptNode held]
  rfl

/- The answer holds the one block, and its reader ends as heavy as its sender. -/
theorem pairCatchesUp : ∃ c₁ h',
    ((asking ((soloSetup 0).chain env) c₁).step env acceptNonEmptySig (.answer true firstSlot)).run env acceptNonEmptySig
      [.read true firstSlot] true = some h' ∧
    h'.syncSem firstSlot = some ⟨false,leftBlock,.reading []⟩ ∧
    c₁.td c₁.head ≤ h'.node.chain.td h'.node.chain.head := by
  obtain ⟨c₁,c₂,f⟩ := raceForks
  have answer := leftAnswer f
  obtain ⟨h',reads,chain⟩ := askedReads (leftAdded f) answer
  obtain ⟨first,second⟩ := askingFound ((soloSetup 0).chain env) c₁
  have reaches := catchUpReaches rfl (askingStarted f) (k := firstSlot) first rfl second rfl
    (by
      intro x at'
      rw [show (lone (racer c₁)).node = racer c₁ from rfl,answer] at at'
      obtain rfl := Option.some.inj at'
      exact Option.isSome_iff_exists.mpr ⟨_,leftParent⟩)
    (by
      intro e member _
      rw [List.mem_singleton.mp member]
      rfl)
    reads (by rw [chain]; exact growsCompatible (Grows.refl c₁)) (by rw [chain]; exact forkFits f) (forkFits f)
  refine ⟨c₁,h',reads,?_⟩
  rw [show (lone (racer c₁)).node = racer c₁ from rfl,answer] at reaches
  have head : (racer c₁).chain.headD = leftBlock := (forkHeads f).1
  rw [head] at reaches
  exact ⟨reaches.1,reaches.2 (Nat.le_refl 1) (by decide) (by decide)⟩

end L1Chain.Devnet
