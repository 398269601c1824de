import L1Chain.Sync

/-! Package p2p: many hosts, each a node behind the two gossip topics and the sync protocol.
A network is a map from peer ids; an id without a host is a peer that does not run this
program. The events of a run are what the goroutines of the hosts do, one critical section
each, and what the network and the other peers do to them: a message on a topic may be any
block or transaction, from anyone, at any time and any number of times; a stream may end
early or break, and a peer that does not run this program writes what it likes. A goroutine
of `handleBlock` holds one of the slots of `syncSem` from its start to its end. Messages are
taken after decoding. -/
namespace L1Chain.P2P
open Transition Runs

def maxConcurrentSyncs : Nat := 4
def maxConcurrentInboundSyncs : Nat := 8

def blockTopicValidator (sha : Bytes → Hash) (b : Block) : Bool :=
  if b.txRoot sha ≠ b.header.merkleRoot then false
  else if b.header.proposerSig.length > 0 then
    if b.header.proposerSig.length ≠ Pos.sigSize then false else true
  else meetsTarget (b.hash sha) b.header.difficulty

def txTopicValidator (verifySig : VerifySig) (tx : Transaction) : Bool := verifySig tx

/- How far a catch-up has come: started; the stream is open and the start height written;
the blocks of the answer that are not decoded yet. -/
inductive Stage where
  | spawned
  | asked (start : UInt64)
  | reading (rest : List Block)

structure CatchUp (P : Type) where
  peer : P
  gap : Block
  stage : Stage

structure Host (P : Type) where
  node : Node
  syncSem : Fin maxConcurrentSyncs → Option (CatchUp P)
  inboundSyncSem : Fin maxConcurrentInboundSyncs → Bool

abbrev Net (P : Type) := P → Option (Host P)

inductive Event (P : Type) where
  /-- An operation of the node itself: an RPC call, the mining loop. -/
  | call (i : P) (op : Op)
  /-- A message on a topic; no sender is the empty peer id. -/
  | block (i : P) (sender : Option P) (b : Block)
  | tx (i : P) (sender : Option P) (t : Transaction)
  /-- A catch-up reads the head and opens its stream. -/
  | ask (i : P) (slot : Fin maxConcurrentSyncs)
  /-- The peer asked runs this program: its stream handler answers. -/
  | answer (i : P) (slot : Fin maxConcurrentSyncs)
  /-- It does not: it writes whatever it likes. -/
  | forge (i : P) (slot : Fin maxConcurrentSyncs) (blocks : List Block)
  | read (i : P) (slot : Fin maxConcurrentSyncs)
  /-- The stream ends, wherever it stands. -/
  | eof (i : P) (slot : Fin maxConcurrentSyncs)
  /-- It cannot be opened, breaks, does not decode or takes too long. -/
  | fail (i : P) (slot : Fin maxConcurrentSyncs)
  /-- A peer without a host opens a stream, and a handler ends. -/
  | serve (j : P)
  | served (j : P) (slot : Fin maxConcurrentInboundSyncs)

def freeSlot {n : Nat} (busy : Fin n → Bool) : Option (Fin n) := (List.finRange n).find? (fun k => !busy k)

section
variable {P E : Type} [DecidableEq P]

namespace Host

def progress (h : Host P) (slot : Fin maxConcurrentSyncs) (c : CatchUp P) : Host P :=
  {h with syncSem := put h.syncSem slot (some c)}

def release (h : Host P) (slot : Fin maxConcurrentSyncs) : Host P := {h with syncSem := put h.syncSem slot none}

def serve (h : Host P) : Option (Host P) :=
  (freeSlot h.inboundSyncSem).map (fun k => {h with inboundSyncSem := put h.inboundSyncSem k true})

def handleBlock (env : Env E) (verifySig : VerifySig) (self : P) (h : Host P) (sender : Option P) (b : Block) : Host P :=
  match h.node.acceptExternalBlock env verifySig b with
  | (.error (.chain .unknownParent),n) =>
    match sender with
    | none => {h with node := n}
    | some j =>
      if j = self then {h with node := n}
      else match freeSlot (fun k => (h.syncSem k).isSome) with
        -- all slots busy: the block is dropped
        | none => {h with node := n}
        | some k => progress {h with node := n} k ⟨j,b,.spawned⟩
  | (_,n) => {h with node := n}

def readBlocks (env : Env E) (verifySig : VerifySig) (self : P) (h : Host P) (sender : Option P) (b : Block) : Host P :=
  if ¬ blockTopicValidator env.sha b ∨ sender = some self then h else h.handleBlock env verifySig self sender b

def readTxs (verifySig : VerifySig) (self : P) (h : Host P) (sender : Option P) (t : Transaction) : Host P :=
  if ¬ txTopicValidator verifySig t ∨ sender = some self then h else {h with node := (h.node.submitTx verifySig t).2}

def ask (h : Host P) (slot : Fin maxConcurrentSyncs) : Host P :=
  match h.syncSem slot with
  | some ⟨j,gap,.spawned⟩ => h.progress slot ⟨j,gap,.asked (h.node.chain.headD.header.height + 1)⟩
  | _ => h

def read (env : Env E) (verifySig : VerifySig) (h : Host P) (slot : Fin maxConcurrentSyncs) : Host P :=
  match h.syncSem slot with
  | some ⟨j,gap,.reading (b::rest)⟩ =>
    match h.node.acceptExternalBlock env verifySig b with
    | (.error _,n) => release {h with node := n} slot
    | (.ok (),n) => progress {h with node := n} slot ⟨j,gap,.reading rest⟩
  | _ => h

def eof (env : Env E) (verifySig : VerifySig) (h : Host P) (slot : Fin maxConcurrentSyncs) : Host P :=
  match h.syncSem slot with
  | some ⟨_,gap,.reading _⟩ => release {h with node := (h.node.acceptExternalBlock env verifySig gap).2} slot
  | _ => h

end Host

def Net.at (s : Net P) (i : P) (f : Host P → Host P) : Net P := fun j => if j = i then (s j).map f else s j

def Net.answer (s : Net P) (i : P) (slot : Fin maxConcurrentSyncs) : Net P :=
  match s i with
  | none => s
  | some h =>
    match h.syncSem slot with
    | some ⟨j,gap,.asked start⟩ =>
      match s j with
      | none => s
      | some peer =>
        match peer.serve with
        | none => s.at i (·.release slot)
        | some peer' =>
          (s.at j (fun _ => peer')).at i (·.progress slot
            ⟨j,gap,.reading ((peer.node.canonicalBlocksFrom start).take Node.maxBlocksPerSync)⟩)
    | _ => s

def Net.forge (s : Net P) (i : P) (slot : Fin maxConcurrentSyncs) (blocks : List Block) : Net P :=
  s.at i (fun h =>
    match h.syncSem slot with
    | some ⟨j,gap,.asked _⟩ => if (s j).isSome then h else h.progress slot ⟨j,gap,.reading blocks⟩
    | _ => h)

def Net.step (env : Env E) (verifySig : VerifySig) (s : Net P) : Event P → Net P
  | .call i op => s.at i (fun h => {h with node := h.node.step env verifySig op})
  | .block i sender b => s.at i (·.readBlocks env verifySig i sender b)
  | .tx i sender t => s.at i (·.readTxs verifySig i sender t)
  | .ask i slot => s.at i (·.ask slot)
  | .answer i slot => s.answer i slot
  | .forge i slot blocks => s.forge i slot blocks
  | .read i slot => s.at i (·.read env verifySig slot)
  | .eof i slot => s.at i (·.eof env verifySig slot)
  | .fail i slot => s.at i (·.release slot)
  | .serve j => s.at j (fun h => h.serve.getD h)
  | .served j slot => s.at j (fun h => {h with inboundSyncSem := put h.inboundSyncSem slot false})

abbrev Net.run (env : Env E) (verifySig : VerifySig) (s : Net P) (es : List (Event P)) : Net P :=
  es.foldl (Net.step env verifySig) s

def Event.Of (i : P) (k : Fin maxConcurrentSyncs) : Event P → Prop
  | .ask a l | .answer a l | .forge a l _ | .read a l | .eof a l | .fail a l => a = i ∧ l = k
  | _ => False

inductive SlotMove (env : Env E) (verifySig : VerifySig) (s : Net P) (e : Event P) (i : P) (k : Fin maxConcurrentSyncs)
    (h h' : Host P) : Option (CatchUp P) → Option (CatchUp P) → Prop
  | same (c : Option (CatchUp P)) : SlotMove env verifySig s e i k h h' c c
  | spawns {j : P} {b : Block} (other : j ≠ i) : SlotMove env verifySig s e i k h h' none (some ⟨j,b,.spawned⟩)
  | ends (own : e.Of i k) (c : Option (CatchUp P)) : SlotMove env verifySig s e i k h h' c none
  | asks (own : e.Of i k) {j : P} {gap : Block} : SlotMove env verifySig s e i k h h' (some ⟨j,gap,.spawned⟩)
      (some ⟨j,gap,.asked (h.node.chain.headD.header.height + 1)⟩)
  | answers (own : e.Of i k) {j : P} {gap : Block} {start : UInt64} {peer : Host P} (runs : s j = some peer) :
      SlotMove env verifySig s e i k h h' (some ⟨j,gap,.asked start⟩)
        (some ⟨j,gap,.reading ((peer.node.canonicalBlocksFrom start).take Node.maxBlocksPerSync)⟩)
  | forges (own : e.Of i k) {j : P} {gap : Block} {start : UInt64} {blocks : List Block} (foreign : s j = none) :
      SlotMove env verifySig s e i k h h' (some ⟨j,gap,.asked start⟩) (some ⟨j,gap,.reading blocks⟩)
  | reads (own : e.Of i k) {j : P} {gap b : Block} {rest : List Block}
      (ok : h.node.acceptExternalBlock env verifySig b = (.ok (),h'.node)) :
      SlotMove env verifySig s e i k h h' (some ⟨j,gap,.reading (b::rest)⟩) (some ⟨j,gap,.reading rest⟩)

structure Moved (env : Env E) (verifySig : VerifySig) (s : Net P) (e : Event P) (i : P) (h h' : Host P) : Prop where
  chain : h'.node.chain = h.node.chain ∨ ∃ b, h.node.chain.addBlock env verifySig b = .ok h'.node.chain
  slots : ∀ k, SlotMove env verifySig s e i k h h' (h.syncSem k) (h'.syncSem k)

end

section
variable {P E : Type} {env : Env E} {verifySig : VerifySig} {s : Net P} {e : Event P} {i : P} {h h' : Host P}
  {k : Fin maxConcurrentSyncs}

theorem acceptChain (env : Env E) (verifySig : VerifySig) (n : Node) (b : Block) :
    (n.acceptExternalBlock env verifySig b).2.chain = n.chain ∨
      ∃ x, n.chain.addBlock env verifySig x = .ok (n.acceptExternalBlock env verifySig b).2.chain := by
  rcases acceptCases env verifySig n b with same | ⟨c',added,same⟩
  · exact .inl (congrArg Node.chain same)
  · exact .inr ⟨b,added.trans (congrArg Except.ok (congrArg Node.chain same).symm)⟩

theorem Moved.refl : Moved env verifySig s e i h h := ⟨.inl rfl,fun _ => .same _⟩

theorem movedKept (node : h'.node = h.node) (slots : h'.syncSem = h.syncSem) : Moved env verifySig s e i h h' := by
  refine ⟨.inl (by rw [node]),fun k => ?_⟩
  rw [slots]
  exact .same _

theorem movedNode {n : Node} (chain : n.chain = h.node.chain ∨ ∃ b, h.node.chain.addBlock env verifySig b = .ok n.chain) :
    Moved env verifySig s e i h {h with node := n} := ⟨chain,fun _ => .same _⟩

theorem movedSlot {c : Option (CatchUp P)}
    (chain : h'.node.chain = h.node.chain ∨ ∃ b, h.node.chain.addBlock env verifySig b = .ok h'.node.chain)
    (move : SlotMove env verifySig s e i k h h' (h.syncSem k) c) (slots : h'.syncSem = put h.syncSem k c) :
    Moved env verifySig s e i h h' := by
  refine ⟨chain,fun l => ?_⟩
  rw [slots,put]
  split
  · rename_i own
    subst own
    exact move
  · exact .same _

theorem releaseMoved (own : e.Of i k) {n : Node}
    (chain : n.chain = h.node.chain ∨ ∃ b, h.node.chain.addBlock env verifySig b = .ok n.chain) :
    Moved env verifySig s e i h (Host.release {h with node := n} k) := movedSlot (c := none) chain (.ends own _) rfl

theorem askMoved (own : e.Of i k) : Moved env verifySig s e i h (h.ask k) := by
  unfold Host.ask
  split
  · rename_i j gap held
    refine movedSlot (.inl rfl) ?_ rfl
    rw [held]
    exact .asks own
  · exact .refl

theorem readMoved (own : e.Of i k) : Moved env verifySig s e i h (h.read env verifySig k) := by
  unfold Host.read
  split
  · rename_i j gap b rest held
    have chain := acceptChain env verifySig h.node b
    split
    · rename_i failed
      rw [failed] at chain
      exact releaseMoved own chain
    · rename_i ok
      rw [ok] at chain
      refine movedSlot (k := k) (c := some ⟨j,gap,.reading rest⟩) chain ?_ rfl
      rw [held]
      exact .reads own ok
  · exact .refl

theorem eofMoved (own : e.Of i k) : Moved env verifySig s e i h (h.eof env verifySig k) := by
  unfold Host.eof
  split
  · exact releaseMoved own (acceptChain env verifySig h.node _)
  · exact .refl

theorem serveKeeps (taken : h.serve = some h') : h'.node = h.node ∧ h'.syncSem = h.syncSem := by
  obtain ⟨l,_,rfl⟩ := Option.map_eq_some_iff.mp taken
  exact ⟨rfl,rfl⟩

end

section
variable {P E : Type} [DecidableEq P] {env : Env E} {verifySig : VerifySig} {s : Net P} {e : Event P} {i : P} {h h' : Host P}
  {k : Fin maxConcurrentSyncs}

theorem atFound (found : s i = some h) (j : P) (f : Host P → Host P) :
    (s.at j f) i = some (if i = j then f h else h) := by
  unfold Net.at
  split
  · rw [found]
    rfl
  · exact found

theorem handleBlockMoved (sender : Option P) (b : Block) :
    Moved env verifySig s e i h (h.handleBlock env verifySig i sender b) := by
  have chain := acceptChain env verifySig h.node b
  unfold Host.handleBlock
  split
  · rename_i n gap
    rw [gap] at chain
    cases sender with
    | none => exact movedNode chain
    | some j =>
      dsimp only
      split
      · exact movedNode chain
      · rename_i other
        split
        · exact movedNode chain
        · rename_i l free
          have empty : h.syncSem l = none := by simpa using List.find?_some free
          refine movedSlot (k := l) (c := some ⟨j,b,.spawned⟩) chain ?_ rfl
          rw [empty]
          exact .spawns other
  · rename_i result
    rw [result] at chain
    exact movedNode chain

theorem answerMoved (found : s i = some h) (a : P) (l : Fin maxConcurrentSyncs) :
    ∃ h', s.answer a l i = some h' ∧ Moved env verifySig s (.answer a l) i h h' := by
  unfold Net.answer
  cases asker : s a with
  | none => exact ⟨h,found,.refl⟩
  | some ha =>
    dsimp only
    rcases held : ha.syncSem l with _ | ⟨j,gap,_ | start | rest⟩
    · exact ⟨h,found,.refl⟩
    · exact ⟨h,found,.refl⟩
    · dsimp only
      cases runs : s j with
      | none => exact ⟨h,found,.refl⟩
      | some peer =>
        dsimp only
        cases taken : peer.serve with
        | none =>
          refine ⟨_,atFound found a _,?_⟩
          split
          · rename_i own
            exact releaseMoved (e := .answer a l) (k := l) ⟨own.symm,rfl⟩ (.inl rfl)
          · exact .refl
        | some peer' =>
          obtain ⟨node,slots⟩ := serveKeeps taken
          have first := atFound found j (fun _ => peer')
          refine ⟨_,atFound first a _,?_⟩
          by_cases asks : i = a
          · subst asks
            obtain rfl := Option.some.inj (found.symm.trans asker)
            have own : (Event.answer i l).Of i l := ⟨rfl,rfl⟩
            rw [if_pos rfl]
            by_cases self : i = j
            · subst self
              obtain rfl := Option.some.inj (found.symm.trans runs)
              rw [if_pos rfl]
              refine movedSlot (k := l) (.inl (congrArg Node.chain node)) ?_ (by rw [Host.progress,slots])
              rw [held]
              exact .answers own found
            · rw [if_neg self]
              refine movedSlot (k := l) (.inl rfl) ?_ rfl
              rw [held]
              exact .answers own runs
          · rw [if_neg asks]
            split
            · rename_i self
              subst self
              obtain rfl := Option.some.inj (found.symm.trans runs)
              exact movedKept node slots
            · exact .refl
    · exact ⟨h,found,.refl⟩

theorem answered {j : P} {gap : Block} {first : UInt64} {peer peer' : Host P} (found : s i = some h)
    (held : h.syncSem k = some ⟨j,gap,.asked first⟩) (runs : s j = some peer) (taken : peer.serve = some peer') :
    ∃ h', s.answer i k i = some h' ∧ h'.node.chain = h.node.chain ∧
      h'.syncSem k = some ⟨j,gap,.reading ((peer.node.canonicalBlocksFrom first).take Node.maxBlocksPerSync)⟩ := by
  have first' := atFound found j (fun _ => peer')
  have second := atFound first' i (·.progress k
    ⟨j,gap,.reading ((peer.node.canonicalBlocksFrom first).take Node.maxBlocksPerSync)⟩)
  rw [if_pos rfl] at second
  have same : s.answer i k i = some ((if i = j then peer' else h).progress k
      ⟨j,gap,.reading ((peer.node.canonicalBlocksFrom first).take Node.maxBlocksPerSync)⟩) := by
    simp only [Net.answer,found,held,runs,taken]
    exact second
  refine ⟨_,same,?_,if_pos rfl⟩
  · show (if i = j then peer' else h).node.chain = h.node.chain
    split
    · rename_i self
      subst self
      obtain rfl := Option.some.inj (found.symm.trans runs)
      exact congrArg Node.chain (serveKeeps taken).1
    · rfl

theorem stepMoved (env : Env E) (verifySig : VerifySig) (found : s i = some h) (e : Event P) :
    ∃ h', s.step env verifySig e i = some h' ∧ Moved env verifySig s e i h h' := by
  have within (j : P) (f : Host P → Host P) (moved : i = j → Moved env verifySig s e i h (f h)) :
      ∃ h', (s.at j f) i = some h' ∧ Moved env verifySig s e i h h' := by
    refine ⟨_,atFound found j f,?_⟩
    split
    · exact moved ‹_›
    · exact .refl
  cases e with
  | call j op =>
    refine within j _ fun _ => movedNode ?_
    rcases stepChain env verifySig h.node op with ⟨same,_⟩ | ⟨b,c',added,same,_⟩
    · exact .inl same
    · exact .inr ⟨b,same ▸ added⟩
  | block j sender b =>
    refine within j _ fun own => ?_
    subst own
    unfold Host.readBlocks
    split
    · exact .refl
    · exact handleBlockMoved sender b
  | tx j sender t =>
    refine within j _ fun _ => ?_
    unfold Host.readTxs
    split
    · exact .refl
    · refine movedNode (.inl ?_)
      rcases submitTxCases verifySig h.node t with same | ⟨_,same⟩
      · rw [same]
      · rw [same]
        rfl
  | ask j l => exact within j _ fun own => askMoved ⟨own.symm,rfl⟩
  | answer j l => exact answerMoved found j l
  | forge j l blocks =>
    refine within j _ fun own => ?_
    split
    · rename_i gap start held
      split
      · exact .refl
      · rename_i foreign
        refine movedSlot (k := l) (.inl rfl) ?_ rfl
        rw [held]
        exact .forges (e := .forge j l blocks) (k := l) ⟨own.symm,rfl⟩ (by simpa using foreign)
    · exact .refl
  | read j l => exact within j _ fun own => readMoved ⟨own.symm,rfl⟩
  | eof j l => exact within j _ fun own => eofMoved ⟨own.symm,rfl⟩
  | fail j l => exact within j _ fun own => releaseMoved (e := .fail j l) (k := l) ⟨own.symm,rfl⟩ (.inl rfl)
  | serve j =>
    refine within j _ fun _ => ?_
    cases taken : h.serve with
    | none => exact .refl
    | some h' => exact movedKept (serveKeeps taken).1 (serveKeeps taken).2
  | served j l => exact within j _ fun _ => movedKept rfl rfl

omit [DecidableEq P] in
theorem slotKept {c : CatchUp P} (move : SlotMove env verifySig s e i k h h' (h.syncSem k) (h'.syncSem k))
    (held : h.syncSem k = some c) (other : ¬ e.Of i k) : h'.syncSem k = some c := by
  rw [held] at move
  generalize h'.syncSem k = after at move
  cases move with
  | same => rfl
  | ends own | asks own | answers own | forges own | reads own => exact absurd own other

theorem stepNone (env : Env E) (verifySig : VerifySig) (gone : s i = none) (e : Event P) :
    s.step env verifySig e i = none := by
  have still (t : Net P) (j : P) (f : Host P → Host P) (none' : t i = none) : (t.at j f) i = none := by
    unfold Net.at
    split
    · rw [none']
      rfl
    · exact none'
  cases e with
  | answer a l =>
    show s.answer a l i = none
    unfold Net.answer
    cases s a with
    | none => exact gone
    | some ha =>
      dsimp only
      rcases ha.syncSem l with _ | ⟨j,gap,_ | start | rest⟩
      · exact gone
      · exact gone
      · dsimp only
        cases s j with
        | none => exact gone
        | some peer =>
          dsimp only
          cases peer.serve with
          | none => exact still s _ _ gone
          | some peer' => exact still _ _ _ (still s _ _ gone)
      · exact gone
  | _ => exact still s _ _ gone

theorem runNone (env : Env E) (verifySig : VerifySig) (gone : s i = none) (es : List (Event P)) :
    s.run env verifySig es i = none := by
  induction es generalizing s with
  | nil => exact gone
  | cons e es ih => exact ih (stepNone env verifySig gone e)

theorem runFeeds (env : Env E) (verifySig : VerifySig) (found : s i = some h) (es : List (Event P)) :
    ∃ h' bs, s.run env verifySig es i = some h' ∧ h'.node.chain = h.node.chain.feed env verifySig bs := by
  induction es generalizing s h with
  | nil => exact ⟨h,[],found,rfl⟩
  | cons e es ih =>
    obtain ⟨h₁,stepped,moved⟩ := stepMoved env verifySig found e
    obtain ⟨h',bs,ran,fed⟩ := ih stepped
    rcases moved.chain with same | ⟨b,added⟩
    · exact ⟨h',bs,ran,same ▸ fed⟩
    · refine ⟨h',b::bs,ran,fed.trans ?_⟩
      rw [← offerOk added]
      rfl

end
end L1Chain.P2P
