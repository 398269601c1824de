import L1Chain.BranchNonces
import L1Chain.Merkle

/-! What a block's hash says about its transactions. A header names the root of the
transactions' hash tree; the tree repeats nodes, its leaves carry no tag, and a
transaction's bytes run data and signature together. An accepted block has no repeated
transaction and signatures of one size, and that is enough to read the list back. -/
namespace L1Chain

-- Package wallet. A recovered key is its uncompressed serialisation, tag byte first.
namespace Wallet

abbrev RecoverCompact := Bytes → Hash → Option Bytes

def pubKeyAddress (sha : Bytes → Hash) (uncompressed : Bytes) : Address := (sha (uncompressed.drop 1)).setWidth 160

def verify (sha : Bytes → Hash) (recoverCompact : RecoverCompact) (tx : Transaction) : Bool :=
  if tx.signature.length ≠ 65 then false else
    match recoverCompact tx.signature (tx.signingHash sha) with
    | none => false
    | some pub => pubKeyAddress sha pub == tx.sender

theorem verifySize {sha : Bytes → Hash} {recoverCompact : RecoverCompact} {tx : Transaction}
    (valid : verify sha recoverCompact tx = true) : tx.signature.length = 65 := by
  unfold verify at valid
  split at valid
  · cases valid
  · rename_i size
    exact Decidable.not_not.mp size

end Wallet

section
variable {sha : Bytes → Hash} {level : List Hash} {tx u : Transaction}

theorem headerInjective {h k : Header} (same : h.preimage true = k.preimage true) : h = k := by
  simp only [Header.preimage,List.append_assoc,if_true] at same
  obtain ⟨height,same⟩ := List.append_inj same (by simp)
  obtain ⟨prev,same⟩ := List.append_inj same (by simp)
  obtain ⟨merkle,same⟩ := List.append_inj same (by simp)
  obtain ⟨state,same⟩ := List.append_inj same (by simp)
  obtain ⟨coinbase,same⟩ := List.append_inj same (by simp)
  obtain ⟨time,same⟩ := List.append_inj same (by simp)
  obtain ⟨difficulty,same⟩ := List.append_inj same (by simp)
  obtain ⟨nonce,same⟩ := List.append_inj same (by simp)
  obtain ⟨fee,same⟩ := List.append_inj same (by simp)
  obtain ⟨gas,signature⟩ := List.append_inj same (by simp)
  have stamp : h.timestamp = k.timestamp := by
    have stamps := congrArg UInt64.toInt64 (be64Injective time)
    simpa using stamps
  cases h
  cases k
  simp only [Header.mk.injEq]
  exact ⟨be64Injective height,hashBytesInjective prev,hashBytesInjective merkle,hashBytesInjective state,
    addressBytesInjective coinbase,stamp,be32Injective difficulty,be64Injective nonce,be64Injective fee,
    be64Injective gas,signature⟩

theorem transactionInjective (size : tx.signature.length = 65) (size' : u.signature.length = 65)
    (same : tx.preimage true = u.preimage true) : tx = u := by
  simp only [Transaction.preimage,List.append_assoc,if_true] at same
  obtain ⟨sender,same⟩ := List.append_inj same (by simp)
  obtain ⟨recipient,same⟩ := List.append_inj same (by simp)
  obtain ⟨value,same⟩ := List.append_inj same (by simp)
  obtain ⟨nonce,same⟩ := List.append_inj same (by simp)
  obtain ⟨gas,same⟩ := List.append_inj same (by simp)
  obtain ⟨chain,same⟩ := List.append_inj same (by simp)
  obtain ⟨cap,same⟩ := List.append_inj same (by simp)
  obtain ⟨tip,same⟩ := List.append_inj same (by simp)
  obtain ⟨data,signature⟩ := List.append_inj' same (by rw [size,size'])
  cases tx
  cases u
  simp only [Transaction.mk.injEq]
  exact ⟨addressBytesInjective sender,addressBytesInjective recipient,be64Injective value,be64Injective nonce,
    be64Injective gas,be64Injective chain,be64Injective cap,be64Injective tip,data,signature⟩

def nodeBytes (left right : Hash) : Bytes := [Hash.bytes left,Hash.bytes right].flatten

theorem nodeInjective {x y x' y' : Hash} (same : nodeBytes x y = nodeBytes x' y') : x = x' ∧ y = y' := by
  simp only [nodeBytes,List.flatten_cons,List.flatten_nil,List.append_nil] at same
  obtain ⟨left,right⟩ := List.append_inj same (by simp)
  exact ⟨hashBytesInjective left,hashBytesInjective right⟩

theorem leafApart (size : tx.signature.length = 65) (x y : Hash) : tx.preimage true ≠ nodeBytes x y := by
  intro same
  have sizes := congrArg List.length same
  simp [Transaction.preimage,nodeBytes,size] at sizes
  omega

theorem pairUpRaise (sha : Bytes → Hash) (level : List Hash) :
    pairUp sha (padOdd level) = Merkle.raise (fun left right => sha (nodeBytes left right)) level := by
  induction level using Merkle.raise.induct with
  | case1 => rfl
  | case2 a => rfl
  | case3 a b rest ih =>
    have shape : padOdd (a::b::rest) = a::b::padOdd rest := by
      cases rest with
      | nil => simp [padOdd]
      | cons c rest =>
        have parity : (rest.length + 1 + 1 + 1) % 2 = (rest.length + 1) % 2 := by omega
        simp only [padOdd,List.length_cons,parity,List.getLast?_cons_cons]
        split
        · rfl
        · rfl
    rw [shape,pairUp,ih]
    rfl

theorem merkleRoundsEq (sha : Bytes → Hash) (fuel : Nat) (level : List Hash) :
    merkleRounds sha fuel level = (Merkle.rounds (fun left right => sha (nodeBytes left right)) fuel level).getD 0 := by
  induction fuel generalizing level with
  | zero => exact List.headD_eq_head?_getD ..
  | succ fuel ih =>
    rw [merkleRounds,Merkle.rounds,ih,pairUpRaise]
    split
    · exact List.headD_eq_head?_getD ..
    · rfl

def txDigest (sha : Bytes → Hash) : Merkle.Tree Transaction → Hash := Merkle.Tree.digest sha (·.preimage true) nodeBytes

theorem txRootEq (sha : Bytes → Hash) (b : Block) : b.txRoot sha = ((Merkle.tree b.txs).map (txDigest sha)).getD 0 := by
  rw [Block.txRoot,merkleRoot]
  split
  · rename_i none
    rw [List.map_eq_nil_iff.mp none]
    rfl
  · have leaves : b.txs.map (·.hash sha) = (b.txs.map Merkle.Tree.leaf).map (txDigest sha) := by
      rw [List.map_map]
      rfl
    have commutes : ∀ x y, txDigest sha (.node x y) = sha (nodeBytes (txDigest sha x) (txDigest sha y)) := fun _ _ => rfl
    have mapped : Merkle.rounds (fun left right => sha (nodeBytes left right)) b.txs.length
        ((b.txs.map Merkle.Tree.leaf).map (txDigest sha)) = (Merkle.tree b.txs).map (txDigest sha) :=
      Merkle.roundsMap commutes
    rw [merkleRoundsEq,List.length_map,leaves,mapped]

def Block.hashed (sha : Bytes → Hash) (b : Block) : List Bytes :=
  b.header.preimage true::((Merkle.tree b.txs).map (Merkle.Tree.inputs sha (·.preimage true) nodeBytes)).getD []

structure Body (sha : Bytes → Hash) (b : Block) : Prop where
  root : b.txRoot sha = b.header.merkleRoot
  once : b.txs.Nodup
  signed : ∀ tx ∈ b.txs, tx.signature.length = 65

theorem bodyFixed {b b' : Block} (own : Body sha b) (theirs : Body sha b')
    (sums : Set.InjOn sha {x | x ∈ b.hashed sha ∨ x ∈ b'.hashed sha})
    (nonzero : ∀ x, x ∈ b.hashed sha ∨ x ∈ b'.hashed sha → sha x ≠ 0) (same : b.hash sha = b'.hash sha) : b = b' := by
  have header : b.header = b'.header :=
    headerInjective (sums (.inl (List.mem_cons_self ..)) (.inr (List.mem_cons_self ..)) same)
  have roots : b.txRoot sha = b'.txRoot sha := by rw [own.root,theirs.root,header]
  have bodies : b.txs = b'.txs := by
    rw [txRootEq,txRootEq] at roots
    cases left : Merkle.tree b.txs with
    | none =>
      cases right : Merkle.tree b'.txs with
      | none => rw [Merkle.treeNone.mp left,Merkle.treeNone.mp right]
      | some t =>
        obtain ⟨x,inside,summed⟩ := Merkle.digestSummed sha (·.preimage true) nodeBytes t
        rw [left,right] at roots
        exact absurd (summed.symm.trans roots.symm) (nonzero x (.inr (by simp [Block.hashed,right,inside])))
    | some s =>
      cases right : Merkle.tree b'.txs with
      | none =>
        obtain ⟨x,inside,summed⟩ := Merkle.digestSummed sha (·.preimage true) nodeBytes s
        rw [left,right] at roots
        exact absurd (summed.symm.trans roots) (nonzero x (.inl (by simp [Block.hashed,left,inside])))
      | some t =>
        rw [left,right] at roots
        have singles : Set.InjOn (fun tx : Transaction => tx.preimage true) {tx | tx.signature.length = 65} :=
          fun x size y size' => transactionInjective size size'
        have trees : s = t := by
          refine Merkle.digestInjective sums singles (fun _ _ _ _ => nodeInjective)
            (fun _ size => leafApart size) (fun x inside => .inl ?_) (fun x inside => .inr ?_)
            (fun tx inside => own.signed tx (Merkle.treeLeaves left tx inside))
            (fun tx inside => theirs.signed tx (Merkle.treeLeaves right tx inside)) roots
          · simp [Block.hashed,left,inside]
          · simp [Block.hashed,right,inside]
        rw [trees] at left
        exact Merkle.treeInjective own.once theirs.once left right
  cases b
  cases b'
  cases header
  cases bodies
  rfl

end

open Transition Runs

section
variable {E : Type} {env : Env E} {verifySig : VerifySig} {c d d' : Chain} {b b' : Block} {st : MptState} {w : UInt64}

theorem appliedBody {mode : Exchange.Mode} {before : MptState} {r : MptState × UInt64}
    (root : b.txRoot env.sha = b.header.merkleRoot) (rewarded : applyBlockRewarded env verifySig mode before b = .ok r)
    (sized : ∀ tx, verifySig tx = true → tx.signature.length = 65) (few : b.txs.length < 2 ^ 63)
    (law : NonceLaw env verifySig mode (b.txs.map (·.sender)) before b) : Body env.sha b := by
  have apart := sendersApart (fun a sends => ⟨_,(rewardedNonces law sends rewarded).1⟩) (by omega)
  simp only [applyBlockRewarded,bindOk] at rewarded
  obtain ⟨_,applied,_⟩ := rewarded
  refine ⟨root,apart.imp (fun differ same => ?_),fun tx member => sized tx (blockSigned applied tx member)⟩
  rw [same] at differ
  exact differ rfl rfl

theorem acceptedBody (a : Accepted env verifySig c b st w)
    (sized : ∀ tx, verifySig tx = true → tx.signature.length = 65) (few : b.txs.length < 2 ^ 63)
    (law : ∀ before, c.deriveState env verifySig b.header.prevHash = .ok before →
      NonceLaw env verifySig c.exchangeMode (b.txs.map (·.sender)) before b) : Body env.sha b := by
  obtain ⟨before,derived,rewarded⟩ := a.derived
  exact appliedBody a.txRoot rewarded sized few (law before derived)

/- Two blocks of one hash that a chain would accept, each on its own, are the same
block. `law` and `law'` are what the interpreter promises about nonces. -/
theorem hashFixesBody {recoverCompact : Wallet.RecoverCompact}
    (added : c.addBlock env (Wallet.verify env.sha recoverCompact) b = .ok d)
    (added' : c.addBlock env (Wallet.verify env.sha recoverCompact) b' = .ok d')
    (sums : Set.InjOn env.sha {x | x ∈ b.hashed env.sha ∨ x ∈ b'.hashed env.sha})
    (nonzero : ∀ x, x ∈ b.hashed env.sha ∨ x ∈ b'.hashed env.sha → env.sha x ≠ 0)
    (few : b.txs.length < 2 ^ 63) (few' : b'.txs.length < 2 ^ 63)
    (law : ∀ before, c.deriveState env (Wallet.verify env.sha recoverCompact) b.header.prevHash = .ok before →
      NonceLaw env (Wallet.verify env.sha recoverCompact) c.exchangeMode (b.txs.map (·.sender)) before b)
    (law' : ∀ before, c.deriveState env (Wallet.verify env.sha recoverCompact) b'.header.prevHash = .ok before →
      NonceLaw env (Wallet.verify env.sha recoverCompact) c.exchangeMode (b'.txs.map (·.sender)) before b')
    (same : b.hash env.sha = b'.hash env.sha) : b.txs = b'.txs := by
  obtain ⟨_,_,a,_⟩ := addBlockOk.mp added
  obtain ⟨_,_,a',_⟩ := addBlockOk.mp added'
  have sized := fun tx => @Wallet.verifySize env.sha recoverCompact tx
  rw [bodyFixed (acceptedBody a sized few law) (acceptedBody a' sized few' law') sums nonzero same]

end

namespace Devnet

def recoverFirst : Wallet.RecoverCompact := fun _ _ => some (List.replicate 65 0)

def signedPayment : Transaction := {payment defaultChainID with signature := List.replicate 65 7}

def signedBlock : Block := firstBlock 0 [signedPayment]

theorem signedVerified : Wallet.verify env.sha recoverFirst signedPayment = true := by
  decide +kernel

theorem signedApplied : applyTxsAt env (Wallet.verify env.sha recoverFirst) soloFunds [signedPayment] 1 .continuous 0 =
    .ok ⟨soloMoved,0,0⟩ := by
  have moved : applyTxAtSession env (Wallet.verify env.sha recoverFirst) soloFunds signedPayment 1 0 none 0 =
      .ok ⟨soloMoved,none,0,0⟩ := applyTxOk.mpr ⟨signedVerified,rfl,rfl⟩
  simp only [applyTxsAt,bindOk]
  exact ⟨none,rfl,⟨soloMoved,none,0,0⟩,loopCons.mpr ⟨_,moved,rfl⟩,_,rfl,rfl⟩

theorem signedCandidate : ((soloSetup 0).chain env).candidate env (Wallet.verify env.sha recoverFirst) [signedPayment]
    (account 3) = .ok (soloPaid,0) := by
  have own : ∀ tx ∈ [signedPayment], tx.chainID = (soloConfig 0).resolvedChainID := by
    intro tx member
    rw [List.mem_singleton.mp member]
    rfl
  exact @firstCandidate _ engine _ 0 _ ⟨soloMoved,0,0⟩ own signedApplied

theorem signedHashed : signedBlock.hashed env.sha = [signedBlock.header.preimage true,signedPayment.preimage true] := rfl

theorem paymentHash : env.sha (signedPayment.preimage true) = hashAt 0 0x0707070707070707 := by
  decide +kernel

theorem signedBlockFixed : ∃ d, ((soloSetup 0).chain env).addBlock env (Wallet.verify env.sha recoverFirst) signedBlock = .ok d ∧
    signedBlock.txs = [signedPayment] := by
  have added : ((soloSetup 0).chain env).addBlock env (Wallet.verify env.sha recoverFirst) signedBlock = .ok _ :=
    addBlockOk.mpr ⟨_,_,firstAccepted signedCandidate,rfl⟩
  have inputs : ∀ x, x ∈ signedBlock.hashed env.sha ∨ x ∈ signedBlock.hashed env.sha →
      x = signedBlock.header.preimage true ∨ x = signedPayment.preimage true := by
    rw [signedHashed]
    simp
  have header : env.sha (signedBlock.header.preimage true) = hashAt 1 1 := firstHash 0 _
  have apart : hashAt 1 1 ≠ hashAt 0 0x0707070707070707 := fun same =>
    absurd (hashAtInj (by omega) (by omega) (by omega) (by omega) same).1 (by omega)
  have law : ∀ before, ((soloSetup 0).chain env).deriveState env (Wallet.verify env.sha recoverFirst)
      signedBlock.header.prevHash = .ok before → NonceLaw env (Wallet.verify env.sha recoverFirst)
        ((soloSetup 0).chain env).exchangeMode (signedBlock.txs.map (·.sender)) before signedBlock := by
    intro before derived
    have root : ((soloSetup 0).chain env).Path signedBlock.header.prevHash [(soloSetup 0).genesis.toBlock env] := by
      rw [signedBlock,firstPrev]
      exact setupStart env (soloSetup 0)
    rw [derivePath (setupSound (soloSetup 0) : Sound env anySig _).rooted root] at derived
    have funds : soloFunds = before := Except.ok.inj derived
    have routed : route soloFunds signedPayment = .transfer := rfl
    exact singleLaw rfl (by rw [← funds,routed]; decide)
  refine ⟨_,added,hashFixesBody added added ?_ ?_ (by decide) (by decide) ?_ ?_ rfl⟩
  · intro x left y right same
    rcases inputs x left with rfl | rfl
    · rcases inputs y right with rfl | rfl
      · rfl
      · rw [header,paymentHash] at same
        exact absurd same apart
    · rcases inputs y right with rfl | rfl
      · rw [header,paymentHash] at same
        exact absurd same.symm apart
      · rfl
  · intro x member
    rcases inputs x member with rfl | rfl
    · rw [header]
      exact hashAtPos (by omega) (by omega)
    · rw [paymentHash]
      exact hashAtPos (by omega) (by omega)
  · exact law
  · exact law

end Devnet
end L1Chain
