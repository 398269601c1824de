import L1Chain.Auction
import L1Chain.BranchNonces
import L1Chain.Frame
import L1Chain.Locks
import L1Chain.Progress

/-! Solvency of the exchange along a branch. The quote of an order is the native coin of
its owner, and only the engine knows that it is locked: transfers, gas and running code
spend the balance as a whole. A branch stays solvent where each of these leaves the
locked part alone. -/
namespace L1Chain.Transition
open Exchange MptState StackVM Adapter Runs

section
variable {E : Type}

def Locked (st : MptState) (a : Address) : Prop := lockedQuoteOf st a ≠ 0

def runsCode (st : MptState) (tx : Transaction) : Bool := route st tx = .evm ∨ route st tx = .contract

/- A transaction beside the book spends what its sender has not locked; no account with a
lock and not the exchange account itself runs code that could spend or rewrite it. -/
structure Spends (st : MptState) (tx : Transaction) : Prop where
  fits : st.supply < 2 ^ 64
  book : (st.accounts Exchange.address).code = []
  codeless : Codeless (Locked st) st
  unlocked : Locked st tx.sender →
    (lockedQuoteOf st tx.sender).toNat + cost (runsCode st) tx ≤ st.balances tx.sender

inductive LedgerStep (E : Type) where
  | tx (x : Applied MptState E)
  | reward (before : MptState) (coinbase : Address) (amount : UInt64)

def LedgerStep.Prudent : LedgerStep E → Prop
  | .tx x => route x.before x.tx = .exchange ∨ route x.before x.tx = .attestation ∨ Spends x.before x.tx
  | .reward before coinbase amount => before.balances coinbase + amount.toNat < 2 ^ 64

def blockSteps (env : Env E) (verifySig : VerifySig) (mode : Mode) (st : MptState) (b : Block) : List (LedgerStep E) :=
  (blockTrace env verifySig st b.txs b.header.height mode b.header.baseFee).map .tx ++
  match applyTxsAt env verifySig st b.txs b.header.height mode b.header.baseFee with
  | .error _ => []
  | .ok r => if b.header.height ≠ 0 then [.reward r.st b.header.coinbase (blockReward + r.tip)] else []

def Prudent (env : Env E) (verifySig : VerifySig) (mode : Mode) (st : MptState) (b : Block) : Prop :=
  ∀ step ∈ blockSteps env verifySig mode st b, step.Prudent

/- What the interpreter promises of a message, where neither the exchange account nor an
account with a lock has code: it does not write the exchange account's storage, ends
within its gas and takes nothing but the sender's value from the locked accounts. -/
def Applied.EvmLaw (env : Env E) (height baseFee : UInt64) (x : Applied MptState E) : Prop :=
  route x.before x.tx = .evm → (x.before.accounts Exchange.address).code = [] → Codeless (Locked x.before) x.before →
  x.before.supply < 2 ^ 64 →
    EvmSpares env x.before x.tx height baseFee Exchange.address ∧
    ∀ gasUsed sdb, runEVM env (reserved x.before x.tx) x.tx height baseFee = some (gasUsed,sdb) →
      gasUsed ≤ x.tx.gasLimit ∧ Leaves (Locked x.before) x.tx (reserved x.before x.tx) sdb.finalise.base

def EvmLaw (env : Env E) (verifySig : VerifySig) (mode : Mode) (st : MptState) (b : Block) : Prop :=
  ∀ x ∈ blockTrace env verifySig st b.txs b.header.height mode b.header.baseFee,
    x.EvmLaw env b.header.height b.header.baseFee

end

section
variable {E : Type} {env : Env E} {verifySig : VerifySig} {Valid : E → List Order → Prop} {st st' : MptState}
  {tx : Transaction} {txs : List Transaction} {b : Block} {bs : List Block} {height baseFee : UInt64} {index : UInt32}
  {mode : Mode} {session : Option (BatchSession E)} {o : Outcome MptState E} {a : Address}

theorem bumpedSolvent (solvent : Solvent st) : Solvent (bumped st a) := by
  refine solventFrame solvent (bumpedStorage a) (fun x _ => ?_)
  rw [bumpedBalances]
  exact solventHeld solvent x

theorem spendsSolvent (spends : Spends st tx) (solvent : Solvent st)
    (storage : (st'.accounts Exchange.address).storage = (st.accounts Exchange.address).storage)
    (kept : ∀ a, Locked st a → st.balances a ≤ st'.balances a + if a = tx.sender then cost (runsCode st) tx else 0) :
    Solvent st' := by
  refine solventFrame solvent storage (fun a locked => ?_)
  have held := solventHeld solvent a
  have left := kept a locked
  split at left
  · rename_i own
    subst own
    have room := spends.unlocked locked
    omega
  · omega

theorem transferSolvent (spends : Spends st tx) (solvent : Solvent st)
    (ok : applyTransfer st tx (getAccount st tx.sender) = .ok st') : Solvent st' := by
  obtain ⟨enough,rfl⟩ := transferPays.mp ok
  have small : (bumped st tx.sender).supply < 2 ^ 64 := bumpedSupply.trans_lt spends.fits
  have funded : (bumped st tx.sender).Funded tx.sender tx.recipient tx.value := by
    refine .inr (.inr ?_)
    rw [bumpedAt,if_pos rfl]
    exact enough
  refine spendsSolvent spends solvent (payFrame.2.2.trans (bumpedStorage _)) (fun a _ => ?_)
  refine (transferKeeps small funded a).trans (Nat.add_le_add_left ?_ _)
  split
  · exact Nat.le_add_right _ _
  · exact le_rfl

theorem contractSolvent {r : UInt64 × MptState} (routed : route st tx = .contract) (spends : Spends st tx)
    (solvent : Solvent st) (ok : applyContractTx env st tx (getAccount st tx.sender) baseFee = .ok r) : Solvent r.2 := by
  have storage := contractStorage spends.book ok
  obtain ⟨can,rfl⟩ := contractOk.mp ok
  obtain ⟨within,done⟩ := executed env.sha (charged st tx) (message tx)
  have small : (charged st tx).supply < 2 ^ 64 := (Nat.le.intro (chargedSupply can)).trans_lt spends.fits
  have keeps : ∀ a, Locked st a → (charged st tx).balances a ≤
      (execute env.sha (charged st tx) (message tx)).2.balances a + if a = tx.sender then tx.value.toNat else 0 := by
    intro a locked
    have code : ((charged st tx).accounts a).code = (st.accounts a).code := putKeeps (·.code) rfl
    exact executedKeeps small (code.trans (spends.codeless a locked)) done
  have priced : runsCode st tx = true := by simp [runsCode,routed]
  have paid := creditAdvances priced can spends.fits within (done.supply small).le keeps chargedBalances
  exact spendsSolvent spends solvent storage paid.2

theorem evmSolvent {r : UInt64 × MptState} (routed : route st tx = .evm) (spends : Spends st tx)
    (law : (⟨st,tx,o⟩ : Applied MptState E).EvmLaw env height baseFee) (solvent : Solvent st)
    (ok : applyEVMTx env st tx (getAccount st tx.sender) height baseFee = .ok r) : Solvent r.2 := by
  obtain ⟨spares,message⟩ := law routed spends.book spends.codeless spends.fits
  obtain ⟨wiped,kept⟩ := evmStorage spares ok
  by_cases cleans : Cleans env st tx height baseFee Exchange.address
  · exact solventWiped (wiped cleans)
  · have storage := kept cleans
    obtain ⟨can,gasUsed,sdb,ran,rfl⟩ := evmOk.mp ok
    obtain ⟨within,leaves⟩ := message gasUsed sdb ran
    have priced : runsCode st tx = true := by simp [runsCode,routed]
    have paid := creditAdvances priced can spends.fits within leaves.supply leaves.balances rfl
    refine spendsSolvent spends solvent storage (fun a locked => ?_)
    rw [settledBalances]
    exact paid.2 a locked

theorem txSolvent (locks : Locks env.engine Valid) (law : (⟨st,tx,o⟩ : Applied MptState E).EvmLaw env height baseFee)
    (prudent : (LedgerStep.tx (⟨st,tx,o⟩ : Applied MptState E)).Prudent) (solvent : Solvent st)
    (ok : applyTxAtSession env verifySig st tx height index session baseFee = .ok o) : Solvent o.st := by
  obtain ⟨_,_,ran⟩ := applyTxOk.mp ok
  unfold LedgerStep.Prudent at prudent
  cases routed : route st tx with
  | exchange =>
    rw [routed] at ran
    cases session with
    | none =>
      obtain ⟨_,after,matched,rfl⟩ := spotOk.mp ran
      exact applySolvent locks (bumpedSolvent solvent) matched
    | some s =>
      obtain ⟨_,_,_,rfl⟩ := orderOk.mp ran
      exact bumpedSolvent solvent
  | attestation =>
    rw [routed] at ran
    obtain rfl := Except.ok.inj ran
    exact bumpedSolvent solvent
  | evm =>
    simp only [routed,reduceCtorEq,false_or] at prudent
    rw [routed] at ran
    obtain ⟨r,paid,rfl⟩ := mapOk.mp ran
    exact evmSolvent routed prudent law solvent paid
  | contract =>
    simp only [routed,reduceCtorEq,false_or] at prudent
    rw [routed] at ran
    obtain ⟨r,paid,rfl⟩ := mapOk.mp ran
    exact contractSolvent routed prudent solvent paid
  | transfer =>
    simp only [routed,reduceCtorEq,false_or] at prudent
    rw [routed] at ran
    obtain ⟨after,paid,rfl⟩ := mapOk.mp ran
    exact transferSolvent prudent solvent paid

def SessionValid (Valid : E → List Order → Prop) (session : Option (BatchSession E)) : Prop :=
  ∀ s, session = some s → Valid s.engine s.staged

theorem txSessionValid (locks : Locks env.engine Valid) (valid : SessionValid Valid session)
    (ok : applyTxAtSession env verifySig st tx height index session baseFee = .ok o) : SessionValid Valid o.session := by
  intro s' now
  cases session with
  | none =>
    rw [txClosed ok] at now
    cases now
  | some s =>
    obtain ⟨next,same,taken⟩ := txSession ok
    rw [same] at now
    cases now
    split at taken
    · exact sessionValid locks (valid s rfl) taken
    · exact taken ▸ valid s rfl

theorem loopSolvent (locks : Locks env.engine Valid) {i : Nat} {acc : Outcome MptState E}
    (law : ∀ x ∈ applied env verifySig height baseFee i acc txs, x.EvmLaw env height baseFee)
    (prudent : ∀ x ∈ applied env verifySig height baseFee i acc txs, (LedgerStep.tx x).Prudent)
    (valid : SessionValid Valid acc.session) (solvent : Solvent acc.st)
    (ok : applyLoop env verifySig height baseFee i acc txs = .ok o) :
    Solvent o.st ∧ SessionValid Valid o.session := by
  induction txs generalizing i acc with
  | nil =>
    obtain rfl := Except.ok.inj ok
    exact ⟨solvent,valid⟩
  | cons tx txs ih =>
    obtain ⟨first,ran,rest⟩ := loopCons.mp ok
    simp only [applied,ran] at law prudent
    have after : Solvent first.st :=
      txSolvent locks (law _ List.mem_cons_self) (prudent _ List.mem_cons_self) solvent ran
    have next : SessionValid Valid first.session := txSessionValid locks valid ran
    exact ih (fun x member => law x (List.mem_cons_of_mem _ member))
      (fun x member => prudent x (List.mem_cons_of_mem _ member)) next after rest

theorem openValid (locks : Locks env.engine Valid) (ok : openSession env st txs mode = .ok session) :
    SessionValid Valid session := by
  intro s now
  subst now
  unfold openSession at ok
  split at ok
  · rw [bindOk] at ok
    obtain ⟨opened,made,last⟩ := ok
    rw [liftExchangeOk,newBatchSession,bindOk] at made
    obtain ⟨e,loaded,fresh⟩ := made
    cases Option.some.inj (Except.ok.inj last)
    cases Except.ok.inj fresh
    exact loadValid locks loaded
  · cases ok

theorem creditSolvent {amount : UInt64} (solvent : Solvent st) (fits : st.balances a + amount.toNat < 2 ^ 64) :
    Solvent (credit st a amount) := by
  refine solventFrame solvent (putKeeps (·.storage) rfl) (fun x _ => (solventHeld solvent x).trans ?_)
  rw [balances,balances,credit,setAccountAt]
  split
  · rename_i own
    subst own
    have sum : ((getAccount st x).balance + amount).toNat = st.balances x + amount.toNat := by
      rw [UInt64.toNat_add]
      exact Nat.mod_eq_of_lt fits
    exact (Nat.le_add_right _ _).trans_eq sum.symm
  · exact le_rfl

theorem blockSolvent {after : MptState} {gas : UInt64} (locks : Locks env.engine Valid)
    (law : EvmLaw env verifySig mode st b) (prudent : Prudent env verifySig mode st b) (solvent : Solvent st)
    (ok : applyBlockRewarded env verifySig mode st b = .ok (after,gas)) : Solvent after := by
  simp only [applyBlockRewarded,bindOk] at ok
  obtain ⟨r,done,last⟩ := ok
  have steps := prudent
  simp only [Prudent,blockSteps,done,List.mem_append,List.mem_map] at steps
  have paid : Solvent r.st := by
    simp only [applyTxsAt,bindOk] at done
    obtain ⟨session,opens,o,loop,final,finished,closed⟩ := done
    cases Except.ok.inj closed
    unfold EvmLaw at law
    rw [blockTrace,opens] at law steps
    obtain ⟨looped,valid⟩ := loopSolvent locks law (fun x member => steps _ (.inl ⟨x,member,rfl⟩))
      (openValid locks opens) solvent loop
    unfold finishSession at finished
    split at finished
    · cases finished
      exact looped
    · rename_i s held
      exact finishSolvent locks (valid s held) looped (liftExchangeOk.mp finished)
  obtain ⟨rfl,_⟩ := Prod.mk.inj (Except.ok.inj last)
  split
  · rename_i tall
    have reward := steps (.reward r.st b.header.coinbase (blockReward + r.tip)) (.inr (by rw [if_pos tall]; simp))
    exact creditSolvent paid reward
  · exact paid

theorem fundUnlocked (alloc baseAlloc : AList (fun _ : Address => UInt64)) (a : Address) :
    lockedQuoteOf (fund alloc baseAlloc) a = 0 ∧ (baseOf (fund alloc baseAlloc) a).2 = 0 := by
  have credited : ∀ (entries : List ((_ : Address) × UInt64)) (st : MptState),
      ((entries.foldl (fun st e => credit st e.1 e.2) st).accounts Exchange.address).storage =
        (st.accounts Exchange.address).storage := by
    intro entries
    induction entries with
    | nil => exact fun _ => rfl
    | cons e rest ih => exact fun st => (ih _).trans (putKeeps (·.storage) rfl)
  have based : ∀ (entries : List ((_ : Address) × UInt64)) (st : MptState),
      (∀ a, lockedQuoteOf st a = 0 ∧ (baseOf st a).2 = 0) →
      ∀ a, lockedQuoteOf (entries.foldl (fun st e => creditBase st e.1 e.2) st) a = 0 ∧
        (baseOf (entries.foldl (fun st e => creditBase st e.1 e.2) st) a).2 = 0 := by
    intro entries
    induction entries with
    | nil => exact fun _ free => free
    | cons e rest ih =>
      intro st free
      refine ih _ (fun a => ?_)
      rw [creditBaseLocks.1,creditBaseLocks.2]
      exact free a
  refine based _ _ (fun a => ?_) a
  rw [lockedQuoteOf,baseOf,getStorageEq,credited]
  exact (by decide : field64 0 64 = 0 ∧ field64 0 128 = 0)

end
end L1Chain.Transition

namespace L1Chain
open Transition Exchange Runs

/- Along every stored branch whose steps spend no locked coins, every account covers what
its resting orders have locked. -/
theorem branchSolvent {E : Type} {env : Env E} {verifySig : VerifySig} {Valid : E → List Order → Prop}
    {c : Chain} {h : Hash} {path : List Block} {st : MptState} (locks : Locks env.engine Valid)
    (branch : c.chainTo h = some path)
    (law : Along (replayNext env anySig c.exchangeMode) (EvmLaw env anySig c.exchangeMode) c.fundGenesis path.tail)
    (prudent : Along (replayNext env anySig c.exchangeMode) (Prudent env anySig c.exchangeMode) c.fundGenesis path.tail)
    (derived : c.deriveState env verifySig h = .ok st) : Solvent st := by
  have any := deriveAnySig derived
  simp only [Chain.deriveState,branch] at any
  obtain ⟨run,applied⟩ := replayRun (liftTxOk.mp any)
  rw [← run]
  refine invariant Solvent (fun before b solvent step => ?_) (solventFree (fundUnlocked _ _)) (alongAnd (alongAnd law prudent) applied)
  obtain ⟨⟨lawful,prudent⟩,gas,done⟩ := step
  exact blockSolvent locks lawful prudent solvent done

namespace Devnet

def bidding (nonce : UInt64) (qty : UInt8) : Transaction :=
  {payment (soloConfig 0).resolvedChainID with
    recipient := Exchange.address, value := 0, nonce := nonce
    data := [1,0,0,0,0,0,0,0,0,10,0,0,0,0,0,0,0,qty]}

def paying (nonce : UInt64) : Transaction := {payment (soloConfig 0).resolvedChainID with nonce := nonce}

def outcome (txs : List Transaction) : Except TxErr (UInt64 × UInt64 × UInt64) :=
  (applyTxsAt (trading escrow) acceptNonEmptySig soloFunds txs 1 .continuous 0).map
    (fun r => (r.gasUsed,(r.st.accounts (account 1)).balance,lockedQuoteOf r.st (account 1)))

theorem outcomeAccepted {txs : List Transaction} {balance locked : UInt64}
    (ids : ∀ tx ∈ txs, tx.chainID = (soloConfig 0).resolvedChainID) (ran : outcome txs = .ok (0,balance,locked)) :
    ∃ st, Accepted (trading escrow) acceptNonEmptySig ((soloSetup 0).chain (trading escrow)) (firstBlock 0 txs) st 1 ∧
      (st.accounts (account 1)).balance = balance ∧ lockedQuoteOf st (account 1) = locked := by
  obtain ⟨r,ok,values⟩ := mapOk.mp ran
  obtain ⟨gas,same⟩ := Prod.mk.inj values
  obtain ⟨paid,word⟩ := Prod.mk.inj same
  have cand := firstCandidate ids ok
  rw [gas] at cand
  refine ⟨_,firstAccepted cand,?_,?_⟩
  · have other : account 1 ≠ account 3 := by decide
    rw [credit,MptState.setAccountAt,if_neg other]
    exact paid
  · have storage : ((credit r.st (account 3) (blockReward + r.tip)).accounts Exchange.address).storage =
        (r.st.accounts Exchange.address).storage := MptState.putKeeps (·.storage) rfl
    rw [lockedQuoteOf,MptState.getStorageEq,storage]
    exact word

/- Account 1 locks 70 of its 100 in a bid and then pays 40 of them away: the block is
accepted and the bid on the book is backed by 60. -/
theorem lockedCoinsSpent : Locks (trading escrow).engine Escrow.Valid ∧ LocksCommitted (trading escrow).engine Escrow.Valid ∧
    ∃ c st, ((soloSetup 0).chain (trading escrow)).addBlock (trading escrow) acceptNonEmptySig
        (firstBlock 0 [bidding 0 7,paying 1]) = .ok c ∧
      c.deriveState (trading escrow) acceptNonEmptySig c.head = .ok st ∧
      (getAccount st (account 1)).balance = 60 ∧ lockedQuoteOf st (account 1) = 70 ∧ ¬ Solvent st := by
  have ran : outcome [bidding 0 7,paying 1] = .ok (0,60,70) := by decide +kernel
  obtain ⟨st,a,balance,locked⟩ := outcomeAccepted (by simp [bidding,paying,payment]) ran
  refine ⟨escrowLocks,escrowCommitted,_,st,addBlockOk.mpr ⟨_,_,a,rfl⟩,firstDerived a,balance,locked,fun solvent => ?_⟩
  have le := (solvent (account 1)).1
  rw [locked,MptState.getAccountEq,balance] at le
  exact absurd le (by decide)

theorem tradeTrace {height baseFee : UInt64} {x : Applied MptState Escrow}
    (member : x ∈ blockTrace (trading escrow) anySig soloFunds [paying 0,bidding 1 1] height .continuous baseFee) :
    x.before = soloFunds ∧ x.tx = paying 0 ∨ x.tx = bidding 1 1 := by
  rw [blockTrace,continuousClosed] at member
  simp only [applied] at member
  split at member
  · cases member
  · rcases List.mem_cons.mp member with rfl | later
    · exact .inl ⟨rfl,rfl⟩
    · split at later
      · cases later
      · rw [List.mem_singleton.mp later]
        exact .inr rfl

theorem unlockedCoinsSpent : ∃ c st, ((soloSetup 0).chain (trading escrow)).addBlock (trading escrow) acceptNonEmptySig
      (firstBlock 0 [paying 0,bidding 1 1]) = .ok c ∧
    c.deriveState (trading escrow) acceptNonEmptySig c.head = .ok st ∧
    (getAccount st (account 1)).balance = 60 ∧ lockedQuoteOf st (account 1) = 10 ∧ Solvent st := by
  have ran : outcome [paying 0,bidding 1 1] = .ok (0,60,10) := by decide +kernel
  obtain ⟨st,a,balance,locked⟩ := outcomeAccepted (by simp [bidding,paying,payment]) ran
  have derived := firstDerived a
  refine ⟨_,st,addBlockOk.mpr ⟨_,_,a,rfl⟩,derived,balance,locked,?_⟩
  rw [(firstHead a).1] at derived
  have pays : route soloFunds (paying 0) = .transfer := rfl
  have orders : ∀ st : MptState, route st (bidding 1 1) = .exchange := fun _ => rfl
  refine branchSolvent escrowLocks (firstBranch a) ?_ ?_ derived
  · rw [firstConfig.1,firstConfig.2]
    refine ⟨fun x member evm => ?_,trivial⟩
    rcases tradeTrace member with ⟨before,tx⟩ | tx
    · rw [before,tx,pays] at evm
      cases evm
    · rw [tx,orders] at evm
      cases evm
  · rw [firstConfig.1,firstConfig.2]
    refine ⟨fun step member => ?_,trivial⟩
    rw [blockSteps] at member
    rcases List.mem_append.mp member with traced | rewarded
    · obtain ⟨x,inside,rfl⟩ := List.mem_map.mp traced
      rcases tradeTrace inside with ⟨before,tx⟩ | tx
      · have free : ∀ a, ¬ Locked soloFunds a := fun a locked => locked (fundUnlocked _ _ a).1
        refine .inr (.inr ?_)
        rw [before,tx]
        exact ⟨soloFundsSupply.trans_lt (by decide),rfl,fun a locked => absurd locked (free a),
          fun locked => absurd locked (free _)⟩
      · refine .inl ?_
        rw [tx]
        exact orders _
    · rw [(firstHeader 0 _).1,(firstHeader 0 _).2] at rewarded
      have room : (applyTxsAt (trading escrow) anySig soloFunds [paying 0,bidding 1 1] 1 .continuous 0).map
          (fun r => ((r.st.accounts (account 3)).balance,r.tip)) = .ok (0,0) := by decide +kernel
      obtain ⟨r,applied,values⟩ := mapOk.mp room
      obtain ⟨empty,tip⟩ := Prod.mk.inj values
      rw [show (firstBlock 0 [paying 0,bidding 1 1]).txs = [paying 0,bidding 1 1] from rfl,applied] at rewarded
      rw [List.mem_singleton.mp rewarded]
      show (r.st.accounts (account 3)).balance.toNat + (blockReward + r.tip).toNat < 2 ^ 64
      rw [empty,tip]
      decide

end Devnet
end L1Chain
