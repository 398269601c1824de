import L1Chain.Transition

/-! What one transaction can do. `route` is the dispatch of applyTxAtSession as
data; the inversion lemmas below say, for each route, what an accepted
transaction did to the state, the session, the gas and the tip. -/
namespace L1Chain.Transition
open Exchange Runs

variable {S E : Type} [StateDB S] {env : Env E} {verifySig : VerifySig} {st : S} {tx : Transaction}
  {height : UInt64} {index : UInt32} {session : Option (BatchSession E)} {baseFee : UInt64} {o : Outcome S E}

inductive Route where
  | exchange
  | evm
  | attestation
  | contract
  | transfer
  deriving DecidableEq, Repr

def route (st : S) (tx : Transaction) : Route :=
  if isExchangeTx tx then .exchange
  else if isEVMTx st tx then .evm
  else if Pos.isAttestationTx tx then .attestation
  else if isContractTx st tx then .contract
  else .transfer

theorem exchangeRoute : route st tx = .exchange ↔ isExchangeTx tx = true := by
  unfold route
  split
  · simp [*]
  · split
    · simp [*]
    · split
      · simp [*]
      · split <;> simp [*]

theorem evmRoute (routed : route st tx = .evm) : isEVMTx st tx = true := by
  unfold route at routed
  split at routed
  · cases routed
  · split at routed
    · assumption
    · split at routed
      · cases routed
      · split at routed <;> cases routed

def applyRoute (env : Env E) (st : S) (tx : Transaction) (height : UInt64) (index : UInt32)
    (session : Option (BatchSession E)) (baseFee : UInt64) : Route → Except TxErr (Outcome S E)
  | .exchange => applyExchangeTx env st tx (getAccount st tx.sender) height index session
  | .evm => (applyEVMTx env st tx (getAccount st tx.sender) height baseFee).map (priced session tx baseFee)
  | .attestation => .ok ⟨bumpNonce st tx.sender (getAccount st tx.sender),session,0,0⟩
  | .contract => (applyContractTx env st tx (getAccount st tx.sender) baseFee).map (priced session tx baseFee)
  | .transfer => (applyTransfer st tx (getAccount st tx.sender)).map (fun st => ⟨st,session,0,0⟩)

theorem applyTxRoute : applyTxAtSession env verifySig st tx height index session baseFee =
    if ¬ verifySig tx then .error .badSig
    else if tx.nonce ≠ (getAccount st tx.sender).nonce then .error .badNonce
    else applyRoute env st tx height index session baseFee (route st tx) := by
  unfold applyTxAtSession route
  dsimp only
  split
  · rfl
  · split
    · rfl
    · split
      · rfl
      · split
        · rfl
        · split
          · rfl
          · split <;> rfl

theorem applyTxOk : applyTxAtSession env verifySig st tx height index session baseFee = .ok o ↔
    verifySig tx = true ∧ tx.nonce = (getAccount st tx.sender).nonce ∧
      applyRoute env st tx height index session baseFee (route st tx) = .ok o := by
  rw [applyTxRoute]
  cases signed : verifySig tx with
  | false => simp
  | true =>
    by_cases nonce : tx.nonce = (getAccount st tx.sender).nonce
    · simp [nonce]
    · simp [nonce]

theorem liftExchangeOk {α : Type} {x : Except ExchangeErr α} {a : α} : liftExchange x = .ok a ↔ x = .ok a := by
  cases x <;> simp [liftExchange]

theorem liftFeeOk {α : Type} {x : Except FeeMarket.FeeErr α} {a : α} : liftFee x = .ok a ↔ x = .ok a := by
  cases x <;> simp [liftFee]

theorem attestationApplied (signed : verifySig tx = true) (nonce : tx.nonce = (getAccount st tx.sender).nonce)
    (attests : tx.recipient = Pos.attestAddress) (codeless : getCode st Pos.attestAddress = []) :
    applyTxAtSession env verifySig st tx height index session baseFee =
      .ok ⟨bumpNonce st tx.sender (getAccount st tx.sender),session,0,0⟩ := by
  have notExchange : isExchangeTx tx = false := by
    rw [isExchangeTx,attests]
    decide
  have notEVM : isEVMTx st tx = false := by
    rw [isEVMTx,attests,codeless]
    decide
  have isVote : Pos.isAttestationTx tx = true := by
    rw [Pos.isAttestationTx,attests]
    decide
  refine applyTxOk.mpr ⟨signed,nonce,?_⟩
  simp [route,notExchange,notEVM,isVote,applyRoute]

theorem loopCons {i : Nat} {acc : Outcome S E} {rest : List Transaction} :
    applyLoop env verifySig height baseFee i acc (tx::rest) = .ok o ↔
      ∃ first, applyTxAtSession env verifySig acc.st tx height (UInt32.ofNat i) acc.session baseFee = .ok first ∧
        applyLoop env verifySig height baseFee (i + 1)
          ⟨first.st,first.session,acc.gasUsed + first.gasUsed,acc.tip + first.tip⟩ rest = .ok o := by
  simp only [applyLoop,bindOk]

/- The transactions a loop applied, each with the state it met and what it left. -/
structure Applied (S E : Type) where
  before : S
  tx : Transaction
  after : Outcome S E

def applied (env : Env E) (verifySig : VerifySig) (height baseFee : UInt64) :
    Nat → Outcome S E → List Transaction → List (Applied S E)
  | _, _, [] => []
  | index, acc, tx::rest =>
    match applyTxAtSession env verifySig acc.st tx height (UInt32.ofNat index) acc.session baseFee with
    | .error _ => []
    | .ok o => ⟨acc.st,tx,o⟩::applied env verifySig height baseFee (index + 1)
        ⟨o.st,o.session,acc.gasUsed + o.gasUsed,acc.tip + o.tip⟩ rest

theorem appliedFrom {i : Nat} {acc : Outcome S E} {txs : List Transaction} {x : Applied S E}
    (member : x ∈ applied env verifySig height baseFee i acc txs) : x.tx ∈ txs ∧
    ∃ index session, applyTxAtSession env verifySig x.before x.tx height index session baseFee = .ok x.after := by
  induction txs generalizing i acc with
  | nil => cases member
  | cons tx txs ih =>
    rw [applied] at member
    split at member
    · cases member
    · rename_i o ran
      rcases List.mem_cons.mp member with rfl | later
      · exact ⟨List.mem_cons_self,_,_,ran⟩
      · exact ⟨List.mem_cons_of_mem _ (ih later).1,(ih later).2⟩

theorem appliedOk {i : Nat} {acc : Outcome S E} {txs : List Transaction} {x : Applied S E}
    (member : x ∈ applied env verifySig height baseFee i acc txs) :
    ∃ index session, applyTxAtSession env verifySig x.before x.tx height index session baseFee = .ok x.after :=
  (appliedFrom member).2

theorem loopSigned {i : Nat} {acc : Outcome S E} {txs : List Transaction}
    (ok : applyLoop env verifySig height baseFee i acc txs = .ok o) : ∀ tx ∈ txs, verifySig tx = true := by
  induction txs generalizing i acc with
  | nil => simp
  | cons tx txs ih =>
    obtain ⟨first,applied,rest⟩ := loopCons.mp ok
    intro x member
    rcases List.mem_cons.mp member with rfl | later
    · exact (applyTxOk.mp applied).1
    · exact ih rest x later

theorem blockSigned {txs : List Transaction} {mode : Mode} {r : BlockOutcome S}
    (ok : applyTxsAt env verifySig st txs height mode baseFee = .ok r) : ∀ tx ∈ txs, verifySig tx = true := by
  simp only [applyTxsAt,bindOk] at ok
  obtain ⟨_,_,o,loop,_⟩ := ok
  exact loopSigned loop

def castVote (st : S) (tx : Transaction) : S := bumpNonce st tx.sender (getAccount st tx.sender)

theorem castVoteCode (st : MptState) (tx : Transaction) (a : Address) :
    ((castVote st tx).accounts a).code = (st.accounts a).code := MptState.putKeeps (·.code) rfl

theorem attestationsApplied {i : Nat} {acc : Outcome S E} {txs : List Transaction}
    (fits : Along castVote (fun st tx => verifySig tx = true ∧ tx.nonce = (getAccount st tx.sender).nonce ∧
      tx.recipient = Pos.attestAddress ∧ getCode st Pos.attestAddress = []) acc.st txs) :
    applyLoop env verifySig height baseFee i acc txs =
      .ok ⟨txs.foldl castVote acc.st,acc.session,acc.gasUsed,acc.tip⟩ := by
  induction txs generalizing i acc with
  | nil => rfl
  | cons tx txs ih =>
    obtain ⟨⟨signed,nonce,attests,codeless⟩,rest⟩ := fits
    have first : applyTxAtSession env verifySig acc.st tx height (UInt32.ofNat i) acc.session baseFee =
        .ok ⟨castVote acc.st tx,acc.session,0,0⟩ := attestationApplied signed nonce attests codeless
    refine loopCons.mpr ⟨_,first,?_⟩
    simp only [UInt64.add_zero]
    exact ih rest

theorem applyTxsClosed {txs : List Transaction} {mode : Mode} {r : BlockOutcome S}
    (closed : openSession env st txs mode = .ok none) :
    applyTxsAt env verifySig st txs height mode baseFee = .ok r ↔
      ∃ o, applyLoop env verifySig height baseFee 0 ⟨st,none,0,0⟩ txs = .ok o ∧
        finishSession env height o = .ok r.st ∧ r.gasUsed = o.gasUsed ∧ r.tip = o.tip := by
  simp only [applyTxsAt,bindOk,closed]
  constructor
  · rintro ⟨_,same,o,loop,after,finished,last⟩
    cases same
    cases last
    exact ⟨o,loop,finished,rfl,rfl⟩
  · rintro ⟨o,loop,finished,gas,tip⟩
    obtain ⟨rst,rgas,rtip⟩ := r
    simp only at finished gas tip
    subst gas tip
    exact ⟨none,rfl,o,loop,rst,finished,rfl⟩

theorem plainClosed {txs : List Transaction} {mode : Mode} (plain : exchangeSenders txs = []) :
    openSession env st txs mode = .ok none := by simp [openSession,plain]

theorem continuousClosed {txs : List Transaction} : openSession env st txs .continuous = .ok none := by
  simp [openSession]

end L1Chain.Transition
