import L1Chain.Effects
import L1Chain.Devnet

/-! The storage of the exchange account under transactions of other kinds. No route
writes it; the cleanup that ends an EVM message deletes it together with its
account, when the message has touched an exchange account without balance. -/
namespace L1Chain.Transition
open Exchange StackVM MptState Adapter

section
variable {E : Type} {env : Env E} {verifySig : VerifySig} {st : MptState} {tx : Transaction} {height baseFee : UInt64}
  {index : UInt32} {session : Option (BatchSession E)} {o : Outcome MptState E} {a : Address}

theorem notExchange (other : tx.recipient ≠ Exchange.address) : route st tx ≠ .exchange := by
  intro routed
  exact other (by simpa [isExchangeTx] using exchangeRoute.mp routed)

theorem bumpedStorage (b : Address) : ((bumped st b).accounts a).storage = (st.accounts a).storage :=
  putKeeps (·.storage) rfl

theorem contractStorage {r : UInt64 × MptState} (codeless : (st.accounts a).code = [])
    (ok : applyContractTx env st tx (getAccount st tx.sender) baseFee = .ok r) :
    (r.2.accounts a).storage = (st.accounts a).storage := by
  obtain ⟨_,rfl⟩ := contractOk.mp ok
  obtain ⟨_,done⟩ := executed env.sha (charged st tx) (message tx)
  have code : ((charged st tx).accounts a).code = (st.accounts a).code := putKeeps (·.code) rfl
  have storage : ((charged st tx).accounts a).storage = (st.accounts a).storage := putKeeps (·.storage) rfl
  have credited : ∀ {mid : MptState} {amount : UInt64},
      ((credit mid tx.sender amount).accounts a).storage = (mid.accounts a).storage := putKeeps (·.storage) rfl
  exact credited.trans ((done.storage (code.trans codeless)).trans storage)

theorem txStorage (codeless : (st.accounts a).code = []) (other : tx.recipient ≠ Exchange.address)
    (plain : route st tx ≠ .evm)
    (ok : applyTxAtSession env verifySig st tx height index session baseFee = .ok o) :
    (o.st.accounts a).storage = (st.accounts a).storage := by
  obtain ⟨_,_,ran⟩ := applyTxOk.mp ok
  cases routed : route st tx with
  | evm => exact absurd routed plain
  | exchange => exact absurd routed (notExchange other)
  | attestation =>
    rw [routed] at ran
    obtain rfl : (⟨bumped st tx.sender,session,0,0⟩ : Outcome MptState E) = o := Except.ok.inj ran
    exact bumpedStorage _
  | contract =>
    rw [routed] at ran
    obtain ⟨r,paid,rfl⟩ := Runs.mapOk.mp ran
    exact contractStorage codeless paid
  | transfer =>
    rw [routed] at ran
    obtain ⟨st',paid,rfl⟩ := Runs.mapOk.mp ran
    obtain ⟨_,rfl⟩ := transferPays.mp paid
    exact payFrame.2.2.trans (bumpedStorage _)

/- The requests of the message the transaction runs: no SetState and no SelfDestruct
for `a`; balances, nonces and touches of `a` are free. -/
def EvmSpares (env : Env E) (st : MptState) (tx : Transaction) (height baseFee : UInt64) (a : Address) : Prop :=
  Issues env.sha (Request.Spares a) (evmProg env tx height baseFee) (evmStart env (reserved st tx) tx)

/- The test the cleanup makes of `a` after the message: touched, and without
balance, nonce and code. -/
def Cleans (env : Env E) (st : MptState) (tx : Transaction) (height baseFee : UInt64) (a : Address) : Prop :=
  ∃ gasUsed sdb, runEVM env (reserved st tx) tx height baseFee = some (gasUsed,sdb) ∧ a ∈ sdb.touched ∧
    basePersistedEmpty (getAccount sdb.base a) = true

theorem cleansIff {env : Env E} {st : MptState} {tx : Transaction} {height baseFee : UInt64} {a : Address} :
    Cleans env st tx height baseFee a ↔ (runEVM env (reserved st tx) tx height baseFee).any
      (fun r => a ∈ r.2.touched ∧ basePersistedEmpty (getAccount r.2.base a) = true) = true := by
  simp [Cleans,Option.any_eq_true]

instance (env : Env E) (st : MptState) (tx : Transaction) (height baseFee : UInt64) (a : Address) :
    Decidable (Cleans env st tx height baseFee a) := decidable_of_iff _ cleansIff.symm

theorem evmStorage {r : UInt64 × MptState} (spares : EvmSpares env st tx height baseFee a)
    (ok : applyEVMTx env st tx (getAccount st tx.sender) height baseFee = .ok r) :
    (Cleans env st tx height baseFee a → (r.2.accounts a).storage = fun _ => 0) ∧
    (¬ Cleans env st tx height baseFee a → (r.2.accounts a).storage = (st.accounts a).storage) := by
  obtain ⟨_,gasUsed,sdb,ran,rfl⟩ := evmOk.mp ok
  have spared : Spared .storage a (st.accounts a) sdb :=
    messageSpared sparesAvoids (putKeeps (·.storage) rfl) spares ran
  have final : ((settled sdb.finalise.base tx (st.accounts tx.sender).nonce
      (refunded tx baseFee gasUsed)).accounts a).storage = (sdb.finalise.base.accounts a).storage := putKeeps (·.storage) rfl
  dsimp only
  rw [final,StateDB.finalise,finaliseAt]
  have test : sdb.deletes a = basePersistedEmpty (getAccount sdb.base a) := by
    rw [StateDB.deletes,spared.alive,Bool.false_or]
  constructor
  · rintro ⟨g,s,again,touched,empty⟩
    cases Option.some.inj (ran.symm.trans again)
    rw [if_pos ⟨touched,test.trans empty⟩]
    rfl
  · intro kept
    rw [if_neg (fun cleaned => kept ⟨gasUsed,sdb,ran,cleaned.1,test.symm.trans cleaned.2⟩)]
    exact spared.same

/- A transaction that is not an order leaves the order book alone unless it is an EVM
message whose cleanup takes the exchange account for an empty one. -/
theorem exchangeStorageKept (other : tx.recipient ≠ Exchange.address)
    (codeless : (st.accounts Exchange.address).code = [])
    (spares : route st tx = .evm → EvmSpares env st tx height baseFee Exchange.address)
    (ok : applyTxAtSession env verifySig st tx height index session baseFee = .ok o) :
    (o.st.accounts Exchange.address).storage = (st.accounts Exchange.address).storage ↔
      ¬ (route st tx = .evm ∧ Cleans env st tx height baseFee Exchange.address ∧
        (st.accounts Exchange.address).storage ≠ fun _ => 0) := by
  by_cases evm : route st tx = .evm
  · obtain ⟨_,_,ran⟩ := applyTxOk.mp ok
    rw [evm] at ran
    obtain ⟨r,applied,rfl⟩ := Runs.mapOk.mp ran
    obtain ⟨wiped,kept⟩ := evmStorage (spares evm) applied
    by_cases cleans : Cleans env st tx height baseFee Exchange.address
    · have zero := wiped cleans
      simp only [priced,evm,cleans,true_and,ne_eq,not_not]
      rw [zero]
      exact eq_comm
    · simp only [priced,cleans,false_and,and_false,not_false_eq_true,iff_true]
      exact kept cleans
  · simp only [evm,false_and,not_false_eq_true,iff_true]
    exact txStorage codeless other evm ok

end
end L1Chain.Transition

namespace L1Chain.Devnet
open Transition Exchange Adapter

def bookSlot : Hash := indexKey nsBookSize 0

def listed (balance : UInt64) : MptState :=
  setAccount (setCode MptState.empty (account 5) (Evm.tagCode [0])) Exchange.address
    ⟨balance,0,[],fun key => if key = bookSlot then 1 else 0⟩

/- A call whose callee calls the exchange with no value: two transfers of zero. -/
def ping (caller callee : Address) : Prog :=
  .ask .snapshot fun _ => .ask (.subBalance caller 0) fun _ => .ask (.addBalance callee 0) fun _ =>
  .ask .snapshot fun _ => .ask (.subBalance callee 0) fun _ => .ask (.addBalance Exchange.address 0) fun _ => .done 0

def pinging : Env Unit :=
  {env with evm := ⟨[],fun _ _ _ _ _ _ => .done 0,fun _ _ caller callee _ _ _ => ping caller callee⟩}

def calls : Transaction := {payment 0 with recipient := account 5, value := 0}

theorem pingSpares (balance : UInt64) : EvmSpares pinging (listed balance) calls 1 0 Exchange.address :=
  issuesAsk trivial fun _ _ => issuesAsk trivial fun _ _ => issuesAsk trivial fun _ _ =>
    issuesAsk trivial fun _ _ => issuesAsk trivial fun _ _ => issuesAsk trivial fun _ _ => trivial

/- The exchange account owns the book and nothing else; touched by a transfer of
zero it passes for an empty account and the book is gone. -/
theorem zeroTransferWipesBook : calls.recipient ≠ Exchange.address ∧
    ((listed 0).accounts Exchange.address).code = [] ∧ EvmSpares pinging (listed 0) calls 1 0 Exchange.address ∧
    ∃ o, applyTxAtSession pinging acceptNonEmptySig (listed 0) calls 1 0 none 0 = .ok o ∧
      ((listed 0).accounts Exchange.address).storage bookSlot = 1 ∧
      (o.st.accounts Exchange.address).storage bookSlot = 0 := by
  have ran : (applyTxAtSession pinging acceptNonEmptySig (listed 0) calls 1 0 none 0).map
      (fun o => (o.st.accounts Exchange.address).storage bookSlot) = .ok 0 := by decide +kernel
  obtain ⟨o,ok,wiped⟩ := Runs.mapOk.mp ran
  exact ⟨by decide,rfl,pingSpares 0,o,ok,by decide +kernel,wiped⟩

theorem fundedBookKept : ∃ o, applyTxAtSession pinging acceptNonEmptySig (listed 1) calls 1 0 none 0 = .ok o ∧
    (o.st.accounts Exchange.address).storage = ((listed 1).accounts Exchange.address).storage := by
  have ran : (applyTxAtSession pinging acceptNonEmptySig (listed 1) calls 1 0 none 0).map (·.gasUsed) = .ok 0 := by
    decide +kernel
  have holds : (runEVM pinging (reserved (listed 1) calls) calls 1 0).map
      (fun x => basePersistedEmpty (getAccount x.2.base Exchange.address)) = some false := by decide +kernel
  obtain ⟨o,ok,_⟩ := Runs.mapOk.mp ran
  refine ⟨o,ok,(exchangeStorageKept (by decide) rfl (fun _ => pingSpares 1) ok).mpr ?_⟩
  rintro ⟨_,⟨gasUsed,sdb,run,_,empty⟩,_⟩
  rw [run] at holds
  exact absurd (empty.symm.trans (Option.some.inj holds)) (by decide)

end L1Chain.Devnet
