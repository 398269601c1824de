import L1Chain.StagedAdapter
import L1Chain.Effects
import L1Chain.Devnet

/-! Blocks staged on an overlay: `ApplyBlockWithMode` against the path of consensus. A block
whose EVM messages stay within what the overlay can show ends on both in the same state, and
one that fails leaves its state as it was. -/
namespace L1Chain.Transition
open Adapter MptState Exchange Lockstep

section
variable {E : Type} {env : Env E} {verifySig : VerifySig} {B d : MptState} {o : OverlayState MptState}
  {tx : Transaction} {height baseFee : UInt64} {index : UInt32} {session : Option (BatchSession E)}

theorem stagedCredit (staged : Staged B o d) (a : Address) (amount : UInt64) :
    Staged B (credit o a amount) (credit d a amount) := by
  have twins := staged.twins a
  exact staged.setAccount ⟨congrArg (· + amount) twins.balance,twins.nonce,twins.left,twins.right⟩

theorem stagedBump (staged : Staged B o d) (a : Address) :
    Staged B (bumpNonce o a (getAccount o a)) (bumpNonce d a (getAccount d a)) := by
  have twins := staged.twins a
  exact staged.setAccount ⟨twins.balance,congrArg (· + 1) twins.nonce,twins.left,twins.right⟩

structure Ending (B : MptState) (x : Outcome (OverlayState MptState) E) (y : Outcome MptState E) : Prop where
  st : Staged B x.st y.st
  session : x.session = y.session
  gasUsed : x.gasUsed = y.gasUsed
  tip : x.tip = y.tip

theorem stagedLift {α β : Type} {R : α → β → Prop} {x : Except ExchangeErr α} {y : Except ExchangeErr β}
    (inStep : InStep R x y) : InStep R (liftExchange x) (liftExchange y) := by
  cases inStep with
  | ok related => exact .ok related
  | error e => exact .error _

theorem stagedExchange (staged : Staged B o d) : InStep (Ending B)
    (applyExchangeTx env o tx (getAccount o tx.sender) height index session)
    (applyExchangeTx env d tx (getAccount d tx.sender) height index session) := by
  have balance : (getAccount o tx.sender).balance = (getAccount d tx.sender).balance := (staged.twins _).balance
  unfold applyExchangeTx
  rw [balance]
  split
  · exact .error _
  · dsimp only
    cases session with
    | some s => exact .both _ fun s' => .ok ⟨stagedBump staged _,rfl,rfl,rfl⟩
    | none =>
      exact (stagedLift (stagedApply (stagedBump staged _) tx height index)).bind
        fun o d staged => .ok ⟨staged,rfl,rfl,rfl⟩

theorem stagedTransfer (staged : Staged B o d) : InStep (Staged B)
    (applyTransfer o tx (getAccount o tx.sender)) (applyTransfer d tx (getAccount d tx.sender)) := by
  have sender := staged.twins tx.sender
  have recipient := staged.twins tx.recipient
  have balance : (getAccount o tx.sender).balance = (getAccount d tx.sender).balance := sender.balance
  unfold applyTransfer
  rw [balance]
  split
  · exact .error _
  · split
    · exact .ok (stagedBump staged _)
    · rename_i other
      have paid : Staged B (setAccount o tx.sender {getAccount o tx.sender with
            balance := (getAccount d tx.sender).balance - tx.value, nonce := (getAccount o tx.sender).nonce + 1})
          (setAccount d tx.sender {getAccount d tx.sender with
            balance := (getAccount d tx.sender).balance - tx.value, nonce := (getAccount d tx.sender).nonce + 1}) :=
        staged.setAccount ⟨rfl,congrArg (· + 1) sender.nonce,sender.left,sender.right⟩
      refine .ok (paid.setAccount ⟨congrArg (· + tx.value) recipient.balance,recipient.nonce,recipient.left,?_⟩)
      rw [setAccountAt,if_neg (Ne.symm other)]
      exact recipient.right

theorem stagedContract (staged : Staged B o d) : InStep (fun x y => x.1 = y.1 ∧ Staged B x.2 y.2)
    (applyContractTx env o tx (getAccount o tx.sender) baseFee)
    (applyContractTx env d tx (getAccount d tx.sender) baseFee) := by
  have sender := staged.twins tx.sender
  have balance : (getAccount o tx.sender).balance = (getAccount d tx.sender).balance := sender.balance
  unfold applyContractTx
  rw [balance]
  refine .both _ fun (reserve,price) => ?_
  dsimp only
  have charged : Staged B (setAccount o tx.sender {getAccount o tx.sender with
        balance := (getAccount d tx.sender).balance - reserve, nonce := (getAccount o tx.sender).nonce + 1})
      (setAccount d tx.sender {getAccount d tx.sender with
        balance := (getAccount d tx.sender).balance - reserve, nonce := (getAccount d tx.sender).nonce + 1}) :=
    staged.setAccount ⟨rfl,congrArg (· + 1) sender.nonce,sender.left,sender.right⟩
  obtain ⟨receipt,after⟩ := stagedExecute charged env.sha (message tx)
  rw [receipt]
  exact .ok ⟨rfl,stagedCredit after _ _⟩

/- A message that stays within what the overlay can show: it asks for existence and emptiness
only where the record tells, and its cleanup sweeps no code and no storage. -/
structure Calm (env : Env E) (B st : MptState) (tx : Transaction) (height baseFee : UInt64) : Prop where
  asks : IssuesAt env.sha (Request.Steady B) (evmProg env tx height baseFee) (evmStart env (reserved st tx) tx)
  sweeps : ∀ gasUsed sdb, runEVM env (reserved st tx) tx height baseFee = some (gasUsed,sdb) →
    ∀ a ∈ sdb.touched, Sweeps B sdb a

theorem runEVMBind {S : Type} [StateDB S] (st : S) : runEVM env st tx height baseFee =
    (interpret env.sha (evmProg env tx height baseFee) ((Adapter.new st).prepare tx.sender 0
      (if tx.recipient = Evm.deployAddress then none else some tx.recipient) env.evm.precompiles)).bind fun r =>
        if r.2.err.isSome then (r.2.revertToSnapshot 0).bind fun sdb => some (tx.gasLimit,sdb) else some r := rfl

theorem stagedRun (staged : Staged B o d)
    (asks : IssuesAt env.sha (Request.Steady B) (evmProg env tx height baseFee) (evmStart env d tx)) :
    Option.Rel (Yields B) (runEVM env o tx height baseFee) (runEVM env d tx height baseFee) := by
  have start : Over B ((Adapter.new o).prepare tx.sender 0
      (if tx.recipient = Evm.deployAddress then none else some tx.recipient) env.evm.precompiles) (evmStart env d tx) :=
    ⟨o,rfl,staged⟩
  have ran := start.interpret asks
  rw [runEVMBind,runEVMBind]
  show Option.Rel _ _ ((interpret env.sha _ (evmStart env d tx)).bind _)
  generalize interpret env.sha (evmProg env tx height baseFee) ((Adapter.new o).prepare _ _ _ _) = left at ran ⊢
  generalize interpret env.sha (evmProg env tx height baseFee) (evmStart env d tx) = right at ran ⊢
  cases ran with
  | none => exact .none
  | @some x y leaves =>
    obtain ⟨gas,above⟩ := leaves
    have latched : x.2.err = y.2.err := by
      obtain ⟨o,same,_⟩ := above
      rw [same]
      rfl
    simp only [Option.bind_some,latched]
    split
    · have reverted := above.revert 0
      generalize x.2.revertToSnapshot 0 = left at reverted ⊢
      generalize y.2.revertToSnapshot 0 = right at reverted ⊢
      cases reverted with
      | none => exact .none
      | some above => exact .some ⟨rfl,above⟩
    · exact .some ⟨gas,above⟩

theorem stagedEVM (staged : Staged B o d) (calm : Calm env B d tx height baseFee) :
    InStep (fun x y => x.1 = y.1 ∧ Staged B x.2 y.2) (applyEVMTx env o tx (getAccount o tx.sender) height baseFee)
      (applyEVMTx env d tx (getAccount d tx.sender) height baseFee) := by
  have sender := staged.twins tx.sender
  have balance : (getAccount o tx.sender).balance = (getAccount d tx.sender).balance := sender.balance
  have nonce : (getAccount o tx.sender).nonce = (getAccount d tx.sender).nonce := sender.nonce
  unfold applyEVMTx
  rw [balance,nonce]
  cases checked : reserveGas tx (getAccount d tx.sender).balance baseFee with
  | error e => exact .error _
  | ok pair =>
    obtain ⟨reserve,price⟩ := pair
    obtain ⟨_,rfl,rfl⟩ := reserveGasOk.mp checked
    have taken : Staged B (setAccount o tx.sender {getAccount o tx.sender with
        balance := (getAccount d tx.sender).balance - tx.gasLimit * tx.gasFeeCap
        nonce := (getAccount d tx.sender).nonce}) (reserved d tx) :=
      staged.setAccount ⟨rfl,rfl,sender.left,sender.right⟩
    have ran := stagedRun taken calm.asks
    have sweeps := calm.sweeps
    rw [reserved] at ran sweeps
    dsimp only [bind,Except.bind]
    generalize runEVM env (setAccount o tx.sender _) tx height baseFee = left at ran ⊢
    generalize runEVM env (setAccount d tx.sender _) tx height baseFee = right at ran sweeps ⊢
    cases ran with
    | none => exact .error _
    | @some x y leaves =>
      obtain ⟨gas,above⟩ := leaves
      have final := above.finalise.mpr (sweeps _ _ rfl)
      have twins := final.twins tx.sender
      dsimp only
      rw [gas]
      exact .ok ⟨rfl,final.setAccount ⟨congrArg (· + _) twins.balance,rfl,twins.left,twins.right⟩⟩

theorem stagedRoute (staged : Staged B o d) : route o tx = route d tx := by
  have code : getCode o tx.recipient = getCode d tx.recipient := staged.code _
  have evm : isEVMTx o tx = isEVMTx d tx := by rw [isEVMTx,isEVMTx,code]
  have contract : isContractTx o tx = isContractTx d tx := by rw [isContractTx,isContractTx,code]
  rw [route,route,evm,contract]

theorem Ending.priced {x : UInt64 × OverlayState MptState} {y : UInt64 × MptState} (gas : x.1 = y.1)
    (staged : Staged B x.2 y.2) : Ending B (priced session tx baseFee x) (priced session tx baseFee y) :=
  ⟨staged,rfl,gas,congrArg (· * priorityFee tx baseFee) gas⟩

theorem stagedTx (staged : Staged B o d) (calm : route d tx = .evm → Calm env B d tx height baseFee) :
    InStep (Ending B) (applyTxAtSession env verifySig o tx height index session baseFee)
      (applyTxAtSession env verifySig d tx height index session baseFee) := by
  have nonce : (getAccount o tx.sender).nonce = (getAccount d tx.sender).nonce := (staged.twins _).nonce
  rw [applyTxRoute,applyTxRoute,nonce,stagedRoute staged]
  split
  · exact .error _
  · split
    · exact .error _
    · cases routed : route d tx with
      | exchange => exact stagedExchange staged
      | evm => exact (stagedEVM staged (calm routed)).map fun x y ends => .priced ends.1 ends.2
      | attestation => exact .ok ⟨stagedBump staged _,rfl,rfl,rfl⟩
      | contract => exact (stagedContract staged).map fun x y ends => .priced ends.1 ends.2
      | transfer => exact (stagedTransfer staged).map fun x y staged => ⟨staged,rfl,rfl,rfl⟩

/- Every EVM transaction of a list is calm where the list, applied to the state itself, has
come to it. -/
def CalmFrom (env : Env E) (verifySig : VerifySig) (B : MptState) (height baseFee : UInt64) :
    ℕ → Outcome MptState E → List Transaction → Prop
  | _, _, [] => True
  | index, acc, tx::rest => (route acc.st tx = .evm → Calm env B acc.st tx height baseFee) ∧
    ∀ o, applyTxAtSession env verifySig acc.st tx height (UInt32.ofNat index) acc.session baseFee = .ok o →
      CalmFrom env verifySig B height baseFee (index + 1)
        ⟨o.st,o.session,acc.gasUsed + o.gasUsed,acc.tip + o.tip⟩ rest

theorem stagedLoop {x : Outcome (OverlayState MptState) E} {y : Outcome MptState E} {i : ℕ} {txs : List Transaction}
    (ending : Ending B x y) (calm : CalmFrom env verifySig B height baseFee i y txs) : InStep (Ending B)
      (applyLoop env verifySig height baseFee i x txs) (applyLoop env verifySig height baseFee i y txs) := by
  induction txs generalizing x y i with
  | nil => exact .ok ending
  | cons tx rest ih =>
    obtain ⟨first,later⟩ := calm
    rw [applyLoop,applyLoop,ending.session]
    have ran : InStep (Ending B) (applyTxAtSession env verifySig x.st tx height (UInt32.ofNat i) y.session baseFee)
        (applyTxAtSession env verifySig y.st tx height (UInt32.ofNat i) y.session baseFee) := stagedTx ending.st first
    generalize applyTxAtSession env verifySig x.st tx height (UInt32.ofNat i) y.session baseFee = left at ran ⊢
    generalize applyTxAtSession env verifySig y.st tx height (UInt32.ofNat i) y.session baseFee = right at ran later ⊢
    cases ran with
    | error e => exact .error e
    | ok next =>
      exact ih ⟨next.st,next.session,congr_arg₂ (· + ·) ending.gasUsed next.gasUsed,
        congr_arg₂ (· + ·) ending.tip next.tip⟩ (later _ rfl)

theorem stagedOpen (staged : Staged B o d) (txs : List Transaction) (mode : Mode) :
    openSession env o txs mode = openSession env d txs mode := by
  unfold openSession newBatchSession
  rw [stagedLoad staged]

def CalmBlock (env : Env E) (verifySig : VerifySig) (st : MptState) (b : Block) (mode : Mode) : Prop :=
  ∀ session, openSession env st b.txs mode = .ok session →
    CalmFrom env verifySig st b.header.height b.header.baseFee 0 ⟨st,session,0,0⟩ b.txs

theorem stagedTxs {b : Block} {mode : Mode} (calm : CalmBlock env verifySig d b mode) :
    InStep (fun x y => Staged d x.st y.st ∧ x.tip = y.tip)
      (applyTxsAt env verifySig (newOverlay d) b.txs b.header.height mode b.header.baseFee)
      (applyTxsAt env verifySig d b.txs b.header.height mode b.header.baseFee) := by
  unfold applyTxsAt
  rw [stagedOpen (stagedNew d)]
  cases opened : openSession env d b.txs mode with
  | error e => exact .error e
  | ok session =>
    have start : Ending d ⟨newOverlay d,session,0,0⟩ ⟨d,session,0,0⟩ := ⟨stagedNew d,rfl,rfl,rfl⟩
    show InStep _ (applyLoop env verifySig _ _ 0 ⟨newOverlay d,session,0,0⟩ b.txs >>= _)
      (applyLoop env verifySig _ _ 0 ⟨d,session,0,0⟩ b.txs >>= _)
    refine (stagedLoop start (calm session opened)).bind fun x y ending => ?_
    have finished : InStep (Staged d) (finishSession env b.header.height x) (finishSession env b.header.height y) := by
      unfold finishSession
      rw [ending.session]
      cases y.session with
      | none => exact .ok ending.st
      | some s => exact stagedLift (stagedFinish ending.st s _)
    exact finished.bind fun o d staged => .ok ⟨staged,ending.tip⟩

theorem stagedBlockAgrees (env : Env E) (verifySig : VerifySig) (st : MptState) (b : Block) (miner : Address) (mode : Mode)
    (calm : CalmBlock env verifySig st b mode) :
    (∀ r, applyTxsAt env verifySig st b.txs b.header.height mode b.header.baseFee = .ok r →
      applyBlockWithMode env verifySig st b miner mode = (.ok (),credit r.st miner (blockReward + r.tip))) ∧
    (∀ e, applyTxsAt env verifySig st b.txs b.header.height mode b.header.baseFee = .error e →
      applyBlockWithMode env verifySig st b miner mode = (.error e,st)) := by
  have ran := stagedTxs calm
  unfold applyBlockWithMode
  generalize applyTxsAt env verifySig (newOverlay st) _ _ _ _ = left at ran ⊢
  generalize applyTxsAt env verifySig st _ _ _ _ = right at ran ⊢
  cases ran with
  | error e =>
    refine ⟨fun r ok => (nomatch ok),fun _ failed => ?_⟩
    cases failed
    rfl
  | @ok x y ending =>
    refine ⟨fun r ok => ?_,fun e failed => (nomatch failed)⟩
    cases ok
    dsimp only
    rw [ending.2,(stagedCredit ending.1 miner _).flush]

end
end L1Chain.Transition

namespace L1Chain.Devnet
open Transition Adapter MptState

def running (prog : Prog) : Env Unit :=
  {env with
    evm := ⟨[],fun _ _ _ _ _ _ => prog,fun _ _ _ _ _ _ _ => prog⟩
    stateRoot := fun st => (st.accounts (account 5)).storage 0}

def message (recipient : Address) : Transaction := {payment 0 with recipient := recipient, value := 0}

def tick : Prog := .ask (.empty (account 5)) fun _ => .ask (.setState (account 5) 0 1) fun _ => .done 0

def clock : MptState := setCode MptState.empty (account 5) (Evm.tagCode [0])

def ticked : Block := block 0 0 [message (account 5)]

theorem tickCalm : Calm (running tick) clock clock (message (account 5)) 1 0 where
  asks := issuesAtAsk rfl fun _ _ => issuesAtAsk trivial fun _ _ => trivial
  sweeps := by
    intro gasUsed sdb ran a touched
    have seen : (runEVM (running tick) (reserved clock (message (account 5))) (message (account 5)) 1 0).map (fun r =>
        (r.2.touched,r.2.deletes (account 5),deletesBefore clock r.2 (account 5))) = some ([account 5],false,false) := by
      decide +kernel
    rw [ran] at seen
    obtain ⟨only,after,before⟩ : sdb.touched = [account 5] ∧ sdb.deletes (account 5) = false ∧
        deletesBefore clock sdb (account 5) = false := by simpa using seen
    rw [only,List.mem_singleton] at touched
    subst touched
    exact ⟨fun deleted => by simp [after] at deleted,fun deleted => by simp [before] at deleted⟩

theorem tickedAlike : CalmBlock (running tick) acceptNonEmptySig clock ticked .continuous ∧
    ∃ after, applyBlockWithMode (running tick) acceptNonEmptySig clock ticked 1 .continuous = (.ok (),after) ∧
      (running tick).stateRoot after = 1 := by
  have calm : CalmBlock (running tick) acceptNonEmptySig clock ticked .continuous := by
    intro session opened
    cases opened
    exact ⟨fun _ => tickCalm,fun _ _ => trivial⟩
  have ran : (applyTxsAt (running tick) acceptNonEmptySig clock ticked.txs ticked.header.height .continuous
      ticked.header.baseFee).map (fun r => (running tick).stateRoot (credit r.st 1 (blockReward + r.tip))) = .ok 1 := by
    decide +kernel
  obtain ⟨r,ok,root⟩ := Runs.mapOk.mp ran
  exact ⟨calm,_,(stagedBlockAgrees _ _ clock ticked 1 .continuous calm).1 r ok,root⟩

/- A constructor that writes its word and destroys itself. -/
def shed : Prog :=
  .ask (.createContract (account 5)) fun _ => .ask (.setNonce (account 5) 1) fun _ =>
  .ask (.setState (account 5) 0 1) fun _ => .ask (.selfDestruct (account 5)) fun _ => .done 0

def shedding : Block := block 0 0 [message Evm.deployAddress]

theorem shedWordReturns : shedding.header.height > 0 ∧
    (∃ r, applyTxsAt (running shed) acceptNonEmptySig MptState.empty shedding.txs shedding.header.height .continuous
      shedding.header.baseFee = .ok r ∧ (running shed).stateRoot (credit r.st 1 (blockReward + r.tip)) = 0) ∧
    ∃ after, applyBlockWithMode (running shed) acceptNonEmptySig MptState.empty shedding 1 .continuous = (.ok (),after) ∧
      (running shed).stateRoot after = 1 := by
  have direct : (applyTxsAt (running shed) acceptNonEmptySig MptState.empty shedding.txs shedding.header.height .continuous
      shedding.header.baseFee).map (fun r => (running shed).stateRoot (credit r.st 1 (blockReward + r.tip))) = .ok 0 := by
    decide +kernel
  have accepted : (applyBlockWithMode (running shed) acceptNonEmptySig MptState.empty shedding 1 .continuous).1 = .ok () := by
    decide +kernel
  have staged : (running shed).stateRoot
      (applyBlockWithMode (running shed) acceptNonEmptySig MptState.empty shedding 1 .continuous).2 = 1 := by
    decide +kernel
  exact ⟨by decide,Runs.mapOk.mp direct,_,Prod.ext accepted rfl,staged⟩

end L1Chain.Devnet
