import L1Chain.Nonces
import L1Chain.Reach
import L1Chain.Restart

/-! Nonces along a branch. Every accepted transaction raises its sender's nonce by one,
whatever becomes of it, so the transactions of one sender count up from 0 along every
branch and no signed transaction is ever applied twice. What the interpreter may do
to nonces is an assumption on the requests it issues. -/
namespace L1Chain.Adapter

def Request.MovesNonce (may : Address → Prop) : Request → Prop
  | .setNonce b _ => may b
  | .selfDestruct b => may b
  | _ => True

theorem movesAvoids {may : Address → Prop} {a : Address} {r : Request} (moves : r.MovesNonce may) (not : ¬ may a) :
    r.Avoids .nonce a := by
  cases r with
  | setNonce b nonce =>
    rintro _ rfl
    exact not moves
  | selfDestruct b =>
    rintro rfl
    exact not moves
  | addBalance b amount | subBalance b amount | setCode b code | setState b key value => exact fun none => by cases none
  | _ => trivial

end L1Chain.Adapter

namespace L1Chain.Transition
open Adapter Exchange MptState Runs

section
variable {E : Type} {env : Env E} {verifySig : VerifySig} {st after : MptState} {tx : Transaction} {txs : List Transaction}
  {height baseFee : UInt64} {index : UInt32} {session : Option (BatchSession E)} {o : Outcome MptState E} {a : Address}
  {mode : Exchange.Mode} {bs : List Block} {senders : List Address} {x : Applied MptState E}

/- A message sets nonces only of the sender that creates with it and of accounts that
send no transaction, and destroys only such. -/
def Applied.NonceLaw (env : Env E) (height baseFee : UInt64) (senders : List Address) (x : Applied MptState E) : Prop :=
  route x.before x.tx = .evm → Issues env.sha (Request.MovesNonce (fun b => b = x.tx.sender ∨ b ∉ senders))
    (evmProg env x.tx height baseFee) (evmStart env (reserved x.before x.tx) x.tx)

theorem lawKeeps (law : (⟨st,tx,o⟩ : Applied MptState E).NonceLaw env height baseFee senders)
    (ok : applyTxAtSession env verifySig st tx height index session baseFee = .ok o) (sends : a ∈ senders) :
    (⟨st,tx,o⟩ : Applied MptState E).KeepsNonce a := by
  intro routed other
  dsimp only at routed other ⊢
  obtain ⟨_,_,ran⟩ := applyTxOk.mp ok
  rw [routed] at ran
  obtain ⟨r,paid,rfl⟩ := mapOk.mp ran
  obtain ⟨_,gasUsed,sdb,run,rfl⟩ := evmOk.mp paid
  have barred : ¬ (a = tx.sender ∨ a ∉ senders) := by
    rintro (same | absent)
    · exact other same
    · exact absent sends
  have spared : Spared .nonce a (st.accounts a) sdb :=
    messageSpared (fun moves => movesAvoids moves barred) (putKeeps (·.nonce) rfl) (law routed) run
  have kept : (sdb.base.accounts a).nonce = (st.accounts a).nonce := spared.same
  simp only [priced,settled,setAccountAt,if_neg other]
  rw [StateDB.finalise,finaliseAt]
  split
  · -- an account the cleanup deletes had nonce 0
    rename_i cleaned
    have empty := cleaned.2
    rw [StateDB.deletes,spared.alive,Bool.false_or] at empty
    simp only [basePersistedEmpty,decide_eq_true_eq,getAccountEq] at empty
    rw [← kept,empty.2.1]
    rfl
  · exact kept

theorem traceKeeps (law : ∀ x ∈ blockTrace env verifySig st txs height mode baseFee, x.NonceLaw env height baseFee senders)
    (sends : a ∈ senders) : ∀ x ∈ blockTrace env verifySig st txs height mode baseFee, x.KeepsNonce a := by
  intro x member
  have inside := member
  unfold blockTrace at inside
  split at inside
  · cases inside
  · obtain ⟨index,session,ok⟩ := appliedOk inside
    exact lawKeeps (law x member) ok sends

def replayNext (env : Env E) (verifySig : VerifySig) (mode : Exchange.Mode) (st : MptState) (b : Block) : MptState :=
  match applyBlockRewarded env verifySig mode st b with
  | .ok (st,_) => st
  | .error _ => st

def NonceLaw (env : Env E) (verifySig : VerifySig) (mode : Exchange.Mode) (senders : List Address) (st : MptState)
    (b : Block) : Prop :=
  ∀ x ∈ blockTrace env verifySig st b.txs b.header.height mode b.header.baseFee,
    x.NonceLaw env b.header.height b.header.baseFee senders

theorem singleLaw {b : Block} (single : b.txs = [tx]) (routed : route st tx ≠ .evm) :
    NonceLaw env verifySig mode senders st b := by
  intro x member evm
  rw [single] at member
  obtain ⟨before,same⟩ := traceSingle member
  rw [before,same] at evm
  exact absurd evm routed

theorem rewardedNonces {b : Block} {gas : UInt64} (law : NonceLaw env verifySig mode senders st b) (sends : a ∈ senders)
    (ok : applyBlockRewarded env verifySig mode st b = .ok (after,gas)) :
    Consecutive (st.accounts a).nonce (b.txs.filter (·.sender = a)) ∧
    (after.accounts a).nonce = (st.accounts a).nonce + UInt64.ofNat (b.txs.filter (·.sender = a)).length := by
  simp only [applyBlockRewarded,bindOk] at ok
  obtain ⟨r,applied,last⟩ := ok
  obtain ⟨counts,total⟩ := blockNonces (traceKeeps law sends) applied
  refine ⟨counts,Eq.trans ?_ total⟩
  obtain ⟨rfl,_⟩ := Prod.mk.inj (Except.ok.inj last)
  split
  · exact creditNonce _ _
  · rfl

theorem replayRun {after : MptState} (ok : replay env verifySig mode st bs = .ok after) :
    bs.foldl (replayNext env verifySig mode) st = after ∧
    Along (replayNext env verifySig mode)
      (fun st b => ∃ gas, applyBlockRewarded env verifySig mode st b = .ok (replayNext env verifySig mode st b,gas)) st bs := by
  induction bs generalizing st with
  | nil => exact ⟨Except.ok.inj ok,trivial⟩
  | cons b bs ih =>
    simp only [replay,bindOk] at ok
    obtain ⟨⟨middle,gas⟩,applied,rest⟩ := ok
    have next : replayNext env verifySig mode st b = middle := by simp only [replayNext,applied]
    obtain ⟨run,later⟩ := ih rest
    rw [List.foldl_cons,alongCons,next]
    exact ⟨run,⟨gas,applied⟩,later⟩

theorem branchNonces (law : Along (replayNext env verifySig mode) (NonceLaw env verifySig mode senders) st bs)
    (sends : a ∈ senders) (ok : replay env verifySig mode st bs = .ok after) :
    Consecutive (st.accounts a).nonce ((bs.flatMap (·.txs)).filter (·.sender = a)) ∧
    (after.accounts a).nonce =
      (st.accounts a).nonce + UInt64.ofNat ((bs.flatMap (·.txs)).filter (·.sender = a)).length := by
  obtain ⟨run,applied⟩ := replayRun ok
  rw [← run]
  refine invariantSoFar (fun taken now =>
      Consecutive (st.accounts a).nonce ((taken.flatMap (·.txs)).filter (·.sender = a)) ∧
      (now.accounts a).nonce =
        (st.accounts a).nonce + UInt64.ofNat ((taken.flatMap (·.txs)).filter (·.sender = a)).length)
    (fun taken now b sofar step => ?_) ⟨trivial,by simp⟩ (alongAnd law applied)
  obtain ⟨lawful,gas,done⟩ := step
  obtain ⟨counts,total⟩ := sofar
  obtain ⟨counts',total'⟩ := rewardedNonces lawful sends done
  rw [total] at counts' total'
  rw [List.flatMap_append,List.flatMap_singleton,List.filter_append,consecutiveAppend,List.length_append,
    UInt64.ofNat_add,← UInt64.add_assoc]
  exact ⟨⟨counts,counts'⟩,total'⟩

theorem fundAside {β : Type} {f : Account → β} (aside : Aside f) (alloc baseAlloc : AList (fun _ : Address => UInt64)) :
    f ((fund alloc baseAlloc).accounts a) = f Account.zero := by
  have credited : ∀ (entries : List ((_ : Address) × UInt64)) (st : MptState),
      f ((entries.foldl (fun st e => credit st e.1 e.2) st).accounts a) = f (st.accounts a) := by
    intro entries
    induction entries with
    | nil => exact fun _ => rfl
    | cons e rest ih => exact fun st => (ih _).trans (putKeeps f (aside _ _ _))
  have based : ∀ (entries : List ((_ : Address) × UInt64)) (st : MptState),
      f ((entries.foldl (fun st e => creditBase st e.1 e.2) st).accounts a) = f (st.accounts a) := by
    intro entries
    induction entries with
    | nil => exact fun _ => rfl
    | cons e rest ih => exact fun st => (ih _).trans (putKeeps f (aside _ _ _))
  rw [fund,based,credited]
  rfl

theorem fundNonce (alloc baseAlloc : AList (fun _ : Address => UInt64)) :
    ((fund alloc baseAlloc).accounts a).nonce = 0 := fundAside nonceAside alloc baseAlloc

end
end L1Chain.Transition

namespace L1Chain
open Transition Runs

section
variable {E : Type} {env : Env E} {setup : Setup} {c : Chain} {h : Hash} {path : List Block}

def branchTxs (path : List Block) : List Transaction := path.flatMap (·.txs)
def sendersOf (path : List Block) : List Address := (branchTxs path).map (·.sender)

theorem branchTail {older : List Block} {k : Hash} (grows : Grows (setup.chain env) c) (walk : c.Path k older) :
    branchTxs older.reverse.tail = branchTxs older.reverse := by
  rw [pathHeadGenesis walk (setupGenesis grows),List.tail_cons]
  rfl

/- Along every stored branch the transactions of a sender carry different nonces, and
the state at its tip counts them. -/
theorem branchReplaysNothing (reached : Extended env (setup.chain env) c) (branch : c.chainTo h = some path)
    (few : (branchTxs path).length < 2 ^ 64)
    (law : Along (replayNext env anySig c.exchangeMode) (NonceLaw env anySig c.exchangeMode (sendersOf path)) c.fundGenesis
      path.tail) :
    (branchTxs path).Pairwise (fun x y => x.sender = y.sender → x.nonce ≠ y.nonce) ∧
    ∃ st, c.deriveState env anySig h = .ok st ∧
      (∀ verifySig st', c.deriveState env verifySig h = .ok st' → st' = st) ∧
      ∀ a ∈ sendersOf path, (st.accounts a).nonce.toNat = ((branchTxs path).filter (·.sender = a)).length := by
  obtain ⟨s,_,grows⟩ := extendedSetup reached
  obtain ⟨older,climbed,rfl⟩ := Option.map_eq_some_iff.mp branch
  have walk := (ancestryPath s.rooted).mp climbed
  obtain ⟨_,_,_,found⟩ := Forest.pathHead walk
  obtain ⟨st,derived⟩ := storedReplays s found
  have replayed := derived
  rw [derivePath s.rooted walk] at replayed
  have counted : ∀ a ∈ sendersOf older.reverse,
      Consecutive 0 ((branchTxs older.reverse).filter (·.sender = a)) ∧
      (st.accounts a).nonce = UInt64.ofNat ((branchTxs older.reverse).filter (·.sender = a)).length := by
    intro a sends
    have counts := branchNonces law sends (liftTxOk.mp replayed)
    rw [Chain.fundGenesis,fundNonce,UInt64.zero_add] at counts
    rwa [← branchTail grows walk]
  refine ⟨?_,st,derived,fun verifySig st' ok => ?_,fun a sends => ?_⟩
  · exact sendersApart (fun a sends => ⟨0,(counted a sends).1⟩) few
  · have any := deriveAnySig ok
    rw [derived] at any
    exact (Except.ok.inj any).symm
  · rw [(counted a sends).2,UInt64.toNat_ofNat_of_lt' (Nat.lt_of_le_of_lt (List.length_filter_le ..) few)]

end

namespace Devnet

theorem soloBranchNonces : ∃ st, (soloChain 0).deriveState env anySig (hashAt 1 1) = .ok st ∧
    (st.accounts (account 1)).nonce.toNat = 1 := by
  have reached : Extended env ((soloSetup 0).chain env) (soloChain 0) :=
    .add .start (addBlockOk.mpr ⟨_,_,soloAccepted 0,rfl⟩)
  have branch : (soloChain 0).chainTo (hashAt 1 1) = some [(soloSetup 0).genesis.toBlock env,soloBlock 0] :=
    firstBranch (soloAccepted 0)
  have law : NonceLaw env anySig .continuous [account 1] soloFunds (soloBlock 0) := by
    have routed : route soloFunds (payment (soloConfig 0).resolvedChainID) = .transfer := rfl
    exact singleLaw rfl (by rw [routed]; decide)
  have mode : (soloChain 0).exchangeMode = .continuous := firstConfig.1
  have funds : (soloChain 0).fundGenesis = soloFunds := firstConfig.2
  have kept : Along (replayNext env anySig (soloChain 0).exchangeMode)
      (NonceLaw env anySig (soloChain 0).exchangeMode [account 1]) (soloChain 0).fundGenesis [soloBlock 0] := by
    rw [mode,funds]
    exact ⟨law,trivial⟩
  obtain ⟨_,st,derived,_,counted⟩ := branchReplaysNothing reached branch (by decide) kept
  exact ⟨st,derived,counted (account 1) (by decide)⟩

end Devnet
end L1Chain
