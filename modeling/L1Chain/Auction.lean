import L1Chain.Nonces
import L1Chain.FrameWrites
import L1Chain.Devnet

/-! A block of the batch auction. The session reads the balances of its accounts
when it opens and writes them back, moved by the fills, when it closes; what the
other transactions of the block did to those balances in between is overwritten. -/
namespace L1Chain.Transition
open Exchange MptState Ledger Runs
open StackVM (Moves execute balanceMoved)

section
variable {S E : Type}

def Applied.gasCharged (baseFee : UInt64) (x : Applied S E) : ℕ :=
  x.after.gasUsed.toNat * (effectivePrice x.tx baseFee).toNat

/- The transaction debits or credits `a`: by its value, its gas or a value that passes
while its message runs. An order moves its coins when the session closes. -/
def Applied.Touches (env : Env E) (a : Address) (x : Applied MptState E) : Prop :=
  match route x.before x.tx with
  | .exchange | .attestation => False
  | .transfer => x.tx.value ≠ 0 ∧ x.tx.sender ≠ x.tx.recipient ∧ (a = x.tx.sender ∨ a = x.tx.recipient)
  | .contract => (x.tx.gasFeeCap ≠ 0 ∧ a = x.tx.sender) ∨ Moves env.sha (charged x.before x.tx) (message x.tx) a
  | .evm => True

end

section
variable {E : Type} {env : Env E} {verifySig : VerifySig} {st : MptState} {tx : Transaction} {txs : List Transaction}
  {height baseFee : UInt64} {index : UInt32} {s : BatchSession E} {o : Outcome MptState E}

theorem bumpedSupply {a : Address} : (bumped st a).supply = st.supply := by
  rw [supply,bumpedBalances,supply]

theorem txSession (ok : applyTxAtSession env verifySig st tx height index (some s) baseFee = .ok o) :
    ∃ s', o.session = some s' ∧
      if isExchangeTx tx then s.apply env.engine height index tx.sender tx.data = .ok s' else s' = s := by
  obtain ⟨_,_,ran⟩ := applyTxOk.mp ok
  by_cases order : isExchangeTx tx
  · rw [route,if_pos order] at ran
    obtain ⟨_,s',taken,rfl⟩ := orderOk.mp ran
    exact ⟨s',rfl,by rwa [if_pos order]⟩
  · refine ⟨s,?_,by rw [if_neg order]⟩
    cases routed : route st tx with
    | exchange =>
      simp only [route,if_neg order] at routed
      split at routed <;> (try split at routed) <;> (try split at routed) <;> cases routed
    | attestation =>
      rw [routed] at ran
      cases ran
      rfl
    | evm | contract | transfer =>
      rw [routed] at ran
      obtain ⟨r,_,rfl⟩ := mapOk.mp ran
      rfl

theorem txClosed (ok : applyTxAtSession env verifySig st tx height index none baseFee = .ok o) : o.session = none := by
  obtain ⟨_,_,ran⟩ := applyTxOk.mp ok
  cases routed : route st tx with
  | exchange =>
    rw [routed] at ran
    obtain ⟨_,st',_,rfl⟩ := spotOk.mp ran
    rfl
  | attestation =>
    rw [routed] at ran
    obtain rfl := Except.ok.inj ran
    rfl
  | evm | contract | transfer =>
    rw [routed] at ran
    obtain ⟨r,_,rfl⟩ := mapOk.mp ran
    rfl

theorem loopSession (settles : Settles env.engine) {i : Nat} {acc : Outcome MptState E}
    (ok : applyLoop env verifySig height baseFee i acc txs = .ok o) (session : acc.session = some s) :
    ∃ s', o.session = some s' ∧ quotes env.engine s'.engine = quotes env.engine s.engine ∧
      (s.touched = true ∨ exchangeSenders txs ≠ [] → s'.touched = true) := by
  induction txs generalizing i acc s with
  | nil =>
    obtain rfl := Except.ok.inj ok
    exact ⟨s,session,rfl,fun some => some.resolve_right (fun more => more rfl)⟩
  | cons tx txs ih =>
    obtain ⟨first,ran,rest⟩ := loopCons.mp ok
    rw [session] at ran
    obtain ⟨s₁,next,taken⟩ := txSession ran
    obtain ⟨s',closing,kept,touched⟩ := ih rest next
    by_cases order : isExchangeTx tx
    · rw [if_pos order] at taken
      obtain ⟨same,touches⟩ := sessionApply settles taken
      exact ⟨s',closing,kept.trans same,fun _ => touched (.inl touches)⟩
    · rw [if_neg order] at taken
      subst taken
      refine ⟨s',closing,kept,fun some => touched (some.imp_right fun more => ?_)⟩
      simpa [exchangeSenders,List.filter_cons,order] using more

theorem routedSupply {session : Option (BatchSession E)} (fits : st.supply < 2 ^ 64) (plain : route st tx ≠ .evm)
    (order : route st tx = .exchange → o.st.supply = st.supply ∧ o.gasUsed = 0)
    (ok : applyTxAtSession env verifySig st tx height index session baseFee = .ok o) :
    o.st.supply + (⟨st,tx,o⟩ : Applied MptState E).gasCharged baseFee = st.supply := by
  obtain ⟨_,_,ran⟩ := applyTxOk.mp ok
  cases routed : route st tx with
  | evm => exact absurd routed plain
  | exchange =>
    obtain ⟨kept,free⟩ := order routed
    simp [Applied.gasCharged,kept,free]
  | attestation =>
    rw [routed] at ran
    obtain rfl : (⟨bumped st tx.sender,session,0,0⟩ : Outcome MptState E) = o := Except.ok.inj ran
    simp [Applied.gasCharged,bumpedSupply]
  | contract =>
    rw [routed] at ran
    obtain ⟨r,paid,rfl⟩ := mapOk.mp ran
    exact contractSupply fits paid
  | transfer =>
    rw [routed] at ran
    obtain ⟨st',paid,rfl⟩ := mapOk.mp ran
    obtain ⟨enough,rfl⟩ := transferPays.mp paid
    have funded : (bumped st tx.sender).Funded tx.sender tx.recipient tx.value := by
      refine .inr (.inr ?_)
      rw [bumpedAt,if_pos rfl]
      exact enough
    have kept := paySupply funded (bumpedSupply.trans_lt fits)
    simp [Applied.gasCharged,kept,bumpedSupply]

theorem txSupply (fits : st.supply < 2 ^ 64) (plain : route st tx ≠ .evm)
    (ok : applyTxAtSession env verifySig st tx height index (some s) baseFee = .ok o) :
    o.st.supply + (⟨st,tx,o⟩ : Applied MptState E).gasCharged baseFee = st.supply := by
  refine routedSupply fits plain (fun routed => ?_) ok
  obtain ⟨_,_,ran⟩ := applyTxOk.mp ok
  rw [routed] at ran
  obtain ⟨_,s',_,rfl⟩ := orderOk.mp ran
  exact ⟨bumpedSupply,rfl⟩

theorem loopSupply {Kind : Option (BatchSession E) → Prop}
    (step : ∀ {st tx index session o}, Kind session → st.supply < 2 ^ 64 → route st tx ≠ .evm →
      applyTxAtSession env verifySig st tx height index session baseFee = .ok o →
      Kind o.session ∧ o.st.supply + (⟨st,tx,o⟩ : Applied MptState E).gasCharged baseFee = st.supply)
    {i : Nat} {acc : Outcome MptState E} (ok : applyLoop env verifySig height baseFee i acc txs = .ok o)
    (fits : acc.st.supply < 2 ^ 64) (kind : Kind acc.session)
    (plain : ∀ x ∈ applied env verifySig height baseFee i acc txs, route x.before x.tx ≠ .evm) :
    Kind o.session ∧ o.st.supply +
      ((applied env verifySig height baseFee i acc txs).map (Applied.gasCharged baseFee)).sum = acc.st.supply := by
  induction txs generalizing i acc with
  | nil =>
    obtain rfl := Except.ok.inj ok
    exact ⟨kind,by simp [applied]⟩
  | cons tx txs ih =>
    obtain ⟨first,ran,rest⟩ := loopCons.mp ok
    simp only [applied,ran] at plain ⊢
    obtain ⟨next,kept⟩ := step kind fits (plain _ List.mem_cons_self) ran
    have below : first.st.supply < 2 ^ 64 := by omega
    obtain ⟨last,later⟩ := ih rest below next (fun x member => plain x (List.mem_cons_of_mem _ member))
    refine ⟨last,?_⟩
    rw [List.map_cons,List.sum_cons]
    dsimp only at later kept ⊢
    omega

theorem sessionSupply {session : Option (BatchSession E)} (opened : session.isSome) (fits : st.supply < 2 ^ 64)
    (plain : route st tx ≠ .evm) (ok : applyTxAtSession env verifySig st tx height index session baseFee = .ok o) :
    o.session.isSome ∧ o.st.supply + (⟨st,tx,o⟩ : Applied MptState E).gasCharged baseFee = st.supply := by
  obtain ⟨s,rfl⟩ := Option.isSome_iff_exists.mp opened
  obtain ⟨s',next,_⟩ := txSession ok
  exact ⟨by rw [next]; rfl,txSupply fits plain ok⟩

theorem chargedKeeps {a : Address} (spared : tx.gasFeeCap = 0 ∨ a ≠ tx.sender) : (charged st tx).balances a = st.balances a := by
  rw [balances,charged,setAccountAt]
  split
  · rename_i same
    rw [spared.resolve_right (not_not.mpr same),UInt64.mul_zero,UInt64.sub_zero,same]
    rfl
  · rfl

theorem refundKeeps {a : Address} {gasUsed : UInt64} (spared : tx.gasFeeCap = 0 ∨ a ≠ tx.sender) :
    (credit st tx.sender (refunded tx baseFee gasUsed)).balances a = st.balances a := by
  rw [balances,credit,setAccountAt]
  split
  · rename_i same
    have free := spared.resolve_right (not_not.mpr same)
    have price : effectivePrice tx baseFee = 0 := UInt64.le_zero_iff.mp (free ▸ effectivePriceLe)
    rw [refunded,free,price,UInt64.mul_zero,UInt64.mul_zero,UInt64.sub_self,UInt64.add_zero,same]
    rfl
  · rfl

theorem txUntouched {a : Address} (ok : applyTxAtSession env verifySig st tx height index (some s) baseFee = .ok o)
    (aside : ¬ (⟨st,tx,o⟩ : Applied MptState E).Touches env a) : o.st.balances a = st.balances a := by
  obtain ⟨_,_,ran⟩ := applyTxOk.mp ok
  unfold Applied.Touches at aside
  cases routed : route st tx with
  | evm =>
    rw [routed] at aside
    exact absurd trivial aside
  | exchange =>
    rw [routed] at ran
    obtain ⟨_,s',_,rfl⟩ := orderOk.mp ran
    exact congrFun bumpedBalances a
  | attestation =>
    rw [routed] at ran
    obtain rfl : (⟨bumped st tx.sender,some s,0,0⟩ : Outcome MptState E) = o := Except.ok.inj ran
    exact congrFun bumpedBalances a
  | transfer =>
    rw [routed] at ran aside
    obtain ⟨st',paid,rfl⟩ := mapOk.mp ran
    obtain ⟨_,rfl⟩ := transferPays.mp paid
    have kept : (bumped st tx.sender).balances a = st.balances a := congrFun bumpedBalances a
    refine Eq.trans ?_ kept
    by_cases idle : tx.value = 0 ∨ tx.sender = tx.recipient
    · rw [payIdle idle]
    · have apart := not_or.mp idle
      have other := not_or.mp fun party => aside ⟨apart.1,apart.2,party⟩
      rw [balances,payAt apart.2,if_neg other.2,if_neg other.1]
      rfl
  | contract =>
    rw [routed] at ran aside
    obtain ⟨r,paid,rfl⟩ := mapOk.mp ran
    obtain ⟨_,rfl⟩ := contractOk.mp paid
    obtain ⟨sender,moves⟩ := not_or.mp aside
    have spared : tx.gasFeeCap = 0 ∨ a ≠ tx.sender := by
      by_contra pays
      exact sender ⟨fun free => pays (.inl free),not_not.mp fun other => pays (.inr other)⟩
    have ran : (execute env.sha (charged st tx) (message tx)).2.balances a = (charged st tx).balances a := by
      by_contra differs
      exact moves (balanceMoved env.sha differs)
    exact (refundKeeps spared).trans (ran.trans (chargedKeeps spared))

theorem loopUntouched {a : Address} {i : Nat} {acc : Outcome MptState E}
    (ok : applyLoop env verifySig height baseFee i acc txs = .ok o) (session : acc.session.isSome)
    (aside : ∀ x ∈ applied env verifySig height baseFee i acc txs, ¬ x.Touches env a) :
    o.st.balances a = acc.st.balances a := by
  induction txs generalizing i acc with
  | nil =>
    obtain rfl := Except.ok.inj ok
    rfl
  | cons tx txs ih =>
    obtain ⟨first,ran,rest⟩ := loopCons.mp ok
    obtain ⟨s,opened⟩ := Option.isSome_iff_exists.mp session
    simp only [applied,ran] at aside
    rw [opened] at ran
    obtain ⟨s',next,_⟩ := txSession ran
    have later := ih rest (by rw [next]; rfl) (fun x member => aside x (List.mem_cons_of_mem _ member))
    have now := txUntouched ran (aside _ List.mem_cons_self)
    exact later.trans now

end

/- One block of the auction, cut where the session opens and closes. -/
structure BatchRun {E : Type} (env : Env E) (verifySig : VerifySig) (st : MptState) (txs : List Transaction)
    (height baseFee : UInt64) where
  opened : BatchSession E
  outcome : Outcome MptState E
  closing : BatchSession E
  summary : AuctionSummary
  cleared : E
  opens : openSession env st txs .batchAuction = .ok (some opened)
  loop : applyLoop env verifySig height baseFee 0 ⟨st,some opened,0,0⟩ txs = .ok outcome
  closes : outcome.session = some closing
  clears : env.engine.clearBatch closing.engine closing.staged = .ok (summary,cleared)

section
variable {E : Type} {env : Env E} {verifySig : VerifySig} {st : MptState} {txs : List Transaction}
  {height baseFee : UInt64} {r : BlockOutcome MptState}

namespace BatchRun

def trace (run : BatchRun env verifySig st txs height baseFee) : List (Applied MptState E) :=
  applied env verifySig height baseFee 0 ⟨st,some run.opened,0,0⟩ txs

def gasCharged (run : BatchRun env verifySig st txs height baseFee) : ℕ :=
  (run.trace.map (Applied.gasCharged baseFee)).sum

def gain (run : BatchRun env verifySig st txs height baseFee) (a : Address) : ℤ :=
  quoteAt env.engine run.cleared a - quoteAt env.engine run.closing.engine a

/- The property of a block: gas is all that leaves the supply, and an account ends
with what the block's other transactions left it plus its gain. -/
def Conserves (run : BatchRun env verifySig st txs height baseFee) (final : MptState) : Prop :=
  final.supply + run.gasCharged = st.supply ∧
    ∀ a, (final.balances a : ℤ) = run.outcome.st.balances a + run.gain a

def Undisturbed (run : BatchRun env verifySig st txs height baseFee) : Prop :=
  ∀ a ∈ loadedAccounts st (exchangeSenders txs), run.outcome.st.balances a = st.balances a

end BatchRun

theorem openedLoads {session : Option (BatchSession E)} (orders : exchangeSenders txs ≠ [])
    (ok : openSession env st txs .batchAuction = .ok session) :
    ∃ s, session = some s ∧ load env.engine st .batchAuction (exchangeSenders txs) = .ok s.engine := by
  unfold openSession at ok
  rw [if_pos ⟨rfl,orders⟩,bindOk] at ok
  obtain ⟨s,opened,last⟩ := ok
  rw [liftExchangeOk,newBatchSession,bindOk] at opened
  obtain ⟨e,loaded,made⟩ := opened
  cases made
  exact ⟨_,(Except.ok.inj last).symm,loaded⟩

theorem batchRun (settles : Settles env.engine) (orders : exchangeSenders txs ≠ [])
    (ok : applyTxsAt env verifySig st txs height .batchAuction baseFee = .ok r) :
    ∃ run : BatchRun env verifySig st txs height baseFee,
      (∀ a, if a ∈ loadedAccounts st (exchangeSenders txs)
        then ∃ q, quotes env.engine run.closing.engine a = some q ∧ q.toInt = st.balances a
        else quotes env.engine run.closing.engine a = none) ∧
      ∀ a, (r.st.balances a : ℤ) = (quotes env.engine run.cleared a).elim (run.outcome.st.balances a : ℤ) Int64.toInt := by
  simp only [applyTxsAt,bindOk] at ok
  obtain ⟨session,opens,o,loop,final,finished,last⟩ := ok
  obtain ⟨opened,rfl,loaded⟩ := openedLoads orders opens
  obtain ⟨closing,closes,kept,touched⟩ := loopSession settles loop rfl
  rw [finishSession,closes] at finished
  obtain ⟨summary,cleared,clears,saved⟩ := finishOk (touched (.inr orders)) (liftExchangeOk.mp finished)
  cases Except.ok.inj last
  refine ⟨⟨opened,o,closing,summary,cleared,opens,loop,closes,clears⟩,fun a => ?_,saved⟩
  rw [kept]
  exact loadQuotes settles loaded a

/- How an account ends, by whether the session knew it: from the balance it had
when the session opened, not from the one the block left it. -/
theorem settledBalance {run : BatchRun env verifySig st txs height baseFee} (settles : Settles env.engine)
    (held : ∀ a, if a ∈ loadedAccounts st (exchangeSenders txs)
      then ∃ q, quotes env.engine run.closing.engine a = some q ∧ q.toInt = st.balances a
      else quotes env.engine run.closing.engine a = none)
    (saved : ∀ a, (r.st.balances a : ℤ) =
      (quotes env.engine run.cleared a).elim (run.outcome.st.balances a : ℤ) Int64.toInt) (a : Address) :
    if a ∈ loadedAccounts st (exchangeSenders txs) then (r.st.balances a : ℤ) = st.balances a + run.gain a
    else r.st.balances a = run.outcome.st.balances a ∧ run.gain a = 0 := by
  exact savedGain (held a) ((settles.cleared _ _ _ _ run.clears).1 a) (saved a)

theorem gainSum (settles : Settles env.engine) (run : BatchRun env verifySig st txs height baseFee) :
    ∑ a, run.gain a = 0 := by
  simp only [BatchRun.gain,Finset.sum_sub_distrib]
  exact Int.sub_eq_zero.mpr (settles.cleared _ _ _ _ run.clears).2

theorem conservesIff {run : BatchRun env verifySig st txs height baseFee} (settles : Settles env.engine)
    (ends : ∀ a, if a ∈ loadedAccounts st (exchangeSenders txs) then (r.st.balances a : ℤ) = st.balances a + run.gain a
      else r.st.balances a = run.outcome.st.balances a ∧ run.gain a = 0) :
    run.Conserves r.st ↔ run.Undisturbed ∧ run.outcome.st.supply + run.gasCharged = st.supply := by
  have same := gainsKeepSupply r.st run.outcome.st (gainSum settles run)
  constructor
  · rintro ⟨total,each⟩
    refine ⟨fun a loaded => ?_,?_⟩
    · have settled := ends a
      rw [if_pos loaded,each a] at settled
      omega
    · rwa [← same each]
  · rintro ⟨calm,total⟩
    have each : ∀ a, (r.st.balances a : ℤ) = run.outcome.st.balances a + run.gain a := by
      intro a
      have settled := ends a
      split at settled
      · rename_i loaded
        rw [calm a loaded]
        exact settled
      · rw [settled.1,settled.2,add_zero]
    exact ⟨by rwa [same each],each⟩

end
end L1Chain.Transition

namespace L1Chain.Devnet
open Transition Exchange MptState Runs

/- An engine whose orders rest unmatched, as the orders of any auction without a
counterpart do. -/
structure Book where
  held : AList (fun _ : Address => Balance)
  resting : List Order

def book : Engine Book where
  new _ := ⟨∅,[]⟩
  credit e a base quote :=
    let b := (e.held.lookup a).getD ⟨0,0,0,0⟩
    ⟨e.held.insert a {b with base := b.base + base, quote := b.quote + quote},e.resting⟩
  restore e orders := .ok ⟨e.held,orders⟩
  applyPositioned e _ _ op :=
    match op with
    | .cancel account id =>
      (⟨e.resting.any (fun o => o.account = account ∧ o.id = id),none⟩,
        ⟨e.held,e.resting.filter (fun o => ¬ (o.account = account ∧ o.id = id))⟩)
    | .place .. => (⟨false,none⟩,e)
  stagePlace e height index op :=
    match op with
    | .place account side price qty => (⟨true,none⟩,some ⟨account,⟨height,index⟩,side,price,qty⟩,e)
    | .cancel .. => (⟨false,none⟩,none,e)
  clearBatch e orders := .ok (⟨false,0,0⟩,⟨e.held,e.resting ++ orders⟩)
  book e := e.resting
  balances e := e.held

theorem bookSettles : Settles book where
  fresh _ a := by simp [quotes,book]
  credited e a base quote unheld x := by
    have absent : e.held.lookup a = none := by simpa [quotes,book] using unheld
    by_cases same : x = a
    · subst same
      simp [quotes,book,absent,AList.lookup_insert]
    · simp [quotes,book,same,AList.lookup_insert_ne]
  restored e orders e' ok := by
    cases ok
    rfl
  cancelled e _ _ account id res e' ok _ := by
    cases ok
    rfl
  staged e height index op res o e' ok _ := by
    cases op with
    | place =>
      cases ok
      rfl
    | cancel => cases ok
  cleared e orders summary e' ok := by
    cases ok
    exact ⟨fun _ => rfl,rfl⟩

def market : Env Book := ⟨sha,env.blst,book,env.evm,env.stateRoot⟩

def funded : MptState := setAccount MptState.empty (account 1) ⟨100,0,[],fun _ => 0⟩

def bid (nonce : UInt64) : Transaction :=
  {payment 0 with
    recipient := Exchange.address, value := 0, nonce := nonce, data := [1,0,0,0,0,0,0,0,0,10,0,0,0,0,0,0,0,1]}

theorem fundedSupply : funded.supply = 100 := by
  have zero : MptState.empty.supply = 0 := by
    unfold supply Ledger.total
    exact Finset.sum_eq_zero (fun _ _ => rfl)
  have set := @supplySet MptState.empty (account 1) ⟨100,0,[],fun _ => 0⟩
  have none : MptState.empty.balances (account 1) = 0 := rfl
  have value : (100 : UInt64).toNat = 100 := rfl
  rw [zero,none,value,Nat.add_zero,Nat.zero_add] at set
  exact set

abbrev Market (txs : List Transaction) := BatchRun market acceptNonEmptySig funded txs 1 0

def marketLoop (txs : List Transaction) : Except TxErr (ℕ × ℕ × List Route) := do
  let session ← openSession market funded txs .batchAuction
  let o ← applyLoop market acceptNonEmptySig 1 0 0 ⟨funded,session,0,0⟩ txs
  let trace := applied market acceptNonEmptySig 1 0 0 ⟨funded,session,0,0⟩ txs
  .ok (o.st.balances (account 1),(trace.map (Applied.gasCharged 0)).sum,trace.map (fun x => route x.before x.tx))

theorem marketLooped {txs : List Transaction} (run : Market txs) {balance gas : ℕ} {routes : List Route}
    (looped : marketLoop txs = .ok (balance,gas,routes)) (plain : .evm ∉ routes) :
    run.outcome.st.balances (account 1) = balance ∧ run.gasCharged = gas ∧ run.outcome.st.supply + gas = 100 := by
  have own : marketLoop txs = .ok (run.outcome.st.balances (account 1),run.gasCharged,
      run.trace.map (fun x => route x.before x.tx)) := by
    simp only [marketLoop,bindOk]
    exact ⟨_,run.opens,_,run.loop,rfl⟩
  have same := Except.ok.inj (own.symm.trans looped)
  simp only [Prod.mk.injEq] at same
  obtain ⟨held,charged,routed⟩ := same
  refine ⟨held,charged,?_⟩
  rw [← charged,← fundedSupply]
  refine (loopSupply sessionSupply run.loop (fundedSupply.trans_lt (by decide)) rfl (fun x member evm => plain ?_)).2
  rw [← routed]
  exact List.mem_map.mpr ⟨x,member,evm⟩

/- Account 4 pays account 2, then puts code on chain and pays for its gas; the bid between
the two is of account 1, which neither names. -/
def endowed : MptState := setAccount funded (account 4) ⟨40000,0,[],fun _ => 0⟩

def founds : Transaction :=
  {payment 0 with
    sender := account 4, recipient := 0, value := 5, nonce := 1, data := [0], gasLimit := 32000, gasFeeCap := 1, gasTipCap := 1}

def aroundBid : List Transaction := [{payment 0 with sender := account 4},bid 0,founds]

theorem endowedFits : endowed.supply < 2 ^ 64 := by
  have set := @supplySet funded (account 4) ⟨40000,0,[],fun _ => 0⟩
  have none : funded.balances (account 4) = 0 := by decide +kernel
  rw [none,fundedSupply,Nat.add_zero] at set
  rw [endowed,set]
  decide +kernel

theorem aroundBidRoutes : ∀ x ∈ blockTrace market acceptNonEmptySig endowed aroundBid 1 .batchAuction 0,
    (x.tx,route x.before x.tx) ∈ [({payment 0 with sender := account 4},.transfer),(bid 0,.exchange),(founds,.contract)] := by
  have traced : (blockTrace market acceptNonEmptySig endowed aroundBid 1 .batchAuction 0).map
      (fun x => (x.tx,route x.before x.tx)) =
      [({payment 0 with sender := account 4},.transfer),(bid 0,.exchange),(founds,.contract)] := by decide +kernel
  exact fun x member => traced ▸ List.mem_map.mpr ⟨x,member,rfl⟩

theorem aroundBidAside {x : Applied MptState _}
    (member : x ∈ blockTrace market acceptNonEmptySig endowed aroundBid 1 .batchAuction 0) : ¬ x.Touches market (account 1) := by
  have routed := aroundBidRoutes x member
  simp only [List.mem_cons,List.not_mem_nil,or_false,Prod.mk.injEq] at routed
  unfold Applied.Touches
  rcases routed with ⟨tx,route⟩ | ⟨tx,route⟩ | ⟨tx,route⟩
  · rw [route,tx]
    rintro ⟨_,_,party⟩
    revert party
    decide
  · rw [route]
    exact id
  · rw [route,tx]
    rintro (⟨_,sender⟩ | ⟨_,party⟩ | ⟨c,callee,p,⟨root,entered,_⟩,_⟩)
    · revert sender
      decide
    · revert party
      decide +kernel
    · cases entered

end L1Chain.Devnet
