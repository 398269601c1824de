import L1Chain.BaseFee
import L1Chain.Solvency

/-! The gas of a block. A transaction that runs code uses at most its own limit, a free
64-bit field; a creation on the stack machine has a fixed cost, and a message to an account
without code costs nothing. The block's total is summed in 64 bits and compared with the cap
once, at the end. So the cap bounds what a block uses where these bounds add up to less than
`2 ^ 64`, and where gas has a price, since what is paid for was in the balances before. -/
namespace L1Chain.Transition
open Adapter Exchange MptState StackVM Runs

section
variable {E : Type}

def codeRuns (trace : List (Applied MptState E)) : List (Applied MptState E) :=
  trace.filter (fun x => runsCode x.before x.tx)

def gasBound (st : MptState) (tx : Transaction) : ℕ :=
  if route st tx = .contract ∧ tx.recipient = 0 then min tx.gasLimit.toNat gasCreate.toNat
  else if route st tx = .contract ∧ (st.accounts tx.recipient).code = [] then 0
  else tx.gasLimit.toNat

def boundSum (trace : List (Applied MptState E)) : ℕ := ((codeRuns trace).map (fun x => gasBound x.before x.tx)).sum

def unpaid (baseFee : UInt64) (trace : List (Applied MptState E)) : List (Applied MptState E) :=
  trace.filter (fun x => effectivePrice x.tx baseFee = 0)

/- The bounds of all transactions fit 64 bits together; or gas is paid out of a supply that
leaves room for the bounds of those that pay nothing for it. -/
def GasFits (env : Env E) (before : MptState) (baseFee : UInt64) (trace : List (Applied MptState E)) : Prop :=
  boundSum trace < 2 ^ 64 ∨ Thrifty env ∧ before.supply + boundSum (unpaid baseFee trace) < 2 ^ 64

def gasLimits (trace : List (Applied MptState E)) : List UInt64 := (codeRuns trace).map (·.tx.gasLimit)

def gasSum (trace : List (Applied MptState E)) : ℕ := ((codeRuns trace).map (·.after.gasUsed.toNat)).sum

end

section
variable {E : Type} {env : Env E} {verifySig : VerifySig} {st : MptState} {tx : Transaction} {txs : List Transaction}
  {height baseFee : UInt64} {index : UInt32} {session : Option (BatchSession E)} {o : Outcome MptState E}
  {mode : Exchange.Mode} {r : BlockOutcome MptState} {trace : List (Applied MptState E)}

theorem createGas {sha : Bytes → Hash} {msg : Message} (deploys : msg.to' = none) :
    (execute sha st msg).1.gasUsed ≤ gasCreate := by
  unfold execute create
  rw [deploys]
  dsimp only
  split
  · rename_i g e charge
    unfold GasMeter.charge at charge
    split at charge
    · rename_i beyond
      cases charge
      rw [UInt64.zero_add] at beyond
      exact UInt64.le_of_lt (beyond.resolve_right (by simp))
    · cases charge
  · rename_i g charge
    unfold GasMeter.charge at charge
    split at charge
    · cases charge
    · cases charge
      rw [UInt64.zero_add]
      split
      · exact UInt64.le_refl _
      · exact UInt64.le_refl _

theorem codelessGas {sha : Bytes → Hash} {msg : Message} {a : Address} (calls : msg.to' = some a)
    (none : (st.accounts a).code = []) : (execute sha st msg).1.gasUsed = 0 := by
  unfold execute
  rw [calls]
  dsimp only
  split
  · rfl
  · rename_i root paid
    obtain ⟨_,_,moved⟩ := transferOk paid
    have code : root.getCode a = [] := by
      have same : (root.view.accounts a).code = _ := congrArg (fun s => (MptState.accounts s a).code) moved
      rw [newView,payFrame.2.1,none] at same
      exact same
    rw [code]
    rfl

theorem txWithin (within : WithinGas env) (code : runsCode st tx = true)
    (ok : applyTxAtSession env verifySig st tx height index session baseFee = .ok o) : o.gasUsed.toNat ≤ gasBound st tx := by
  obtain ⟨_,_,ran⟩ := applyTxOk.mp ok
  rcases of_decide_eq_true code with evm | contract
  · rw [evm] at ran
    obtain ⟨r,paid,rfl⟩ := mapOk.mp ran
    obtain ⟨_,gasUsed,sdb,run,rfl⟩ := evmOk.mp paid
    simp only [gasBound,evm,reduceCtorEq,false_and,if_false]
    exact UInt64.le_iff_toNat_le.mp (messageGas within run)
  · rw [contract] at ran
    obtain ⟨r,paid,rfl⟩ := mapOk.mp ran
    obtain ⟨_,rfl⟩ := contractOk.mp paid
    have whole := UInt64.le_iff_toNat_le.mp (executed env.sha (charged st tx) (message tx)).1
    simp only [gasBound,contract,true_and]
    split
    · rename_i zero
      have fixed : (execute env.sha (charged st tx) (message tx)).1.gasUsed ≤ gasCreate := createGas (if_pos zero)
      exact le_min whole (UInt64.le_iff_toNat_le.mp fixed)
    · rename_i live
      split
      · rename_i none
        have codeless : ((charged st tx).accounts tx.recipient).code = [] := by
          rw [charged,setAccountAt]
          split
          · rename_i same
            rw [← same]
            exact none
          · exact none
        have nothing := @codelessGas _ env.sha (message tx) tx.recipient (if_neg live) codeless
        exact (congrArg UInt64.toNat nothing).le
      · exact whole

theorem idleGas (idle : runsCode st tx = false)
    (ok : applyTxAtSession env verifySig st tx height index session baseFee = .ok o) : o.gasUsed = 0 := by
  obtain ⟨evm,contract⟩ := not_or.mp (of_decide_eq_false idle)
  exact (freeGas evm contract ok).1

theorem codeRunsCons {x : Applied MptState E} (code : runsCode x.before x.tx = true) :
    codeRuns (x::trace) = x::codeRuns trace := List.filter_cons_of_pos (p := fun x : Applied MptState E => runsCode x.before x.tx) code

theorem codeRunsSkip {x : Applied MptState E} (idle : runsCode x.before x.tx = false) :
    codeRuns (x::trace) = codeRuns trace := List.filter_cons_of_neg (by simp [idle])

theorem traceGas (within : WithinGas env) (each : ∀ x ∈ trace, ∃ index session,
      applyTxAtSession env verifySig x.before x.tx height index session baseFee = .ok x.after) :
    gasSum trace = (trace.map (·.after.gasUsed.toNat)).sum ∧ gasSum trace ≤ boundSum trace := by
  induction trace with
  | nil => exact ⟨rfl,Nat.le_refl _⟩
  | cons x trace ih =>
    obtain ⟨same,le⟩ := ih (fun y member => each y (List.mem_cons_of_mem _ member))
    obtain ⟨index,session,ok⟩ := each x List.mem_cons_self
    cases code : runsCode x.before x.tx with
    | true =>
      have own := txWithin within code ok
      simp only [gasSum,boundSum,codeRunsCons code,List.map_cons,List.sum_cons] at same le ⊢
      omega
    | false =>
      have none : x.after.gasUsed.toNat = 0 := by rw [idleGas code ok]; rfl
      simp only [gasSum,boundSum,codeRunsSkip code,List.map_cons,List.sum_cons,none,Nat.zero_add] at same le ⊢
      exact ⟨same,le⟩

theorem tracePaid (trace : List (Applied MptState E)) : (trace.map (·.after.gasUsed.toNat)).sum ≤
    (trace.map (·.gasCharged baseFee)).sum + ((unpaid baseFee trace).map (·.after.gasUsed.toNat)).sum := by
  induction trace with
  | nil => exact Nat.zero_le _
  | cons x trace ih =>
    by_cases free : effectivePrice x.tx baseFee = 0
    · rw [unpaid,List.filter_cons_of_pos (by simpa using free)]
      simp only [List.map_cons,List.sum_cons]
      unfold unpaid at ih
      omega
    · rw [unpaid,List.filter_cons_of_neg (by simpa using free)]
      simp only [List.map_cons,List.sum_cons]
      have price : 1 ≤ (effectivePrice x.tx baseFee).toNat :=
        Nat.one_le_iff_ne_zero.mpr (fun zero => free (UInt64.toNat_inj.mp zero))
      have pays : x.after.gasUsed.toNat ≤ x.gasCharged baseFee := Nat.le_mul_of_pos_right _ price
      unfold unpaid at ih
      omega

theorem blockGas (within : WithinGas env) (ok : applyTxsAt env verifySig st txs height mode baseFee = .ok r)
    (fits : GasFits env st baseFee (blockTrace env verifySig st txs height mode baseFee)) :
    gasSum (blockTrace env verifySig st txs height mode baseFee) = r.gasUsed.toNat := by
  simp only [applyTxsAt,bindOk] at ok
  obtain ⟨session,opened,o,loop,_,_,closed⟩ := ok
  cases Except.ok.inj closed
  rw [blockTrace,opened] at fits ⊢
  dsimp only at fits ⊢
  obtain ⟨all,le⟩ := traceGas within (fun x member => appliedOk member)
  have total := (loopTotals loop).1
  dsimp only at total
  rw [UInt64.zero_add] at total
  have small : gasSum (applied env verifySig height baseFee 0 ⟨st,session,0,0⟩ txs) < 2 ^ 64 := by
    rcases fits with bounded | ⟨thrifty,paid⟩
    · exact le.trans_lt bounded
    · have start : (⟨st,session,0,0⟩ : Outcome MptState E).st.supply < 2 ^ 64 := (Nat.le_add_right _ _).trans_lt paid
      have charged := loopCharged thrifty start loop
      have each : ∀ x ∈ unpaid baseFee (applied env verifySig height baseFee 0 ⟨st,session,0,0⟩ txs), ∃ index session,
          applyTxAtSession env verifySig x.before x.tx height index session baseFee = .ok x.after :=
        fun x member => appliedOk (List.mem_of_mem_filter member)
      obtain ⟨some,below⟩ := traceGas within each
      have split := @tracePaid _ baseFee (applied env verifySig height baseFee 0 ⟨st,session,0,0⟩ txs)
      rw [all]
      dsimp only at charged
      omega
  rw [total,← all,UInt64.toNat_ofNat_of_lt' small]

end
end L1Chain.Transition

namespace L1Chain.Devnet
open Transition Exchange MptState Runs

def metered : Env Unit where
  sha := sha
  blst := env.blst
  engine := engine
  evm := ⟨[],fun _ _ _ data gas _ => .done (if read64 data ≤ gas then read64 data else gas),
    fun _ _ _ _ data gas _ => .done (if read64 data ≤ gas then read64 data else gas)⟩
  stateRoot := env.stateRoot

def burn (nonce limit used : UInt64) : Transaction :=
  {payment 0 with recipient := Evm.deployAddress, value := 0, nonce := nonce, gasLimit := limit, data := be64 used}

/- Deployments under the given limits that use `left` gas together, each as much as it can. -/
def burns : ℕ → ℕ → List UInt64 → List Transaction
  | _, _, [] => []
  | nonce, left, limit::rest =>
    burn (UInt64.ofNat nonce) limit (UInt64.ofNat (min limit.toNat left))::
      burns (nonce + 1) (left - min limit.toNat left) rest

theorem meteredProg (tx : Transaction) (height baseFee : UInt64) : evmProg metered tx height baseFee =
    .done (if read64 tx.data ≤ tx.gasLimit then read64 tx.data else tx.gasLimit) := by
  unfold evmProg
  split <;> rfl

theorem meteredWithin : WithinGas metered := by
  intro st tx height baseFee gasUsed s ran
  rw [meteredProg] at ran
  cases ran
  split
  · assumption
  · exact UInt64.le_refl _

theorem burnRoute (st : MptState) (nonce limit used : UInt64) : route st (burn nonce limit used) = .evm := by
  have order : isExchangeTx (burn nonce limit used) = false := (by decide : decide (Evm.deployAddress = Exchange.address) = false)
  have evm : isEVMTx st (burn nonce limit used) = true := by simp [isEVMTx,burn]
  rw [route,order,evm]
  rfl

theorem burnRun (st : MptState) (height : UInt64) {nonce limit used : UInt64} (within : used ≤ limit) :
    runEVM metered st (burn nonce limit used) height 0 = some (used,evmStart metered st (burn nonce limit used)) := by
  refine runEVMClean ?_ rfl
  have asked : read64 (burn nonce limit used).data = used := read64Be64 used
  rw [meteredProg,asked]
  exact congrArg (fun gas => some (gas,evmStart metered st (burn nonce limit used))) (if_pos within)

theorem burnApplied {st : MptState} {nonce limit used height : UInt64} {index : UInt32}
    (next : (st.accounts (account 1)).nonce = nonce) (within : used ≤ limit) :
    ∃ o, applyTxAtSession metered acceptNonEmptySig st (burn nonce limit used) height index none 0 = .ok o ∧
      o.session = none ∧ o.gasUsed = used ∧ (o.st.accounts (account 1)).nonce = nonce + 1 := by
  have free : (burn nonce limit used).gasLimit.toNat * (burn nonce limit used).gasFeeCap.toNat = 0 := Nat.mul_zero _
  have can : Affordable (burn nonce limit used) (st.accounts (account 1)).balance 0 :=
    ⟨UInt64.le_refl _,free.trans_lt (by decide),free.trans_le (Nat.zero_le _),UInt64.le_refl _⟩
  have ran : applyRoute metered st (burn nonce limit used) height index none 0 (route st (burn nonce limit used)) =
      .ok (priced none (burn nonce limit used) 0 (used,settled (reserved st (burn nonce limit used)) (burn nonce limit used)
        (st.accounts (account 1)).nonce (refunded (burn nonce limit used) 0 used))) := by
    rw [burnRoute]
    exact mapOk.mpr ⟨_,evmOk.mpr ⟨can,used,_,burnRun _ height within,rfl⟩,rfl⟩
  refine ⟨_,applyTxOk.mpr ⟨rfl,next.symm,ran⟩,rfl,rfl,?_⟩
  have own : (burn nonce limit used).sender = account 1 := rfl
  simp only [priced,settled,setAccountAt,own,if_true,next]

theorem burnsApplied {limits : List UInt64} {nonce left i : ℕ} {height : UInt64} {acc : Outcome MptState Unit}
    (closed : acc.session = none) (next : (acc.st.accounts (account 1)).nonce = UInt64.ofNat nonce) :
    ∃ o, applyLoop metered acceptNonEmptySig height 0 i acc (burns nonce left limits) = .ok o ∧ o.session = none ∧
      gasLimits (applied metered acceptNonEmptySig height 0 i acc (burns nonce left limits)) = limits ∧
      gasSum (applied metered acceptNonEmptySig height 0 i acc (burns nonce left limits)) =
        min left (limits.map UInt64.toNat).sum := by
  induction limits generalizing nonce left i acc with
  | nil => exact ⟨acc,rfl,closed,rfl,(Nat.min_zero left).symm⟩
  | cons limit rest ih =>
    have least : (UInt64.ofNat (min limit.toNat left)).toNat = min limit.toNat left :=
      UInt64.toNat_ofNat_of_lt' ((Nat.min_le_left _ _).trans_lt limit.toNat_lt)
    have within : UInt64.ofNat (min limit.toNat left) ≤ limit := by
      rw [UInt64.le_iff_toNat_le,least]
      exact Nat.min_le_left _ _
    obtain ⟨first,ran,open',used,bumped⟩ := @burnApplied _ _ _ _ height (UInt32.ofNat i) next within
    have gas : first.gasUsed.toNat = min limit.toNat left := by rw [used,least]
    rw [ofNatSucc] at bumped
    rw [← closed] at ran
    obtain ⟨o,rest',last,limits,sum⟩ := @ih (nonce + 1) (left - min limit.toNat left) (i + 1)
      ⟨first.st,first.session,acc.gasUsed + first.gasUsed,acc.tip + first.tip⟩ open' bumped
    have code : runsCode acc.st (burn (UInt64.ofNat nonce) limit (UInt64.ofNat (min limit.toNat left))) = true := by
      simp [runsCode,burnRoute]
    refine ⟨o,loopCons.mpr ⟨first,ran,rest'⟩,last,?_,?_⟩
    · simp only [burns,applied,ran,gasLimits]
      rw [codeRunsCons code,List.map_cons]
      exact congrArg (limit::·) limits
    · simp only [burns,applied,ran,gasSum]
      rw [codeRunsCons code]
      simp only [List.map_cons,List.sum_cons,gas]
      unfold gasSum at sum
      rw [sum]
      omega

def burningSetup (cap : UInt64) : Setup where
  genesis := ⟨∅,∅,0,0,0⟩
  chainID := 0
  gasLimit := cap
  exchangeMode := .continuous
  consensus := .pow

def burningBlock (limits : List UInt64) : Block := workless 1 (hashAt 0 0) 0 0 (burns 0 (2 ^ 64) limits)

theorem burnsIds {limits : List UInt64} {nonce left : ℕ} : ∀ tx ∈ burns nonce left limits, tx.chainID = 0 := by
  induction limits generalizing nonce left with
  | nil => exact fun tx member => (nomatch member)
  | cons limit rest ih =>
    intro tx member
    rcases List.mem_cons.mp member with rfl | later
    · rfl
    · exact ih tx later

theorem burningDerived (cap : UInt64) :
    ((burningSetup cap).chain metered).deriveState metered acceptNonEmptySig (hashAt 0 0) = .ok MptState.empty := by
  have root : ((burningSetup cap).chain metered).genesisHash = hashAt 0 0 := worklessRoot rfl rfl
  have sound : Sound metered acceptNonEmptySig ((burningSetup cap).chain metered) := setupSound _
  rw [← root]
  exact setupDerive sound.rooted (SameConfig.refl _) (setupStart metered _)

theorem burnsAccepted {limits : List UInt64} (large : 2 ^ 64 ≤ (limits.map UInt64.toNat).sum) (cap : UInt64) :
    ∃ c', ((burningSetup cap).chain metered).addBlock metered acceptNonEmptySig (burningBlock limits) = .ok c' ∧
      gasLimits (blockTrace metered acceptNonEmptySig MptState.empty (burns 0 (2 ^ 64) limits) 1 .continuous 0) = limits ∧
      gasSum (blockTrace metered acceptNonEmptySig MptState.empty (burns 0 (2 ^ 64) limits) 1 .continuous 0) = 2 ^ 64 := by
  obtain ⟨o,loop,closed,same,sum⟩ := @burnsApplied limits 0 (2 ^ 64) 0 1 ⟨MptState.empty,none,0,0⟩ rfl rfl
  rw [Nat.min_eq_left large] at sum
  have all := (traceGas meteredWithin (fun x member => appliedOk member)).1.symm.trans sum
  have total := (loopTotals loop).1
  have none : o.gasUsed = 0 := by
    rw [total,all]
    decide
  have ran : applyTxsAt metered acceptNonEmptySig MptState.empty (burns 0 (2 ^ 64) limits) 1 .continuous 0 =
      .ok ⟨o.st,0,o.tip⟩ :=
    (applyTxsClosed continuousClosed).mpr ⟨o,loop,by rw [finishSession,closed],none.symm,rfl⟩
  have mined : WellMined metered acceptNonEmptySig (burningSetup cap) [(burningSetup cap).genesis.toBlock metered]
      (burningBlock limits) :=
    ⟨⟨_,rfl,rfl,(if_pos (.inr rfl)).symm⟩,worklessMeets _,rfl,burnsIds,
      ⟨MptState.empty,_,rfl,(rewardedOk (by decide : (1 : UInt64) ≠ 0)).mpr ⟨_,ran,rfl,rfl⟩,rfl⟩,UInt64.zero_le⟩
  obtain ⟨c',added,_⟩ := worklessFirst rfl rfl rfl mined
  rw [blockTrace,continuousClosed]
  exact ⟨c',added,same,sum⟩

end L1Chain.Devnet

namespace L1Chain
open Transition Runs

/- The cap bounds what a block uses where the bounds on its transactions' gas fit 64 bits, or
where the gas is paid for. -/
theorem gasCapHolds {E : Type} {env : Env E} {verifySig : VerifySig} {c c' : Chain} {b : Block} {before : MptState}
    (within : WithinGas env) (added : c.addBlock env verifySig b = .ok c')
    (derived : c.deriveState env verifySig b.header.prevHash = .ok before)
    (fits : GasFits env before b.header.baseFee
      (blockTrace env verifySig before b.txs b.header.height c.exchangeMode b.header.baseFee)) :
    gasSum (blockTrace env verifySig before b.txs b.header.height c.exchangeMode b.header.baseFee) = b.header.gasUsed.toNat ∧
    gasSum (blockTrace env verifySig before b.txs b.header.height c.exchangeMode b.header.baseFee) ≤ c.gasLimit.toNat := by
  obtain ⟨st,w,a,_⟩ := addBlockOk.mp added
  obtain ⟨before',derived',applied⟩ := a.derived
  cases Except.ok.inj (derived.symm.trans derived')
  simp only [applyBlockRewarded,bindOk] at applied
  obtain ⟨o,ran,last⟩ := applied
  have used : o.gasUsed = b.header.gasUsed := (Prod.mk.inj (Except.ok.inj last)).2
  have sum := blockGas within ran fits
  rw [used] at sum
  exact ⟨sum,sum.trans_le (UInt64.le_iff_toNat_le.mp a.gas)⟩

namespace Devnet

/- Two contracts created on the stack machine, under limits of `2 ^ 63`. -/
def founding : List Transaction :=
  [{burn 0 9223372036854775808 0 with recipient := 0},{burn 1 9223372036854775808 0 with recipient := 0}]

theorem foundingCapped : ∃ c', ((burningSetup defaultGasLimit).chain metered).addBlock metered acceptNonEmptySig
      (workless 1 (hashAt 0 0) 0 64000 founding) = .ok c' ∧
    gasSum (blockTrace metered acceptNonEmptySig MptState.empty founding 1 .continuous 0) = 64000 ∧
    gasSum (blockTrace metered acceptNonEmptySig MptState.empty founding 1 .continuous 0) ≤ defaultGasLimit.toNat := by
  have gas : (applyTxsAt metered acceptNonEmptySig MptState.empty founding 1 .continuous 0).map (·.gasUsed) = .ok 64000 := by
    decide +kernel
  obtain ⟨r,ran,used⟩ := mapOk.mp gas
  have ids : ∀ tx ∈ founding, tx.chainID = 0 := by decide
  have mined : WellMined metered acceptNonEmptySig (burningSetup defaultGasLimit)
      [(burningSetup defaultGasLimit).genesis.toBlock metered] (workless 1 (hashAt 0 0) 0 64000 founding) :=
    ⟨⟨_,rfl,rfl,(if_pos (.inr rfl)).symm⟩,worklessMeets _,rfl,ids,
      ⟨MptState.empty,_,rfl,(rewardedOk (by decide : (1 : UInt64) ≠ 0)).mpr ⟨_,ran,rfl,used.symm⟩,rfl⟩,
      (by decide : (64000 : UInt64) ≤ defaultGasLimit)⟩
  obtain ⟨c',added,_⟩ := worklessFirst rfl rfl rfl mined
  have fits : GasFits metered MptState.empty 0 (blockTrace metered acceptNonEmptySig MptState.empty founding 1 .continuous 0) :=
    .inl (by decide +kernel)
  exact ⟨c',added,gasCapHolds meteredWithin added (burningDerived _) fits⟩

end Devnet

/- Two deployments that use up their limits of `2 ^ 63` make a block of `2 ^ 64` gas, which
is accepted under the default cap with a header that reports none. -/
theorem Devnet.gasCapPassed : WithinGas metered ∧ ∃ c',
    ((burningSetup defaultGasLimit).chain metered).addBlock metered acceptNonEmptySig
      (burningBlock [9223372036854775808,9223372036854775808]) = .ok c' ∧
    ((burningSetup defaultGasLimit).chain metered).deriveState metered acceptNonEmptySig (hashAt 0 0) = .ok MptState.empty ∧
    (burningBlock [9223372036854775808,9223372036854775808]).header.gasUsed = 0 ∧
    gasSum (blockTrace metered acceptNonEmptySig MptState.empty
      (burningBlock [9223372036854775808,9223372036854775808]).txs 1 .continuous 0) = 2 ^ 64 := by
  obtain ⟨c',added,_,sum⟩ := @burnsAccepted [9223372036854775808,9223372036854775808] (by decide) defaultGasLimit
  exact ⟨meteredWithin,c',added,burningDerived _,rfl,sum⟩

end L1Chain
