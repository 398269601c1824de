import L1Chain.SupplyEquation

/-! Gas is paid for. Whatever a block holds, in either exchange mode and through either
virtual machine, its gas at the base fee was taken out of the balances the block met.
Of the order book and of the interpreter it is only assumed that they make no coins and
that a message ends within its gas; what the repository does around them is proved. -/
namespace L1Chain.Transition
open Adapter Exchange MptState Ledger Runs

section
variable {E : Type}

def WithinGas (env : Env E) : Prop :=
  ∀ (st : MptState) (tx : Transaction) (height baseFee gasUsed : UInt64) (s : Adapter.StateDB MptState),
    interpret env.sha (evmProg env tx height baseFee) (evmStart env st tx) = some (gasUsed,s) → gasUsed ≤ tx.gasLimit

/- Neither the engine nor the interpreter makes coins; a message that a balance error has
latched is taken back, so nothing is asked of it. -/
structure Thrifty (env : Env E) : Prop where
  engine : Frugal env.engine
  within : WithinGas env
  coins : ∀ (st : MptState) (tx : Transaction) (height baseFee gasUsed : UInt64) (s : Adapter.StateDB MptState),
    interpret env.sha (evmProg env tx height baseFee) (evmStart env st tx) = some (gasUsed,s) →
      s.err = none → s.base.supply ≤ st.supply

end

section
variable {E : Type} {env : Env E} {verifySig : VerifySig} {st : MptState} {tx : Transaction} {txs : List Transaction}
  {height baseFee gasUsed : UInt64} {index : UInt32} {session : Option (BatchSession E)} {o : Outcome MptState E}
  {sdb : Adapter.StateDB MptState} {mode : Exchange.Mode} {r : BlockOutcome MptState}

theorem agreeSupply {x y : MptState} (agree : Agree .balance x y) : x.supply = y.supply :=
  congrArg total (funext fun a => congrArg UInt64.toNat (agree a))

theorem finaliseSupply (s : Adapter.StateDB MptState) : s.finalise.base.supply ≤ s.base.supply := by
  rw [supply,supply,total,total]
  refine Finset.sum_le_sum (fun a _ => ?_)
  rw [balances,StateDB.finalise,finaliseAt]
  split
  · exact Nat.zero_le _
  · exact le_rfl

theorem messageGas (within : WithinGas env) (ran : runEVM env st tx height baseFee = some (gasUsed,sdb)) :
    gasUsed ≤ tx.gasLimit := by
  obtain ⟨g,s,interpreted,⟨_,rfl,_⟩ | ⟨rfl,_⟩⟩ := runEVMCases ran
  · exact within _ _ _ _ _ _ interpreted
  · exact UInt64.le_refl _

theorem messageCoins (thrifty : Thrifty env) (ran : runEVM env st tx height baseFee = some (gasUsed,sdb)) :
    sdb.base.supply ≤ st.supply := by
  obtain ⟨g,s,interpreted,⟨clean,_,rfl⟩ | ⟨_,reverted⟩⟩ := runEVMCases ran
  · exact thrifty.coins _ _ _ _ _ _ interpreted clean
  · have back : Agree .balance s.origin st := interpretOrigin (by decide) interpreted
    rw [(revertOrigin reverted).2 rfl,agreeSupply back]

theorem evmCharged {r : UInt64 × MptState} (thrifty : Thrifty env) (fits : st.supply < 2 ^ 64)
    (ok : applyEVMTx env st tx (getAccount st tx.sender) height baseFee = .ok r) :
    r.2.supply + r.1.toNat * (effectivePrice tx baseFee).toNat ≤ st.supply := by
  obtain ⟨can,gasUsed,sdb,ran,rfl⟩ := evmOk.mp ok
  have taken := reservedSupply can
  have left := (finaliseSupply sdb).trans (messageCoins thrifty ran)
  have back := refundNat can (messageGas thrifty.within ran)
  dsimp only
  rw [supply,settledBalances,← supply,creditSupply (by omega)]
  omega

theorem orderPaid (thrifty : Thrifty env) (routed : route st tx = .exchange)
    (ok : applyTxAtSession env verifySig st tx height index session baseFee = .ok o) : o.st.supply ≤ st.supply := by
  obtain ⟨_,_,ran⟩ := applyTxOk.mp ok
  rw [routed] at ran
  cases session with
  | none =>
    obtain ⟨_,after,matched,rfl⟩ := spotOk.mp ran
    exact (applyFrugal thrifty.engine matched).trans bumpedSupply.le
  | some s =>
    obtain ⟨_,_,_,rfl⟩ := orderOk.mp ran
    exact bumpedSupply.le

theorem txCharged (thrifty : Thrifty env) (fits : st.supply < 2 ^ 64)
    (ok : applyTxAtSession env verifySig st tx height index session baseFee = .ok o) :
    o.st.supply + (⟨st,tx,o⟩ : Applied MptState E).gasCharged baseFee ≤ st.supply := by
  by_cases evm : route st tx = .evm
  · obtain ⟨_,_,ran⟩ := applyTxOk.mp ok
    rw [evm] at ran
    obtain ⟨r,paid,rfl⟩ := mapOk.mp ran
    exact evmCharged thrifty fits paid
  · by_cases order : route st tx = .exchange
    · have free := (freeGas evm (by rw [order]; decide) ok).1
      have kept := orderPaid thrifty order ok
      simpa [Applied.gasCharged,free] using kept
    · exact (routedSupply fits evm (fun same => absurd same order) ok).le

theorem baseFeeCharged (ok : applyTxAtSession env verifySig st tx height index session baseFee = .ok o) :
    baseFee.toNat * o.gasUsed.toNat ≤ (⟨st,tx,o⟩ : Applied MptState E).gasCharged baseFee := by
  by_cases evm : route st tx = .evm
  · obtain ⟨_,_,ran⟩ := applyTxOk.mp ok
    rw [evm] at ran
    obtain ⟨r,paid,rfl⟩ := mapOk.mp ran
    obtain ⟨can,_⟩ := evmOk.mp paid
    rw [Applied.gasCharged,priceSplit can.floor,Nat.mul_comm]
    exact Nat.mul_le_mul_left _ (Nat.le_add_right _ _)
  · rw [chargeSplit evm ok]
    exact Nat.le_add_right _ _

theorem loopCharged (thrifty : Thrifty env) {i : Nat} {acc : Outcome MptState E} (fits : acc.st.supply < 2 ^ 64)
    (ok : applyLoop env verifySig height baseFee i acc txs = .ok o) :
    o.st.supply + ((applied env verifySig height baseFee i acc txs).map (·.gasCharged baseFee)).sum ≤ acc.st.supply := by
  induction txs generalizing i acc with
  | nil =>
    obtain rfl := Except.ok.inj ok
    simp [applied]
  | cons tx txs ih =>
    obtain ⟨first,ran,rest⟩ := loopCons.mp ok
    have now := txCharged thrifty fits ran
    have below : first.st.supply < 2 ^ 64 := by omega
    have later := @ih _ ⟨first.st,first.session,acc.gasUsed + first.gasUsed,acc.tip + first.tip⟩ below rest
    simp only [applied,ran,List.map_cons,List.sum_cons]
    dsimp only at later
    omega

theorem blockPaid (thrifty : Thrifty env) (fits : st.supply < 2 ^ 64)
    (ok : applyTxsAt env verifySig st txs height mode baseFee = .ok r) :
    baseFee.toNat * r.gasUsed.toNat ≤ st.supply := by
  simp only [applyTxsAt,bindOk] at ok
  obtain ⟨session,_,o,loop,_,_,closed⟩ := ok
  cases Except.ok.inj closed
  have start : (⟨st,session,0,0⟩ : Outcome MptState E).st.supply < 2 ^ 64 := fits
  have charged := loopCharged thrifty start loop
  have floor : ((applied env verifySig height baseFee 0 ⟨st,session,0,0⟩ txs).map
      (fun x => baseFee.toNat * x.after.gasUsed.toNat)).sum ≤
      ((applied env verifySig height baseFee 0 ⟨st,session,0,0⟩ txs).map (·.gasCharged baseFee)).sum := by
    refine List.sum_le_sum (fun x member => ?_)
    obtain ⟨_,_,ran⟩ := appliedOk member
    exact baseFeeCharged ran
  rw [List.sum_map_mul_left] at floor
  have total := (loopTotals loop).1
  dsimp only at charged total ⊢
  rw [UInt64.zero_add] at total
  rw [total,mulOfNat (by omega)]
  omega

end
end L1Chain.Transition
