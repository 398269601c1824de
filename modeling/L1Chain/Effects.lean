import L1Chain.TransitionSteps
import L1Chain.StackVMSteps
import L1Chain.AdapterSteps

/-! What an accepted transaction does to balances and nonces. A transfer is a
nonce bump and a payment; a contract transaction takes the reserve, executes and
gives the unused part back, so that what it cost its sender is the gas used at
the effective price. -/
namespace L1Chain.Transition
open FeeMarket StackVM MptState Ledger Runs

section
variable {st st' : MptState} {tx : Transaction} {a : Address} {l c balance baseFee reserve price : UInt64}

def effectivePrice (tx : Transaction) (baseFee : UInt64) : UInt64 :=
  match effectiveGasPrice baseFee tx.gasFeeCap tx.gasTipCap with
  | .ok price => price.effectivePrice
  | .error _ => 0

theorem gasReserveSome : gasReserve l c = some reserve ↔ l.toNat * c.toNat < 2 ^ 64 ∧ reserve = l * c := by
  unfold gasReserve
  dsimp only
  by_cases fits : l.toNat * c.toNat < 2 ^ 64
  · have product : (l * c).toNat = l.toNat * c.toNat := by
      rw [UInt64.toNat_mul]
      exact Nat.mod_eq_of_lt fits
    have kept : ¬ (c ≠ 0 ∧ l ≠ 0 ∧ l * c / c ≠ l) := by
      rintro ⟨divides,_,wrapped⟩
      refine wrapped (UInt64.toNat_inj.mp ?_)
      rw [UInt64.toNat_div,product]
      exact Nat.mul_div_cancel _ (UInt64.lt_iff_toNat_lt.mp (UInt64.pos_iff_ne_zero.mpr divides))
    rw [if_neg kept,Option.some.injEq]
    exact ⟨fun eq => ⟨fits,eq.symm⟩,fun eq => eq.2.symm⟩
  · have wrapped : c ≠ 0 ∧ l ≠ 0 ∧ l * c / c ≠ l := by
      refine ⟨fun zero => fits (by simp [zero]),fun zero => fits (by simp [zero]),fun same => fits ?_⟩
      have back := congrArg UInt64.toNat same
      rw [UInt64.toNat_div] at back
      have le : l.toNat * c.toNat ≤ (l * c).toNat := by
        rw [← back]
        exact Nat.div_mul_le_self _ _
      exact le.trans_lt (UInt64.toNat_lt _)
    rw [if_pos wrapped]
    exact ⟨fun eq => (nomatch eq),fun eq => absurd eq.1 fits⟩

structure Affordable (tx : Transaction) (balance baseFee : UInt64) : Prop where
  tip : tx.gasTipCap ≤ tx.gasFeeCap
  fits : tx.gasLimit.toNat * tx.gasFeeCap.toNat < 2 ^ 64
  held : tx.gasLimit.toNat * tx.gasFeeCap.toNat ≤ balance.toNat
  floor : baseFee ≤ tx.gasFeeCap

theorem reserveGasOk : reserveGas tx balance baseFee = .ok (reserve,price) ↔
    Affordable tx balance baseFee ∧ reserve = tx.gasLimit * tx.gasFeeCap ∧ price = effectivePrice tx baseFee := by
  unfold reserveGas
  rw [bindOk]
  constructor
  · rintro ⟨_,checked,taken⟩
    rw [liftFeeOk,validateFeeCapTip] at checked
    split at checked
    · cases checked
    · rename_i tip
      split at taken
      · cases taken
      · rename_i r reserved
        obtain ⟨fits,rfl⟩ := gasReserveSome.mp reserved
        split at taken
        · cases taken
        · rename_i held
          rw [bindOk] at taken
          obtain ⟨p,priced,last⟩ := taken
          cases last
          have paid : effectivePrice tx baseFee = p.effectivePrice := by
            rw [effectivePrice,liftFeeOk.mp priced]
          have enough := UInt64.le_iff_toNat_le.mp (UInt64.not_lt.mp held)
          rw [UInt64.toNat_mul,Nat.mod_eq_of_lt fits] at enough
          refine ⟨⟨UInt64.not_lt.mp tip,fits,enough,?_⟩,rfl,paid.symm⟩
          rw [liftFeeOk,effectiveGasPrice] at priced
          split at priced
          · cases priced
          · exact UInt64.not_lt.mp ‹_›
  · rintro ⟨can,rfl,rfl⟩
    have tip : validateFeeCapTip tx.gasFeeCap tx.gasTipCap = .ok () := if_neg (UInt64.not_lt.mpr can.tip)
    have held : ¬ balance < tx.gasLimit * tx.gasFeeCap := by
      rw [UInt64.not_lt,UInt64.le_iff_toNat_le,UInt64.toNat_mul,Nat.mod_eq_of_lt can.fits]
      exact can.held
    refine ⟨(),liftFeeOk.mpr tip,?_⟩
    rw [gasReserveSome.mpr ⟨can.fits,rfl⟩]
    simp only [if_neg held,bindOk,liftFeeOk]
    unfold effectivePrice effectiveGasPrice
    simp only [if_neg (UInt64.not_lt.mpr can.floor)]
    exact ⟨_,rfl,rfl⟩

theorem effectivePriceLe : effectivePrice tx baseFee ≤ tx.gasFeeCap := by
  unfold effectivePrice effectiveGasPrice
  split
  · rename_i p found
    split at found
    · cases found
    · rename_i floor
      cases found
      have room := UInt64.le_iff_toNat_le.mp (UInt64.not_lt.mp floor)
      have headroom := UInt64.toNat_sub_of_le _ _ (UInt64.not_lt.mp floor)
      have small := UInt64.toNat_lt tx.gasFeeCap
      simp only [UInt64.le_iff_toNat_le,UInt64.toNat_add]
      split
      · rw [headroom,Nat.mod_eq_of_lt (by omega)]
        omega
      · rename_i tip
        have below := UInt64.le_iff_toNat_le.mp (UInt64.not_lt.mp tip)
        rw [headroom] at below
        rw [Nat.mod_eq_of_lt (by omega)]
        omega
  · exact UInt64.zero_le

def bumped (st : MptState) (a : Address) : MptState := bumpNonce st a (getAccount st a)

theorem bumpedAt (x : Address) : (bumped st a).accounts x =
    if x = a then {st.accounts a with nonce := (st.accounts a).nonce + 1} else st.accounts x := rfl

theorem bumpedBalances : (bumped st a).balances = st.balances := by
  funext x
  exact putKeeps (·.balance.toNat) rfl

theorem valueGuard {α : Type} {x : Except TxErr α} {value : UInt64} {r : α} :
    (if balance < value then .error .insufficientBalance else x) = .ok r ↔ value ≤ balance ∧ x = .ok r := by
  split
  · rename_i short
    exact ⟨fun eq => (nomatch eq),fun eq => absurd eq.1 (UInt64.not_le.mpr short)⟩
  · rename_i enough
    exact ⟨fun eq => ⟨UInt64.not_lt.mp enough,eq⟩,And.right⟩

theorem transferPays : applyTransfer st tx (getAccount st tx.sender) = .ok st' ↔
    tx.value ≤ (st.accounts tx.sender).balance ∧
      st' = (bumped st tx.sender).pay tx.sender tx.recipient tx.value := by
  unfold applyTransfer
  simp only [getAccountEq]
  rw [valueGuard]
  refine and_congr_right fun _ => ?_
  by_cases self : tx.sender = tx.recipient
  · rw [if_pos self,payIdle (.inr self),Except.ok.injEq]
    exact eq_comm
  · rw [if_neg self,Except.ok.injEq,eq_comm]
    refine Eq.congr rfl (MptState.ext' fun x => ?_)
    simp only [payAt self,bumpedAt,setAccountAt,if_neg (Ne.symm self),if_true]
    split
    · rfl
    · split
      · rfl
      · rfl

theorem orderOk {E : Type} {env : Env E} {height : UInt64} {index : UInt32} {s : Exchange.BatchSession E}
    {o : Outcome MptState E} : applyExchangeTx env st tx (getAccount st tx.sender) height index (some s) = .ok o ↔
    tx.value ≤ (st.accounts tx.sender).balance ∧ ∃ s', s.apply env.engine height index tx.sender tx.data = .ok s' ∧
      o = ⟨bumped st tx.sender,some s',0,0⟩ := by
  unfold applyExchangeTx
  simp only [getAccountEq]
  rw [valueGuard]
  simp only [bindOk,liftExchangeOk,Except.ok.injEq]
  exact and_congr_right fun _ => exists_congr fun s' => and_congr_right fun _ => eq_comm

theorem spotOk {E : Type} {env : Env E} {height : UInt64} {index : UInt32} {o : Outcome MptState E} :
    applyExchangeTx env st tx (getAccount st tx.sender) height index none = .ok o ↔
    tx.value ≤ (st.accounts tx.sender).balance ∧
      ∃ st', Exchange.apply env.engine (bumped st tx.sender) tx height index = .ok st' ∧ o = ⟨st',none,0,0⟩ := by
  unfold applyExchangeTx
  simp only [getAccountEq]
  rw [valueGuard]
  simp only [bindOk,liftExchangeOk,Except.ok.injEq]
  exact and_congr_right fun _ => exists_congr fun st' => and_congr_right fun _ => eq_comm

def reserved (st : MptState) (tx : Transaction) : MptState :=
  setAccount st tx.sender {st.accounts tx.sender with
    balance := (st.accounts tx.sender).balance - tx.gasLimit * tx.gasFeeCap}

def charged (st : MptState) (tx : Transaction) : MptState :=
  setAccount st tx.sender {st.accounts tx.sender with
    balance := (st.accounts tx.sender).balance - tx.gasLimit * tx.gasFeeCap
    nonce := (st.accounts tx.sender).nonce + 1}

def refunded (tx : Transaction) (baseFee gasUsed : UInt64) : UInt64 :=
  tx.gasLimit * tx.gasFeeCap - gasUsed * effectivePrice tx baseFee

theorem contractOk {E : Type} {env : Env E} {r : UInt64 × MptState} :
    applyContractTx env st tx (getAccount st tx.sender) baseFee = .ok r ↔
      Affordable tx (st.accounts tx.sender).balance baseFee ∧
      r = ((execute env.sha (charged st tx) (message tx)).1.gasUsed,
        credit (execute env.sha (charged st tx) (message tx)).2 tx.sender
          (refunded tx baseFee (execute env.sha (charged st tx) (message tx)).1.gasUsed)) := by
  simp only [applyContractTx,bindOk]
  constructor
  · rintro ⟨⟨reserve,price⟩,reserved,last⟩
    obtain ⟨can,rfl,rfl⟩ := reserveGasOk.mp reserved
    exact ⟨can,(Except.ok.inj last).symm⟩
  · rintro ⟨can,rfl⟩
    exact ⟨_,reserveGasOk.mpr ⟨can,rfl,rfl⟩,rfl⟩

theorem reserveNat (can : Affordable tx balance baseFee) :
    (tx.gasLimit * tx.gasFeeCap).toNat = tx.gasLimit.toNat * tx.gasFeeCap.toNat := by
  rw [UInt64.toNat_mul]
  exact Nat.mod_eq_of_lt can.fits

theorem refundNat {gasUsed : UInt64} (can : Affordable tx balance baseFee) (within : gasUsed ≤ tx.gasLimit) :
    (refunded tx baseFee gasUsed).toNat + gasUsed.toNat * (effectivePrice tx baseFee).toNat =
      tx.gasLimit.toNat * tx.gasFeeCap.toNat := by
  have cheaper : gasUsed.toNat * (effectivePrice tx baseFee).toNat ≤ tx.gasLimit.toNat * tx.gasFeeCap.toNat :=
    Nat.mul_le_mul (UInt64.le_iff_toNat_le.mp within) (UInt64.le_iff_toNat_le.mp effectivePriceLe)
  have cost : (gasUsed * effectivePrice tx baseFee).toNat = gasUsed.toNat * (effectivePrice tx baseFee).toNat := by
    rw [UInt64.toNat_mul]
    exact Nat.mod_eq_of_lt (cheaper.trans_lt can.fits)
  rw [refunded,UInt64.toNat_sub_of_le,cost,reserveNat can]
  · omega
  · rw [UInt64.le_iff_toNat_le,cost,reserveNat can]
    exact cheaper

theorem reservedBalance (can : Affordable tx (st.accounts tx.sender).balance baseFee) :
    (reserved st tx).balances tx.sender + tx.gasLimit.toNat * tx.gasFeeCap.toNat = st.balances tx.sender := by
  have held : tx.gasLimit * tx.gasFeeCap ≤ (st.accounts tx.sender).balance := by
    rw [UInt64.le_iff_toNat_le,reserveNat can]
    exact can.held
  rw [balances,reserved,setAccountAt,if_pos rfl]
  simp only
  rw [UInt64.toNat_sub_of_le _ _ held,reserveNat can,balances]
  exact Nat.sub_add_cancel can.held

theorem reservedSupply (can : Affordable tx (st.accounts tx.sender).balance baseFee) :
    (reserved st tx).supply + tx.gasLimit.toNat * tx.gasFeeCap.toNat = st.supply := by
  have own : (reserved st tx).balances tx.sender = ((reserved st tx).accounts tx.sender).balance.toNat := rfl
  have moved : (reserved st tx).supply + st.balances tx.sender = st.supply + (reserved st tx).balances tx.sender := by
    rw [own,reserved,setAccountAt,if_pos rfl]
    exact supplySet _
  have := reservedBalance can
  omega

theorem chargedBumped (st : MptState) (tx : Transaction) : charged st tx = bumped (reserved st tx) tx.sender := by
  ext1 x
  simp only [charged,bumpedAt,reserved,setAccountAt,if_true]
  split <;> rfl

theorem chargedBalances : (charged st tx).balances = (reserved st tx).balances := by
  rw [chargedBumped,bumpedBalances]

theorem chargedSupply (can : Affordable tx (st.accounts tx.sender).balance baseFee) :
    (charged st tx).supply + tx.gasLimit.toNat * tx.gasFeeCap.toNat = st.supply := by
  have taken := reservedSupply can
  rwa [supply,← chargedBalances,← supply] at taken

theorem creditBalance {amount : UInt64} (fits : st.supply + amount.toNat < 2 ^ 64) :
    (credit st a amount).balances a = st.balances a + amount.toNat := by
  have le := leTotal st.balances a
  rw [balances,credit,setAccountAt,if_pos rfl]
  simp only [getAccountEq,UInt64.toNat_add]
  exact Nat.mod_eq_of_lt (by simp only [supply,balances] at fits le; omega)

theorem creditSupply {amount : UInt64} (fits : st.supply + amount.toNat < 2 ^ 64) :
    (credit st a amount).supply = st.supply + amount.toNat := by
  have own := creditBalance (a := a) fits
  have moved : (credit st a amount).supply + st.balances a = st.supply + (credit st a amount).balances a := by
    rw [balances,balances,credit,setAccountAt,if_pos rfl]
    exact supplySet _
  omega

theorem contractSupply {E : Type} {env : Env E} {r : UInt64 × MptState} (fits : st.supply < 2 ^ 64)
    (ok : applyContractTx env st tx (getAccount st tx.sender) baseFee = .ok r) :
    r.2.supply + r.1.toNat * (effectivePrice tx baseFee).toNat = st.supply := by
  obtain ⟨can,rfl⟩ := contractOk.mp ok
  obtain ⟨within,done⟩ := executed env.sha (charged st tx) (message tx)
  have taken := chargedSupply can
  have kept := done.supply (by omega)
  have back := refundNat can within
  dsimp only
  rw [creditSupply (by omega)]
  omega

def settled (st : MptState) (tx : Transaction) (nonce refund : UInt64) : MptState :=
  setAccount st tx.sender {st.accounts tx.sender with
    nonce := nonce + 1
    balance := (st.accounts tx.sender).balance + refund}

theorem settledBalances {nonce refund : UInt64} :
    (settled st tx nonce refund).balances = (credit st tx.sender refund).balances := by
  funext x
  simp only [balances,settled,credit,setAccountAt,getAccountEq]
  split <;> rfl

theorem evmOk {E : Type} {env : Env E} {height : UInt64} {r : UInt64 × MptState} :
    applyEVMTx env st tx (getAccount st tx.sender) height baseFee = .ok r ↔
      Affordable tx (st.accounts tx.sender).balance baseFee ∧
      ∃ gasUsed sdb, runEVM env (reserved st tx) tx height baseFee = some (gasUsed,sdb) ∧
        r = (gasUsed,settled sdb.finalise.base tx (st.accounts tx.sender).nonce (refunded tx baseFee gasUsed)) := by
  simp only [applyEVMTx,bindOk]
  constructor
  · rintro ⟨⟨reserve,price⟩,checked,last⟩
    obtain ⟨can,rfl,rfl⟩ := reserveGasOk.mp checked
    refine ⟨can,?_⟩
    dsimp only at last
    split at last
    · cases last
    · rename_i gasUsed sdb ran
      exact ⟨gasUsed,sdb,ran,(Except.ok.inj last).symm⟩
  · rintro ⟨can,gasUsed,sdb,ran,rfl⟩
    refine ⟨_,reserveGasOk.mpr ⟨can,rfl,rfl⟩,?_⟩
    dsimp only
    have run : runEVM env (setAccount st tx.sender {getAccount st tx.sender with
        balance := (getAccount st tx.sender).balance - tx.gasLimit * tx.gasFeeCap}) tx height baseFee =
        some (gasUsed,sdb) := ran
    rw [run]
    rfl

def evmProg {E : Type} (env : Env E) (tx : Transaction) (height baseFee : UInt64) : Adapter.Prog :=
  if tx.recipient = Evm.deployAddress then env.evm.create height baseFee tx.sender tx.data tx.gasLimit tx.value
  else env.evm.call height baseFee tx.sender tx.recipient tx.data tx.gasLimit tx.value

def evmStart {E : Type} (env : Env E) (st : MptState) (tx : Transaction) : Adapter.StateDB MptState :=
  (Adapter.new st).prepare tx.sender 0 (if tx.recipient = Evm.deployAddress then none else some tx.recipient)
    env.evm.precompiles

theorem runEVMCases {E : Type} {env : Env E} {height gasUsed : UInt64} {sdb : Adapter.StateDB MptState}
    (ran : runEVM env st tx height baseFee = some (gasUsed,sdb)) :
    ∃ g s, Adapter.interpret env.sha (evmProg env tx height baseFee) (evmStart env st tx) = some (g,s) ∧
      (s.err = none ∧ gasUsed = g ∧ sdb = s ∨ gasUsed = tx.gasLimit ∧ s.revertToSnapshot 0 = some sdb) := by
  simp only [runEVM,bind,Option.bind_eq_some_iff] at ran
  obtain ⟨⟨g,s⟩,interpreted,last⟩ := ran
  refine ⟨g,s,interpreted,?_⟩
  dsimp only at last
  split at last
  · simp only [Option.bind_eq_some_iff] at last
    obtain ⟨back,reverted,same⟩ := last
    cases same
    exact .inr ⟨rfl,reverted⟩
  · rename_i clean
    cases last
    exact .inl ⟨Option.not_isSome_iff_eq_none.mp clean,rfl,rfl⟩

theorem runEVMClean {E : Type} {env : Env E} {height gasUsed : UInt64} {sdb : Adapter.StateDB MptState}
    (interpreted : Adapter.interpret env.sha (evmProg env tx height baseFee) (evmStart env st tx) = some (gasUsed,sdb))
    (clean : sdb.err = none) : runEVM env st tx height baseFee = some (gasUsed,sdb) := by
  simp only [runEVM,bind,Option.bind_eq_some_iff]
  exact ⟨(gasUsed,sdb),interpreted,if_neg (by simp [clean])⟩

theorem runEVMKeepsAt {E : Type} {env : Env E} {height gasUsed : UInt64} {sdb : Adapter.StateDB MptState}
    {P : Adapter.StateDB MptState → Prop} {Allowed : Adapter.StateDB MptState → Adapter.Request → Prop}
    (keep : ∀ {s r reply s'}, Allowed s r → P s → s.serve env.sha r = some (reply,s') → P s')
    (revert : ∀ {s id s'}, P s → s.revertToSnapshot id = some s' → P s')
    (issues : Adapter.IssuesAt env.sha Allowed (evmProg env tx height baseFee) (evmStart env st tx))
    (start : P (evmStart env st tx)) (ran : runEVM env st tx height baseFee = some (gasUsed,sdb)) : P sdb := by
  obtain ⟨g,s,interpreted,ends⟩ := runEVMCases ran
  have done : P s := Adapter.interpretKeepsAt keep issues start interpreted
  rcases ends with ⟨_,_,rfl⟩ | ⟨_,reverted⟩
  · exact done
  · exact revert done reverted

theorem runEVMKeeps {E : Type} {env : Env E} {height gasUsed : UInt64} {sdb : Adapter.StateDB MptState}
    {P : Adapter.StateDB MptState → Prop} {Allowed : Adapter.Request → Prop}
    (keep : ∀ {s r reply s'}, Allowed r → P s → s.serve env.sha r = some (reply,s') → P s')
    (revert : ∀ {s id s'}, P s → s.revertToSnapshot id = some s' → P s')
    (issues : Adapter.Issues env.sha Allowed (evmProg env tx height baseFee) (evmStart env st tx))
    (start : P (evmStart env st tx)) (ran : runEVM env st tx height baseFee = some (gasUsed,sdb)) : P sdb :=
  runEVMKeepsAt keep revert issues.everywhere start ran

theorem messageSpared {E : Type} {env : Env E} {height gasUsed : UInt64} {sdb : Adapter.StateDB MptState}
    {fd : Adapter.Field} {Allowed : Adapter.Request → Prop} (avoids : ∀ {r}, Allowed r → r.Avoids fd a)
    (kept : fd.Same ((reserved st tx).accounts a) (st.accounts a))
    (issues : Adapter.Issues env.sha Allowed (evmProg env tx height baseFee) (evmStart env (reserved st tx) tx))
    (ran : runEVM env (reserved st tx) tx height baseFee = some (gasUsed,sdb)) :
    Adapter.Spared fd a (st.accounts a) sdb := by
  have start : Adapter.Spared fd a (st.accounts a) (evmStart env (reserved st tx) tx) :=
    ⟨kept,rfl,fun _ member => nomatch member⟩
  exact runEVMKeeps (fun allowed before served => before.serve (avoids allowed) served)
    (fun before reverted => before.revert reverted) issues start ran

end
end L1Chain.Transition
