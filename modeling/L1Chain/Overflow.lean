import L1Chain.Effects
import L1Chain.Devnet
import L1Chain.Snapshots

/-! Balances that leave 64 bits inside the interpreter. The adapter declines such a write
and latches an error that no revert clears, so at the end of a message the error tells
whether every balance on the way was exact; where it was not, the whole message is
taken back and only its gas is paid. -/
namespace L1Chain.Adapter

section
variable {s s' : StateDB MptState} {sha : Bytes → Hash} {r : Request} {a : Address} {prog : Prog}

def Request.Small : Request → Prop
  | .addBalance _ amount | .subBalance _ amount => amount.toNat < 2 ^ 255
  | _ => True

def Request.Fits (s : StateDB MptState) : Request → Prop
  | .addBalance a amount => (s.base.accounts a).balance.toNat + amount.toNat < 2 ^ 64
  | .subBalance a amount => amount.toNat ≤ (s.base.accounts a).balance.toNat
  | _ => True

def Request.Exact (sha : Bytes → Hash) (s : StateDB MptState) (r : Request) : Prop :=
  ∀ reply s', s.serve sha r = some (reply,s') → match r with
    | .addBalance a amount =>
      (s'.base.accounts a).balance.toNat = (s.base.accounts a).balance.toNat + amount.toNat ∧
        ∀ b, b ≠ a → (s'.base.accounts b).balance = (s.base.accounts b).balance
    | .subBalance a amount =>
      (s'.base.accounts a).balance.toNat + amount.toNat = (s.base.accounts a).balance.toNat ∧
        ∀ b, b ≠ a → (s'.base.accounts b).balance = (s.base.accounts b).balance
    | .revertToSnapshot _ => True
    | _ => ∀ b, (s'.base.accounts b).balance = (s.base.accounts b).balance

theorem toUint256Nat (v : UInt64) : (StateDB.toUint256 v).toNat = v.toNat := by
  unfold StateDB.toUint256
  rw [BitVec.toNat_setWidth]
  exact Nat.mod_eq_of_lt (v.toNat_lt.trans (by decide))

theorem sumNat {v : UInt64} {amount : Word} (small : amount.toNat < 2 ^ 255) :
    (StateDB.toUint256 v + amount).toNat = v.toNat + amount.toNat := by
  have := v.toNat_lt
  rw [BitVec.toNat_add,toUint256Nat]
  exact Nat.mod_eq_of_lt (by omega)

theorem diffNat {v : UInt64} {amount : Word} (small : amount.toNat < 2 ^ 255) :
    (StateDB.toUint256 v - amount).toNat < 2 ^ 64 ↔ amount.toNat ≤ v.toNat := by
  have := v.toNat_lt
  rw [BitVec.toNat_sub,toUint256Nat]
  omega

theorem diffExact {v : UInt64} {amount : Word} (fits : amount.toNat ≤ v.toNat) :
    (StateDB.toUint256 v - amount).toNat + amount.toNat = v.toNat := by
  have := v.toNat_lt
  rw [BitVec.toNat_sub,toUint256Nat]
  omega

theorem touchErr {S : Type} (s : StateDB S) (a : Address) : (s.touch a).err = s.err :=
  congrArg Prod.fst (touchLasting s a)

theorem cacheErr (s : StateDB MptState) (a : Address) (key : Hash) : (s.cacheCommitted a key).err = s.err := by
  unfold StateDB.cacheCommitted
  split <;> rfl

theorem failErr (s : StateDB MptState) (e : AdapterErr) : (s.fail e).err ≠ none := by
  unfold StateDB.fail
  cases s.err <;> simp

theorem servedErr {reply : Reply} (small : r.Small) (ok : s.serve sha r = some (reply,s')) :
    s'.err = none ↔ s.err = none ∧ r.Fits s := by
  have kept (same : s'.err = s.err) (fits : r.Fits s) : s'.err = none ↔ s.err = none ∧ r.Fits s := by
    rw [same]
    exact ⟨fun clean => ⟨clean,fits⟩,And.left⟩
  cases r with
  | addBalance a amount =>
    have sum : (StateDB.toUint256 (getAccount (s.touch a).base a).balance + amount).toNat < 2 ^ 64 ↔
        Request.Fits s (.addBalance a amount) := by
      rw [sumNat small,touchBase]
      rfl
    cases ok
    unfold StateDB.addBalance
    dsimp only
    split
    · rename_i fits
      exact ⟨fun clean => ⟨(touchErr s a) ▸ clean,sum.mp fits⟩,fun clean => (touchErr s a).trans clean.1⟩
    · rename_i misfits
      exact ⟨fun clean => absurd clean (failErr _ _),fun clean => absurd (sum.mpr clean.2) misfits⟩
  | subBalance a amount =>
    have diff : (StateDB.toUint256 (getAccount (s.touch a).base a).balance - amount).toNat < 2 ^ 64 ↔
        Request.Fits s (.subBalance a amount) := by
      rw [diffNat small,touchBase]
      rfl
    cases ok
    unfold StateDB.subBalance
    dsimp only
    split
    · rename_i fits
      exact ⟨fun clean => ⟨(touchErr s a) ▸ clean,diff.mp fits⟩,fun clean => (touchErr s a).trans clean.1⟩
    · rename_i misfits
      exact ⟨fun clean => absurd clean (failErr _ _),fun clean => absurd (diff.mpr clean.2) misfits⟩
  | setState b key value =>
    cases ok
    exact kept ((cacheErr _ b key).trans (touchErr s b)) trivial
  | getStateAndCommittedState b key =>
    cases ok
    exact kept (cacheErr s b key) trivial
  | _ => exact kept (congrArg Prod.fst (servedLasting id ok)) trivial

theorem interpretErr {gas : UInt64} (small : IssuesAt sha (fun _ => Request.Small) prog s)
    (ran : interpret sha prog s = some (gas,s')) : s'.err = none ↔ s.err = none ∧ IssuesAt sha Request.Fits prog s := by
  induction prog generalizing s with
  | done g =>
    cases ran
    exact ⟨fun clean => ⟨clean,trivial⟩,And.left⟩
  | ask r k ih =>
    rw [interpret] at ran
    rw [IssuesAt] at small ⊢
    obtain ⟨here,later⟩ := small
    cases served : s.serve sha r with
    | none =>
      rw [served] at ran
      cases ran
    | some pair =>
      rw [served] at ran later
      rw [ih pair.1 later ran,servedErr here served,and_assoc]

theorem setBalanceAt (base : MptState) (a b : Address) (balance : UInt64) :
    ((setBalance base a balance).accounts b).balance = if b = a then balance else (base.accounts b).balance := by
  simp only [setBalance,MptState.setAccountAt]
  split <;> rfl

theorem addExact {amount : Word} (fits : Request.Fits s (.addBalance a amount)) :
    Request.Exact sha s (.addBalance a amount) := by
  intro reply s' ok
  have small : amount.toNat < 2 ^ 255 := (Nat.le_add_left _ _).trans_lt (fits.trans (by decide))
  have sum : (StateDB.toUint256 (getAccount (s.touch a).base a).balance + amount).toNat =
      (s.base.accounts a).balance.toNat + amount.toNat := by
    rw [sumNat small,touchBase]
    rfl
  have written : s'.base = setBalance s.base a (UInt64.ofNat ((s.base.accounts a).balance.toNat + amount.toNat)) := by
    cases ok
    unfold StateDB.addBalance
    dsimp only
    rw [sum,if_pos (show (s.base.accounts a).balance.toNat + amount.toNat < 2 ^ 64 from fits)]
    exact congrArg (fun base => setBalance base a _) (touchBase s a)
  rw [written]
  refine ⟨?_,fun b other => ?_⟩
  · rw [setBalanceAt,if_pos rfl]
    exact UInt64.toNat_ofNat_of_lt' fits
  · rw [setBalanceAt,if_neg other]

theorem subExact {amount : Word} (fits : Request.Fits s (.subBalance a amount)) :
    Request.Exact sha s (.subBalance a amount) := by
  intro reply s' ok
  have bound := (s.base.accounts a).balance.toNat_lt
  have diff : (StateDB.toUint256 (getAccount (s.touch a).base a).balance - amount).toNat + amount.toNat =
      (s.base.accounts a).balance.toNat := by
    rw [touchBase]
    exact diffExact fits
  have written : s'.base = setBalance s.base a (UInt64.ofNat ((s.base.accounts a).balance.toNat - amount.toNat)) := by
    have less := Nat.eq_sub_of_add_eq diff
    cases ok
    unfold StateDB.subBalance
    dsimp only
    rw [less,if_pos (by omega)]
    exact congrArg (fun base => setBalance base a _) (touchBase s a)
  rw [written]
  refine ⟨?_,fun b other => ?_⟩
  · rw [setBalanceAt,if_pos rfl,UInt64.toNat_ofNat_of_lt' (lt_of_le_of_lt (Nat.sub_le _ _) bound)]
    exact Nat.sub_add_cancel fits
  · rw [setBalanceAt,if_neg other]

theorem wroteBalance {base after : MptState} {u : Undo} (write : Wrote base r u after) (b : Address) :
    (∃ a amount, r = .addBalance a amount ∨ r = .subBalance a amount) ∨
    (after.accounts b).balance = (base.accounts b).balance := by
  have kept {x : MptState} (same : Field.balance.Same (x.accounts b) (base.accounts b)) :
      (x.accounts b).balance = (base.accounts b).balance := same
  cases write with
  | nonce a nonce => exact .inr (kept (nonceSame (fun field => nomatch field)))
  | added a amount balance => exact .inl ⟨a,amount,.inl rfl⟩
  | taken a amount balance => exact .inl ⟨a,amount,.inr rfl⟩
  | code a code => exact .inr (kept (codeSame (fun field => nomatch field)))
  | storage a key value => exact .inr (kept (storageSame (fun field => nomatch field)))

theorem fitsExact (fits : r.Fits s) : r.Exact sha s := by
  cases r with
  | addBalance a amount => exact addExact fits
  | subBalance a amount => exact subExact fits
  | revertToSnapshot id => exact fun _ _ _ => trivial
  | _ =>
    intro reply s' ok b
    cases served ok with
    | noted notes => rw [notes.base]
    | reverted asks _ => cases asks
    | wrote notes write _ _ =>
      rw [← notes.base]
      rcases wroteBalance write b with ⟨_,_,adds | takes⟩ | same
      · cases adds
      · cases takes
      · exact same

/- The calls of a message: amounts of less than half a word, code only where there is none
or tagged code, and reverts only to snapshots taken by the message, which starts on an empty journal. -/
def Request.Lawful (s : StateDB MptState) (r : Request) : Prop := r.Small ∧ r.Follows 0 s

end
end L1Chain.Adapter

namespace L1Chain.Transition
open Adapter

section
variable {E : Type}

theorem finaliseUntouched {s : Adapter.StateDB MptState} (untouched : s.touched = []) : s.finalise = s := by
  rw [StateDB.finalise,untouched,List.foldl_nil]

theorem settledTakenBack {st : MptState} {tx : Transaction} {baseFee : UInt64}
    (can : Affordable tx (st.accounts tx.sender).balance baseFee) (after : MptState)
    (settles : after = settled (reserved st tx) tx (st.accounts tx.sender).nonce (refunded tx baseFee tx.gasLimit)) :
    (∀ a, a ≠ tx.sender → after.accounts a = st.accounts a) ∧
    (after.accounts tx.sender).nonce = (st.accounts tx.sender).nonce + 1 ∧
    (after.accounts tx.sender).code = (st.accounts tx.sender).code ∧
    (after.accounts tx.sender).storage = (st.accounts tx.sender).storage ∧
    (after.accounts tx.sender).balance.toNat + tx.gasLimit.toNat * (effectivePrice tx baseFee).toNat =
      (st.accounts tx.sender).balance.toNat := by
  have held := (st.accounts tx.sender).balance.toNat_lt
  have taken := reservedBalance can
  have back := refundNat can (UInt64.le_refl _)
  rw [MptState.balances,MptState.balances] at taken
  subst settles
  refine ⟨fun a other => ?_,?_,?_,?_,?_⟩
  · simp [settled,reserved,other]
  · simp [settled]
  · simp [settled,reserved]
  · simp [settled,reserved]
  · have sum : ((settled (reserved st tx) tx (st.accounts tx.sender).nonce (refunded tx baseFee tx.gasLimit)).accounts
        tx.sender).balance = ((reserved st tx).accounts tx.sender).balance + refunded tx baseFee tx.gasLimit := by
      simp [settled]
    rw [sum,UInt64.toNat_add,Nat.mod_eq_of_lt (by omega)]
    omega

theorem overflowCostsGas (env : Env E) (st : MptState) (tx : Transaction) (height baseFee : UInt64) (r : UInt64 × MptState)
    (lawful : IssuesAt env.sha Request.Lawful (evmProg env tx height baseFee) (evmStart env (reserved st tx) tx))
    (ok : applyEVMTx env st tx (getAccount st tx.sender) height baseFee = .ok r) :
    ∃ gas s, interpret env.sha (evmProg env tx height baseFee) (evmStart env (reserved st tx) tx) = some (gas,s) ∧
      (s.err = none ↔ IssuesAt env.sha Request.Fits (evmProg env tx height baseFee) (evmStart env (reserved st tx) tx)) ∧
      (s.err ≠ none → r.1 = tx.gasLimit ∧
        (∀ a, a ≠ tx.sender → r.2.accounts a = st.accounts a) ∧
        (r.2.accounts tx.sender).nonce = (st.accounts tx.sender).nonce + 1 ∧
        (r.2.accounts tx.sender).code = (st.accounts tx.sender).code ∧
        (r.2.accounts tx.sender).storage = (st.accounts tx.sender).storage ∧
        (r.2.accounts tx.sender).balance.toNat + tx.gasLimit.toNat * (effectivePrice tx baseFee).toNat =
          (st.accounts tx.sender).balance.toNat) ∧
      (s.err = none →
        IssuesAt env.sha (Request.Exact env.sha) (evmProg env tx height baseFee) (evmStart env (reserved st tx) tx)) := by
  obtain ⟨can,gasUsed,sdb,ran,rfl⟩ := evmOk.mp ok
  obtain ⟨gas,s,interpreted,ends⟩ := runEVMCases ran
  have latched := interpretErr (lawful.imp And.left) interpreted
  have recalls : Recalls (evmStart env (reserved st tx) tx) s := interpretRecalls (lawful.imp And.right) interpreted
  have clean : (evmStart env (reserved st tx) tx).err = none := rfl
  rw [clean,eq_self_iff_true,true_and] at latched
  refine ⟨gas,s,interpreted,latched,fun err => ?_,fun none => (latched.mp none).imp fitsExact⟩
  rcases ends with ⟨none,_⟩ | ⟨rfl,reverted⟩
  · exact absurd none err
  · obtain ⟨back,same,_,observed⟩ := recalls.restore
    obtain rfl := Option.some.inj (reverted.symm.trans same)
    obtain ⟨base,touched,_⟩ := observedParts observed
    have start : sdb.finalise.base = reserved st tx := by
      rw [finaliseUntouched touched]
      exact base
    exact ⟨rfl,settledTakenBack can _ (by rw [start])⟩

end
end L1Chain.Transition

namespace L1Chain.Devnet
open Transition Adapter

/- A callee is paid more than it can hold, in an inner call that is taken back. -/
def overpays (callee : Address) : Prog :=
  .ask .snapshot fun _ => .ask (.addBalance callee (2 ^ 64)) fun _ => .ask (.setNonce callee 9) fun _ =>
    .ask (.revertToSnapshot 0) fun _ => .done 0

def overpaying : Env Unit :=
  {env with evm := ⟨[],fun _ _ _ _ _ _ => .done 0,fun _ _ _ callee _ _ _ => overpays callee⟩}

def overpayment : Transaction := {payment 0 with recipient := account 5, gasLimit := 10, gasFeeCap := 2, gasTipCap := 1}

def payerState : MptState := setBalance MptState.empty (account 1) 100

theorem overpaysLawful : IssuesAt overpaying.sha Request.Lawful (evmProg overpaying overpayment 1 0)
    (evmStart overpaying (reserved payerState overpayment) overpayment) := by
  have prog : evmProg overpaying overpayment 1 0 = overpays (account 5) := rfl
  have small : (2 ^ 64 : Word).toNat < 2 ^ 255 := by decide +kernel
  rw [prog]
  exact issuesAtAsk ⟨trivial,trivial,nofun⟩ fun _ _ => issuesAtAsk ⟨small,trivial,nofun⟩ fun _ _ =>
    issuesAtAsk ⟨trivial,trivial,nofun⟩ fun _ _ =>
      issuesAtAsk ⟨trivial,trivial,fun n same => by cases same; exact ⟨le_rfl,Nat.zero_le _⟩⟩ fun _ _ => trivial

theorem overpaymentCostsGas :
    ∃ r, applyEVMTx overpaying payerState overpayment (getAccount payerState overpayment.sender) 1 0 = .ok r ∧
      r.1 = 10 ∧ (∀ a, a ≠ account 1 → r.2.accounts a = payerState.accounts a) ∧
      (r.2.accounts (account 1)).nonce = 1 ∧ (r.2.accounts (account 1)).balance.toNat + 10 * 1 = 100 := by
  have ends : (applyEVMTx overpaying payerState overpayment (getAccount payerState overpayment.sender) 1 0).map Prod.fst =
      .ok 10 := by decide +kernel
  have latches : (interpret overpaying.sha (evmProg overpaying overpayment 1 0)
      (evmStart overpaying (reserved payerState overpayment) overpayment)).map (·.2.err.isNone) = some false := by
    decide +kernel
  obtain ⟨r,ok,gasUsed⟩ := Runs.mapOk.mp ends
  obtain ⟨gas,s,interpreted,_,takenBack,_⟩ := overflowCostsGas overpaying payerState overpayment 1 0 r overpaysLawful ok
  rw [interpreted] at latches
  obtain ⟨_,others,nonce,_,_,balance⟩ := takenBack (fun none => by simp [none] at latches)
  exact ⟨r,ok,gasUsed,others,nonce,balance⟩

end L1Chain.Devnet
