import L1Chain.Nonces

/-! Lists of transactions that cannot fail. `Fits` is what the state owes the list:
every sender's nonces count up from its own, and its balance covers what its
transactions may cost. A transaction of such a list is applied, whichever route it
takes by then, and the rest of the list fits the state it leaves. -/
namespace L1Chain.Transition
open Exchange MptState StackVM Runs

/- The most a transaction takes from its sender: its value and, where it may be priced,
its whole reserve. -/
def cost (costly : Transaction → Bool) (tx : Transaction) : ℕ :=
  tx.value.toNat + if costly tx then tx.gasLimit.toNat * tx.gasFeeCap.toNat else 0
def costs (costly : Transaction → Bool) (txs : List Transaction) : ℕ := (txs.map (cost costly)).sum

def Codeless (W : Address → Prop) (st : MptState) : Prop := ∀ a, W a → (st.accounts a).code = []

/- What running code does to the watched accounts, which have none: it takes the
message's value from the sender and nothing from the others. -/
structure Leaves (W : Address → Prop) (tx : Transaction) (st st' : MptState) : Prop where
  supply : st'.supply ≤ st.supply
  codeless : Codeless W st'
  nonces : ∀ a, W a → a ≠ tx.sender → (st'.accounts a).nonce = (st.accounts a).nonce
  balances : ∀ a, W a → st.balances a ≤ st'.balances a + if a = tx.sender then tx.value.toNat else 0

/- The same of the interpreter, where the transaction is routed to it: it ends
within the gas limit and leaves the watched accounts as it should. -/
def EvmRespects {E : Type} (env : Env E) (W : Address → Prop) (tx : Transaction) (height baseFee : UInt64) : Prop :=
  ∀ st : MptState, st.supply < 2 ^ 64 → Codeless W st → isEVMTx st tx = true → ∃ gasUsed sdb,
    runEVM env st tx height baseFee = some (gasUsed,sdb) ∧ gasUsed ≤ tx.gasLimit ∧ Leaves W tx st sdb.finalise.base

structure Fits (W : Address → Prop) (costly : Transaction → Bool) (st : MptState) (txs : List Transaction) : Prop where
  supply : st.supply < 2 ^ 64
  codeless : Codeless W st
  nonces : ∀ a, W a → Consecutive (st.accounts a).nonce (txs.filter (·.sender = a))
  funds : ∀ a, W a → costs costly (txs.filter (·.sender = a)) ≤ st.balances a

structure Advances (W : Address → Prop) (costly : Transaction → Bool) (tx : Transaction) (st st' : MptState) :
    Prop where
  supply : st'.supply ≤ st.supply
  codeless : Codeless W st'
  nonces : ∀ a, W a → (st'.accounts a).nonce =
    if a = tx.sender then (st.accounts a).nonce + 1 else (st.accounts a).nonce
  balances : ∀ a, W a → st.balances a ≤ st'.balances a + if a = tx.sender then cost costly tx else 0

/- What a transaction has to bring itself. `costly` says which ones may be priced: the
others stay plain for as long as the watched accounts have no code. -/
structure Payable {E : Type} (env : Env E) (verifySig : VerifySig) (W : Address → Prop) (costly : Transaction → Bool)
    (height baseFee : UInt64) (tx : Transaction) : Prop where
  signed : verifySig tx = true
  plain : isExchangeTx tx = false
  watched : W tx.sender
  deploys : tx.recipient = 0 → ¬ W (createAddress env.sha tx.sender tx.nonce)
  free : costly tx = false → ∀ st : MptState, Codeless W st → route st tx = .attestation ∨ route st tx = .transfer
  tip : costly tx = true → tx.gasTipCap ≤ tx.gasFeeCap
  floor : costly tx = true → baseFee ≤ tx.gasFeeCap
  evm : costly tx = true → EvmRespects env W tx height baseFee

section
variable {E : Type} {env : Env E} {verifySig : VerifySig} {W : Address → Prop} {st st' : MptState} {tx : Transaction}
  {rest : List Transaction} {height baseFee : UInt64} {index : UInt32} {a : Address}
  {costly : Transaction → Bool}

theorem fitsNext (fits : Fits W costly st (tx::rest)) (advances : Advances W costly tx st st') : Fits W costly st' rest := by
  refine ⟨advances.supply.trans_lt fits.supply,advances.codeless,fun a watched => ?_,fun a watched => ?_⟩
  · have counts := fits.nonces a watched
    have moved := advances.nonces a watched
    rw [List.filter_cons] at counts
    by_cases own : a = tx.sender
    · rw [if_pos (by simp [own])] at counts
      rw [moved,if_pos own]
      exact counts.2
    · rw [if_neg (by simpa using Ne.symm own)] at counts
      rwa [moved,if_neg own]
  · have held := fits.funds a watched
    have kept := advances.balances a watched
    rw [List.filter_cons] at held
    by_cases own : a = tx.sender
    · rw [if_pos (by simp [own]),costs,List.map_cons,List.sum_cons] at held
      rw [if_pos own] at kept
      unfold costs
      omega
    · rw [if_neg (by simpa using Ne.symm own)] at held
      rw [if_neg own] at kept
      omega

theorem bumpedCode : ((bumped st tx.sender).accounts a).code = (st.accounts a).code := putKeeps (·.code) rfl

theorem freeRoute (plain : isExchangeTx tx = false) (unpriced : isFeePriced st tx = false)
    (codeless : (st'.accounts tx.recipient).code = []) : route st' tx = .attestation ∨ route st' tx = .transfer := by
  have untagged : Evm.isTaggedCode [] = false := rfl
  by_cases vote : Pos.isAttestationTx tx = true
  · have target : tx.recipient ≠ Evm.deployAddress := by
      have own : tx.recipient = Pos.attestAddress := by simpa [Pos.isAttestationTx] using vote
      rw [own]
      decide
    left
    simp [route,plain,isEVMTx,codeless,untagged,target,vote]
  · right
    simp only [isFeePriced,plain,vote,Bool.or_self,Bool.false_eq_true,if_false,Bool.or_eq_false_iff] at unpriced
    obtain ⟨notEVM,notContract⟩ := unpriced
    simp only [isEVMTx,Bool.or_eq_false_iff,decide_eq_false_iff_not] at notEVM
    simp only [isContractTx,Bool.or_eq_false_iff,decide_eq_false_iff_not,not_not] at notContract
    simp [route,plain,isEVMTx,isContractTx,codeless,untagged,notEVM.1,vote,notContract.1.2]
    exact notContract.1.1

theorem executedKeeps (fits : st.supply < 2 ^ 64) (codeless : (st.accounts a).code = [])
    (done : Executed env.sha st (message tx) st') :
    st.balances a ≤ st'.balances a + if a = tx.sender then tx.value.toNat else 0 := by
  refine (done.spends fits codeless).trans (Nat.add_le_add_left ?_ _)
  by_cases own : a = tx.sender
  · rw [if_pos own]
    split
    · exact le_rfl
    · exact Nat.zero_le _
  · have other : ¬ (a = (message tx).sender ∧ (message tx).to' ≠ some a) := fun both => own both.1
    rw [if_neg own,if_neg other]

theorem executedLeaves (fits : st.supply < 2 ^ 64) (codeless : Codeless W st)
    (deploys : tx.recipient = 0 → ¬ W (createAddress env.sha tx.sender tx.nonce))
    (done : Executed env.sha st (message tx) st') : Leaves W tx st st' := by
  refine ⟨(done.supply fits).le,fun a watched => ?_,fun a _ _ => done.nonce,
    fun a watched => executedKeeps fits (codeless a watched) done⟩
  · rcases done.code (a := a) with same | ⟨creates,here,_⟩
    · exact same.trans (codeless a watched)
    · have zero : tx.recipient = 0 := by simpa [message] using creates
      exact absurd (here ▸ watched) (deploys zero)

theorem creditAdvances {mid : MptState} {gasUsed : UInt64} (due : costly tx = true) (can : Affordable tx (st.accounts tx.sender).balance baseFee)
    (fits : st.supply < 2 ^ 64) (within : gasUsed ≤ tx.gasLimit) (less : st'.supply ≤ mid.supply)
    (keeps : ∀ a, W a → mid.balances a ≤ st'.balances a + if a = tx.sender then tx.value.toNat else 0)
    (taken : mid.balances = (reserved st tx).balances) :
    (credit st' tx.sender (refunded tx baseFee gasUsed)).supply ≤ st.supply ∧
    ∀ a, W a → st.balances a ≤ (credit st' tx.sender (refunded tx baseFee gasUsed)).balances a +
      if a = tx.sender then cost costly tx else 0 := by
  have before := reservedSupply can
  have back := refundNat can within
  have sum : mid.supply = (reserved st tx).supply := by rw [supply,taken,supply]
  have credited : (credit st' tx.sender (refunded tx baseFee gasUsed)).supply =
      st'.supply + (refunded tx baseFee gasUsed).toNat := creditSupply (by omega)
  refine ⟨by omega,fun a watched => ?_⟩
  have kept := keeps a watched
  rw [taken] at kept
  by_cases own : a = tx.sender
  · subst own
    have first := reservedBalance can
    rw [creditBalance (by omega),if_pos rfl,cost,if_pos due]
    rw [if_pos rfl] at kept
    omega
  · have same : (reserved st tx).balances a = st.balances a := by
      rw [balances,reserved,setAccountAt,if_neg own,balances]
    have after : (credit st' tx.sender (refunded tx baseFee gasUsed)).balances a = st'.balances a := by
      rw [balances,credit,setAccountAt,if_neg own,balances]
    rw [if_neg own] at kept ⊢
    omega

theorem bumpedAdvances (fits : Fits W costly st (tx::rest)) : Advances W costly tx st (bumped st tx.sender) := by
  refine ⟨le_of_eq ?_,fun a watched => bumpedCode.trans (fits.codeless a watched),fun a _ => bumpedNonce,fun a _ => ?_⟩
  · rw [supply,bumpedBalances,supply]
  · rw [bumpedBalances]
    exact Nat.le_add_right _ _

theorem senderFunds (watched : W tx.sender) (fits : Fits W costly st (tx::rest)) : cost costly tx ≤ st.balances tx.sender := by
  have held := fits.funds tx.sender watched
  rw [List.filter_cons,if_pos (by simp),costs,List.map_cons,List.sum_cons] at held
  omega

theorem transferKeeps (small : (bumped st tx.sender).supply < 2 ^ 64)
    (funded : (bumped st tx.sender).Funded tx.sender tx.recipient tx.value) (a : Address) :
    st.balances a ≤ ((bumped st tx.sender).pay tx.sender tx.recipient tx.value).balances a +
      if a = tx.sender then tx.value.toNat else 0 := by
  rw [← bumpedBalances (a := tx.sender)]
  by_cases own : a = tx.sender
  · subst own
    rw [if_pos rfl]
    by_cases self : tx.sender = tx.recipient
    · rw [payIdle (.inr self)]
      exact Nat.le_add_right _ _
    · have debit := (paidBalance self funded small).1
      omega
  · rw [if_neg own]
    exact payKeeps funded small own

theorem transferAdvances (watched : W tx.sender) (fits : Fits W costly st (tx::rest)) :
    Advances W costly tx st ((bumped st tx.sender).pay tx.sender tx.recipient tx.value) := by
  have bump := bumpedAdvances fits
  have small : (bumped st tx.sender).supply < 2 ^ 64 := bump.supply.trans_lt fits.supply
  have enough := senderFunds watched fits
  have funded : (bumped st tx.sender).Funded tx.sender tx.recipient tx.value := by
    refine .inr (.inr (UInt64.le_iff_toNat_le.mpr ?_))
    have same : ((bumped st tx.sender).accounts tx.sender).balance.toNat = st.balances tx.sender :=
      congrFun bumpedBalances tx.sender
    rw [cost] at enough
    omega
  refine ⟨(paySupply funded small).le.trans bump.supply,fun a inside => payFrame.2.1.trans (bump.codeless a inside),
    fun a inside => payFrame.1.trans (bump.nonces a inside),fun a inside => ?_⟩
  refine (transferKeeps small funded a).trans (Nat.add_le_add_left ?_ _)
  split
  · exact Nat.le_add_right _ _
  · exact le_rfl

theorem affordable (fits : Fits W costly st (tx::rest)) (watched : W tx.sender) (due : costly tx = true)
    (tip : tx.gasTipCap ≤ tx.gasFeeCap) (floor : baseFee ≤ tx.gasFeeCap) : Affordable tx (st.accounts tx.sender).balance baseFee := by
  have enough := senderFunds watched fits
  have small := UInt64.toNat_lt (st.accounts tx.sender).balance
  rw [cost,if_pos due,balances] at enough
  exact ⟨tip,by omega,by omega,floor⟩

theorem contractAdvances {gasUsed : UInt64} (fits : Fits W costly st (tx::rest)) (due : costly tx = true)
    (within : gasUsed ≤ tx.gasLimit) (can : Affordable tx (st.accounts tx.sender).balance baseFee)
    (deploys : tx.recipient = 0 → ¬ W (createAddress env.sha tx.sender tx.nonce))
    (done : Executed env.sha (charged st tx) (message tx) st') :
    Advances W costly tx st (credit st' tx.sender (refunded tx baseFee gasUsed)) := by
  have small : (charged st tx).supply < 2 ^ 64 := (Nat.le.intro (chargedSupply can)).trans_lt fits.supply
  have codeless : Codeless W (charged st tx) := fun a watched => by
    have kept : ((charged st tx).accounts a).code = (st.accounts a).code := putKeeps (·.code) rfl
    exact kept.trans (fits.codeless a watched)
  have leaves := executedLeaves small codeless deploys done
  obtain ⟨supply,balances⟩ := creditAdvances due can fits.supply within leaves.supply leaves.balances chargedBalances
  refine ⟨supply,fun a watched => ?_,fun a _ => ?_,balances⟩
  · have kept : ((credit st' tx.sender (refunded tx baseFee gasUsed)).accounts a).code = (st'.accounts a).code :=
      putKeeps (·.code) rfl
    exact kept.trans (leaves.codeless a watched)
  · have before : ((reserved st tx).accounts a).nonce = (st.accounts a).nonce := putKeeps (·.nonce) rfl
    rw [creditNonce,done.nonce,chargedBumped,bumpedNonce,before]

theorem evmAdvances {gasUsed : UInt64} (fits : Fits W costly st (tx::rest)) (due : costly tx = true)
    (within : gasUsed ≤ tx.gasLimit) (can : Affordable tx (st.accounts tx.sender).balance baseFee) (leaves : Leaves W tx (reserved st tx) st') :
    Advances W costly tx st (settled st' tx (st.accounts tx.sender).nonce (refunded tx baseFee gasUsed)) := by
  obtain ⟨supplied,paid⟩ := creditAdvances due can fits.supply within leaves.supply leaves.balances rfl
  have same : (settled st' tx (st.accounts tx.sender).nonce (refunded tx baseFee gasUsed)).supply =
      (credit st' tx.sender (refunded tx baseFee gasUsed)).supply := by
    rw [supply,settledBalances,supply]
  refine ⟨same.le.trans supplied,fun a watched => ?_,fun a watched => ?_,fun a watched => ?_⟩
  · have kept : ((settled st' tx (st.accounts tx.sender).nonce (refunded tx baseFee gasUsed)).accounts a).code =
        (st'.accounts a).code := putKeeps (·.code) rfl
    exact kept.trans (leaves.codeless a watched)
  · rw [settled,setAccountAt]
    by_cases own : a = tx.sender
    · rw [if_pos own,if_pos own,own]
    · have before : ((reserved st tx).accounts a).nonce = (st.accounts a).nonce := putKeeps (·.nonce) rfl
      rw [if_neg own,if_neg own,leaves.nonces a watched own,before]
  · rw [settledBalances]
    exact paid a watched

def Progresses (env : Env E) (verifySig : VerifySig) (W : Address → Prop) (costly : Transaction → Bool)
    (height baseFee : UInt64) (index : UInt32) (st : MptState) (tx : Transaction) (rest : List Transaction) : Prop :=
  ∃ o : Outcome MptState E, applyTxAtSession env verifySig st tx height index none baseFee = .ok o ∧
    o.session = none ∧ o.gasUsed ≤ (if costly tx then tx.gasLimit else 0) ∧ Fits W costly o.st rest

theorem progressBy {o : Outcome MptState E} (can : Payable env verifySig W costly height baseFee tx)
    (fits : Fits W costly st (tx::rest)) (ran : applyRoute env st tx height index none baseFee (route st tx) = .ok o)
    (alone : o.session = none) (gas : o.gasUsed ≤ if costly tx then tx.gasLimit else 0)
    (advances : Advances W costly tx st o.st) : Progresses env verifySig W costly height baseFee index st tx rest := by
  have counts := fits.nonces tx.sender can.watched
  rw [List.filter_cons,if_pos (by simp)] at counts
  exact ⟨o,applyTxOk.mpr ⟨can.signed,counts.1,ran⟩,alone,gas,fitsNext fits advances⟩

theorem costlyRoute (can : Payable env verifySig W costly height baseFee tx) (codeless : Codeless W st)
    (vote : route st tx ≠ .attestation) (pays : route st tx ≠ .transfer) : costly tx = true := by
  by_contra free
  rcases can.free (by simpa using free) st codeless with same | same
  · exact vote same
  · exact pays same

theorem progressTx (can : Payable env verifySig W costly height baseFee tx) (fits : Fits W costly st (tx::rest)) :
    Progresses env verifySig W costly height baseFee index st tx rest := by
  cases routed : route st tx with
  | exchange => exact absurd (exchangeRoute.mp routed) (by simp [can.plain])
  | attestation =>
    have ran : applyRoute env st tx height index none baseFee (route st tx) = .ok ⟨bumped st tx.sender,none,0,0⟩ := by
      rw [routed]
      rfl
    exact progressBy can fits ran rfl UInt64.zero_le (bumpedAdvances fits)
  | transfer =>
    have enough := senderFunds can.watched fits
    rw [cost] at enough
    have ran : applyRoute env st tx height index none baseFee (route st tx) =
        .ok ⟨(bumped st tx.sender).pay tx.sender tx.recipient tx.value,none,0,0⟩ := by
      rw [routed]
      exact mapOk.mpr ⟨_,transferPays.mpr ⟨UInt64.le_iff_toNat_le.mpr ((Nat.le_add_right _ _).trans enough),rfl⟩,rfl⟩
    exact progressBy can fits ran rfl UInt64.zero_le (transferAdvances can.watched fits)
  | contract =>
    have due := costlyRoute can fits.codeless (by simp [routed]) (by simp [routed])
    have affords := affordable fits can.watched due (can.tip due) (can.floor due)
    obtain ⟨within,done⟩ := executed env.sha (charged st tx) (message tx)
    have paid : applyContractTx env st tx (getAccount st tx.sender) baseFee = .ok _ := contractOk.mpr ⟨affords,rfl⟩
    have ran : applyRoute env st tx height index none baseFee .contract = .ok (priced none tx baseFee _) :=
      mapOk.mpr ⟨_,paid,rfl⟩
    rw [← routed] at ran
    refine progressBy can fits ran rfl ?_ (contractAdvances fits due within affords can.deploys done)
    rw [due]
    exact within
  | evm =>
    have due := costlyRoute can fits.codeless (by simp [routed]) (by simp [routed])
    have affords := affordable fits can.watched due (can.tip due) (can.floor due)
    have small : (reserved st tx).supply < 2 ^ 64 := (Nat.le.intro (reservedSupply affords)).trans_lt fits.supply
    have kept : ∀ a, ((reserved st tx).accounts a).code = (st.accounts a).code := fun a => putKeeps (·.code) rfl
    have targets : isEVMTx (reserved st tx) tx = true := by
      rw [isEVMTx,getCodeEq,kept,← getCodeEq,← isEVMTx]
      exact evmRoute routed
    obtain ⟨gasUsed,sdb,run,within,leaves⟩ := can.evm due (reserved st tx) small
      (fun a watched => (kept a).trans (fits.codeless a watched)) targets
    have ran : applyRoute env st tx height index none baseFee .evm = .ok (priced none tx baseFee _) :=
      mapOk.mpr ⟨_,evmOk.mpr ⟨affords,gasUsed,sdb,run,rfl⟩,rfl⟩
    rw [← routed] at ran
    refine progressBy can fits ran rfl ?_ (evmAdvances fits due within affords leaves)
    rw [due]
    exact within

def gasDue (costly : Transaction → Bool) (txs : List Transaction) : ℕ :=
  ((txs.filter costly).map (·.gasLimit.toNat)).sum

theorem gasDueCons : gasDue costly (tx::rest) = (if costly tx then tx.gasLimit else 0).toNat + gasDue costly rest := by
  unfold gasDue
  rw [List.filter_cons]
  split <;> simp

theorem gasDueAppend (front rest : List Transaction) :
    gasDue costly (front ++ rest) = gasDue costly front + gasDue costly rest := by
  simp [gasDue]

theorem gasDueFree (free : ∀ tx ∈ rest, costly tx = false) : gasDue costly rest = 0 := by
  have none : rest.filter costly = [] := List.filter_eq_nil_iff.mpr fun tx member => by simp [free tx member]
  simp [gasDue,none]

theorem progressLoop {i : Nat} {acc : Outcome MptState E} {txs : List Transaction}
    (can : ∀ tx ∈ txs, Payable env verifySig W costly height baseFee tx) (fits : Fits W costly acc.st txs)
    (alone : acc.session = none) (room : acc.gasUsed.toNat + gasDue costly txs < 2 ^ 64) :
    ∃ o, applyLoop env verifySig height baseFee i acc txs = .ok o ∧ o.session = none ∧
      o.gasUsed.toNat ≤ acc.gasUsed.toNat + gasDue costly txs := by
  induction txs generalizing i acc with
  | nil => exact ⟨acc,rfl,alone,Nat.le_add_right _ _⟩
  | cons tx txs ih =>
    have first : Progresses env verifySig W costly height baseFee (UInt32.ofNat i) acc.st tx txs :=
      progressTx (can tx List.mem_cons_self) fits
    obtain ⟨o,ran,single,gas,later⟩ := first
    rw [gasDueCons] at room ⊢
    have used := UInt64.le_iff_toNat_le.mp gas
    have sum : (acc.gasUsed + o.gasUsed).toNat = acc.gasUsed.toNat + o.gasUsed.toNat := by
      rw [UInt64.toNat_add]
      exact Nat.mod_eq_of_lt (by omega)
    obtain ⟨final,loop,last,total⟩ := @ih (i + 1) ⟨o.st,o.session,acc.gasUsed + o.gasUsed,acc.tip + o.tip⟩
      (fun x member => can x (List.mem_cons_of_mem _ member)) later single (by dsimp only; omega)
    refine ⟨final,loopCons.mpr ⟨o,by rw [alone]; exact ran,loop⟩,last,?_⟩
    dsimp only at total
    omega

theorem progressBlock {mode : Mode} {txs : List Transaction} {gasLimit : UInt64}
    (can : ∀ tx ∈ txs, Payable env verifySig W costly height baseFee tx) (fits : Fits W costly st txs)
    (room : gasDue costly txs ≤ gasLimit.toNat) :
    ∃ r, applyTxsAt env verifySig st txs height mode baseFee = .ok r ∧ r.gasUsed ≤ gasLimit := by
  have plain : exchangeSenders txs = [] := by
    rw [exchangeSenders,List.map_eq_nil_iff,List.filter_eq_nil_iff]
    intro tx member
    simp [(can tx member).plain]
  have small := UInt64.toNat_lt gasLimit
  obtain ⟨o,loop,alone,gas⟩ := @progressLoop E env verifySig W height baseFee costly 0 ⟨st,none,0,0⟩ txs can fits rfl
    (by simp only [UInt64.toNat_zero]; omega)
  refine ⟨⟨o.st,o.gasUsed,o.tip⟩,(applyTxsClosed (plainClosed plain)).mpr ⟨o,loop,?_,rfl,rfl⟩,UInt64.le_iff_toNat_le.mpr ?_⟩
  · rw [finishSession,alone]
  · simp only [UInt64.toNat_zero,Nat.zero_add] at gas
    exact gas.trans room

end
end L1Chain.Transition
