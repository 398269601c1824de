import L1Chain.Auction
import L1Chain.BalanceUpdates
import L1Chain.Nonces
import L1Chain.Validation

/-! The coins of a block in continuous mode. A block adds its reward and burns its gas at
the base fee; tips change hands. The updates a block makes to balances are logged where
the code makes them, and none wraps: each works on balances whose sum fits 64 bits. -/
namespace L1Chain.Transition
open FeeMarket Exchange StackVM MptState Ledger Runs

section
variable {S E : Type} [StateDB S]

-- Save writes the engine's quotes over the balances of the accounts it loaded.
def orderUpdates (env : Env E) (st : S) (tx : Transaction) (height : UInt64) (index : UInt32) : List BalanceUpdate :=
  match decode tx.sender tx.data,load env.engine st .continuous [tx.sender] with
  | .ok op,.ok e =>
    (env.engine.balances (env.engine.applyPositioned e height index op).2).entries.map (fun entry => .write entry.2.quote)
  | _,_ => []

def contractUpdates (env : Env E) (st : S) (tx : Transaction) (sender : Account) (baseFee : UInt64) : List BalanceUpdate :=
  match reserveGas tx sender.balance baseFee with
  | .error _ => []
  | .ok (reserve,price) =>
    let st := setAccount st tx.sender {sender with balance := sender.balance - reserve, nonce := sender.nonce + 1}
    let done := execute env.sha st (message tx)
    .sub sender.balance reserve::executeUpdates env.sha st (message tx) ++
      [.add (getAccount done.2 tx.sender).balance (reserve - done.1.gasUsed * price)]

def transferUpdates (st : S) (tx : Transaction) (sender : Account) : List BalanceUpdate :=
  if tx.sender = tx.recipient then []
  else [.sub sender.balance tx.value,.add (getAccount st tx.recipient).balance tx.value]

def txUpdates (env : Env E) (st : S) (tx : Transaction) (height : UInt64) (index : UInt32) (baseFee : UInt64) :
    List BalanceUpdate :=
  match route st tx with
  | .exchange => orderUpdates env (bumpNonce st tx.sender (getAccount st tx.sender)) tx height index
  | .evm => []
  | .attestation => []
  | .contract => contractUpdates env st tx (getAccount st tx.sender) baseFee
  | .transfer => transferUpdates st tx (getAccount st tx.sender)

def loopUpdates (env : Env E) (verifySig : VerifySig) (height baseFee : UInt64) :
    Nat → Outcome S E → List Transaction → List BalanceUpdate
  | _, _, [] => []
  | index, acc, tx::rest =>
    txUpdates env acc.st tx height (UInt32.ofNat index) baseFee ++
    match applyTxAtSession env verifySig acc.st tx height (UInt32.ofNat index) acc.session baseFee with
    | .error _ => []
    | .ok o => loopUpdates env verifySig height baseFee (index + 1)
        ⟨o.st,o.session,acc.gasUsed + o.gasUsed,acc.tip + o.tip⟩ rest

def blockUpdates (env : Env E) (verifySig : VerifySig) (st : MptState) (b : Block) : List BalanceUpdate :=
  loopUpdates env verifySig b.header.height b.header.baseFee 0 ⟨st,none,0,0⟩ b.txs ++
  match applyTxsAt env verifySig st b.txs b.header.height .continuous b.header.baseFee with
  | .error _ => []
  | .ok o => [.add blockReward o.tip,.add (o.st.accounts b.header.coinbase).balance (blockReward + o.tip)]

end

section
variable {E : Type} {env : Env E} {verifySig : VerifySig} {st st' : MptState} {tx : Transaction} {txs : List Transaction}
  {height baseFee balance : UInt64} {index : UInt32} {o : Outcome MptState E} {b : Block}

theorem priceSplit (floor : baseFee ≤ tx.gasFeeCap) :
    (effectivePrice tx baseFee).toNat = baseFee.toNat + (priorityFee tx baseFee).toNat := by
  have room := UInt64.le_iff_toNat_le.mp floor
  have headroom := UInt64.toNat_sub_of_le _ _ floor
  have small := UInt64.toNat_lt tx.gasFeeCap
  unfold effectivePrice priorityFee effectiveGasPrice
  simp only [if_neg (UInt64.not_lt.mpr floor),UInt64.toNat_add]
  split
  · rw [headroom,Nat.mod_eq_of_lt (by omega)]
  · rename_i tip
    have below := UInt64.le_iff_toNat_le.mp (UInt64.not_lt.mp tip)
    rw [headroom] at below
    rw [Nat.mod_eq_of_lt (by omega)]

theorem orderExact (ok : Exchange.apply env.engine st tx height index = .ok st') :
    ∀ u ∈ orderUpdates env st tx height index, u.Exact := by
  intro u member
  simp only [Exchange.apply,bindOk] at ok
  obtain ⟨op,decoded,e,loaded,ok⟩ := ok
  simp only [orderUpdates,decoded,loaded] at member
  obtain ⟨entry,inside,rfl⟩ := List.mem_map.mp member
  split at ok
  · obtain ⟨mid,written,_⟩ := saveSplit ok
    have sign := Int64.lt_iff_toInt_lt.not.mp (savedNonneg written entry inside).1
    exact Int.not_lt.mp sign
  · cases ok

theorem contractExact {r : UInt64 × MptState} (fits : st.supply < 2 ^ 64)
    (ok : applyContractTx env st tx (getAccount st tx.sender) baseFee = .ok r) :
    ∀ u ∈ contractUpdates env st tx (getAccount st tx.sender) baseFee, u.Exact := by
  obtain ⟨can,_⟩ := contractOk.mp ok
  obtain ⟨within,done⟩ := executed env.sha (charged st tx) (message tx)
  have taken := chargedSupply can
  have kept := done.supply (by omega)
  have back := refundNat can within
  have reserve := reserveGasOk.mpr ⟨can,rfl,rfl⟩
  intro u member
  rw [contractUpdates,getAccountEq,reserve] at member
  rcases List.mem_cons.mp member with rfl | later
  · show (tx.gasLimit * tx.gasFeeCap).toNat ≤ _
    rw [reserveNat can]
    exact can.held
  · rcases List.mem_append.mp later with ran | last
    · exact executeExact env.sha (message tx) (show (charged st tx).supply < 2 ^ 64 by omega) u ran
    · rw [List.mem_singleton.mp last]
      have le := leTotal (execute env.sha (charged st tx) (message tx)).2.balances tx.sender
      show (execute env.sha (charged st tx) (message tx)).2.balances tx.sender +
        (refunded tx baseFee (execute env.sha (charged st tx) (message tx)).1.gasUsed).toNat < 2 ^ 64
      have sum : (execute env.sha (charged st tx) (message tx)).2.supply =
        total (execute env.sha (charged st tx) (message tx)).2.balances := rfl
      omega

theorem paymentExact (fits : st.supply < 2 ^ 64) (enough : tx.value ≤ (st.accounts tx.sender).balance) :
    ∀ u ∈ transferUpdates st tx (getAccount st tx.sender), u.Exact := by
  intro u member
  unfold transferUpdates at member
  have held := UInt64.le_iff_toNat_le.mp enough
  split at member
  · cases member
  · rename_i apart
    have room := (pairLeTotal st.balances apart).trans_lt fits
    rcases List.mem_cons.mp member with rfl | added
    · exact held
    · rw [List.mem_singleton.mp added]
      show st.balances tx.recipient + tx.value.toNat < 2 ^ 64
      have own : st.balances tx.sender = (st.accounts tx.sender).balance.toNat := rfl
      omega

theorem txExact (fits : st.supply < 2 ^ 64)
    (ok : applyTxAtSession env verifySig st tx height index none baseFee = .ok o) :
    ∀ u ∈ txUpdates env st tx height index baseFee, u.Exact := by
  intro u member
  obtain ⟨_,_,ran⟩ := applyTxOk.mp ok
  unfold txUpdates at member
  split at member
  · rename_i routed
    rw [routed] at ran
    obtain ⟨_,st',matched,_⟩ := spotOk.mp ran
    exact orderExact matched u member
  · cases member
  · cases member
  · rename_i routed
    rw [routed] at ran
    obtain ⟨r,paid,_⟩ := mapOk.mp ran
    exact contractExact fits paid u member
  · rename_i routed
    rw [routed] at ran
    obtain ⟨r,paid,_⟩ := mapOk.mp ran
    exact paymentExact fits (transferPays.mp paid).1 u member

theorem spotSupply (conserving : Conserving env.engine) {session : Option (BatchSession E)} (none' : session = none)
    (fits : st.supply < 2 ^ 64) (plain : route st tx ≠ .evm)
    (ok : applyTxAtSession env verifySig st tx height index session baseFee = .ok o) :
    o.session = none ∧ o.st.supply + (⟨st,tx,o⟩ : Applied MptState E).gasCharged baseFee = st.supply := by
  subst none'
  refine ⟨txClosed ok,routedSupply fits plain (fun routed => ?_) ok⟩
  obtain ⟨_,_,ran⟩ := applyTxOk.mp ok
  rw [routed] at ran
  obtain ⟨_,st',matched,rfl⟩ := spotOk.mp ran
  exact ⟨(applySupply conserving matched).trans bumpedSupply,rfl⟩

/- What a sender pays for gas beside what the execution itself moves: exactly the gas
used at the base fee and the priority fee, within the reserve. -/
structure Applied.GasExact (env : Env E) (baseFee : UInt64) (x : Applied MptState E) : Prop where
  paid : x.after.st.balances x.tx.sender + x.after.gasUsed.toNat * (baseFee.toNat + (priorityFee x.tx baseFee).toNat) +
      (charged x.before x.tx).balances x.tx.sender =
    x.before.balances x.tx.sender + (execute env.sha (charged x.before x.tx) (message x.tx)).2.balances x.tx.sender
  within : x.after.gasUsed.toNat * (baseFee.toNat + (priorityFee x.tx baseFee).toNat) ≤
    x.tx.gasLimit.toNat * x.tx.gasFeeCap.toNat

theorem gasExact {session : Option (BatchSession E)} (fits : st.supply < 2 ^ 64) (routed : route st tx = .contract)
    (ok : applyTxAtSession env verifySig st tx height index session baseFee = .ok o) :
    (⟨st,tx,o⟩ : Applied MptState E).GasExact env baseFee := by
  obtain ⟨_,_,ran⟩ := applyTxOk.mp ok
  rw [routed] at ran
  obtain ⟨r,paid,rfl⟩ := mapOk.mp ran
  obtain ⟨can,rfl⟩ := contractOk.mp paid
  obtain ⟨within,done⟩ := executed env.sha (charged st tx) (message tx)
  have taken := chargedSupply can
  have kept := done.supply (by omega)
  have back := refundNat can within
  have price := priceSplit can.floor
  have reserved := reservedBalance can
  rw [← chargedBalances] at reserved
  rw [price] at back
  refine ⟨?_,?_⟩
  · simp only [priced]
    rw [creditBalance (by omega)]
    omega
  · simp only [priced]
    omega

theorem freeGas {session : Option (BatchSession E)} (plain : route st tx ≠ .evm) (free : route st tx ≠ .contract)
    (ok : applyTxAtSession env verifySig st tx height index session baseFee = .ok o) : o.gasUsed = 0 ∧ o.tip = 0 := by
  obtain ⟨_,_,ran⟩ := applyTxOk.mp ok
  cases routed : route st tx with
  | evm => exact absurd routed plain
  | contract => exact absurd routed free
  | exchange =>
    rw [routed] at ran
    cases session with
    | none =>
      obtain ⟨_,_,_,rfl⟩ := spotOk.mp ran
      exact ⟨rfl,rfl⟩
    | some s =>
      obtain ⟨_,_,_,rfl⟩ := orderOk.mp ran
      exact ⟨rfl,rfl⟩
  | attestation =>
    rw [routed] at ran
    obtain rfl := Except.ok.inj ran
    exact ⟨rfl,rfl⟩
  | transfer =>
    rw [routed] at ran
    obtain ⟨_,_,rfl⟩ := mapOk.mp ran
    exact ⟨rfl,rfl⟩

theorem chargeSplit {session : Option (BatchSession E)} (plain : route st tx ≠ .evm)
    (ok : applyTxAtSession env verifySig st tx height index session baseFee = .ok o) :
    (⟨st,tx,o⟩ : Applied MptState E).gasCharged baseFee = baseFee.toNat * o.gasUsed.toNat + o.tip.toNat := by
  by_cases routed : route st tx = .contract
  · obtain ⟨_,_,ran⟩ := applyTxOk.mp ok
    rw [routed] at ran
    obtain ⟨r,paid,rfl⟩ := mapOk.mp ran
    obtain ⟨can,rfl⟩ := contractOk.mp paid
    obtain ⟨within,_⟩ := executed env.sha (charged st tx) (message tx)
    have back := refundNat can within
    have fits := can.fits
    simp only [Applied.gasCharged,priced,UInt64.toNat_mul]
    rw [priceSplit can.floor,Nat.mul_add] at back ⊢
    rw [Nat.mod_eq_of_lt (by omega),Nat.mul_comm]
  · obtain ⟨gas,tip⟩ := freeGas plain routed ok
    simp [Applied.gasCharged,gas,tip]

theorem loopTotals {i : Nat} {acc : Outcome MptState E} (ok : applyLoop env verifySig height baseFee i acc txs = .ok o) :
    o.gasUsed = acc.gasUsed +
      UInt64.ofNat ((applied env verifySig height baseFee i acc txs).map (·.after.gasUsed.toNat)).sum ∧
    o.tip = acc.tip + UInt64.ofNat ((applied env verifySig height baseFee i acc txs).map (·.after.tip.toNat)).sum := by
  induction txs generalizing i acc with
  | nil =>
    obtain rfl := Except.ok.inj ok
    simp [applied]
  | cons tx txs ih =>
    obtain ⟨first,ran,rest⟩ := loopCons.mp ok
    obtain ⟨gas,tip⟩ := ih rest
    simp only [applied,ran,List.map_cons,List.sum_cons,UInt64.ofNat_add,UInt64.ofNat_toNat]
    rw [gas,tip]
    exact ⟨UInt64.add_assoc _ _ _,UInt64.add_assoc _ _ _⟩

theorem loopExact (conserving : Conserving env.engine) {i : Nat} {acc : Outcome MptState E}
    (ok : applyLoop env verifySig height baseFee i acc txs = .ok o) (closed : acc.session = none)
    (fits : acc.st.supply < 2 ^ 64)
    (plain : ∀ x ∈ applied env verifySig height baseFee i acc txs, route x.before x.tx ≠ .evm) :
    (∀ u ∈ loopUpdates env verifySig height baseFee i acc txs, u.Exact) ∧
    ∀ x ∈ applied env verifySig height baseFee i acc txs, x.before.supply < 2 ^ 64 := by
  induction txs generalizing i acc with
  | nil => exact ⟨fun u member => (nomatch member),fun x member => (nomatch member)⟩
  | cons tx txs ih =>
    obtain ⟨first,ran,rest⟩ := loopCons.mp ok
    simp only [applied,ran] at plain ⊢
    obtain ⟨next,kept⟩ := spotSupply conserving closed fits (plain _ List.mem_cons_self) ran
    have below : first.st.supply < 2 ^ 64 := by omega
    obtain ⟨updates,states⟩ := ih rest next below (fun x member => plain x (List.mem_cons_of_mem _ member))
    constructor
    · intro u member
      rw [loopUpdates,ran] at member
      rcases List.mem_append.mp member with now | later
      · rw [closed] at ran
        exact txExact fits ran u now
      · exact updates u later
    · intro x member
      rcases List.mem_cons.mp member with rfl | later
      · exact fits
      · exact states x later

theorem sumSplit {xs : List (Applied MptState E)}
    (split : ∀ x ∈ xs, x.gasCharged baseFee = baseFee.toNat * x.after.gasUsed.toNat + x.after.tip.toNat) :
    (xs.map (Applied.gasCharged baseFee)).sum =
      baseFee.toNat * (xs.map (·.after.gasUsed.toNat)).sum + (xs.map (·.after.tip.toNat)).sum := by
  rw [List.map_congr_left split,List.sum_map_add,List.sum_map_mul_left]

theorem mulOfNat {f n : ℕ} (fits : f * n < 2 ^ 64) : f * (UInt64.ofNat n).toNat = f * n := by
  cases f with
  | zero => rw [Nat.zero_mul,Nat.zero_mul]
  | succ f =>
    have le : n ≤ (f + 1) * n := Nat.le_mul_of_pos_left n (Nat.succ_pos f)
    rw [UInt64.toNat_ofNat_of_lt' (le.trans_lt fits)]

theorem loopBurns (conserving : Conserving env.engine)
    (ok : applyLoop env verifySig height baseFee 0 ⟨st,none,0,0⟩ txs = .ok o) (fits : st.supply < 2 ^ 64)
    (plain : ∀ x ∈ applied env verifySig height baseFee 0 ⟨st,none,0,0⟩ txs, route x.before x.tx ≠ .evm) :
    o.session = none ∧ o.st.supply + baseFee.toNat * o.gasUsed.toNat + o.tip.toNat = st.supply := by
  obtain ⟨closed,kept⟩ := loopSupply (spotSupply conserving) ok fits rfl plain
  obtain ⟨gas,tip⟩ := loopTotals ok
  have split := sumSplit fun x member => by
    obtain ⟨_,_,done⟩ := appliedOk member
    exact chargeSplit (plain x member) done
  rw [split] at kept
  revert kept gas tip
  generalize ((applied env verifySig height baseFee 0 ⟨st,none,0,0⟩ txs).map (·.after.gasUsed.toNat)).sum = burnt
  generalize ((applied env verifySig height baseFee 0 ⟨st,none,0,0⟩ txs).map (·.after.tip.toNat)).sum = tipped
  intro kept gas tip
  dsimp only at kept gas tip
  rw [UInt64.zero_add] at gas tip
  have exactly := @mulOfNat baseFee.toNat burnt (by omega)
  have tips : (UInt64.ofNat tipped).toNat = tipped := UInt64.toNat_ofNat_of_lt' (show tipped < 2 ^ 64 by omega)
  refine ⟨closed,?_⟩
  rw [gas,tip,exactly,tips]
  omega

/- The coins after a block: the reward has been added and the gas burnt at the base fee. -/
theorem blockSupply {after : MptState} {gas : UInt64} (conserving : Conserving env.engine)
    (fits : st.supply + blockReward.toNat < 2 ^ 64) (tall : b.header.height ≠ 0)
    (plain : ∀ x ∈ blockTrace env verifySig st b.txs b.header.height .continuous b.header.baseFee,
      route x.before x.tx ≠ .evm)
    (ok : applyBlockRewarded env verifySig .continuous st b = .ok (after,gas)) :
    after.supply + b.header.baseFee.toNat * gas.toNat = st.supply + blockReward.toNat ∧
    (∀ u ∈ blockUpdates env verifySig st b, u.Exact) ∧
    ∀ x ∈ blockTrace env verifySig st b.txs b.header.height .continuous b.header.baseFee,
      route x.before x.tx = .contract → x.GasExact env b.header.baseFee := by
  have small : st.supply < 2 ^ 64 := by omega
  obtain ⟨r,applied,rfl,rfl⟩ := (rewardedOk tall).mp ok
  obtain ⟨o,loop,finished,gas,tip⟩ := (applyTxsClosed continuousClosed).mp applied
  rw [blockTrace,continuousClosed] at plain ⊢
  simp only at plain ⊢
  obtain ⟨closed,kept⟩ := loopBurns conserving loop small plain
  rw [finishSession,closed] at finished
  have same : o.st = r.st := Except.ok.inj finished
  rw [← gas,← tip,same] at kept
  obtain ⟨updates,states⟩ := loopExact conserving loop rfl small plain
  have paid : (blockReward + r.tip).toNat = blockReward.toNat + r.tip.toNat := by
    rw [UInt64.toNat_add,Nat.mod_eq_of_lt (by omega)]
  refine ⟨?_,fun u member => ?_,fun x member routed => ?_⟩
  · rw [creditSupply (by omega)]
    omega
  · rw [blockUpdates,applied] at member
    rcases List.mem_append.mp member with inside | reward
    · exact updates u inside
    · have le := leTotal r.st.balances b.header.coinbase
      have sum : r.st.supply = total r.st.balances := rfl
      rcases List.mem_cons.mp reward with rfl | credited
      · show blockReward.toNat + r.tip.toNat < 2 ^ 64
        omega
      · rw [List.mem_singleton.mp credited]
        show r.st.balances b.header.coinbase + (blockReward + r.tip).toNat < 2 ^ 64
        omega
  · obtain ⟨_,_,done⟩ := appliedOk member
    exact gasExact (states x member) routed done

end
end L1Chain.Transition

namespace L1Chain.Devnet
open Transition Exchange MptState Ledger Runs

theorem bookConserving : Conserving book where
  fresh := bookSettles.fresh
  credited := bookSettles.credited
  restored e orders e' ok := by
    cases ok
    exact ⟨fun _ => rfl,rfl⟩
  applied e height index op res e' ok _ := by
    cases op with
    | place =>
      cases ok
      exact ⟨fun _ => rfl,rfl⟩
    | cancel =>
      cases ok
      exact ⟨fun _ => rfl,rfl⟩

def deployment : Transaction :=
  {payment 0 with recipient := 0, value := 0, gasLimit := 10, gasFeeCap := 3, gasTipCap := 1, data := [0x5b]}

def minted : Block :=
  ⟨⟨1,0,0,0,account 1,0,0,0,2,10,[]⟩,[deployment,{payment 0 with nonce := 1}]⟩

theorem plainTrace {E : Type} {trace : List (Applied MptState E)} {routes : List Route}
    (routed : trace.map (fun x => route x.before x.tx) = routes) (plain : .evm ∉ routes) :
    ∀ x ∈ trace, route x.before x.tx ≠ .evm := by
  intro x member evm
  rw [← routed] at plain
  exact plain (List.mem_map.mpr ⟨x,member,evm⟩)

/- Account 1 mines its own block: it is charged 30 for the gas and pays 40 to account 2;
the tips and the reward come back to it and 20 coins are burnt. -/
theorem mintedSupply : ∃ after gas, applyBlockRewarded market acceptNonEmptySig .continuous funded minted = .ok (after,gas) ∧
    gas = 10 ∧ after.supply = 130 := by
  have ran : (applyBlockRewarded market acceptNonEmptySig .continuous funded minted).map (·.2) = .ok 10 := by
    decide +kernel
  have routes : (blockTrace market acceptNonEmptySig funded minted.txs 1 .continuous 2).map (fun x => route x.before x.tx) =
      [.contract,.transfer] := by decide +kernel
  obtain ⟨⟨after,gas⟩,ok,rfl⟩ := mapOk.mp ran
  have fits : funded.supply + blockReward.toNat < 2 ^ 64 := by
    rw [fundedSupply]
    decide
  have equation := (blockSupply bookConserving fits (by decide) (plainTrace routes (by decide)) ok).1
  have fee : minted.header.baseFee.toNat * (10 : UInt64).toNat = 20 := rfl
  have reward : blockReward.toNat = 50 := rfl
  rw [fee,fundedSupply,reward] at equation
  exact ⟨after,10,ok,rfl,by omega⟩

end L1Chain.Devnet
