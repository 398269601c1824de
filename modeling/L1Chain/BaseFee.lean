import L1Chain.FeeBounds
import L1Chain.GasPaid
import L1Chain.PowRule

/-! The base fee along a branch. ComputeBaseFee multiplies in 64 bits; what keeps its
products exact is that the gas of a block was paid for at the block's base fee, out of a
bounded supply. A base fee of zero never moves, which is where the code departs from the
recurrence of EIP-1559: above the target that recurrence takes a step of one from zero too. -/
namespace L1Chain.FeeMarket

def eip1559 (fee used target : ℕ) : ℕ :=
  if used = target then fee
  else if used > target then fee + max (fee * (used - target) / target / 8) 1
  else fee - fee * (target - used) / target / 8

def feeProduct (fee used target : ℕ) : ℕ := fee * (if used > target then used - target else target - used)

/- A fee whose product with the target fits, in a block whose gas left room for the
target when it was paid. A block below the target needs no room. -/
structure Priced (fee used target : ℕ) : Prop where
  held : fee * target < 2 ^ 64
  paid : used ≤ target ∨ fee * used + target < 2 ^ 64

section
variable {fee used target : ℕ}

theorem pricedProduct (priced : Priced fee used target) : feeProduct fee used target < 2 ^ 64 := by
  have below : fee * (target - used) ≤ fee * target := Nat.mul_le_mul_left _ (Nat.sub_le _ _)
  have above : fee * (used - target) ≤ fee * used := Nat.mul_le_mul_left _ (Nat.sub_le _ _)
  have held := priced.held
  unfold feeProduct
  split
  · rcases priced.paid with low | room
    · omega
    · omega
  · omega

theorem pricedNext (priced : Priced fee used target) : eip1559 fee used target * target < 2 ^ 64 := by
  have held := priced.held
  unfold eip1559
  split
  · exact held
  · split
    · rename_i above
      rcases priced.paid with low | room
      · omega
      · have gap : fee * target + fee * (used - target) = fee * used := by
          rw [← Nat.mul_add,Nat.add_sub_cancel' (Nat.le_of_lt above)]
        have step : fee * (used - target) / target / 8 * target ≤ fee * (used - target) :=
          (Nat.mul_le_mul_right _ (Nat.div_le_self _ _)).trans (Nat.div_mul_le_self _ _)
        rw [Nat.add_mul]
        rcases Nat.le_total 1 (fee * (used - target) / target / 8) with large | small
        · rw [max_eq_left large]
          omega
        · rw [max_eq_right small,Nat.one_mul]
          omega
    · exact (Nat.mul_le_mul_right _ (Nat.sub_le _ _)).trans_lt held

end

section
variable {fee used target : UInt64}

theorem computeBaseFeeExact (positive : 0 < target.toNat) (product : feeProduct fee.toNat used.toNat target.toNat < 2 ^ 64)
    (next : eip1559 fee.toNat used.toNat target.toNat < 2 ^ 64) :
    (computeBaseFee fee used target).toNat = if fee = 0 then 0 else eip1559 fee.toNat used.toNat target.toNat := by
  by_cases zero : fee = 0
  · rw [if_pos zero,zero,computeBaseFee,if_pos (.inr rfl)]
    rfl
  · have some : 0 < fee.toNat := nonzeroNat.mp zero
    rw [if_neg zero]
    unfold feeProduct at product
    unfold eip1559 at next ⊢
    rcases Nat.lt_trichotomy used.toNat target.toNat with less | same | more
    · rw [if_neg (by omega)] at product
      rw [if_neg (by omega),if_neg (by omega),fallNat some (UInt64.lt_iff_toNat_lt.mpr less),step,productFits product]
    · rw [if_pos same,UInt64.toNat_inj.mp same,stillNat]
    · rw [if_pos more] at product
      rw [if_neg (by omega),if_pos more] at next
      rw [if_neg (by omega),if_pos more,riseNat some positive (UInt64.lt_iff_toNat_lt.mpr more),step,productFits product,
        max_comm]
      exact Nat.mod_eq_of_lt next

end
end L1Chain.FeeMarket

namespace L1Chain
open FeeMarket Transition Runs

section
variable {E : Type} {env : Env E} {setup : Setup} {c : Chain} {b parent : Block} {h : Hash} {p : List Block} {target : ℕ}

abbrev Block.Priced (target : ℕ) (b : Block) : Prop := FeeMarket.Priced b.header.baseFee.toNat b.header.gasUsed.toNat target

def Follows (target : ℕ) (parent b : Block) : Prop :=
  b.header.baseFee.toNat =
    if parent.header.baseFee = 0 then 0 else eip1559 parent.header.baseFee.toNat parent.header.gasUsed.toNat target

def Roomy (env : Env E) (c : Chain) (target : ℕ) (b : Block) : Prop :=
  ∀ st, c.deriveState env anySig b.header.prevHash = .ok st → st.supply + target < 2 ^ 64

theorem linkedPriced (thrifty : Thrifty env) (l : Linked env anySig c b) (stored : c.getByHash b.header.prevHash = some parent)
    (positive : 0 < (gasTarget c.gasLimit).toNat) (room : Roomy env c (gasTarget c.gasLimit).toNat b)
    (before : parent.Priced (gasTarget c.gasLimit).toNat) :
    b.Priced (gasTarget c.gasLimit).toNat ∧ Follows (gasTarget c.gasLimit).toNat parent b := by
  obtain ⟨p,found,_,fee⟩ := l.parent
  cases Option.some.inj (stored.symm.trans found)
  have next := pricedNext before
  have fits := (Nat.le_mul_of_pos_right _ positive).trans_lt next
  have follows : Follows (gasTarget c.gasLimit).toNat parent b := by
    rw [Follows,fee]
    exact computeBaseFeeExact positive (pricedProduct before) fits
  obtain ⟨st,after,derived,applied,_⟩ := l.derived
  have left := room st derived
  simp only [applyBlockRewarded,bindOk] at applied
  obtain ⟨o,ran,last⟩ := applied
  have used : o.gasUsed = b.header.gasUsed := (Prod.mk.inj (Except.ok.inj last)).2
  have paid := blockPaid thrifty (by omega) ran
  rw [used] at paid
  refine ⟨⟨?_,.inr (by omega)⟩,follows⟩
  rw [follows]
  split
  · rw [Nat.zero_mul]
    exact Nat.two_pow_pos 64
  · exact next

theorem branchPriced (thrifty : Thrifty env) (s : Sound env anySig c) (positive : 0 < (gasTarget c.gasLimit).toNat)
    (genesis : ∀ g, c.getByHash c.genesisHash = some g → g.Priced (gasTarget c.gasLimit).toNat)
    (path : c.Path h p) (room : ∀ b ∈ p.dropLast, Roomy env c (gasTarget c.gasLimit).toNat b) :
    (∀ b ∈ p, b.Priced (gasTarget c.gasLimit).toNat) ∧
      p.IsChain (fun b parent => Follows (gasTarget c.gasLimit).toNat parent b) := by
  induction path with
  | root found =>
    refine ⟨fun b member => ?_,.singleton _⟩
    rw [List.mem_singleton.mp member]
    exact genesis _ found
  | step found notRoot path ih =>
    obtain ⟨parent,older,rfl,stored⟩ := Forest.pathHead path
    rw [List.dropLast_cons_cons] at room
    obtain ⟨priced,chain⟩ := ih (fun b member => room b (List.mem_cons_of_mem _ member))
    obtain ⟨own,follows⟩ := linkedPriced thrifty (s.linked _ _ found notRoot) stored positive
      (room _ List.mem_cons_self) (priced _ List.mem_cons_self)
    refine ⟨fun b member => ?_,.cons_cons follows chain⟩
    rcases List.mem_cons.mp member with rfl | older
    · exact own
    · exact priced b older

/- Along every branch with room for the target above its coins the base fees are exact:
no product wraps, and each fee follows from its parent's by the recurrence, zero apart. -/
theorem baseFeeExact {path : List Block} (thrifty : Thrifty env) (r : Extended env (setup.chain env) c)
    (branch : c.chainTo h = some path) (positive : 1 ≤ (gasTarget c.gasLimit).toNat)
    (start : setup.genesis.initialBaseFee.toNat * (gasTarget c.gasLimit).toNat < 2 ^ 64)
    (room : ∀ b ∈ path.tail, ∀ st, c.deriveState env anySig b.header.prevHash = .ok st →
      st.supply + (gasTarget c.gasLimit).toNat < 2 ^ 64) :
    (∀ b ∈ path, feeProduct b.header.baseFee.toNat b.header.gasUsed.toNat (gasTarget c.gasLimit).toNat < 2 ^ 64) ∧
    path.IsChain (fun parent b => b.header.baseFee.toNat = if parent.header.baseFee = 0 then 0
      else eip1559 parent.header.baseFee.toNat parent.header.gasUsed.toNat (gasTarget c.gasLimit).toNat) := by
  obtain ⟨s,_,grows⟩ := extendedSetup r
  obtain ⟨p,climbed,rfl⟩ := Option.map_eq_some_iff.mp branch
  have path := (ancestryPath s.rooted).mp climbed
  have genesis : ∀ g, c.getByHash c.genesisHash = some g → g.Priced (gasTarget c.gasLimit).toNat := by
    intro g found
    cases setupStored grows found
    exact ⟨start,.inl (Nat.zero_le _)⟩
  obtain ⟨priced,chain⟩ := branchPriced thrifty s positive genesis path (fun b member => room b (by
    rw [List.tail_reverse]
    exact List.mem_reverse.mpr member))
  exact ⟨fun b member => pricedProduct (priced b (List.mem_reverse.mp member)),List.isChain_reverse.mpr chain⟩

end

namespace Devnet
open Exchange MptState

theorem marketThrifty : Thrifty market := by
  have quiet : ∀ tx height baseFee, evmProg market tx height baseFee = .done 0 := by
    intro tx height baseFee
    unfold evmProg
    split <;> rfl
  refine ⟨bookConserving.frugal,fun st tx height baseFee gasUsed s ran => ?_,fun st tx height baseFee gasUsed s ran _ => ?_⟩
  · rw [quiet] at ran
    cases ran
    exact UInt64.zero_le
  · rw [quiet] at ran
    cases ran
    exact Nat.le_refl _

def narrowSetup (fee : UInt64) : Setup where
  genesis := ⟨AList.singleton (account 1) 100,∅,0,0,fee⟩
  chainID := 0
  gasLimit := 2
  exchangeMode := .continuous
  consensus := .pow

def workless (height : UInt64) (parent : Hash) (fee gas : UInt64) (txs : List Transaction) : Block where
  header :=
    { height := height, prevHash := parent, merkleRoot := merkleRoot sha (txs.map (·.hash sha)), stateRoot := 0
      coinbase := account 3, timestamp := 0, difficulty := 0, nonce := 0, baseFee := fee, gasUsed := gas
      proposerSig := [] }
  txs := txs

def spending (fee : UInt64) : Block :=
  workless 1 (hashAt 0 0) fee 2 [{deployment with gasLimit := 2, gasFeeCap := fee, gasTipCap := 0}]
def resting (fee : UInt64) : Block := workless 2 (hashAt 1 0) fee 0 []

theorem spendingApplied {fee : UInt64} (small : fee = 0 ∨ fee = 7) :
    ∃ after, applyBlockRewarded market acceptNonEmptySig .continuous soloFunds (spending fee) = .ok (after,2) ∧
      after.supply ≤ 150 := by
  have ran : (applyBlockRewarded market acceptNonEmptySig .continuous soloFunds (spending fee)).map (·.2) = .ok 2 := by
    rcases small with rfl | rfl <;> decide +kernel
  have routes : (blockTrace market acceptNonEmptySig soloFunds (spending fee).txs 1 .continuous fee).map
      (fun x => route x.before x.tx) = [.contract] := by
    rcases small with rfl | rfl <;> decide +kernel
  obtain ⟨⟨after,gas⟩,ok,rfl⟩ := mapOk.mp ran
  have fits : soloFunds.supply + blockReward.toNat < 2 ^ 64 := by
    rw [soloFundsSupply]
    decide
  have equation := (blockSupply bookConserving fits (by decide : (1 : UInt64) ≠ 0)
    (plainTrace routes (by decide)) ok).1
  have reward : blockReward.toNat = 50 := rfl
  rw [soloFundsSupply,reward] at equation
  exact ⟨after,ok,by omega⟩

theorem worklessHash {height fee gas : UInt64} {parent : Hash} {txs : List Transaction} :
    (workless height parent fee gas txs).hash sha = hashAt height.toNat 0 := headerHash _

theorem worklessMeets (h : Hash) : meetsTarget h 0 = true := decide_eq_true (Nat.zero_le _)

section
variable {E : Type} {net : Env E} {setup : Setup} {fee gas : UInt64} {txs : List Transaction}

theorem worklessRoot (own : net.sha = sha) (early : setup.genesis.timestamp = 0) :
    (setup.chain net).genesisHash = hashAt 0 0 := by
  have shape : (setup.chain net).genesisHash = (setup.genesis.toBlock net).header.hash net.sha := rfl
  have time : (setup.genesis.toBlock net).header.timestamp = 0 := early
  have hash : (setup.genesis.toBlock net).header.hash sha = _ := headerHash _
  rw [shape,own,hash,time]
  rfl

theorem worklessFirst (own : net.sha = sha) (early : setup.genesis.timestamp = 0) (pow : setup.consensus = .pow)
    (mined : WellMined net acceptNonEmptySig setup [setup.genesis.toBlock net] (workless 1 (hashAt 0 0) fee gas txs)) :
    ∃ c', (setup.chain net).addBlock net acceptNonEmptySig (workless 1 (hashAt 0 0) fee gas txs) = .ok c' ∧
      Extended net (setup.chain net) c' ∧
      c'.Path (hashAt 1 0) [workless 1 (hashAt 0 0) fee gas txs,setup.genesis.toBlock net] ∧
      ∀ h x, c'.getByHash h = some x → h = hashAt 0 0 ∨ h = hashAt 1 0 := by
  have root : (setup.chain net).genesisHash = hashAt 0 0 := worklessRoot own early
  have hash : (workless 1 (hashAt 0 0) fee gas txs).hash net.sha = hashAt 1 0 := by
    rw [own]
    exact worklessHash
  have genesis : (setup.chain net).Path (hashAt 0 0) [setup.genesis.toBlock net] := by
    rw [← root]
    exact setupStart net setup
  have known : ∀ h x, (setup.chain net).getByHash h = some x → h = hashAt 0 0 :=
    fun h x found => (setupOnly found).1.trans root
  obtain ⟨c',added,reached,path,found⟩ := powExtends .start pow genesis (by
    rw [hash,Option.eq_none_iff_forall_ne_some]
    exact fun x found => hashApart (by omega) (by omega) (known _ _ found)) mined
  rw [hash] at path found
  exact ⟨c',added,reached,path,fun h x stored => ((found h x).mp stored).imp (known h x) And.left⟩

end

theorem narrowBranch {fee first second : UInt64} (small : first = 0 ∨ first = 7) (one : computeBaseFee fee 0 1 = first)
    (two : computeBaseFee first 2 1 = second) : ∃ c, Extended market ((narrowSetup fee).chain market) c ∧
      gasTarget c.gasLimit = 1 ∧
      c.chainTo (hashAt 2 0) = some [(narrowSetup fee).genesis.toBlock market,spending first,resting second] ∧
      Roomy market c 1 (spending first) ∧ Roomy market c 1 (resting second) := by
  obtain ⟨after,ran,supply⟩ := spendingApplied small
  have target : gasTarget (narrowSetup fee).gasLimit = 1 := (by decide : gasTarget 2 = 1)
  have spends : WellMined market acceptNonEmptySig (narrowSetup fee) [(narrowSetup fee).genesis.toBlock market] (spending first) :=
    ⟨⟨_,rfl,rfl,by rw [target]; exact one.symm⟩,worklessMeets _,rfl,fun tx member => by rw [List.mem_singleton.mp member]; rfl,
      ⟨soloFunds,after,rfl,ran,rfl⟩,(by decide : (2 : UInt64) ≤ 2)⟩
  have replayed : replay market acceptNonEmptySig .continuous soloFunds [spending first] = .ok after := by
    simp only [replay,bindOk]
    exact ⟨_,ran,rfl⟩
  have rests : WellMined market acceptNonEmptySig (narrowSetup fee)
      [spending first,(narrowSetup fee).genesis.toBlock market] (resting second) := by
    exact ⟨⟨_,rfl,rfl,by rw [target]; exact two.symm⟩,worklessMeets _,rfl,fun tx member => absurd member List.not_mem_nil,
      ⟨after,_,replayed,(rewardedOk (by decide : (2 : UInt64) ≠ 0)).mpr ⟨⟨after,0,0⟩,rfl,rfl,rfl⟩,rfl⟩,UInt64.zero_le⟩
  have rested : (resting second).hash market.sha = hashAt 2 0 := worklessHash
  obtain ⟨c₁,_,reached₁,path₁,known⟩ := worklessFirst rfl rfl rfl spends
  obtain ⟨c₂,_,reached₂,path₂,_⟩ := powExtends reached₁ rfl path₁ (by
    rw [rested,Option.eq_none_iff_forall_ne_some]
    intro x found
    rcases known _ _ found with same | same
    · exact hashApart (by omega) (by omega) same
    · exact hashApart (by omega) (by omega) same) rests
  rw [rested] at path₂
  obtain ⟨sound,_,grows⟩ := extendedSetup reached₂
  have limit : gasTarget c₂.gasLimit = 1 := by rw [grows.config.gasLimit]; exact target
  have below : c₂.Path (hashAt 1 0) [spending first,(narrowSetup fee).genesis.toBlock market] :=
    (Forest.pathTail path₂ (by simp)).2.2
  have lowest := (Forest.pathTail below (by simp)).2.2
  refine ⟨c₂,reached₂,limit,?_,fun st derived => ?_,fun st derived => ?_⟩
  · rw [Chain.chainTo,(ancestryPath sound.rooted).mpr path₂]
    rfl
  · have same : c₂.deriveState market anySig (hashAt 0 0) = .ok soloFunds :=
      setupDerive sound.rooted grows.config lowest
    cases Except.ok.inj (same.symm.trans derived)
    rw [soloFundsSupply]
    decide
  · have same : c₂.deriveState market acceptNonEmptySig (hashAt 1 0) = .ok after := by
      rw [setupDerive sound.rooted grows.config below,liftTxOk]
      exact replayed
    cases Except.ok.inj ((deriveAnySig same).symm.trans derived)
    omega

/- The base fee of the chain falls from 8 to 7 in the first block, whose gas is above the
target, and is 8 again in the second: the step is the least one. -/
theorem narrowFeesExact : ∃ c : Chain, c.chainTo (hashAt 2 0) = some [(narrowSetup 8).genesis.toBlock market,spending 7,resting 8] ∧
    [(narrowSetup 8).genesis.toBlock market,spending 7,resting 8].IsChain (fun parent b =>
      b.header.baseFee.toNat = if parent.header.baseFee = 0 then 0
        else eip1559 parent.header.baseFee.toNat parent.header.gasUsed.toNat 1) := by
  obtain ⟨c,reached,target,branch,first,second⟩ :=
    @narrowBranch 8 7 8 (.inr rfl) (by decide) (by decide)
  have one : (gasTarget c.gasLimit).toNat = 1 := by rw [target]; rfl
  have exactly := (baseFeeExact marketThrifty reached branch (by rw [one]) (by rw [one]; decide) (by
    rw [one]
    intro b member
    rcases List.mem_cons.mp member with rfl | member
    · exact first
    · rw [List.mem_singleton.mp member]
      exact second)).2
  rw [one] at exactly
  exact ⟨c,branch,exactly⟩

/- From a base fee of zero the same blocks leave it at zero, where EIP-1559 asks for one
after a block above the target. -/
theorem zeroFeeStays : ∃ c : Chain, Thrifty market ∧ Extended market ((narrowSetup 0).chain market) c ∧
    (gasTarget c.gasLimit).toNat = 1 ∧
    c.chainTo (hashAt 2 0) = some [(narrowSetup 0).genesis.toBlock market,spending 0,resting 0] ∧
    (∀ b ∈ [spending 0,resting 0], ∀ st, c.deriveState market anySig b.header.prevHash = .ok st → st.supply + 1 < 2 ^ 64) ∧
    ¬ [(narrowSetup 0).genesis.toBlock market,spending 0,resting 0].IsChain (fun parent b =>
      b.header.baseFee.toNat = eip1559 parent.header.baseFee.toNat parent.header.gasUsed.toNat 1) := by
  obtain ⟨c,reached,target,branch,first,second⟩ :=
    @narrowBranch 0 0 0 (.inl rfl) (by decide) (by decide)
  refine ⟨c,marketThrifty,reached,by rw [target]; rfl,branch,fun b member => ?_,fun chain => ?_⟩
  · rcases List.mem_cons.mp member with rfl | member
    · exact first
    · rw [List.mem_singleton.mp member]
      exact second
  · simp only [List.isChain_cons_cons] at chain
    exact absurd chain.2.1 (by decide)

end Devnet
end L1Chain
