import L1Chain.Stakes
import L1Chain.Votes

/-! The two-thirds test. `recordAttestations` compares three times the tally with twice
the effective total, both products taken in 64 bits. The comparison is the one over the
natural numbers exactly where the products wrap equally often, or lie so far apart that
wrapping does not change their order. -/
namespace L1Chain
open Pos

def wraps (n : ℕ) : ℕ := n / 2 ^ 64

structure OrderKept (x y : ℕ) : Prop where
  fewer : wraps x < wraps y → x + (wraps y - wraps x) * 2 ^ 64 < y
  more : wraps y < wraps x → y + (wraps x - wraps y) * 2 ^ 64 ≤ x

theorem orderKept (x y : ℕ) : (y % 2 ^ 64 ≤ x % 2 ^ 64 ↔ y ≤ x) ↔ OrderKept x y := by
  have split : OrderKept x y ↔ (wraps x < wraps y → x + (wraps y - wraps x) * 2 ^ 64 < y) ∧
      (wraps y < wraps x → y + (wraps x - wraps y) * 2 ^ 64 ≤ x) := ⟨fun kept => ⟨kept.1,kept.2⟩,fun kept => ⟨kept.1,kept.2⟩⟩
  rw [split]
  unfold wraps
  omega

section
variable {vs : ValidatorSet} {p : PosState} {tx : Transaction} {v : ValidatorInfo} {a : Attestation}

theorem finalizesIff (higher : p.finalizedHeight < a.targetHeight) :
    p.finalizes vs v a ↔ 2 * stakeSum (vs.active p.jailed) % 2 ^ 64 ≤
      3 * ((p.checkpointStake a.targetHash).toNat + v.stake.toNat) % 2 ^ 64 := by
  have total : ((vs.effectiveStake p.jailed).2 * 2).toNat = 2 * stakeSum (vs.active p.jailed) % 2 ^ 64 := by
    rw [UInt64.toNat_mul,effectiveTotal,Nat.mul_comm]
    rfl
  have tally : ((p.checkpointStake a.targetHash + v.stake) * 3).toNat =
      3 * ((p.checkpointStake a.targetHash).toNat + v.stake.toNat) % 2 ^ 64 := by
    rw [UInt64.toNat_mul,UInt64.toNat_add,Nat.mod_mul_mod,Nat.mul_comm]
    rfl
  rw [PosState.finalizes,ge_iff_le,UInt64.le_iff_toNat_le,total,tally]
  exact and_iff_right higher

def PosState.Advanced (p : PosState) (a : Attestation) : Prop :=
  p.finalizedHash = a.targetHash ∧ p.finalizedHeight = a.targetHeight

theorem advancesIff (counted : Counted vs p tx v a) (higher : p.finalizedHeight < a.targetHeight) :
    (p.recordVote vs tx).Advanced a ↔ p.finalizes vs v a := by
  rw [recordVoteCounted counted,PosState.Advanced,PosState.countVoteEq]
  by_cases reached : p.finalizes vs v a
  · simp [reached]
  · simp only [reached,if_false,iff_false,not_and]
    exact fun _ same => absurd same (UInt64.ne_of_lt higher)

/- A vote newly counted for a higher target advances finality when three times the
updated tally reaches twice the effective total, if and only if cutting the two products
down to 64 bits keeps their order. The tally is any sum of stakes of distinct
validators, and any of the validators may be jailed. -/
theorem twoThirdsExact (counted : Counted vs p tx v a) (higher : p.finalizedHeight < a.targetHeight)
    {s : Finset ValidatorInfo} (tally : (p.checkpointStake a.targetHash).toNat = stakeOf s) :
    ((p.recordVote vs tx).Advanced a ↔
      2 * stakeSum (vs.active p.jailed) ≤ 3 * (stakeOf s + v.stake.toNat)) ↔
    OrderKept (3 * (stakeOf s + v.stake.toNat)) (2 * stakeSum (vs.active p.jailed)) := by
  rw [advancesIff counted higher,finalizesIff higher,tally]
  exact orderKept _ _

end

namespace Devnet

theorem smallStakesExact : Counted vs PosState.init (vote 4 0 32 7) (validator 4 3) ⟨32,7,sig⟩ ∧
    ((PosState.init.recordVote vs (vote 4 0 32 7)).Advanced ⟨32,7,sig⟩ ↔ 2 * 7 ≤ 3 * (0 + 3)) := by
  have counted : Counted vs PosState.init (vote 4 0 32 7) (validator 4 3) ⟨32,7,sig⟩ := voteCounted (by decide) rfl rfl
  have kept : OrderKept (3 * (0 + 3)) (2 * 7) := ⟨by decide,by decide⟩
  exact ⟨counted,(@twoThirdsExact _ _ _ _ _ counted (by decide) ∅ rfl).mpr kept⟩

/- Twice the total of these stakes is two above a multiple of 2^64. -/
def lopsided : ValidatorSet where
  validators := [validator 1 0x8000000000000000,validator 2 1]
  totalStake := 0x8000000000000001
  nonempty := by decide
  staked := by decide
  distinct := by decide
  distinctKeys := by decide
  total := by decide

theorem smallestStakeFinalizes : Counted lopsided PosState.init (vote 2 0 32 7) (validator 2 1) ⟨32,7,sig⟩ ∧
    PosState.init.finalizedHeight < 32 ∧ (PosState.init.checkpointStake 7).toNat = stakeOf ∅ ∧
    (PosState.init.recordVote lopsided (vote 2 0 32 7)).Advanced ⟨32,7,sig⟩ ∧
    ¬ 2 * stakeSum (lopsided.active PosState.init.jailed) ≤ 3 * (stakeOf ∅ + (validator 2 1).stake.toNat) := by
  have counted : Counted lopsided PosState.init (vote 2 0 32 7) (validator 2 1) ⟨32,7,sig⟩ :=
    voteCounted (by decide) rfl rfl
  have higher : PosState.init.finalizedHeight < 32 := by decide
  exact ⟨counted,higher,rfl,(advancesIff counted higher).mpr (by decide),by decide⟩

end Devnet
end L1Chain
