import Mathlib.Data.Nat.Basic
import Mathlib.Tactic.Ring
import L1Chain.FeeMarket

/-! How far the base fee moves in one block. ComputeBaseFee multiplies the fee by the gap
to the target in 64 bits, cuts the product down by two divisions and adds or takes away
the result. The advertised bounds hold exactly where the sum fits, where the larger half
of an odd limit does not take the step past an eighth, and where no product wraps into
another multiple of eight targets. -/
namespace L1Chain.FeeMarket

def product (fee gap : ℕ) : ℕ := fee * gap % 2 ^ 64
def step (fee gap target : ℕ) : ℕ := product fee gap / target / 8

section
variable {fee gap target : ℕ}

theorem productLt (fee gap : ℕ) : product fee gap < 2 ^ 64 := Nat.mod_lt _ (by decide)

theorem productFits (fits : fee * gap < 2 ^ 64) : product fee gap = fee * gap := Nat.mod_eq_of_lt fits

theorem stepEq (fee gap target : ℕ) : step fee gap target = product fee gap / (target * 8) := Nat.div_div_eq_div_mul ..

theorem stepShare (cut : product fee gap ≤ fee * target) : step fee gap target ≤ fee / 8 := by
  have share : product fee gap / target ≤ fee := Nat.div_le_of_le_mul (by rwa [Nat.mul_comm target])
  exact Nat.div_le_div_right share

theorem stepEighth (within : gap ≤ target) : step fee gap target ≤ fee / 8 :=
  stepShare ((Nat.mod_le _ _).trans (Nat.mul_le_mul_left _ within))

theorem stepWrapped (small : fee < 2 ^ 64) (wrapped : 2 ^ 64 ≤ fee * (target + 1)) : step fee (target + 1) target ≤ fee / 8 := by
  refine stepShare ?_
  have cut : product fee (target + 1) ≤ fee * (target + 1) - 2 ^ 64 := by
    rw [product,Nat.mod_eq_sub_mod wrapped]
    exact Nat.mod_le _ _
  rw [Nat.mul_add,Nat.mul_one] at cut
  omega

theorem stepSmall (fee gap target : ℕ) : step fee gap target < 2 ^ 61 := by
  have less := productLt fee gap
  have cut : product fee gap / target ≤ product fee gap := Nat.div_le_self ..
  unfold step
  omega

theorem productNext (fee gap : ℕ) (small : fee < 2 ^ 64) : product fee (gap + 1) =
    if product fee gap + fee < 2 ^ 64 then product fee gap + fee else product fee gap + fee - 2 ^ 64 := by
  have less := productLt fee gap
  have sum : product fee (gap + 1) = (product fee gap + fee) % 2 ^ 64 := by
    rw [product,product,Nat.mul_add,Nat.mul_one,Nat.mod_add_mod]
  split
  · rename_i fits
    rw [sum,Nat.mod_eq_of_lt fits]
  · omega

/- From one gap to the next the product passes a multiple of 2^64, and the wrapped
product still lies in the same multiple of eight targets. -/
def Level (fee gap target : ℕ) : Prop :=
  2 ^ 64 ≤ product fee gap + fee → (product fee gap + fee - 2 ^ 64) / (target * 8) = product fee gap / (target * 8)

theorem stepGrows (small : fee < 2 ^ 64) : step fee gap target ≤ step fee (gap + 1) target ↔ Level fee gap target := by
  rw [stepEq,stepEq,productNext fee gap small,Level]
  split
  · rename_i fits
    have more : product fee gap / (target * 8) ≤ (product fee gap + fee) / (target * 8) :=
      Nat.div_le_div_right (Nat.le_add_right ..)
    exact ⟨fun _ wraps => by omega,fun _ => more⟩
  · rename_i wraps
    have less : (product fee gap + fee - 2 ^ 64) / (target * 8) ≤ product fee gap / (target * 8) :=
      Nat.div_le_div_right (by omega)
    exact ⟨fun grows _ => le_antisymm less grows,fun level => (level (by omega)).ge⟩

theorem growsAlong {f : ℕ → ℕ} {n : ℕ} (grows : ∀ d < n, f d ≤ f (d + 1)) {i j : ℕ} (order : i ≤ j) (within : j ≤ n) :
    f i ≤ f j := by
  induction j, order using Nat.le_induction with
  | base => exact le_rfl
  | succ j order ih => exact (ih (by omega)).trans (grows j (by omega))

theorem oddStep {fee target : ℕ} (positive : 0 < target) :
    fee * (target + 1) / target / 8 ≤ max 1 (fee / 8) ↔ fee < 8 ∨ fee < target * (8 - fee % 8) := by
  rw [Nat.div_div_eq_div_mul]
  have split : fee = 8 * (fee / 8) + fee % 8 := (Nat.div_add_mod fee 8).symm
  have digit : fee % 8 < 8 := Nat.mod_lt _ (by decide)
  generalize fee / 8 = a at split ⊢
  generalize fee % 8 = r at split digit ⊢
  have total : fee * (target + 1) = (r * target + fee) + a * (target * 8) := by
    rw [split]
    ring
  have room : fee < target * (8 - r) ↔ r * target + fee < target * 8 := by
    have whole : target * (8 - r) + r * target = target * 8 := by
      rw [Nat.mul_comm r,← Nat.mul_add]
      congr 1
      omega
    omega
  have below : fee < 8 → (r * target + fee) / (target * 8) < 2 := by
    intro low
    have part : r * target ≤ 7 * target := Nat.mul_le_mul_right _ (by omega)
    rw [Nat.div_lt_iff_lt_mul (by omega)]
    omega
  rw [total,Nat.add_mul_div_right _ _ (by omega),room,← Nat.div_eq_zero_iff_lt (by omega : 0 < target * 8)]
  generalize (r * target + fee) / (target * 8) = q at below ⊢
  rcases Nat.eq_zero_or_pos a with low | high
  · have small := below (by omega)
    exact ⟨fun _ => .inl (by omega),fun _ => by omega⟩
  · rw [max_eq_right high]
    omega

end

/- Where the bounds hold, on the numbers alone. The target is half the limit; the gap
above it goes up to the other half. -/
structure Tame (limit fee : ℕ) : Prop where
  fits : fee + max 1 (step fee (limit - limit / 2) (limit / 2)) < 2 ^ 64
  gentle : limit % 2 = 0 ∨ fee < 8 ∨ fee < limit / 2 * (8 - fee % 8) ∨ 2 ^ 64 ≤ fee * (limit / 2 + 1)
  level : ∀ gap < limit / 2, Level fee gap (limit / 2)
  last : limit % 2 = 0 ∨ step fee (limit / 2) (limit / 2) ≤ 1 ∨ Level fee (limit / 2) (limit / 2)

section
variable {limit fee i j : ℕ}

theorem Tame.falls (tame : Tame limit fee) (small : fee < 2 ^ 64) (order : i ≤ j) (within : j ≤ limit / 2) :
    step fee i (limit / 2) ≤ step fee j (limit / 2) :=
  growsAlong (f := fun gap => step fee gap (limit / 2)) (fun gap inside => (stepGrows small).mpr (tame.level gap inside)) order within

theorem Tame.rises (tame : Tame limit fee) (small : fee < 2 ^ 64) (order : i ≤ j) (within : j ≤ limit - limit / 2) :
    max 1 (step fee i (limit / 2)) ≤ max 1 (step fee j (limit / 2)) := by
  refine growsAlong (f := fun gap => max 1 (step fee gap (limit / 2))) (fun gap inside => ?_) order within
  by_cases below : gap < limit / 2
  · have grows := (stepGrows small).mpr (tame.level gap below)
    omega
  · obtain rfl : gap = limit / 2 := by omega
    rcases tame.last with even | flat | level
    · omega
    · omega
    · have grows := (stepGrows small).mpr level
      omega

theorem Tame.eighth (tame : Tame limit fee) (small : fee < 2 ^ 64) (two : 2 ≤ limit) (within : j ≤ limit - limit / 2) :
    step fee j (limit / 2) ≤ max 1 (fee / 8) := by
  by_cases below : j ≤ limit / 2
  · have share : step fee j (limit / 2) ≤ fee / 8 := stepEighth below
    omega
  · obtain rfl : j = limit / 2 + 1 := by omega
    by_cases wrapped : 2 ^ 64 ≤ fee * (limit / 2 + 1)
    · have share := stepWrapped small wrapped
      omega
    · rw [step,productFits (by omega),oddStep (by omega)]
      rcases tame.gentle with even | low | room | wraps
      · omega
      · exact .inl low
      · exact .inr room
      · exact absurd wraps wrapped

theorem tameUnwrapped (unwrapped : fee * (limit - limit / 2) < 2 ^ 64)
    (room : fee + max 1 (fee * (limit - limit / 2) / (limit / 2) / 8) < 2 ^ 64)
    (gentle : limit % 2 = 0 ∨ fee < 8 ∨ fee < limit / 2 * (8 - fee % 8)) : Tame limit fee := by
  have level : ∀ gap < limit - limit / 2, Level fee gap (limit / 2) := by
    intro gap inside wraps
    have more : fee * gap + fee ≤ fee * (limit - limit / 2) := Nat.mul_le_mul_left fee inside
    rw [productFits (by omega)] at wraps
    omega
  refine ⟨?_,?_,fun gap inside => level gap (by omega),?_⟩
  · rwa [step,productFits unwrapped]
  · rcases gentle with even | low | room
    · exact .inl even
    · exact .inr (.inl low)
    · exact .inr (.inr (.inl room))
  · by_cases even : limit % 2 = 0
    · exact .inl even
    · exact .inr (.inr (level _ (by omega)))

end

section
variable {fee used target : UInt64}

theorem deltaNat (fee gap target : UInt64) :
    (fee * gap / target / baseFeeMaxChangeDenominator).toNat = step fee.toNat gap.toNat target.toNat := by
  rw [UInt64.toNat_div,UInt64.toNat_div,UInt64.toNat_mul]
  rfl

theorem nonzeroNat {n : UInt64} : n ≠ 0 ↔ 0 < n.toNat := UInt64.pos_iff_ne_zero.symm.trans UInt64.lt_iff_toNat_lt

theorem stillNat : computeBaseFee fee target target = fee := by
  unfold computeBaseFee
  split
  · rfl
  · exact if_pos rfl

theorem riseNat (some : 0 < fee.toNat) (positive : 0 < target.toNat) (above : target < used) :
    (computeBaseFee fee used target).toNat =
      (fee.toNat + max 1 (step fee.toNat (used.toNat - target.toNat) target.toNat)) % 2 ^ 64 := by
  have apart : used ≠ target := (UInt64.ne_of_lt above).symm
  have gap := UInt64.toNat_sub_of_le _ _ (UInt64.le_of_lt above)
  have one : (1 : UInt64).toNat = 1 := rfl
  have value := deltaNat fee (used - target) target
  rw [gap] at value
  unfold computeBaseFee
  rw [if_neg (not_or.mpr ⟨nonzeroNat.mpr positive,nonzeroNat.mpr some⟩),if_neg apart,if_pos above]
  dsimp only
  rw [UInt64.toNat_add]
  congr 2
  simp only [UInt64.lt_iff_toNat_lt,one,value]
  split
  · omega
  · rw [value]
    omega

theorem fallNat (some : 0 < fee.toNat) (below : used < target) :
    (computeBaseFee fee used target).toNat =
      fee.toNat - step fee.toNat (target.toNat - used.toNat) target.toNat := by
  have less := UInt64.lt_iff_toNat_lt.mp below
  have gap := UInt64.toNat_sub_of_le _ _ (UInt64.le_of_lt below)
  have value := deltaNat fee (target - used) target
  rw [gap] at value
  have eighth : step fee.toNat (target.toNat - used.toNat) target.toNat ≤ fee.toNat / 8 := stepEighth (Nat.sub_le ..)
  have under : fee * (target - used) / target / baseFeeMaxChangeDenominator < fee := by
    rw [UInt64.lt_iff_toNat_lt,value]
    omega
  unfold computeBaseFee
  rw [if_neg (not_or.mpr ⟨nonzeroNat.mpr (by omega),nonzeroNat.mpr some⟩),if_neg (UInt64.ne_of_lt below),
    if_neg (UInt64.not_lt.mpr (UInt64.le_of_lt below))]
  dsimp only
  rw [if_neg (UInt64.not_le.mpr under),UInt64.toNat_sub_of_le _ _ (UInt64.le_of_lt under),value]

end

/- What the fee market promises of one block, for every amount of gas up to the limit. -/
structure StepBounds (limit fee : UInt64) : Prop where
  positive : ∀ used ≤ limit, 1 ≤ (computeBaseFee fee used (gasTarget limit)).toNat
  still : computeBaseFee fee (gasTarget limit) (gasTarget limit) = fee
  rises : ∀ used ≤ limit, gasTarget limit < used →
    fee.toNat + 1 ≤ (computeBaseFee fee used (gasTarget limit)).toNat ∧
    (computeBaseFee fee used (gasTarget limit)).toNat ≤ fee.toNat + max 1 (fee.toNat / 8)
  falls : ∀ used ≤ limit, used < gasTarget limit →
    fee.toNat - fee.toNat / 8 ≤ (computeBaseFee fee used (gasTarget limit)).toNat ∧
    (computeBaseFee fee used (gasTarget limit)).toNat ≤ fee.toNat
  grows : ∀ used used', used ≤ used' → used' ≤ limit →
    (computeBaseFee fee used (gasTarget limit)).toNat ≤ (computeBaseFee fee used' (gasTarget limit)).toNat

section
variable {limit fee used : UInt64}

theorem gasTargetNat (limit : UInt64) : (gasTarget limit).toNat = limit.toNat / 2 := by
  rw [gasTarget,UInt64.toNat_div]
  rfl

theorem gasOf {n : ℕ} (within : n ≤ limit.toNat) : ∃ used, used ≤ limit ∧ used.toNat = n := by
  have small := limit.toNat_lt
  have value : (UInt64.ofNat n).toNat = n := by
    rw [UInt64.toNat_ofNat']
    exact Nat.mod_eq_of_lt (by omega)
  exact ⟨UInt64.ofNat n,UInt64.le_iff_toNat_le.mpr (by omega),value⟩

theorem Tame.next (tame : Tame limit.toNat fee.toNat) (two : 2 ≤ limit.toNat) (one : 1 ≤ fee.toNat) (within : used ≤ limit) :
    (computeBaseFee fee used (gasTarget limit)).toNat =
      if used.toNat < limit.toNat / 2 then fee.toNat - step fee.toNat (limit.toNat / 2 - used.toNat) (limit.toNat / 2)
      else if used.toNat = limit.toNat / 2 then fee.toNat
      else fee.toNat + max 1 (step fee.toNat (used.toNat - limit.toNat / 2) (limit.toNat / 2)) := by
  have target := gasTargetNat limit
  have cap := UInt64.le_iff_toNat_le.mp within
  split
  · rename_i below
    rw [fallNat one (UInt64.lt_iff_toNat_lt.mpr (by omega)),target]
  · split
    · rename_i same
      rw [UInt64.toNat_inj.mp (same.trans target.symm),stillNat]
    · have most : max 1 (step fee.toNat (used.toNat - limit.toNat / 2) (limit.toNat / 2)) ≤
          max 1 (step fee.toNat (limit.toNat - limit.toNat / 2) (limit.toNat / 2)) :=
        tame.rises fee.toNat_lt (Nat.sub_le_sub_right cap _) le_rfl
      have fits := tame.fits
      rw [riseNat one (by omega) (UInt64.lt_iff_toNat_lt.mpr (by omega)),target]
      exact Nat.mod_eq_of_lt (by omega)

theorem tameBounds (tame : Tame limit.toNat fee.toNat) (two : 2 ≤ limit.toNat) (one : 1 ≤ fee.toNat) : StepBounds limit fee := by
  have target := gasTargetNat limit
  have small := fee.toNat_lt
  refine ⟨fun used within => ?_,stillNat,fun used within above => ?_,fun used within below => ?_,
    fun used used' order within => ?_⟩
  · rw [tame.next two one within]
    have eighth : step fee.toNat (limit.toNat / 2 - used.toNat) (limit.toNat / 2) ≤ fee.toNat / 8 := stepEighth (Nat.sub_le ..)
    split
    · omega
    · split <;> omega
  · have more := UInt64.lt_iff_toNat_lt.mp above
    have cap := UInt64.le_iff_toNat_le.mp within
    have eighth := tame.eighth small two (Nat.sub_le_sub_right cap (limit.toNat / 2))
    rw [tame.next two one within,if_neg (by omega),if_neg (by omega)]
    omega
  · have less := UInt64.lt_iff_toNat_lt.mp below
    have eighth : step fee.toNat (limit.toNat / 2 - used.toNat) (limit.toNat / 2) ≤ fee.toNat / 8 := stepEighth (Nat.sub_le ..)
    rw [tame.next two one within,if_pos (by omega)]
    omega
  · have le := UInt64.le_iff_toNat_le.mp order
    have cap := UInt64.le_iff_toNat_le.mp within
    rw [tame.next two one (UInt64.le_trans order within),tame.next two one within]
    by_cases below : used'.toNat < limit.toNat / 2
    · have falls : step fee.toNat (limit.toNat / 2 - used'.toNat) (limit.toNat / 2) ≤
          step fee.toNat (limit.toNat / 2 - used.toNat) (limit.toNat / 2) :=
        tame.falls small (Nat.sub_le_sub_left le _) (Nat.sub_le ..)
      rw [if_pos (by omega),if_pos below]
      omega
    · by_cases above : limit.toNat / 2 < used.toNat
      · have rises : max 1 (step fee.toNat (used.toNat - limit.toNat / 2) (limit.toNat / 2)) ≤
            max 1 (step fee.toNat (used'.toNat - limit.toNat / 2) (limit.toNat / 2)) :=
          tame.rises small (Nat.sub_le_sub_right le _) (Nat.sub_le_sub_right cap _)
        rw [if_neg (by omega),if_neg (by omega),if_neg below,if_neg (by omega)]
        omega
      · -- the two amounts lie on different sides of the target, or at it
        have high : fee.toNat ≤ if used'.toNat = limit.toNat / 2 then fee.toNat
            else fee.toNat + max 1 (step fee.toNat (used'.toNat - limit.toNat / 2) (limit.toNat / 2)) := by
          split <;> omega
        rw [if_neg below]
        refine le_trans ?_ high
        split
        · exact Nat.sub_le ..
        · rw [if_pos (by omega)]

theorem StepBounds.fits (bounds : StepBounds limit fee) (two : 2 ≤ limit.toNat) (one : 1 ≤ fee.toNat) (gap : ℕ)
    (some : 1 ≤ gap) (within : limit.toNat / 2 + gap ≤ limit.toNat) :
    ∃ used, used ≤ limit ∧ used.toNat = limit.toNat / 2 + gap ∧
      fee.toNat + max 1 (step fee.toNat gap (limit.toNat / 2)) < 2 ^ 64 ∧
      (computeBaseFee fee used (gasTarget limit)).toNat = fee.toNat + max 1 (step fee.toNat gap (limit.toNat / 2)) ∧
      step fee.toNat gap (limit.toNat / 2) ≤ max 1 (fee.toNat / 8) := by
  obtain ⟨used,cap,value⟩ := gasOf within
  have target := gasTargetNat limit
  have above : gasTarget limit < used := UInt64.lt_iff_toNat_lt.mpr (by omega)
  have rise := riseNat one (by omega) above
  have less := stepSmall fee.toNat gap (limit.toNat / 2)
  have small := fee.toNat_lt
  obtain ⟨lower,upper⟩ := bounds.rises used cap above
  rw [target,value,Nat.add_sub_cancel_left] at rise
  have room : fee.toNat + max 1 (step fee.toNat gap (limit.toNat / 2)) < 2 ^ 64 := by omega
  have exact' := rise.trans (Nat.mod_eq_of_lt room)
  exact ⟨used,cap,value,room,exact',by omega⟩

theorem boundsTame (bounds : StepBounds limit fee) (two : 2 ≤ limit.toNat) (one : 1 ≤ fee.toNat) :
    Tame limit.toNat fee.toNat := by
  have target := gasTargetNat limit
  have small := fee.toNat_lt
  obtain ⟨full,fullCap,fullValue,room,fullFee,most⟩ :=
    bounds.fits two one (limit.toNat - limit.toNat / 2) (by omega) (by omega)
  refine ⟨room,?_,fun gap inside => ?_,?_⟩
  · by_cases even : limit.toNat % 2 = 0
    · exact .inl even
    · have odd : limit.toNat - limit.toNat / 2 = limit.toNat / 2 + 1 := by omega
      rw [odd] at most
      by_cases wrapped : 2 ^ 64 ≤ fee.toNat * (limit.toNat / 2 + 1)
      · exact .inr (.inr (.inr wrapped))
      · rw [step,productFits (by omega),oddStep (by omega)] at most
        rcases most with low | room
        · exact .inr (.inl low)
        · exact .inr (.inr (.inl room))
  · rw [← stepGrows small]
    obtain ⟨lower,lowerCap,lowerValue⟩ := @gasOf limit (limit.toNat / 2 - (gap + 1)) (by omega)
    obtain ⟨upper,upperCap,upperValue⟩ := @gasOf limit (limit.toNat / 2 - gap) (by omega)
    have grows := bounds.grows lower upper (UInt64.le_iff_toNat_le.mpr (by omega)) upperCap
    have less : step fee.toNat gap (limit.toNat / 2) ≤ fee.toNat / 8 := stepEighth (by omega)
    have less' : step fee.toNat (gap + 1) (limit.toNat / 2) ≤ fee.toNat / 8 := stepEighth (by omega)
    rcases Nat.eq_zero_or_pos gap with rfl | some
    · have nothing : step fee.toNat 0 (limit.toNat / 2) = 0 := by simp [step,product]
      omega
    · rw [fallNat one (UInt64.lt_iff_toNat_lt.mpr (by omega)),fallNat one (UInt64.lt_iff_toNat_lt.mpr (by omega)),
        target,lowerValue,upperValue] at grows
      have gaps : limit.toNat / 2 - (limit.toNat / 2 - gap) = gap := by omega
      have gaps' : limit.toNat / 2 - (limit.toNat / 2 - (gap + 1)) = gap + 1 := by omega
      rw [gaps,gaps'] at grows
      omega
  · by_cases even : limit.toNat % 2 = 0
    · exact .inl even
    · have odd : limit.toNat - limit.toNat / 2 = limit.toNat / 2 + 1 := by omega
      rw [odd] at fullFee
      obtain ⟨used,cap,value,_,usedFee,_⟩ := bounds.fits two one (limit.toNat / 2) (by omega) (by omega)
      have grows := bounds.grows used full (UInt64.le_iff_toNat_le.mpr (by omega)) fullCap
      rw [usedFee,fullFee] at grows
      rw [← stepGrows small]
      omega

end

/- The bounds hold of a limit and a fee exactly where these are tame. -/
theorem stepBoundsExact {limit fee : UInt64} (two : 2 ≤ limit) (one : 1 ≤ fee) :
    StepBounds limit fee ↔ Tame limit.toNat fee.toNat :=
  have some : 1 ≤ fee.toNat := UInt64.le_iff_toNat_le.mp one
  have least : 2 ≤ limit.toNat := UInt64.le_iff_toNat_le.mp two
  ⟨fun bounds => boundsTame bounds least some,fun tame => tameBounds tame least some⟩

theorem defaultLimitBounds : StepBounds 8000000 1000000000 := by
  have tame : Tame 8000000 1000000000 := tameUnwrapped (by decide) (by decide) (.inl (by decide))
  exact (stepBoundsExact (by decide) (by decide)).mpr tame

/- An odd limit takes the fee up by a quarter, the highest fee wraps to an eighth of
itself, and at the default limit a product that wraps makes the fee fall with rising
gas. -/
theorem feeStepsUnbounded : ¬ StepBounds 3 8 ∧ ¬ StepBounds 2 0xFFFFFFFFFFFFFFFF ∧ ¬ StepBounds 8000000 0x8000000000000000 := by
  refine ⟨fun bounds => ?_,fun bounds => ?_,fun bounds => ?_⟩
  · exact absurd (bounds.rises 3 (by decide) (by decide)).2 (by decide)
  · exact absurd (bounds.rises 2 (by decide) (by decide)).1 (by decide)
  · exact absurd (bounds.grows 3999998 3999999 (by decide) (by decide)) (by decide)

end L1Chain.FeeMarket
