import L1Chain.Words

/-! chain/feemarket.go: the base-fee recurrence and the price one transaction
pays, in the code's own 64-bit arithmetic (products wrap). -/
namespace L1Chain.FeeMarket

inductive FeeErr where
  | feeCapBelowBaseFee
  | tipExceedsFeeCap
  deriving DecidableEq, Repr

def baseFeeMaxChangeDenominator : UInt64 := 8
def elasticityMultiplier : UInt64 := 2

def gasTarget (gasLimit : UInt64) : UInt64 := gasLimit / elasticityMultiplier

def computeBaseFee (parentBaseFee parentGasUsed parentGasTarget : UInt64) : UInt64 :=
  if parentGasTarget = 0 ∨ parentBaseFee = 0 then parentBaseFee
  else if parentGasUsed = parentGasTarget then parentBaseFee
  else if parentGasUsed > parentGasTarget then
    let gasUsedDelta := parentGasUsed - parentGasTarget
    let delta := parentBaseFee * gasUsedDelta / parentGasTarget / baseFeeMaxChangeDenominator
    parentBaseFee + (if delta < 1 then 1 else delta)
  else
    let gasUsedDelta := parentGasTarget - parentGasUsed
    let delta := parentBaseFee * gasUsedDelta / parentGasTarget / baseFeeMaxChangeDenominator
    parentBaseFee - (if delta ≥ parentBaseFee then parentBaseFee - 1 else delta)

def validateFeeCapTip (feeCap tipCap : UInt64) : Except FeeErr Unit :=
  if tipCap > feeCap then .error .tipExceedsFeeCap else .ok ()

structure Price where
  effectivePrice : UInt64
  priorityFee : UInt64
  deriving DecidableEq, Repr

def effectiveGasPrice (baseFee feeCap tipCap : UInt64) : Except FeeErr Price :=
  if feeCap < baseFee then .error .feeCapBelowBaseFee
  else
    let headroom := feeCap - baseFee
    let priorityFee := if tipCap > headroom then headroom else tipCap
    .ok ⟨baseFee + priorityFee,priorityFee⟩

/- The gas reserved up front at the fee cap: the code multiplies, then divides
back to see whether the product wrapped. -/
def gasReserve (gasLimit feeCap : UInt64) : Option UInt64 :=
  let reserve := gasLimit * feeCap
  if feeCap ≠ 0 ∧ gasLimit ≠ 0 ∧ reserve / feeCap ≠ gasLimit then none else some reserve

end L1Chain.FeeMarket
