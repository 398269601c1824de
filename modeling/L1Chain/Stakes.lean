import Mathlib.Algebra.Order.BigOperators.Group.List
import Mathlib.Data.Set.Card
import L1Chain.Pos
import L1Chain.Wheel

/-! Effective stakes and proposer selection. The overflow check made at registration is
inherited by every part of the set, so no sum over the validators that are not jailed
wraps; `SelectProposer` then spins the wheel of their stakes. -/
namespace L1Chain.Pos
open Wheel

def weigh (v : ValidatorInfo) : ℕ := v.stake.toNat

section
variable {vs : ValidatorSet} {jailed : Address → Bool} {xs : List ValidatorInfo}

theorem stakeTotal (xs : List ValidatorInfo) : stakeSum xs = total weigh xs := rfl

theorem stakeAdd {cum : UInt64} {v : ValidatorInfo} (fits : cum.toNat + weigh v < 2 ^ 64) :
    (cum + v.stake).toNat = cum.toNat + weigh v := by
  rw [UInt64.toNat_add]
  exact Nat.mod_eq_of_lt fits

theorem stakesAdd {cum : UInt64} (fits : cum.toNat + total weigh xs < 2 ^ 64) :
    (xs.foldl (fun sum v => sum + v.stake) cum).toNat = cum.toNat + total weigh xs := by
  induction xs generalizing cum with
  | nil => rfl
  | cons v xs ih =>
    rw [totalCons] at fits ⊢
    have step := @stakeAdd cum v (by omega)
    rw [List.foldl_cons,ih (by omega),step,Nat.add_assoc]

theorem totalSublist {ys : List ValidatorInfo} (sub : xs.Sublist ys) : total weigh xs ≤ total weigh ys :=
  (sub.map weigh).sum_le_sum (fun _ _ => Nat.zero_le _)

theorem sublistFits (sub : xs.Sublist vs.validators) : total weigh xs < 2 ^ 64 := by
  have less := totalSublist sub
  have whole := vs.total
  have small := vs.totalStake.toNat_lt
  rw [stakeTotal] at whole
  omega

theorem activeSub : (vs.active jailed).Sublist vs.validators := List.filter_sublist

theorem sumsFit (sub : xs.Sublist vs.validators) : (xs.foldl (fun sum v => sum + v.stake) (0 : UInt64)).toNat = stakeSum xs := by
  have fits := sublistFits sub
  rw [stakesAdd (by simpa using fits),UInt64.toNat_zero,Nat.zero_add,stakeTotal]

theorem effectiveTotal : (vs.effectiveStake jailed).2.toNat = stakeSum (vs.active jailed) := sumsFit activeSub

theorem walkSpins {cum : UInt64} {t : ℕ} (fits : cum.toNat + total weigh xs < 2 ^ 64) :
    walkStake (cum.toNat + t) cum xs = spin weigh t xs := by
  induction xs generalizing cum t with
  | nil => rfl
  | cons v xs ih =>
    rw [totalCons] at fits
    have step := @stakeAdd cum v (by omega)
    rw [walkStake,spin,step]
    by_cases inside : t < weigh v
    · rw [if_pos inside,if_pos (by omega)]
    · have past : cum.toNat + t = (cum + v.stake).toNat + (t - weigh v) := by omega
      rw [if_neg inside,if_neg (by omega),past,ih (by omega)]

def ValidatorSet.proposer (vs : ValidatorSet) (jailed : Address → Bool) (seed : Hash) : Except PosErr ValidatorInfo :=
  selectProposer (vs.effectiveStake jailed).1 (vs.effectiveStake jailed).2 seed

def ValidatorSet.residue (vs : ValidatorSet) (jailed : Address → Bool) (seed : Hash) : ℕ :=
  seed.toNat % (vs.effectiveStake jailed).2.toNat

theorem proposerSpins (someone : vs.active jailed ≠ []) (seed : Hash) :
    ∃ v, spin weigh (vs.residue jailed seed) (vs.active jailed) = some v ∧
      walkStake (vs.residue jailed seed) 0 (vs.active jailed) = some v ∧ vs.proposer jailed seed = .ok v := by
  have positive : 0 < total weigh (vs.active jailed) := by
    obtain ⟨v,rest,same⟩ := List.exists_cons_of_ne_nil someone
    have staked := vs.staked v (activeSub.subset (same ▸ List.mem_cons_self))
    have counts : 0 < weigh v := Nat.pos_of_ne_zero fun zero => staked (UInt64.toNat_inj.mp zero)
    rw [same,totalCons]
    omega
  have whole : (vs.effectiveStake jailed).2.toNat = total weigh (vs.active jailed) := effectiveTotal
  have inside : vs.residue jailed seed < total weigh (vs.active jailed) := by
    rw [ValidatorSet.residue,whole]
    exact Nat.mod_lt _ positive
  obtain ⟨v,lands⟩ := spinLands weigh inside
  have walked : walkStake (vs.residue jailed seed) 0 (vs.active jailed) = some v := by
    have spins := @walkSpins (vs.active jailed) 0 (vs.residue jailed seed) (by simpa using sublistFits activeSub)
    rw [UInt64.toNat_zero,Nat.zero_add] at spins
    exact spins.trans lands
  refine ⟨v,lands,walked,?_⟩
  have nonzero : (vs.effectiveStake jailed).2 ≠ 0 := by
    intro zero
    rw [← whole,zero] at positive
    exact absurd positive (Nat.lt_irrefl 0)
  show selectProposer (vs.active jailed) _ seed = _
  rw [selectProposer,if_neg nonzero,List.getLast?_eq_some_getLast someone]
  exact congrArg (fun found => Except.ok (Option.getD found _)) walked

theorem proposerIff (someone : vs.active jailed ≠ []) {seed : Hash} {v : ValidatorInfo} :
    vs.proposer jailed seed = .ok v ↔ spin weigh (vs.residue jailed seed) (vs.active jailed) = some v := by
  obtain ⟨w,lands,_,selected⟩ := proposerSpins someone seed
  rw [selected,lands]
  simp

theorem activeCount (v : ValidatorInfo) :
    (vs.active jailed).count v = if v ∈ vs.validators ∧ jailed v.address = false then 1 else 0 := by
  have single : (vs.active jailed).Nodup := (List.Nodup.of_map _ vs.distinct).sublist activeSub
  rw [single.count]
  simp [ValidatorSet.active]

theorem selectingResidues (someone : vs.active jailed ≠ []) (v : ValidatorInfo) :
    {r | r < (vs.effectiveStake jailed).2.toNat ∧ ∃ seed, vs.residue jailed seed = r ∧ vs.proposer jailed seed = .ok v} =
      ↑((Finset.range (total weigh (vs.active jailed))).filter (fun t => spin weigh t (vs.active jailed) = some v)) := by
  have whole : (vs.effectiveStake jailed).2.toNat = total weigh (vs.active jailed) := effectiveTotal
  ext r
  simp only [Set.mem_ofPred_eq,proposerIff someone,whole,Finset.coe_filter,Finset.mem_range]
  refine and_congr_right fun inside => ⟨?_,fun lands => ⟨BitVec.ofNat 256 r,?_⟩⟩
  · rintro ⟨seed,rfl,lands⟩
    exact lands
  · have fits := sublistFits (@activeSub vs jailed)
    have small : r % 2 ^ 256 = r := Nat.mod_eq_of_lt (by omega)
    have same : vs.residue jailed (BitVec.ofNat 256 r) = r := by
      rw [ValidatorSet.residue,whole,BitVec.toNat_ofNat,small,Nat.mod_eq_of_lt inside]
    rw [same]
    exact ⟨rfl,lands⟩

/- Proposer selection is stake-proportional: of the residues of a seed modulo the
effective total, as many select a validator as it has stake, and none selects one that
is jailed. No partial sum of the walk wraps, and the walk itself always ends at a
validator. -/
theorem proposersProportional (vs : ValidatorSet) (jailed : Address → Bool) (someone : vs.active jailed ≠ []) :
    (∀ v ∈ vs.validators, {r | r < (vs.effectiveStake jailed).2.toNat ∧
      ∃ seed, vs.residue jailed seed = r ∧ vs.proposer jailed seed = .ok v}.ncard =
        if jailed v.address then 0 else v.stake.toNat) ∧
    (∀ seed seed', vs.residue jailed seed = vs.residue jailed seed' →
      vs.proposer jailed seed = vs.proposer jailed seed') ∧
    (∀ walked, walked <+: (vs.effectiveStake jailed).1 →
      (walked.foldl (fun sum v => sum + v.stake) (0 : UInt64)).toNat = stakeSum walked) ∧
    ∀ seed, ∃ v, walkStake (vs.residue jailed seed) 0 (vs.effectiveStake jailed).1 = some v := by
  refine ⟨fun v member => ?_,fun seed seed' same => ?_,fun walked front => ?_,fun seed => ?_⟩
  · rw [selectingResidues someone v,Set.ncard_coe_finset,← Nat.count_eq_card_filter_range,spinCount,activeCount]
    by_cases out : jailed v.address
    · simp [out]
    · simp [out,member,weigh]
  · obtain ⟨w,lands,_,selected⟩ := proposerSpins someone seed
    rw [selected,eq_comm,proposerIff someone,← same]
    exact lands
  · exact sumsFit (front.sublist.trans activeSub)
  · obtain ⟨v,_,walked,_⟩ := proposerSpins someone seed
    exact ⟨v,walked⟩

end

def wideSet : ValidatorSet where
  validators := [⟨1,[1],0xC000000000000000⟩,⟨2,[2],0x3FFFFFFFFFFFFFF0⟩,⟨3,[3],0xF⟩]
  totalStake := 0xFFFFFFFFFFFFFFFF
  nonempty := by decide
  staked := by decide
  distinct := by decide
  distinctKeys := by decide
  total := by decide

theorem wideProportional : wideSet.active (fun a => a = 3) ≠ [] ∧
    {r | r < (wideSet.effectiveStake (fun a => a = 3)).2.toNat ∧
      ∃ seed, wideSet.residue (fun a => a = 3) seed = r ∧
        wideSet.proposer (fun a => a = 3) seed = .ok ⟨2,[2],0x3FFFFFFFFFFFFFF0⟩}.ncard = 0x3FFFFFFFFFFFFFF0 := by
  have someone : wideSet.active (fun a => a = 3) ≠ [] := by decide
  exact ⟨someone,(proposersProportional wideSet (fun a => a = 3) someone).1 _ (by decide)⟩

end L1Chain.Pos
