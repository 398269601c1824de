import Mathlib.Algebra.BigOperators.Group.Finset.Basic
import Mathlib.Algebra.Order.BigOperators.Group.Finset

/-! Weighted quorums over finite sets. Votes are weighed by an arbitrary function;
two sets that together outweigh their ground set share a member. A two-thirds
quorum among the members still admitted leaves a known share of its weight with
the correct ones, whichever of the others were excluded. -/
namespace L1Chain.Quorum

variable {α : Type} (w : α → Nat)

def weight (s : Finset α) : Nat := ∑ v ∈ s, w v

theorem weightMono {s t : Finset α} (sub : s ⊆ t) : weight w s ≤ weight w t := Finset.sum_le_sum_of_subset sub

variable [DecidableEq α]

theorem weightSplit (s t : Finset α) : weight w (s ∩ t) + weight w (s \ t) = weight w s := by
  unfold weight
  rw [add_comm,← Finset.sdiff_inter_self_left,Finset.sum_sdiff Finset.inter_subset_left]

theorem overlap {s t u : Finset α} (left : s ⊆ u) (right : t ⊆ u) (heavy : weight w u < weight w s + weight w t) :
    ∃ v, v ∈ s ∧ v ∈ t := by
  by_contra apart
  simp only [not_exists,not_and] at apart
  have disjoint : Disjoint s t := Finset.disjoint_left.mpr apart
  have sum : weight w (s ∪ t) = weight w s + weight w t := Finset.sum_union disjoint
  have bound := weightMono w (Finset.union_subset left right)
  omega

theorem correctShare {voters admitted correct all : Finset α} (voted : voters ⊆ admitted) (kept : correct ⊆ admitted)
    (within : admitted ⊆ all) (quorum : 2 * weight w admitted ≤ 3 * weight w voters) :
    2 * weight w correct ≤ 3 * weight w (voters ∩ correct) + weight w (all \ correct) := by
  have votes := weightSplit w voters correct
  have split := weightSplit w admitted correct
  have own : admitted ∩ correct = correct := Finset.inter_eq_right.mpr kept
  have others : weight w (voters \ correct) ≤ weight w (admitted \ correct) :=
    weightMono w (Finset.sdiff_subset_sdiff voted (Finset.Subset.refl _))
  have rest : weight w (admitted \ correct) ≤ weight w (all \ correct) :=
    weightMono w (Finset.sdiff_subset_sdiff within (Finset.Subset.refl _))
  rw [own] at split
  omega

theorem sharesMeet {s t correct all : Finset α} (left : s ⊆ correct) (right : t ⊆ correct) (within : correct ⊆ all)
    (first : 2 * weight w correct ≤ 3 * weight w s + weight w (all \ correct))
    (second : 2 * weight w correct ≤ 3 * weight w t + weight w (all \ correct))
    (minority : 3 * weight w (all \ correct) < weight w all) : ∃ v, v ∈ s ∧ v ∈ t := by
  have split := weightSplit w all correct
  rw [Finset.inter_eq_right.mpr within] at split
  exact overlap w left right (by omega)

/- Two quorums, each of two thirds of what is left once some are excluded: who is in both, together
with the excluded, weighs at least a third. -/
theorem quorumsConvict {s t j k all : Finset α} (left : s ⊆ all) (right : t ⊆ all) (out : j ⊆ all) (out' : k ⊆ all)
    (apart : Disjoint s j) (apart' : Disjoint t k) (first : 2 * weight w (all \ j) ≤ 3 * weight w s)
    (second : 2 * weight w (all \ k) ≤ 3 * weight w t) : weight w all ≤ 3 * weight w (s ∩ t ∪ (j ∪ k)) := by
  have voters : weight w (s ∪ t) + weight w (s ∩ t) = weight w s + weight w t := Finset.sum_union_inter
  have excluded : weight w (j ∪ k) + weight w (j ∩ k) = weight w j + weight w k := Finset.sum_union_inter
  have whole : weight w (all \ j) + weight w j = weight w all := Finset.sum_sdiff out
  have whole' : weight w (all \ k) + weight w k = weight w all := Finset.sum_sdiff out'
  have both : weight w (all \ (j ∩ k)) + weight w (j ∩ k) = weight w all :=
    Finset.sum_sdiff (Finset.inter_subset_left.trans out)
  have inside : weight w (s ∪ t) ≤ weight w (all \ (j ∩ k)) := by
    refine weightMono w (Finset.union_subset (fun x member => ?_) (fun x member => ?_))
    · exact Finset.mem_sdiff.mpr ⟨left member,fun cut => Finset.disjoint_left.mp apart member (Finset.mem_inter.mp cut).1⟩
    · exact Finset.mem_sdiff.mpr ⟨right member,fun cut => Finset.disjoint_left.mp apart' member (Finset.mem_inter.mp cut).2⟩
  have separate : Disjoint (s ∩ t) (j ∪ k) := by
    refine Finset.disjoint_left.mpr fun x member cut => ?_
    obtain ⟨inS,inT⟩ := Finset.mem_inter.mp member
    rcases Finset.mem_union.mp cut with inJ | inK
    · exact Finset.disjoint_left.mp apart inS inJ
    · exact Finset.disjoint_left.mp apart' inT inK
  have sum : weight w (s ∩ t ∪ (j ∪ k)) = weight w (s ∩ t) + weight w (j ∪ k) := Finset.sum_union separate
  omega

end L1Chain.Quorum
