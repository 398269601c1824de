import Mathlib.Algebra.BigOperators.Group.List.Basic
import Mathlib.Algebra.GroupWithZero.Nat
import Mathlib.Data.Nat.Count

/-! A wheel with one segment for each entry of a list, as wide as the entry weighs. A
point of the wheel is a number below the total weight; of all of them, exactly as many
as an entry weighs lie in its segment. -/
namespace L1Chain.Wheel

variable {α : Type} (w : α → ℕ)

def total (xs : List α) : ℕ := (xs.map w).sum

def spin : ℕ → List α → Option α
  | _, [] => none
  | t, x::xs => if t < w x then some x else spin (t - w x) xs

@[simp] theorem totalNil : total w [] = 0 := rfl

@[simp] theorem totalCons (x : α) (xs : List α) : total w (x::xs) = w x + total w xs := by
  rw [total,List.map_cons,List.sum_cons]
  rfl

theorem spinPast (x : α) (xs : List α) (t : ℕ) : spin w (w x + t) (x::xs) = spin w t xs := by
  rw [spin,if_neg (by omega),Nat.add_sub_cancel_left]

theorem spinLands {t : ℕ} {xs : List α} (inside : t < total w xs) : ∃ x, spin w t xs = some x := by
  induction xs generalizing t with
  | nil => exact absurd inside (Nat.not_lt_zero _)
  | cons x xs ih =>
    rw [totalCons] at inside
    by_cases first : t < w x
    · exact ⟨x,if_pos first⟩
    · rw [spin,if_neg first]
      exact ih (by omega)

theorem spinCount [DecidableEq α] (x : α) (xs : List α) :
    Nat.count (fun t => spin w t xs = some x) (total w xs) = w x * xs.count x := by
  induction xs with
  | nil => simp
  | cons y ys ih =>
    have first : Nat.count (fun t => spin w t (y::ys) = some x) (w y) = if y = x then w y else 0 := by
      have land : ∀ t < w y, (spin w t (y::ys) = some x ↔ y = x) := fun t inside => by simp [spin,inside]
      split
      · rename_i same
        exact Nat.count_iff_forall.mpr fun t inside => (land t inside).mpr same
      · rename_i other
        exact Nat.count_iff_forall_not.mpr fun t inside => fun found => other ((land t inside).mp found)
    rw [totalCons,Nat.count_add,first,List.count_cons]
    simp only [spinPast,ih,beq_iff_eq]
    split
    · rename_i same
      rw [same,Nat.mul_add,Nat.mul_one,Nat.add_comm]
    · rw [Nat.zero_add,Nat.add_zero]

end L1Chain.Wheel
