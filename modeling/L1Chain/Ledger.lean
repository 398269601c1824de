import Mathlib.Algebra.BigOperators.Fin
import Mathlib.Algebra.Order.BigOperators.Group.Finset
import Mathlib.Data.FinEnum

/-! Totals of a ledger: a function to ℕ over a finite type of keys. Two ledgers
that agree off a set of keys differ in total by what they hold on that set; a move
between two keys keeps the total. -/
namespace L1Chain.Ledger

section
variable {α : Type} [Fintype α] {f g : α → ℕ} {a b : α}

def total (f : α → ℕ) : ℕ := ∑ a, f a

theorem leTotal (f : α → ℕ) (a : α) : f a ≤ total f :=
  Finset.single_le_sum (fun _ _ => Nat.zero_le _) (Finset.mem_univ a)

variable [DecidableEq α]

theorem totalOff (s : Finset α) (same : ∀ a, a ∉ s → f a = g a) :
    total f + ∑ a ∈ s, g a = total g + ∑ a ∈ s, f a := by
  have rest : ∑ a ∈ sᶜ, f a = ∑ a ∈ sᶜ, g a :=
    Finset.sum_congr rfl (fun a outside => same a (Finset.mem_compl.mp outside))
  have left := Finset.sum_add_sum_compl s f
  have right := Finset.sum_add_sum_compl s g
  unfold total
  omega

theorem totalAt (same : ∀ x, x ≠ a → f x = g x) : total f + g a = total g + f a := by
  have off := totalOff {a} (fun x outside => same x (fun eq => outside (by simp [eq])))
  simpa using off

theorem pairLeTotal (f : α → ℕ) (ne : a ≠ b) : f a + f b ≤ total f := by
  have pair : ∑ x ∈ {a,b}, f x ≤ total f := Finset.sum_le_sum_of_subset (Finset.subset_univ _)
  rwa [Finset.sum_pair ne] at pair

theorem totalMove (ne : a ≠ b) (same : ∀ x, x ≠ a → x ≠ b → f x = g x) (kept : f a + f b = g a + g b) :
    total f = total g := by
  have off := totalOff {a,b} (fun x outside => same x (fun eq => outside (by simp [eq]))
    (fun eq => outside (by simp [eq])))
  rw [Finset.sum_pair ne,Finset.sum_pair ne] at off
  omega

end
end L1Chain.Ledger
