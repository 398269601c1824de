import Mathlib.Algebra.BigOperators.Group.List.Basic
import Mathlib.Data.List.Induction

/-! Runs of equal keys. A list of keyed amounts is read once from the front; an entry whose
key is that of the entry before it is added to it. On a list sorted by its keys this gives
each key once, in order, with the sum of all its amounts. -/
namespace L1Chain.KeyRuns

variable {K M : Type} [DecidableEq K]

def extend [Add M] (runs : List (K × M)) (x : K × M) : List (K × M) :=
  match runs.getLast? with
  | some last => if last.1 = x.1 then runs.dropLast ++ [(last.1,last.2 + x.2)] else runs ++ [x]
  | none => runs ++ [x]

def ofList [Add M] (xs : List (K × M)) : List (K × M) := xs.foldl extend []

variable [AddCommMonoid M]

def total (xs : List (K × M)) (k : K) : M := ((xs.filter (·.1 = k)).map (·.2)).sum

structure Exact (lt : K → K → Prop) (xs runs : List (K × M)) : Prop where
  sorted : runs.Pairwise (fun x y => lt x.1 y.1)
  keys : ∀ k, k ∈ runs.map (·.1) ↔ k ∈ xs.map (·.1)
  totals : ∀ x ∈ runs, x.2 = total xs x.1

section
variable {lt : K → K → Prop} {xs runs front : List (K × M)} {x last : K × M}

theorem extendSame (same : last.1 = x.1) : extend (front ++ [last]) x = front ++ [(last.1,last.2 + x.2)] := by
  simp [extend,same]

theorem extendOther (other : last.1 ≠ x.1) : extend (front ++ [last]) x = front ++ [last] ++ [x] := by
  simp [extend,other]

theorem totalAppend (k : K) : total (xs ++ [x]) k = total xs k + if x.1 = k then x.2 else 0 := by
  rw [total,List.filter_append,List.map_append,List.sum_append,total]
  split <;> simp_all

theorem totalAbsent {k : K} (absent : k ∉ xs.map (·.1)) : total xs k = 0 := by
  have none : xs.filter (·.1 = k) = [] := by
    refine List.filter_eq_nil_iff.mpr fun y member own => absent ?_
    exact List.mem_map.mpr ⟨y,member,of_decide_eq_true own⟩
  rw [total,none]
  rfl

theorem Exact.same (grouped : Exact lt xs (front ++ [last])) (irrefl : ∀ k, ¬ lt k k) (same : last.1 = x.1) :
    Exact lt (xs ++ [x]) (front ++ [(last.1,last.2 + x.2)]) := by
  have sorted := List.pairwise_append.mp grouped.sorted
  refine ⟨?_,fun k => ?_,fun y member => ?_⟩
  · refine List.pairwise_append.mpr ⟨sorted.1,List.pairwise_singleton _ _,fun y inFront z own => ?_⟩
    rw [List.mem_singleton.mp own]
    exact sorted.2.2 y inFront last (List.mem_singleton_self _)
  · have before := grouped.keys k
    simp only [List.map_append,List.mem_append,List.map_cons,List.map_nil,List.mem_singleton] at before ⊢
    rw [← before,← same]
    tauto
  · rw [totalAppend]
    rcases List.mem_append.mp member with inFront | own
    · have apart : x.1 ≠ y.1 := by
        intro own
        have before := sorted.2.2 y inFront last (List.mem_singleton_self _)
        rw [same,own] at before
        exact irrefl _ before
      rw [if_neg apart,add_zero]
      exact grouped.totals y (List.mem_append_left _ inFront)
    · rw [List.mem_singleton.mp own,if_pos same.symm]
      dsimp only
      rw [grouped.totals last (List.mem_append_right _ (List.mem_singleton_self _))]

theorem Exact.next (grouped : Exact lt xs runs) (irrefl : ∀ k, ¬ lt k k) (after : ∀ y ∈ runs, lt y.1 x.1) :
    Exact lt (xs ++ [x]) (runs ++ [x]) := by
  have fresh : ∀ y ∈ runs, y.1 ≠ x.1 := by
    intro y member own
    have before := after y member
    rw [own] at before
    exact irrefl _ before
  have absent : x.1 ∉ xs.map (·.1) := by
    rw [← grouped.keys]
    intro member
    obtain ⟨y,inRuns,own⟩ := List.mem_map.mp member
    exact fresh y inRuns own
  refine ⟨List.pairwise_append.mpr ⟨grouped.sorted,List.pairwise_singleton _ _,fun y inRuns z own => ?_⟩,fun k => ?_,
    fun y member => ?_⟩
  · rw [List.mem_singleton.mp own]
    exact after y inRuns
  · rw [List.map_append,List.mem_append,List.map_append,List.mem_append,grouped.keys]
  · rw [totalAppend]
    rcases List.mem_append.mp member with old | own
    · rw [if_neg (fresh y old).symm,add_zero]
      exact grouped.totals y old
    · rw [List.mem_singleton.mp own,if_pos rfl,totalAbsent absent,zero_add]

theorem ofListSnoc (xs : List (K × M)) (x : K × M) : ofList (xs ++ [x]) = extend (ofList xs) x := by
  simp only [ofList,List.foldl_append,List.foldl_cons,List.foldl_nil]

theorem runsExact (irrefl : ∀ k, ¬ lt k k) (trans : ∀ a b c, lt a b → lt b c → lt a c)
    (sorted : xs.Pairwise (fun x y => x.1 = y.1 ∨ lt x.1 y.1)) : Exact lt xs (ofList xs) := by
  induction xs using List.reverseRecOn with
  | nil => exact ⟨List.Pairwise.nil,fun _ => Iff.rfl,fun _ member => absurd member List.not_mem_nil⟩
  | append_singleton xs x ih =>
    obtain ⟨before,_,cross⟩ := List.pairwise_append.mp sorted
    have grouped := ih before
    have below : ∀ y ∈ ofList xs, y.1 = x.1 ∨ lt y.1 x.1 := by
      intro y member
      obtain ⟨z,inside,same⟩ := List.mem_map.mp ((grouped.keys y.1).mp (List.mem_map_of_mem member))
      rw [← same]
      exact cross z inside x (List.mem_singleton_self _)
    rw [ofListSnoc]
    rcases List.eq_nil_or_concat (ofList xs) with none | ⟨front,last,shape⟩
    · rw [none] at grouped ⊢
      exact grouped.next irrefl fun y member => absurd member List.not_mem_nil
    · rw [List.concat_eq_append] at shape
      rw [shape] at grouped below ⊢
      by_cases same : last.1 = x.1
      · rw [extendSame same]
        exact grouped.same irrefl same
      · rw [extendOther same]
        have late : lt last.1 x.1 :=
          (below last (List.mem_append_right _ (List.mem_singleton_self _))).resolve_left same
        refine grouped.next irrefl fun y member => ?_
        rcases List.mem_append.mp member with inFront | own
        · have first := (List.pairwise_append.mp grouped.sorted).2.2 y inFront last (List.mem_singleton_self _)
          exact trans _ _ _ first late
        · rw [List.mem_singleton.mp own]
          exact late

end
end L1Chain.KeyRuns
