import Mathlib.Data.Set.Insert
import Mathlib.Logic.Function.Basic

/-! Tables that keep the first value seen under a key. Each key has an owner, and an owner
under whose key a second value is seen is marked; what a marked owner shows is no longer
kept. The owners who clash are then marked, whatever the order of what was seen. -/
namespace L1Chain.FirstSeen

variable {K V A : Type} {owner : K → A} {table : K → Option V} {seen : Set (K × V)} {bad : A → Prop}
  {k : K} {v w : V} {a : A}

def Clash (owner : K → A) (seen : Set (K × V)) (a : A) : Prop :=
  ∃ k v w, owner k = a ∧ (k,v) ∈ seen ∧ (k,w) ∈ seen ∧ v ≠ w

structure Tracks (owner : K → A) (table : K → Option V) (seen : Set (K × V)) (bad : A → Prop) : Prop where
  recorded : ∀ k v, table k = some v → (k,v) ∈ seen
  kept : ∀ k v, (k,v) ∈ seen → bad (owner k) ∨ table k = some v

theorem Clash.mono {more : Set (K × V)} (grows : seen ⊆ more) (clash : Clash owner seen a) : Clash owner more a := by
  obtain ⟨k,v,w,own,first,second,apart⟩ := clash
  exact ⟨k,v,w,own,grows first,grows second,apart⟩

theorem Tracks.marked (tracks : Tracks owner table seen bad) (clash : Clash owner seen a) : bad a := by
  obtain ⟨k,v,w,rfl,first,second,apart⟩ := clash
  rcases tracks.kept k v first with marked | kept
  · exact marked
  · rcases tracks.kept k w second with marked | kept'
    · exact marked
    · exact absurd (Option.some.inj (kept.symm.trans kept')) apart

theorem Tracks.worse {bad' : A → Prop} (tracks : Tracks owner table seen bad) (worse : ∀ a, bad a → bad' a) :
    Tracks owner table seen bad' :=
  ⟨tracks.recorded,fun k v member => (tracks.kept k v member).imp_left (worse _)⟩

theorem Tracks.known (tracks : Tracks owner table seen bad) (held : bad (owner k) ∨ table k = some v) :
    Tracks owner table (insert (k,v) seen) bad := by
  refine ⟨fun l u found => Set.mem_insert_of_mem _ (tracks.recorded l u found),fun l u member => ?_⟩
  rcases Set.mem_insert_iff.mp member with same | old
  · cases same
    exact held
  · exact tracks.kept l u old

theorem Tracks.first [DecidableEq K] (tracks : Tracks owner table seen bad) (empty : table k = none) :
    Tracks owner (Function.update table k (some v)) (insert (k,v) seen) bad := by
  constructor
  · intro l u found
    rw [Function.update_apply] at found
    split at found
    · rename_i same
      cases Option.some.inj found
      rw [same]
      exact Set.mem_insert _ _
    · exact Set.mem_insert_of_mem _ (tracks.recorded l u found)
  · intro l u member
    rw [Function.update_apply]
    rcases Set.mem_insert_iff.mp member with same | old
    · cases same
      exact .inr (if_pos rfl)
    · refine (tracks.kept l u old).imp_right (fun found => ?_)
      have other : l ≠ k := by
        intro same
        rw [same,empty] at found
        cases found
      rw [if_neg other]
      exact found

theorem Tracks.clash (tracks : Tracks owner table seen bad) (found : table k = some w) (other : w ≠ v) :
    Clash owner (insert (k,v) seen) (owner k) :=
  ⟨k,w,v,rfl,Set.mem_insert_of_mem _ (tracks.recorded k w found),Set.mem_insert _ _,other⟩

section
variable {L W : Type} {other : L → A} {table' : L → Option W} {seen' : Set (L × W)} {bad' : A → Prop}

structure Pair (owner : K → A) (table : K → Option V) (seen : Set (K × V)) (other : L → A) (table' : L → Option W)
    (seen' : Set (L × W)) (bad : A → Prop) : Prop where
  left : Tracks owner table seen bad
  right : Tracks other table' seen' bad
  evidence : ∀ a, bad a → Clash owner seen a ∨ Clash other seen' a

theorem Pair.swap (pair : Pair owner table seen other table' seen' bad) :
    Pair other table' seen' owner table seen bad := ⟨pair.right,pair.left,fun a marked => (pair.evidence a marked).symm⟩

theorem Pair.marked (pair : Pair owner table seen other table' seen' bad) :
    bad a ↔ Clash owner seen a ∨ Clash other seen' a :=
  ⟨pair.evidence a,fun clash => clash.elim pair.left.marked pair.right.marked⟩

theorem Pair.known (pair : Pair owner table seen other table' seen' bad) (held : bad (owner k) ∨ table k = some v) :
    Pair owner table (insert (k,v) seen) other table' seen' bad :=
  ⟨pair.left.known held,pair.right,fun a marked =>
    (pair.evidence a marked).imp_left (Clash.mono (Set.subset_insert _ _))⟩

theorem Pair.first [DecidableEq K] (pair : Pair owner table seen other table' seen' bad) (empty : table k = none) :
    Pair owner (Function.update table k (some v)) (insert (k,v) seen) other table' seen' bad :=
  ⟨pair.left.first empty,pair.right,fun a marked =>
    (pair.evidence a marked).imp_left (Clash.mono (Set.subset_insert _ _))⟩

theorem Pair.second (pair : Pair owner table seen other table' seen' bad) (found : table k = some w) (apart : w ≠ v)
    (marks : ∀ a, bad' a ↔ a = owner k ∨ bad a) : Pair owner table (insert (k,v) seen) other table' seen' bad' := by
  have worse : ∀ a, bad a → bad' a := fun a marked => (marks a).mpr (.inr marked)
  refine ⟨(pair.left.worse worse).known (.inl ((marks _).mpr (.inl rfl))),pair.right.worse worse,fun a marked => ?_⟩
  rcases (marks a).mp marked with rfl | old
  · exact .inl (pair.left.clash found apart)
  · exact (pair.evidence a old).imp_left (Clash.mono (Set.subset_insert _ _))

end
end L1Chain.FirstSeen
