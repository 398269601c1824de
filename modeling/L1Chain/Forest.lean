import Mathlib.Data.List.Basic

/-! Stores of nodes that name their parent by key. `climb` follows parents from a
key to the root with bounded fuel; `Path` is the walk it stands for, newest node
first. A store grown one fresh node at a time, each under a stored parent, stays
`Rooted`: every key has a path, and no path is longer than the store. -/
namespace L1Chain.Forest

variable {K V : Type} {look : K → Option V} {root : K} {up : V → K}

def climb [DecidableEq K] (look : K → Option V) (root : K) (up : V → K) : Nat → K → Option (List V)
  | 0, _ => none
  | fuel+1, k =>
    match look k with
    | none => none
    | some v => if k = root then some [v] else (climb look root up fuel (up v)).map (v::·)

inductive Path (look : K → Option V) (root : K) (up : V → K) : K → List V → Prop where
  | root {v} (found : look root = some v) : Path look root up root [v]
  | step {k v p} (found : look k = some v) (below : k ≠ root) (rest : Path look root up (up v) p) :
      Path look root up k (v::p)

theorem climbPath [DecidableEq K] {fuel k p} (ok : climb look root up fuel k = some p) : Path look root up k p := by
  induction fuel generalizing k p with
  | zero => simp [climb] at ok
  | succ fuel ih =>
    simp only [climb] at ok
    cases found : look k with
    | none => simp [found] at ok
    | some v =>
      simp only [found] at ok
      split at ok
      · rename_i same
        subst same
        cases Option.some.inj ok
        exact .root found
      · rename_i below
        obtain ⟨rest,climbed,same⟩ := Option.map_eq_some_iff.mp ok
        subst same
        exact .step found below (ih climbed)

theorem pathClimb [DecidableEq K] {fuel k p} (path : Path look root up k p) (enough : p.length ≤ fuel) :
    climb look root up fuel k = some p := by
  induction path generalizing fuel with
  | root found =>
    cases fuel with
    | zero => simp at enough
    | succ fuel => simp [climb,found]
  | step found below rest ih =>
    cases fuel with
    | zero => simp at enough
    | succ fuel =>
      have fits := ih (Nat.le_of_succ_le_succ enough)
      simp [climb,found,below,fits]

theorem pathUnique {k p q} (first : Path look root up k p) (second : Path look root up k q) : p = q := by
  induction first generalizing q with
  | root found =>
    cases second with
    | root found' => rw [found] at found'; cases found'; rfl
    | step _ below _ => exact absurd rfl below
  | step found below rest ih =>
    cases second with
    | root _ => exact absurd rfl below
    | step found' _ rest' =>
      rw [found] at found'
      cases found'
      rw [ih rest']

theorem pathHead {k p} (path : Path look root up k p) : ∃ v q, p = v::q ∧ look k = some v := by
  cases path with
  | root found => exact ⟨_,_,rfl,found⟩
  | step found _ _ => exact ⟨_,_,rfl,found⟩

theorem pathStored {k p} (path : Path look root up k p) : ∀ v ∈ p, ∃ key, look key = some v := by
  induction path with
  | root found => simpa using ⟨_,found⟩
  | step found _ _ ih =>
    intro v member
    rcases List.mem_cons.mp member with rfl | older
    · exact ⟨_,found⟩
    · exact ih v older

theorem pathMember {k p v} (path : Path look root up k p) (member : v ∈ p) :
    ∃ key q, look key = some v ∧ Path look root up key q ∧ q.length ≤ p.length := by
  induction path with
  | root found =>
    rw [List.mem_singleton.mp member]
    exact ⟨_,_,found,.root found,Nat.le_refl _⟩
  | @step k w rest found below older ih =>
    rcases List.mem_cons.mp member with rfl | later
    · exact ⟨k,_,found,.step found below older,Nat.le_refl _⟩
    · obtain ⟨key,q,stored,path,fits⟩ := ih later
      exact ⟨key,q,stored,path,Nat.le_succ_of_le fits⟩

theorem pathSuffix {k p v q} (path : Path look root up k p) (suffix : v::q <:+ p) : ∃ key, Path look root up key (v::q) := by
  induction path with
  | root found =>
    rcases List.suffix_cons_iff.mp suffix with same | none
    · rw [same]
      exact ⟨_,.root found⟩
    · exact absurd (List.suffix_nil.mp none) (List.cons_ne_nil _ _)
  | step found below rest ih =>
    rcases List.suffix_cons_iff.mp suffix with same | within
    · rw [same]
      exact ⟨_,.step found below rest⟩
    · exact ih within

theorem pathOnce {k p v} (path : Path look root up k (v::p)) (keyed : ∀ key, look key = some v → key = k) :
    v ∉ p := by
  intro member
  cases path with
  | root _ => contradiction
  | step found below rest =>
    obtain ⟨key,q,stored,again,fits⟩ := pathMember rest member
    rw [keyed key stored] at again
    have same := congrArg List.length (pathUnique again (.step found below rest))
    simp only [List.length_cons] at same
    omega

theorem pathSub {look' : K → Option V} {k p} (path : Path look root up k p)
    (kept : ∀ k v, look k = some v → v ∈ p → look' k = some v) : Path look' root up k p := by
  induction path with
  | root found => exact .root (kept _ _ found (List.mem_singleton_self _))
  | step found below _ ih =>
    exact .step (kept _ _ found (List.mem_cons_self ..)) below
      (ih (fun k v look member => kept k v look (List.mem_cons_of_mem _ member)))

theorem pathMono {look' : K → Option V} {k p} (grows : ∀ k v, look k = some v → look' k = some v)
    (path : Path look root up k p) : Path look' root up k p := by
  induction path with
  | root found => exact .root (grows _ _ found)
  | step found below _ ih => exact .step (grows _ _ found) below ih

def Rooted (look : K → Option V) (root : K) (up : V → K) (size : Nat) : Prop :=
  ∀ k v, look k = some v → ∃ p, Path look root up k p ∧ p.length ≤ size

theorem rootedClimb [DecidableEq K] {size k v} (rooted : Rooted look root up size) (found : look k = some v) :
    ∃ p, climb look root up size k = some p ∧ Path look root up k p := by
  obtain ⟨p,path,fits⟩ := rooted k v found
  exact ⟨p,pathClimb path fits,path⟩

theorem rootedSingle [DecidableEq K] {v : V} : Rooted (fun k => if k = root then some v else none) root up 1 := by
  intro k w found
  simp only at found
  split at found <;> try contradiction
  rename_i same
  subst same
  exact ⟨[v],.root (by simp),by simp⟩

theorem rootedGrow {look' : K → Option V} {size size' : Nat} {k : K} {v : V}
    (rooted : Rooted look root up size) (room : size < size') (notRoot : k ≠ root)
    (grows : ∀ x w, look x = some w → look' x = some w)
    (only : ∀ x w, look' x = some w → look x = some w ∨ (x = k ∧ w = v))
    (added : look' k = some v) (parent : ∃ w, look (up v) = some w) :
    Rooted look' root up size' := by
  intro x w found
  rcases only x w found with old | ⟨same,new⟩
  · obtain ⟨p,path,fits⟩ := rooted x w old
    exact ⟨p,pathMono grows path,by omega⟩
  · subst same new
    obtain ⟨u,stored⟩ := parent
    obtain ⟨p,path,fits⟩ := rooted _ u stored
    exact ⟨w::p,.step added notRoot (pathMono grows path),by simp only [List.length_cons]; omega⟩

theorem pathSplit {k p} (path : Path look root up k p) (below : k ≠ root) :
    ∃ v rest, p = v::rest ∧ look k = some v ∧ Path look root up (up v) rest := by
  cases path with
  | root _ => exact absurd rfl below
  | step found _ rest => exact ⟨_,_,rfl,found,rest⟩

theorem pathTail {k v p} (path : Path look root up k (v::p)) (below : p ≠ []) :
    look k = some v ∧ k ≠ root ∧ Path look root up (up v) p := by
  cases path with
  | root _ => contradiction
  | step found notRoot rest => exact ⟨found,notRoot,rest⟩

theorem pathRoot {k p} (path : Path look root up k p) : ∃ v, p.getLast? = some v ∧ look root = some v := by
  induction path with
  | root found => exact ⟨_,rfl,found⟩
  | step _ _ rest ih =>
    obtain ⟨v,last,found⟩ := ih
    refine ⟨v,?_,found⟩
    rw [List.getLast?_cons,last]
    rfl

end L1Chain.Forest
