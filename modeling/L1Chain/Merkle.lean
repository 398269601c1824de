import Mathlib.Data.List.Nodup
import Mathlib.Data.Set.Function

/-! Hash trees over a list of leaves in which an odd level repeats its last node. The
same rounds are run on hashes and on trees, and hashing commutes with them. Repeating
makes different lists share a root, but never two lists without repetition: a level
that raises to the same level is the same, and trees of different height differ. -/
namespace Merkle

section
variable {α β : Type} {join : α → α → α} {fuel : Nat} {level : List α}

def raise (join : α → α → α) : List α → List α
  | [] => []
  | [a] => [join a a]
  | a::b::rest => join a b::raise join rest

def rounds (join : α → α → α) : Nat → List α → Option α
  | 0, level => level.head?
  | fuel+1, level => if level.length ≤ 1 then level.head? else rounds join fuel (raise join level)

theorem raiseLength (join : α → α → α) (level : List α) : (raise join level).length = (level.length + 1) / 2 := by
  fun_induction raise join level with
  | case1 => simp
  | case2 a => simp
  | case3 a b rest ih =>
    simp only [List.length_cons,ih]
    omega

theorem raiseMember {t : α} (member : t ∈ raise join level) : ∃ x ∈ level, ∃ y ∈ level, t = join x y := by
  fun_induction raise join level with
  | case1 => cases member
  | case2 a => exact ⟨a,by simp,a,by simp,List.mem_singleton.mp member⟩
  | case3 a b rest ih =>
    rcases List.mem_cons.mp member with same | later
    · exact ⟨a,by simp,b,by simp,same⟩
    · obtain ⟨x,inX,y,inY,same⟩ := ih later
      exact ⟨x,by simp [inX],y,by simp [inY],same⟩

theorem raiseKeeps {P : α → Prop} (joins : ∀ x y, P x → P y → P (join x y)) (all : ∀ x ∈ level, P x) :
    ∀ x ∈ raise join level, P x := by
  intro t member
  obtain ⟨x,inX,y,inY,rfl⟩ := raiseMember member
  exact joins x y (all x inX) (all y inY)

theorem raiseMap {join' : β → β → β} {f : α → β} (commutes : ∀ x y, f (join x y) = join' (f x) (f y)) (level : List α) :
    raise join' (level.map f) = (raise join level).map f := by
  fun_induction raise join level with
  | case1 => rfl
  | case2 a => simp [raise,commutes]
  | case3 a b rest ih => simp [raise,commutes,ih]

theorem roundsMap {join' : β → β → β} {f : α → β} (commutes : ∀ x y, f (join x y) = join' (f x) (f y)) :
    rounds join' fuel (level.map f) = (rounds join fuel level).map f := by
  induction fuel generalizing level with
  | zero => exact List.head?_map ..
  | succ fuel ih =>
    simp only [rounds,List.length_map,raiseMap commutes,ih]
    split
    · exact List.head?_map ..
    · rfl

theorem roundsShort (short : level.length ≤ 1) : rounds join fuel level = level.head? := by
  cases fuel with
  | zero => rfl
  | succ fuel => exact if_pos short

theorem roundsKeeps {P : α → Prop} (joins : ∀ x y, P x → P y → P (join x y)) (all : ∀ x ∈ level, P x) {root : α}
    (found : rounds join fuel level = some root) : P root := by
  induction fuel generalizing level with
  | zero => exact all root (List.mem_of_head? found)
  | succ fuel ih =>
    rw [rounds] at found
    split at found
    · exact all root (List.mem_of_head? found)
    · exact ih (raiseKeeps joins all) found

theorem roundsFound (some' : level ≠ []) : ∃ root, rounds join fuel level = some root := by
  induction fuel generalizing level with
  | zero => exact ⟨_,List.head?_eq_some_head some'⟩
  | succ fuel ih =>
    rw [rounds]
    split
    · exact ⟨_,List.head?_eq_some_head some'⟩
    · refine ih (fun none => ?_)
      have size := raiseLength join level
      rw [none,List.length_nil] at size
      omega

end

inductive Tree (α : Type) where
  | leaf (a : α)
  | node (left right : Tree α)
  deriving DecidableEq

section
variable {α : Type} {level other : List (Tree α)} {s t : Tree α} {k m fuel fuel' : Nat}

def Tree.Perfect : Nat → Tree α → Prop
  | 0, .leaf _ => True
  | k+1, .node left right => left.Perfect k ∧ right.Perfect k
  | _, _ => False

theorem perfectOnce (first : t.Perfect k) (second : t.Perfect m) : k = m := by
  induction t generalizing k m with
  | leaf a =>
    cases k with
    | zero =>
      cases m with
      | zero => rfl
      | succ m => cases second
    | succ k => cases first
  | node left right ihLeft _ =>
    cases k with
    | zero => cases first
    | succ k =>
      cases m with
      | zero => cases second
      | succ m => rw [ihLeft first.1 second.1]

theorem raisePerfect (perfect : ∀ x ∈ level, x.Perfect k) : ∀ x ∈ raise .node level, x.Perfect (k + 1) := by
  intro t member
  obtain ⟨x,inX,y,inY,rfl⟩ := raiseMember member
  exact ⟨perfect x inX,perfect y inY⟩

theorem raiseNodup (once : level.Nodup) : (raise .node level).Nodup := by
  fun_induction raise Tree.node level with
  | case1 => exact once
  | case2 a => exact List.nodup_singleton _
  | case3 a b rest ih =>
    obtain ⟨first,later⟩ := List.nodup_cons.mp once
    refine List.nodup_cons.mpr ⟨fun member => ?_,ih (List.nodup_cons.mp later).2⟩
    obtain ⟨x,inside,y,_,same⟩ := raiseMember member
    cases same
    exact first (List.mem_cons_of_mem _ inside)

theorem raiseInjective (once : level.Nodup) (once' : other.Nodup) (same : raise .node level = raise .node other) :
    level = other := by
  induction level using raise.induct generalizing other with
  | case1 =>
    match other with
    | [] => rfl
    | [_] | _::_::_ => cases same
  | case2 a =>
    match other with
    | [] => cases same
    | [c] =>
      cases same
      rfl
    | c::d::rest =>
      obtain ⟨pair,_⟩ := List.cons.inj same
      cases pair
      exact absurd (List.mem_cons_self ..) (List.nodup_cons.mp once').1
  | case3 a b rest ih =>
    match other with
    | [] => cases same
    | [c] =>
      obtain ⟨pair,_⟩ := List.cons.inj same
      cases pair
      exact absurd (List.mem_cons_self ..) (List.nodup_cons.mp once).1
    | c::d::more =>
      obtain ⟨pair,rests⟩ := List.cons.inj same
      cases pair
      rw [ih once.of_cons.of_cons once'.of_cons.of_cons rests]

theorem roundsPerfect (perfect : ∀ x ∈ level, x.Perfect k) (enough : level.length ≤ fuel + 1)
    (found : rounds .node fuel level = some t) : ∃ m, t.Perfect m ∧ k ≤ m ∧ (m = k ↔ level.length ≤ 1) := by
  induction fuel generalizing level k with
  | zero => exact ⟨k,perfect t (List.mem_of_head? found),Nat.le_refl k,by simpa using enough⟩
  | succ fuel ih =>
    rw [rounds] at found
    split at found
    · rename_i short
      exact ⟨k,perfect t (List.mem_of_head? found),Nat.le_refl k,by simpa using short⟩
    · have shorter : (raise Tree.node level).length ≤ fuel + 1 := by
        rw [raiseLength]
        omega
      obtain ⟨m,tall,above,_⟩ := ih (raisePerfect perfect) shorter found
      exact ⟨m,tall,by omega,by omega⟩

theorem roundsSingle (short : level.length ≤ 1) (found : rounds .node fuel level = some t) : level = [t] := by
  rw [roundsShort short] at found
  match level with
  | [] => cases found
  | [x] => rw [Option.some.inj found]
  | _::_::_ => simp at short

theorem roundsInjective (once : level.Nodup) (once' : other.Nodup) (perfect : ∀ x ∈ level, x.Perfect k)
    (perfect' : ∀ x ∈ other, x.Perfect k) (enough : level.length ≤ fuel + 1) (enough' : other.length ≤ fuel' + 1)
    (found : rounds .node fuel level = some t) (found' : rounds .node fuel' other = some t) : level = other := by
  induction fuel generalizing level other k fuel' with
  | zero =>
    obtain ⟨m,tall,_,low⟩ := roundsPerfect perfect enough found
    obtain ⟨m',tall',_,low'⟩ := roundsPerfect perfect' enough' found'
    have short : level.length ≤ 1 := by omega
    rw [perfectOnce tall tall',low'] at low
    rw [roundsSingle short found,roundsSingle (low.mpr short) found']
  | succ fuel ih =>
    obtain ⟨m,tall,_,low⟩ := roundsPerfect perfect enough found
    obtain ⟨m',tall',_,low'⟩ := roundsPerfect perfect' enough' found'
    rw [perfectOnce tall tall',low'] at low
    by_cases short : level.length ≤ 1
    · rw [roundsSingle short found,roundsSingle (low.mpr short) found']
    · have long : ¬ other.length ≤ 1 := fun one => short (low.mp one)
      cases fuel' with
      | zero => exact absurd enough' long
      | succ fuel' =>
        rw [rounds,if_neg short] at found
        rw [rounds,if_neg long] at found'
        have shorter : (raise Tree.node level).length ≤ fuel + 1 := by
          rw [raiseLength]
          omega
        have shorter' : (raise Tree.node other).length ≤ fuel' + 1 := by
          rw [raiseLength]
          omega
        exact raiseInjective once once' (ih (raiseNodup once) (raiseNodup once') (raisePerfect perfect)
          (raisePerfect perfect') shorter shorter' found found')

def Tree.leaves : Tree α → List α
  | .leaf a => [a]
  | .node left right => left.leaves ++ right.leaves

def tree (leaves : List α) : Option (Tree α) := rounds .node leaves.length (leaves.map .leaf)

theorem treeNone {leaves : List α} : tree leaves = none ↔ leaves = [] := by
  constructor
  · intro none
    by_contra some'
    obtain ⟨root,found⟩ := @roundsFound _ Tree.node leaves.length (leaves.map .leaf) (by simpa using some')
    rw [tree,found] at none
    cases none
  · rintro rfl
    rfl

theorem treeLeaves {leaves : List α} (found : tree leaves = some t) : ∀ a ∈ t.leaves, a ∈ leaves := by
  refine roundsKeeps (P := fun t : Tree α => ∀ a ∈ t.leaves, a ∈ leaves) (fun x y left right a inside => ?_)
    (fun x member a inside => ?_) found
  · rcases List.mem_append.mp inside with inLeft | inRight
    · exact left a inLeft
    · exact right a inRight
  · obtain ⟨b,known,rfl⟩ := List.mem_map.mp member
    rw [List.mem_singleton.mp inside]
    exact known

theorem treeInjective {leaves others : List α} (once : leaves.Nodup) (once' : others.Nodup)
    (found : tree leaves = some t) (found' : tree others = some t) : leaves = others := by
  have leafInjective : Function.Injective (@Tree.leaf α) := fun _ _ same => Tree.leaf.inj same
  have flat : ∀ l : List α, ∀ x ∈ l.map Tree.leaf, x.Perfect 0 := by
    intro l x member
    obtain ⟨a,_,rfl⟩ := List.mem_map.mp member
    trivial
  have same := roundsInjective (once.map leafInjective) (once'.map leafInjective) (flat leaves) (flat others)
    (by simp) (by simp) found found'
  exact List.map_injective_iff.mpr leafInjective same

end

section
variable {α ι β : Type} (sum : ι → β) (single : α → ι) (pair : β → β → ι) {s t : Tree α} {seen : Set ι} {good : Set α}

def Tree.digest : Tree α → β
  | .leaf a => sum (single a)
  | .node left right => sum (pair left.digest right.digest)

def Tree.inputs : Tree α → List ι
  | .leaf a => [single a]
  | .node left right => pair (left.digest sum single pair) (right.digest sum single pair)::left.inputs ++ right.inputs

theorem digestSummed (t : Tree α) : ∃ x ∈ t.inputs sum single pair, t.digest sum single pair = sum x := by
  cases t with
  | leaf a => exact ⟨single a,by simp [Tree.inputs],rfl⟩
  | node left right => exact ⟨_,by simp [Tree.inputs],rfl⟩

variable {sum single pair}

theorem digestInjective (sums : Set.InjOn sum seen) (singles : Set.InjOn single good)
    (pairs : ∀ x y x' y', pair x y = pair x' y' → x = x' ∧ y = y') (apart : ∀ a ∈ good, ∀ x y, single a ≠ pair x y)
    (inputs : ∀ x ∈ s.inputs sum single pair, x ∈ seen) (inputs' : ∀ x ∈ t.inputs sum single pair, x ∈ seen)
    (known : ∀ a ∈ s.leaves, a ∈ good) (known' : ∀ a ∈ t.leaves, a ∈ good)
    (same : s.digest sum single pair = t.digest sum single pair) : s = t := by
  induction s generalizing t with
  | leaf a =>
    cases t with
    | leaf b =>
      have encoded := sums (inputs _ (by simp [Tree.inputs])) (inputs' _ (by simp [Tree.inputs])) same
      rw [singles (known a (by simp [Tree.leaves])) (known' b (by simp [Tree.leaves])) encoded]
    | node left right =>
      have encoded := sums (inputs _ (by simp [Tree.inputs])) (inputs' _ (by simp [Tree.inputs])) same
      exact absurd encoded (apart a (known a (by simp [Tree.leaves])) _ _)
  | node left right ihLeft ihRight =>
    cases t with
    | leaf b =>
      have encoded := sums (inputs _ (by simp [Tree.inputs])) (inputs' _ (by simp [Tree.inputs])) same
      exact absurd encoded.symm (apart b (known' b (by simp [Tree.leaves])) _ _)
    | node left' right' =>
      have encoded := sums (inputs _ (by simp [Tree.inputs])) (inputs' _ (by simp [Tree.inputs])) same
      obtain ⟨first,second⟩ := pairs _ _ _ _ encoded
      simp only [Tree.inputs,Tree.leaves,List.mem_cons,List.mem_append,List.cons_append] at inputs inputs' known known'
      rw [ihLeft (fun x m => inputs x (.inr (.inl m))) (fun x m => inputs' x (.inr (.inl m)))
          (fun x m => known x (.inl m)) (fun x m => known' x (.inl m)) first,
        ihRight (fun x m => inputs x (.inr (.inr m))) (fun x m => inputs' x (.inr (.inr m)))
          (fun x m => known x (.inr m)) (fun x m => known' x (.inr m)) second]

end
end Merkle
