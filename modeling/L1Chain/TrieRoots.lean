import L1Chain.TrieMap

/-! Roots are canonical. Every tree of a run is in normal form, so a root depends on the
map alone, whatever operations led to it; and it determines the map. -/
namespace L1Chain.Trie
open Patricia

def trees (sha : Bytes → Hash) (ops : List Op) : List (Tree 16 Bytes) := ops.foldl (record (Op.tree sha) .empty) []

section
variable {sha : Bytes → Hash} {s s' : Shared} {op : Op} {ops ops' : List Op} {k : Bytes} {i j : ℕ}

theorem recordKeeps {M : Type} {P : M → Prop} {change : M → Op → M} {void : M} {past : List M} (start : P void)
    (keep : ∀ op ∈ ops, ∀ m, P m → P (change m op)) (every : ∀ m ∈ past, P m) :
    ∀ m ∈ ops.foldl (record change void) past, P m := by
  induction ops generalizing past with
  | nil => exact every
  | cons op ops ih =>
    refine ih (fun o member => keep o (List.mem_cons_of_mem _ member)) (List.forall_mem_cons.mpr ⟨?_,every⟩)
    exact keep op (List.mem_cons_self ..) _ (getDHolds every start op.base)

theorem treesNormal : ∀ t ∈ trees sha ops, t.Normal := by
  exact recordKeeps trivial (fun op _ t normal => treeNormal normal) (by simp)

theorem treesKnown (p : List Nibble) (found : ((trees sha ops).getD i .empty).lookup p ≠ none) :
    ∃ op ∈ ops, p = path sha op.key := by
  have known : ∀ t ∈ trees sha ops, t.lookup p ≠ none → ∃ op ∈ ops, p = path sha op.key := by
    refine recordKeeps (fun found => absurd rfl found) (fun op member t known found => ?_) (by simp)
    rw [treeLookup] at found
    split at found
    · rename_i same
      exact ⟨op,member,same⟩
    · exact known found
  exact getDHolds (d := Tree.empty) known (fun found => absurd rfl found) i found

theorem contentsKnown (found : (contents ops).getD i blank k ≠ none) : ∃ op ∈ ops, k = op.key := by
  have known : ∀ m ∈ contents ops, m k ≠ none → ∃ op ∈ ops, k = op.key := by
    refine recordKeeps (fun found => absurd rfl found) (fun op member m known found => ?_) (by simp)
    rw [Function.update_apply] at found
    split at found
    · rename_i same
      exact ⟨op,member,same⟩
    · exact known found
  exact getDHolds (d := blank) known (fun found => absurd rfl found) i found

def KeysApart (sha : Bytes → Hash) (ops : List Op) : Prop :=
  ∀ op ∈ ops, ∀ op' ∈ ops, sha op.key = sha op'.key → op.key = op'.key

theorem treesRead (apart : KeysApart sha (ops ++ ops')) (member : op ∈ ops ++ ops') :
    ((trees sha ops).getD i .empty).lookup (path sha op.key) = (contents ops).getD i blank op.key :=
  treesContents (fun o known => apart op member o (List.mem_append_left _ known)) i

theorem treesReadOther (apart : KeysApart sha (ops ++ ops')) (member : op ∈ ops ++ ops') :
    ((trees sha ops').getD j .empty).lookup (path sha op.key) = (contents ops').getD j blank op.key :=
  treesContents (fun o known => apart op member o (List.mem_append_right _ known)) j

theorem treesAlike (apart : KeysApart sha (ops ++ ops'))
    (same : (contents ops).getD i blank = (contents ops').getD j blank) :
    (trees sha ops).getD i .empty = (trees sha ops').getD j .empty := by
  have normal : ∀ ops i, ((trees sha ops).getD i .empty).Normal := fun _ i =>
    getDHolds (d := Tree.empty) treesNormal trivial i
  have known : ∀ l ⊆ ops ++ ops', ∀ p, (∃ op ∈ l, p = path sha op.key) → ∃ op ∈ ops ++ ops', p = path sha op.key :=
    fun l part p ⟨op,member,eq⟩ => ⟨op,part member,eq⟩
  refine Tree.normalUnique (normal ops i) (normal ops' j) (Tree.sameOn
    (fun p found => known _ (List.subset_append_left _ _) p (treesKnown p found))
    (fun p found => known _ (List.subset_append_right _ _) p (treesKnown p found)) ?_)
  rintro p ⟨op,member,eq⟩
  rw [eq,treesRead apart member,treesReadOther apart member,same]

theorem contentsAlike (apart : KeysApart sha (ops ++ ops'))
    (same : (trees sha ops).getD i .empty = (trees sha ops').getD j .empty) :
    (contents ops).getD i blank = (contents ops').getD j blank := by
  have known : ∀ l ⊆ ops ++ ops', ∀ k, (∃ op ∈ l, k = op.key) → ∃ op ∈ ops ++ ops', k = op.key :=
    fun l part k ⟨op,member,eq⟩ => ⟨op,part member,eq⟩
  refine funext (Tree.sameOn (fun k found => known _ (List.subset_append_left _ _) k (contentsKnown found))
    (fun k found => known _ (List.subset_append_right _ _) k (contentsKnown found)) ?_)
  rintro k ⟨op,member,eq⟩
  rw [eq,← treesRead apart member,← treesReadOther apart member,same]

/- Two runs, each in a store of its own; or one run taken twice, for two roots that share a
store. -/
theorem rootsCanonical (fits : ∀ op ∈ ops, op.Fits) (fits' : ∀ op ∈ ops', op.Fits) (trusted : Trusted sha start ops)
    (trusted' : Trusted sha start ops') (apart : KeysApart sha (ops ++ ops')) :
    ∃ s s', run sha start ops = some s ∧ run sha start ops' = some s' ∧
      (∀ i j, (contents ops).getD i blank = (contents ops').getD j blank → s.roots.getD i 0 = s'.roots.getD j 0) ∧
      (∀ i, (contents ops).getD i blank = blank → s.roots.getD i 0 = 0) ∧
      (Collisionless sha (s.nodes ++ s'.nodes) → ∀ i j, s.roots.getD i 0 = s'.roots.getD j 0 →
        (contents ops).getD i blank = (contents ops').getD j blank) := by
  obtain ⟨s,ran,_,follows⟩ := runFollows startFollows fits trusted
  obtain ⟨s',ran',_,follows'⟩ := runFollows startFollows fits' trusted'
  refine ⟨s,s',ran,ran',fun i j same => ?_,fun i void => ?_,fun free i j same => ?_⟩
  · rw [(follows.base i).1,(follows'.base j).1]
    exact congrArg (digest sha) (treesAlike apart same)
  · have own : KeysApart sha (ops ++ []) := fun op member op' member' =>
      apart op (by simp_all) op' (by simp_all)
    have empty : (trees sha ops).getD i .empty = .empty := treesAlike (j := 0) own void
    rw [(follows.base i).1]
    exact congrArg (digest sha) empty
  · obtain ⟨root,stored,inside⟩ := follows.base i
    obtain ⟨root',stored',inside'⟩ := follows'.base j
    rw [root,root'] at same
    exact contentsAlike apart (digestApart free (storedGrows (List.subset_append_left ..) stored)
      (storedGrows (List.subset_append_right ..) stored') inside inside' le_rfl same)

end

def single : List Op := [⟨0,[2],some [8]⟩]

theorem singleTrusted : Trusted horner start single := trustedChecked (by decide +kernel)

theorem deletedKeyForgotten : ∃ s s', run horner start edits = some s ∧ run horner start single = some s' ∧
    s.roots.getD 1 0 = s'.roots.getD 0 0 := by
  have same : (contents edits).getD 1 blank = (contents single).getD 0 blank := by
    funext k
    show Function.update (Function.update (Function.update blank [1] (some [7])) [2] (some [8])) [1] none k =
      Function.update blank [2] (some [8]) k
    simp only [Function.update_apply]
    split
    · rename_i first
      rw [first]
      rfl
    · rfl
  obtain ⟨s,s',ran,ran',alike,_⟩ := rootsCanonical (by simp [edits,Op.Fits]) (by simp [single,Op.Fits]) editsTrusted
    singleTrusted (by unfold KeysApart; decide +kernel)
  exact ⟨s,s',ran,ran',alike 1 0 same⟩

end L1Chain.Trie
