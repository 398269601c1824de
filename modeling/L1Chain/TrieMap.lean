import L1Chain.PatriciaNormal
import L1Chain.TrieSteps
import Mathlib.Data.List.Infix

/-! Runs of Put and Delete over one node store. An operation takes any root produced so
far, or the empty one, so that one run builds as many tries as it likes. Every root reads
as a finite map, the one its operations wrote, for as long as the store is used. -/
namespace L1Chain.Trie
open Patricia

/- `base` counts back from the newest root; beyond the oldest there is the empty one.
An operation without a value deletes its key. -/
structure Op where
  base : ℕ
  key : Bytes
  value : Option Bytes

structure Shared where
  nodes : Nodes
  roots : List Hash

def start : Shared := ⟨[],[]⟩

def Op.apply (sha : Bytes → Hash) (op : Op) (nodes : Nodes) (root : Hash) : Option (Hash × Nodes) :=
  match op.value with
  | some value => Put sha nodes root op.key value
  | none => Delete sha nodes root op.key

def step (sha : Bytes → Hash) (s : Shared) (op : Op) : Option Shared :=
  (op.apply sha s.nodes (s.roots.getD op.base 0)).map (fun r => ⟨r.2,r.1::s.roots⟩)

def run (sha : Bytes → Hash) (s : Shared) (ops : List Op) : Option Shared := ops.foldlM (step sha) s

def record {M : Type} (change : M → Op → M) (blank : M) (past : List M) (op : Op) : List M :=
  change (past.getD op.base blank) op::past

def blank : Bytes → Option Bytes := fun _ => none

def contents (ops : List Op) : List (Bytes → Option Bytes) :=
  ops.foldl (record (fun m op => Function.update m op.key op.value) blank) []

def Op.tree (sha : Bytes → Hash) (t : Tree 16 Bytes) (op : Op) : Tree 16 Bytes :=
  match op.value with
  | some value => t.insert (path sha op.key) value
  | none => t.remove (path sha op.key)

/- The hash is trusted on what was hashed only: the encodings stored up to each point of
the run. -/
def Trusted (sha : Bytes → Hash) (s : Shared) (ops : List Op) : Prop :=
  ∀ earlier later s', earlier ++ later = ops → run sha s earlier = some s' → Collisionless sha s'.nodes

def Op.Fits (op : Op) : Prop := ∀ v, op.value = some v → v.length < 2 ^ 32

structure Follows (sha : Bytes → Hash) (s : Shared) (past : List (Tree 16 Bytes)) : Prop where
  addressed : Addressed sha s.nodes
  roots : s.roots = past.map (digest sha)
  stored : ∀ t ∈ past, Stored sha s.nodes t
  inside : ∀ t ∈ past, t.Within Short pathLength

section
variable {sha : Bytes → Hash} {s s' : Shared} {past : List (Tree 16 Bytes)} {op : Op} {ops : List Op} {k : Bytes}

theorem pathFits (key : Bytes) : (path sha key).length ≤ pathLength := by
  rw [path,nibblesLength,hashBytesLength]
  exact le_rfl

theorem pathApart {key : Bytes} (same : path sha k = path sha key) : sha k = sha key :=
  hashBytesInjective (nibblesInjective same)

theorem getDHolds {M : Type} {P : M → Prop} {l : List M} {d : M} (every : ∀ a ∈ l, P a) (default : P d) (i : ℕ) :
    P (l.getD i d) := by
  rw [List.getD_eq_getElem?_getD]
  cases found : l[i]? with
  | none => exact default
  | some a => exact every a (List.mem_of_getElem? found)

theorem Follows.base (follows : Follows sha s past) (i : ℕ) : s.roots.getD i 0 = digest sha (past.getD i .empty) ∧
    Stored sha s.nodes (past.getD i .empty) ∧ (past.getD i .empty).Within Short pathLength := by
  refine ⟨?_,getDHolds (d := Tree.empty) follows.stored trivial i,getDHolds (d := Tree.empty) follows.inside trivial i⟩
  rw [follows.roots,List.getD_eq_getElem?_getD,List.getD_eq_getElem?_getD,List.getElem?_map]
  cases past[i]? <;> rfl

theorem Follows.get (follows : Follows sha s past) (free : Collisionless sha s.nodes) {t : Tree 16 Bytes}
    (stored : Stored sha s.nodes t) (inside : t.Within Short pathLength) (key : Bytes) :
    Get sha s.nodes (digest sha t) key = some (t.lookup (path sha key)) :=
  getTree ⟨free,follows.addressed⟩ stored inside le_rfl (by decide) (path sha key)

theorem applyUpdated {nodes : Nodes} {t : Tree 16 Bytes} (readable : Readable sha nodes) (stored : Stored sha nodes t)
    (inside : t.Within Short pathLength) (op : Op) :
    ∃ r, op.apply sha nodes (digest sha t) = some r ∧ Updated sha nodes r (op.tree sha t) := by
  unfold Op.apply Op.tree
  split
  · exact putUpdated readable stored inside le_rfl (by decide) _ _
  · exact delUpdated readable stored inside le_rfl (by decide) _

theorem treeWithin {t : Tree 16 Bytes} (inside : t.Within Short pathLength) (fits : op.Fits) :
    (op.tree sha t).Within Short pathLength := by
  unfold Op.tree
  split
  · rename_i v some
    exact Tree.insertWithin inside (pathFits op.key) (fits v some)
  · exact Tree.removeWithin inside

theorem treeNormal {t : Tree 16 Bytes} (normal : t.Normal) : (op.tree sha t).Normal := by
  unfold Op.tree
  split
  · exact Tree.insertNormal normal
  · exact Tree.removeNormal normal

theorem treeLookup (t : Tree 16 Bytes) (op : Op) (p : List Nibble) :
    (op.tree sha t).lookup p = if p = path sha op.key then op.value else t.lookup p := by
  unfold Op.tree
  split
  · rename_i v some
    rw [Tree.lookupInsert,some]
  · rename_i none
    rw [Tree.lookupRemove,none]

theorem stepFollows (follows : Follows sha s past) (free : Collisionless sha s.nodes) (fits : op.Fits) :
    ∃ s', step sha s op = some s' ∧ Extends sha s.nodes s'.nodes ∧
      (Collisionless sha s'.nodes → Follows sha s' (record (Op.tree sha) .empty past op)) := by
  obtain ⟨root,stored,inside⟩ := follows.base op.base
  obtain ⟨r,ran,updated⟩ := applyUpdated ⟨free,follows.addressed⟩ stored inside op
  refine ⟨⟨r.2,r.1::s.roots⟩,by rw [step,root,ran]; rfl,updated.toExtends,fun free => ?_⟩
  obtain ⟨hash,after⟩ := updated.tree free
  refine ⟨updated.addressed,by rw [hash,follows.roots]; rfl,?_,?_⟩
  · exact List.forall_mem_cons.mpr ⟨after,fun t member => storedGrows updated.grows (follows.stored t member)⟩
  · exact List.forall_mem_cons.mpr ⟨treeWithin inside fits,follows.inside⟩

theorem runAppend (earlier later : List Op) : run sha s (earlier ++ later) = (run sha s earlier).bind (run sha · later) :=
  List.foldlM_append

theorem trustedEarlier {earlier later : List Op} (trusted : Trusted sha s (earlier ++ later)) : Trusted sha s earlier := by
  intro first rest s' whole ran
  exact trusted first (rest ++ later) s' (by rw [← List.append_assoc,whole]) ran

theorem trustedLater {earlier later : List Op} (trusted : Trusted sha s (earlier ++ later))
    (ran : run sha s earlier = some s') : Trusted sha s' later := by
  intro first rest s'' whole next
  refine trusted (earlier ++ first) rest s'' (by rw [List.append_assoc,whole]) ?_
  rw [runAppend,ran]
  exact next

theorem trustedChecked
    (checked : ∀ earlier ∈ ops.inits, ∀ s' ∈ run sha s earlier, Collisionless sha s'.nodes) : Trusted sha s ops :=
  fun earlier later s' whole ran => checked earlier ((List.mem_inits _ _).mpr ⟨later,whole⟩) s' ran

theorem runFollows (follows : Follows sha s past) (fits : ∀ op ∈ ops, op.Fits) (trusted : Trusted sha s ops) :
    ∃ s', run sha s ops = some s' ∧ Extends sha s.nodes s'.nodes ∧
      Follows sha s' (ops.foldl (record (Op.tree sha) .empty) past) := by
  induction ops generalizing s past with
  | nil => exact ⟨s,rfl,extendsRefl follows.addressed,follows⟩
  | cons op ops ih =>
    obtain ⟨mid,stepped,grows,after⟩ := stepFollows follows (trusted [] _ s rfl rfl) (fits op (List.mem_cons_self ..))
    have first : run sha s [op] = some mid := by simp [run,stepped]
    have next := after (trusted [op] ops mid rfl first)
    obtain ⟨s',ran,later,last⟩ := ih next (fun o member => fits o (List.mem_cons_of_mem _ member))
      (trustedLater trusted first)
    refine ⟨s',?_,grows.trans later,last⟩
    rw [← List.singleton_append,runAppend,first]
    exact ran

theorem startFollows : Follows sha start [] := ⟨by simp [Addressed,start],rfl,by simp,by simp⟩

theorem treesContents (apart : ∀ op ∈ ops, sha k = sha op.key → k = op.key) (i : ℕ) :
    ((ops.foldl (record (Op.tree sha) .empty) []).getD i .empty).lookup (path sha k) = (contents ops).getD i blank k := by
  suffices alike : ∀ (past : List (Tree 16 Bytes)) (maps : List (Bytes → Option Bytes)),
      (∀ i, (past.getD i .empty).lookup (path sha k) = maps.getD i blank k) →
      ∀ i, ((ops.foldl (record (Op.tree sha) .empty) past).getD i .empty).lookup (path sha k) =
        (ops.foldl (record (fun m op => Function.update m op.key op.value) blank) maps).getD i blank k from
    alike [] [] (fun i => by cases i <;> rfl) i
  induction ops with
  | nil => exact fun past maps alike => alike
  | cons op ops ih =>
    intro past maps alike
    refine ih (fun o member => apart o (List.mem_cons_of_mem _ member)) _ _ (fun i => ?_)
    cases i with
    | zero =>
      simp only [record,List.getD_cons_zero,treeLookup,alike,Function.update_apply]
      have keys : path sha k = path sha op.key ↔ k = op.key :=
        ⟨fun same => apart op (List.mem_cons_self ..) (pathApart same),fun same => by rw [same]⟩
      simp only [keys]
    | succ i => exact alike i

theorem rootStays {root : Hash} (follows : Follows sha s past) (member : root ∈ s.roots) (fits : ∀ op ∈ ops, op.Fits)
    (trusted : Trusted sha s ops) (ran : run sha s ops = some s') : Get sha s'.nodes root k = Get sha s.nodes root k := by
  obtain ⟨last,ran',grows,after⟩ := runFollows follows fits trusted
  cases Option.some.inj (ran.symm.trans ran')
  rw [follows.roots] at member
  obtain ⟨t,known,rfl⟩ := List.mem_map.mp member
  have stored := follows.stored t known
  have inside := follows.inside t known
  rw [follows.get (trusted [] _ s rfl rfl) stored inside]
  exact after.get (trusted ops [] s' (List.append_nil ops) ran) (storedGrows grows.grows stored) inside k

/- Any run of puts and deletes returns, and then every root it produced reads as the map
that was written under it, and as it did when it was new. -/
theorem rootsReadAsMaps (fits : ∀ op ∈ ops, op.Fits) (trusted : Trusted sha start ops) :
    ∃ s, run sha start ops = some s ∧
      (∀ i k, (∀ op ∈ ops, sha k = sha op.key → k = op.key) →
        Get sha s.nodes (s.roots.getD i 0) k = some ((contents ops).getD i blank k)) ∧
      ∀ earlier later old, earlier ++ later = ops → run sha start earlier = some old →
        ∀ root ∈ old.roots, ∀ k, Get sha s.nodes root k = Get sha old.nodes root k := by
  obtain ⟨s,ran,_,follows⟩ := runFollows startFollows fits trusted
  have last := trusted ops [] s (List.append_nil ops) ran
  refine ⟨s,ran,fun i k apart => ?_,fun earlier later old whole ranOld root member k => ?_⟩
  · obtain ⟨root,stored,inside⟩ := follows.base i
    rw [root,follows.get last stored inside,treesContents apart]
  · subst whole
    rw [List.forall_mem_append] at fits
    obtain ⟨old',ran',_,past⟩ := runFollows startFollows fits.1 (trustedEarlier trusted)
    cases Option.some.inj (ranOld.symm.trans ran')
    rw [runAppend,ranOld] at ran
    exact rootStays past member fits.2 (trustedLater trusted ranOld) ran

end

instance {sha : Bytes → Hash} {nodes : Nodes} : Decidable (Collisionless sha nodes) :=
  decidable_of_iff ((∀ x ∈ nodes, ∀ y ∈ nodes, sha x.2 = sha y.2 → x.2 = y.2) ∧ ∀ x ∈ nodes, sha x.2 ≠ 0)
    ⟨fun both => ⟨both.1,both.2⟩,fun free => ⟨free.apart,free.nonzero⟩⟩

def horner (bs : Bytes) : Hash := BitVec.ofNat 256 (bs.foldl (fun h b => (h * 1103 + b.toNat + 1) % (2 ^ 255 - 19)) 1)

def edits : List Op := [⟨0,[1],some [7]⟩,⟨0,[2],some [8]⟩,⟨0,[1],none⟩,⟨3,[3],some [9]⟩]

theorem editsTrusted : Trusted horner start edits := trustedChecked (by decide +kernel)

theorem editsRead : ∃ s, run horner start edits = some s ∧ Get horner s.nodes (s.roots.getD 1 0) [2] = some (some [8]) ∧
    Get horner s.nodes (s.roots.getD 1 0) [1] = some none ∧ Get horner s.nodes (s.roots.getD 2 0) [1] = some (some [7]) := by
  have fits : ∀ op ∈ edits, op.Fits := by simp [edits,Op.Fits]
  have keys : ∀ k ∈ [[1],[2]], ∀ op ∈ edits, horner k = horner op.key → k = op.key := by decide +kernel
  obtain ⟨s,ran,reads,_⟩ := rootsReadAsMaps fits editsTrusted
  exact ⟨s,ran,reads 1 [2] (keys _ (by simp)),reads 1 [1] (keys _ (by simp)),reads 2 [1] (keys _ (by simp))⟩

end L1Chain.Trie
