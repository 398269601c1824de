import L1Chain.Patricia
import L1Chain.TrieCodec

/-! The trie refines a radix tree. A tree has a digest, the hash the code gives its root;
it is stored where every node below that hash is. Each operation, given the digest of a
stored tree, returns the digest of the changed tree and stores that one too. -/
namespace L1Chain.Trie
open Patricia

def digest (sha : Bytes → Hash) : Tree 16 Bytes → Hash
  | .empty => 0
  | .leaf w v => sha (Node.leaf w v).encode
  | .ext w c => sha (Node.extension w (digest sha c)).encode
  | .branch cs v => sha (Node.branch (fun i => digest sha (cs i)) v).encode

def top (sha : Bytes → Hash) : Tree 16 Bytes → Option Node
  | .empty => none
  | .leaf w v => some (.leaf w v)
  | .ext w c => some (.extension w (digest sha c))
  | .branch cs v => some (.branch (fun i => digest sha (cs i)) v)

def Held (sha : Bytes → Hash) (nodes : Nodes) (n : Node) : Prop := (sha n.encode,n.encode) ∈ nodes

def Stored (sha : Bytes → Hash) (nodes : Nodes) : Tree 16 Bytes → Prop
  | .empty => True
  | .leaf w v => Held sha nodes (.leaf w v)
  | .ext w c => Held sha nodes (.extension w (digest sha c)) ∧ Stored sha nodes c
  | .branch cs v => Held sha nodes (.branch (fun i => digest sha (cs i)) v) ∧ ∀ i, Stored sha nodes (cs i)

def Below (sha : Bytes → Hash) (nodes : Nodes) : Tree 16 Bytes → Prop
  | .empty => True
  | .leaf _ _ => True
  | .ext _ c => Stored sha nodes c
  | .branch cs _ => ∀ i, Stored sha nodes (cs i)

def Addressed (sha : Bytes → Hash) (nodes : Nodes) : Prop := ∀ x ∈ nodes, x.1 = sha x.2

/- What is assumed of the hash, on the encodings that were stored. -/
structure Collisionless (sha : Bytes → Hash) (nodes : Nodes) : Prop where
  apart : ∀ x ∈ nodes, ∀ y ∈ nodes, sha x.2 = sha y.2 → x.2 = y.2
  nonzero : ∀ x ∈ nodes, sha x.2 ≠ 0

structure Readable (sha : Bytes → Hash) (nodes : Nodes) : Prop extends Collisionless sha nodes where
  addressed : Addressed sha nodes

structure Extends (sha : Bytes → Hash) (nodes nodes' : Nodes) : Prop where
  grows : nodes ⊆ nodes'
  addressed : Addressed sha nodes'

structure Updated (sha : Bytes → Hash) (nodes : Nodes) (r : Hash × Nodes) (t : Tree 16 Bytes) : Prop
    extends Extends sha nodes r.2 where
  tree : Collisionless sha r.2 → r.1 = digest sha t ∧ Stored sha r.2 t

structure Planted (sha : Bytes → Hash) (nodes : Nodes) (out : (Nibble → Hash) × Option Bytes × Nodes)
    (b : (Nibble → Tree 16 Bytes) × Option Bytes) : Prop extends Extends sha nodes out.2.2 where
  children : out.1 = fun i => digest sha (b.1 i)
  value : out.2.1 = b.2
  stored : ∀ i, Stored sha out.2.2 (b.1 i)

def Short (v : Bytes) : Prop := v.length < 256 ^ 4

def pathLength : ℕ := 64

section
variable {sha : Bytes → Hash} {nodes nodes' mid : Nodes} {s t c : Tree 16 Bytes} {m : Node} {n fuel : ℕ}
  {p w : List Nibble} {v : Bytes} {r : Hash × Nodes}

theorem Collisionless.mono (free : Collisionless sha nodes') (grows : nodes ⊆ nodes') : Collisionless sha nodes :=
  ⟨fun x left y right => free.apart x (grows left) y (grows right),fun x member => free.nonzero x (grows member)⟩

theorem storedGrows (grows : nodes ⊆ nodes') (stored : Stored sha nodes t) : Stored sha nodes' t := by
  induction t with
  | empty => trivial
  | leaf w v => exact grows stored
  | ext w c ih => exact ⟨grows stored.1,ih stored.2⟩
  | branch cs v ih => exact ⟨grows stored.1,fun i => ih i (stored.2 i)⟩

theorem belowGrows (grows : nodes ⊆ nodes') (below : Below sha nodes t) : Below sha nodes' t := by
  cases t with
  | empty => trivial
  | leaf w v => trivial
  | ext w c => exact storedGrows grows below
  | branch cs v => exact fun i => storedGrows grows (below i)

theorem digestTop (root : top sha t = some m) : digest sha t = sha m.encode := by
  cases t with
  | empty => cases root
  | _ =>
    cases root
    rfl

theorem storedTop (root : top sha t = some m) : Stored sha nodes t ↔ Held sha nodes m ∧ Below sha nodes t := by
  cases t with
  | empty => cases root
  | leaf w v =>
    cases root
    exact (and_iff_left trivial).symm
  | _ =>
    cases root
    exact Iff.rfl

theorem topFull (sha : Bytes → Hash) (full : t.isEmpty = false) : ∃ m, top sha t = some m := by
  cases t with
  | empty => cases full
  | _ => exact ⟨_,rfl⟩

theorem topFits (inside : t.Within Short n) (bounded : n ≤ pathLength) (root : top sha t = some m) : m.Fits := by
  unfold pathLength at bounded
  cases t with
  | empty => cases root
  | leaf w v =>
    cases root
    exact ⟨by have := inside.1; omega,inside.2⟩
  | ext w c =>
    cases root
    show w.length < 256 ^ 2
    have := inside.2.1
    omega
  | branch cs v =>
    cases root
    exact inside.2.2

theorem lookupHeld (readable : Readable sha nodes) {enc : Bytes} (held : (sha enc,enc) ∈ nodes) :
    nodes.lookup (sha enc) = some enc := by
  cases found : nodes.lookup (sha enc) with
  | none =>
    rw [List.lookup_eq_none_iff] at found
    exact absurd (found _ held) (by simp)
  | some other =>
    obtain ⟨l₁,l₂,rfl,_⟩ := List.lookup_eq_some_iff.mp found
    have member : (sha enc,other) ∈ l₁ ++ (sha enc,other)::l₂ := by simp
    have hashed : sha enc = sha other := readable.addressed _ member
    exact congrArg some (readable.apart _ held _ member hashed).symm

theorem readTop (readable : Readable sha nodes) (stored : Stored sha nodes t) (inside : t.Within Short n)
    (bounded : n ≤ pathLength) (root : top sha t = some m) :
    digest sha t ≠ 0 ∧ nodes.lookup (digest sha t) = some m.encode ∧ decodeNode m.encode = .ok m := by
  have held := ((storedTop root).mp stored).1
  rw [digestTop root]
  exact ⟨readable.nonzero _ held,lookupHeld readable held,decodeEncode (topFits inside bounded root)⟩

theorem loadTop (readable : Readable sha nodes) (stored : Stored sha nodes t) (inside : t.Within Short n)
    (bounded : n ≤ pathLength) (root : top sha t = some m) : digest sha t ≠ 0 ∧ load nodes (digest sha t) = some m := by
  obtain ⟨live,found,decoded⟩ := readTop readable stored inside bounded root
  refine ⟨live,?_⟩
  rw [load,found]
  show (decodeNode m.encode).toOption = some m
  rw [decoded]
  rfl

theorem digestZero (free : Collisionless sha nodes) (stored : Stored sha nodes t) :
    digest sha t = 0 ↔ t.isEmpty = true := by
  cases shape : t.isEmpty with
  | true =>
    cases t with
    | empty => exact ⟨fun _ => rfl,fun _ => rfl⟩
    | _ => cases shape
  | false =>
    obtain ⟨m,root⟩ := topFull sha shape
    rw [digestTop root]
    exact ⟨fun zero => absurd zero (free.nonzero _ ((storedTop root).mp stored).1),fun no => nomatch no⟩

theorem topInjective (free : Collisionless sha nodes) (stored : Stored sha nodes s) (stored' : Stored sha nodes t)
    (inside : s.Within Short n) (inside' : t.Within Short n) (bounded : n ≤ pathLength)
    (same : digest sha s = digest sha t) : top sha s = top sha t := by
  cases root : top sha s with
  | none =>
    cases root' : top sha t with
    | none => rfl
    | some m =>
      cases s with
      | empty =>
        rw [digestTop root'] at same
        exact absurd same.symm (free.nonzero _ ((storedTop root').mp stored').1)
      | _ => cases root
  | some m =>
    cases root' : top sha t with
    | none =>
      cases t with
      | empty =>
        rw [digestTop root] at same
        exact absurd same (free.nonzero _ ((storedTop root).mp stored).1)
      | _ => cases root'
    | some m' =>
      rw [digestTop root,digestTop root'] at same
      have encoded := free.apart _ ((storedTop root).mp stored).1 _ ((storedTop root').mp stored').1 same
      rw [encodeInjective (topFits inside bounded root) (topFits inside' bounded root') encoded]

theorem digestApart (free : Collisionless sha nodes) (stored : Stored sha nodes s) (stored' : Stored sha nodes t)
    (inside : s.Within Short n) (inside' : t.Within Short n) (bounded : n ≤ pathLength)
    (same : digest sha s = digest sha t) : s = t := by
  induction s generalizing t n with
  | empty =>
    have root := topInjective free stored stored' inside inside' bounded same
    cases t with
    | empty => rfl
    | _ => cases root
  | leaf w v =>
    have root := topInjective free stored stored' inside inside' bounded same
    cases t with
    | leaf w' v' =>
      cases root
      rfl
    | _ => cases root
  | ext w c ih =>
    have root := topInjective free stored stored' inside inside' bounded same
    cases t with
    | ext w' c' =>
      injection root with node
      injection node with word child
      subst word
      rw [ih stored.2 stored'.2 inside.2.2.2 inside'.2.2.2 ((Nat.sub_le _ _).trans bounded) child]
    | _ => cases root
  | branch cs v ih =>
    have root := topInjective free stored stored' inside inside' bounded same
    cases t with
    | branch cs' v' =>
      injection root with node
      injection node with children value
      have each : cs = cs' := funext (fun i => ih i (stored.2 i) (stored'.2 i) (inside.2.1 i) (inside'.2.1 i)
        ((Nat.sub_le _ _).trans bounded) (congrFun children i))
      rw [each,value]
    | _ => cases root

theorem stripTake (w p : List Nibble) :
    strip w p = if p.length < w.length ∨ w ≠ p.take w.length then none else some (p.drop w.length) := by
  split
  · rename_i other
    cases stripped : strip w p with
    | none => rfl
    | some q =>
      rw [stripSome.mp stripped] at other
      simp only [List.length_append,List.take_left,ne_eq,not_true_eq_false,or_false] at other
      omega
  · rename_i starts
    rw [not_or,not_not] at starts
    rw [stripSome]
    conv => lhs; rw [← List.take_append_drop w.length p,← starts.2]

theorem getTree (readable : Readable sha nodes) (stored : Stored sha nodes t) (inside : t.Within Short n)
    (bounded : n ≤ pathLength) (enough : n < fuel) (p : List Nibble) :
    get nodes fuel (digest sha t) p = some (t.lookup p) := by
  induction t generalizing n fuel p with
  | empty =>
    obtain ⟨fuel,rfl⟩ := Nat.exists_eq_succ_of_ne_zero (Nat.ne_zero_of_lt enough)
    exact if_pos rfl
  | leaf w v =>
    obtain ⟨fuel,rfl⟩ := Nat.exists_eq_succ_of_ne_zero (Nat.ne_zero_of_lt enough)
    obtain ⟨live,loaded⟩ := loadTop readable stored inside bounded rfl
    rw [get,if_neg live,loaded]
    simp only [Tree.lookupLeaf,eq_comm]
  | ext w c ih =>
    obtain ⟨fuel,rfl⟩ := Nat.exists_eq_succ_of_ne_zero (Nat.ne_zero_of_lt enough)
    obtain ⟨live,loaded⟩ := loadTop readable stored inside bounded rfl
    obtain ⟨some,short,_,below⟩ := inside
    have shorter := List.length_pos_iff.mpr some
    rw [get,if_neg live,loaded,Tree.lookupExt,stripTake]
    dsimp only
    split
    · rfl
    · exact ih stored.2 below (by omega) (by omega) _
  | branch cs v ih =>
    obtain ⟨fuel,rfl⟩ := Nat.exists_eq_succ_of_ne_zero (Nat.ne_zero_of_lt enough)
    obtain ⟨live,loaded⟩ := loadTop readable stored inside bounded rfl
    obtain ⟨room,below,_⟩ := inside
    rw [get,if_neg live,loaded]
    cases p with
    | nil => rfl
    | cons i p => exact ih i (stored.2 i) (below i) (by omega) (by omega) p

theorem extendsRefl (addressed : Addressed sha nodes) : Extends sha nodes nodes := ⟨List.Subset.refl _,addressed⟩

theorem Extends.trans (first : Extends sha nodes mid) (second : Extends sha mid nodes') : Extends sha nodes nodes' :=
  ⟨fun _ member => second.grows (first.grows member),second.addressed⟩

theorem storeExtends (addressed : Addressed sha nodes) (m : Node) : Extends sha nodes (store sha nodes m).2 := by
  refine ⟨List.subset_cons_self _ _,fun x member => ?_⟩
  rcases List.mem_cons.mp member with rfl | old
  · rfl
  · exact addressed x old

section
variable {children : Nibble → Hash} {held : Option Bytes} {old value : Bytes} {child : Hash} {cp : ℕ}

theorem plantExtends (addressed : Addressed sha nodes) : Extends sha nodes (plant sha nodes children held w value).2.2 := by
  cases w with
  | nil => exact extendsRefl addressed
  | cons i w => exact storeExtends addressed _

theorem forkExtends (addressed : Addressed sha nodes) : Extends sha nodes (storeFork sha nodes p cp children held).2 := by
  have branch := storeExtends addressed (.branch children held)
  unfold storeFork
  dsimp only
  split
  · exact branch.trans (storeExtends branch.addressed _)
  · exact branch

theorem restExtends (addressed : Addressed sha nodes) : Extends sha nodes (storeRest sha nodes w child).2 := by
  unfold storeRest
  split
  · exact extendsRefl addressed
  · exact storeExtends addressed _

theorem putLeafExtends (addressed : Addressed sha nodes) : Extends sha nodes (putIntoLeaf sha nodes w old p value).2 := by
  unfold putIntoLeaf
  dsimp only
  split
  · exact storeExtends addressed _
  · have first := @plantExtends sha nodes (w.drop (commonPrefixLen p w)) (fun _ => 0) none old addressed
    exact (first.trans (plantExtends first.addressed)).trans (forkExtends (plantExtends first.addressed).addressed)

theorem putExtends (addressed : Addressed sha nodes) {root : Hash} (ran : put sha fuel nodes root p value = some r) :
    Extends sha nodes r.2 := by
  induction fuel generalizing nodes root p r with
  | zero => cases ran
  | succ fuel ih =>
    unfold put at ran
    split at ran
    · cases ran
      exact storeExtends addressed _
    · split at ran
      · cases ran
        exact storeExtends addressed _
      · cases ran
        exact putLeafExtends addressed
      · unfold putIntoExtension at ran
        dsimp only at ran
        split at ran
        · obtain ⟨below,went,last⟩ := Option.bind_eq_some_iff.mp ran
          have mid := ih addressed went
          cases last
          exact mid.trans (storeExtends mid.addressed _)
        · cases ran
          rename_i nibbles child _ _
          have first := @restExtends sha nodes (nibbles.drop (commonPrefixLen p nibbles + 1)) child addressed
          exact (first.trans (plantExtends first.addressed)).trans (forkExtends (plantExtends first.addressed).addressed)
      · unfold putIntoBranch at ran
        split at ran
        · cases ran
          exact storeExtends addressed _
        · obtain ⟨below,went,last⟩ := Option.bind_eq_some_iff.mp ran
          have mid := ih addressed went
          cases last
          exact mid.trans (storeExtends mid.addressed _)

end

theorem storeUpdated (before : Extends sha nodes mid)
    (root : Collisionless sha mid → top sha t = some m ∧ Below sha mid t) : Updated sha nodes (store sha mid m) t := by
  have after := storeExtends before.addressed m
  refine ⟨before.trans after,fun free => ?_⟩
  obtain ⟨node,below⟩ := root (free.mono after.grows)
  exact ⟨(digestTop node).symm,(storedTop node).mpr ⟨List.mem_cons_self ..,belowGrows after.grows below⟩⟩

theorem commonPrefixCommon (p w : List Nibble) : commonPrefixLen p w = common p w := by
  induction p generalizing w with
  | nil => rfl
  | cons a p ih =>
    cases w with
    | nil => rfl
    | cons b w => rw [commonPrefixLen,common,ih]

theorem digestUpdate (cs : Nibble → Tree 16 Bytes) (i : Nibble) (t : Tree 16 Bytes) :
    Function.update (fun j => digest sha (cs j)) i (digest sha t) = fun j => digest sha (Function.update cs i t j) := by
  funext j
  exact (Function.apply_update (fun _ => digest sha) cs i t j).symm

section
variable {b : (Nibble → Tree 16 Bytes) × Option Bytes} {children : Nibble → Hash} {held : Option Bytes}

theorem plantPlanted (before : Planted sha nodes (children,held,mid) b) (w : List Nibble) (v : Bytes) :
    Planted sha nodes (plant sha mid children held w v) (Tree.plant b w v) := by
  cases w with
  | nil => exact ⟨before.toExtends,before.children,rfl,before.stored⟩
  | cons i w =>
    have after := storeExtends before.addressed (.leaf w v)
    refine ⟨before.toExtends.trans after,?_,before.value,?_⟩
    · have old : children = fun j => digest sha (b.1 j) := before.children
      exact old ▸ digestUpdate b.1 i (.leaf w v)
    · exact Tree.updateAll (fun j => storedGrows after.grows (before.stored j)) i (List.mem_cons_self ..)

theorem forkUpdated {cp : ℕ} (planted : Planted sha nodes (children,held,mid) b) (short : cp ≤ p.length) :
    Updated sha nodes (storeFork sha mid p cp children held) (Tree.forked (p.take cp) b) := by
  have branched : Updated sha nodes (store sha mid (.branch children held)) (.branch b.1 b.2) := by
    refine storeUpdated planted.toExtends (fun _ => ⟨?_,planted.stored⟩)
    rw [show children = _ from planted.children,show held = _ from planted.value]
    rfl
  unfold storeFork Tree.forked Tree.under
  by_cases whole : cp > 0
  · have some : p.take cp ≠ [] := by
      rw [← List.length_pos_iff,List.length_take]
      omega
    rw [if_neg some]
    simp only [if_pos whole]
    refine storeUpdated branched.toExtends (fun free => ?_)
    obtain ⟨hash,stored⟩ := branched.tree free
    exact ⟨by rw [hash]; rfl,stored⟩
  · have none : p.take cp = [] := by
      rw [show cp = 0 by omega]
      rfl
    rw [if_pos none]
    simp only [if_neg whole]
    exact branched

theorem blankPlanted (addressed : Addressed sha nodes) :
    Planted sha nodes (fun _ => 0,none,nodes) (fun _ => .empty,none) :=
  ⟨extendsRefl addressed,rfl,rfl,fun _ => trivial⟩

end

theorem putLeafUpdated (addressed : Addressed sha nodes) (w : List Nibble) (old : Bytes) (p : List Nibble) (v : Bytes) :
    Updated sha nodes (putIntoLeaf sha nodes w old p v) ((Tree.leaf w old).insert p v) := by
  obtain ⟨c,p',w',rfl,rfl,length,_⟩ := commonSplit p w
  unfold putIntoLeaf Tree.insert
  simp only [commonPrefixCommon,length]
  split
  · exact storeUpdated (extendsRefl addressed) (fun _ => ⟨rfl,trivial⟩)
  · exact forkUpdated (plantPlanted (plantPlanted (blankPlanted addressed) _ old) _ v) (by simp)

theorem singlePlanted (before : Extends sha nodes mid) (stored : Stored sha mid t) (i : Nibble) :
    Planted sha nodes (Function.update (fun _ => 0) i (digest sha t),none,mid)
      (Function.update (fun _ => .empty) i t,none) :=
  ⟨before,digestUpdate (fun _ => .empty) i t,rfl,
    Tree.updateAll (fun _ => trivial) i stored⟩

theorem hangPlanted (addressed : Addressed sha nodes) (stored : Stored sha nodes c) (i : Nibble) (w : List Nibble) :
    Planted sha nodes (Function.update (fun _ => 0) i (storeRest sha nodes w (digest sha c)).1,none,
      (storeRest sha nodes w (digest sha c)).2) (Tree.hang c (i::w)) := by
  unfold storeRest
  by_cases none : w = []
  · have bare : Tree.under w c = c := if_pos none
    rw [if_pos none,Tree.hang,bare]
    exact singlePlanted (extendsRefl addressed) stored i
  · have after := storeExtends addressed (.extension w (digest sha c))
    have longer : Tree.under w c = .ext w c := if_neg none
    rw [if_neg none,Tree.hang,longer]
    exact singlePlanted (t := .ext w c) after ⟨List.mem_cons_self ..,storedGrows after.grows stored⟩ i

theorem putUpdated (readable : Readable sha nodes) (stored : Stored sha nodes t) (inside : t.Within Short n)
    (bounded : n ≤ pathLength) (enough : n < fuel) (p : List Nibble) (v : Bytes) :
    ∃ r, put sha fuel nodes (digest sha t) p v = some r ∧ Updated sha nodes r (t.insert p v) := by
  have addressed := readable.addressed
  induction t generalizing n fuel p with
  | empty =>
    obtain ⟨fuel,rfl⟩ := Nat.exists_eq_succ_of_ne_zero (Nat.ne_zero_of_lt enough)
    exact ⟨_,if_pos rfl,storeUpdated (extendsRefl addressed) (fun _ => ⟨rfl,trivial⟩)⟩
  | leaf w old =>
    obtain ⟨fuel,rfl⟩ := Nat.exists_eq_succ_of_ne_zero (Nat.ne_zero_of_lt enough)
    obtain ⟨live,loaded⟩ := loadTop readable stored inside bounded rfl
    refine ⟨_,?_,putLeafUpdated addressed w old p v⟩
    rw [put,if_neg live,loaded]
  | ext w c ih =>
    obtain ⟨fuel,rfl⟩ := Nat.exists_eq_succ_of_ne_zero (Nat.ne_zero_of_lt enough)
    obtain ⟨live,loaded⟩ := loadTop readable stored inside bounded rfl
    obtain ⟨some,short,_,below⟩ := inside
    have shorter := List.length_pos_iff.mpr some
    rw [put,if_neg live,loaded]
    obtain ⟨u,p',w',rfl,rfl,length,_⟩ := commonSplit p w
    simp only [putIntoExtension,Tree.insert,commonPrefixCommon,length,List.length_append,List.take_left,List.drop_left]
      at short shorter below ⊢
    split
    · obtain ⟨r,ran,updated⟩ := ih stored.2 below (by omega) (by omega : _ < fuel) p'
      refine ⟨_,by rw [ran]; rfl,storeUpdated updated.toExtends (fun free => ?_)⟩
      obtain ⟨hash,after⟩ := updated.tree free
      exact ⟨by rw [hash]; rfl,after⟩
    · rename_i partly
      cases w' with
      | nil => exact absurd (by simp) partly
      | cons i w' =>
        have letter : (u ++ i::w').getD u.length 0 = i := by simp
        have rest : (u ++ i::w').drop (u.length + 1) = w' := by simp
        have hung := hangPlanted addressed stored.2 i w'
        refine ⟨_,rfl,?_⟩
        have forked := forkUpdated (p := u ++ p') (plantPlanted hung p' v) (by simp : u.length ≤ _)
        rw [letter,rest]
        rwa [List.take_left] at forked
  | branch cs old ih =>
    obtain ⟨fuel,rfl⟩ := Nat.exists_eq_succ_of_ne_zero (Nat.ne_zero_of_lt enough)
    obtain ⟨live,loaded⟩ := loadTop readable stored inside bounded rfl
    obtain ⟨room,below,_⟩ := inside
    rw [put,if_neg live,loaded]
    cases p with
    | nil => exact ⟨_,rfl,storeUpdated (extendsRefl addressed) (fun _ => ⟨rfl,stored.2⟩)⟩
    | cons i p =>
      obtain ⟨r,ran,updated⟩ := ih i (stored.2 i) (below i) (by omega) (by omega : _ < fuel) p
      refine ⟨_,by simp only [putIntoBranch,ran]; rfl,storeUpdated updated.toExtends (fun free => ?_)⟩
      obtain ⟨hash,after⟩ := updated.tree free
      refine ⟨?_,Tree.updateAll (fun j => storedGrows updated.grows (stored.2 j)) i after⟩
      rw [hash,digestUpdate]
      rfl

theorem Extends.updated (before : Extends sha nodes mid) (step : Extends sha mid r.2)
    (updated : Collisionless sha mid → Updated sha mid r t) : Updated sha nodes r t :=
  ⟨before.trans step,fun free => (updated (free.mono step.grows)).tree free⟩

theorem mergeExtends (addressed : Addressed sha nodes) (w : List Nibble) (h : Hash) :
    Extends sha nodes (mergeIntoExtensionParent sha nodes w h).2 := by
  unfold mergeIntoExtensionParent
  split
  · exact storeExtends addressed _
  · exact storeExtends addressed _
  · exact storeExtends addressed _

theorem collapseExtends (addressed : Addressed sha nodes) (children : Nibble → Hash) (held : Option Bytes) :
    Extends sha nodes (collapseBranch sha nodes children held).2 := by
  unfold collapseBranch
  split
  · exact extendsRefl addressed
  · exact storeExtends addressed _
  · exact mergeExtends addressed _ _
  · exact storeExtends addressed _

theorem delExtends (addressed : Addressed sha nodes) {root : Hash} (ran : del sha fuel nodes root p = some r) :
    Extends sha nodes r.2 := by
  induction fuel generalizing nodes root p r with
  | zero => cases ran
  | succ fuel ih =>
    unfold del at ran
    split at ran
    · cases ran
      exact extendsRefl addressed
    · split at ran
      · cases ran
        exact extendsRefl addressed
      · cases ran
        exact extendsRefl addressed
      · split at ran
        · cases ran
          exact extendsRefl addressed
        · obtain ⟨below,went,last⟩ := Option.bind_eq_some_iff.mp ran
          have mid := ih addressed went
          dsimp only at last
          split at last
          · cases last
            exact mid
          · split at last
            · cases last
              exact mid
            · cases last
              exact mid.trans (mergeExtends mid.addressed _ _)
      · split at ran
        · split at ran
          · cases ran
            exact extendsRefl addressed
          · cases ran
            exact collapseExtends addressed _ _
        · split at ran
          · cases ran
            exact extendsRefl addressed
          · obtain ⟨below,went,last⟩ := Option.bind_eq_some_iff.mp ran
            have mid := ih addressed went
            dsimp only at last
            split at last
            · cases last
              exact mid
            · cases last
              exact mid.trans (collapseExtends mid.addressed _ _)

theorem mergeUpdated (readable : Readable sha nodes) (stored : Stored sha nodes t) (inside : t.Within Short n)
    (bounded : n ≤ pathLength) (full : t.isEmpty = false) (w : List Nibble) :
    Updated sha nodes (mergeIntoExtensionParent sha nodes w (digest sha t)) (Tree.graft w t) := by
  have start := extendsRefl readable.addressed
  unfold mergeIntoExtensionParent
  cases t with
  | empty => cases full
  | leaf u v =>
    rw [(loadTop readable stored inside bounded rfl).2]
    exact storeUpdated start (fun _ => ⟨rfl,trivial⟩)
  | ext u c =>
    rw [(loadTop readable stored inside bounded rfl).2]
    exact storeUpdated start (fun _ => ⟨rfl,stored.2⟩)
  | branch cs v =>
    rw [(loadTop readable stored inside bounded rfl).2]
    exact storeUpdated start (fun _ => ⟨rfl,stored⟩)

theorem liveChildren (free : Collisionless sha nodes) {cs : Nibble → Tree 16 Bytes}
    (stored : ∀ i, Stored sha nodes (cs i)) :
    (List.finRange 16).filter (fun i => digest sha (cs i) ≠ 0) = Tree.live cs := by
  refine List.filter_congr (fun i _ => ?_)
  simp only [ne_eq,digestZero free (stored i)]

theorem collapseUpdated (readable : Readable sha nodes) {cs : Nibble → Tree 16 Bytes}
    (stored : ∀ i, Stored sha nodes (cs i)) (inside : ∀ i, (cs i).Within Short n) (bounded : n ≤ pathLength)
    (held : Option Bytes) :
    Updated sha nodes (collapseBranch sha nodes (fun i => digest sha (cs i)) held) (Tree.collapse cs held) := by
  have start := extendsRefl readable.addressed
  unfold collapseBranch Tree.collapse
  rw [liveChildren readable.toCollisionless stored]
  cases alive : Tree.live cs with
  | nil =>
    cases held with
    | none => exact ⟨start,fun _ => ⟨rfl,trivial⟩⟩
    | some v => exact storeUpdated start (fun _ => ⟨rfl,trivial⟩)
  | cons i rest =>
    cases rest with
    | nil =>
      cases held with
      | none =>
        have member : i ∈ Tree.live cs := by simp [alive]
        have full : (cs i).isEmpty = false := by simpa [Tree.live] using member
        exact mergeUpdated readable (stored i) (inside i) bounded full [i]
      | some v => exact storeUpdated start (fun _ => ⟨rfl,stored⟩)
    | cons j rest => exact storeUpdated start (fun _ => ⟨rfl,stored⟩)

theorem removeKept (free : Collisionless sha nodes) (stored : Stored sha nodes c) (after : Stored sha nodes (c.remove p))
    (inside : c.Within Short n) (bounded : n ≤ pathLength) :
    digest sha (c.remove p) = digest sha c ↔ c.lookup p = none := by
  constructor
  · intro same
    by_contra found
    exact Tree.removePresent found (digestApart free after stored (Tree.removeWithin inside) inside bounded same)
  · intro gone
    rw [Tree.removeAbsent gone]

theorem unchanged (before : Extends sha nodes mid) (stored : Stored sha nodes t) (gone : t.lookup p = none) :
    Updated sha nodes (digest sha t,mid) (t.remove p) := by
  rw [Tree.removeAbsent gone]
  exact ⟨before,fun _ => ⟨rfl,storedGrows before.grows stored⟩⟩

theorem delExtension {q : List Nibble} (stored : Stored sha nodes (.ext w c)) (full : c.isEmpty = false)
    (below : c.Within Short n) (bounded : n ≤ pathLength) (stripped : strip w p = some q)
    (updated : Updated sha nodes r (c.remove q)) :
    ∃ r', (if r.1 = 0 then some (0,r.2) else if r.1 = digest sha c then some (digest sha (.ext w c),r.2)
      else some (mergeIntoExtensionParent sha r.2 w r.1)) = some r' ∧ Updated sha nodes r' ((Tree.ext w c).remove p) := by
  have old : Stored sha r.2 c := storedGrows updated.grows stored.2
  split
  · rename_i zero
    refine ⟨_,rfl,updated.toExtends,fun free => ?_⟩
    obtain ⟨hash,after⟩ := updated.tree free
    have none := Tree.emptyOfIsEmpty ((digestZero free after).mp (hash.symm.trans zero))
    have found : c.lookup q ≠ Option.none := by
      intro gone
      rw [Tree.removeAbsent gone] at none
      rw [none] at full
      cases full
    rw [Tree.removeExt stripped found,none]
    exact ⟨rfl,trivial⟩
  · rename_i live
    split
    · rename_i same
      refine ⟨_,rfl,updated.toExtends,fun free => ?_⟩
      obtain ⟨hash,after⟩ := updated.tree free
      have gone := (removeKept free old after below bounded).mp (hash.symm.trans same)
      exact (unchanged updated.toExtends stored (by rw [Tree.lookupExt,stripped]; exact gone)).tree free
    · rename_i other
      refine ⟨_,rfl,updated.toExtends.updated (mergeExtends updated.addressed w r.1) (fun free => ?_)⟩
      obtain ⟨hash,after⟩ := updated.tree free
      have found := mt (removeKept free old after below bounded).mpr (fun same => other (hash.trans same))
      have rest := mt (digestZero free after).mpr (fun zero => live (hash.trans zero))
      rw [Tree.removeExt stripped found,hash]
      exact mergeUpdated ⟨free,updated.addressed⟩ after (Tree.removeWithin below) bounded (by simpa using rest) w

theorem delBranch {cs : Nibble → Tree 16 Bytes} {held : Option Bytes} {i : Nibble}
    (stored : Stored sha nodes (.branch cs held)) (below : ∀ j, (cs j).Within Short n) (bounded : n ≤ pathLength)
    (updated : Updated sha nodes r ((cs i).remove p)) :
    ∃ r', (if r.1 = digest sha (cs i) then some (digest sha (.branch cs held),r.2)
      else some (collapseBranch sha r.2 (Function.update (fun j => digest sha (cs j)) i r.1) held)) = some r' ∧
      Updated sha nodes r' ((Tree.branch cs held).remove (i::p)) := by
  have old : ∀ j, Stored sha r.2 (cs j) := fun j => storedGrows updated.grows (stored.2 j)
  split
  · rename_i same
    refine ⟨_,rfl,updated.toExtends,fun free => ?_⟩
    obtain ⟨hash,after⟩ := updated.tree free
    have gone := (removeKept free (old i) after (below i) bounded).mp (hash.symm.trans same)
    exact (unchanged (p := i::p) updated.toExtends stored gone).tree free
  · rename_i other
    refine ⟨_,rfl,updated.toExtends.updated (collapseExtends updated.addressed _ held) (fun free => ?_)⟩
    obtain ⟨hash,after⟩ := updated.tree free
    have found := mt (removeKept free (old i) after (below i) bounded).mpr (fun same => other (hash.trans same))
    rw [Tree.removeBelow found,hash,digestUpdate]
    exact collapseUpdated ⟨free,updated.addressed⟩ (Tree.updateAll old i after)
      (Tree.updateAll below i (Tree.removeWithin (below i))) bounded held

theorem delUpdated (readable : Readable sha nodes) (stored : Stored sha nodes t) (inside : t.Within Short n)
    (bounded : n ≤ pathLength) (enough : n < fuel) (p : List Nibble) :
    ∃ r, del sha fuel nodes (digest sha t) p = some r ∧ Updated sha nodes r (t.remove p) := by
  have start := extendsRefl readable.addressed
  induction t generalizing n fuel p with
  | empty =>
    obtain ⟨fuel,rfl⟩ := Nat.exists_eq_succ_of_ne_zero (Nat.ne_zero_of_lt enough)
    exact ⟨_,if_pos rfl,unchanged start stored rfl⟩
  | leaf w v =>
    obtain ⟨fuel,rfl⟩ := Nat.exists_eq_succ_of_ne_zero (Nat.ne_zero_of_lt enough)
    obtain ⟨live,loaded⟩ := loadTop readable stored inside bounded rfl
    rw [del,if_neg live,loaded]
    refine ⟨_,rfl,?_⟩
    by_cases same : w = p
    · have gone : (Tree.leaf w v).remove p = .empty := if_pos same.symm
      rw [if_pos same,gone]
      exact ⟨start,fun _ => ⟨rfl,trivial⟩⟩
    · rw [if_neg same]
      exact unchanged start stored (if_neg (Ne.symm same))
  | ext w c ih =>
    obtain ⟨fuel,rfl⟩ := Nat.exists_eq_succ_of_ne_zero (Nat.ne_zero_of_lt enough)
    obtain ⟨live,loaded⟩ := loadTop readable stored inside bounded rfl
    obtain ⟨some,short,full,below⟩ := inside
    have shorter := List.length_pos_iff.mpr some
    have stripped := stripTake w p
    rw [del,if_neg live,loaded]
    dsimp only
    split
    · rename_i other
      rw [if_pos other] at stripped
      exact ⟨_,rfl,unchanged start stored (by rw [Tree.lookupExt,stripped]; rfl)⟩
    · rename_i starts
      rw [if_neg starts] at stripped
      obtain ⟨r,ran,updated⟩ := ih stored.2 below (by omega) (by omega : _ < fuel) (p.drop w.length)
      rw [ran]
      exact delExtension stored full below (by omega) stripped updated
  | branch cs v ih =>
    obtain ⟨fuel,rfl⟩ := Nat.exists_eq_succ_of_ne_zero (Nat.ne_zero_of_lt enough)
    obtain ⟨live,loaded⟩ := loadTop readable stored inside bounded rfl
    obtain ⟨room,below,_⟩ := inside
    rw [del,if_neg live,loaded]
    cases p with
    | nil =>
      dsimp only
      split
      · rename_i none
        exact ⟨_,rfl,unchanged start stored none⟩
      · rename_i some
        have gone : (Tree.branch cs v).remove [] = Tree.collapse cs none := if_neg (by simpa using some)
        rw [gone]
        exact ⟨_,rfl,collapseUpdated readable stored.2 below (by omega) none⟩
    | cons i p =>
      dsimp only
      split
      · rename_i none
        have gone := Tree.emptyOfIsEmpty ((digestZero readable.toCollisionless (stored.2 i)).mp none)
        exact ⟨_,rfl,unchanged start stored (by rw [Tree.lookupBelow,gone]; rfl)⟩
      · obtain ⟨r,ran,updated⟩ := ih i (stored.2 i) (below i) (by omega) (by omega : _ < fuel) p
        rw [ran]
        exact delBranch stored below (by omega) updated

end
end L1Chain.Trie
