import L1Chain.TrieMap

/-! Package trie: proof.go. A proof is the list of encodings on the way from the root to a
value. The verifier takes it from anyone: it checks each encoding against the hash that
the one before it named, and derives the path itself. -/
namespace L1Chain.Trie
open Patricia

abbrev Proof := List Bytes

def genProof (nodes : Nodes) : ℕ → Hash → List Nibble → Option (Proof × Option Bytes)
  | 0, _, _ => none
  | fuel+1, root, p =>
    if root = 0 then some ([],none)
    else match nodes.lookup root with
    | none => some ([],none)
    | some enc =>
      match decodeNode enc with
      | .error _ => some ([enc],none)
      | .ok (.leaf nibbles value) => some ([enc],if nibbles = p then some value else none)
      | .ok (.extension nibbles child) =>
        if p.length < nibbles.length ∨ nibbles ≠ p.take nibbles.length then some ([enc],none)
        else (genProof nodes fuel child (p.drop nibbles.length)).map (fun r => (enc::r.1,r.2))
      | .ok (.branch children value) =>
        match p with
        | [] => some ([enc],value)
        | i::rest => (genProof nodes fuel (children i) rest).map (fun r => (enc::r.1,r.2))

def GenerateProof (sha : Bytes → Hash) (nodes : Nodes) (root : Hash) (key : Bytes) : Option (Proof × Option Bytes) :=
  genProof nodes depth root (path sha key)

def verifyFrom (sha : Bytes → Hash) (value : Bytes) : Hash → List Nibble → Proof → Bool
  | _, _, [] => false
  | expected, p, enc::later =>
    if sha enc ≠ expected then false
    else match decodeNode enc with
    | .error _ => false
    | .ok (.leaf nibbles held) => later = [] ∧ nibbles = p ∧ held = value
    | .ok (.extension nibbles child) =>
      if later = [] then false
      else if p.length < nibbles.length ∨ nibbles ≠ p.take nibbles.length then false
      else verifyFrom sha value child (p.drop nibbles.length) later
    | .ok (.branch children held) =>
      match p with
      | [] => later = [] ∧ held = some value
      | i::rest => if later = [] then false else verifyFrom sha value (children i) rest later

def VerifyProof (sha : Bytes → Hash) (root : Hash) (key value : Bytes) (proof : Proof) : Bool :=
  verifyFrom sha value root (path sha key) proof

/- What is assumed of the hash on a proof from outside: its elements neither collide with
what is stored nor hash to zero. -/
structure Unforged (sha : Bytes → Hash) (nodes : Nodes) (proof : Proof) : Prop where
  apart : ∀ enc ∈ proof, ∀ x ∈ nodes, sha enc = sha x.2 → enc = x.2
  nonzero : ∀ enc ∈ proof, sha enc ≠ 0

section
variable {sha : Bytes → Hash} {nodes : Nodes} {t : Tree 16 Bytes} {m : Node} {n fuel : ℕ} {p : List Nibble}
  {value : Bytes} {enc : Bytes} {proof later : Proof}

theorem elementTop (stored : Stored sha nodes t) (inside : t.Within Short n) (bounded : n ≤ pathLength)
    (unforged : Unforged sha nodes (enc::later)) (hashed : sha enc = digest sha t) :
    ∃ m, top sha t = some m ∧ decodeNode enc = .ok m := by
  have first : enc ∈ enc::later := List.mem_cons_self ..
  cases root : top sha t with
  | none =>
    cases t with
    | empty => exact absurd hashed (unforged.nonzero enc first)
    | _ => cases root
  | some m =>
    rw [digestTop root] at hashed
    have same := unforged.apart enc first _ ((storedTop root).mp stored).1 hashed
    rw [same]
    exact ⟨m,rfl,decodeEncode (topFits inside bounded root)⟩

theorem verifySound (stored : Stored sha nodes t) (inside : t.Within Short n) (bounded : n ≤ pathLength)
    (unforged : Unforged sha nodes proof) (verified : verifyFrom sha value (digest sha t) p proof = true) :
    t.lookup p = some value := by
  induction proof generalizing t n p with
  | nil => cases verified
  | cons enc later ih =>
    have rest : Unforged sha nodes later :=
      ⟨fun e member => unforged.apart e (List.mem_cons_of_mem _ member),
        fun e member => unforged.nonzero e (List.mem_cons_of_mem _ member)⟩
    unfold verifyFrom at verified
    split at verified
    · cases verified
    · rename_i hashed
      obtain ⟨m,root,decoded⟩ := elementTop stored inside bounded unforged (not_not.mp hashed)
      rw [decoded] at verified
      cases t with
      | empty => cases root
      | leaf w v =>
        cases root
        simp only [decide_eq_true_eq] at verified
        rw [Tree.lookupLeaf,if_pos verified.2.1.symm,verified.2.2]
      | ext w c =>
        cases root
        dsimp only at verified
        split at verified
        · cases verified
        · split at verified
          · cases verified
          · rename_i starts
            rw [Tree.lookupExt,stripTake,if_neg starts]
            exact ih stored.2 inside.2.2.2 ((Nat.sub_le _ _).trans bounded) rest verified
      | branch cs v =>
        cases root
        cases p with
        | nil =>
          simp only [decide_eq_true_eq] at verified
          exact verified.2
        | cons i p =>
          dsimp only at verified
          split at verified
          · cases verified
          · rw [Tree.lookupBelow]
            exact ih (stored.2 i) (inside.2.1 i) ((Nat.sub_le _ _).trans bounded) rest verified

theorem genProofVerifies (readable : Readable sha nodes) (stored : Stored sha nodes t) (inside : t.Within Short n)
    (bounded : n ≤ pathLength) (enough : n < fuel) (p : List Nibble) :
    ∃ proof, genProof nodes fuel (digest sha t) p = some (proof,t.lookup p) ∧
      ∀ value, t.lookup p = some value → verifyFrom sha value (digest sha t) p proof = true := by
  induction t generalizing n fuel p with
  | empty =>
    obtain ⟨fuel,rfl⟩ := Nat.exists_eq_succ_of_ne_zero (Nat.ne_zero_of_lt enough)
    exact ⟨[],if_pos rfl,fun value found => nomatch found⟩
  | leaf w v =>
    obtain ⟨fuel,rfl⟩ := Nat.exists_eq_succ_of_ne_zero (Nat.ne_zero_of_lt enough)
    obtain ⟨live,held,decoded⟩ := readTop readable stored inside bounded rfl
    refine ⟨[(Node.leaf w v).encode],?_,fun value found => ?_⟩
    · rw [genProof,if_neg live,held]
      simp only [decoded,Tree.lookupLeaf,eq_comm]
    · rw [Tree.lookupLeaf] at found
      split at found
      · rename_i same
        cases Option.some.inj found
        simp [verifyFrom,digest,decoded,same]
      · cases found
  | ext w c ih =>
    obtain ⟨fuel,rfl⟩ := Nat.exists_eq_succ_of_ne_zero (Nat.ne_zero_of_lt enough)
    obtain ⟨live,held,decoded⟩ := readTop readable stored inside bounded rfl
    obtain ⟨some,short,_,below⟩ := inside
    have shorter := List.length_pos_iff.mpr some
    rw [genProof,if_neg live,held,Tree.lookupExt,stripTake]
    simp only [decoded]
    split
    · exact ⟨_,rfl,fun value found => nomatch found⟩
    · rename_i starts
      obtain ⟨proof,ran,verifies⟩ := ih stored.2 below (by omega) (by omega : _ < fuel) (p.drop w.length)
      rw [ran]
      refine ⟨_,rfl,fun value found => ?_⟩
      have later := verifies value found
      have more : proof ≠ [] := fun none => by rw [none] at later; cases later
      simp only [verifyFrom,digest,decoded,more,starts,if_false]
      simpa using later
  | branch cs v ih =>
    obtain ⟨fuel,rfl⟩ := Nat.exists_eq_succ_of_ne_zero (Nat.ne_zero_of_lt enough)
    obtain ⟨live,held,decoded⟩ := readTop readable stored inside bounded rfl
    obtain ⟨room,below,_⟩ := inside
    rw [genProof,if_neg live,held]
    simp only [decoded]
    cases p with
    | nil =>
      refine ⟨_,rfl,fun value found => ?_⟩
      cases (found : v = some value)
      simp [verifyFrom,digest,decoded]
    | cons i p =>
      obtain ⟨proof,ran,verifies⟩ := ih i (stored.2 i) (below i) (by omega) (by omega : _ < fuel) p
      simp only [ran]
      refine ⟨_,rfl,fun value found => ?_⟩
      have later := verifies value found
      have more : proof ≠ [] := fun none => by rw [none] at later; cases later
      simp only [verifyFrom,digest,decoded,more,if_false]
      simpa using later

theorem proofsExact {ops : List Op} (fits : ∀ op ∈ ops, op.Fits) (trusted : Trusted sha start ops) :
    ∃ s, run sha start ops = some s ∧ ∀ i key value,
      (∀ proof, Unforged sha s.nodes proof → VerifyProof sha (s.roots.getD i 0) key value proof = true →
        Get sha s.nodes (s.roots.getD i 0) key = some (some value)) ∧
      (Get sha s.nodes (s.roots.getD i 0) key = some (some value) →
        ∃ proof, GenerateProof sha s.nodes (s.roots.getD i 0) key = some (proof,some value) ∧
          VerifyProof sha (s.roots.getD i 0) key value proof = true) := by
  obtain ⟨s,ran,_,follows⟩ := runFollows startFollows fits trusted
  have free := trusted ops [] s (List.append_nil ops) ran
  refine ⟨s,ran,fun i key value => ?_⟩
  obtain ⟨root,stored,inside⟩ := follows.base i
  rw [root,follows.get free stored inside]
  refine ⟨fun proof unforged verified => ?_,fun found => ?_⟩
  · rw [verifySound stored inside le_rfl unforged verified]
  · obtain ⟨proof,generated,verifies⟩ := genProofVerifies ⟨free,follows.addressed⟩ stored inside le_rfl
      (by decide : pathLength < depth) (path sha key)
    rw [Option.some.inj found] at generated
    exact ⟨proof,generated,verifies value (Option.some.inj found)⟩

end

theorem editsProved : ∃ s, run horner start edits = some s ∧
    (∃ proof, GenerateProof horner s.nodes (s.roots.getD 1 0) [2] = some (proof,some [8]) ∧
      VerifyProof horner (s.roots.getD 1 0) [2] [8] proof = true) ∧
    ∀ proof, Unforged horner s.nodes proof → VerifyProof horner (s.roots.getD 1 0) [1] [7] proof = false := by
  have kept : ∀ s ∈ run horner start edits, Get horner s.nodes (s.roots.getD 1 0) [2] = some (some [8]) := by
    decide +kernel
  have gone : ∀ s ∈ run horner start edits, Get horner s.nodes (s.roots.getD 1 0) [1] = some none := by
    decide +kernel
  obtain ⟨s,ran,exact⟩ := proofsExact (by simp [edits,Op.Fits]) editsTrusted
  refine ⟨s,ran,(exact 1 [2] [8]).2 (kept s ran),fun proof unforged => ?_⟩
  rw [Bool.eq_false_iff]
  intro verified
  have found := (exact 1 [1] [7]).1 proof unforged verified
  rw [gone s ran] at found
  cases found

end L1Chain.Trie
