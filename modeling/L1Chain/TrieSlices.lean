import L1Chain.GoSlices
import L1Chain.TrieCodec

/-! trie/node.go with its slices. `Go` has the structs of the three kinds of node, a
nibble being any byte, and every index and slice expression of the codec as the source
writes it, each of which panics out of range; an `int` has 64 bits. None is ever
reached, and the codec computes `Node.encode` and `decodeNode`. -/
namespace L1Chain.Trie.Go
open GoSlices

abbrev GoM := Checked TrieErr

structure LeafNode where
  nibbles : Bytes
  value : Bytes

structure ExtensionNode where
  nibbles : Bytes
  child : Hash

-- Whoever sets `hasValue` sets `value` with it: a branch without a value holds nil.
structure BranchNode where
  children : Nibble → Hash
  hasValue : Bool
  value : Bytes
  absent : hasValue = false → value = []

inductive Node where
  | leaf (n : LeafNode)
  | extension (n : ExtensionNode)
  | branch (n : BranchNode)

def packLoop : List UInt8 → ℕ → Bytes → GoM Bytes
  | [], _, out => pure out
  | n::ns, i, out =>
    if i % 2 = 0 then do
      let out ← GoSlices.store out (i / 2 : ℕ) (n <<< 4)
      packLoop ns (i + 1) out
    else do
      let b ← index out (i / 2 : ℕ)
      let out ← GoSlices.store out (i / 2 : ℕ) (b ||| n)
      packLoop ns (i + 1) out

def packNibbles (ns : Bytes) : GoM Bytes := do
  let out ← make 0 ((ns.length + 1) / 2 : ℕ)
  packLoop ns 0 out

def unpackNibbles (b : Bytes) (count : ℕ) : GoM Bytes := do
  let out ← make (0 : UInt8) count
  tabulate (fun i => do
    let x ← index b (i / 2 : ℕ)
    pure (if i % 2 = 0 then x >>> 4 else x &&& 0x0f)) count 0 out

def LeafNode.encode (n : LeafNode) : GoM Bytes := do
  let packed ← packNibbles n.nibbles
  pure ([tagLeaf] ++ u16 n.nibbles.length ++ packed ++ u32 n.value.length ++ n.value)

def ExtensionNode.encode (n : ExtensionNode) : GoM Bytes := do
  let packed ← packNibbles n.nibbles
  pure ([tagExtension] ++ u16 n.nibbles.length ++ packed ++ Hash.bytes n.child)

def BranchNode.encode (n : BranchNode) : GoM Bytes :=
  pure ([tagBranch] ++ childBytes n.children ++ if n.hasValue then [1] ++ u32 n.value.length ++ n.value else [0])

def Node.encode : Node → GoM Bytes
  | .leaf n => n.encode
  | .extension n => n.encode
  | .branch n => n.encode

-- binary.BigEndian.Uint16 and Uint32, which look at the last byte first.
def uint16 (b : Bytes) : GoM ℕ := do
  let b1 ← index b 1
  let b0 ← index b 0
  pure (beNat [b0,b1])

def uint32 (b : Bytes) : GoM ℕ := do
  let b3 ← index b 3
  let b2 ← index b 2
  let b1 ← index b 1
  let b0 ← index b 0
  pure (beNat [b0,b1,b2,b3])

def readValue (b : Bytes) : GoM Bytes := do
  let field ← slice b 0 4
  let valLen ← uint32 field
  let b ← slice b 4 b.length
  if b.length < valLen then throw .shortInput
  else do
    let value ← make 0 valLen
    let part ← slice b 0 valLen
    copyInto value 0 value.length part

def decodeLeaf (b : Bytes) : GoM Node :=
  if b.length < 2 then throw .shortInput
  else do
    let field ← slice b 0 2
    let count ← uint16 field
    let b ← slice b 2 b.length
    let packedLen := (count + 1) / 2
    if b.length < packedLen + 4 then throw .shortInput
    else do
      let packed ← slice b 0 packedLen
      let nibbles ← unpackNibbles packed count
      let b ← slice b packedLen b.length
      let value ← readValue b
      pure (.leaf ⟨nibbles,value⟩)

def decodeExtension (b : Bytes) : GoM Node :=
  if b.length < 2 then throw .shortInput
  else do
    let field ← slice b 0 2
    let count ← uint16 field
    let b ← slice b 2 b.length
    let packedLen := (count + 1) / 2
    if b.length < packedLen + 32 then throw .shortInput
    else do
      let packed ← slice b 0 packedLen
      let nibbles ← unpackNibbles packed count
      let b ← slice b packedLen b.length
      let part ← slice b 0 32
      let child ← copyInto (Hash.bytes 0) 0 32 part
      pure (.extension ⟨nibbles,Hash.ofBytes child⟩)

def copyChild (b : Bytes) (children : Nibble → Hash) (i : Nibble) : GoM (Nibble → Hash) := do
  let part ← slice b (i.val * 32 : ℕ) ((i.val + 1) * 32 : ℕ)
  let child ← copyInto (Hash.bytes (children i)) 0 32 part
  pure (Function.update children i (Hash.ofBytes child))

def decodeBranch (b : Bytes) : GoM Node :=
  if b.length < 16 * 32 + 1 then throw .shortInput
  else do
    let children ← (List.finRange 16).foldlM (copyChild b) (fun _ => 0)
    let b ← slice b (16 * 32 : ℕ) b.length
    let hasValue ← index b 0
    let b ← slice b 1 b.length
    if hasValue = 1 then
      if b.length < 4 then throw .shortInput
      else do
        let value ← readValue b
        pure (.branch ⟨children,true,value,nofun⟩)
    else pure (.branch ⟨children,false,[],fun _ => rfl⟩)

def decodeNode (enc : Bytes) : GoM Node :=
  if enc.length < 1 then throw .shortInput
  else do
    let tag ← index enc 0
    let b ← slice enc 1 enc.length
    if tag = tagLeaf then decodeLeaf b
    else if tag = tagExtension then decodeExtension b
    else if tag = tagBranch then decodeBranch b
    else throw .badTag

def LeafNode.InRange (n : LeafNode) : Prop :=
  (∀ x ∈ n.nibbles, x < 16) ∧ n.nibbles.length < 2 ^ 16 ∧ n.value.length < 2 ^ 32

def ExtensionNode.InRange (n : ExtensionNode) : Prop := (∀ x ∈ n.nibbles, x < 16) ∧ n.nibbles.length < 2 ^ 16

def BranchNode.InRange (n : BranchNode) : Prop := n.value.length < 2 ^ 32

def Node.InRange : Node → Prop
  | .leaf n => n.InRange
  | .extension n => n.InRange
  | .branch n => n.InRange

def goNode : Trie.Node → Node
  | .leaf nibbles value => .leaf ⟨nibbles.map byte,value⟩
  | .extension nibbles child => .extension ⟨nibbles.map byte,child⟩
  | .branch children (some value) => .branch ⟨children,true,value,nofun⟩
  | .branch children none => .branch ⟨children,false,[],fun _ => rfl⟩

theorem byteHigh (x : UInt8) : byte (high x) = x >>> 4 := by
  have small := x.toNat_lt
  apply UInt8.toNat_inj.mp
  rw [byte,highValue,UInt8.toNat_shiftRight,Nat.shiftRight_eq_div_pow]
  show x.toNat / 16 % 256 = x.toNat / 16
  omega

theorem byteLow (x : UInt8) : byte (low x) = x &&& 0x0f := by
  apply UInt8.toNat_inj.mp
  rw [byte,lowValue,maskValue]
  show x.toNat % 16 % 256 = x.toNat % 16
  omega

theorem safePackLoop (ns : List Nibble) (done : Bytes) :
    Safe (packLoop (ns.map byte) (2 * done.length) (done ++ List.replicate ((ns.length + 1) / 2) 0))
      (.ok (done ++ Trie.packNibbles ns)) := by
  induction ns using Trie.packNibbles.induct generalizing done with
  | case1 => exact safePure _
  | case2 a =>
    have half : 2 * done.length / 2 = done.length := by omega
    have room : ([a].length + 1) / 2 = 1 := by rw [List.length_singleton]
    rw [room,List.replicate_one,List.map_singleton]
    unfold packLoop
    rw [if_pos (by omega),half]
    refine Safe.after (safeStore _ (by simp)) ?_
    rw [List.set_append_right _ _ le_rfl,Nat.sub_self,List.set_cons_zero]
    exact safePure _
  | case3 a b rest ih =>
    have half : 2 * done.length / 2 = done.length := by omega
    have half' : (2 * done.length + 1) / 2 = done.length := by omega
    have room : ((a::b::rest).length + 1) / 2 = (rest.length + 1) / 2 + 1 := by simp only [List.length_cons]; omega
    have grown := ih (done ++ [byte a <<< 4 ||| byte b])
    rw [List.length_append,List.length_singleton,Nat.mul_add,List.append_assoc,List.append_assoc,
      List.singleton_append,List.singleton_append] at grown
    rw [room,List.replicate_succ,List.map_cons,List.map_cons]
    unfold packLoop
    rw [if_pos (by omega),half]
    refine Safe.after (safeStore _ (by simp)) ?_
    rw [List.set_append_right _ _ le_rfl,Nat.sub_self,List.set_cons_zero]
    unfold packLoop
    rw [if_neg (by omega),half']
    refine Safe.after (safeIndex (x := byte a <<< 4) (by simp)) ?_
    refine Safe.after (safeStore _ (by simp)) ?_
    rw [List.set_append_right _ _ le_rfl,Nat.sub_self,List.set_cons_zero]
    exact grown

theorem safePack (ns : List Nibble) : Safe (packNibbles (ns.map byte)) (.ok (Trie.packNibbles ns)) := by
  unfold packNibbles
  rw [List.length_map]
  exact Safe.after (safeMake 0 _) (safePackLoop ns [])

theorem safeUnpack {b : Bytes} {count : ℕ} (room : (count + 1) / 2 ≤ b.length) :
    Safe (unpackNibbles b count) (.ok ((Trie.unpackNibbles b count).map byte)) := by
  have each (i : ℕ) (inside : i < ([] : Bytes).length + count) :
      Safe (do let x ← index b (i / 2 : ℕ); pure (if i % 2 = 0 then x >>> 4 else x &&& 0x0f) : GoM UInt8)
        (.ok (byte (if i % 2 = 0 then high (b.getD (i / 2) 0) else low (b.getD (i / 2) 0)))) := by
    have here : i / 2 < b.length := by simp only [List.length_nil] at inside; omega
    refine Safe.after (safeIndex (List.getElem?_eq_getElem here)) ?_
    rw [apply_ite byte,byteHigh,byteLow,List.getD_eq_getElem?_getD,List.getElem?_eq_getElem here,
      Option.getD_some]
    exact safePure _
  unfold unpackNibbles
  refine Safe.after (safeMake 0 count) ?_
  have loop := safeTabulate 0 count each
  rw [List.nil_append,List.nil_append,List.length_nil,← List.range_eq_range'] at loop
  rw [Trie.unpackNibbles,List.map_map]
  exact loop

theorem safeUint16 {b : Bytes} (two : b.length = 2) : Safe (uint16 b) (.ok (beNat b)) := by
  obtain ⟨b0,b1,rfl⟩ := List.length_eq_two.mp two
  refine Safe.after (safeIndex (i := 1) (x := b1) rfl) ?_
  exact Safe.after (safeIndex (i := 0) (x := b0) rfl) (safePure _)

theorem safeUint32 {b : Bytes} (four : b.length = 4) : Safe (uint32 b) (.ok (beNat b)) := by
  match b, four with
  | [b0,b1,b2,b3], _ =>
    refine Safe.after (safeIndex (i := 3) (x := b3) rfl) ?_
    refine Safe.after (safeIndex (i := 2) (x := b2) rfl) ?_
    refine Safe.after (safeIndex (i := 1) (x := b1) rfl) ?_
    exact Safe.after (safeIndex (i := 0) (x := b0) rfl) (safePure _)

theorem safeReadValue {b : Bytes} (room : 4 ≤ b.length) : Safe (readValue b) (decodeValue b) := by
  unfold readValue decodeValue
  rw [if_neg (by omega)]
  refine Safe.after (safeTake (n := 4) room) ?_
  refine Safe.after (safeUint32 (List.length_take_of_le room)) ?_
  refine Safe.after (safeDrop (i := 4) room) ?_
  dsimp only
  by_cases short : (b.drop 4).length < beNat (b.take 4)
  · rw [if_pos short,if_pos short]
    exact safeThrow _
  · rw [if_neg short,if_neg short]
    refine Safe.after (safeMake 0 _) ?_
    refine Safe.after (safeTake (by omega)) ?_
    exact safeCopyAll rfl (by rw [List.length_replicate,List.length_take_of_le (by omega)])

theorem safeValue {b : Bytes} (build : Bytes → Trie.Node) (room : 4 ≤ b.length) :
    Safe (do let value ← readValue b; pure (goNode (build value))) (((decodeValue b).map build).map goNode) := by
  have mapped : ((decodeValue b).map build).map goNode = decodeValue b >>= fun v => .ok (goNode (build v)) := by
    cases decodeValue b <;> rfl
  rw [mapped]
  exact (safeReadValue room).bind (fun _ _ => safePure _)

section
variable {b : Bytes} {y : Except TrieErr Node}

theorem safeCount {rest : ℕ → Bytes → GoM Node} (room : 2 ≤ b.length)
    (after : Safe (rest (beNat (b.take 2)) (b.drop 2)) y) :
    Safe (do
      let field ← slice b 0 2
      let count ← uint16 field
      let b ← slice b 2 b.length
      rest count b) y := by
  refine Safe.after (safeTake (n := 2) room) ?_
  refine Safe.after (safeUint16 (List.length_take_of_le room)) ?_
  exact Safe.after (safeDrop (i := 2) room) after

theorem safePath {rest : Bytes → Bytes → GoM Node} {count : ℕ} (room : (count + 1) / 2 ≤ b.length)
    (after : Safe (rest ((Trie.unpackNibbles (b.take ((count + 1) / 2)) count).map byte) (b.drop ((count + 1) / 2))) y) :
    Safe (do
      let packed ← slice b 0 ((count + 1) / 2 : ℕ)
      let nibbles ← unpackNibbles packed count
      let b ← slice b ((count + 1) / 2 : ℕ) b.length
      rest nibbles b) y := by
  refine Safe.after (safeTake room) ?_
  refine Safe.after (safeUnpack (List.length_take_of_le room).ge) ?_
  exact Safe.after (safeDrop room) after

end

theorem safeLeaf (b : Bytes) : Safe (decodeLeaf b) ((Trie.decodeLeaf b).map goNode) := by
  unfold decodeLeaf Trie.decodeLeaf
  by_cases none : b.length < 2
  · rw [if_pos none,if_pos none]
    exact safeThrow _
  rw [if_neg none,if_neg none]
  refine safeCount (by omega) ?_
  dsimp only
  by_cases short : (b.drop 2).length < (beNat (b.take 2) + 1) / 2 + 4
  · rw [if_pos short,if_pos short]
    exact safeThrow _
  rw [if_neg short,if_neg short]
  refine safePath (by omega) ?_
  exact safeValue (.leaf _) (by rw [List.length_drop]; omega)

theorem safeExtension (b : Bytes) : Safe (decodeExtension b) ((Trie.decodeExtension b).map goNode) := by
  unfold decodeExtension Trie.decodeExtension
  by_cases none : b.length < 2
  · rw [if_pos none,if_pos none]
    exact safeThrow _
  rw [if_neg none,if_neg none]
  refine safeCount (by omega) ?_
  dsimp only
  by_cases short : (b.drop 2).length < (beNat (b.take 2) + 1) / 2 + 32
  · rw [if_pos short,if_pos short]
    exact safeThrow _
  rw [if_neg short,if_neg short]
  refine safePath (by omega) ?_
  have room : 32 ≤ ((b.drop 2).drop ((beNat (b.take 2) + 1) / 2)).length := by rw [List.length_drop]; omega
  refine Safe.after (safeTake (n := 32) room) ?_
  exact Safe.after (safeCopyAll (n := 32) (hashBytesLength 0) (List.length_take_of_le room)) (safePure _)

theorem foldUpdate {α β : Type} [DecidableEq α] (v : α → β) (xs : List α) (f : α → β) (a : α) :
    xs.foldl (fun f x => Function.update f x (v x)) f a = if a ∈ xs then v a else f a := by
  induction xs generalizing f with
  | nil => simp
  | cons x xs ih =>
    rw [List.foldl_cons,ih,Function.update_apply]
    by_cases later : a ∈ xs
    · simp [later]
    · by_cases here : a = x
      · simp [here]
      · simp [later,here]

theorem safeChildren {b : Bytes} (room : 16 * 32 ≤ b.length) :
    Safe ((List.finRange 16).foldlM (copyChild b) (fun _ => 0))
      (.ok (fun i => Hash.ofBytes ((b.drop (i.val * 32)).take 32))) := by
  have each (children : Nibble → Hash) (i : Nibble) (_ : i ∈ List.finRange 16) : Safe (copyChild b children i)
      (.ok (Function.update children i (Hash.ofBytes ((b.drop (i.val * 32)).take 32)))) := by
    have inside : i.val * 32 + 32 ≤ b.length := by omega
    have part : ((b.drop (i.val * 32)).take 32).length = 32 := by
      rw [List.length_take,List.length_drop]
      omega
    unfold copyChild
    rw [Nat.add_mul,Nat.one_mul,Int.natCast_add]
    refine Safe.after (safeSlice inside) ?_
    exact Safe.after (safeCopyAll (n := 32) (hashBytesLength _) part) (safePure _)
  have all : (List.finRange 16).foldl (fun children i => Function.update children i
      (Hash.ofBytes ((b.drop (i.val * 32)).take 32))) (fun _ => 0) =
      fun i => Hash.ofBytes ((b.drop (i.val * 32)).take 32) := by
    funext i
    rw [foldUpdate (fun i : Nibble => Hash.ofBytes ((b.drop (i.val * 32)).take 32)),if_pos (List.mem_finRange i)]
  rw [← all]
  exact safeFold each _

theorem safeBranch (b : Bytes) : Safe (decodeBranch b) ((Trie.decodeBranch b).map goNode) := by
  unfold decodeBranch Trie.decodeBranch
  by_cases short : b.length < 16 * 32 + 1
  · rw [if_pos short,if_pos short]
    exact safeThrow _
  rw [if_neg short,if_neg short]
  refine Safe.after (safeChildren (by omega)) ?_
  refine Safe.after (safeDrop (by omega)) ?_
  have held : 0 < (b.drop (16 * 32)).length := by rw [List.length_drop]; omega
  refine Safe.after (safeIndex (i := 0) (List.getElem?_eq_getElem held)) ?_
  refine Safe.after (safeDrop (i := 1) held) ?_
  dsimp only
  rw [List.getD_eq_getElem?_getD,List.getElem?_eq_getElem held,Option.getD_some]
  by_cases one : (b.drop (16 * 32))[0] = 1
  · rw [if_pos one,if_pos one]
    by_cases few : ((b.drop (16 * 32)).drop 1).length < 4
    · rw [if_pos few,decodeValue,if_pos few]
      exact safeThrow _
    · rw [if_neg few]
      exact safeValue (fun value => .branch _ (some value)) (by omega)
  · rw [if_neg one,if_neg one]
    exact safePure _

theorem safeDecode (enc : Bytes) : Safe (decodeNode enc) ((Trie.decodeNode enc).map goNode) := by
  cases enc with
  | nil => exact safeThrow _
  | cons tag b =>
    unfold decodeNode
    rw [Trie.decodeNode,if_neg (by simp)]
    refine Safe.after (safeIndex (i := 0) (x := tag) rfl) ?_
    refine Safe.after (safeDrop (i := 1) (by simp)) ?_
    rw [List.drop_one,List.tail_cons]
    by_cases leaf : tag = tagLeaf
    · rw [if_pos leaf,if_pos leaf]
      exact safeLeaf b
    rw [if_neg leaf,if_neg leaf]
    by_cases extension : tag = tagExtension
    · rw [if_pos extension,if_pos extension]
      exact safeExtension b
    rw [if_neg extension,if_neg extension]
    by_cases branch : tag = tagBranch
    · rw [if_pos branch,if_pos branch]
      exact safeBranch b
    rw [if_neg branch,if_neg branch]
    exact safeThrow _

theorem safeEncode (n : Trie.Node) : Safe (goNode n).encode (.ok n.encode) := by
  match n with
  | .leaf nibbles value =>
    refine Safe.after (safePack nibbles) ?_
    rw [List.length_map]
    exact safePure _
  | .extension nibbles child =>
    refine Safe.after (safePack nibbles) ?_
    rw [List.length_map]
    exact safePure _
  | .branch children none => exact safePure _
  | .branch children (some value) => exact safePure _

theorem byteLowSmall {x : UInt8} (small : x < 16) : byte (low x) = x := by
  have below : x.toNat < 16 := UInt8.lt_iff_toNat_lt.mp small
  apply UInt8.toNat_inj.mp
  rw [byte,lowValue,Nat.mod_eq_of_lt below,UInt8.ofNat_toNat]

theorem nibblesBelow {bs : Bytes} (small : ∀ x ∈ bs, x < 16) : (bs.map low).map byte = bs := by
  have each : bs.map (byte ∘ low) = bs.map id := List.map_congr_left (fun x inside => byteLowSmall (small x inside))
  rw [List.map_map,each,List.map_id]

theorem inRangeModel {n : Node} (ranged : n.InRange) : ∃ m : Trie.Node, m.Fits ∧ goNode m = n := by
  match n with
  | .leaf n =>
    obtain ⟨small,short,fits⟩ := ranged
    refine ⟨.leaf (n.nibbles.map low) n.value,⟨?_,fits⟩,?_⟩
    · rwa [List.length_map]
    · rw [goNode,nibblesBelow small]
  | .extension n =>
    obtain ⟨small,short⟩ := ranged
    refine ⟨.extension (n.nibbles.map low) n.child,?_,?_⟩
    · show (n.nibbles.map low).length < 256 ^ 2
      rwa [List.length_map]
    · rw [goNode,nibblesBelow small]
  | .branch ⟨children,true,value,_⟩ =>
    refine ⟨.branch children (some value),fun v held => ?_,rfl⟩
    rw [← Option.some.inj held]
    exact ranged
  | .branch ⟨children,false,value,absent⟩ =>
    obtain rfl := absent rfl
    exact ⟨.branch children none,nofun,rfl⟩

theorem safeCodec {n : Node} (ranged : n.InRange) :
    ∃ enc, Safe n.encode (.ok enc) ∧ Safe (decodeNode enc) (.ok n) := by
  obtain ⟨m,fits,rfl⟩ := inRangeModel ranged
  refine ⟨m.encode,safeEncode m,?_⟩
  have decoded := safeDecode m.encode
  rwa [decodeEncode fits] at decoded

theorem nodeEncodings :
    (∀ n : Node, n.InRange → ∃ enc, Safe n.encode (.ok enc) ∧ Safe (decodeNode enc) (.ok n)) ∧
    (∀ n m : Node, n.InRange → m.InRange → n ≠ m →
      ∀ enc enc', Safe n.encode (.ok enc) → Safe m.encode (.ok enc') → enc ≠ enc') ∧
    ∀ enc : Bytes, ∃ r : Except TrieErr Node, Safe (decodeNode enc) r := by
  refine ⟨fun n ranged => safeCodec ranged,?_,fun enc => ⟨_,safeDecode enc⟩⟩
  rintro n m ranged ranged' apart enc _ first second rfl
  obtain ⟨left,encoded,decoded⟩ := safeCodec ranged
  obtain ⟨right,encoded',decoded'⟩ := safeCodec ranged'
  obtain rfl := Safe.unique encoded first
  obtain rfl := Safe.unique encoded' second
  exact apart (Safe.unique decoded decoded')

def noChildren : Nibble → Hash := fun _ => 0

theorem nodeEncodingsOdd :
    (∃ enc, Safe (Node.leaf ⟨[1,2,15],[0xff]⟩).encode (.ok enc) ∧
      Safe (decodeNode enc) (.ok (.leaf ⟨[1,2,15],[0xff]⟩))) ∧
    (∀ enc enc', Safe (Node.branch ⟨noChildren,true,[],nofun⟩).encode (.ok enc) →
      Safe (Node.branch ⟨noChildren,false,[],fun _ => rfl⟩).encode (.ok enc') → enc ≠ enc') ∧
    ∃ r : Except TrieErr Node, Safe (decodeNode [tagLeaf,0xff,0xff]) r := by
  obtain ⟨roundTrip,apart,bounded⟩ := nodeEncodings
  refine ⟨roundTrip _ ⟨by simp,by decide,by decide⟩,apart _ _ ?_ ?_ ?_,bounded _⟩
  · show ([] : Bytes).length < 2 ^ 32
    decide
  · show ([] : Bytes).length < 2 ^ 32
    decide
  · intro same
    cases same

end L1Chain.Trie.Go
