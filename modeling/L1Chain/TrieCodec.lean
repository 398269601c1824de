import L1Chain.Trie
import L1Chain.Runs

/-! Node encodings. A node whose counts fit their fields is read back from its encoding,
so that no two of them share one. -/
namespace L1Chain.Trie

theorem highPair : ∀ a b : Nibble, high (byte a <<< 4 ||| byte b) = a := by decide
theorem lowPair : ∀ a b : Nibble, low (byte a <<< 4 ||| byte b) = b := by decide
theorem highSingle : ∀ a : Nibble, high (byte a <<< 4) = a := by decide

theorem nibblesLength (bs : Bytes) : (nibblesOf bs).length = 2 * bs.length := by
  simp [nibblesOf,List.length_flatMap,Nat.mul_comm]

theorem highValue (b : UInt8) : (high b).val = b.toNat / 16 := by
  have small := b.toNat_lt
  simp only [high,Fin.ofNat,UInt8.toNat_shiftRight,Nat.shiftRight_eq_div_pow]
  show b.toNat / 16 % 16 = b.toNat / 16
  omega

theorem maskValue (b : UInt8) : (b &&& 0x0f).toNat = b.toNat % 16 := by
  rw [UInt8.toNat_and]
  exact Nat.and_two_pow_sub_one_eq_mod b.toNat 4

theorem lowValue (b : UInt8) : (low b).val = b.toNat % 16 := by
  show (b &&& 0x0f).toNat % 16 = b.toNat % 16
  rw [maskValue,Nat.mod_mod]

theorem byteHalves {a b : UInt8} (left : high a = high b) (right : low a = low b) : a = b := by
  have top := congrArg Fin.val left
  have bottom := congrArg Fin.val right
  rw [highValue,highValue] at top
  rw [lowValue,lowValue] at bottom
  exact UInt8.toNat_inj.mp (by omega)

theorem nibblesInjective {bs cs : Bytes} (same : nibblesOf bs = nibblesOf cs) : bs = cs := by
  induction bs generalizing cs with
  | nil =>
    cases cs with
    | nil => rfl
    | cons c cs => cases same
  | cons b bs ih =>
    cases cs with
    | nil => cases same
    | cons c cs =>
      simp only [nibblesOf,List.flatMap_cons,List.cons_append,List.nil_append,List.cons.injEq] at same
      rw [byteHalves same.1 same.2.1,ih same.2.2]

theorem packLength (ns : List Nibble) : (packNibbles ns).length = (ns.length + 1) / 2 := by
  induction ns using packNibbles.induct with
  | case1 => rfl
  | case2 a => simp [packNibbles]
  | case3 a b rest ih =>
    simp only [packNibbles,List.length_cons,ih]
    omega

theorem unpackLength (bs : Bytes) (count : ℕ) : (unpackNibbles bs count).length = count := by
  rw [unpackNibbles,List.length_map,List.length_range]

theorem unpackPacked (ns : List Nibble) : unpackNibbles (packNibbles ns) ns.length = ns := by
  have digit : ∀ i (inside : i < ns.length),
      (if i % 2 = 0 then high ((packNibbles ns).getD (i / 2) 0) else low ((packNibbles ns).getD (i / 2) 0)) = ns[i] := by
    induction ns using packNibbles.induct with
    | case1 => exact fun i inside => nomatch inside
    | case2 a =>
      intro i inside
      obtain rfl : i = 0 := by simpa using inside
      exact highSingle a
    | case3 a b rest ih =>
      intro i inside
      match i with
      | 0 => exact highPair a b
      | 1 => exact lowPair a b
      | i+2 =>
        have half : (i + 2) / 2 = i / 2 + 1 := by omega
        have parity : (i + 2) % 2 = i % 2 := by omega
        rw [half,parity]
        exact ih i (by simpa using inside)
  refine List.ext_getElem (unpackLength _ _) (fun i left right => ?_)
  simp only [unpackNibbles,List.getElem_map,List.getElem_range]
  exact digit i right

theorem chunkAt {α : Type} {l : List α} {f : α → Bytes} {n : ℕ} (width : ∀ a, (f a).length = n) (tail : Bytes)
    (i : ℕ) (inside : i < l.length) : ((l.flatMap f ++ tail).drop (i * n)).take n = f l[i] := by
  induction l generalizing i with
  | nil => cases inside
  | cons a l ih =>
    rw [List.flatMap_cons,List.append_assoc]
    cases i with
    | zero => rw [Nat.zero_mul,List.drop_zero,List.take_left' (width a)]; rfl
    | succ i =>
      rw [Nat.succ_mul,Nat.add_comm,← List.drop_drop,List.drop_left' (width a)]
      exact ih i (by simpa using inside)

def Node.Fits : Node → Prop
  | .leaf nibbles value => nibbles.length < 256 ^ 2 ∧ value.length < 256 ^ 4
  | .extension nibbles _ => nibbles.length < 256 ^ 2
  | .branch _ value => ∀ v, value = some v → v.length < 256 ^ 4

theorem readPath {ns : List Nibble} (short : ns.length < 256 ^ 2) (tail : Bytes) :
    beNat ((u16 ns.length ++ (packNibbles ns ++ tail)).take 2) = ns.length ∧
    (u16 ns.length ++ (packNibbles ns ++ tail)).drop 2 = packNibbles ns ++ tail ∧
    unpackNibbles ((packNibbles ns ++ tail).take ((ns.length + 1) / 2)) ns.length = ns ∧
    (packNibbles ns ++ tail).drop ((ns.length + 1) / 2) = tail := by
  have width : (u16 ns.length).length = 2 := beBytesLength 2 _
  rw [List.take_left' width,List.drop_left' width,List.take_left' (packLength ns),List.drop_left' (packLength ns),
    unpackPacked,u16,beNatBytes,Nat.mod_eq_of_lt short]
  exact ⟨rfl,rfl,rfl,rfl⟩

theorem decodeValueEncoded {v : Bytes} (small : v.length < 256 ^ 4) : decodeValue (u32 v.length ++ v) = .ok v := by
  have width : (u32 v.length).length = 4 := beBytesLength 4 _
  have size : ¬ (u32 v.length ++ v).length < 4 := by simp [width]
  have count : beNat (u32 v.length) = v.length := by rw [u32,beNatBytes,Nat.mod_eq_of_lt small]
  unfold decodeValue
  rw [if_neg size,List.take_left' width,List.drop_left' width,count]
  simp

theorem decodeLeafEncoded {ns : List Nibble} {v : Bytes} (short : ns.length < 256 ^ 2) (small : v.length < 256 ^ 4) :
    decodeLeaf (u16 ns.length ++ (packNibbles ns ++ (u32 v.length ++ v))) = .ok (.leaf ns v) := by
  obtain ⟨count,rest,nibbles,tail⟩ := readPath short (u32 v.length ++ v)
  have width : (u16 ns.length).length = 2 := beBytesLength 2 _
  have value : (u32 v.length).length = 4 := beBytesLength 4 _
  unfold decodeLeaf
  rw [if_neg (by rw [List.length_append,width]; omega)]
  simp only [count,rest,nibbles,tail]
  rw [if_neg (by simp [packLength,value]),decodeValueEncoded small]
  rfl

theorem decodeExtensionEncoded {ns : List Nibble} {child : Hash} (short : ns.length < 256 ^ 2) :
    decodeExtension (u16 ns.length ++ (packNibbles ns ++ Hash.bytes child)) = .ok (.extension ns child) := by
  obtain ⟨count,rest,nibbles,tail⟩ := readPath short (Hash.bytes child)
  have width : (u16 ns.length).length = 2 := beBytesLength 2 _
  unfold decodeExtension
  rw [if_neg (by rw [List.length_append,width]; omega)]
  simp only [count,rest,nibbles,tail]
  rw [if_neg (by simp [packLength]),List.take_of_length_le (Nat.le_of_eq (hashBytesLength child)),ofBytesBytes]

theorem childBytesLength (children : Nibble → Hash) : (childBytes children).length = 16 * 32 := by
  simp [childBytes,List.length_flatMap]

theorem readChildren (children : Nibble → Hash) (tail : Bytes) (i : Nibble) :
    Hash.ofBytes (((childBytes children ++ tail).drop (i.val * 32)).take 32) = children i := by
  have chunk := chunkAt (l := List.finRange 16) (f := fun i => Hash.bytes (children i)) (fun _ => hashBytesLength _) tail
    i.val (by simp)
  rw [childBytes,chunk,ofBytesBytes]
  simp

theorem decodeBranchEncoded {children : Nibble → Hash} {value : Option Bytes}
    (small : ∀ v, value = some v → v.length < 256 ^ 4) :
    decodeBranch (childBytes children ++ valueBytes value) = .ok (.branch children value) := by
  have width := childBytesLength children
  unfold decodeBranch
  cases value with
  | none =>
    rw [if_neg (by simp [width,valueBytes])]
    simp only [readChildren,List.drop_left' width]
    rfl
  | some v =>
    rw [if_neg (by simp [width,valueBytes]; omega)]
    simp only [readChildren,List.drop_left' width]
    have first : (valueBytes (some v)).getD 0 0 = 1 := rfl
    have rest : (valueBytes (some v)).drop 1 = u32 v.length ++ v := rfl
    rw [first,rest,if_pos rfl,decodeValueEncoded (small v rfl)]
    rfl

theorem decodeTag (b : Bytes) : decodeNode (tagLeaf::b) = decodeLeaf b ∧
    decodeNode (tagExtension::b) = decodeExtension b ∧ decodeNode (tagBranch::b) = decodeBranch b := by
  simp only [decodeNode]
  rw [if_neg (by decide : tagExtension ≠ tagLeaf),if_neg (by decide : tagBranch ≠ tagLeaf),
    if_neg (by decide : tagBranch ≠ tagExtension)]
  simp only [if_true,and_self]

theorem decodeEncode {n : Node} (fits : n.Fits) : decodeNode n.encode = .ok n := by
  cases n with
  | leaf nibbles value =>
    simp only [Node.encode,List.append_assoc,List.cons_append,List.nil_append]
    rw [(decodeTag _).1,decodeLeafEncoded fits.1 fits.2]
  | extension nibbles child =>
    simp only [Node.encode,List.append_assoc,List.cons_append,List.nil_append]
    rw [(decodeTag _).2.1,decodeExtensionEncoded fits]
  | branch children value =>
    simp only [Node.encode,List.cons_append,List.nil_append]
    rw [(decodeTag _).2.2,decodeBranchEncoded fits]

theorem encodeInjective {n m : Node} (fits : n.Fits) (fits' : m.Fits) (same : n.encode = m.encode) : n = m := by
  have decoded := decodeEncode fits
  rw [same,decodeEncode fits'] at decoded
  exact (Except.ok.inj decoded).symm

end L1Chain.Trie
