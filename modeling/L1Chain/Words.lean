import Mathlib.Algebra.Group.Int.Defs
import Mathlib.Algebra.Group.Nat.Defs
import Mathlib.Data.List.Basic
import Mathlib.Data.List.Induction

/-! Byte strings and fixed-width words, big-endian throughout. A word of `8 * n`
bits and the string of its `n` bytes are two views of one value; positions in
byte strings count from the most significant byte. -/
namespace L1Chain

abbrev Bytes := List UInt8

def beBytes : Nat → Nat → Bytes
  | 0, _ => []
  | width+1, n => beBytes width (n / 256) ++ [UInt8.ofNat n]

def beNat (bs : Bytes) : Nat := bs.foldl (fun acc b => acc * 256 + b.toNat) 0

def be64 (n : UInt64) : Bytes := beBytes 8 n.toNat
def be32 (n : UInt32) : Bytes := beBytes 4 n.toNat
def read64 (bs : Bytes) : UInt64 := UInt64.ofNat (beNat bs)
def read32 (bs : Bytes) : UInt32 := UInt32.ofNat (beNat bs)

def window (bs : Bytes) (start len : Nat) : Bytes :=
  let part := (bs.drop start).take len
  part ++ List.replicate (len - part.length) 0

@[simp] theorem beBytesLength (width n : Nat) : (beBytes width n).length = width := by
  induction width generalizing n with
  | zero => rfl
  | succ width ih => simp [beBytes,ih]

@[simp] theorem be64Length (n : UInt64) : (be64 n).length = 8 := beBytesLength 8 _
@[simp] theorem be32Length (n : UInt32) : (be32 n).length = 4 := beBytesLength 4 _

theorem beNatSnoc (bs : Bytes) (b : UInt8) : beNat (bs ++ [b]) = beNat bs * 256 + b.toNat := by
  simp [beNat]

theorem beNatBytes (width n : Nat) : beNat (beBytes width n) = n % 256 ^ width := by
  induction width generalizing n with
  | zero => simp [beBytes,beNat,Nat.mod_one]
  | succ width ih =>
    have byte : (UInt8.ofNat n).toNat = n % 256 := by simp
    rw [beBytes,beNatSnoc,ih,byte,Nat.pow_succ,Nat.mul_comm (256 ^ width) 256,Nat.mod_mul]
    omega

theorem beBytesNat (bs : Bytes) : beBytes bs.length (beNat bs) = bs := by
  induction bs using List.reverseRecOn with
  | nil => rfl
  | append_singleton bs b ih =>
    have bound : b.toNat < 256 := b.toNat_lt
    have high : (beNat bs * 256 + b.toNat) / 256 = beNat bs := by omega
    have low : UInt8.ofNat (beNat bs * 256 + b.toNat) = b := by
      rw [UInt8.ofNat_eq_iff_mod_eq_toNat]
      omega
    rw [List.length_append,List.length_singleton,beBytes,beNatSnoc,high,ih,low]

theorem beNatLt (bs : Bytes) : beNat bs < 256 ^ bs.length := by
  induction bs using List.reverseRecOn with
  | nil => simp [beNat]
  | append_singleton bs b ih =>
    rw [beNatSnoc,List.length_append,List.length_singleton,Nat.pow_succ]
    have := b.toNat_lt
    omega

theorem beBytesInjective {width n m : Nat} (small : n < 256 ^ width) (small' : m < 256 ^ width)
    (same : beBytes width n = beBytes width m) : n = m := by
  have values := congrArg beNat same
  rwa [beNatBytes,beNatBytes,Nat.mod_eq_of_lt small,Nat.mod_eq_of_lt small'] at values

@[simp] theorem read64Be64 (n : UInt64) : read64 (be64 n) = n := by
  have small : n.toNat % 256 ^ 8 = n.toNat := Nat.mod_eq_of_lt n.toNat_lt
  rw [read64,be64,beNatBytes,small,UInt64.ofNat_toNat]

@[simp] theorem read32Be32 (n : UInt32) : read32 (be32 n) = n := by
  have small : n.toNat % 256 ^ 4 = n.toNat := Nat.mod_eq_of_lt n.toNat_lt
  rw [read32,be32,beNatBytes,small,UInt32.ofNat_toNat]

theorem be64Injective {n m : UInt64} (same : be64 n = be64 m) : n = m := by
  simpa using congrArg read64 same

theorem be32Injective {n m : UInt32} (same : be32 n = be32 m) : n = m :=
  UInt32.toNat_inj.mp (beBytesInjective n.toNat_lt m.toNat_lt same)

theorem ofNatSucc (n : Nat) : UInt64.ofNat n + 1 = UInt64.ofNat (n + 1) := by
  rw [UInt64.ofNat_add]
  rfl

theorem ofNatNe {i j : Nat} (differ : i ≠ j) (left : i < 2 ^ 64) (right : j < 2 ^ 64) :
    UInt64.ofNat i ≠ UInt64.ofNat j := by
  intro same
  have values := congrArg UInt64.toNat same
  rw [UInt64.toNat_ofNat',UInt64.toNat_ofNat',Nat.mod_eq_of_lt left,Nat.mod_eq_of_lt right] at values
  exact differ values

end L1Chain
