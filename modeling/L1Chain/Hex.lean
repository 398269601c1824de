import L1Chain.Words

/-! Hexadecimal texts. A text is its list of characters; `Spells` says which bytes
one spells, with digits of either case, and a reader of hex is right when it
returns what is spelled. -/
namespace L1Chain

abbrev Text := List Char

namespace Hex

def value (code : Nat) : Option Nat :=
  if 48 ≤ code ∧ code ≤ 57 then some (code - 48)
  else if 97 ≤ code ∧ code ≤ 102 then some (code - 87)
  else if 65 ≤ code ∧ code ≤ 70 then some (code - 55)
  else none

def IsDigit (c : Char) : Prop := (value c.toNat).isSome

instance (c : Char) : Decidable (IsDigit c) := inferInstanceAs (Decidable ((value c.toNat).isSome = true))

def lower (d : Nat) : Char := ("0123456789abcdef".toList).getD d '0'

def text (bs : Bytes) : Text := bs.flatMap (fun b => [lower (b.toNat / 16),lower (b.toNat % 16)])

inductive Spells : Text → Bytes → Prop where
  | nil : Spells [] []
  | cons {a b : Char} {high low : Nat} {rest : Text} {bs : Bytes}
      (first : value a.toNat = some high) (second : value b.toNat = some low)
      (tail : Spells rest bs) : Spells (a::b::rest) (UInt8.ofNat (16 * high + low)::bs)

theorem valueBound {code d : Nat} (read : value code = some d) : d < 16 ∧ 48 ≤ code ∧ code ≤ 102 := by
  unfold value at read
  split at read
  · cases read
    omega
  · split at read
    · cases read
      omega
    · split at read
      · cases read
        omega
      · cases read

theorem valueLower {d : Nat} (small : d < 16) : value (lower d).toNat = some d := by
  have every : ∀ i : Fin 16, value (lower i.val).toNat = some i.val := by decide
  exact every ⟨d,small⟩

theorem textSpells (bs : Bytes) : Spells (text bs) bs := by
  induction bs with
  | nil => exact .nil
  | cons b rest ih =>
    have bound : b.toNat < 256 := b.toNat_lt
    have whole : UInt8.ofNat (16 * (b.toNat / 16) + b.toNat % 16) = b := by
      rw [Nat.div_add_mod,UInt8.ofNat_toNat]
    have step := Spells.cons (valueLower (d := b.toNat / 16) (by omega)) (valueLower (d := b.toNat % 16) (by omega)) ih
    rwa [whole] at step

theorem spelled {n : Nat} {digits : Text} (even : digits.length = 2 * n) (all : ∀ c ∈ digits, IsDigit c) :
    ∃ bs, Spells digits bs ∧ bs.length = n := by
  induction n generalizing digits with
  | zero =>
    rw [List.length_eq_zero_iff.mp even]
    exact ⟨[],.nil,rfl⟩
  | succ n ih =>
    match digits,even with
    | [],even => simp at even
    | [_],even =>
      simp only [List.length_cons,List.length_nil] at even
      omega
    | a::b::rest,even =>
      obtain ⟨high,first⟩ := Option.isSome_iff_exists.mp (all a (by simp))
      obtain ⟨low,second⟩ := Option.isSome_iff_exists.mp (all b (by simp))
      have shorter : rest.length = 2 * n := by
        simp only [List.length_cons] at even
        omega
      obtain ⟨bs,tail,size⟩ := ih shorter (fun c at_ => all c (by simp [at_]))
      exact ⟨_,.cons first second tail,by rw [List.length_cons,size]⟩

theorem spelledLength {digits : Text} {bs : Bytes} (spells : Spells digits bs) : digits.length = 2 * bs.length := by
  induction spells with
  | nil => rfl
  | cons first second tail ih =>
    simp only [List.length_cons,ih]
    omega

end Hex
end L1Chain
