import L1Chain.StateDB
import L1Chain.Ledger

/-! The coins of a state. `supply` sums every balance; `pay` is the one way a value
moves between two accounts, whichever machine moves it. A credit is a 64-bit
addition, so a payment keeps the supply where the supply itself fits 64 bits. -/
namespace L1Chain.MptState
open Ledger

def balances (st : MptState) (a : Address) : ℕ := (st.accounts a).balance.toNat
def supply (st : MptState) : ℕ := total st.balances

def pay (st : MptState) (a b : Address) (v : UInt64) : MptState :=
  if v = 0 ∨ a = b then st
  else
    let st := setAccount st a {st.accounts a with balance := (st.accounts a).balance - v}
    setAccount st b {st.accounts b with balance := (st.accounts b).balance + v}

def Funded (st : MptState) (a b : Address) (v : UInt64) : Prop := v = 0 ∨ a = b ∨ v ≤ (st.accounts a).balance

section
variable {st st' : MptState} {a b x : Address} {v : UInt64}

@[simp] theorem storageBalances (a : Address) (k v : Hash) : (setStorage st a k v).balances = st.balances := by
  funext x
  exact putKeeps (·.balance.toNat) rfl

@[simp] theorem codeBalances (a : Address) (code : Bytes) : (setCode st a code).balances = st.balances := by
  funext x
  exact putKeeps (·.balance.toNat) rfl

theorem storageFrame (b : Address) (k v : Hash) : ((setStorage st b k v).accounts a).nonce = (st.accounts a).nonce ∧
    ((setStorage st b k v).accounts a).code = (st.accounts a).code :=
  ⟨putKeeps (·.nonce) rfl,putKeeps (·.code) rfl⟩

theorem codeFrame (b : Address) (code : Bytes) : ((setCode st b code).accounts a).nonce = (st.accounts a).nonce ∧
    ((setCode st b code).accounts a).storage = (st.accounts a).storage :=
  ⟨putKeeps (·.nonce) rfl,putKeeps (·.storage) rfl⟩

theorem payIdle (idle : v = 0 ∨ a = b) : st.pay a b v = st := if_pos idle

theorem payAt (apart : a ≠ b) : (st.pay a b v).accounts x =
    if x = b then {st.accounts b with balance := (st.accounts b).balance + v}
    else if x = a then {st.accounts a with balance := (st.accounts a).balance - v} else st.accounts x := by
  unfold pay
  split
  · rename_i idle
    have zero : v = 0 := idle.resolve_right apart
    subst zero
    simp only [UInt64.add_zero,UInt64.sub_zero]
    split
    · rename_i same
      rw [same]
    · split
      · rename_i same
        rw [same]
      · rfl
  · simp only [setAccountAt,if_neg apart.symm]

theorem payFrame : ((st.pay a b v).accounts x).nonce = (st.accounts x).nonce ∧
    ((st.pay a b v).accounts x).code = (st.accounts x).code ∧
    ((st.pay a b v).accounts x).storage = (st.accounts x).storage := by
  by_cases self : a = b
  · rw [payIdle (.inr self)]
    exact ⟨rfl,rfl,rfl⟩
  · rw [payAt self]
    split
    · rename_i same
      rw [same]
      exact ⟨rfl,rfl,rfl⟩
    · split
      · rename_i same
        rw [same]
        exact ⟨rfl,rfl,rfl⟩
      · exact ⟨rfl,rfl,rfl⟩

theorem paidBalance (apart : a ≠ b) (funded : st.Funded a b v) (fits : st.supply < 2 ^ 64) :
    (st.pay a b v).balances a + v.toNat = st.balances a ∧
    (st.pay a b v).balances b = st.balances b + v.toNat := by
  have enough : v ≤ (st.accounts a).balance := by
    rcases funded with zero | same | enough
    · exact zero ▸ UInt64.zero_le
    · exact absurd same apart
    · exact enough
  have held : v.toNat ≤ st.balances a := UInt64.le_iff_toNat_le.mp enough
  have room := (pairLeTotal st.balances apart).trans_lt fits
  have left : (st.pay a b v).balances a = st.balances a - v.toNat := by
    rw [balances,payAt apart,if_neg apart,if_pos rfl]
    exact UInt64.toNat_sub_of_le _ _ enough
  have right : (st.pay a b v).balances b = st.balances b + v.toNat := by
    rw [balances,payAt apart,if_pos rfl]
    simp only [UInt64.toNat_add]
    exact Nat.mod_eq_of_lt (by simp only [balances] at room held; omega)
  omega

theorem payOther (left : x ≠ a) (right : x ≠ b) : (st.pay a b v).accounts x = st.accounts x := by
  by_cases self : a = b
  · rw [payIdle (.inr self)]
  · rw [payAt self,if_neg right,if_neg left]

theorem paySupply (funded : st.Funded a b v) (fits : st.supply < 2 ^ 64) : (st.pay a b v).supply = st.supply := by
  by_cases self : a = b
  · rw [payIdle (.inr self)]
  · obtain ⟨debit,deposit⟩ := paidBalance self funded fits
    refine totalMove self ?_ (by omega)
    intro x left right
    rw [balances,payOther left right,balances]

theorem payKeeps (funded : st.Funded a b v) (fits : st.supply < 2 ^ 64) (other : x ≠ a) :
    st.balances x ≤ (st.pay a b v).balances x := by
  by_cases same : x = b
  · subst same
    have := paidBalance other.symm funded fits
    omega
  · rw [balances,balances,payOther other same]

theorem supplySet (acct : Account) : (setAccount st a acct).supply + st.balances a = st.supply + acct.balance.toNat := by
  have own : (setAccount st a acct).balances a = acct.balance.toNat := by
    rw [balances,setAccountAt,if_pos rfl]
  rw [← own]
  refine totalAt (fun x other => ?_)
  rw [balances,balances,setAccountAt,if_neg other]

theorem gainsSupply (final mid : MptState) {gain : Address → ℤ}
    (each : ∀ a, (final.balances a : ℤ) = mid.balances a + gain a) : (final.supply : ℤ) = mid.supply + ∑ a, gain a := by
  have sums : ∑ a, (final.balances a : ℤ) = ∑ a, (mid.balances a : ℤ) + ∑ a, gain a := by
    simp only [each,Finset.sum_add_distrib]
  simpa only [supply,total,Nat.cast_sum] using sums

theorem gainsKeepSupply (final mid : MptState) {gain : Address → ℤ} (none : ∑ a, gain a = 0)
    (each : ∀ a, (final.balances a : ℤ) = mid.balances a + gain a) : final.supply = mid.supply := by
  have moved := gainsSupply final mid each
  rw [none,add_zero] at moved
  exact Int.ofNat.inj moved

end
end L1Chain.MptState
