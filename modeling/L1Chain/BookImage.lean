import L1Chain.BookSlots
import L1Chain.Locks

/-! The storage of the exchange account after a save, word by word. The order slots and
the size hold an image of the book and nothing else, so they depend on the book alone and
not on the books that were saved before; the holdings words hold the balances the engine
lists; no other word is written. -/
namespace L1Chain.Exchange
open MptState

def orderWord (ns : BitVec 8) (o : Order) : Hash := if ns = nsOrderA then orderA o else orderB o

def orderSpaces : List (BitVec 8) := [nsOrderA,nsOrderB]

def Trimmed (st : MptState) : Prop :=
  ∀ ns ∈ orderSpaces, ∀ i, bookSize st ≤ i → getStorage st address (indexKey ns i) = 0

structure Foreign (balances : AList (fun _ : Address => Balance)) (k : Hash) : Prop where
  order : ∀ ns ∈ orderSpaces, ∀ i, k ≠ indexKey ns i
  size : k ≠ indexKey nsBookSize 0
  holdings : ∀ a ∈ balances, k ≠ holdingsKey a

structure Holds (st : MptState) (a : Address) (bal : Balance) : Prop where
  base : i64 (baseOf st a).1 = .ok bal.base
  lockedBase : i64 (baseOf st a).2 = .ok bal.lockedBase
  lockedQuote : i64 (lockedQuoteOf st a) = .ok bal.lockedQuote

section
variable {E : Type} {eng : Engine E} {st st' : MptState} {e : E} {a : Address} {ns : BitVec 8} {i : UInt64} {k : Hash}

theorem keyWritten (key val : Hash) : getStorage (setStorage st address key val) address k =
    if k = key then val else getStorage st address k := by
  simp only [getStorageEq,setStorageAt,if_true]

theorem slotWritten (inside : ns ∈ orderSpaces) (j : UInt64) (valA valB : Hash) :
    getStorage (setStorage (setStorage st address (indexKey nsOrderA j) valA) address (indexKey nsOrderB j) valB) address
      (indexKey ns i) = if i = j then (if ns = nsOrderA then valA else valB) else getStorage st address (indexKey ns i) := by
  have apart : nsOrderA ≠ nsOrderB := by decide
  rw [wordWritten,wordWritten]
  rcases List.mem_pair.mp inside with rfl | rfl
  · simp [apart]
  · simp [apart.symm]

theorem foreignWritten (order : ∀ ns ∈ orderSpaces, ∀ i, k ≠ indexKey ns i) (j : UInt64) (valA valB : Hash) :
    getStorage (setStorage (setStorage st address (indexKey nsOrderA j) valA) address (indexKey nsOrderB j) valB) address
      k = getStorage st address k := by
  rw [keyWritten,if_neg (order nsOrderB (by decide) j),keyWritten,if_neg (order nsOrderA (by decide) j)]

theorem ofNatIs {n : ℕ} (small : n < 2 ^ 64) : i = UInt64.ofNat n ↔ i.toNat = n := by
  rw [← UInt64.toNat_inj,UInt64.toNat_ofNat',Nat.mod_eq_of_lt small]

theorem ordersWords {orders : List Order} {n : ℕ} (inside : ns ∈ orderSpaces) (room : n + orders.length ≤ 2 ^ 64) :
    getStorage (saveOrders st n orders) address (indexKey ns i) =
      if n ≤ i.toNat then ((orders[i.toNat - n]?).map (orderWord ns)).getD (getStorage st address (indexKey ns i))
      else getStorage st address (indexKey ns i) := by
  induction orders generalizing st n with
  | nil => simp [saveOrders]
  | cons o rest ih =>
    rw [List.length_cons] at room
    rw [saveOrders,ih (by omega),slotWritten inside]
    simp only [ofNatIs (show n < 2 ^ 64 by omega)]
    rcases Nat.lt_trichotomy i.toNat n with below | same | above
    · rw [if_neg (by omega),if_neg (by omega),if_neg (by omega)]
    · have here : (o::rest)[i.toNat - n]? = some o := by
        rw [same,Nat.sub_self]
        rfl
      rw [if_neg (show ¬ n + 1 ≤ i.toNat by omega),if_pos same,if_pos (show n ≤ i.toNat by omega),here]
      rfl
    · obtain ⟨m,rest'⟩ : ∃ m, i.toNat - n = m + 1 := ⟨i.toNat - n - 1,by omega⟩
      rw [if_pos (by omega),if_neg (by omega),if_pos (by omega),rest',List.getElem?_cons_succ,
        show i.toNat - (n + 1) = m by omega]

theorem clearedWords {slots : List ℕ} (inside : ns ∈ orderSpaces) (small : ∀ s ∈ slots, s < 2 ^ 64) :
    getStorage (clearSlots st slots) address (indexKey ns i) =
      if i.toNat ∈ slots then 0 else getStorage st address (indexKey ns i) := by
  induction slots generalizing st with
  | nil => simp [clearSlots]
  | cons s rest ih =>
    rw [clearSlots,ih (fun t member => small t (List.mem_cons_of_mem _ member)),slotWritten inside]
    simp only [ofNatIs (small s List.mem_cons_self),List.mem_cons,ite_self]
    by_cases own : i.toNat = s
    · simp [own]
    · simp [own]

theorem ordersForeign (order : ∀ ns ∈ orderSpaces, ∀ i, k ≠ indexKey ns i) {n : ℕ} {orders : List Order} :
    getStorage (saveOrders st n orders) address k = getStorage st address k := by
  induction orders generalizing st n with
  | nil => rfl
  | cons o rest ih => rw [saveOrders,ih,foreignWritten order]

theorem clearedForeign (order : ∀ ns ∈ orderSpaces, ∀ i, k ≠ indexKey ns i) {slots : List ℕ} :
    getStorage (clearSlots st slots) address k = getStorage st address k := by
  induction slots generalizing st with
  | nil => rfl
  | cons s rest ih => rw [clearSlots,ih,foreignWritten order]

theorem balancesForeign {entries : List (Sigma fun _ : Address => Balance)} (ok : saveBalances st entries = .ok st')
    (other : ∀ a ∈ entries.keys, k ≠ holdingsKey a) : getStorage st' address k = getStorage st address k := by
  induction entries generalizing st with
  | nil =>
    cases ok
    rfl
  | cons entry rest ih =>
    obtain ⟨addr,bal⟩ := entry
    unfold saveBalances at ok
    split at ok
    · cases ok
    · dsimp only at ok
      split at ok
      · cases ok
      · have kept : ((setAccount st addr {getAccount st addr with balance := bal.quote.toUInt64}).accounts address).storage =
            (st.accounts address).storage := putKeeps (·.storage) rfl
        rw [ih ok (fun a member => other a (by simp [member])),keyWritten,if_neg (other addr (by simp)),getStorageEq,
          getStorageEq,kept]

theorem i64Signed {q : Int64} (nonneg : ¬ q < 0) : i64 q.toUInt64 = .ok q := by
  have value := quoteNat nonneg
  have top := q.toInt_lt
  have small : ¬ q.toUInt64 > 0x7FFFFFFFFFFFFFFF := by
    rw [gt_iff_lt,UInt64.lt_iff_toNat_lt]
    have bound : (0x7FFFFFFFFFFFFFFF : UInt64).toNat = 9223372036854775807 := rfl
    rw [bound]
    omega
  rw [i64,if_neg small]
  rfl

section
variable (small : (eng.book e).length < 2 ^ 64) (ok : save eng st e = .ok st')
include ok

theorem savedForeign (foreign : Foreign (eng.balances e) k) : getStorage st' address k = getStorage st address k := by
  unfold save at ok
  rw [balancesForeign ok foreign.holdings,keyWritten,if_neg foreign.size,
    clearedForeign foreign.order,ordersForeign foreign.order]

theorem savedHolds {bal : Balance} (listed : (eng.balances e).lookup a = some bal) : Holds st' a bal := by
  unfold save at ok
  have word : getStorage st' address (holdingsKey a) = holdings bal := by
    rw [holdingsSaved ok (eng.balances e).nodupKeys a,← AList.lookup,listed]
    rfl
  obtain ⟨_,others⟩ := savedNonneg ok ⟨a,bal⟩ (List.of_mem_dlookup listed)
  obtain ⟨base,rest⟩ := not_or.mp others
  obtain ⟨lockedBase,lockedQuote⟩ := not_or.mp rest
  refine ⟨?_,?_,?_⟩
  · rw [baseOf,word,holdingsBase,i64Signed base]
  · rw [baseOf,word,holdingsLockedBase,i64Signed lockedBase]
  · rw [lockedQuoteOf,word,holdingsLockedQuote,i64Signed lockedQuote]

theorem savedSizeWord : getStorage st' address (indexKey nsBookSize 0) =
    (0 : BitVec 192) ++ (UInt64.ofNat (eng.book e).length).toBitVec := by
  unfold save at ok
  rw [balancesBeside ok nsBookSize (by decide) 0,keyWritten,if_pos rfl]

theorem savedSize : bookSize st' = UInt64.ofNat (eng.book e).length := by
  rw [bookSize,savedSizeWord ok,sizeWritten]

include small

theorem savedSizeNat : (bookSize st').toNat = (eng.book e).length := by
  rw [savedSize ok,UInt64.toNat_ofNat',Nat.mod_eq_of_lt small]

theorem savedWord (trimmed : Trimmed st) (inside : ns ∈ orderSpaces) :
    getStorage st' address (indexKey ns i) = ((eng.book e)[i.toNat]?.map (orderWord ns)).getD 0 := by
  unfold save at ok
  have listed : ns ∈ [nsBookSize,nsOrderA,nsOrderB] := List.mem_cons_of_mem _ inside
  have apart : ns ≠ nsBookSize := by
    rintro rfl
    revert inside
    decide
  have slots : ∀ s ∈ (List.range (bookSize st).toNat).drop (eng.book e).length, s < 2 ^ 64 := fun s member =>
    (List.mem_range.mp (List.mem_of_mem_drop member)).trans (bookSize st).toNat_lt
  rw [balancesBeside ok ns listed i,wordWritten,if_neg (fun own => apart own.1),clearedWords inside slots,
    ordersWords inside (by omega),if_pos (Nat.zero_le _),Nat.sub_zero,List.range_eq_range',List.drop_range']
  by_cases held : i.toNat < (eng.book e).length
  · rw [if_neg (fun member => by have bounds := List.mem_range'_1.mp member; omega),List.getElem?_eq_getElem held]
    rfl
  · rw [List.getElem?_eq_none (Nat.le_of_not_lt held),Option.map_none,Option.getD_none,Option.getD_none]
    split
    · rfl
    · rename_i past
      refine trimmed ns inside i (UInt64.le_iff_toNat_le.mpr (Nat.le_of_not_lt fun below => past ?_))
      exact List.mem_range'_1.mpr (by omega)

theorem savedTrimmed (trimmed : Trimmed st) : Trimmed st' := by
  intro ns inside i past
  rw [savedSize ok,UInt64.le_iff_toNat_le,UInt64.toNat_ofNat',Nat.mod_eq_of_lt small] at past
  rw [savedWord small ok trimmed inside,List.getElem?_eq_none past]
  rfl

theorem savedOrder (trimmed : Trimmed st) {n : ℕ} {o : Order} (held : (eng.book e)[n]? = some o) :
    orderAt st' (UInt64.ofNat n) = o := by
  have low := (List.getElem?_eq_some_iff.mp held).1
  have index : (UInt64.ofNat n).toNat = n := by
    rw [UInt64.toNat_ofNat',Nat.mod_eq_of_lt (low.trans small)]
  rw [orderAt,savedWord small ok trimmed (by decide),savedWord small ok trimmed (by decide),index,held]
  exact readPacked o

end

/- After a save the size word and the order slots are the engine's book, whatever book was
there before, as long as nothing had been left past its end; and nothing is left past the
end of the new one. The holdings words of the listed accounts decode to their balances,
and no other word of the account changes. -/
theorem saveCanonical (small : (eng.book e).length < 2 ^ 64) (trimmed : Trimmed st) (ok : save eng st e = .ok st') :
    (bookSize st').toNat = (eng.book e).length ∧
    (∀ (n : ℕ) o, (eng.book e)[n]? = some o → orderAt st' (UInt64.ofNat n) = o) ∧
    Trimmed st' ∧
    (∀ a bal, (eng.balances e).lookup a = some bal → Holds st' a bal) ∧
    (∀ k, Foreign (eng.balances e) k → getStorage st' address k = getStorage st address k) ∧
    ∀ (F : Type) (eng₂ : Engine F) (e₂ : F) (st₂ st₂' : MptState), eng₂.book e₂ = eng.book e → Trimmed st₂ →
      save eng₂ st₂ e₂ = .ok st₂' →
      getStorage st₂' address (indexKey nsBookSize 0) = getStorage st' address (indexKey nsBookSize 0) ∧
      ∀ ns ∈ orderSpaces, ∀ i, getStorage st₂' address (indexKey ns i) = getStorage st' address (indexKey ns i) := by
  refine ⟨savedSizeNat small ok,fun n o => savedOrder small ok trimmed,savedTrimmed small ok trimmed,
    fun a bal => savedHolds ok,fun k => savedForeign ok,fun F eng₂ e₂ st₂ st₂' same trimmed₂ ok₂ =>
      ⟨?_,fun ns inside i => ?_⟩⟩
  · rw [savedSizeWord ok₂,savedSizeWord ok,same]
  · rw [savedWord (same ▸ small) ok₂ trimmed₂ inside,savedWord small ok trimmed inside,same]

def slate : Engine (List Order) where
  new _ := []
  credit e _ _ _ := e
  restore _ orders := .ok orders
  applyPositioned e _ _ _ := (⟨false,none⟩,e)
  stagePlace e _ _ _ := (⟨false,none⟩,none,e)
  clearBatch e _ := .ok (⟨false,0,0⟩,e)
  book e := e
  balances _ := AList.singleton 1 ⟨5,10,0,6⟩

def bid32 : Order := ⟨1,⟨4,0⟩,.buy,2,3⟩

def bid14 : Order := ⟨1,⟨4,1⟩,.buy,1,4⟩

/- Two orders are saved, then one over them: its slot is written anew and the other's cleared. -/
theorem slateSaved : ∃ long short, save slate MptState.empty [bid32,bid14] = .ok long ∧ (bookSize long).toNat = 2 ∧
    orderAt long 1 = bid14 ∧ save slate long [bid14] = .ok short ∧ (bookSize short).toNat = 1 ∧ orderAt short 0 = bid14 ∧
    getStorage short address (indexKey nsOrderA 1) = 0 ∧ Trimmed short ∧ Holds short 1 ⟨5,10,0,6⟩ := by
  obtain ⟨long,first⟩ : ∃ st, save slate MptState.empty [bid32,bid14] = .ok st := ⟨_,rfl⟩
  obtain ⟨size,orders,trimmed,_⟩ := saveCanonical (show [bid32,bid14].length < 2 ^ 64 by decide) (fun _ _ _ _ => rfl) first
  obtain ⟨short,second⟩ : ∃ st, save slate long [bid14] = .ok st := ⟨_,rfl⟩
  obtain ⟨size',orders',left,held,_⟩ := saveCanonical (show [bid14].length < 2 ^ 64 by decide) trimmed second
  have cleared : bookSize short ≤ 1 := UInt64.le_iff_toNat_le.mpr (Nat.le_of_eq size')
  exact ⟨long,short,first,size,orders 1 bid14 rfl,second,size',orders' 0 bid14 rfl,left nsOrderA (by decide) 1 cleared,left,
    held 1 _ rfl⟩

end
end L1Chain.Exchange
