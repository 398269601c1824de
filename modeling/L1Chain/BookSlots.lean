import L1Chain.ExchangeSteps

/-! The order book in storage. A resting order takes two words of the exchange account and
the book one more, its size. A save writes them over whatever was there, so the next load
reads exactly the orders the engine had on its book. -/
namespace L1Chain.Exchange
open MptState

section
variable {E : Type} {eng : Engine E} {st st' mid : MptState} {e : E} {a : Address} {ns ns' : BitVec 8} {i j : UInt64}

theorem packedA (o : Order) : BitVec.extractLsb' 96 160 (orderA o) = o.account ∧
    field64 (orderA o) 32 = o.id.height ∧ BitVec.extractLsb' 0 32 (orderA o) = o.id.index.toBitVec := by
  refine ⟨?_,UInt64.toBitVec_inj.mp ?_,?_⟩
  · show BitVec.extractLsb' 96 160 (_ ++ _) = o.account
    rw [BitVec.extractLsb'_append_eq_of_le (by decide),BitVec.extractLsb'_append_eq_of_le (by decide),
      BitVec.extractLsb'_eq_self]
  · show BitVec.extractLsb' 32 64 (_ ++ _) = o.id.height.toBitVec
    rw [BitVec.extractLsb'_append_eq_of_le (by decide),BitVec.extractLsb'_append_eq_of_add_le (by decide),
      BitVec.extractLsb'_eq_self]
  · show BitVec.extractLsb' 0 32 (_ ++ _) = o.id.index.toBitVec
    rw [BitVec.extractLsb'_append_eq_of_add_le (by decide),BitVec.extractLsb'_eq_self]

theorem packedB (o : Order) : (BitVec.extractLsb' 248 8 (orderB o) = if o.side = .sell then 1 else 0) ∧
    field64 (orderB o) 128 = o.price.toUInt64 ∧ field64 (orderB o) 64 = o.qty.toUInt64 := by
  refine ⟨?_,UInt64.toBitVec_inj.mp ?_,UInt64.toBitVec_inj.mp ?_⟩
  · show BitVec.extractLsb' 248 8 (_ ++ _) = _
    rw [BitVec.extractLsb'_append_eq_of_le (by decide),BitVec.extractLsb'_append_eq_of_le (by decide),
      BitVec.extractLsb'_append_eq_of_le (by decide),BitVec.extractLsb'_append_eq_of_le (by decide),
      BitVec.extractLsb'_eq_self]
  · show BitVec.extractLsb' 128 64 (_ ++ _) = o.price.toBitVec
    rw [BitVec.extractLsb'_append_eq_of_le (by decide),BitVec.extractLsb'_append_eq_of_le (by decide),
      BitVec.extractLsb'_append_eq_of_add_le (by decide),BitVec.extractLsb'_eq_self]
  · show BitVec.extractLsb' 64 64 (_ ++ _) = o.qty.toBitVec
    rw [BitVec.extractLsb'_append_eq_of_le (by decide),BitVec.extractLsb'_append_eq_of_add_le (by decide),
      BitVec.extractLsb'_eq_self]

theorem readPacked (o : Order) : readOrder (orderA o) (orderB o) = o := by
  obtain ⟨account,height,index⟩ := packedA o
  obtain ⟨side,price,qty⟩ := packedB o
  obtain ⟨acct,⟨h,n⟩,s,p,q⟩ := o
  simp only [readOrder,account,height,index,side,price,qty]
  cases s with
  | buy => rfl
  | sell => rfl

theorem indexKeyInjective (same : indexKey ns i = indexKey ns' j) : ns = ns' ∧ i = j := by
  have top (n : BitVec 8) (k : UInt64) : BitVec.extractLsb' 248 8 (indexKey n k) = n := by
    show BitVec.extractLsb' 248 8 (_ ++ _) = n
    rw [BitVec.extractLsb'_append_eq_of_le (by decide),BitVec.extractLsb'_append_eq_of_le (by decide),
      BitVec.extractLsb'_eq_self]
  have low (n : BitVec 8) (k : UInt64) : BitVec.extractLsb' 0 64 (indexKey n k) = k.toBitVec := by
    show BitVec.extractLsb' 0 64 (_ ++ _) = k.toBitVec
    rw [BitVec.extractLsb'_append_eq_of_add_le (by decide),BitVec.extractLsb'_eq_self]
  refine ⟨?_,UInt64.toBitVec_inj.mp ?_⟩
  · rw [← top ns i,same,top]
  · rw [← low ns i,same,low]

theorem wordWritten (val : Hash) : getStorage (setStorage st address (indexKey ns i) val) address (indexKey ns' j) =
    if ns' = ns ∧ j = i then val else getStorage st address (indexKey ns' j) := by
  simp only [getStorageEq,setStorageAt,if_true]
  by_cases own : ns' = ns ∧ j = i
  · rw [if_pos own,if_pos (by rw [own.1,own.2])]
  · rw [if_neg own,if_neg (fun same => own (indexKeyInjective same))]

theorem orderWritten (o : Order) : orderAt (setStorage (setStorage st address (indexKey nsOrderA i) (orderA o)) address
    (indexKey nsOrderB i) (orderB o)) j = if j = i then o else orderAt st j := by
  have apart : nsOrderA ≠ nsOrderB := by decide
  simp only [orderAt,wordWritten,apart,apart.symm,false_and,if_false,true_and]
  split
  · exact readPacked o
  · rfl

theorem orderCleared (other : j ≠ i) : orderAt (setStorage (setStorage st address (indexKey nsOrderA i) 0) address
    (indexKey nsOrderB i) 0) j = orderAt st j := by
  simp only [orderAt,wordWritten,other,and_false,if_false]

theorem slotApart {k n : ℕ} (differ : k ≠ n) (near : k < n + 2 ^ 64 ∧ n < k + 2 ^ 64) : UInt64.ofNat k ≠ UInt64.ofNat n := by
  intro same
  have values := congrArg UInt64.toNat same
  rw [UInt64.toNat_ofNat',UInt64.toNat_ofNat'] at values
  omega

theorem ordersWritten {orders : List Order} {n start : ℕ} (from' : start ≤ n) (room : n + orders.length ≤ start + 2 ^ 64) :
    (List.range' n orders.length).map (fun k => orderAt (saveOrders st n orders) (UInt64.ofNat k)) = orders ∧
    ∀ k < n, start ≤ k → orderAt (saveOrders st n orders) (UInt64.ofNat k) = orderAt st (UInt64.ofNat k) := by
  induction orders generalizing st n with
  | nil => exact ⟨rfl,fun _ _ _ => rfl⟩
  | cons o rest ih =>
    rw [List.length_cons] at room
    rw [saveOrders]
    obtain ⟨later,kept⟩ := @ih (setStorage (setStorage st address (indexKey nsOrderA (UInt64.ofNat n)) (orderA o)) address
      (indexKey nsOrderB (UInt64.ofNat n)) (orderB o)) (n + 1) (by omega) (by omega)
    refine ⟨?_,fun k below inside => ?_⟩
    · rw [List.length_cons,List.range'_succ,List.map_cons,later,kept n (by omega) from',orderWritten,if_pos rfl]
    · rw [kept k (by omega) inside,orderWritten,if_neg (slotApart (by omega) (by omega))]

theorem ordersAppend (front back : List Order) (n : ℕ) :
    saveOrders st n (front ++ back) = saveOrders (saveOrders st n front) (n + front.length) back := by
  induction front generalizing st n with
  | nil => rfl
  | cons o rest ih =>
    rw [List.cons_append,saveOrders,ih,saveOrders,List.length_cons,Nat.add_assoc,Nat.add_comm 1]

theorem lowSlots (orders : List Order) :
    (List.range (orders.length % 2 ^ 64)).map (fun k => orderAt (saveOrders st 0 orders) (UInt64.ofNat k)) =
      orders.drop (2 ^ 64 * (orders.length / 2 ^ 64)) := by
  generalize turns : 2 ^ 64 * (orders.length / 2 ^ 64) = full
  have split := Nat.div_add_mod orders.length (2 ^ 64)
  have lengths : (orders.take full).length = full ∧ (orders.drop full).length = orders.length % 2 ^ 64 := by
    rw [List.length_take,List.length_drop]
    omega
  have written := (@ordersWritten (saveOrders st 0 (orders.take full)) (orders.drop full) full full le_rfl
    (by rw [lengths.2]; omega)).1
  have whole := @ordersAppend st (orders.take full) (orders.drop full) 0
  rw [List.take_append_drop,Nat.zero_add,lengths.1] at whole
  rw [whole]
  refine Eq.trans ?_ written
  rw [lengths.2,List.range'_eq_map_range,List.map_map]
  refine List.map_congr_left fun k _ => congrArg (orderAt _) ?_
  refine UInt64.toNat_inj.mp ?_
  rw [UInt64.toNat_ofNat',UInt64.toNat_ofNat',← turns,Nat.mul_add_mod]

theorem ordersKept {slots : List ℕ} {n k : ℕ} (above : ∀ s ∈ slots, n ≤ s ∧ s < 2 ^ 64) (below : k < n) (small : k < 2 ^ 64) :
    orderAt (clearSlots st slots) (UInt64.ofNat k) = orderAt st (UInt64.ofNat k) := by
  induction slots generalizing st with
  | nil => rfl
  | cons s rest ih =>
    have high := above s List.mem_cons_self
    rw [clearSlots,ih (fun t member => above t (List.mem_cons_of_mem _ member)),
      orderCleared (ofNatNe (by omega) (by omega) high.2)]

def SameBook (st' st : MptState) : Prop :=
  ∀ ns ∈ [nsBookSize,nsOrderA,nsOrderB], ∀ i,
    getStorage st' address (indexKey ns i) = getStorage st address (indexKey ns i)

theorem SameBook.trans (second : SameBook st' mid) (first : SameBook mid st) : SameBook st' st :=
  fun ns member i => (second ns member i).trans (first ns member i)

theorem SameBook.resting (same : SameBook st' st) : restingOrders st' = restingOrders st := by
  have size : bookSize st' = bookSize st := congrArg (field64 · 0) (same nsBookSize (by decide) 0)
  have order (i : UInt64) : orderAt st' i = orderAt st i := by
    rw [orderAt,orderAt,same nsOrderA (by decide),same nsOrderB (by decide)]
  rw [restingOrders,restingOrders,size]
  simp only [order]

theorem sameStorage (same : (st'.accounts address).storage = (st.accounts address).storage) : SameBook st' st :=
  fun _ _ _ => by rw [getStorageEq,getStorageEq,same]

theorem holdingsBeside (val : Hash) : SameBook (setStorage st address (holdingsKey a) val) st := by
  intro ns member i
  have other : ns ≠ nsHoldings := by
    rintro rfl
    revert member
    decide
  simp only [getStorageEq,setStorageAt,if_true]
  exact if_neg (fun same => namespaceApart other a same.symm)

theorem balancesBeside {entries : List (Sigma fun _ : Address => Balance)} (ok : saveBalances st entries = .ok st') :
    SameBook st' st := by
  induction entries generalizing st with
  | nil =>
    cases ok
    exact fun _ _ _ => rfl
  | cons entry rest ih =>
    obtain ⟨addr,bal⟩ := entry
    unfold saveBalances at ok
    split at ok
    · cases ok
    · dsimp only at ok
      split at ok
      · cases ok
      · exact (ih ok).trans ((holdingsBeside _).trans (sameStorage (putKeeps (·.storage) rfl)))

theorem auctionBeside (price volume : Int64) (height : UInt64) : SameBook (writeLastAuction st price volume height) st := by
  intro ns member i
  have other : ns ≠ nsLastAuction := by
    rintro rfl
    revert member
    decide
  simp only [writeLastAuction,wordWritten,other,false_and,if_false]

theorem sizeWritten (n : UInt64) : field64 ((0 : BitVec 192) ++ n.toBitVec) 0 = n := by
  refine UInt64.toBitVec_inj.mp ?_
  show BitVec.extractLsb' 0 64 (_ ++ _) = n.toBitVec
  rw [BitVec.extractLsb'_append_eq_of_add_le (by decide),BitVec.extractLsb'_eq_self]

theorem savedBook (ok : save eng st e = .ok st') :
    restingOrders st' = (eng.book e).drop (2 ^ 64 * ((eng.book e).length / 2 ^ 64)) := by
  unfold save at ok
  dsimp only at ok
  rw [(balancesBeside ok).resting]
  have size (before : MptState) (n : UInt64) : bookSize (setStorage before address (indexKey nsBookSize 0)
      ((0 : BitVec 192) ++ n.toBitVec)) = n := by
    rw [bookSize,wordWritten,if_pos ⟨rfl,rfl⟩,sizeWritten]
  have beside (before : MptState) (word : Hash) (k : UInt64) :
      orderAt (setStorage before address (indexKey nsBookSize 0) word) k = orderAt before k := by
    have first : nsOrderA ≠ nsBookSize := by decide
    have second : nsOrderB ≠ nsBookSize := by decide
    simp only [orderAt,wordWritten,first,second,false_and,if_false]
  have above : ∀ s ∈ (List.range (bookSize st).toNat).drop (eng.book e).length, (eng.book e).length ≤ s ∧ s < 2 ^ 64 := by
    intro s member
    rw [List.range_eq_range',List.drop_range'] at member
    have bounds := List.mem_range'_1.mp member
    have top := (bookSize st).toNat_lt
    omega
  rw [restingOrders,size,UInt64.toNat_ofNat',← @lowSlots st]
  refine List.map_congr_left fun k member => ?_
  have low := List.mem_range.mp member
  rw [beside,ordersKept above (by omega) (by omega)]

end
end L1Chain.Exchange
