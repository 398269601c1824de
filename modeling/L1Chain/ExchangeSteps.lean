import L1Chain.Exchange
import L1Chain.Runs
import L1Chain.Supply

/-! The quote side of a session. `quotes` is what the engine holds for an account;
`Settles` is what is asked of it: credits enter as they are given, staging and
cancelling move nothing, and the fills of a clear keep the sum. A load puts the
native balances in, a save writes the quotes back over them. -/
namespace L1Chain.Exchange
open Runs MptState

section
variable {E : Type}

def quotes (eng : Engine E) (e : E) (a : Address) : Option Int64 := ((eng.balances e).lookup a).map (·.quote)
def quoteAt (eng : Engine E) (e : E) (a : Address) : ℤ := (quotes eng e a).elim 0 Int64.toInt

structure Settles (eng : Engine E) : Prop where
  fresh : ∀ mode a, quotes eng (eng.new mode) a = none
  credited : ∀ e a base quote, quotes eng e a = none →
    ∀ x, quotes eng (eng.credit e a base quote) x = if x = a then some quote else quotes eng e x
  restored : ∀ e orders e', eng.restore e orders = .ok e' → quotes eng e' = quotes eng e
  cancelled : ∀ e height index account id res e',
    eng.applyPositioned e height index (.cancel account id) = (res,e') → res.accepted → quotes eng e' = quotes eng e
  staged : ∀ e height index op res o e',
    eng.stagePlace e height index op = (res,some o,e') → res.accepted → quotes eng e' = quotes eng e
  cleared : ∀ e orders summary e', eng.clearBatch e orders = .ok (summary,e') →
    (∀ a, (quotes eng e' a).isSome = (quotes eng e a).isSome) ∧ ∑ a, quoteAt eng e' a = ∑ a, quoteAt eng e a

def Credited (eng : Engine E) : Prop := ∀ e a base quote, quotes eng e a = none →
  ∀ x, quotes eng (eng.credit e a base quote) x = if x = a then some quote else quotes eng e x

structure SameTotal (eng : Engine E) (e e' : E) : Prop where
  known : ∀ a, (quotes eng e' a).isSome = (quotes eng e a).isSome
  total : ∑ a, quoteAt eng e' a = ∑ a, quoteAt eng e a

/- What continuous matching asks of the engine: credits enter as they are given, and
restoring a book or applying an order conserves the total quote. -/
structure Conserving (eng : Engine E) : Prop where
  fresh : ∀ mode a, quotes eng (eng.new mode) a = none
  credited : Credited eng
  restored : ∀ e orders e', eng.restore e orders = .ok e' → SameTotal eng e e'
  applied : ∀ e height index op res e',
    eng.applyPositioned e height index op = (res,e') → res.accepted → SameTotal eng e e'

structure NoMore (eng : Engine E) (e e' : E) : Prop where
  known : ∀ a, (quotes eng e' a).isSome = (quotes eng e a).isSome
  total : ∑ a, quoteAt eng e' a ≤ ∑ a, quoteAt eng e a

/- All that is asked of an engine that must not make coins: its totals never rise. -/
structure Frugal (eng : Engine E) : Prop where
  fresh : ∀ mode a, quotes eng (eng.new mode) a = none
  credited : Credited eng
  restored : ∀ e orders e', eng.restore e orders = .ok e' → NoMore eng e e'
  applied : ∀ e height index op res e',
    eng.applyPositioned e height index op = (res,e') → res.accepted → NoMore eng e e'

theorem SameTotal.noMore {eng : Engine E} {e e' : E} (same : SameTotal eng e e') : NoMore eng e e' :=
  ⟨same.known,same.total.le⟩

theorem Conserving.frugal {eng : Engine E} (conserving : Conserving eng) : Frugal eng where
  fresh := conserving.fresh
  credited := conserving.credited
  restored e orders e' ok := (conserving.restored e orders e' ok).noMore
  applied e height index op res e' ok accepted := (conserving.applied e height index op res e' ok accepted).noMore

end

section
variable {E : Type} {eng : Engine E} {st st' : MptState} {e e' : E} {a : Address}

theorem i64Ok {u : UInt64} {q : Int64} (ok : i64 u = .ok q) : q.toInt = u.toNat := by
  unfold i64 at ok
  split at ok
  · cases ok
  · rename_i small
    cases ok
    have bound : u.toNat ≤ 9223372036854775807 := UInt64.le_iff_toNat_le.mp (UInt64.not_lt.mp small)
    have bits : u.toInt64.toInt = u.toBitVec.toInt := rfl
    have value : u.toBitVec.toNat = u.toNat := rfl
    rw [bits,BitVec.toInt_eq_toNat_cond,if_pos (by omega),value]

theorem quoteNat {q : Int64} (nonneg : ¬ q < 0) : (q.toUInt64.toNat : ℤ) = q.toInt := by
  have sign : 0 ≤ q.toBitVec.toInt := by simpa using Int64.lt_iff_toInt_lt.not.mp nonneg
  have small := q.toBitVec.isLt
  show (q.toBitVec.toNat : ℤ) = q.toBitVec.toInt
  rw [BitVec.toInt_eq_toNat_cond] at sign ⊢
  split at sign <;> omega

theorem creditQuotes (credited : Credited eng) {addrs : List Address} (ok : creditAccounts eng st e addrs = .ok e')
    (once : addrs.Nodup) (unheld : ∀ a ∈ addrs, quotes eng e a = none) (a : Address) :
    if a ∈ addrs then ∃ q, quotes eng e' a = some q ∧ q.toInt = st.balances a else quotes eng e' a = quotes eng e a := by
  induction addrs generalizing e with
  | nil =>
    cases ok
    simp
  | cons addr rest ih =>
    simp only [creditAccounts,bindOk] at ok
    obtain ⟨base,_,quote,inRange,later⟩ := ok
    obtain ⟨fresh,once⟩ := List.nodup_cons.mp once
    have held := credited e addr base quote (unheld addr List.mem_cons_self)
    have apart : ∀ a ∈ rest, quotes eng (eng.credit e addr base quote) a = none := by
      intro a member
      rw [held,if_neg (fun same : a = addr => fresh (same ▸ member))]
      exact unheld a (List.mem_cons_of_mem _ member)
    have tail := ih later once apart
    by_cases member : a ∈ rest
    · rw [if_pos (List.mem_cons_of_mem _ member)]
      rwa [if_pos member] at tail
    · rw [if_neg member,held] at tail
      by_cases same : a = addr
      · rw [if_pos (same ▸ List.mem_cons_self)]
        rw [if_pos same] at tail
        exact ⟨quote,tail,by rw [i64Ok inRange,same]; rfl⟩
      · rw [if_neg same] at tail
        rwa [if_neg (by simp [same,member])]

theorem loadQuotes (settles : Settles eng) {mode : Mode} {extra : List Address} (ok : load eng st mode extra = .ok e)
    (a : Address) :
    if a ∈ loadedAccounts st extra then ∃ q, quotes eng e a = some q ∧ q.toInt = st.balances a
    else quotes eng e a = none := by
  simp only [load,bindOk] at ok
  obtain ⟨e₀,credited,restored⟩ := ok
  have held := creditQuotes settles.credited credited (eraseDupsNodup _) (fun a _ => settles.fresh mode a) a
  rw [settles.fresh] at held
  split at restored
  · cases restored
  · rename_i e₁ done
    cases restored
    rw [settles.restored _ _ _ done]
    exact held

theorem sessionApply (settles : Settles eng) {s s' : BatchSession E} {height : UInt64} {index : UInt32}
    {sender : Address} {data : Bytes} (ok : s.apply eng height index sender data = .ok s') :
    quotes eng s'.engine = quotes eng s.engine ∧ s'.touched = true := by
  simp only [BatchSession.apply,bindOk] at ok
  obtain ⟨op,_,ok⟩ := ok
  split at ok
  · split at ok
    · rename_i accepted
      cases ok
      exact ⟨settles.cancelled _ _ _ _ _ _ _ rfl accepted,rfl⟩
    · cases ok
  · split at ok
    · rename_i res o e' placed
      split at ok
      · rename_i accepted
        cases ok
        exact ⟨settles.staged _ _ _ _ _ _ _ placed accepted,rfl⟩
      · cases ok
    · cases ok

theorem namespaceApart {ns : BitVec 8} {i : UInt64} (other : ns ≠ nsHoldings) (a : Address) :
    holdingsKey a ≠ indexKey ns i := by
  have left : BitVec.extractLsb' 248 8 (holdingsKey a) = nsHoldings := by
    show BitVec.extractLsb' 248 8 (_ ++ _) = nsHoldings
    rw [BitVec.extractLsb'_append_eq_of_le (by decide),BitVec.extractLsb'_append_eq_of_le (by decide),
      BitVec.extractLsb'_eq_self]
  have right : BitVec.extractLsb' 248 8 (indexKey ns i) = ns := by
    show BitVec.extractLsb' 248 8 (_ ++ _) = ns
    rw [BitVec.extractLsb'_append_eq_of_le (by decide),BitVec.extractLsb'_append_eq_of_le (by decide),
      BitVec.extractLsb'_eq_self]
  intro same
  rw [same,right] at left
  exact other left

def Unindexed {β : Type} (f : MptState → β) : Prop :=
  ∀ st ns i val, ns ≠ nsHoldings → f (setStorage st address (indexKey ns i) val) = f st

theorem balancesUnindexed : Unindexed balances := fun _ _ _ _ _ => storageBalances ..

theorem holdingsUnindexed (a : Address) : Unindexed fun st => getStorage st address (holdingsKey a) := by
  intro st ns i val other
  simp only [getStorageEq,setStorageAt,if_true]
  exact if_neg (namespaceApart other a)

theorem ordersFrame {β : Type} {f : MptState → β} (frame : Unindexed f) (i : ℕ) (orders : List Order) :
    f (saveOrders st i orders) = f st := by
  induction orders generalizing st i with
  | nil => rfl
  | cons o rest ih => rw [saveOrders,ih,frame _ _ _ _ (by decide),frame _ _ _ _ (by decide)]

theorem slotsFrame {β : Type} {f : MptState → β} (frame : Unindexed f) (slots : List ℕ) :
    f (clearSlots st slots) = f st := by
  induction slots generalizing st with
  | nil => rfl
  | cons i rest ih => rw [clearSlots,ih,frame _ _ _ _ (by decide),frame _ _ _ _ (by decide)]

theorem auctionFrame {β : Type} {f : MptState → β} (frame : Unindexed f) (price volume : Int64) (height : UInt64) :
    f (writeLastAuction st price volume height) = f st := by
  rw [writeLastAuction,frame _ _ _ _ (by decide),frame _ _ _ _ (by decide)]

theorem saveSplit (ok : save eng st e = .ok st') : ∃ mid, saveBalances mid (eng.balances e).entries = .ok st' ∧
    ∀ {β : Type} {f : MptState → β}, Unindexed f → f mid = f st :=
  ⟨_,ok,fun frame => by rw [frame _ _ _ _ (by decide),slotsFrame frame,ordersFrame frame]⟩

theorem savedNonneg {entries : List (Sigma fun _ : Address => Balance)} (ok : saveBalances st entries = .ok st') :
    ∀ entry ∈ entries, ¬ entry.2.quote < 0 ∧ ¬ (entry.2.base < 0 ∨ entry.2.lockedBase < 0 ∨ entry.2.lockedQuote < 0) := by
  induction entries generalizing st with
  | nil =>
    intro entry member
    cases member
  | cons first rest ih =>
    obtain ⟨addr,bal⟩ := first
    unfold saveBalances at ok
    split at ok
    · cases ok
    · rename_i quote
      dsimp only at ok
      split at ok
      · cases ok
      · rename_i others
        intro entry member
        rcases List.mem_cons.mp member with rfl | later
        · exact ⟨quote,others⟩
        · exact ih ok entry later

theorem balancesSaved {entries : List (Sigma fun _ : Address => Balance)} (ok : saveBalances st entries = .ok st')
    (once : entries.NodupKeys) (a : Address) :
    (st'.balances a : ℤ) = ((entries.dlookup a).map (·.quote)).elim (st.balances a : ℤ) Int64.toInt := by
  induction entries generalizing st with
  | nil =>
    cases ok
    rfl
  | cons entry rest ih =>
    obtain ⟨addr,bal⟩ := entry
    obtain ⟨fresh,once⟩ := List.nodupKeys_cons.mp once
    unfold saveBalances at ok
    split at ok
    · cases ok
    · rename_i nonneg
      dsimp only at ok
      split at ok
      · cases ok
      · rw [ih ok once,storageBalances]
        by_cases same : a = addr
        · subst same
          rw [List.dlookup_eq_none.mpr fresh,List.dlookup_cons_eq]
          simp only [Option.map_none,Option.map_some,Option.elim_none,Option.elim_some,balances,setAccountAt,if_true]
          exact quoteNat nonneg
        · rw [List.dlookup_cons_ne _ _ same]
          simp only [balances,setAccountAt,if_neg same]

theorem saveQuotes (ok : save eng st e = .ok st') (a : Address) :
    (st'.balances a : ℤ) = (quotes eng e a).elim (st.balances a : ℤ) Int64.toInt := by
  obtain ⟨mid,written,kept⟩ := saveSplit ok
  have saved := balancesSaved written (eng.balances e).nodupKeys a
  rwa [kept balancesUnindexed] at saved

theorem savedGain {loaded : Prop} [Decidable loaded] {start mid final : ℕ}
    (held : if loaded then ∃ q, quotes eng e a = some q ∧ q.toInt = start else quotes eng e a = none)
    (known : (quotes eng e' a).isSome = (quotes eng e a).isSome)
    (saved : (final : ℤ) = (quotes eng e' a).elim (mid : ℤ) Int64.toInt) :
    if loaded then (final : ℤ) = start + (quoteAt eng e' a - quoteAt eng e a)
    else final = mid ∧ quoteAt eng e' a - quoteAt eng e a = 0 := by
  split
  · rename_i inside
    rw [if_pos inside] at held
    obtain ⟨q,found,value⟩ := held
    rw [found,Option.isSome_some,Option.isSome_iff_exists] at known
    obtain ⟨q',found'⟩ := known
    rw [saved,quoteAt,quoteAt,found,found',← value]
    simp only [Option.elim_some]
    omega
  · rename_i outside
    rw [if_neg outside] at held
    rw [held,Option.isSome_none,Option.isSome_eq_false_iff,Option.isNone_iff_eq_none] at known
    rw [known] at saved
    rw [quoteAt,quoteAt,held,known]
    exact ⟨Int.ofNat.inj saved,rfl⟩

theorem applyGains (fresh : ∀ mode a, quotes eng (eng.new mode) a = none) (credited : Credited eng) {tx : Transaction}
    {height : UInt64} {index : UInt32} (ok : apply eng st tx height index = .ok st') :
    ∃ start orders book op res after, eng.restore start orders = .ok book ∧
      eng.applyPositioned book height index op = (res,after) ∧ res.accepted ∧
      ((∀ a, (quotes eng after a).isSome = (quotes eng start a).isSome) →
        (st'.supply : ℤ) = st.supply + (∑ a, quoteAt eng after a - ∑ a, quoteAt eng start a)) := by
  simp only [apply,bindOk] at ok
  obtain ⟨op,_,e,loaded,ok⟩ := ok
  split at ok
  · rename_i accepted
    simp only [load,bindOk] at loaded
    obtain ⟨start,entered,restored⟩ := loaded
    split at restored
    · cases restored
    · rename_i book done
      cases restored
      refine ⟨start,_,e,op,_,_,done,rfl,accepted,fun known => ?_⟩
      rw [← Finset.sum_sub_distrib]
      refine gainsSupply st' st (fun a => ?_)
      have held := creditQuotes credited entered (eraseDupsNodup _) (fun a _ => fresh _ a) a
      rw [fresh] at held
      have ends := savedGain held (known a) (saveQuotes ok a)
      split at ends
      · exact ends
      · rw [ends.1,ends.2,add_zero]
  · cases ok

theorem applySupply (conserving : Conserving eng) {tx : Transaction} {height : UInt64} {index : UInt32}
    (ok : apply eng st tx height index = .ok st') : st'.supply = st.supply := by
  obtain ⟨_,_,_,_,_,_,restored,applied,accepted,moved⟩ := applyGains conserving.fresh conserving.credited ok
  have first := conserving.restored _ _ _ restored
  have second := conserving.applied _ _ _ _ _ _ applied accepted
  have gains := moved (fun a => (second.known a).trans (first.known a))
  rw [second.total,first.total,sub_self,add_zero] at gains
  exact Int.ofNat.inj gains

theorem applyFrugal (frugal : Frugal eng) {tx : Transaction} {height : UInt64} {index : UInt32}
    (ok : apply eng st tx height index = .ok st') : st'.supply ≤ st.supply := by
  obtain ⟨_,_,_,_,_,_,restored,applied,accepted,moved⟩ := applyGains frugal.fresh frugal.credited ok
  have first := frugal.restored _ _ _ restored
  have second := frugal.applied _ _ _ _ _ _ applied accepted
  have gains := moved (fun a => (second.known a).trans (first.known a))
  have less := second.total.trans first.total
  omega

theorem finishOk {s : BatchSession E} {height : UInt64} (touched : s.touched = true)
    (ok : s.finish eng st height = .ok st') :
    ∃ summary cleared, eng.clearBatch s.engine s.staged = .ok (summary,cleared) ∧
      ∀ a, (st'.balances a : ℤ) = (quotes eng cleared a).elim (st.balances a : ℤ) Int64.toInt := by
  unfold BatchSession.finish at ok
  rw [if_pos touched] at ok
  split at ok
  · cases ok
  · rename_i summary cleared clears
    rw [bindOk] at ok
    obtain ⟨saved,wrote,last⟩ := ok
    refine ⟨summary,cleared,clears,fun a => ?_⟩
    rw [← saveQuotes wrote a]
    cases Except.ok.inj last
    split
    · rw [auctionFrame balancesUnindexed]
    · rfl

def Aside {β : Type} (f : Account → β) : Prop :=
  ∀ acct balance storage, f {acct with balance := balance, storage := storage} = f acct

section
variable {β : Type} {f : Account → β}

theorem asideUnindexed (aside : Aside f) (a : Address) : Unindexed fun st => f (st.accounts a) :=
  fun _ _ _ _ _ => putKeeps f (aside _ _ _)

theorem balancesAside (aside : Aside f) {entries : List (Sigma fun _ : Address => Balance)}
    (ok : saveBalances st entries = .ok st') : f (st'.accounts a) = f (st.accounts a) := by
  induction entries generalizing st with
  | nil =>
    cases ok
    rfl
  | cons entry rest ih =>
    obtain ⟨addr,bal⟩ := entry
    unfold saveBalances at ok
    split at ok
    · cases ok
    · dsimp only at ok
      split at ok
      · cases ok
      · exact (ih ok).trans ((putKeeps f (aside _ _ _)).trans (putKeeps f (aside _ _ _)))

theorem saveAside (aside : Aside f) (ok : save eng st e = .ok st') : f (st'.accounts a) = f (st.accounts a) := by
  obtain ⟨mid,written,kept⟩ := saveSplit ok
  exact (balancesAside aside written).trans (kept (asideUnindexed aside a))

theorem applyAside (aside : Aside f) {tx : Transaction} {height : UInt64} {index : UInt32}
    (ok : apply eng st tx height index = .ok st') : f (st'.accounts a) = f (st.accounts a) := by
  simp only [apply,bindOk] at ok
  obtain ⟨_,_,_,_,ok⟩ := ok
  split at ok
  · exact saveAside aside ok
  · cases ok

theorem finishAside (aside : Aside f) {s : BatchSession E} {height : UInt64} (ok : s.finish eng st height = .ok st') :
    f (st'.accounts a) = f (st.accounts a) := by
  unfold BatchSession.finish at ok
  split at ok
  · split at ok
    · cases ok
    · rw [bindOk] at ok
      obtain ⟨saved,wrote,last⟩ := ok
      rw [← saveAside aside wrote]
      cases Except.ok.inj last
      split
      · exact auctionFrame (asideUnindexed aside a) ..
      · rfl
  · cases ok
    rfl

end

theorem nonceAside : Aside (fun acct => acct.nonce) := fun _ _ _ => rfl

theorem codeAside : Aside (fun acct => acct.code) := fun _ _ _ => rfl

end
end L1Chain.Exchange
