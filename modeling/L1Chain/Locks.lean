import L1Chain.ExchangeSteps

/-! Locks of the order book. The engine locks what its orders have committed and a
save writes the locks into the holdings words of the exchange account, next to native
balances that every other transaction may spend. `Locks` is what is asked of the
engine; `Solvent` is what its users expect of the state. -/
namespace L1Chain.Exchange
open Runs MptState

def Solvent (st : MptState) : Prop :=
  ∀ a, lockedQuoteOf st a ≤ (getAccount st a).balance ∧ (baseOf st a).2 ≤ (baseOf st a).1

section
variable {E : Type}

def committedQuote (orders : List Order) (a : Address) : ℤ :=
  ((orders.filter (fun o => o.account = a ∧ o.side = .buy)).map (fun o => o.price.toInt * o.qty.toInt)).sum
def committedBase (orders : List Order) (a : Address) : ℤ :=
  ((orders.filter (fun o => o.account = a ∧ o.side = .sell)).map (fun o => o.qty.toInt)).sum

/- The engine between two calls, with the orders it has staged. An order is accepted
only where the unlocked part of its owner's holdings covers it, so what the orders on
the book and the staged ones lock stays within the totals of the snapshot. -/
structure Locks (eng : Engine E) (Valid : E → List Order → Prop) : Prop where
  empty : ∀ mode a, quotes eng (eng.new mode) a = none
  enters : Credited eng
  fresh : ∀ mode, Valid (eng.new mode) []
  credited : ∀ e a base quote, Valid e [] → quotes eng e a = none → 0 ≤ base.toInt → 0 ≤ quote.toInt →
    Valid (eng.credit e a base quote) []
  restored : ∀ e orders e', Valid e [] → eng.restore e orders = .ok e' → Valid e' []
  applied : ∀ e height index op res e', Valid e [] → eng.applyPositioned e height index op = (res,e') →
    res.accepted → Valid e' []
  cancelled : ∀ e orders height index account id res e', Valid e orders →
    eng.applyPositioned e height index (.cancel account id) = (res,e') → res.accepted → Valid e' orders
  staged : ∀ e orders height index op res o e', Valid e orders →
    eng.stagePlace e height index op = (res,some o,e') → res.accepted → Valid e' (orders ++ [o])
  cleared : ∀ e orders summary e', Valid e orders → eng.clearBatch e orders = .ok (summary,e') → Valid e' []
  covers : ∀ e orders a bal, Valid e orders → (eng.balances e).lookup a = some bal →
    bal.lockedQuote.toInt ≤ bal.quote.toInt ∧ bal.lockedBase.toInt ≤ bal.base.toInt

/- What is locked is what the orders on the book and the staged ones commit, no more. -/
def LocksCommitted (eng : Engine E) (Valid : E → List Order → Prop) : Prop :=
  ∀ e orders a bal, Valid e orders → (eng.balances e).lookup a = some bal →
    bal.lockedQuote.toInt = committedQuote (eng.book e ++ orders) a ∧
      bal.lockedBase.toInt = committedBase (eng.book e ++ orders) a

end

section
variable {E : Type} {eng : Engine E} {Valid : E → List Order → Prop} {st st' : MptState} {e e' : E} {a : Address}

theorem holdingsLockedQuote (bal : Balance) : field64 (holdings bal) 64 = bal.lockedQuote.toUInt64 := by
  refine UInt64.toBitVec_inj.mp ?_
  show BitVec.extractLsb' 64 64 (_ ++ _) = bal.lockedQuote.toBitVec
  rw [BitVec.extractLsb'_append_eq_of_le (by decide),BitVec.extractLsb'_append_eq_of_add_le (by decide),
    BitVec.extractLsb'_eq_self]

theorem holdingsLockedBase (bal : Balance) : field64 (holdings bal) 128 = bal.lockedBase.toUInt64 := by
  refine UInt64.toBitVec_inj.mp ?_
  show BitVec.extractLsb' 128 64 (_ ++ _) = bal.lockedBase.toBitVec
  rw [BitVec.extractLsb'_append_eq_of_le (by decide),BitVec.extractLsb'_append_eq_of_le (by decide),
    BitVec.extractLsb'_append_eq_of_add_le (by decide),BitVec.extractLsb'_eq_self]

theorem holdingsBase (bal : Balance) : field64 (holdings bal) 192 = bal.base.toUInt64 := by
  refine UInt64.toBitVec_inj.mp ?_
  show BitVec.extractLsb' 192 64 (_ ++ _) = bal.base.toBitVec
  rw [BitVec.extractLsb'_append_eq_of_le (by decide),BitVec.extractLsb'_append_eq_of_le (by decide),
    BitVec.extractLsb'_append_eq_of_le (by decide),BitVec.extractLsb'_eq_self]

theorem holdingsKeyInjective {b : Address} (same : holdingsKey a = holdingsKey b) : a = b := by
  have read : ∀ x : Address, BitVec.extractLsb' 0 160 (holdingsKey x) = x := by
    intro x
    show BitVec.extractLsb' 0 160 (_ ++ _) = x
    rw [BitVec.extractLsb'_append_eq_of_add_le (by decide),BitVec.extractLsb'_eq_self]
  rw [← read a,same,read b]

theorem solventFrame (solvent : Solvent st)
    (storage : (st'.accounts address).storage = (st.accounts address).storage)
    (covered : ∀ a, lockedQuoteOf st a ≠ 0 → (lockedQuoteOf st a).toNat ≤ st'.balances a) : Solvent st' := by
  intro a
  have locked : lockedQuoteOf st' a = lockedQuoteOf st a := by
    rw [lockedQuoteOf,getStorageEq,storage,← getStorageEq,← lockedQuoteOf]
  have base : baseOf st' a = baseOf st a := by
    rw [baseOf,getStorageEq,storage,← getStorageEq,← baseOf]
  rw [locked,base]
  refine ⟨?_,(solvent a).2⟩
  by_cases free : lockedQuoteOf st a = 0
  · rw [free]
    exact UInt64.zero_le
  · exact UInt64.le_iff_toNat_le.mpr (covered a free)

theorem solventHeld (solvent : Solvent st) (a : Address) : (lockedQuoteOf st a).toNat ≤ st.balances a :=
  UInt64.le_iff_toNat_le.mp (solvent a).1

theorem solventFree (free : ∀ a, lockedQuoteOf st a = 0 ∧ (baseOf st a).2 = 0) : Solvent st := by
  intro a
  rw [(free a).1,(free a).2]
  exact ⟨UInt64.zero_le,UInt64.zero_le⟩

theorem solventWiped (storage : (st.accounts address).storage = fun _ => 0) : Solvent st := by
  refine solventFree fun a => ?_
  rw [lockedQuoteOf,baseOf,getStorageEq,storage]
  exact (by decide : field64 0 64 = 0 ∧ field64 0 128 = 0)

theorem holdingsSaved {entries : List (Sigma fun _ : Address => Balance)} (ok : saveBalances st entries = .ok st')
    (once : entries.NodupKeys) (a : Address) : getStorage st' address (holdingsKey a) =
      ((entries.dlookup a).map holdings).getD (getStorage st address (holdingsKey a)) := by
  induction entries generalizing st with
  | nil =>
    cases ok
    rfl
  | cons entry rest ih =>
    obtain ⟨addr,bal⟩ := entry
    obtain ⟨fresh,once⟩ := List.nodupKeys_cons.mp once
    unfold saveBalances at ok
    split at ok
    · cases ok
    · dsimp only at ok
      split at ok
      · cases ok
      · rw [ih ok once]
        simp only [getStorageEq,setStorageAt,if_true]
        by_cases same : a = addr
        · subst same
          rw [List.dlookup_eq_none.mpr fresh,List.dlookup_cons_eq]
          simp
        · have kept : ((setAccount st addr {getAccount st addr with balance := bal.quote.toUInt64}).accounts address).storage =
              (st.accounts address).storage := putKeeps (·.storage) rfl
          rw [List.dlookup_cons_ne _ _ same,if_neg (fun eq => same (holdingsKeyInjective eq)),kept]

theorem saveSolvent (covers : ∀ a bal, (eng.balances e).lookup a = some bal →
      bal.lockedQuote.toInt ≤ bal.quote.toInt ∧ bal.lockedBase.toInt ≤ bal.base.toInt)
    (solvent : Solvent st) (ok : save eng st e = .ok st') : Solvent st' := by
  intro a
  have paid := saveQuotes ok a
  obtain ⟨mid,written,kept⟩ := saveSplit ok
  have word := holdingsSaved written (eng.balances e).nodupKeys a
  rw [kept (holdingsUnindexed a)] at word
  cases found : (eng.balances e).lookup a with
  | none =>
    rw [show (eng.balances e).entries.dlookup a = none from found] at word
    rw [quotes,found] at paid
    have locked : lockedQuoteOf st' a = lockedQuoteOf st a := congrArg (field64 · 64) word
    have base : baseOf st' a = baseOf st a := congrArg (fun h => (field64 h 192,field64 h 128)) word
    have balance : st'.balances a = st.balances a := Int.ofNat.inj paid
    rw [locked,base]
    exact ⟨UInt64.le_iff_toNat_le.mpr ((solventHeld solvent a).trans_eq balance.symm),(solvent a).2⟩
  | some bal =>
    obtain ⟨quoteLe,baseLe⟩ := covers a bal found
    rw [show (eng.balances e).entries.dlookup a = some bal from found] at word
    rw [quotes,found] at paid
    obtain ⟨_,others⟩ := savedNonneg written ⟨a,bal⟩ (List.of_mem_dlookup found)
    simp only [not_or] at others
    obtain ⟨base,lockedBase,lockedQuote⟩ := others
    have locked : lockedQuoteOf st' a = bal.lockedQuote.toUInt64 :=
      (congrArg (field64 · 64) word).trans (holdingsLockedQuote bal)
    have total : baseOf st' a = (bal.base.toUInt64,bal.lockedBase.toUInt64) :=
      (congrArg (fun h => (field64 h 192,field64 h 128)) word).trans
        (Prod.ext (holdingsBase bal) (holdingsLockedBase bal))
    have own : (getAccount st' a).balance.toNat = st'.balances a := rfl
    rw [locked,total]
    constructor
    · rw [UInt64.le_iff_toNat_le,own]
      have value := quoteNat lockedQuote
      simp only [Option.map_some,Option.elim_some] at paid
      omega
    · rw [UInt64.le_iff_toNat_le]
      have left := quoteNat lockedBase
      have right := quoteNat base
      dsimp only
      omega

theorem creditValid (locks : Locks eng Valid) {addrs : List Address} (valid : Valid e [])
    (ok : creditAccounts eng st e addrs = .ok e') (once : addrs.Nodup) (unheld : ∀ a ∈ addrs, quotes eng e a = none) :
    Valid e' [] := by
  induction addrs generalizing e with
  | nil =>
    cases ok
    exact valid
  | cons addr rest ih =>
    simp only [creditAccounts,bindOk] at ok
    obtain ⟨base,baseFits,quote,quoteFits,later⟩ := ok
    obtain ⟨fresh,once⟩ := List.nodup_cons.mp once
    have free := unheld addr List.mem_cons_self
    refine ih (locks.credited e addr base quote valid free ?_ ?_) later once (fun a member => ?_)
    · rw [i64Ok baseFits]
      exact Int.natCast_nonneg _
    · rw [i64Ok quoteFits]
      exact Int.natCast_nonneg _
    · rw [locks.enters e addr base quote free,if_neg (fun same : a = addr => fresh (same ▸ member))]
      exact unheld a (List.mem_cons_of_mem _ member)

theorem loadValid (locks : Locks eng Valid) {mode : Mode} {extra : List Address}
    (ok : load eng st mode extra = .ok e) : Valid e [] := by
  simp only [load,bindOk] at ok
  obtain ⟨start,credited,restored⟩ := ok
  have valid := creditValid locks (locks.fresh mode) credited (eraseDupsNodup _) (fun a _ => locks.empty mode a)
  split at restored
  · cases restored
  · rename_i done
    cases restored
    exact locks.restored _ _ _ valid done

theorem applySolvent (locks : Locks eng Valid) {tx : Transaction} {height : UInt64} {index : UInt32}
    (solvent : Solvent st) (ok : apply eng st tx height index = .ok st') : Solvent st' := by
  simp only [apply,bindOk] at ok
  obtain ⟨op,_,e,loaded,ok⟩ := ok
  split at ok
  · rename_i accepted
    have valid := locks.applied _ _ _ _ _ _ (loadValid locks loaded) rfl accepted
    exact saveSolvent (fun a bal => locks.covers _ _ a bal valid) solvent ok
  · cases ok

theorem sessionValid (locks : Locks eng Valid) {s s' : BatchSession E} {height : UInt64} {index : UInt32}
    {sender : Address} {data : Bytes} (valid : Valid s.engine s.staged)
    (ok : s.apply eng height index sender data = .ok s') : Valid s'.engine s'.staged := by
  simp only [BatchSession.apply,bindOk] at ok
  obtain ⟨op,_,ok⟩ := ok
  split at ok
  · split at ok
    · rename_i accepted
      cases ok
      exact locks.cancelled _ _ _ _ _ _ _ _ valid rfl accepted
    · cases ok
  · split at ok
    · rename_i res o e' placed
      split at ok
      · rename_i accepted
        cases ok
        exact locks.staged _ _ _ _ _ _ _ _ valid placed accepted
      · cases ok
    · cases ok

theorem finishSolvent (locks : Locks eng Valid) {s : BatchSession E} {height : UInt64} (valid : Valid s.engine s.staged)
    (solvent : Solvent st) (ok : s.finish eng st height = .ok st') : Solvent st' := by
  unfold BatchSession.finish at ok
  split at ok
  · split at ok
    · cases ok
    · rename_i summary cleared clears
      rw [bindOk] at ok
      obtain ⟨saved,wrote,last⟩ := ok
      have closed := locks.cleared _ _ _ _ valid clears
      have after := saveSolvent (fun a bal => locks.covers _ _ a bal closed) solvent wrote
      cases Except.ok.inj last
      split
      · intro a
        have word := @auctionFrame saved _ _ (holdingsUnindexed a) summary.price summary.volume height
        have balance := congrFun (@auctionFrame saved _ _ balancesUnindexed summary.price summary.volume height) a
        have held := after a
        rw [lockedQuoteOf,baseOf,word]
        refine ⟨?_,held.2⟩
        rw [UInt64.le_iff_toNat_le]
        exact (solventHeld after a).trans_eq balance.symm
      · exact after
  · cases ok
    exact solvent

theorem creditBaseLocks {amount : UInt64} {b : Address} :
    lockedQuoteOf (creditBase st b amount) a = lockedQuoteOf st a ∧
      (baseOf (creditBase st b amount) a).2 = (baseOf st a).2 := by
  have part : ∀ (word : Hash) (top : BitVec 64) (low : ℕ), low + 64 ≤ 192 →
      field64 (top ++ word.extractLsb' 0 192) low = field64 word low := by
    intro word top low inside
    refine UInt64.toBitVec_inj.mp ?_
    show BitVec.extractLsb' low 64 (_ ++ _) = word.extractLsb' low 64
    rw [BitVec.extractLsb'_append_eq_of_add_le inside,BitVec.extractLsb'_extractLsb'_of_le inside]
  unfold lockedQuoteOf baseOf creditBase
  simp only [getStorageEq,setStorageAt,if_true]
  split
  · rename_i same
    rw [same]
    exact ⟨part _ _ 64 (by decide),part _ _ 128 (by decide)⟩
  · exact ⟨rfl,rfl⟩

end
end L1Chain.Exchange

namespace L1Chain.Devnet
open Exchange Runs

/- A book for one order at a time: a buy that its owner's quote covers. -/
structure Escrow where
  held : AList (fun _ : Address => Balance)
  resting : List Order
  staged : List Order

namespace Escrow

def price (o : Order) : ℤ := o.price.toInt * o.qty.toInt

def lock (e : Escrow) (o : Order) : Option (AList (fun _ : Address => Balance)) :=
  match e.held.lookup o.account with
  | none => none
  | some b =>
    if e.resting = [] ∧ e.staged = [] ∧ o.side = .buy ∧ 0 ≤ price o ∧ price o ≤ b.quote.toInt then
      some (e.held.insert o.account {b with lockedQuote := Int64.ofInt (price o)})
    else none

def order (height : UInt64) (index : UInt32) : EngineTx → Option Order
  | .place account side price qty => some ⟨account,⟨height,index⟩,side,price,qty⟩
  | .cancel .. => none

structure Valid (e : Escrow) (orders : List Order) : Prop where
  staged : e.staged = orders
  buys : ∀ o ∈ e.resting ++ orders, o.side = .buy ∧ (e.held.lookup o.account).isSome
  locks : ∀ a b, e.held.lookup a = some b → b.lockedBase = 0 ∧ 0 ≤ b.base.toInt ∧
    b.lockedQuote.toInt = committedQuote (e.resting ++ orders) a ∧ b.lockedQuote.toInt ≤ b.quote.toInt

end Escrow

def escrow : Engine Escrow where
  new _ := ⟨∅,[],[]⟩
  credit e a base quote := {e with held := e.held.insert a ⟨base,quote,0,0⟩}
  restore e orders :=
    match orders with
    | [] => .ok e
    | [o] => (e.lock o).elim (.error "unfunded") (fun held => .ok ⟨held,[o],[]⟩)
    | _ => .error "full"
  applyPositioned e height index op :=
    match Escrow.order height index op with
    | none => (⟨false,none⟩,e)
    | some o => (e.lock o).elim (⟨false,none⟩,e) (fun held => (⟨true,none⟩,⟨held,[o],[]⟩))
  stagePlace e height index op :=
    match Escrow.order height index op with
    | none => (⟨false,none⟩,none,e)
    | some o => (e.lock o).elim (⟨false,none⟩,none,e) (fun held => (⟨true,none⟩,some o,⟨held,[],[o]⟩))
  clearBatch e orders := .ok (⟨false,0,0⟩,⟨e.held,e.resting ++ orders,[]⟩)
  book e := e.resting
  balances e := e.held

theorem committedSingle {o : Order} (buy : o.side = .buy) (a : Address) :
    committedQuote [o] a = if o.account = a then Escrow.price o else 0 := by
  unfold committedQuote Escrow.price
  split
  · rename_i own
    simp [buy,own]
  · rename_i other
    simp [other]

theorem lockValid {e : Escrow} {o : Order} {held : AList (fun _ : Address => Balance)} (valid : e.Valid e.staged)
    (ok : e.lock o = some held) : o.side = .buy ∧ (held.lookup o.account).isSome ∧ e.resting = [] ∧ e.staged = [] ∧
      ∀ a b, held.lookup a = some b → b.lockedBase = 0 ∧ 0 ≤ b.base.toInt ∧
        b.lockedQuote.toInt = committedQuote [o] a ∧ b.lockedQuote.toInt ≤ b.quote.toInt := by
  unfold Escrow.lock at ok
  split at ok
  · cases ok
  · rename_i own found
    split at ok
    · rename_i can
      obtain ⟨resting,staged,buy,nonneg,covered⟩ := can
      cases Option.some.inj ok
      refine ⟨buy,by rw [AList.lookup_insert]; rfl,resting,staged,fun a b now => ?_⟩
      rw [committedSingle buy]
      by_cases same : a = o.account
      · subst same
        rw [AList.lookup_insert] at now
        cases Option.some.inj now
        obtain ⟨noBase,base,_,_⟩ := valid.locks _ own found
        have top := own.quote.toInt_lt
        have value : (Int64.ofInt (Escrow.price o)).toInt = Escrow.price o :=
          Int64.toInt_ofInt_of_le (by omega) (by omega)
        rw [if_pos rfl]
        exact ⟨noBase,base,value,value.trans_le covered⟩
      · rw [AList.lookup_insert_ne same] at now
        rw [if_neg (Ne.symm same)]
        obtain ⟨noBase,base,locked,le⟩ := valid.locks a b now
        rw [resting,staged] at locked
        exact ⟨noBase,base,locked,le⟩
    · cases ok

theorem lockedValid {e : Escrow} {o : Order} {held : AList (fun _ : Address => Balance)} (valid : e.Valid e.staged)
    (ok : e.lock o = some held) : Escrow.Valid ⟨held,[o],[]⟩ [] ∧ Escrow.Valid ⟨held,[],[o]⟩ [o] := by
  obtain ⟨buy,known,_,_,locks⟩ := lockValid valid ok
  have only : ∀ x ∈ [o], x.side = .buy ∧ (held.lookup x.account).isSome := by
    intro x member
    rw [List.mem_singleton.mp member]
    exact ⟨buy,known⟩
  exact ⟨⟨rfl,only,locks⟩,⟨rfl,only,locks⟩⟩

theorem quotesNone {e : Escrow} {a : Address} : quotes escrow e a = none ↔ e.held.lookup a = none := by
  simp [quotes,escrow]

theorem creditedValid {e : Escrow} {a : Address} {base quote : Int64} (valid : e.Valid [])
    (unheld : e.held.lookup a = none) (baseSign : 0 ≤ base.toInt) (quoteSign : 0 ≤ quote.toInt) :
    Escrow.Valid ⟨e.held.insert a ⟨base,quote,0,0⟩,e.resting,e.staged⟩ [] := by
  have apart : ∀ o ∈ e.resting ++ [], o.account ≠ a := by
    intro o member same
    have known := (valid.buys o member).2
    rw [same,unheld] at known
    cases known
  refine ⟨valid.staged,fun o member => ?_,fun x b now => ?_⟩
  · rw [AList.lookup_insert_ne (apart o member)]
    exact valid.buys o member
  · by_cases same : x = a
    · subst same
      rw [AList.lookup_insert] at now
      cases Option.some.inj now
      have nothing : committedQuote (e.resting ++ []) x = 0 := by
        unfold committedQuote
        rw [List.filter_eq_nil_iff.mpr (fun o member => by simp [apart o member])]
        rfl
      exact ⟨rfl,baseSign,nothing.symm,quoteSign⟩
    · rw [AList.lookup_insert_ne same] at now
      exact valid.locks x b now

theorem escrowLocks : Locks escrow Escrow.Valid where
  empty mode a := quotesNone.mpr rfl
  enters e a base quote unheld x := by
    by_cases same : x = a
    · subst same
      simp [quotes,escrow,AList.lookup_insert]
    · simp [quotes,escrow,same,AList.lookup_insert_ne]
  fresh mode := ⟨rfl,fun _ member => (nomatch member),fun _ _ found => (nomatch found)⟩
  credited e a base quote valid unheld baseSign quoteSign :=
    creditedValid valid (quotesNone.mp unheld) baseSign quoteSign
  restored e orders e' valid ok := by
    match orders with
    | [] =>
      cases ok
      exact valid
    | [o] =>
      cases locked : e.lock o with
      | none =>
        simp [escrow,locked] at ok
      | some held =>
        simp only [escrow,locked,Option.elim_some,Except.ok.injEq] at ok
        rw [← ok]
        exact (lockedValid (valid.staged ▸ valid) locked).1
    | _::_::_ => cases ok
  applied e height index op res e' valid ok accepted := by
    simp only [escrow] at ok
    split at ok
    · cases ok
      cases accepted
    · rename_i o _
      cases locked : e.lock o with
      | none =>
        rw [locked] at ok
        cases ok
        cases accepted
      | some held =>
        rw [locked] at ok
        cases ok
        exact (lockedValid (valid.staged ▸ valid) locked).1
  cancelled e orders height index account id res e' valid ok accepted := by
    cases ok
    cases accepted
  staged e orders height index op res o e' valid ok accepted := by
    simp only [escrow] at ok
    split at ok
    · cases ok
    · rename_i placed _
      cases locked : e.lock placed with
      | none =>
        rw [locked] at ok
        cases ok
      | some held =>
        rw [locked] at ok
        cases ok
        have own : e.Valid e.staged := valid.staged ▸ valid
        have none : orders = [] := valid.staged.symm.trans (lockValid own locked).2.2.2.1
        rw [none]
        exact (lockedValid own locked).2
  cleared e orders summary e' valid ok := by
    cases ok
    exact ⟨rfl,by simpa using valid.buys,by simpa using valid.locks⟩
  covers e orders a bal valid found := by
    obtain ⟨noBase,base,_,covered⟩ := valid.locks a bal found
    rw [noBase]
    exact ⟨covered,base⟩

theorem escrowCommitted : LocksCommitted escrow Escrow.Valid := by
  intro e orders a bal valid found
  obtain ⟨noBase,_,locked,_⟩ := valid.locks a bal found
  refine ⟨locked,?_⟩
  have sells : (e.resting ++ orders).filter (fun o => o.account = a ∧ o.side = .sell) = [] := by
    refine List.filter_eq_nil_iff.mpr (fun o member => ?_)
    simp [(valid.buys o member).1]
  show _ = committedBase (e.resting ++ orders) a
  rw [committedBase,sells,noBase]
  rfl

end L1Chain.Devnet
