import L1Chain.BookImage
import L1Chain.KeyRuns
import L1Chain.OrderIdentity

/-! exchange/query.go, and the record of the last auction in batch.go: what the node tells of
its market. A depth is made in one pass over the book, which adds up neighbours of one price;
the last auction is two words of storage that every clearing block overwrites. -/
namespace L1Chain.Exchange
open Runs MptState

structure Level where
  price : Int64
  qty : Int64
  deriving DecidableEq

structure OrderView where
  height : UInt64
  index : UInt32
  account : Address
  side : Side
  price : Int64
  qty : Int64
  deriving DecidableEq

def orderView (o : Order) : OrderView := ⟨o.id.height,o.id.index,o.account,o.side,o.price,o.qty⟩

section
variable {S E : Type} [StateDB S]

def snapshot (eng : Engine E) (st : S) : Except ExchangeErr (List Order) := do
  let e ← load eng st .continuous []
  .ok (eng.book e)

def Snapshot (eng : Engine E) (st : S) : Except ExchangeErr (List OrderView) := do
  let orders ← snapshot eng st
  .ok (orders.map orderView)

def addToLevels (levels : List Level) (o : Order) : List Level :=
  match levels.getLast? with
  | some last =>
    if last.price = o.price then levels.dropLast ++ [{last with qty := last.qty + o.qty}]
    else levels ++ [⟨o.price,o.qty⟩]
  | none => levels ++ [⟨o.price,o.qty⟩]

def depthStep (sides : List Level × List Level) (o : Order) : List Level × List Level :=
  if o.side = .sell then (sides.1,addToLevels sides.2 o) else (addToLevels sides.1 o,sides.2)

def Depth (eng : Engine E) (st : S) : Except ExchangeErr (List Level × List Level) := do
  let orders ← snapshot eng st
  .ok (orders.foldl depthStep ([],[]))

def BestBidAsk (eng : Engine E) (st : S) : Except ExchangeErr (Option Level × Option Level) := do
  let sides ← Depth eng st
  .ok (sides.1.head?,sides.2.head?)

def lastAuction (st : S) : Option (Int64 × Int64 × UInt64) :=
  let a := getStorage st address (indexKey nsLastAuction 0)
  let b := getStorage st address (indexKey nsLastAuction 1)
  if a = 0 ∧ b = 0 then none else some ((field64 a 192).toInt64,(field64 a 128).toInt64,field64 b 0)

end

/- The order in which the engine lists its book, on either side the better price first. -/
structure Canonical (orders : List Order) : Prop where
  bids : (orders.filter (·.side = .buy)).Pairwise (fun o o' => o'.price ≤ o.price)
  asks : (orders.filter (·.side = .sell)).Pairwise (fun o o' => o.price ≤ o'.price)

def Lists {E : Type} (eng : Engine E) : Prop := ∀ e orders e', eng.book e = [] → eng.restore e orders = .ok e' →
  (eng.book e').Perm orders ∧ Canonical (eng.book e')

def restingQty (st : MptState) (side : Side) (price : Int64) : ℤ :=
  (((restingOrders st).filter (fun o => o.side = side ∧ o.price = price)).map (·.qty.toInt)).sum

/- One side of a depth: every price at which an order rests, once and the better one first, with
all that rests there. A quantity is a sum in 64 bits. -/
structure LevelsOf (st : MptState) (side : Side) (better : Int64 → Int64 → Prop) (levels : List Level) : Prop where
  sorted : levels.Pairwise (fun l l' => better l.price l'.price)
  prices : ∀ p, p ∈ levels.map (·.price) ↔ ∃ o ∈ restingOrders st, o.side = side ∧ o.price = p
  quantities : ∀ l ∈ levels, l.qty = Int64.ofInt (restingQty st side l.price)

section
variable {E : Type} {eng : Engine E} {st : MptState} {e : E} {side : Side}

def wrap (x : Int64 × ℤ) : Level := ⟨x.1,Int64.ofInt x.2⟩

def keyed (side : Side) (orders : List Order) : List (Int64 × ℤ) :=
  (orders.filter (·.side = side)).map (fun o => (o.price,o.qty.toInt))

theorem addWrapped (runs : List (Int64 × ℤ)) (o : Order) :
    addToLevels (runs.map wrap) o = (KeyRuns.extend runs (o.price,o.qty.toInt)).map wrap := by
  have own : wrap (o.price,o.qty.toInt) = ⟨o.price,o.qty⟩ := by
    rw [wrap,Int64.ofInt_toInt]
  unfold addToLevels KeyRuns.extend
  rw [List.getLast?_map]
  cases runs.getLast? with
  | none => simp [own]
  | some last =>
    have merged : wrap (last.1,last.2 + o.qty.toInt) = ⟨last.1,Int64.ofInt last.2 + o.qty⟩ := by
      rw [wrap,Int64.ofInt_add,Int64.ofInt_toInt]
    simp only [Option.map_some]
    by_cases same : last.1 = o.price
    · rw [if_pos same,if_pos (show (wrap last).price = o.price from same),List.map_append,List.map_dropLast,
        List.map_singleton,merged]
      rfl
    · rw [if_neg same,if_neg (show ¬ (wrap last).price = o.price from same),List.map_append,List.map_singleton,own]

theorem depthRuns (orders : List Order) : orders.foldl depthStep ([],[]) =
    ((KeyRuns.ofList (keyed .buy orders)).map wrap,(KeyRuns.ofList (keyed .sell orders)).map wrap) := by
  induction orders using List.reverseRecOn with
  | nil => rfl
  | append_singleton orders o ih =>
    rw [List.foldl_append,ih,List.foldl_cons,List.foldl_nil,depthStep]
    cases which : o.side with
    | buy => simp [keyed,List.filter_append,which,KeyRuns.ofListSnoc,addWrapped]
    | sell => simp [keyed,List.filter_append,which,KeyRuns.ofListSnoc,addWrapped]

theorem keyedTotal (orders : List Order) (p : Int64) : KeyRuns.total (keyed side orders) p =
    ((orders.filter (fun o => o.side = side ∧ o.price = p)).map (·.qty.toInt)).sum := by
  rw [KeyRuns.total,keyed,List.filter_map,List.filter_filter,List.map_map]
  congr 2
  refine List.filter_congr fun o _ => ?_
  simp [and_comm]

theorem snapshotBook (identifies : Identifies eng) (lists : Lists eng) {orders : List Order}
    (ok : snapshot eng st = .ok orders) : orders.Perm (restingOrders st) ∧ Canonical orders := by
  simp only [snapshot,load,bindOk] at ok
  obtain ⟨e,⟨start,credited,restored⟩,last⟩ := ok
  cases Except.ok.inj last
  split at restored
  · cases restored
  · rename_i done
    cases restored
    have empty : eng.book start = [] := (creditBook identifies credited).trans (identifies.fresh _)
    exact lists _ _ _ empty done

theorem levelsExact {orders : List Order} {better : Int64 → Int64 → Prop} (perm : orders.Perm (restingOrders st))
    (irrefl : ∀ p, ¬ better p p) (trans : ∀ p q r, better p q → better q r → better p r)
    (sorted : (orders.filter (·.side = side)).Pairwise (fun o o' => o.price = o'.price ∨ better o.price o'.price)) :
    LevelsOf st side better ((KeyRuns.ofList (keyed side orders)).map wrap) := by
  have exact : KeyRuns.Exact better (keyed side orders) (KeyRuns.ofList (keyed side orders)) :=
    KeyRuns.runsExact irrefl trans (List.pairwise_map.mpr sorted)
  refine ⟨List.pairwise_map.mpr exact.sorted,fun p => ?_,fun l member => ?_⟩
  · rw [List.map_map,show (fun l : Level => l.price) ∘ wrap = (·.1) from rfl,exact.keys]
    simp only [keyed,List.map_map,List.mem_map,List.mem_filter,decide_eq_true_eq,Function.comp_apply,perm.mem_iff,and_assoc]
  · obtain ⟨x,inside,rfl⟩ := List.mem_map.mp member
    rw [wrap,exact.totals x inside,keyedTotal,restingQty]
    exact congrArg Int64.ofInt (((perm.filter _).map _).sum_eq)

theorem LevelsOf.best {better : Int64 → Int64 → Prop} {levels : List Level} (side' : LevelsOf st side better levels)
    {o : Order} (rests : o ∈ restingOrders st) (own : o.side = side) :
    ∃ l, levels.head? = some l ∧ (o.price = l.price ∨ better l.price o.price) := by
  obtain ⟨l,member,price⟩ := List.mem_map.mp ((side'.prices o.price).mpr ⟨o,rests,own,rfl⟩)
  cases levels with
  | nil => cases member
  | cons first rest =>
    refine ⟨first,rfl,?_⟩
    rcases List.mem_cons.mp member with rfl | later
    · exact .inl price.symm
    · rw [← price]
      exact .inr ((List.pairwise_cons.mp side'.sorted).1 l later)

/- Whenever a depth can be read it is that of the orders in storage: each price once and in
order, with all that rests there, and no price that nothing rests at. The book lists those
orders one by one, and the top of the book is at least as good as each of them. -/
theorem depthExact (identifies : Identifies eng) (lists : Lists eng) {bids asks : List Level}
    (ok : Depth eng st = .ok (bids,asks)) :
    LevelsOf st .buy (fun p q => q < p) bids ∧ LevelsOf st .sell (fun p q => p < q) asks ∧
    (∃ views, Snapshot eng st = .ok views ∧ views.Perm ((restingOrders st).map orderView)) ∧
    ∃ bid ask, BestBidAsk eng st = .ok (bid,ask) ∧
      (∀ o ∈ restingOrders st, o.side = .buy → ∃ l, bid = some l ∧ o.price ≤ l.price) ∧
      ∀ o ∈ restingOrders st, o.side = .sell → ∃ l, ask = some l ∧ l.price ≤ o.price := by
  have best : BestBidAsk eng st = .ok (bids.head?,asks.head?) := by
    rw [BestBidAsk,ok]
    rfl
  simp only [Depth,bindOk] at ok
  obtain ⟨orders,read,last⟩ := ok
  obtain ⟨perm,canonical⟩ := snapshotBook identifies lists read
  rw [depthRuns] at last
  obtain ⟨rfl,rfl⟩ := Prod.mk.inj (Except.ok.inj last)
  have equal {p q : Int64} (le : p ≤ q) : q = p ∨ p < q := by
    rcases Int64.le_iff_lt_or_eq.mp le with less | same
    · exact .inr less
    · exact .inl same.symm
  have bidSide : LevelsOf st .buy (fun p q => q < p) ((KeyRuns.ofList (keyed .buy orders)).map wrap) :=
    levelsExact perm (fun _ => Int64.lt_irrefl) (fun _ _ _ first second => Int64.lt_trans second first)
      (canonical.bids.imp equal)
  have askSide : LevelsOf st .sell (fun p q => p < q) ((KeyRuns.ofList (keyed .sell orders)).map wrap) :=
    levelsExact perm (fun _ => Int64.lt_irrefl) (fun _ _ _ => Int64.lt_trans)
      (canonical.asks.imp fun le => (equal le).imp Eq.symm id)
  refine ⟨bidSide,askSide,⟨orders.map orderView,?_,perm.map _⟩,_,_,best,fun o rests own => ?_,fun o rests own => ?_⟩
  · rw [Snapshot,read]
    rfl
  · obtain ⟨l,first,price⟩ := bidSide.best rests own
    exact ⟨l,first,price.elim Int64.le_of_eq Int64.le_of_lt⟩
  · obtain ⟨l,first,price⟩ := askSide.best rests own
    exact ⟨l,first,price.elim (fun same => Int64.le_of_eq same.symm) Int64.le_of_lt⟩

end

section
variable {E : Type} {eng : Engine E} {st st' : MptState} {e : E} {height : UInt64}

def auctionWords (st : MptState) : Hash × Hash :=
  (getStorage st address (indexKey nsLastAuction 0),getStorage st address (indexKey nsLastAuction 1))

theorem sameAuction (same : auctionWords st' = auctionWords st) : lastAuction st' = lastAuction st := by
  obtain ⟨a,b⟩ := Prod.mk.inj same
  simp only [lastAuction,a,b]

theorem noAuction (wiped : auctionWords st = (0,0)) : lastAuction st = none := by
  obtain ⟨a,b⟩ := Prod.mk.inj wiped
  simp only [lastAuction,a,b,and_self,if_true]

theorem auctionStorage (same : (st'.accounts address).storage = (st.accounts address).storage) :
    auctionWords st' = auctionWords st := by
  simp only [auctionWords,getStorageEq,same]

theorem auctionSaved (ok : save eng st e = .ok st') : auctionWords st' = auctionWords st := by
  have foreign (i : UInt64) : Foreign (eng.balances e) (indexKey nsLastAuction i) := by
    refine ⟨fun ns inside j same => ?_,fun same => ?_,fun a _ => ?_⟩
    · rw [← (indexKeyInjective same).1] at inside
      exact absurd inside (by decide)
    · exact absurd (indexKeyInjective same).1 (by decide)
    · exact (namespaceApart (show nsLastAuction ≠ nsHoldings by decide) a).symm
  rw [auctionWords,savedForeign ok (foreign 0),savedForeign ok (foreign 1),auctionWords]

theorem auctionWritten (price volume : Int64) (tall : height ≠ 0) :
    lastAuction (writeLastAuction st price volume height) = some (price,volume,height) := by
  have other : (0 : UInt64) ≠ 1 := by decide
  have first : getStorage (writeLastAuction st price volume height) address (indexKey nsLastAuction 0) =
      price.toBitVec ++ volume.toBitVec ++ (0 : BitVec 128) := by
    rw [writeLastAuction,wordWritten,if_neg (fun same => other same.2),wordWritten,if_pos ⟨rfl,rfl⟩]
  have second : getStorage (writeLastAuction st price volume height) address (indexKey nsLastAuction 1) =
      (0 : BitVec 192) ++ height.toBitVec := by
    rw [writeLastAuction,wordWritten,if_pos ⟨rfl,rfl⟩]
  have top : field64 (price.toBitVec ++ volume.toBitVec ++ (0 : BitVec 128)) 192 = price.toUInt64 := by
    refine UInt64.toBitVec_inj.mp ?_
    show BitVec.extractLsb' 192 64 (_ ++ _) = price.toBitVec
    rw [BitVec.extractLsb'_append_eq_of_le (by decide),BitVec.extractLsb'_append_eq_of_le (by decide),
      BitVec.extractLsb'_eq_self]
  have next : field64 (price.toBitVec ++ volume.toBitVec ++ (0 : BitVec 128)) 128 = volume.toUInt64 := by
    refine UInt64.toBitVec_inj.mp ?_
    show BitVec.extractLsb' 128 64 (_ ++ _) = volume.toBitVec
    rw [BitVec.extractLsb'_append_eq_of_le (by decide),BitVec.extractLsb'_append_eq_of_add_le (by decide),
      BitVec.extractLsb'_eq_self]
  have low := sizeWritten height
  have live : (0 : BitVec 192) ++ height.toBitVec ≠ (0 : Hash) := by
    intro zero
    rw [zero] at low
    exact tall (low.symm.trans (by decide))
  simp only [lastAuction,first,second,live,and_false,if_false,top,next,low]
  rfl

def BatchSession.clears (eng : Engine E) (s : BatchSession E) : Option (Int64 × Int64) :=
  if s.touched then
    match eng.clearBatch s.engine s.staged with
    | .error _ => none
    | .ok (summary,_) => if summary.cleared then some (summary.price,summary.volume) else none
  else none

theorem finishAuction {s : BatchSession E} (tall : height ≠ 0) (ok : s.finish eng st height = .ok st') :
    lastAuction st' = (s.clears eng).elim (lastAuction st) (fun r => some (r.1,r.2,height)) := by
  unfold BatchSession.finish at ok
  unfold BatchSession.clears
  split at ok
  · rename_i touched
    rw [if_pos touched]
    cases done : eng.clearBatch s.engine s.staged with
    | error e =>
      rw [done] at ok
      cases ok
    | ok r =>
      obtain ⟨summary,cleared⟩ := r
      rw [done] at ok
      dsimp only at ok ⊢
      rw [bindOk] at ok
      obtain ⟨saved,wrote,last⟩ := ok
      cases Except.ok.inj last
      split
      · exact auctionWritten _ _ tall
      · exact sameAuction (auctionSaved wrote)
  · rename_i untouched
    rw [if_neg untouched]
    cases ok
    rfl

end
end L1Chain.Exchange

namespace L1Chain.Transition
open Exchange MptState Runs

section
variable {E : Type} {env : Env E} {verifySig : VerifySig} {st : MptState} {tx : Transaction} {txs : List Transaction}
  {height baseFee : UInt64} {index : UInt32} {mode : Mode} {session : Option (BatchSession E)} {o : Outcome MptState E}

def Applied.Wipes (env : Env E) (height baseFee : UInt64) (x : Applied MptState E) : Prop :=
  route x.before x.tx = .evm ∧ Cleans env x.before x.tx height baseFee Exchange.address

theorem txAuction (codeless : (st.accounts Exchange.address).code = [])
    (law : (⟨st,tx,o⟩ : Applied MptState E).BookLaw env height baseFee)
    (ok : applyTxAtSession env verifySig st tx height index session baseFee = .ok o) :
    ((⟨st,tx,o⟩ : Applied MptState E).Wipes env height baseFee → lastAuction o.st = none) ∧
    (¬ (⟨st,tx,o⟩ : Applied MptState E).Wipes env height baseFee → lastAuction o.st = lastAuction st) := by
  by_cases evm : route st tx = .evm
  · obtain ⟨_,_,ran⟩ := applyTxOk.mp ok
    rw [evm] at ran
    obtain ⟨r,paid,rfl⟩ := mapOk.mp ran
    obtain ⟨wiped,kept⟩ := evmStorage ((law codeless).1 evm).1 paid
    refine ⟨fun wipes => noAuction ?_,fun spared => sameAuction (auctionStorage (kept fun cleans => spared ⟨evm,cleans⟩))⟩
    show auctionWords r.2 = (0,0)
    simp only [auctionWords,getStorageEq,wiped wipes.2]
  · refine ⟨fun wipes => absurd wipes.1 evm,fun _ => ?_⟩
    by_cases other : tx.recipient = Exchange.address
    · have order : isExchangeTx tx = true := by simpa [isExchangeTx] using other
      have same : lastAuction (bumped st tx.sender) = lastAuction st := sameAuction (auctionStorage (bumpedStorage _))
      obtain ⟨_,_,ran⟩ := applyTxOk.mp ok
      rw [exchangeRoute.mpr order] at ran
      cases session with
      | none =>
        obtain ⟨_,after,matched,rfl⟩ := spotOk.mp ran
        unfold Exchange.apply at matched
        simp only [bindOk] at matched
        obtain ⟨op,_,e,_,saved⟩ := matched
        split at saved
        · exact (sameAuction (auctionSaved saved)).trans same
        · cases saved
      | some s =>
        obtain ⟨_,_,_,rfl⟩ := orderOk.mp ran
        exact same
    · exact sameAuction (auctionStorage (txStorage codeless other evm ok))

theorem loopAuction {i : ℕ} {acc : Outcome MptState E} (codeless : (acc.st.accounts Exchange.address).code = [])
    (law : ∀ x ∈ applied env verifySig height baseFee i acc txs, x.BookLaw env height baseFee)
    (ok : applyLoop env verifySig height baseFee i acc txs = .ok o) :
    (o.st.accounts Exchange.address).code = [] ∧
    ((∃ x ∈ applied env verifySig height baseFee i acc txs, x.Wipes env height baseFee) → lastAuction o.st = none) ∧
    ((∀ x ∈ applied env verifySig height baseFee i acc txs, ¬ x.Wipes env height baseFee) →
      lastAuction o.st = lastAuction acc.st) := by
  induction txs generalizing i acc with
  | nil =>
    obtain rfl := Except.ok.inj ok
    refine ⟨codeless,?_,fun _ => rfl⟩
    rintro ⟨x,member,_⟩
    exact absurd member List.not_mem_nil
  | cons tx txs ih =>
    obtain ⟨first,ran,rest⟩ := loopCons.mp ok
    simp only [applied,ran] at law ⊢
    have own := law _ List.mem_cons_self
    obtain ⟨wipes,spares⟩ := txAuction codeless own ran
    have still := txCodeless codeless own ran
    obtain ⟨code,wiped,spared⟩ := @ih _ ⟨first.st,first.session,acc.gasUsed + first.gasUsed,acc.tip + first.tip⟩
      still (fun x member => law x (List.mem_cons_of_mem _ member)) rest
    refine ⟨code,?_,fun none => ?_⟩
    · -- the last message that wipes decides
      rintro ⟨x,member,empties⟩
      by_cases later : ∃ x ∈ applied env verifySig height baseFee (i + 1)
          ⟨first.st,first.session,acc.gasUsed + first.gasUsed,acc.tip + first.tip⟩ txs, x.Wipes env height baseFee
      · exact wiped later
      · rcases List.mem_cons.mp member with rfl | after
        · rw [spared fun x member empties => later ⟨x,member,empties⟩]
          exact wipes empties
        · exact absurd ⟨x,after,empties⟩ later
    · rw [spared fun x member => none x (List.mem_cons_of_mem _ member)]
      exact spares (none _ List.mem_cons_self)

def blockAuction (env : Env E) (verifySig : VerifySig) (mode : Mode) (st : MptState) (b : Block) : Option (Int64 × Int64) :=
  match openSession env st b.txs mode with
  | .error _ => none
  | .ok session =>
    match applyLoop env verifySig b.header.height b.header.baseFee 0 ⟨st,session,0,0⟩ b.txs with
    | .error _ => none
    | .ok o => o.session.bind (·.clears env.engine)

instance (env : Env E) (height baseFee : UInt64) (x : Applied MptState E) : Decidable (x.Wipes env height baseFee) :=
  inferInstanceAs (Decidable (_ ∧ _))

def Wipes (env : Env E) (verifySig : VerifySig) (mode : Mode) (st : MptState) (b : Block) : Prop :=
  ∃ x ∈ blockTrace env verifySig st b.txs b.header.height mode b.header.baseFee,
    x.Wipes env b.header.height b.header.baseFee

instance (env : Env E) (verifySig : VerifySig) (mode : Mode) (st : MptState) (b : Block) :
    Decidable (Wipes env verifySig mode st b) :=
  inferInstanceAs (Decidable (∃ x ∈ _, _))

/- What a block does to the record: a clearing writes it, otherwise a wipe removes it. -/
open Classical in
noncomputable def auctionMark (env : Env E) (verifySig : VerifySig) (mode : Mode) (st : MptState) (b : Block) :
    Option (Option (Int64 × Int64 × UInt64)) :=
  match blockAuction env verifySig mode st b with
  | some r => some (some (r.1,r.2,b.header.height))
  | none => if Wipes env verifySig mode st b then some none else none

theorem blockLast {b : Block} {after : MptState} {gas : UInt64} (tall : b.header.height ≠ 0)
    (codeless : (st.accounts Exchange.address).code = []) (law : BookLaw env verifySig mode st b)
    (ok : applyBlockRewarded env verifySig mode st b = .ok (after,gas)) :
    (after.accounts Exchange.address).code = [] ∧
      lastAuction after = (auctionMark env verifySig mode st b).getD (lastAuction st) := by
  simp only [applyBlockRewarded,applyTxsAt,bindOk] at ok
  obtain ⟨r,⟨session,opens,o,loop,final,finished,closed⟩,last⟩ := ok
  cases Except.ok.inj closed
  unfold BookLaw at law
  rw [blockTrace,opens] at law
  have opened : ((Outcome.mk st session 0 0 : Outcome MptState E).st.accounts Exchange.address).code = [] := codeless
  obtain ⟨code,wiped,spared⟩ := loopAuction opened law loop
  have cleared : blockAuction env verifySig mode st b = o.session.bind (·.clears env.engine) := by
    simp only [blockAuction,opens,loop]
  have closing : (final.accounts Exchange.address).code = [] ∧
      lastAuction final = (o.session.bind (·.clears env.engine)).elim (lastAuction o.st)
        (fun r => some (r.1,r.2,b.header.height)) := by
    unfold finishSession at finished
    split at finished
    · rename_i quiet
      cases finished
      rw [quiet]
      exact ⟨code,rfl⟩
    · rename_i s held
      have done := liftExchangeOk.mp finished
      rw [held]
      exact ⟨(finishAside codeAside done).trans code,finishAuction tall done⟩
  have trace : blockTrace env verifySig st b.txs b.header.height mode b.header.baseFee =
      applied env verifySig b.header.height b.header.baseFee 0 ⟨st,session,0,0⟩ b.txs := by
    rw [blockTrace,opens]
  have marked : lastAuction final = (auctionMark env verifySig mode st b).getD (lastAuction st) := by
    rw [closing.2,auctionMark,cleared]
    cases o.session.bind (·.clears env.engine) with
    | some r => rfl
    | none =>
      by_cases wipes : Wipes env verifySig mode st b
      · simp only [if_pos wipes]
        rw [Wipes,trace] at wipes
        exact wiped wipes
      · simp only [if_neg wipes]
        rw [Wipes,trace] at wipes
        exact spared fun x member empties => wipes ⟨x,member,empties⟩
  obtain ⟨rfl,_⟩ := Prod.mk.inj (Except.ok.inj last)
  rw [if_pos tall]
  have storage : ((credit final b.header.coinbase (blockReward + o.tip)).accounts Exchange.address).storage =
      (final.accounts Exchange.address).storage := putKeeps (·.storage) rfl
  exact ⟨(creditBeside _ _).2.trans closing.1,(sameAuction (auctionStorage storage)).trans marked⟩

theorem fundAuction (alloc baseAlloc : AList (fun _ : Address => UInt64)) : lastAuction (fund alloc baseAlloc) = none := by
  have credited (entries : List ((_ : Address) × UInt64)) (st : MptState) :
      auctionWords (entries.foldl (fun st e => credit st e.1 e.2) st) = auctionWords st := by
    induction entries generalizing st with
    | nil => rfl
    | cons e rest ih => exact (ih _).trans (auctionStorage (putKeeps (·.storage) rfl))
  have based (entries : List ((_ : Address) × UInt64)) (st : MptState) :
      auctionWords (entries.foldl (fun st e => creditBase st e.1 e.2) st) = auctionWords st := by
    induction entries generalizing st with
    | nil => rfl
    | cons e rest ih =>
      have word (i : UInt64) : getStorage (creditBase st e.1 e.2) address (indexKey nsLastAuction i) =
          getStorage st address (indexKey nsLastAuction i) :=
        (keyWritten _ _).trans (if_neg (namespaceApart (show nsLastAuction ≠ nsHoldings by decide) e.1).symm)
      refine (ih _).trans ?_
      rw [auctionWords,word,word,auctionWords]
  refine noAuction ?_
  rw [fund,based,credited]
  rfl

theorem replayLast {bs : List Block} {after : MptState} (tall : ∀ b ∈ bs, b.header.height ≠ 0)
    (codeless : (st.accounts Exchange.address).code = [])
    (law : Along (replayNext env verifySig mode) (BookLaw env verifySig mode) st bs)
    (ok : replay env verifySig mode st bs = .ok after) :
    lastAuction after = (collect (replayNext env verifySig mode) (auctionMark env verifySig mode) st bs).getLast?.getD
      (lastAuction st) := by
  induction bs generalizing st with
  | nil =>
    cases ok
    rfl
  | cons b bs ih =>
    simp only [replay,bindOk] at ok
    obtain ⟨⟨middle,gas⟩,applied,rest⟩ := ok
    have next : replayNext env verifySig mode st b = middle := by
      rw [replayNext,applied]
    rw [alongCons,next] at law
    obtain ⟨code,first⟩ := blockLast (tall b List.mem_cons_self) codeless law.1 applied
    rw [ih (fun x member => tall x (List.mem_cons_of_mem _ member)) code law.2 rest,first,collect,next,List.getLast?_append]
    cases (collect (replayNext env verifySig mode) (auctionMark env verifySig mode) middle bs).getLast? with
    | some r => rfl
    | none => cases auctionMark env verifySig mode st b <;> rfl

/- Along every replay, the record names the latest block whose auction cleared, unless the
exchange account has been wiped since; and before the first such block there is none. -/
theorem lastAuctionTracks {alloc baseAlloc : AList (fun _ : Address => UInt64)} {bs : List Block} {after : MptState}
    (tall : ∀ b ∈ bs, b.header.height ≠ 0)
    (law : Along (replayNext env verifySig mode) (BookLaw env verifySig mode) (fund alloc baseAlloc) bs)
    (ok : replay env verifySig mode (fund alloc baseAlloc) bs = .ok after) :
    lastAuction after = (collect (replayNext env verifySig mode) (auctionMark env verifySig mode)
      (fund alloc baseAlloc) bs).getLast?.join := by
  rw [replayLast tall (fundAside codeAside alloc baseAlloc) law ok,fundAuction]
  cases (collect (replayNext env verifySig mode) (auctionMark env verifySig mode) (fund alloc baseAlloc) bs).getLast? with
  | none => rfl
  | some r => rfl

end
end L1Chain.Transition

namespace L1Chain.Devnet
open Exchange Transition Runs Adapter

/- An engine that keeps a book it is given in order, and takes no orders itself. -/
def ladder : Engine (List Order) where
  new _ := []
  credit e _ _ _ := e
  restore _ orders :=
    if (orders.filter (·.side = .buy)).Pairwise (fun o o' => o'.price ≤ o.price) ∧
        (orders.filter (·.side = .sell)).Pairwise (fun o o' => o.price ≤ o'.price) then .ok orders
    else .error "unsorted"
  applyPositioned e _ _ _ := (⟨false,none⟩,e)
  stagePlace e _ _ _ := (⟨false,none⟩,none,e)
  clearBatch e _ := .ok (⟨false,0,0⟩,e)
  book e := e
  balances _ := ∅

theorem ladderLists : Lists ladder := by
  intro e orders e' _ ok
  simp only [ladder] at ok ⊢
  split at ok
  · rename_i sorted
    cases ok
    exact ⟨List.Perm.refl _,sorted.1,sorted.2⟩
  · cases ok

theorem ladderIdentifies : Identifies ladder where
  fresh _ := rfl
  credited _ _ _ _ := rfl
  restored e orders e' ok := by
    simp only [ladder] at ok ⊢
    split at ok
    · cases ok
      exact Multiset.le_add_left _ _
    · cases ok
  applied e height index op res e' ok accepted := by
    cases ok
    cases accepted
  staged e height index account side price qty res o e' ok accepted := by
    cases ok
  cleared e orders summary e' ok := by
    cases ok
    exact Multiset.le_add_right _ _

def offers : List Order :=
  [⟨account 1,⟨1,0⟩,.buy,3,2⟩,⟨account 2,⟨1,1⟩,.buy,3,3⟩,⟨account 1,⟨2,0⟩,.buy,2,1⟩,⟨account 3,⟨2,1⟩,.sell,4,2⟩]

theorem ladderDepth : ∃ st, save ladder MptState.empty offers = .ok st ∧ (restingOrders st).length = 4 ∧
    LevelsOf st .buy (fun p q => q < p) [⟨3,5⟩,⟨2,1⟩] ∧ LevelsOf st .sell (fun p q => p < q) [⟨4,2⟩] := by
  have ran : (save ladder MptState.empty offers).map (fun st => (Depth ladder st,(restingOrders st).length)) =
      .ok (.ok ([⟨3,5⟩,⟨2,1⟩],[⟨4,2⟩]),4) := by decide +kernel
  obtain ⟨st,saved,values⟩ := mapOk.mp ran
  obtain ⟨depth,count⟩ := Prod.mk.inj values
  obtain ⟨bids,asks,_⟩ := depthExact ladderIdentifies ladderLists depth
  exact ⟨st,saved,count,bids,asks⟩

/- An auctioneer that clears at 10 when one bid and one ask of a unit meet. -/
def gavel : Engine Unit where
  new _ := ()
  credit e _ _ _ := e
  restore e _ := .ok e
  applyPositioned e _ _ _ := (⟨false,none⟩,e)
  stagePlace e height index op := (⟨true,none⟩,Escrow.order height index op,e)
  clearBatch e orders := .ok (⟨orders.map (fun o => (o.side,o.qty)) = [(.buy,1),(.sell,1)],10,1⟩,e)
  book _ := []
  balances _ := ∅

/- A deployment puts code at account 6, or transfers zero to the exchange. -/
def bazaar : Env Unit :=
  {trading gavel with
    evm := ⟨[],fun _ _ _ data _ _ => .ask (if data = [0] then .setCode (account 6) [0] else .addBalance Exchange.address 0)
      fun _ => .done 0,fun _ _ _ _ _ _ _ => .done 0⟩}

def marketAsk : Transaction := {bidding 0 1 with sender := account 2, data := [1,1,0,0,0,0,0,0,0,10,0,0,0,0,0,0,0,1]}

def messages (nonce : UInt64) (data : Bytes) : Transaction := {bidding nonce 0 with recipient := Evm.deployAddress, data := data}

def marketBlock (height : UInt64) (txs : List Transaction) : Block := ⟨⟨height,0,0,0,account 3,0,0,0,0,0,[]⟩,txs⟩

def saleBlock : Block := marketBlock 1 [bidding 0 1,marketAsk]
def lullBlock : Block := marketBlock 2 [bidding 1 1,messages 2 [0]]
def sweepBlock : Block := marketBlock 3 [messages 3 [1]]

theorem bazaarLaw {b : Block} (sent : ∀ tx ∈ b.txs, tx.recipient ≠ 0) (st : MptState) :
    BookLaw bazaar acceptNonEmptySig .batchAuction st b := by
  refine fun x member _ => ⟨fun _ => ?_,fun zero => absurd zero (sent x.tx (traceMember member))⟩
  unfold EvmSpares evmProg
  split
  · exact ⟨issuesAsk (by split <;> trivial) fun _ _ => trivial,
      issuesAsk (by split; exacts [fun _ => (by decide),fun other => (by cases other)]) fun _ _ => trivial⟩
  · exact ⟨trivial,trivial⟩

theorem marketMarks : collect (replayNext bazaar acceptNonEmptySig .batchAuction)
    (auctionMark bazaar acceptNonEmptySig .batchAuction) soloFunds [saleBlock,lullBlock,sweepBlock] =
      [some (10,1,1),none] ∧
    collect (replayNext bazaar acceptNonEmptySig .batchAuction)
      (auctionMark bazaar acceptNonEmptySig .batchAuction) soloFunds [saleBlock,lullBlock] = [some (10,1,1)] := by
  have clears : blockAuction bazaar acceptNonEmptySig .batchAuction soloFunds saleBlock = some (10,1) := by decide +kernel
  simp only [collect,auctionMark,clears]
  generalize sold : replayNext bazaar acceptNonEmptySig .batchAuction soloFunds saleBlock = st
  have rests : blockAuction bazaar acceptNonEmptySig .batchAuction st lullBlock = none ∧
      ¬ Wipes bazaar acceptNonEmptySig .batchAuction st lullBlock := by
    rw [← sold]
    decide +kernel
  have wipes : blockAuction bazaar acceptNonEmptySig .batchAuction
      (replayNext bazaar acceptNonEmptySig .batchAuction st lullBlock) sweepBlock = none ∧
      Wipes bazaar acceptNonEmptySig .batchAuction (replayNext bazaar acceptNonEmptySig .batchAuction st lullBlock)
        sweepBlock := by
    rw [← sold]
    decide +kernel
  simp only [rests.1,if_neg rests.2,wipes.1,if_pos wipes.2]
  exact ⟨rfl,rfl⟩

/- After the second block the sale is remembered; after the third nothing is. -/
theorem saleRemembered : ∃ st final,
    replay bazaar acceptNonEmptySig .batchAuction soloFunds [saleBlock,lullBlock] = .ok st ∧ lastAuction st = some (10,1,1) ∧
      replay bazaar acceptNonEmptySig .batchAuction soloFunds [saleBlock,lullBlock,sweepBlock] = .ok final ∧
      lastAuction final = none := by
  have ran : (replay bazaar acceptNonEmptySig .batchAuction soloFunds [saleBlock,lullBlock]).map (fun _ => ()) = .ok () ∧
      (replay bazaar acceptNonEmptySig .batchAuction soloFunds [saleBlock,lullBlock,sweepBlock]).map (fun _ => ()) =
        .ok () := by decide +kernel
  obtain ⟨st,ok,_⟩ := mapOk.mp ran.1
  obtain ⟨final,ended,_⟩ := mapOk.mp ran.2
  have plain : ∀ b ∈ [saleBlock,lullBlock,sweepBlock], ∀ tx ∈ b.txs, tx.recipient ≠ 0 := by decide
  have law : Along (replayNext bazaar acceptNonEmptySig .batchAuction) (BookLaw bazaar acceptNonEmptySig .batchAuction)
      (fund (AList.singleton (account 1) 100) ∅) [saleBlock,lullBlock,sweepBlock] :=
    alongMono (fun st b sent => bazaarLaw sent st) (alongOfMem _ plain)
  have remembered := lastAuctionTracks (by decide) (show Along _ _ _ [saleBlock,lullBlock] from ⟨law.1,law.2.1,trivial⟩) ok
  have forgotten := lastAuctionTracks (by decide) law ended
  exact ⟨st,final,ok,remembered.trans (congrArg (·.getLast?.join) marketMarks.2),ended,
    forgotten.trans (congrArg (·.getLast?.join) marketMarks.1)⟩

end L1Chain.Devnet
