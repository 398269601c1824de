import L1Chain.BookSlots
import L1Chain.Auction
import L1Chain.Frame
import L1Chain.Solvency
import L1Chain.ForkChoice
import L1Chain.CodeKinds

/-! The identity of resting orders. An order is named by the height of its block and the
index of its transaction. Along every branch the book is part of what the branch has
placed, each placement once, and two placements of one branch never share a name. -/
namespace L1Chain.Exchange
open Runs MptState

section
variable {E : Type}

abbrev Tag := OrderID × Address

def tags (orders : List Order) : Multiset Tag := orders.map (fun o => (o.id,o.account))

def EngineTx.places (height : UInt64) (index : UInt32) : EngineTx → Multiset Tag
  | .place account .. => {(⟨height,index⟩,account)}
  | .cancel .. => 0

/- What is asked of the engine: a new order has the identifier of its position and the account
of its operation, matching shrinks or removes what is there, and restoring keeps it. -/
structure Identifies (eng : Engine E) : Prop where
  fresh : ∀ mode, eng.book (eng.new mode) = []
  credited : ∀ e a base quote, eng.book (eng.credit e a base quote) = eng.book e
  restored : ∀ e orders e', eng.restore e orders = .ok e' → tags (eng.book e') ≤ tags (eng.book e) + tags orders
  applied : ∀ e height index op res e', eng.applyPositioned e height index op = (res,e') → res.accepted →
    tags (eng.book e') ≤ op.places height index + tags (eng.book e)
  staged : ∀ e height index account side price qty res o e',
    eng.stagePlace e height index (.place account side price qty) = (res,some o,e') → res.accepted →
      o.id = ⟨height,index⟩ ∧ o.account = account ∧ tags (eng.book e') ≤ tags (eng.book e)
  cleared : ∀ e orders summary e', eng.clearBatch e orders = .ok (summary,e') →
    tags (eng.book e') ≤ tags (eng.book e) + tags orders

end

section
variable {E : Type} {eng : Engine E} {st st' : MptState} {e e' : E} {height : UInt64} {index : UInt32}

theorem tagsNil : tags [] = 0 := rfl

theorem tagsAppend (front back : List Order) : tags (front ++ back) = tags front + tags back := by
  simp [tags]

theorem creditBook (identifies : Identifies eng) {addrs : List Address} (ok : creditAccounts eng st e addrs = .ok e') :
    eng.book e' = eng.book e := by
  induction addrs generalizing e with
  | nil =>
    cases ok
    rfl
  | cons addr rest ih =>
    simp only [creditAccounts,bindOk] at ok
    obtain ⟨base,_,quote,_,later⟩ := ok
    rw [ih later,identifies.credited]

theorem loadBook (identifies : Identifies eng) {mode : Mode} {extra : List Address} (ok : load eng st mode extra = .ok e) :
    tags (eng.book e) ≤ tags (restingOrders st) := by
  simp only [load,bindOk] at ok
  obtain ⟨start,credited,restored⟩ := ok
  split at restored
  · cases restored
  · rename_i done
    cases restored
    have kept := identifies.restored _ _ _ done
    rwa [creditBook identifies credited,identifies.fresh,tagsNil,zero_add] at kept

theorem saveBook (ok : save eng st e = .ok st') : tags (restingOrders st') ≤ tags (eng.book e) := by
  rw [savedBook ok]
  exact Multiset.coe_le.mpr ((List.drop_sublist _ _).map _).subperm

theorem applyBook (identifies : Identifies eng) {tx : Transaction} (ok : apply eng st tx height index = .ok st') :
    ∃ op, decode tx.sender tx.data = .ok op ∧ tags (restingOrders st') ≤ op.places height index + tags (restingOrders st) := by
  simp only [apply,bindOk] at ok
  obtain ⟨op,decoded,e,loaded,ok⟩ := ok
  split at ok
  · rename_i accepted
    refine ⟨op,decoded,(saveBook ok).trans ((identifies.applied _ _ _ _ _ _ rfl accepted).trans ?_)⟩
    exact add_le_add_right (loadBook identifies loaded) _
  · cases ok

def BatchSession.pending (eng : Engine E) (s : BatchSession E) : Multiset Tag := tags (eng.book s.engine) + tags s.staged

theorem sessionBook (identifies : Identifies eng) {s s' : BatchSession E} {sender : Address} {data : Bytes}
    (ok : s.apply eng height index sender data = .ok s') :
    ∃ op, decode sender data = .ok op ∧ s'.pending eng ≤ op.places height index + s.pending eng := by
  simp only [BatchSession.apply,bindOk] at ok
  obtain ⟨op,decoded,ok⟩ := ok
  refine ⟨op,decoded,?_⟩
  split at ok
  · split at ok
    · rename_i accepted
      cases ok
      have kept := identifies.applied _ _ _ _ _ _ rfl accepted
      rw [BatchSession.pending,BatchSession.pending,← add_assoc]
      exact add_le_add_left kept _
    · cases ok
  · rename_i account side price qty
    split at ok
    · rename_i res o e' placed
      split at ok
      · rename_i accepted
        cases ok
        obtain ⟨id,owner,kept⟩ := identifies.staged _ _ _ _ _ _ _ _ _ _ placed accepted
        have new : tags [o] = (EngineTx.place account side price qty).places height index := by
          rw [EngineTx.places,← id,← owner]
          rfl
        rw [BatchSession.pending,BatchSession.pending,tagsAppend,new,← add_assoc,add_comm _ (EngineTx.places ..)]
        exact add_le_add_right (add_le_add_left kept _) _
      · cases ok
    · cases ok

theorem finishBook (identifies : Identifies eng) {s : BatchSession E} (ok : s.finish eng st height = .ok st') :
    tags (restingOrders st') ≤ s.pending eng ∨ st' = st := by
  unfold BatchSession.finish at ok
  split at ok
  · split at ok
    · cases ok
    · rename_i summary cleared clears
      rw [bindOk] at ok
      obtain ⟨saved,wrote,last⟩ := ok
      have settled := (saveBook wrote).trans (identifies.cleared _ _ _ _ clears)
      cases Except.ok.inj last
      refine .inl ?_
      split
      · rw [(auctionBeside _ _ _).resting]
        exact settled
      · exact settled
  · exact .inr (Except.ok.inj ok).symm

end
end L1Chain.Exchange

namespace L1Chain.Transition
open Exchange StackVM MptState Adapter Runs

section
variable {E : Type}

def placed (height : UInt64) (index : UInt32) (tx : Transaction) : Multiset Tag :=
  if isExchangeTx tx then
    match decode tx.sender tx.data with
    | .ok op => op.places height index
    | .error _ => 0
  else 0

def placements (height : UInt64) : ℕ → List Transaction → Multiset Tag
  | _, [] => 0
  | i, tx::rest => placed height (UInt32.ofNat i) tx + placements height (i + 1) rest

/- As long as the exchange account has no code, the interpreter neither writes its storage nor
gives it code, and no creation ends at its address. -/
def Applied.BookLaw (env : Env E) (height baseFee : UInt64) (x : Applied MptState E) : Prop :=
  (x.before.accounts Exchange.address).code = [] →
    (route x.before x.tx = .evm → EvmSpares env x.before x.tx height baseFee Exchange.address ∧
      Issues env.sha (Request.Avoids .code Exchange.address) (evmProg env x.tx height baseFee)
        (evmStart env (reserved x.before x.tx) x.tx)) ∧
    (x.tx.recipient = 0 → createAddress env.sha x.tx.sender x.tx.nonce ≠ Exchange.address)

def BookLaw (env : Env E) (verifySig : VerifySig) (mode : Mode) (st : MptState) (b : Block) : Prop :=
  ∀ x ∈ blockTrace env verifySig st b.txs b.header.height mode b.header.baseFee,
    x.BookLaw env b.header.height b.header.baseFee

structure BookWithin (eng : Engine E) (seen : Multiset Tag) (st : MptState) (session : Option (BatchSession E)) : Prop where
  resting : tags (restingOrders st) ≤ seen
  pending : ∀ s, session = some s → s.pending eng ≤ seen
  codeless : (st.accounts Exchange.address).code = []

theorem BookWithin.closed {eng : Engine E} {seen : Multiset Tag} {st : MptState} (resting : tags (restingOrders st) ≤ seen)
    (codeless : (st.accounts Exchange.address).code = []) : BookWithin eng seen st none :=
  ⟨resting,fun _ now => (by cases now),codeless⟩

end

section
variable {E : Type} {env : Env E} {verifySig : VerifySig} {st : MptState} {tx : Transaction} {txs : List Transaction}
  {height baseFee : UInt64} {index : UInt32} {mode : Mode} {session : Option (BatchSession E)} {o : Outcome MptState E}
  {seen : Multiset Tag}

theorem placedOrder {op : EngineTx} (order : isExchangeTx tx = true) (decoded : decode tx.sender tx.data = .ok op) :
    placed height index tx = op.places height index := by
  rw [placed,if_pos order,decoded]

theorem wipedResting (storage : (st.accounts Exchange.address).storage = fun _ => 0) : restingOrders st = [] := by
  have size : bookSize st = 0 := by
    rw [bookSize,getStorageEq,storage]
    decide
  rw [restingOrders,size]
  rfl

theorem txCodeless (codeless : (st.accounts Exchange.address).code = [])
    (law : (⟨st,tx,o⟩ : Applied MptState E).BookLaw env height baseFee)
    (ok : applyTxAtSession env verifySig st tx height index session baseFee = .ok o) :
    (o.st.accounts Exchange.address).code = [] := by
  obtain ⟨messages,creations⟩ := law codeless
  obtain ⟨_,_,ran⟩ := applyTxOk.mp ok
  cases routed : route st tx with
  | exchange | attestation | transfer => exact (plainCode ok (by rw [routed]; decide) _).trans codeless
  | contract =>
    rw [routed] at ran
    obtain ⟨r,paid,rfl⟩ := mapOk.mp ran
    obtain ⟨_,rfl⟩ := contractOk.mp paid
    have start : ((charged st tx).accounts Exchange.address).code = (st.accounts Exchange.address).code :=
      putKeeps (·.code) rfl
    have credited : ((credit (execute env.sha (charged st tx) (message tx)).2 tx.sender
        (refunded tx baseFee (execute env.sha (charged st tx) (message tx)).1.gasUsed)).accounts Exchange.address).code =
        ((execute env.sha (charged st tx) (message tx)).2.accounts Exchange.address).code := putKeeps (·.code) rfl
    refine credited.trans ?_
    rcases (executed env.sha (charged st tx) (message tx)).2.code with kept | ⟨creates,here,_⟩
    · exact kept.trans (start.trans codeless)
    · have empty : tx.recipient = 0 := by simpa [message] using creates
      exact absurd here.symm (creations empty)
  | evm =>
    rw [routed] at ran
    obtain ⟨r,paid,rfl⟩ := mapOk.mp ran
    obtain ⟨_,gasUsed,sdb,run,rfl⟩ := evmOk.mp paid
    have spared : Spared .code Exchange.address (st.accounts Exchange.address) sdb :=
      messageSpared id (putKeeps (·.code) rfl) (messages routed).2 run
    rcases settledCode sdb tx (st.accounts tx.sender).nonce (refunded tx baseFee gasUsed) Exchange.address with gone | kept
    · exact gone
    · have same : (sdb.base.accounts Exchange.address).code = (st.accounts Exchange.address).code := spared.same
      exact kept.trans (same.trans codeless)

theorem txAside (codeless : (st.accounts Exchange.address).code = [])
    (law : (⟨st,tx,o⟩ : Applied MptState E).BookLaw env height baseFee) (other : isExchangeTx tx = false)
    (ok : applyTxAtSession env verifySig st tx height index session baseFee = .ok o) :
    restingOrders o.st = restingOrders st ∨ restingOrders o.st = [] := by
  have elsewhere : tx.recipient ≠ Exchange.address := by simpa [isExchangeTx] using other
  by_cases evm : route st tx = .evm
  · obtain ⟨_,_,ran⟩ := applyTxOk.mp ok
    rw [evm] at ran
    obtain ⟨r,paid,rfl⟩ := mapOk.mp ran
    obtain ⟨wiped,kept⟩ := evmStorage ((law codeless).1 evm).1 paid
    by_cases cleans : Cleans env st tx height baseFee Exchange.address
    · exact .inr (wipedResting (wiped cleans))
    · exact .inl (sameStorage (kept cleans)).resting
  · exact .inl (sameStorage (txStorage codeless elsewhere evm ok)).resting

theorem txBook (identifies : Identifies env.engine) (within : BookWithin env.engine seen st session)
    (law : (⟨st,tx,o⟩ : Applied MptState E).BookLaw env height baseFee)
    (ok : applyTxAtSession env verifySig st tx height index session baseFee = .ok o) :
    BookWithin env.engine (placed height index tx + seen) o.st o.session := by
  have more : seen ≤ placed height index tx + seen := Multiset.le_add_left _ _
  refine ⟨?_,fun s' now => ?_,txCodeless within.codeless law ok⟩
  · cases order : isExchangeTx tx with
    | false =>
      rcases txAside within.codeless law order ok with kept | wiped
      · rw [kept]
        exact within.resting.trans more
      · rw [wiped]
        exact Multiset.zero_le _
    | true =>
      have same : restingOrders (bumped st tx.sender) = restingOrders st := (sameStorage (bumpedStorage _)).resting
      obtain ⟨_,_,ran⟩ := applyTxOk.mp ok
      rw [exchangeRoute.mpr order] at ran
      cases session with
      | none =>
        obtain ⟨_,after,matched,rfl⟩ := spotOk.mp ran
        obtain ⟨op,decoded,gains⟩ := applyBook identifies matched
        rw [same] at gains
        rw [placedOrder order decoded]
        exact gains.trans (add_le_add_right within.resting _)
      | some s =>
        obtain ⟨_,_,_,rfl⟩ := orderOk.mp ran
        rw [same]
        exact within.resting.trans more
  · cases session with
    | none =>
      rw [txClosed ok] at now
      cases now
    | some s =>
      obtain ⟨next,same,taken⟩ := txSession ok
      rw [same] at now
      cases now
      split at taken
      · rename_i order
        obtain ⟨op,decoded,gains⟩ := sessionBook identifies taken
        rw [placedOrder order decoded]
        exact gains.trans (add_le_add_right (within.pending s rfl) _)
      · rw [taken]
        exact (within.pending s rfl).trans more

theorem loopBook (identifies : Identifies env.engine) {i : ℕ} {acc : Outcome MptState E}
    (within : BookWithin env.engine seen acc.st acc.session)
    (law : ∀ x ∈ applied env verifySig height baseFee i acc txs, x.BookLaw env height baseFee)
    (ok : applyLoop env verifySig height baseFee i acc txs = .ok o) :
    BookWithin env.engine (placements height i txs + seen) o.st o.session := by
  induction txs generalizing i acc seen with
  | nil =>
    obtain rfl := Except.ok.inj ok
    rw [placements,zero_add]
    exact within
  | cons tx txs ih =>
    obtain ⟨first,ran,rest⟩ := loopCons.mp ok
    simp only [applied,ran] at law
    have next := txBook identifies within (law _ List.mem_cons_self) ran
    have later := @ih _ _ ⟨first.st,first.session,acc.gasUsed + first.gasUsed,acc.tip + first.tip⟩ next
      (fun x member => law x (List.mem_cons_of_mem _ member)) rest
    rwa [← add_assoc,add_comm (placements height (i + 1) txs)] at later

theorem openPending (identifies : Identifies env.engine) (ok : openSession env st txs mode = .ok session) :
    ∀ s, session = some s → s.pending env.engine ≤ tags (restingOrders st) := by
  rintro s rfl
  unfold openSession at ok
  split at ok
  · rw [bindOk] at ok
    obtain ⟨opened,made,last⟩ := ok
    rw [liftExchangeOk,newBatchSession,bindOk] at made
    obtain ⟨e,loaded,fresh⟩ := made
    cases Option.some.inj (Except.ok.inj last)
    cases Except.ok.inj fresh
    rw [BatchSession.pending,tagsNil,add_zero]
    exact loadBook identifies loaded
  · cases ok

theorem creditBeside (a : Address) (amount : UInt64) : restingOrders (credit st a amount) = restingOrders st ∧
    ((credit st a amount).accounts Exchange.address).code = (st.accounts Exchange.address).code := by
  have storage : ((credit st a amount).accounts Exchange.address).storage = (st.accounts Exchange.address).storage :=
    putKeeps (·.storage) rfl
  exact ⟨(sameStorage storage).resting,putKeeps (·.code) rfl⟩

theorem blockBook {b : Block} {after : MptState} {gas : UInt64} (identifies : Identifies env.engine)
    (within : BookWithin env.engine seen st none) (law : BookLaw env verifySig mode st b)
    (ok : applyBlockRewarded env verifySig mode st b = .ok (after,gas)) :
    BookWithin env.engine (placements b.header.height 0 b.txs + seen) after none := by
  simp only [applyBlockRewarded,applyTxsAt,bindOk] at ok
  obtain ⟨r,⟨session,opens,o,loop,final,finished,closed⟩,last⟩ := ok
  cases Except.ok.inj closed
  unfold BookLaw at law
  rw [blockTrace,opens] at law
  have start : BookWithin env.engine seen (⟨st,session,0,0⟩ : Outcome MptState E).st session :=
    ⟨within.resting,fun s now => (openPending identifies opens s now).trans within.resting,within.codeless⟩
  have looped : BookWithin env.engine (placements b.header.height 0 b.txs + seen) o.st o.session :=
    loopBook identifies start law loop
  have settled : BookWithin env.engine (placements b.header.height 0 b.txs + seen) final none := by
    unfold finishSession at finished
    split at finished
    · cases finished
      exact .closed looped.resting looped.codeless
    · rename_i s held
      have done := liftExchangeOk.mp finished
      have code : (final.accounts Exchange.address).code = [] := (finishAside codeAside done).trans looped.codeless
      rcases finishBook identifies done with book | rfl
      · exact .closed (book.trans (looped.pending s held)) code
      · exact .closed looped.resting code
  obtain ⟨rfl,_⟩ := Prod.mk.inj (Except.ok.inj last)
  split
  · obtain ⟨resting,code⟩ := @creditBeside final b.header.coinbase (blockReward + o.tip)
    refine .closed ?_ (code.trans settled.codeless)
    rw [resting]
    exact settled.resting
  · exact settled

def branchPlacements (bs : List Block) : Multiset Tag := (bs.map (fun b => placements b.header.height 0 b.txs)).sum

theorem replayBook {bs : List Block} {after : MptState} (identifies : Identifies env.engine)
    (within : BookWithin env.engine seen st none)
    (law : Along (replayNext env verifySig mode) (BookLaw env verifySig mode) st bs)
    (ok : replay env verifySig mode st bs = .ok after) : BookWithin env.engine (branchPlacements bs + seen) after none := by
  obtain ⟨run,applied⟩ := replayRun ok
  rw [← run]
  refine invariantSoFar (fun taken now => BookWithin env.engine (branchPlacements taken + seen) now none)
    (fun taken now b sofar step => ?_) ?_ (alongAnd law applied)
  · obtain ⟨lawful,gas,done⟩ := step
    have next := blockBook identifies sofar lawful done
    rw [branchPlacements,List.map_append,List.sum_append,List.map_singleton,List.sum_singleton,add_comm (List.sum _),add_assoc]
    exact next
  · rw [branchPlacements,List.map_nil,List.sum_nil,zero_add]
    exact within

theorem fundBook (eng : Engine E) (alloc baseAlloc : AList (fun _ : Address => UInt64)) :
    BookWithin eng 0 (fund alloc baseAlloc) none := by
  have credited (entries : List ((_ : Address) × UInt64)) (st : MptState) :
      restingOrders (entries.foldl (fun st e => credit st e.1 e.2) st) = restingOrders st := by
    induction entries generalizing st with
    | nil => rfl
    | cons e rest ih => exact (ih _).trans (creditBeside _ _).1
  have based (entries : List ((_ : Address) × UInt64)) (st : MptState) :
      restingOrders (entries.foldl (fun st e => creditBase st e.1 e.2) st) = restingOrders st := by
    induction entries generalizing st with
    | nil => rfl
    | cons e rest ih => exact (ih _).trans (holdingsBeside _).resting
  have empty : restingOrders (fund alloc baseAlloc) = [] := by
    rw [fund,based,credited]
    exact wipedResting rfl
  refine .closed ?_ (fundAside codeAside alloc baseAlloc)
  rw [empty,tagsNil]

theorem decodeOwner {sender account : Address} {data : Bytes} {side : Side} {price qty : Int64}
    (decoded : decode sender data = .ok (.place account side price qty)) : account = sender := by
  unfold decode at decoded
  split at decoded
  · cases decoded
  · split at decoded
    · split at decoded
      · cases decoded
      · dsimp only at decoded
        split at decoded
        · cases decoded
          rfl
        · split at decoded
          · cases decoded
          · cases decoded
            rfl
    · split at decoded
      · split at decoded
        · cases decoded
        · cases decoded
      · cases decoded

structure Places (tx : Transaction) (owner : Address) : Prop where
  exchange : isExchangeTx tx = true
  sender : tx.sender = owner
  decoded : ∃ side price qty, decode tx.sender tx.data = .ok (.place tx.sender side price qty)

theorem placedMember {tag : Tag} (member : tag ∈ placed height index tx) :
    tag.1 = ⟨height,index⟩ ∧ Places tx tag.2 := by
  unfold placed at member
  split at member
  · rename_i order
    split at member
    · rename_i op decoded
      cases op with
      | cancel account id => cases (Multiset.notMem_zero _ member)
      | place account side price qty =>
        cases Multiset.mem_singleton.mp member
        obtain rfl := decodeOwner decoded
        exact ⟨rfl,order,rfl,side,price,qty,decoded⟩
    · cases (Multiset.notMem_zero _ member)
  · cases (Multiset.notMem_zero _ member)

theorem placedOnce : ((placed height index tx).map Prod.fst).Nodup := by
  unfold placed
  split
  · split
    · rename_i op _
      cases op with
      | cancel account id => exact Multiset.nodup_zero
      | place account side price qty => exact Multiset.nodup_singleton _
    · exact Multiset.nodup_zero
  · exact Multiset.nodup_zero

theorem placementMember {tag : Tag} {i : ℕ} (member : tag ∈ placements height i txs) :
    ∃ k tx, txs[k]? = some tx ∧ tag.1 = ⟨height,UInt32.ofNat (i + k)⟩ ∧ Places tx tag.2 := by
  induction txs generalizing i with
  | nil => cases (Multiset.notMem_zero _ member)
  | cons tx txs ih =>
    rcases Multiset.mem_add.mp member with here | later
    · exact ⟨0,tx,rfl,placedMember here⟩
    · obtain ⟨k,other,found,places⟩ := ih later
      refine ⟨k + 1,other,found,?_⟩
      rwa [Nat.add_assoc,Nat.add_comm 1] at places

theorem placementsOnce {i : ℕ} (few : i + txs.length ≤ 2 ^ 32) : ((placements height i txs).map Prod.fst).Nodup := by
  induction txs generalizing i with
  | nil => exact Multiset.nodup_zero
  | cons tx txs ih =>
    rw [List.length_cons] at few
    rw [placements,Multiset.map_add,Multiset.nodup_add]
    refine ⟨placedOnce,ih (by omega),Multiset.disjoint_left.mpr fun here later => ?_⟩
    obtain ⟨tag,first,rfl⟩ := Multiset.mem_map.mp here
    obtain ⟨tag',second,same⟩ := Multiset.mem_map.mp later
    obtain ⟨k,other,found,id',_⟩ := placementMember second
    have within := (List.getElem?_eq_some_iff.mp found).1
    rw [(placedMember first).1,id'] at same
    have values := congrArg (fun id : OrderID => id.index.toNat) same
    simp only [UInt32.toNat_ofNat'] at values
    omega

theorem branchMember {bs : List Block} {tag : Tag} (member : tag ∈ branchPlacements bs) :
    ∃ b ∈ bs, tag ∈ placements b.header.height 0 b.txs := by
  induction bs with
  | nil => cases (Multiset.notMem_zero _ member)
  | cons b bs ih =>
    rcases Multiset.mem_add.mp member with here | later
    · exact ⟨b,List.mem_cons_self,here⟩
    · obtain ⟨b',inside,found⟩ := ih later
      exact ⟨b',List.mem_cons_of_mem _ inside,found⟩

theorem branchOnce {bs : List Block} (heights : bs.Pairwise (fun x y => x.header.height ≠ y.header.height))
    (few : ∀ b ∈ bs, b.txs.length < 2 ^ 32) : ((branchPlacements bs).map Prod.fst).Nodup := by
  induction bs with
  | nil => exact Multiset.nodup_zero
  | cons b bs ih =>
    obtain ⟨apart,later⟩ := List.pairwise_cons.mp heights
    have small := few b List.mem_cons_self
    rw [branchPlacements,List.map_cons,List.sum_cons,Multiset.map_add,Multiset.nodup_add]
    refine ⟨placementsOnce (by omega),ih later (fun x member => few x (List.mem_cons_of_mem _ member)),
      Multiset.disjoint_left.mpr fun here there => ?_⟩
    obtain ⟨tag,first,rfl⟩ := Multiset.mem_map.mp here
    obtain ⟨tag',second,same⟩ := Multiset.mem_map.mp there
    obtain ⟨b',inside,found⟩ := branchMember second
    obtain ⟨_,_,_,id,_⟩ := placementMember first
    obtain ⟨_,_,_,id',_⟩ := placementMember found
    rw [id,id'] at same
    exact apart b' inside (congrArg OrderID.height same).symm

end
end L1Chain.Transition

namespace L1Chain
open Transition Exchange Runs

def positioned (path : List Block) (id : OrderID) : Option Transaction :=
  path[id.height.toNat]?.bind (fun b => b.txs[id.index.toNat]?)

/- Along every branch of accepted blocks, resting orders have names of their own; each is
the position of the transaction that placed the order, sent by its owner. -/
theorem orderIdentity {E : Type} {env : Env E} {verifySig : VerifySig} {setup : Setup} {c : Chain} {h : Hash}
    {path : List Block} {st : MptState} (identifies : Identifies env.engine) (reached : Extended env (setup.chain env) c)
    (fits : c.FitsMap) (branch : c.chainTo h = some path) (few : ∀ b ∈ path, b.txs.length < 2 ^ 32)
    (law : Along (replayNext env anySig c.exchangeMode) (BookLaw env anySig c.exchangeMode) c.fundGenesis path.tail)
    (derived : c.deriveState env verifySig h = .ok st) :
    (restingOrders st).Pairwise (fun x y => x.id ≠ y.id) ∧
    ∀ o ∈ restingOrders st, ∃ tx, positioned path o.id = some tx ∧ Places tx o.account := by
  obtain ⟨s,_,_⟩ := extendedSetup reached
  obtain ⟨older,climbed,rfl⟩ := Option.map_eq_some_iff.mp branch
  have walk := (ancestryPath s.rooted).mp climbed
  have length : older.reverse.length < 2 ^ 63 := by
    rw [List.length_reverse]
    exact pathFits s fits walk
  have levels := pathLevels s walk
  have any := deriveAnySig derived
  simp only [Chain.deriveState,branch] at any
  have within := replayBook identifies (fundBook env.engine _ _) law (liftTxOk.mp any)
  have book : tags (restingOrders st) ≤ branchPlacements older.reverse.tail := by
    have resting := within.resting
    rwa [add_zero] at resting
  have heights := (levelsOnce (by omega) levels).sublist (List.tail_sublist _)
  have once := branchOnce heights (fun b member => few b (List.mem_of_mem_tail member))
  constructor
  · have names := Multiset.nodup_of_le (Multiset.map_le_map book) once
    rw [tags,Multiset.map_coe,List.map_map,Multiset.coe_nodup] at names
    exact List.pairwise_map.mp names
  · intro o member
    have tagged : (o.id,o.account) ∈ tags (restingOrders st) :=
      Multiset.mem_coe.mpr (List.mem_map.mpr ⟨o,member,rfl⟩)
    obtain ⟨b,inside,found⟩ := branchMember (Multiset.mem_of_le book tagged)
    obtain ⟨k,tx,placed,id,places⟩ := placementMember found
    have onBranch := List.mem_of_mem_tail inside
    obtain ⟨n,atN⟩ := List.mem_iff_getElem?.mp onBranch
    have bound := (List.getElem?_eq_some_iff.mp atN).1
    have small := few b onBranch
    have within := (List.getElem?_eq_some_iff.mp placed).1
    refine ⟨tx,?_,places⟩
    have height : o.id.height.toNat = n := by
      rw [show o.id = _ from id,levels n b atN,UInt64.toNat_ofNat',Nat.mod_eq_of_lt (by omega)]
    have index : o.id.index.toNat = k := by
      rw [show o.id = _ from id,Nat.zero_add,UInt32.toNat_ofNat',Nat.mod_eq_of_lt (by omega)]
    rw [positioned,height,index,atN]
    exact placed

namespace Devnet

theorem escrowIdentifies : Identifies escrow where
  fresh _ := rfl
  credited _ _ _ _ := rfl
  restored e orders e' ok := by
    simp only [escrow] at ok ⊢
    split at ok
    · cases ok
      exact Multiset.le_add_right _ _
    · rename_i o
      cases locked : e.lock o with
      | none =>
        rw [locked] at ok
        cases ok
      | some held =>
        rw [locked] at ok
        cases ok
        exact Multiset.le_add_left _ _
    · cases ok
  applied e height index op res e' ok accepted := by
    simp only [escrow] at ok ⊢
    cases op with
    | cancel account id =>
      cases ok
      cases accepted
    | place account side price qty =>
      simp only [Escrow.order] at ok
      cases locked : e.lock ⟨account,⟨height,index⟩,side,price,qty⟩ with
      | none =>
        rw [locked] at ok
        cases ok
        cases accepted
      | some held =>
        rw [locked] at ok
        cases ok
        exact Multiset.le_add_right _ _
  staged e height index account side price qty res o e' ok accepted := by
    simp only [escrow,Escrow.order] at ok ⊢
    cases locked : e.lock ⟨account,⟨height,index⟩,side,price,qty⟩ with
    | none =>
      rw [locked] at ok
      cases ok
    | some held =>
      rw [locked] at ok
      cases ok
      exact ⟨rfl,rfl,Multiset.zero_le _⟩
  cleared e orders summary e' ok := by
    cases ok
    exact (tagsAppend _ _).le

theorem bidIdentified : ∃ c st, ((soloSetup 0).chain (trading escrow)).addBlock (trading escrow) acceptNonEmptySig
      (firstBlock 0 [paying 0,bidding 1 1]) = .ok c ∧
    c.deriveState (trading escrow) acceptNonEmptySig c.head = .ok st ∧ (restingOrders st).map (·.id) = [⟨1,1⟩] ∧
    ∀ o ∈ restingOrders st, Places (bidding 1 1) o.account := by
  have ran : (applyTxsAt (trading escrow) acceptNonEmptySig soloFunds [paying 0,bidding 1 1] 1 .continuous 0).map
      (fun r => (r.gasUsed,(restingOrders r.st).map (·.id))) = .ok (0,[⟨1,1⟩]) := by decide +kernel
  obtain ⟨r,ok,values⟩ := mapOk.mp ran
  obtain ⟨gas,ids⟩ := Prod.mk.inj values
  have sent : ∀ tx ∈ [paying 0,bidding 1 1], tx.chainID = (soloConfig 0).resolvedChainID := by
    simp [bidding,paying,payment]
  have cand := firstCandidate sent ok
  rw [gas] at cand
  have a := firstAccepted cand
  have derived := firstDerived a
  have names : (restingOrders (credit r.st (account 3) (blockReward + r.tip))).map (·.id) = [⟨1,1⟩] := by
    rw [(creditBeside _ _).1]
    exact ids
  refine ⟨_,_,addBlockOk.mpr ⟨_,_,a,rfl⟩,derived,names,fun o member => ?_⟩
  rw [(firstHead a).1] at derived
  have reached : Extended (trading escrow) ((soloSetup 0).chain (trading escrow))
      (firstChain escrow 0 [paying 0,bidding 1 1] (credit r.st (account 3) (blockReward + r.tip))) :=
    .add .start (addBlockOk.mpr ⟨_,_,a,rfl⟩)
  have fits : (firstChain escrow 0 [paying 0,bidding 1 1] (credit r.st (account 3) (blockReward + r.tip))).FitsMap := by
    have size : ((soloSetup 0).chain (trading escrow)).blocks.entries.length = 1 := rfl
    rw [Chain.FitsMap,firstChain,commitSize a.fresh,size]
    decide
  have pays : route soloFunds (paying 0) = .transfer := rfl
  have orders : ∀ st : MptState, route st (bidding 1 1) = .exchange := fun _ => rfl
  have law : Along (replayNext (trading escrow) anySig .continuous) (BookLaw (trading escrow) anySig .continuous) soloFunds
      [firstBlock 0 [paying 0,bidding 1 1]] := by
    refine ⟨fun x member codeless => ?_,trivial⟩
    rcases tradeTrace member with ⟨before,tx⟩ | tx
    · rw [before,tx]
      exact ⟨fun evm => (by cases pays.symm.trans evm),fun zero => absurd zero (by decide)⟩
    · rw [tx]
      exact ⟨fun evm => (by cases (orders _).symm.trans evm),fun zero => absurd zero (by decide)⟩
  have few : ∀ b ∈ [(soloSetup 0).genesis.toBlock (trading escrow),firstBlock 0 [paying 0,bidding 1 1]],
      b.txs.length < 2 ^ 32 := by
    intro b member
    rcases List.mem_cons.mp member with rfl | later
    · decide
    · rw [List.mem_singleton.mp later]
      show 2 < 2 ^ 32
      decide
  obtain ⟨tx,found,places⟩ := (orderIdentity escrowIdentifies reached fits (firstBranch a) few
    (by rw [firstConfig.1,firstConfig.2]; exact law) derived).2 o member
  have id : o.id = ⟨1,1⟩ := by
    have listed : o.id ∈ (restingOrders (credit r.st (account 3) (blockReward + r.tip))).map (·.id) :=
      List.mem_map.mpr ⟨o,member,rfl⟩
    rw [names] at listed
    exact List.mem_singleton.mp listed
  rw [id] at found
  cases found
  exact places

end Devnet
end L1Chain
