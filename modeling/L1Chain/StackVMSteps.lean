import L1Chain.StackVM
import L1Chain.Runs
import L1Chain.Supply
import Mathlib.Logic.Relation

/-! What a message can do to the state. A scope is read through its `view`, the
state its buffers stand for; every instruction moves the view by payments and
storage writes of addresses that hold code, and a commit or a flush only makes
the view the state below. -/
namespace L1Chain.StackVM
open Runs MptState

/- The two things running code does to accounts. Both are done in the name of the
address whose code runs. -/
inductive Effect : MptState → MptState → Prop
  | moves {st : MptState} {a b : Address} {v : UInt64} (coded : (st.accounts a).code ≠ [])
      (funded : st.Funded a b v) : Effect st (st.pay a b v)
  | stores {st : MptState} {a : Address} (k v : Hash) (coded : (st.accounts a).code ≠ []) :
      Effect st (setStorage st a k v)

abbrev Effects := Relation.ReflTransGen Effect

section
variable {st st' : MptState} {a : Address}

theorem effectFrame (step : Effect st st') : (st'.accounts a).nonce = (st.accounts a).nonce ∧
    (st'.accounts a).code = (st.accounts a).code := by
  cases step with
  | moves => exact ⟨payFrame.1,payFrame.2.1⟩
  | stores k v => exact storageFrame _ k v

theorem effectsFrame (steps : Effects st st') : (st'.accounts a).nonce = (st.accounts a).nonce ∧
    (st'.accounts a).code = (st.accounts a).code := by
  induction steps with
  | refl => exact ⟨rfl,rfl⟩
  | tail _ step ih => exact ⟨(effectFrame step).1.trans ih.1,(effectFrame step).2.trans ih.2⟩

theorem effectsStorage (codeless : (st.accounts a).code = []) (steps : Effects st st') :
    (st'.accounts a).storage = (st.accounts a).storage := by
  induction steps with
  | refl => rfl
  | tail before step ih =>
    rw [← ih]
    cases step with
    | moves => exact payFrame.2.2
    | stores k v coded =>
      rw [setStorageAt,if_neg]
      intro same
      rw [← same,(effectsFrame before).2] at coded
      exact coded codeless

theorem effectsSupply (fits : st.supply < 2 ^ 64) (steps : Effects st st') : st'.supply = st.supply := by
  induction steps with
  | refl => rfl
  | tail _ step ih =>
    rw [← ih]
    cases step with
    | moves _ funded => exact paySupply funded (ih.trans_lt fits)
    | stores k v => rw [supply,storageBalances,supply]

theorem effectsKeep (fits : st.supply < 2 ^ 64) (codeless : (st.accounts a).code = []) (steps : Effects st st') :
    st.balances a ≤ st'.balances a := by
  induction steps with
  | refl => exact le_rfl
  | tail before step ih =>
    refine ih.trans ?_
    cases step with
    | moves coded funded =>
      refine payKeeps funded ((effectsSupply fits before).trans_lt fits) (fun same => coded ?_)
      rw [← same,(effectsFrame before).2]
      exact codeless
    | stores k v => rw [storageBalances]

end

theorem lookupUnion {α β : Type} [DecidableEq α] (s t : AList (fun _ : α => β)) (k : α) :
    (s ∪ t).lookup k = (s.lookup k).or (t.lookup k) := by
  cases found : s.lookup k with
  | none =>
    rw [AList.lookup_union_right (AList.lookup_eq_none.mp found)]
    rfl
  | some x =>
    rw [AList.lookup_union_left (AList.lookup_isSome.mp (by simp [found])),found]
    rfl

section
variable {S : Type} [StateDB S] {sc : Scope S} {a : Address}

theorem accountSet {acct : Account} (x : Address) :
    (sc.setAccount a acct).getAccount x = if x = a then acct else sc.getAccount x := by
  simp only [Scope.getAccount,Scope.setAccount,readAccount]
  by_cases same : x = a
  · subst same
    simp [AList.lookup_insert]
  · rw [AList.lookup_insert_ne same,if_neg same]

theorem codeSet (code : Bytes) (x : Address) :
    (sc.setCode a code).getCode x = if x = a then code else sc.getCode x := by
  simp only [Scope.getCode,Scope.setCode,readCode]
  by_cases same : x = a
  · subst same
    simp [AList.lookup_insert]
  · rw [AList.lookup_insert_ne same,if_neg same]

theorem storageSet (k v : Hash) (x : Address) (k' : Hash) :
    (sc.setStorage a k v).getStorage x k' = if x = a ∧ k' = k then v else sc.getStorage x k' := by
  simp only [Scope.getStorage,Scope.setStorage,readStorage]
  by_cases same : (x,k') = (a,k)
  · cases same
    simp [AList.lookup_insert]
  · rw [AList.lookup_insert_ne same,if_neg (fun eq => same (by rw [eq.1,eq.2]))]

theorem childReads (x : Address) : sc.child.getAccount x = sc.getAccount x ∧ sc.child.getCode x = sc.getCode x ∧
    sc.child.getStorage x = sc.getStorage x := by
  refine ⟨?_,?_,funext fun k => ?_⟩ <;>
    simp [Scope.child,Scope.getAccount,Scope.getCode,Scope.getStorage,readAccount,readCode,readStorage,Layer.empty]

theorem commitReads (x : Address) : sc.commit.getAccount x = sc.getAccount x ∧ sc.commit.getCode x = sc.getCode x ∧
    sc.commit.getStorage x = sc.getStorage x := by
  obtain ⟨base,parents,top⟩ := sc
  cases parents with
  | nil => exact ⟨rfl,rfl,rfl⟩
  | cons p ps =>
    refine ⟨?_,?_,funext fun k => ?_⟩ <;>
      simp only [Scope.commit,Scope.getAccount,Scope.getCode,Scope.getStorage,readAccount,readCode,readStorage,
        lookupUnion,Option.getD_or]

end

section
variable {base : MptState} {sc sc' : Scope MptState} {a b : Address} {v : UInt64}

/- Accounts enter a buffer from the state below, with the code and the storage they
had there; only the flush relies on it. -/
def Layer.Carries (base : MptState) (l : Layer) : Prop :=
  ∀ a acct, l.acct.lookup a = some acct →
    acct.code = (base.accounts a).code ∧ acct.storage = (base.accounts a).storage

def Scope.Clean (sc : Scope MptState) : Prop := ∀ l ∈ sc.top::sc.parents, l.Carries sc.base

def Scope.view (sc : Scope MptState) : MptState :=
  ⟨fun a => ⟨(sc.getAccount a).balance,(sc.getAccount a).nonce,sc.getCode a,sc.getStorage a⟩⟩

theorem readCarried {layers : List Layer} (carried : ∀ l ∈ layers, l.Carries base) :
    (readAccount base layers a).code = (base.accounts a).code ∧
    (readAccount base layers a).storage = (base.accounts a).storage := by
  induction layers with
  | nil => exact ⟨rfl,rfl⟩
  | cons l below ih =>
    simp only [readAccount]
    cases found : l.acct.lookup a with
    | none => exact ih (fun l member => carried l (List.mem_cons_of_mem _ member))
    | some acct => exact carried l List.mem_cons_self a acct found

/- What every instruction leaves alone: the levels below its own, and that
accounts carry their code and storage. -/
structure Keeps (sc sc' : Scope MptState) : Prop where
  base : sc'.base = sc.base
  parents : sc'.parents = sc.parents
  clean : sc.Clean → sc'.Clean

theorem Keeps.refl (sc : Scope MptState) : Keeps sc sc := ⟨rfl,rfl,id⟩

theorem Keeps.trans {mid : Scope MptState} (first : Keeps sc mid) (second : Keeps mid sc') : Keeps sc sc' :=
  ⟨second.base.trans first.base,second.parents.trans first.parents,second.clean ∘ first.clean⟩

theorem storageKeeps (k v : Hash) : Keeps sc (sc.setStorage a k v) := by
  refine ⟨rfl,rfl,fun clean l member => ?_⟩
  rcases List.mem_cons.mp member with rfl | below
  · exact clean sc.top List.mem_cons_self
  · exact clean l (List.mem_cons_of_mem _ below)

theorem codeKeeps (code : Bytes) : Keeps sc (sc.setCode a code) := by
  refine ⟨rfl,rfl,fun clean l member => ?_⟩
  rcases List.mem_cons.mp member with rfl | below
  · exact clean sc.top List.mem_cons_self
  · exact clean l (List.mem_cons_of_mem _ below)

theorem balanceKeeps (balance : UInt64) :
    Keeps sc (sc.setAccount a {sc.getAccount a with balance := balance}) := by
  refine ⟨rfl,rfl,fun clean l member => ?_⟩
  rcases List.mem_cons.mp member with rfl | below
  · intro x acct found
    simp only [Scope.setAccount] at found
    by_cases same : x = a
    · subst same
      rw [AList.lookup_insert] at found
      cases found
      exact readCarried clean
    · rw [AList.lookup_insert_ne same] at found
      exact clean sc.top List.mem_cons_self x acct found
  · exact clean l (List.mem_cons_of_mem _ below)

theorem viewChild : sc.child.view = sc.view := by
  ext1 a
  obtain ⟨account,code,storage⟩ := @childReads _ _ sc a
  simp only [Scope.view,account,code,storage]

theorem viewStorage (k v : Hash) : (sc.setStorage a k v).view = setStorage sc.view a k v := by
  ext1 x
  rw [setStorageAt]
  split
  · rename_i same
    subst same
    simp only [Scope.view,Account.mk.injEq]
    exact ⟨rfl,rfl,rfl,funext fun k' => by simp [storageSet]⟩
  · rename_i other
    simp only [Scope.view,Account.mk.injEq]
    exact ⟨rfl,rfl,rfl,funext fun k' => by simp [storageSet,other]⟩

theorem viewCode (code : Bytes) : (sc.setCode a code).view = setCode sc.view a code := by
  ext1 x
  rw [setCodeAt]
  split
  · rename_i same
    subst same
    simp only [Scope.view,Account.mk.injEq]
    exact ⟨rfl,rfl,by simp [codeSet],rfl⟩
  · rename_i other
    simp only [Scope.view,Account.mk.injEq]
    exact ⟨rfl,rfl,by simp [codeSet,other],rfl⟩

theorem viewBalance (balance : UInt64) : (sc.setAccount a {sc.getAccount a with balance := balance}).view =
    setAccount sc.view a {sc.view.accounts a with balance := balance} := by
  ext1 x
  rw [setAccountAt]
  simp only [Scope.view,accountSet]
  split
  · rename_i same
    subst same
    rfl
  · rfl

theorem viewCommit : sc.commit.view = sc.view := by
  ext1 a
  obtain ⟨account,code,storage⟩ := @commitReads _ _ sc a
  simp only [Scope.view,account,code,storage]

theorem commitKeeps {inner : Scope MptState} (keeps : Keeps sc.child inner) :
    Keeps sc inner.commit ∧ inner.commit.view = inner.view := by
  refine ⟨?_,viewCommit⟩
  obtain ⟨base,parents,top⟩ := inner
  obtain ⟨rfl,rfl,clean⟩ := keeps
  refine ⟨rfl,rfl,fun before => ?_⟩
  have inside : (⟨sc.base,sc.top::sc.parents,top⟩ : Scope MptState).Clean := by
    refine clean (fun l member => ?_)
    rcases List.mem_cons.mp member with rfl | below
    · intro a acct found
      simp [Scope.child,Layer.empty] at found
    · exact before l below
  intro l member
  rcases List.mem_cons.mp member with rfl | below
  · intro a acct found
    simp only [Scope.commit,Scope.child,lookupUnion,Option.or_eq_some_iff] at found
    rcases found with own | ⟨_,callers⟩
    · exact inside top List.mem_cons_self a acct own
    · exact inside sc.top (by simp) a acct callers
  · exact before l (List.mem_cons_of_mem _ below)

theorem transferOk (ok : sc.transfer a b v = .ok sc') :
    Keeps sc sc' ∧ sc.view.Funded a b v ∧ sc'.view = sc.view.pay a b v := by
  unfold Scope.transfer at ok
  split at ok
  · rename_i idle
    cases ok
    refine ⟨Keeps.refl sc,?_,(payIdle idle).symm⟩
    rcases idle with zero | same
    · exact .inl zero
    · exact .inr (.inl same)
  · rename_i moves
    dsimp only at ok
    split at ok
    · cases ok
    · rename_i enough
      cases ok
      refine ⟨(balanceKeeps _).trans (balanceKeeps _),.inr (.inr (UInt64.not_lt.mp enough)),?_⟩
      let mid := sc.setAccount a {sc.getAccount a with balance := (sc.getAccount a).balance - v}
      have debited : mid.view = setAccount sc.view a
          {sc.view.accounts a with balance := (sc.view.accounts a).balance - v} := viewBalance _
      rw [viewBalance,pay,if_neg moves]
      show setAccount mid.view b {mid.view.accounts b with balance := (mid.view.accounts b).balance + v} = _
      rw [debited]

theorem flushAccounts {entries : List (Sigma fun _ : Address => Account)} (once : entries.NodupKeys)
    (st : MptState) (x : Address) :
    (entries.foldl (fun st e => setAccount st e.1 e.2) st).accounts x =
      (entries.dlookup x).getD (st.accounts x) := by
  induction entries generalizing st with
  | nil => rfl
  | cons e entries ih =>
    obtain ⟨addr,acct⟩ := e
    obtain ⟨fresh,once⟩ := List.nodupKeys_cons.mp once
    rw [List.foldl_cons,ih once,setAccountAt]
    by_cases same : x = addr
    · subst same
      simp [List.dlookup_eq_none.mpr fresh]
    · rw [if_neg same,List.dlookup_cons_ne _ _ same]

theorem flushCode {entries : List (Sigma fun _ : Address => Bytes)} (once : entries.NodupKeys)
    (st : MptState) (x : Address) :
    (entries.foldl (fun st e => setCode st e.1 e.2) st).accounts x =
      {st.accounts x with code := (entries.dlookup x).getD (st.accounts x).code} := by
  induction entries generalizing st with
  | nil => rfl
  | cons e entries ih =>
    obtain ⟨addr,code⟩ := e
    obtain ⟨fresh,once⟩ := List.nodupKeys_cons.mp once
    rw [List.foldl_cons,ih once,setCodeAt]
    by_cases same : x = addr
    · subst same
      simp [List.dlookup_eq_none.mpr fresh]
    · rw [if_neg same,List.dlookup_cons_ne _ _ same]

theorem flushStorage {entries : List (Sigma fun _ : Address × Hash => Hash)} (once : entries.NodupKeys)
    (st : MptState) (x : Address) :
    (entries.foldl (fun st e => setStorage st e.1.1 e.1.2 e.2) st).accounts x =
      {st.accounts x with storage := fun k => (entries.dlookup (x,k)).getD ((st.accounts x).storage k)} := by
  induction entries generalizing st with
  | nil => rfl
  | cons e entries ih =>
    obtain ⟨⟨addr,key⟩,val⟩ := e
    obtain ⟨fresh,once⟩ := List.nodupKeys_cons.mp once
    rw [List.foldl_cons,ih once,setStorageAt]
    by_cases same : x = addr
    · subst same
      simp only [if_true,Account.mk.injEq,true_and]
      funext k
      by_cases key' : k = key
      · subst key'
        simp [List.dlookup_eq_none.mpr fresh]
      · rw [if_neg key',List.dlookup_cons_ne _ _ (fun eq => key' (congrArg Prod.snd eq))]
    · rw [if_neg same]
      simp only [Account.mk.injEq,true_and]
      funext k
      rw [List.dlookup_cons_ne _ _ (fun eq => same (congrArg Prod.fst eq))]

theorem flushView (root : sc.parents = []) (clean : sc.Clean) : sc.flush = sc.view := by
  obtain ⟨base,parents,top⟩ := sc
  subst root
  ext1 x
  have carried := readCarried (a := x) clean
  simp only [Scope.flush,flushStorage top.storage.nodupKeys,flushCode top.code.nodupKeys,
    flushAccounts top.acct.nodupKeys,Scope.view,Account.mk.injEq]
  refine ⟨rfl,rfl,?_,funext fun k => ?_⟩
  · simp only [Scope.getCode,readCode,AList.lookup]
    rw [getCodeEq,← carried.1]
    rfl
  · simp only [Scope.getStorage,readStorage,AList.lookup]
    rw [getStorageEq,← carried.2]
    rfl

end

/- A frame's run as a relation between meter and scope before and after: the stack,
the memory and the program counter decide which of these happen, but nothing else
happens to the state. -/
inductive Ran : GasMeter → Scope MptState → Context → GasMeter → Except VmErr (Bytes × Scope MptState) → Prop
  | halts {g sc ctx} (ret : Bytes) : Ran g sc ctx g (.ok (ret,sc))
  | fails {g sc ctx} (e : VmErr) : Ran g sc ctx g (.error e)
  | charged {g sc ctx g₁ g' r} {cost : UInt64} {paid : Except VmErr Unit} (charge : g.charge cost = (g₁,paid))
      (rest : Ran g₁ sc ctx g' r) : Ran g sc ctx g' r
  | stores {g sc ctx g' r} {k v : Hash} (coded : ctx.code ≠ [])
      (rest : Ran g (sc.setStorage ctx.self k v) ctx g' r) : Ran g sc ctx g' r
  | recovers {g sc ctx g₁ g' r inner callee e} (failed : Ran g inner callee g₁ (.error e))
      (rest : Ran g₁ sc ctx g' r) : Ran g sc ctx g' r
  | returns {g sc ctx g₁ g' r inner inner' callee value ret} (coded : ctx.code ≠ [])
      (paid : sc.child.transfer ctx.self callee.self value = .ok inner) (own : callee.code = inner.getCode callee.self)
      (done : Ran g inner callee g₁ (.ok (ret,inner'))) (rest : Ran g₁ inner'.commit ctx g' r) : Ran g sc ctx g' r

section
variable {g g' : GasMeter} {sc sc' : Scope MptState} {ctx : Context} {f f' : Frame} {op : Op} {ret : Bytes}
  {fuel depth : ℕ} {sha : Bytes → Hash} {st st' : MptState} {msg : Message} {receipt : Receipt}

theorem chargeBounds {cost : UInt64} {r : Except VmErr Unit}
    (charged : g.charge cost = (g',r)) : g'.limit = g.limit ∧ g'.used ≤ g'.limit := by
  unfold GasMeter.charge at charged
  split at charged
  · cases charged
    exact ⟨rfl,UInt64.le_refl _⟩
  · rename_i room
    cases charged
    exact ⟨rfl,UInt64.not_lt.mp (fun beyond => room (.inl beyond))⟩

theorem execNext (ok : exec ctx f sc op = .ok (.next f' sc')) : op ≠ .sstore ∧ sc' = sc ∨
    ∃ key val rest, op = .sstore ∧ f.stack = key::val::rest ∧
      sc' = sc.setStorage ctx.self (bigToHash key) (bigToHash val) := by
  cases op <;> simp only [exec,binary,next,bindOk,Prod.exists,Except.ok.injEq,reduceCtorEq] at ok
  case dup1 =>
    split at ok <;> simp only [bindOk,reduceCtorEq] at ok
    grind
  case jumpi =>
    obtain ⟨_,_,_,_,_,_,ok⟩ := ok
    split at ok
    · simp only [bindOk] at ok
      grind
    · grind
  case sstore =>
    obtain ⟨key,st,first,val,rest,second,same⟩ := ok
    cases same
    cases stack : f.stack with
    | nil => simp [stack,pop] at first
    | cons w below =>
      rw [stack] at first
      cases first
      cases st with
      | nil => cases second
      | cons w below =>
        cases second
        exact .inr ⟨_,_,_,rfl,rfl,rfl⟩
  all_goals grind

theorem runRan (fuel : ℕ) (g : GasMeter) (sc : Scope MptState) (depth : ℕ) (ctx : Context) (f : Frame) :
    Ran g sc ctx (run fuel g sc depth ctx f).1 (run fuel g sc depth ctx f).2 := by
  induction fuel generalizing g sc depth ctx f with
  | zero => exact .fails _
  | succ fuel ih =>
    unfold run
    split
    · exact .halts []
    · rename_i byte read
      have coded : ctx.code ≠ [] := by
        intro none
        simp [none] at read
      split
      · rename_i g₁ e charge
        exact .charged charge (.fails e)
      · rename_i g₁ charge
        refine .charged charge ?_
        split
        · exact .fails _
        · rename_i op decoded
          split
          · exact .fails _
          · exact .halts _
          · rename_i f₁ sc₁ next
            rcases execNext next with ⟨_,rfl⟩ | ⟨key,val,rest,_,_,rfl⟩
            · exact ih ..
            · exact .stores coded (ih ..)
          · rename_i args f₁ call
            split
            · split
              · exact .fails _
              · exact ih ..
            · split
              · exact .fails _
              · rename_i i n mem range
                dsimp only
                split
                · split
                  · exact .fails _
                  · exact ih ..
                · rename_i inner paid
                  let callee : Context := ⟨inner.getCode args.to',args.to',args.value,(mem.drop i).take n⟩
                  have ran := ih g₁ inner (depth + 1) callee ⟨0,[],[]⟩
                  split
                  · rename_i g₂ outcome
                    rw [outcome] at ran
                    exact .recovers ran (.fails _)
                  · rename_i g₂ outcome
                    rw [outcome] at ran
                    exact .recovers ran (.fails _)
                  · rename_i g₂ e _ _ outcome
                    rw [outcome] at ran
                    refine .recovers ran ?_
                    split
                    · exact .fails _
                    · exact ih ..
                  · rename_i g₂ ret inner' outcome
                    rw [outcome] at ran
                    refine .returns coded paid rfl ran ?_
                    split
                    · exact .fails _
                    · exact ih ..

theorem Ran.gas {r : Except VmErr (Bytes × Scope MptState)} (ran : Ran g sc ctx g' r) :
    g'.limit = g.limit ∧ (g.used ≤ g.limit → g'.used ≤ g'.limit) := by
  induction ran with
  | halts | fails => exact ⟨rfl,id⟩
  | charged charge _ ih =>
    obtain ⟨limit,within⟩ := chargeBounds charge
    exact ⟨ih.1.trans limit,fun _ => ih.2 within⟩
  | stores _ _ ih => exact ih
  | recovers _ _ callee rest => exact ⟨rest.1.trans callee.1,rest.2 ∘ callee.2⟩
  | returns _ _ _ _ _ callee rest => exact ⟨rest.1.trans callee.1,rest.2 ∘ callee.2⟩

theorem calledEffects {inner inner' : Scope MptState} {callee : Address} {value : UInt64}
    (own : ctx.code = sc.getCode ctx.self) (coded : ctx.code ≠ [])
    (paid : sc.child.transfer ctx.self callee value = .ok inner)
    (ran : Keeps inner inner' ∧ Effects inner.view inner'.view) :
    Keeps sc inner'.commit ∧ Effects sc.view inner'.commit.view ∧ ctx.code = inner'.commit.getCode ctx.self := by
  obtain ⟨sent,funded,moved⟩ := transferOk paid
  rw [viewChild] at funded moved
  obtain ⟨folded,foldedView⟩ := commitKeeps (sent.trans ran.1)
  have callerCoded : (sc.view.accounts ctx.self).code ≠ [] := fun none => coded (own.trans none)
  have called : Effects sc.view inner'.commit.view := by
    rw [foldedView]
    refine .head (.moves callerCoded funded) ?_
    rw [← moved]
    exact ran.2
  exact ⟨folded,called,own.trans (effectsFrame (a := ctx.self) called).2.symm⟩

theorem Ran.effects {r : Except VmErr (Bytes × Scope MptState)} (ran : Ran g sc ctx g' r)
    (own : ctx.code = sc.getCode ctx.self) (ok : r = .ok (ret,sc')) : Keeps sc sc' ∧ Effects sc.view sc'.view := by
  induction ran generalizing ret sc' with
  | halts =>
    cases ok
    exact ⟨Keeps.refl _,.refl⟩
  | fails => cases ok
  | charged _ _ ih => exact ih own ok
  | recovers _ _ _ ih => exact ih own ok
  | @stores g sc ctx g' r k v coded _ ih =>
    have step : Effect sc.view (sc.setStorage ctx.self k v).view := by
      rw [viewStorage]
      exact .stores k v (fun none => coded (own.trans none))
    obtain ⟨keeps,effects⟩ := ih own ok
    exact ⟨(storageKeeps k v).trans keeps,.head step effects⟩
  | @returns g sc ctx g₁ g' r inner inner' callee value ret coded paid calleeOwn _ _ ihCallee ihRest =>
    obtain ⟨folded,called,ownAfter⟩ := calledEffects own coded paid (ihCallee calleeOwn rfl)
    obtain ⟨keeps,effects⟩ := ihRest ownAfter ok
    exact ⟨folded.trans keeps,called.trans effects⟩

theorem newView : (Scope.new st).view = st := by
  ext1 a
  rfl

theorem newClean : (Scope.new st).Clean := by
  intro l member
  rcases List.mem_cons.mp member with rfl | none
  · intro a acct found
    simp [Layer.empty,Scope.new] at found
  · cases none

/- A message that fails leaves the state as it was; one that succeeds moved its
value first, then stored the new contract's code or ran the callee's. -/
inductive Executed (sha : Bytes → Hash) (st : MptState) (msg : Message) : MptState → Prop
  | failed : Executed sha st msg st
  | created (deploys : msg.to' = none)
      (funded : st.Funded msg.sender (createAddress sha msg.sender msg.nonce) msg.value) :
      Executed sha st msg (setCode (st.pay msg.sender (createAddress sha msg.sender msg.nonce) msg.value)
        (createAddress sha msg.sender msg.nonce) msg.data)
  | called {self : Address} {st' : MptState} (calls : msg.to' = some self) (funded : st.Funded msg.sender self msg.value)
      (effects : Effects (st.pay msg.sender self msg.value) st') : Executed sha st msg st'

theorem finalGasBound (limit : g'.limit = g.limit) (within : g'.used ≤ g'.limit) (e : VmErr) :
    finalGas g' e ≤ g.limit := by
  unfold finalGas
  split
  · exact limit ▸ UInt64.le_refl _
  · exact le_of_le_of_eq within limit

theorem createFlush {root : Scope MptState} {value : UInt64} (paid : (Scope.new st).transfer a b value = .ok root)
    (code : Bytes) : st.Funded a b value ∧ (root.setCode b code).flush = setCode (st.pay a b value) b code := by
  obtain ⟨keeps,funded,moved⟩ := transferOk paid
  rw [newView] at funded moved
  have whole := keeps.trans (codeKeeps (a := b) code)
  rw [flushView whole.parents (whole.clean newClean),viewCode,moved]
  exact ⟨funded,rfl⟩

theorem executed (sha : Bytes → Hash) (st : MptState) (msg : Message) :
    (execute sha st msg).1.gasUsed ≤ msg.gasLimit ∧ Executed sha st msg (execute sha st msg).2 := by
  unfold execute
  dsimp only
  split
  · rename_i deploys
    unfold create
    split
    · rename_i g e charge
      exact ⟨(chargeBounds charge).1 ▸ UInt64.le_refl _,.failed⟩
    · rename_i g charge
      obtain ⟨limit,within⟩ := chargeBounds charge
      dsimp only
      split
      · exact ⟨le_of_le_of_eq within limit,.failed⟩
      · rename_i root paid
        obtain ⟨funded,stored⟩ := createFlush paid msg.data
        refine ⟨le_of_le_of_eq within limit,?_⟩
        rw [stored]
        exact .created deploys funded
  · rename_i self calls
    split
    · exact ⟨UInt64.zero_le,.failed⟩
    · rename_i root paid
      obtain ⟨sent,funded,moved⟩ := transferOk paid
      rw [newView] at funded moved
      have ran := runRan (fuelFor msg.gasLimit) ⟨msg.gasLimit,0⟩ root 0 ⟨root.getCode self,self,msg.value,msg.data⟩ ⟨0,[],[]⟩
      split
      · rename_i g e outcome
        rw [outcome] at ran
        obtain ⟨limit,within⟩ := ran.gas
        exact ⟨finalGasBound limit (within UInt64.zero_le) e,.failed⟩
      · rename_i g ret root' outcome
        rw [outcome] at ran
        obtain ⟨limit,within⟩ := ran.gas
        obtain ⟨keeps,effects⟩ := ran.effects rfl rfl
        have whole := sent.trans keeps
        rw [moved] at effects
        refine ⟨le_of_le_of_eq (within UInt64.zero_le) limit,?_⟩
        rw [flushView whole.parents (whole.clean newClean)]
        exact .called calls funded effects

theorem Executed.supply (fits : st.supply < 2 ^ 64) (done : Executed sha st msg st') : st'.supply = st.supply := by
  cases done with
  | failed => rfl
  | created _ funded =>
    rw [MptState.supply,codeBalances]
    exact paySupply funded fits
  | called _ funded effects =>
    have paid := paySupply funded fits
    exact (effectsSupply (paid.trans_lt fits) effects).trans paid

theorem Executed.nonce {a : Address} (done : Executed sha st msg st') :
    (st'.accounts a).nonce = (st.accounts a).nonce := by
  cases done with
  | failed => rfl
  | created => exact (codeFrame _ _).1.trans payFrame.1
  | called _ _ effects => exact (effectsFrame effects).1.trans payFrame.1

theorem Executed.code {a : Address} (done : Executed sha st msg st') :
    (st'.accounts a).code = (st.accounts a).code ∨
      msg.to' = none ∧ a = createAddress sha msg.sender msg.nonce ∧ (st'.accounts a).code = msg.data := by
  cases done with
  | failed => exact .inl rfl
  | created deploys =>
    rw [setCodeAt]
    split
    · rename_i same
      exact .inr ⟨deploys,same,rfl⟩
    · exact .inl payFrame.2.1
  | called _ _ effects => exact .inl ((effectsFrame effects).2.trans payFrame.2.1)

theorem deployment (sha : Bytes → Hash) (st : MptState) (msg : Message) :
    (execute sha st msg).1.contractAddress = none ∧
      (∀ a, ((execute sha st msg).2.accounts a).code = (st.accounts a).code) ∨
    msg.to' = none ∧ ∃ addr, (execute sha st msg).1.contractAddress = some addr ∧
      ∀ a, ((execute sha st msg).2.accounts a).code = if a = addr then msg.data else (st.accounts a).code := by
  cases target : msg.to' with
  | some self =>
    refine .inl ⟨?_,fun a => ?_⟩
    · simp only [execute,target]
      split
      · rfl
      · split <;> rfl
    · exact ((executed sha st msg).2.code (a := a)).resolve_right (fun new => nomatch target.symm.trans new.1)
  | none =>
    have creates : execute sha st msg = create sha ⟨msg.gasLimit,0⟩ st msg := by simp only [execute,target]
    rw [creates]
    unfold create
    split
    · exact .inl ⟨rfl,fun _ => rfl⟩
    · dsimp only
      split
      · exact .inl ⟨rfl,fun _ => rfl⟩
      · rename_i root paid
        refine .inr ⟨rfl,_,rfl,fun a => ?_⟩
        rw [(createFlush paid msg.data).2,setCodeAt]
        split
        · rfl
        · exact payFrame.2.1

theorem Executed.storage {a : Address} (codeless : (st.accounts a).code = []) (done : Executed sha st msg st') :
    (st'.accounts a).storage = (st.accounts a).storage := by
  cases done with
  | failed => rfl
  | created => exact (codeFrame _ _).2.trans payFrame.2.2
  | called _ _ effects => exact (effectsStorage (payFrame.2.1.trans codeless) effects).trans payFrame.2.2

theorem Executed.spends {a : Address} (fits : st.supply < 2 ^ 64) (codeless : (st.accounts a).code = [])
    (done : Executed sha st msg st') :
    st.balances a ≤ st'.balances a + if a = msg.sender ∧ msg.to' ≠ some a then msg.value.toNat else 0 := by
  have paid : ∀ {b : Address}, st.Funded msg.sender b msg.value → (msg.to' = none ∨ msg.to' = some b) →
      st.balances a ≤ (st.pay msg.sender b msg.value).balances a +
        if a = msg.sender ∧ msg.to' ≠ some a then msg.value.toNat else 0 := by
    intro b funded target
    by_cases own : a = msg.sender
    · subst own
      by_cases self : msg.sender = b
      · rw [payIdle (.inr self)]
        exact Nat.le_add_right _ _
      · have away : msg.to' ≠ some msg.sender := by
          rcases target with none | some
          · simp [none]
          · rw [some]
            exact fun eq => self (Option.some.inj eq).symm
        rw [if_pos ⟨rfl,away⟩,(paidBalance self funded fits).1]
    · exact (payKeeps funded fits own).trans (Nat.le_add_right _ _)
  cases done with
  | failed => exact Nat.le_add_right _ _
  | created deploys funded =>
    rw [codeBalances]
    exact paid funded (.inl deploys)
  | called calls funded effects =>
    have kept := effectsKeep ((paySupply funded fits).trans_lt fits) (payFrame.2.1.trans codeless) effects
    exact (paid funded (.inr calls)).trans (Nat.add_le_add_right kept _)

end

end L1Chain.StackVM
