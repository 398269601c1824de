import L1Chain.Overlay
import L1Chain.Lockstep
import L1Chain.StackVMSteps
import L1Chain.AdapterSteps

/-! A block on an overlay and the same block on the state itself, in step. The overlay reads
like the state, except that its account records keep the code and storage of the base; this
holds as long as a record is written back with another balance or nonce only. The exchange
and the StackVM never do otherwise. -/
namespace L1Chain.Transition
open Exchange StackVM MptState Lockstep

section
variable {B d : MptState} {o : OverlayState MptState} {a : Address} {p q x y : Account}

structure Twins (p q x y : Account) : Prop where
  balance : x.balance = y.balance
  nonce : x.nonce = y.nonce
  left : x.code = p.code ∧ x.storage = p.storage
  right : y.code = q.code ∧ y.storage = q.storage

structure Staged (B : MptState) (o : OverlayState MptState) (d : MptState) : Prop where
  base : o.base = B
  twins : ∀ a, Twins (B.accounts a) (d.accounts a) (getAccount o a) (d.accounts a)
  code : ∀ a, getCode o a = (d.accounts a).code
  storage : ∀ a key, getStorage o a key = (d.accounts a).storage key

def OverlayState.scope (o : OverlayState MptState) : Scope MptState := ⟨o.base,[],⟨o.dirty,o.code,o.storage⟩⟩

theorem stagedNew (st : MptState) : Staged st (newOverlay st) st :=
  ⟨rfl,fun _ => ⟨rfl,rfl,⟨rfl,rfl⟩,⟨rfl,rfl⟩⟩,fun _ => rfl,fun _ _ => rfl⟩

theorem Staged.flush (staged : Staged B o d) : o.flush = d := by
  have clean : o.scope.Clean := by
    intro l member a acct found
    cases List.mem_singleton.mp member
    have read : getAccount o a = acct := by
      show (o.dirty.lookup a).getD _ = acct
      rw [show o.dirty.lookup a = some acct from found,Option.getD_some]
    rw [← read,show o.scope.base = B from staged.base]
    exact (staged.twins a).left
  have flushed : o.flush = o.scope.view := flushView rfl clean
  rw [flushed]
  ext1 a
  exact Account.ext (staged.twins a).balance (staged.twins a).nonce (staged.code a) (funext (staged.storage a))

theorem Staged.setAccount (staged : Staged B o d) (twins : Twins (B.accounts a) (d.accounts a) x y) :
    Staged B (setAccount o a x) (setAccount d a y) := by
  have read (b : Address) : getAccount (StateDB.setAccount o a x) b = if b = a then x else getAccount o b :=
    @accountSet _ _ o.scope a x b
  refine ⟨staged.base,fun b => ?_,fun b => ?_,fun b key => ?_⟩
  · rw [read,setAccountAt]
    split
    · rename_i own
      subst own
      exact ⟨twins.balance,twins.nonce,twins.left,⟨rfl,rfl⟩⟩
    · exact staged.twins b
  · exact (staged.code b).trans (putKeeps (·.code) twins.right.1).symm
  · exact (staged.storage b key).trans (congrFun (putKeeps (·.storage) twins.right.2).symm key)

theorem Staged.setCode (staged : Staged B o d) (a : Address) (code : Bytes) :
    Staged B (setCode o a code) (setCode d a code) := by
  have read (b : Address) : getCode (StateDB.setCode o a code) b = if b = a then code else getCode o b :=
    @codeSet _ _ o.scope a code b
  have frame (b : Address) : ((StateDB.setCode d a code).accounts b).balance = (d.accounts b).balance ∧
      ((StateDB.setCode d a code).accounts b).nonce = (d.accounts b).nonce ∧
      ((StateDB.setCode d a code).accounts b).storage = (d.accounts b).storage :=
    ⟨putKeeps (·.balance) rfl,putKeeps (·.nonce) rfl,putKeeps (·.storage) rfl⟩
  refine ⟨staged.base,fun b => ⟨?_,?_,(staged.twins b).left,⟨rfl,rfl⟩⟩,fun b => ?_,fun b key => ?_⟩
  · exact (staged.twins b).balance.trans (frame b).1.symm
  · exact (staged.twins b).nonce.trans (frame b).2.1.symm
  · rw [read,setCodeAt]
    split
    · rfl
    · exact staged.code b
  · rw [(frame b).2.2]
    exact staged.storage b key

theorem Staged.setStorage (staged : Staged B o d) (a : Address) (key val : Hash) :
    Staged B (setStorage o a key val) (setStorage d a key val) := by
  have read (b : Address) (k : Hash) : getStorage (StateDB.setStorage o a key val) b k =
      if b = a ∧ k = key then val else getStorage o b k := @storageSet _ _ o.scope a key val b k
  have frame (b : Address) : ((StateDB.setStorage d a key val).accounts b).balance = (d.accounts b).balance ∧
      ((StateDB.setStorage d a key val).accounts b).nonce = (d.accounts b).nonce ∧
      ((StateDB.setStorage d a key val).accounts b).code = (d.accounts b).code :=
    ⟨putKeeps (·.balance) rfl,putKeeps (·.nonce) rfl,putKeeps (·.code) rfl⟩
  refine ⟨staged.base,fun b => ⟨?_,?_,(staged.twins b).left,⟨rfl,rfl⟩⟩,fun b => ?_,fun b k => ?_⟩
  · exact (staged.twins b).balance.trans (frame b).1.symm
  · exact (staged.twins b).nonce.trans (frame b).2.1.symm
  · exact (staged.code b).trans (frame b).2.2.symm
  · have same := staged.storage b k
    rw [read,setStorageAt]
    by_cases own : b = a
    · subst own
      simp only [true_and,if_true]
      split
      · rfl
      · exact same
    · simp only [own,false_and,if_false]
      exact same

end

section
variable {E : Type} {eng : Engine E} {B d : MptState} {o : OverlayState MptState} {e : E} {mode : Mode}

theorem stagedResting (staged : Staged B o d) : restingOrders o = restingOrders d := by
  simp only [restingOrders,bookSize,orderAt,staged.storage,getStorageEq]

theorem stagedCredits (staged : Staged B o d) (e : E) (l : List Address) :
    creditAccounts eng o e l = creditAccounts eng d e l := by
  induction l generalizing e with
  | nil => rfl
  | cons addr rest ih =>
    have balance : (getAccount o addr).balance = (getAccount d addr).balance := (staged.twins addr).balance
    simp only [creditAccounts,staged.storage,getStorageEq,balance,ih]

theorem stagedLoad (staged : Staged B o d) (extra : List Address) : load eng o mode extra = load eng d mode extra := by
  simp only [load,loadedAccounts,stagedResting staged,stagedCredits staged]

theorem stagedOrders (staged : Staged B o d) (i : ℕ) (l : List Order) : Staged B (saveOrders o i l) (saveOrders d i l) := by
  induction l generalizing o d i with
  | nil => exact staged
  | cons first rest ih => exact ih ((staged.setStorage _ _ _).setStorage _ _ _) (i + 1)

theorem stagedClears (staged : Staged B o d) (l : List ℕ) : Staged B (clearSlots o l) (clearSlots d l) := by
  induction l generalizing o d with
  | nil => exact staged
  | cons i rest ih => exact ih ((staged.setStorage _ _ _).setStorage _ _ _)

theorem stagedBalances (staged : Staged B o d) (l : List (Sigma fun _ : Address => Balance)) :
    InStep (Staged B) (saveBalances o l) (saveBalances d l) := by
  induction l generalizing o d with
  | nil => exact .ok staged
  | cons first rest ih =>
    obtain ⟨addr,bal⟩ := first
    unfold saveBalances
    by_cases quote : bal.quote < 0
    · rw [if_pos quote,if_pos quote]
      exact .error _
    · rw [if_neg quote,if_neg quote]
      dsimp only
      by_cases parts : bal.base < 0 ∨ bal.lockedBase < 0 ∨ bal.lockedQuote < 0
      · rw [if_pos parts,if_pos parts]
        exact .error _
      · rw [if_neg parts,if_neg parts]
        have twins := staged.twins addr
        have paid : Twins (B.accounts addr) (d.accounts addr) {getAccount o addr with balance := bal.quote.toUInt64}
            {getAccount d addr with balance := bal.quote.toUInt64} := ⟨rfl,twins.nonce,twins.left,twins.right⟩
        exact ih ((staged.setAccount paid).setStorage _ _ _)

theorem stagedSave (staged : Staged B o d) (e : E) : InStep (Staged B) (save eng o e) (save eng d e) := by
  have size : bookSize o = bookSize d := by simp only [bookSize,staged.storage,getStorageEq]
  unfold save
  rw [size]
  exact stagedBalances ((stagedClears (stagedOrders staged 0 _) _).setStorage _ _ _) _

theorem stagedApply (staged : Staged B o d) (tx : Transaction) (height : UInt64) (index : UInt32) :
    InStep (Staged B) (Exchange.apply eng o tx height index) (Exchange.apply eng d tx height index) := by
  unfold Exchange.apply
  rw [stagedLoad staged]
  refine .both _ fun op => .both _ fun e => ?_
  dsimp only
  split
  · exact stagedSave staged _
  · exact .error _

theorem stagedFinish (staged : Staged B o d) (s : BatchSession E) (height : UInt64) :
    InStep (Staged B) (s.finish eng o height) (s.finish eng d height) := by
  unfold BatchSession.finish
  split
  · cases eng.clearBatch s.engine s.staged with
    | error text => exact .error _
    | ok r =>
      refine (stagedSave staged r.2).bind fun o d staged => .ok ?_
      split
      · exact (staged.setStorage _ _ _).setStorage _ _ _
      · exact staged
  · exact .ok staged

end
end L1Chain.Transition

namespace L1Chain.StackVM
open Transition Lockstep

section
variable {S T : Type} [StateDB S] [StateDB T] {sc sc' inner : Scope S} {sd sd' inner' : Scope T} {a b : Address}
  {ctx : Context} {f : Frame} {g : GasMeter} {fuel depth : ℕ}

structure Alike (sc : Scope S) (sd : Scope T) : Prop where
  twins : ∀ a, Twins (getAccount sc.base a) (getAccount sd.base a) (sc.getAccount a) (sd.getAccount a)
  code : ∀ a, sc.getCode a = sd.getCode a
  storage : ∀ a, sc.getStorage a = sd.getStorage a

structure Advance (sc : Scope S) (sd : Scope T) (sc' : Scope S) (sd' : Scope T) : Prop where
  left : sc'.base = sc.base ∧ sc'.parents = sc.parents
  right : sd'.base = sd.base ∧ sd'.parents = sd.parents
  alike : Alike sc' sd'

theorem Advance.trans {sc'' : Scope S} {sd'' : Scope T} (first : Advance sc sd sc' sd') (second : Advance sc' sd' sc'' sd'') :
    Advance sc sd sc'' sd'' :=
  ⟨⟨second.left.1.trans first.left.1,second.left.2.trans first.left.2⟩,
    ⟨second.right.1.trans first.right.1,second.right.2.trans first.right.2⟩,second.alike⟩

theorem Alike.stays (alike : Alike sc sd) : Advance sc sd sc sd := ⟨⟨rfl,rfl⟩,⟨rfl,rfl⟩,alike⟩

theorem Alike.child (alike : Alike sc sd) : Alike sc.child sd.child := by
  refine ⟨fun a => ?_,fun a => ?_,fun a => ?_⟩
  · rw [(childReads a).1,(childReads a).1]
    exact alike.twins a
  · rw [(childReads a).2.1,(childReads a).2.1]
    exact alike.code a
  · rw [(childReads a).2.2,(childReads a).2.2]
    exact alike.storage a

theorem Alike.setStorage (alike : Alike sc sd) (a : Address) (k v : Hash) :
    Advance sc sd (sc.setStorage a k v) (sd.setStorage a k v) := by
  refine ⟨⟨rfl,rfl⟩,⟨rfl,rfl⟩,alike.twins,alike.code,fun b => funext fun k' => ?_⟩
  rw [storageSet,storageSet,alike.storage]

theorem Alike.setCode (alike : Alike sc sd) (a : Address) (code : Bytes) :
    Advance sc sd (sc.setCode a code) (sd.setCode a code) := by
  refine ⟨⟨rfl,rfl⟩,⟨rfl,rfl⟩,alike.twins,fun b => ?_,alike.storage⟩
  rw [codeSet,codeSet,alike.code]

theorem Alike.setBalance (alike : Alike sc sd) (a : Address) (balance : UInt64) :
    Advance sc sd (sc.setAccount a {sc.getAccount a with balance := balance})
      (sd.setAccount a {sd.getAccount a with balance := balance}) := by
  refine ⟨⟨rfl,rfl⟩,⟨rfl,rfl⟩,fun b => ?_,alike.code,alike.storage⟩
  rw [accountSet,accountSet]
  split
  · rename_i own
    subst own
    exact ⟨rfl,(alike.twins b).nonce,(alike.twins b).left,(alike.twins b).right⟩
  · exact alike.twins b

theorem Advance.commit (advance : Advance sc.child sd.child inner inner') : Advance sc sd inner.commit inner'.commit := by
  have base {S : Type} [StateDB S] {sc inner : Scope S} (own : inner.base = sc.child.base)
      (below : inner.parents = sc.child.parents) : inner.commit.base = sc.base ∧ inner.commit.parents = sc.parents := by
    obtain ⟨_,_,top⟩ := inner
    subst own below
    exact ⟨rfl,rfl⟩
  have left := base advance.left.1 advance.left.2
  have right := base advance.right.1 advance.right.2
  have same : sc.child.base = sc.base ∧ sd.child.base = sd.base := ⟨rfl,rfl⟩
  refine ⟨left,right,fun a => ?_,fun a => ?_,fun a => ?_⟩
  · rw [(commitReads a).1,(commitReads a).1,left.1,right.1,← same.1,← same.2,← advance.left.1,← advance.right.1]
    exact advance.alike.twins a
  · rw [(commitReads a).2.1,(commitReads a).2.1]
    exact advance.alike.code a
  · rw [(commitReads a).2.2,(commitReads a).2.2]
    exact advance.alike.storage a

theorem transferAlike (alike : Alike sc sd) (a b : Address) (v : UInt64) :
    InStep (Advance sc sd) (sc.transfer a b v) (sd.transfer a b v) := by
  unfold Scope.transfer
  split
  · exact .ok alike.stays
  · dsimp only
    rw [(alike.twins a).balance]
    split
    · exact .error _
    · have debited := alike.setBalance a ((sd.getAccount a).balance - v)
      refine .ok (debited.trans ?_)
      rw [(debited.alike.twins b).balance]
      exact debited.alike.setBalance b _

inductive Stepped (sc : Scope S) (sd : Scope T) : Step S → Step T → Prop
  | halt (ret : Bytes) : Stepped sc sd (.halt ret) (.halt ret)
  | next (f : Frame) {sc' : Scope S} {sd' : Scope T} (advance : Advance sc sd sc' sd') :
      Stepped sc sd (.next f sc') (.next f sd')
  | call (args : CallArgs) (f : Frame) : Stepped sc sd (.call args f) (.call args f)

theorem binaryAlike (alike : Alike sc sd) (op : Int → Int → Int) :
    InStep (Stepped sc sd) (binary f sc op) (binary f sd op) :=
  .both _ fun _ => .both _ fun _ => .ok (.next _ alike.stays)

theorem execAlike (alike : Alike sc sd) (ctx : Context) (f : Frame) (op : Op) :
    InStep (Stepped sc sd) (exec ctx f sc op) (exec ctx f sd op) := by
  cases op with
  | stop => exact .ok (.halt [])
  | add | sub | mul | div | lt | gt | eq =>
    unfold exec
    exact binaryAlike alike _
  | iszero | calldataload => exact .both _ fun _ => .both _ fun _ => .ok (.next _ alike.stays)
  | callvalue | calldatasize | push n | swap1 | pop => exact .both _ fun _ => .ok (.next _ alike.stays)
  | mload => exact .both _ fun _ => .both _ fun _ => .both _ fun _ => .ok (.next _ alike.stays)
  | mstore => exact .both _ fun _ => .both _ fun _ => .both _ fun _ => .ok (.next _ alike.stays)
  | sload =>
    refine .both _ fun popped => ?_
    dsimp only
    rw [alike.storage]
    exact .both _ fun _ => .ok (.next _ alike.stays)
  | sstore => exact .both _ fun _ => .both _ fun _ => .ok (.next _ (alike.setStorage _ _ _))
  | jump => exact .both _ fun _ => .both _ fun _ => .ok (.next _ alike.stays)
  | jumpi =>
    refine .both _ fun _ => .both _ fun popped => ?_
    dsimp only
    split
    · exact .both _ fun _ => .ok (.next _ alike.stays)
    · exact .ok (.next _ alike.stays)
  | jumpdest => exact .ok (.next _ alike.stays)
  | dup1 =>
    unfold exec
    cases f.stack with
    | nil => exact .error _
    | cons v below => exact .both _ fun _ => .ok (.next _ alike.stays)
  | ret => exact .both _ fun _ => .both _ fun _ => .both _ fun _ => .ok (.halt _)
  | call => exact .both _ fun _ => .ok (.call _ _)

def Ends (sc : Scope S) (sd : Scope T) (r : RunResult S) (r' : RunResult T) : Prop :=
  r.1 = r'.1 ∧ InStep (fun x y => x.1 = y.1 ∧ Advance sc sd x.2 y.2) r.2 r'.2

theorem endsError (g : GasMeter) (e : VmErr) : Ends sc sd (g,.error e) (g,.error e) := ⟨rfl,.error e⟩

theorem Ends.after {r : RunResult S} {r' : RunResult T} (advance : Advance sc sd sc' sd') (ends : Ends sc' sd' r r') :
    Ends sc sd r r' := by
  obtain ⟨gas,result⟩ := ends
  refine ⟨gas,?_⟩
  cases h : r.2 with
  | error e =>
    rw [h] at result
    generalize r'.2 = right at result ⊢
    cases result
    exact .error e
  | ok x =>
    rw [h] at result
    generalize r'.2 = right at result ⊢
    cases result with
    | ok related => exact .ok ⟨related.1,advance.trans related.2⟩

theorem runAlike (alike : Alike sc sd) : Ends sc sd (run fuel g sc depth ctx f) (run fuel g sd depth ctx f) := by
  induction fuel generalizing g sc sd depth ctx f with
  | zero => exact endsError _ _
  | succ fuel ih =>
    unfold run
    cases read : ctx.code[f.pc]? with
    | none => exact ⟨rfl,.ok ⟨rfl,alike.stays⟩⟩
    | some byte =>
      dsimp only
      obtain ⟨g,paid⟩ := g.charge (gasCost (opcode byte))
      cases paid with
      | error e => exact endsError _ _
      | ok =>
        dsimp only
        cases opcode byte with
        | none => exact endsError _ _
        | some op =>
          dsimp only
          have step := execAlike alike ctx f op
          generalize exec ctx f sc op = left at step ⊢
          generalize exec ctx f sd op = right at step ⊢
          cases step with
          | error e => exact endsError _ _
          | ok stepped =>
            cases stepped with
            | halt ret => exact ⟨rfl,.ok ⟨rfl,alike.stays⟩⟩
            | next f advance => exact .after advance (ih advance.alike)
            | call args f =>
              dsimp only
              split
              · cases pushZero f with
                | error e => exact endsError _ _
                | ok f => exact ih alike
              · cases memRange f.mem args.argsOff args.argsSize with
                | error e => exact endsError _ _
                | ok range =>
                  obtain ⟨i,n,mem⟩ := range
                  dsimp only
                  have paid := transferAlike alike.child ctx.self args.to' args.value
                  generalize sc.child.transfer ctx.self args.to' args.value = left at paid ⊢
                  generalize sd.child.transfer ctx.self args.to' args.value = right at paid ⊢
                  cases paid with
                  | error e =>
                    dsimp only
                    cases pushZero ⟨f.pc,f.stack,mem⟩ with
                    | error e => exact endsError _ _
                    | ok f => exact ih alike
                  | @ok inner inner' entered =>
                    dsimp only
                    rw [entered.alike.code]
                    have ran := @ih inner inner' ⟨inner'.getCode args.to',args.to',args.value,(mem.drop i).take n⟩ ⟨0,[],[]⟩
                      g (depth + 1) entered.alike
                    generalize run fuel g inner (depth + 1) _ _ = r at ran ⊢
                    generalize run fuel g inner' (depth + 1) _ _ = r' at ran ⊢
                    obtain ⟨g,result⟩ := r
                    obtain ⟨g',result'⟩ := r'
                    obtain ⟨same,ended⟩ := ran
                    cases same
                    cases ended with
                    | error e =>
                      cases e with
                      | outOfGas | outOfFuel => exact endsError _ _
                      | _ =>
                        dsimp only
                        cases pushZero ⟨f.pc,f.stack,mem⟩ with
                        | error e => exact endsError _ _
                        | ok f => exact ih alike
                    | @ok x y returned =>
                      obtain ⟨ret,last⟩ := x
                      obtain ⟨ret',last'⟩ := y
                      obtain ⟨sameRet,left⟩ := returned
                      cases sameRet
                      dsimp only
                      have back : Advance sc sd last.commit last'.commit := (entered.trans left).commit
                      cases callReturn args ⟨f.pc,f.stack,mem⟩ ret with
                      | error e => exact endsError _ _
                      | ok f => exact .after back (ih back.alike)

end
end L1Chain.StackVM

namespace L1Chain.Transition
open StackVM MptState Lockstep

section
variable {B d : MptState} {o : OverlayState MptState} {sc : Scope (OverlayState MptState)} {sd : Scope MptState}

theorem lookupInserted {α β : Type} [DecidableEq α] {entries : List (Sigma fun _ : α => β)} (once : entries.NodupKeys)
    (m : AList (fun _ : α => β)) (k : α) :
    (entries.foldl (fun m e => m.insert e.1 e.2) m).lookup k = (entries.dlookup k).or (m.lookup k) := by
  induction entries generalizing m with
  | nil => rfl
  | cons e entries ih =>
    obtain ⟨key,val⟩ := e
    obtain ⟨fresh,once⟩ := List.nodupKeys_cons.mp once
    rw [List.foldl_cons,ih once]
    by_cases same : k = key
    · subst same
      simp [List.dlookup_eq_none.mpr fresh]
    · rw [AList.lookup_insert_ne same,List.dlookup_cons_ne _ _ same]

theorem flushOverlay (sc : Scope (OverlayState MptState)) : sc.flush = ⟨sc.base.base,
    sc.top.acct.entries.foldl (fun m e => m.insert e.1 e.2) sc.base.dirty,
    sc.top.code.entries.foldl (fun m e => m.insert e.1 e.2) sc.base.code,
    sc.top.storage.entries.foldl (fun m e => m.insert e.1 e.2) sc.base.storage⟩ := by
  have accounts (entries : List (Sigma fun _ : Address => Account)) (o : OverlayState MptState) :
      entries.foldl (fun st e => setAccount st e.1 e.2) o =
        {o with dirty := entries.foldl (fun m e => m.insert e.1 e.2) o.dirty} := by
    induction entries generalizing o with
    | nil => rfl
    | cons e entries ih => exact ih _
  have codes (entries : List (Sigma fun _ : Address => Bytes)) (o : OverlayState MptState) :
      entries.foldl (fun st e => setCode st e.1 e.2) o =
        {o with code := entries.foldl (fun m e => m.insert e.1 e.2) o.code} := by
    induction entries generalizing o with
    | nil => rfl
    | cons e entries ih => exact ih _
  have words (entries : List (Sigma fun _ : Address × Hash => Hash)) (o : OverlayState MptState) :
      entries.foldl (fun st e => setStorage st e.1.1 e.1.2 e.2) o =
        {o with storage := entries.foldl (fun m e => m.insert e.1 e.2) o.storage} := by
    induction entries generalizing o with
    | nil => rfl
    | cons e entries ih => exact ih _
  rw [Scope.flush,accounts,codes,words]

theorem flushReads (root : sc.parents = []) (a : Address) : getAccount sc.flush a = sc.getAccount a ∧
    getCode sc.flush a = sc.getCode a ∧ ∀ key, getStorage sc.flush a key = sc.getStorage a key := by
  obtain ⟨base,parents,top⟩ := sc
  subst root
  rw [flushOverlay]
  refine ⟨?_,?_,fun key => ?_⟩
  · show ((top.acct.entries.foldl (fun m e => m.insert e.1 e.2) base.dirty).lookup a).getD (getAccount base.base a) = _
    rw [lookupInserted top.acct.nodupKeys,Option.getD_or]
    rfl
  · show ((top.code.entries.foldl (fun m e => m.insert e.1 e.2) base.code).lookup a).getD (getCode base.base a) = _
    rw [lookupInserted top.code.nodupKeys,Option.getD_or]
    rfl
  · show ((top.storage.entries.foldl (fun m e => m.insert e.1 e.2) base.storage).lookup (a,key)).getD
      (getStorage base.base a key) = _
    rw [lookupInserted top.storage.nodupKeys,Option.getD_or]
    rfl

theorem stagedScope (staged : Staged B o d) : Alike (Scope.new o) (Scope.new d) := by
  refine ⟨fun a => ?_,fun a => ?_,fun a => funext fun key => ?_⟩
  · exact ⟨(staged.twins a).balance,(staged.twins a).nonce,⟨rfl,rfl⟩,⟨rfl,rfl⟩⟩
  · exact staged.code a
  · exact staged.storage a key

theorem stagedFlush (staged : Staged B o d) (advance : Advance (Scope.new o) (Scope.new d) sc sd) :
    Staged B sc.flush sd.flush := by
  have base : sc.base = o ∧ sd.base = d := ⟨advance.left.1,advance.right.1⟩
  have clean : sd.Clean := by
    intro l member a acct found
    rw [advance.right.2] at member
    cases List.mem_singleton.mp member
    have read : sd.getAccount a = acct := by
      rw [Scope.getAccount,readAccount,found,Option.getD_some]
    rw [← read]
    exact (advance.alike.twins a).right
  rw [flushView advance.right.2 clean]
  refine ⟨?_,fun a => ?_,fun a => ?_,fun a key => ?_⟩
  · rw [flushOverlay,base.1]
    exact staged.base
  · have twins := advance.alike.twins a
    rw [base.1] at twins
    rw [(flushReads advance.left.2 a).1]
    exact ⟨twins.balance,twins.nonce,⟨twins.left.1.trans (staged.twins a).left.1,twins.left.2.trans (staged.twins a).left.2⟩,
      ⟨rfl,rfl⟩⟩
  · rw [(flushReads advance.left.2 a).2.1]
    exact advance.alike.code a
  · rw [(flushReads advance.left.2 a).2.2]
    exact congrFun (advance.alike.storage a) key

theorem stagedCreate (staged : Staged B o d) (sha : Bytes → Hash) (g : GasMeter) (msg : Message) :
    (create sha g o msg).1 = (create sha g d msg).1 ∧ Staged B (create sha g o msg).2 (create sha g d msg).2 := by
  unfold create
  generalize g.charge gasCreate = charged
  obtain ⟨g,paid⟩ := charged
  cases paid with
  | error e => exact ⟨rfl,staged⟩
  | ok =>
    dsimp only
    have moved := transferAlike (stagedScope staged) msg.sender (createAddress sha msg.sender msg.nonce) msg.value
    generalize (Scope.new o).transfer msg.sender _ msg.value = left at moved ⊢
    generalize (Scope.new d).transfer msg.sender _ msg.value = right at moved ⊢
    cases moved with
    | error e => exact ⟨rfl,staged⟩
    | ok advance => exact ⟨rfl,stagedFlush staged (advance.trans (advance.alike.setCode _ _))⟩

theorem stagedExecute (staged : Staged B o d) (sha : Bytes → Hash) (msg : Message) :
    (execute sha o msg).1 = (execute sha d msg).1 ∧ Staged B (execute sha o msg).2 (execute sha d msg).2 := by
  unfold execute
  cases msg.to' with
  | none => exact stagedCreate staged sha _ msg
  | some self =>
    dsimp only
    have moved := transferAlike (stagedScope staged) msg.sender self msg.value
    generalize (Scope.new o).transfer msg.sender self msg.value = left at moved ⊢
    generalize (Scope.new d).transfer msg.sender self msg.value = right at moved ⊢
    cases moved with
    | error e => exact ⟨rfl,staged⟩
    | @ok root root' advance =>
      dsimp only
      rw [advance.alike.code]
      have ran := @runAlike _ _ _ _ root root' ⟨root'.getCode self,self,msg.value,msg.data⟩ ⟨0,[],[]⟩ ⟨msg.gasLimit,0⟩
        (fuelFor msg.gasLimit) 0 advance.alike
      generalize run (fuelFor msg.gasLimit) ⟨msg.gasLimit,0⟩ root 0 _ _ = r at ran ⊢
      generalize run (fuelFor msg.gasLimit) ⟨msg.gasLimit,0⟩ root' 0 _ _ = r' at ran ⊢
      obtain ⟨g,result⟩ := r
      obtain ⟨g',result'⟩ := r'
      obtain ⟨same,ended⟩ := ran
      cases same
      cases ended with
      | error e => exact ⟨rfl,staged⟩
      | @ok x y returned =>
        obtain ⟨ret,last⟩ := x
        obtain ⟨ret',last'⟩ := y
        obtain ⟨sameRet,left⟩ := returned
        cases sameRet
        exact ⟨rfl,stagedFlush staged (advance.trans left)⟩

end
end L1Chain.Transition
