import L1Chain.StackVMTurns

/-! The writes of a message, frame by frame. `left` is what a frame leaves in the
scopes it can reach, whether or not it succeeds; `kept` lists the writes of the frames
that succeeded with all their callers. A frame that fails leaves its caller's scope as
it found it, and the state after a message is the one before with the kept writes. -/
namespace L1Chain.StackVM
open Calls MptState

inductive Write where
  | account (a : Address) (acct : Account)
  | code (a : Address) (code : Bytes)
  | storage (a : Address) (k v : Hash)

def Scope.write (sc : Scope MptState) : Write → Scope MptState
  | .account a acct => sc.setAccount a acct
  | .code a bytes => sc.setCode a bytes
  | .storage a k v => sc.setStorage a k v

def Write.apply (st : MptState) : Write → MptState
  | .account a acct => setAccount st a {st.accounts a with balance := acct.balance, nonce := acct.nonce}
  | .code a bytes => setCode st a bytes
  | .storage a k v => setStorage st a k v

abbrev Scope.writes (sc : Scope MptState) (ws : List Write) : Scope MptState := ws.foldl Scope.write sc
abbrev applied (st : MptState) (ws : List Write) : MptState := ws.foldl Write.apply st

def Scope.transferWrites (sc : Scope MptState) (sender to' : Address) (value : UInt64) : List Write :=
  if value = 0 ∨ sender = to' then []
  else
    let f := sc.getAccount sender
    if f.balance < value then []
    else
      let debited : Account := {f with balance := f.balance - value}
      let t := (sc.setAccount sender debited).getAccount to'
      [.account sender debited,.account to' {t with balance := t.balance + value}]

def Scope.below (sc : Scope MptState) : Scope MptState :=
  match sc.parents with
  | [] => sc
  | p::ps => ⟨sc.base,ps,p⟩

abbrev VmConfig := Config MptState
abbrev VmTree := CallTree (Config MptState) (RunResult MptState)

def Config.stores (c : VmConfig) : List Write :=
  match c.ctx.code[c.frame.pc]?.bind opcode,c.frame.stack with
  | some .sstore,key::val::_ => [.storage c.ctx.self (bigToHash key) (bigToHash val)]
  | _,_ => []

def Config.pays (c callee : VmConfig) : List Write :=
  c.scope.child.transferWrites c.ctx.self callee.ctx.self callee.ctx.callValue

def succeeded (r : RunResult MptState) : Bool :=
  match r.2 with
  | .ok _ => true
  | .error _ => false

/- The scopes a frame leaves: each write goes where it is made, a callee that
succeeded is committed before its caller goes on, and one that failed is dropped. -/
def left : VmTree → Scope MptState → Scope MptState
  | .ends _, sc => sc
  | .goes c rest, sc => left rest (sc.writes c.stores)
  | .calls c callee inside rest, sc =>
    let inner := left inside (sc.child.writes (c.pays callee))
    left rest (if succeeded inside.result then inner.commit else inner.below)

def kept : VmTree → List Write
  | .ends _ => []
  | .goes c rest => c.stores ++ kept rest
  | .calls c callee inside rest =>
    (if succeeded inside.result then c.pays callee ++ kept inside else []) ++ kept rest

abbrev Config.tree (c : VmConfig) : VmTree := (interpreter MptState).tree c
abbrev Config.left (c : VmConfig) : Scope MptState := StackVM.left c.tree c.scope

section
variable {sc sc' : Scope MptState} {c c' callee : VmConfig} {p : Pending MptState} {r r' : RunResult MptState} {st : MptState}

theorem writeBelow (w : Write) : (sc.write w).base = sc.base ∧ (sc.write w).parents = sc.parents := by
  cases w <;> exact ⟨rfl,rfl⟩

theorem writesBelow (ws : List Write) : (sc.writes ws).base = sc.base ∧ (sc.writes ws).parents = sc.parents := by
  induction ws generalizing sc with
  | nil => exact ⟨rfl,rfl⟩
  | cons w ws ih => exact ⟨ih.1.trans (writeBelow w).1,ih.2.trans (writeBelow w).2⟩

theorem viewWrite (w : Write) : (sc.write w).view = Write.apply sc.view w := by
  cases w with
  | account a acct =>
    ext1 x
    simp only [Scope.write,Write.apply,setAccountAt,Scope.view,accountSet]
    split
    · rename_i same
      subst same
      rfl
    · rfl
  | code a bytes => exact viewCode bytes
  | storage a k v => exact viewStorage k v

theorem viewWrites (ws : List Write) : (sc.writes ws).view = applied sc.view ws := by
  induction ws generalizing sc with
  | nil => rfl
  | cons w ws ih =>
    rw [Scope.writes,List.foldl_cons,applied,List.foldl_cons,← viewWrite]
    exact ih

theorem appliedAppend (ws ws' : List Write) : applied st (ws ++ ws') = applied (applied st ws) ws' := List.foldl_append

theorem transferWritten {a b : Address} {v : UInt64} (ok : sc.transfer a b v = .ok sc') :
    sc' = sc.writes (sc.transferWrites a b v) := by
  unfold Scope.transfer at ok
  unfold Scope.transferWrites
  split at ok
  · rename_i idle
    rw [if_pos idle]
    exact (Except.ok.inj ok).symm
  · rename_i moves
    rw [if_neg moves]
    dsimp only at ok ⊢
    split at ok
    · cases ok
    · rename_i enough
      rw [if_neg enough]
      exact (Except.ok.inj ok).symm

theorem belowChild (base : sc'.base = sc.base) (parents : sc'.parents = sc.child.parents) : sc'.below = sc := by
  unfold Scope.below
  rw [parents]
  simp only [Scope.child,base]

theorem storesNone {op : Op} {g : GasMeter} (fetches : c.Fetches op g) (other : op ≠ .sstore) : c.stores = [] := by
  unfold Config.stores
  rw [fetchedOp fetches]
  split
  · rename_i same _
    exact absurd (Option.some.inj same) other
  · rfl

theorem goesStores (turn : c.turn = .on (.goes c')) : c'.scope = c.scope.writes c.stores := by
  rcases goesCases turn with ⟨op,g,f,sc,fetches,done,rfl⟩ | ⟨g,args,st,mem,f,fetches,_,_,_,rfl⟩
  · rcases execNext done with ⟨other,rfl⟩ | ⟨key,val,rest,rfl,stack,rfl⟩
    · rw [storesNone fetches other]
      rfl
    · rw [Config.stores,fetchedOp fetches,stack]
      rfl
  · rw [storesNone fetches (by simp)]
    rfl

theorem callsScope (turn : c.turn = .calls callee p) :
    callee.scope = c.scope.child.writes (c.pays callee) ∧ p.caller.scope = c.scope := by
  obtain ⟨g,args,st,i,n,mem,inner,_,_,_,_,moved,rfl,rfl⟩ := callsCases turn
  exact ⟨transferWritten moved,rfl⟩

theorem endsScope {ret : Bytes} {g : GasMeter} (turn : c.turn = .on (.ends (g,.ok (ret,sc)))) : sc = c.scope := by
  have made := turned c
  generalize c.turn = t at made turn
  cases made with
  | stops | halts =>
    cases turn
    rfl
  | starves | invalid | fails | overruns | next | calls => cases turn
  | refuses =>
    obtain ⟨e,_,same⟩ := goesOnEnds (Turn.on.inj turn)
    cases same

theorem resumeFails (back : p.resume r = .ends r') : ∃ e, r'.2 = .error e := by
  have made := resumed p r
  generalize p.resume r = o at made back
  cases made with
  | aborts =>
    cases back
    exact ⟨_,rfl⟩
  | recovers | returns =>
    obtain ⟨e,_,rfl⟩ := goesOnEnds back
    exact ⟨e,rfl⟩

theorem treeSucceeded : succeeded c.tree.result = succeeded c.outcome := congrArg succeeded Ranked.treeResult

theorem backScope (turn : c.turn = .calls callee p) (back : p.resume callee.outcome = .goes c') :
    (∃ g ret inner, callee.outcome = (g,.ok (ret,inner)) ∧ c'.scope = inner.commit) ∨
    (∃ g e, callee.outcome = (g,.error e) ∧ c'.scope = c.scope) := by
  rcases backCases back with ⟨g,e,f,result,_,rfl⟩ | ⟨g,ret,inner,f,result,_,rfl⟩
  · exact .inr ⟨g,e,result,(callsScope turn).2⟩
  · exact .inl ⟨g,ret,inner,result,rfl⟩

def Scope.returned (r : RunResult MptState) (inner : Scope MptState) : Scope MptState :=
  if succeeded r then inner.commit else inner.below

theorem returnedBelow (base : sc'.base = sc.base) (parents : sc'.parents = sc.child.parents) :
    (Scope.returned r sc').base = sc.base ∧ (Scope.returned r sc').parents = sc.parents := by
  unfold Scope.returned
  split
  · unfold Scope.commit
    rw [parents]
    exact ⟨base,rfl⟩
  · rw [belowChild base parents]
    exact ⟨rfl,rfl⟩

theorem leftCalls {rest : VmTree} (turn : c.turn = .calls callee p) :
    left (.calls c callee callee.tree rest) c.scope = left rest (Scope.returned callee.outcome callee.left) := by
  rw [left,treeSucceeded,← (callsScope turn).1]
  rfl

theorem enteredBelow (turn : c.turn = .calls callee p) :
    callee.scope.base = c.scope.base ∧ callee.scope.parents = c.scope.child.parents := by
  rw [(callsScope turn).1]
  exact writesBelow (c.pays callee)

theorem leftBelow (c : VmConfig) : c.left.base = c.scope.base ∧ c.left.parents = c.scope.parents ∧
    ∀ ret sc, c.outcome.2 = .ok (ret,sc) → c.left = sc := by
  induction c using (interpreter MptState).induct with
  | ends c r turn =>
    rw [Config.left,Config.tree,Ranked.treeEnds turn,Config.outcome,Ranked.outcomeEnds turn]
    refine ⟨rfl,rfl,fun ret sc ok => ?_⟩
    obtain ⟨g,r⟩ := r
    obtain rfl : r = .ok (ret,sc) := ok
    exact (endsScope turn).symm
  | goes c c' turn ih =>
    rw [Config.left,Config.tree,Ranked.treeGoes turn,Config.outcome,Ranked.outcomeGoes turn]
    rw [Config.left,goesStores turn] at ih
    exact ⟨ih.1.trans (writesBelow _).1,ih.2.1.trans (writesBelow _).2,ih.2.2⟩
  | closes c callee p r turn back ih =>
    obtain ⟨e,failed⟩ := resumeFails back
    have entered := enteredBelow turn
    have returned := @returnedBelow c.scope callee.left callee.outcome (ih.1.trans entered.1) (ih.2.1.trans entered.2)
    have outcome : c.outcome = r := by
      rw [Config.outcome,Ranked.outcomeCalls turn,back]
      rfl
    rw [Config.left,Config.tree,Ranked.treeCloses turn back,leftCalls turn,outcome]
    exact ⟨returned.1,returned.2,fun ret sc ok => by cases failed.symm.trans ok⟩
  | back c callee p c' turn back called ih =>
    have entered := enteredBelow turn
    have base := called.1.trans entered.1
    have parents := called.2.1.trans entered.2
    have returned := @returnedBelow c.scope callee.left callee.outcome base parents
    have same : Scope.returned callee.outcome callee.left = c'.scope := by
      rcases backScope turn back with ⟨g,ret,inner,result,scope⟩ | ⟨g,e,result,scope⟩
      · rw [scope,Scope.returned,result,called.2.2 ret inner (congrArg Prod.snd result)]
        rfl
      · rw [scope,Scope.returned,result]
        exact belowChild base parents
    have outcome : c.outcome = c'.outcome := by
      rw [Config.outcome,Ranked.outcomeCalls turn,back]
      rfl
    rw [Config.left,Config.tree,Ranked.treeBack turn back,leftCalls turn,outcome,same]
    exact ⟨ih.1.trans (same ▸ returned.1),ih.2.1.trans (same ▸ returned.2),ih.2.2⟩

theorem leftEntered (turn : c.turn = .calls callee p) :
    callee.left.base = c.scope.base ∧ callee.left.parents = c.scope.child.parents := by
  have entered := enteredBelow turn
  have below := leftBelow callee
  exact ⟨below.1.trans entered.1,below.2.1.trans entered.2⟩

theorem outcomeKept (c : VmConfig) : ∀ ret sc, c.outcome.2 = .ok (ret,sc) → sc.view = applied c.scope.view (kept c.tree) := by
  induction c using (interpreter MptState).induct with
  | ends c r turn =>
    intro ret sc ok
    rw [Config.outcome,Ranked.outcomeEnds turn] at ok
    obtain ⟨g,r⟩ := r
    obtain rfl : r = .ok (ret,sc) := ok
    rw [Config.tree,Ranked.treeEnds turn,endsScope turn]
    rfl
  | goes c c' turn ih =>
    intro ret sc ok
    rw [Config.outcome,Ranked.outcomeGoes turn] at ok
    rw [Config.tree,Ranked.treeGoes turn,kept,appliedAppend,ih ret sc ok,goesStores turn,viewWrites]
  | closes c callee p r turn back _ =>
    intro ret sc ok
    obtain ⟨e,failed⟩ := resumeFails back
    rw [Config.outcome,Ranked.outcomeCalls turn,back] at ok
    cases failed.symm.trans ok
  | back c callee p c' turn back called ih =>
    intro ret sc ok
    rw [Config.outcome,Ranked.outcomeCalls turn,back] at ok
    rw [Config.tree,Ranked.treeBack turn back,kept,appliedAppend,ih ret sc ok,treeSucceeded]
    rcases backScope turn back with ⟨g,ret',inner,result,scope⟩ | ⟨g,e,result,scope⟩
    · have view := called ret' inner (congrArg Prod.snd result)
      rw [(callsScope turn).1,viewWrites,viewChild] at view
      rw [scope,viewCommit,view,result,succeeded,if_pos rfl,appliedAppend]
    · rw [scope,result,succeeded,if_neg (by simp)]
      rfl

theorem baseContract (st : MptState) : (interpreter MptState).Contract (fun c => c.scope.base = st)
    (fun _ r => ∀ ret sc, r.2 = .ok (ret,sc) → sc.base = st) where
  ends := fun {c r} inv turn ret sc ok => by
    obtain ⟨g,r⟩ := r
    obtain rfl : r = .ok (ret,sc) := ok
    exact (congrArg Scope.base (endsScope turn)).trans inv
  goes := fun {c c'} inv turn => by
    refine ⟨?_,fun _ post => post⟩
    rw [goesStores turn]
    exact (writesBelow _).1.trans inv
  calls := fun {c callee p} inv turn => (enteredBelow turn).1.trans inv
  closes := fun {c callee p r r'} _ _ _ back ret sc ok => by
    obtain ⟨e,failed⟩ := resumeFails back
    exact nomatch failed.symm.trans ok
  back := fun {c callee p r c'} inv turn post back => by
    refine ⟨?_,fun _ post => post⟩
    rcases backCases back with ⟨g,e,f,rfl,_,rfl⟩ | ⟨g,ret,inner,f,rfl,_,rfl⟩
    · exact (congrArg Scope.base (callsScope turn).2).trans inv
    · have kept := post ret inner rfl
      show inner.commit.base = st
      rw [← kept]
      unfold Scope.commit
      split <;> rfl

theorem outcomeKeeps {ret : Bytes} (own : c.ctx.code = c.scope.getCode c.ctx.self) (ok : c.outcome.2 = .ok (ret,sc)) :
    Keeps c.scope sc := by
  have ran := runRan (c.gas.remaining + 1) c.gas c.scope c.depth c.ctx c.frame
  have same : StackVM.run (c.gas.remaining + 1) c.gas c.scope c.depth c.ctx c.frame = c.outcome :=
    runOutcome (Nat.lt_succ_self _)
  rw [same] at ran
  exact (ran.effects own ok).1

theorem entryScope {msg : Message} (entered : entry st msg = some c) : ∃ self, msg.to' = some self ∧
    (Scope.new st).transfer msg.sender self msg.value = .ok c.scope ∧ c.ctx.self = self ∧
    c.ctx.code = c.scope.getCode c.ctx.self := by
  unfold entry at entered
  split at entered
  · cases entered
  · rename_i self calls
    split at entered
    · cases entered
    · rename_i root moved
      cases entered
      exact ⟨self,calls,moved,rfl,rfl⟩

def messageWrites (sha : Bytes → Hash) (st : MptState) (msg : Message) : List Write :=
  match msg.to' with
  | none =>
    let addr := createAddress sha msg.sender msg.nonce
    (Scope.new st).transferWrites msg.sender addr msg.value ++ [.code addr msg.data]
  | some self =>
    (Scope.new st).transferWrites msg.sender self msg.value ++
      match entry st msg with
      | none => []
      | some root => kept root.tree

theorem createKept (sha : Bytes → Hash) (st : MptState) (msg : Message) (creates : msg.to' = none) :
    ((create sha ⟨msg.gasLimit,0⟩ st msg).1.success = false → (create sha ⟨msg.gasLimit,0⟩ st msg).2 = st) ∧
    ((create sha ⟨msg.gasLimit,0⟩ st msg).1.success = true →
      (create sha ⟨msg.gasLimit,0⟩ st msg).2 = applied st (messageWrites sha st msg)) := by
  unfold create messageWrites
  rw [creates]
  cases (⟨msg.gasLimit,0⟩ : GasMeter).charge gasCreate with
  | mk g paid =>
    cases paid with
    | error e => exact ⟨fun _ => rfl,by simp [failed]⟩
    | ok =>
      dsimp only
      cases moved : (Scope.new st).transfer msg.sender (createAddress sha msg.sender msg.nonce) msg.value with
      | error e => exact ⟨fun _ => rfl,by simp [failed]⟩
      | ok root =>
        refine ⟨by simp,fun _ => ?_⟩
        have whole := (transferOk moved).1.trans (codeKeeps (a := createAddress sha msg.sender msg.nonce) msg.data)
        dsimp only
        rw [flushView whole.parents (whole.clean newClean),viewCode,transferWritten moved,viewWrites,newView,
          appliedAppend]
        rfl

theorem settleKept (sha : Bytes → Hash) {msg : Message} (entered : entry st msg = some c) :
    ((c.settle st).1.success = false → (c.settle st).2 = st) ∧
    ((c.settle st).1.success = true → (c.settle st).2 = applied st (messageWrites sha st msg)) := by
  obtain ⟨self,calls,moved,_,own⟩ := entryScope entered
  have view := outcomeKept c
  have keeps : ∀ {ret sc}, c.outcome.2 = .ok (ret,sc) → Keeps c.scope sc := outcomeKeeps own
  unfold Config.settle messageWrites
  rw [calls,entered]
  cases result : c.outcome with
  | mk g r =>
    rw [result] at view keeps
    cases r with
    | error e => exact ⟨fun _ => rfl,by simp [failed]⟩
    | ok done =>
      obtain ⟨ret,sc⟩ := done
      refine ⟨by simp,fun _ => ?_⟩
      have whole := (transferOk moved).1.trans (keeps rfl)
      dsimp only
      rw [flushView whole.parents (whole.clean newClean),view ret sc rfl,transferWritten moved,viewWrites,newView,appliedAppend]

theorem executeKept (sha : Bytes → Hash) (st : MptState) (msg : Message) :
    ((execute sha st msg).1.success = false → (execute sha st msg).2 = st) ∧
    ((execute sha st msg).1.success = true → (execute sha st msg).2 = applied st (messageWrites sha st msg)) := by
  cases entered : entry st msg with
  | some root =>
    rw [executeEntered sha entered]
    exact settleKept sha entered
  | none =>
    rcases executeOther sha entered with ⟨creates,target⟩ | poor
    · rw [creates]
      exact createKept sha st msg target
    · rw [poor]
      exact ⟨fun _ => rfl,by simp [failed]⟩

/- A frame that fails leaves its caller's scope, and the backing state, as they were,
and its caller goes on with that scope. A message that fails leaves the state as it
was; one that succeeds leaves it with the writes of the frames that succeeded together
with all their callers, in the order they were made. -/
theorem framesAtomic (sha : Bytes → Hash) (st : MptState) (msg : Message) :
    (∀ (c callee : Config MptState) (p : Pending MptState) (e : VmErr), Visits st msg c →
      c.turn = .calls callee p → callee.outcome.2 = .error e →
      callee.left.below = c.scope ∧ callee.left.base = st ∧
      ∀ c', p.resume callee.outcome = .goes c' → c'.scope = c.scope) ∧
    ((execute sha st msg).1.success = false → (execute sha st msg).2 = st) ∧
    ((execute sha st msg).1.success = true → (execute sha st msg).2 = applied st (messageWrites sha st msg)) := by
  refine ⟨?_,executeKept sha st msg⟩
  intro c callee p e ⟨root,entered,reached⟩ turn failed
  have start : root.scope.base = st := by
    obtain ⟨self,_,moved,_⟩ := entryScope entered
    exact (transferOk moved).1.base
  have base := (baseContract st).reached start reached
  obtain ⟨sameBase,parents⟩ := leftEntered turn
  refine ⟨belowChild sameBase parents,sameBase.trans base,fun c' back => ?_⟩
  rcases backScope turn back with ⟨g,ret,inner,result,_⟩ | ⟨g,e,_,scope⟩
  · rw [result] at failed
    cases failed
  · exact scope

/- The instruction at `c` is an SSTORE of the frame's own address to this slot, paid
for and with its operands on the stack. -/
def Config.Stores (c : VmConfig) (x : Address) (k : Hash) : Prop :=
  c.ctx.self = x ∧ ∃ g key val rest, c.Fetches .sstore g ∧ c.frame.stack = key::val::rest ∧ bigToHash key = k

theorem storesMember {x : Address} {k v : Hash} (turn : c.turn = .on (.goes c')) (member : .storage x k v ∈ c.stores) :
    c.Stores x k := by
  rcases goesCases turn with ⟨op,g,f,sc,fetches,done,rfl⟩ | ⟨g,args,st,mem,f,fetches,_,_,_,rfl⟩
  · rcases execNext done with ⟨other,_⟩ | ⟨key,val,rest,rfl,stack,_⟩
    · rw [storesNone fetches other] at member
      cases member
    · rw [Config.stores,fetchedOp fetches,stack] at member
      cases List.mem_singleton.mp member
      exact ⟨rfl,g,key,val,rest,fetches,stack,rfl⟩
  · rw [storesNone fetches (by simp)] at member
    cases member

theorem transferStoresNone {a b x : Address} {v : UInt64} {k w : Hash} : .storage x k w ∉ sc.transferWrites a b v := by
  unfold Scope.transferWrites
  split
  · exact List.not_mem_nil
  · dsimp only
    split
    · exact List.not_mem_nil
    · simp

/- A kept write is made by an instruction of a frame: an SSTORE, or a CALL that pays. -/
def Config.Makes (c : VmConfig) (w : Write) : Prop :=
  (∃ c', c.turn = .on (.goes c') ∧ w ∈ c.stores) ∨ ∃ callee p, c.turn = .calls callee p ∧ w ∈ c.pays callee

theorem keptMade {w : Write} (c : VmConfig) (member : w ∈ kept c.tree) :
    ∃ d, (interpreter MptState).Reaches c d ∧ d.Makes w := by
  induction c using (interpreter MptState).induct with
  | ends c r turn =>
    rw [Config.tree,Ranked.treeEnds turn] at member
    cases member
  | goes c c' turn ih =>
    rw [Config.tree,Ranked.treeGoes turn,kept,List.mem_append] at member
    rcases member with here | later
    · exact ⟨c,.here c,.inl ⟨c',turn,here⟩⟩
    · obtain ⟨d,reached,makes⟩ := ih later
      exact ⟨d,.goes turn reached,makes⟩
  | closes c callee p r turn back ih =>
    rw [Config.tree,Ranked.treeCloses turn back,kept,List.mem_append] at member
    rcases member with inside | later
    · split at inside
      · rcases List.mem_append.mp inside with paid | inside
        · exact ⟨c,.here c,.inr ⟨callee,p,turn,paid⟩⟩
        · obtain ⟨d,reached,makes⟩ := ih inside
          exact ⟨d,.enters turn reached,makes⟩
      · cases inside
    · cases later
  | back c callee p c' turn back called ih =>
    rw [Config.tree,Ranked.treeBack turn back,kept,List.mem_append] at member
    rcases member with inside | later
    · split at inside
      · rcases List.mem_append.mp inside with paid | inside
        · exact ⟨c,.here c,.inr ⟨callee,p,turn,paid⟩⟩
        · obtain ⟨d,reached,makes⟩ := called inside
          exact ⟨d,.enters turn reached,makes⟩
      · cases inside
    · obtain ⟨d,reached,makes⟩ := ih later
      exact ⟨d,.resumes turn back reached,makes⟩

theorem messageMade (sha : Bytes → Hash) {msg : Message} {w : Write} (member : w ∈ messageWrites sha st msg) :
    w ∈ (Scope.new st).transferWrites msg.sender (msg.to'.getD (createAddress sha msg.sender msg.nonce)) msg.value ∨
    (msg.to' = none ∧ w = .code (createAddress sha msg.sender msg.nonce) msg.data) ∨
    ∃ c, Visits st msg c ∧ c.Makes w := by
  unfold messageWrites at member
  cases target : msg.to' with
  | none =>
    rw [target] at member
    exact (List.mem_append.mp member).imp_right fun made => .inl ⟨rfl,List.mem_singleton.mp made⟩
  | some self =>
    rw [target] at member
    refine (List.mem_append.mp member).imp_right fun inside => .inr ?_
    cases entered : entry st msg with
    | none =>
      rw [entered] at inside
      cases inside
    | some root =>
      rw [entered] at inside
      obtain ⟨d,reached,makes⟩ := keptMade root inside
      exact ⟨d,⟨root,entered,reached⟩,makes⟩

theorem applyStorage {x : Address} {k : Hash} (st : MptState) (w : Write) (other : ¬ ∃ v, w = .storage x k v) :
    ((Write.apply st w).accounts x).storage k = (st.accounts x).storage k := by
  cases w with
  | account a acct =>
    rw [Write.apply,setAccountAt]
    split
    · rename_i same
      rw [same]
    · rfl
  | code a bytes =>
    rw [Write.apply,setCodeAt]
    split
    · rename_i same
      rw [same]
    · rfl
  | storage a key v =>
    rw [Write.apply,setStorageAt]
    split
    · rename_i same
      subst same
      dsimp only
      rw [if_neg]
      intro slot
      exact other ⟨v,by rw [slot]⟩
    · rfl

theorem appliedWrote {α : Type} (read : MptState → α) {Wrote : Write → Prop}
    (keeps : ∀ st w, ¬ Wrote w → read (Write.apply st w) = read st) (st : MptState) (ws : List Write)
    (differs : read (applied st ws) ≠ read st) : ∃ w ∈ ws, Wrote w := by
  induction ws generalizing st with
  | nil => exact absurd rfl differs
  | cons w ws ih =>
    by_cases wrote : Wrote w
    · exact ⟨w,List.mem_cons_self,wrote⟩
    · have same := keeps st w wrote
      obtain ⟨w',member,wrote'⟩ := ih (Write.apply st w) (same ▸ differs)
      exact ⟨w',List.mem_cons_of_mem _ member,wrote'⟩

theorem storageWritten (sha : Bytes → Hash) {msg : Message} {self x : Address} {k : Hash} (calls : msg.to' = some self)
    (differs : ((execute sha st msg).2.accounts x).storage k ≠ (st.accounts x).storage k) :
    ∃ c, Visits st msg c ∧ c.Stores x k := by
  obtain ⟨failed,done⟩ := executeKept sha st msg
  cases success : (execute sha st msg).1.success with
  | false => exact absurd (by rw [failed success]) differs
  | true =>
    rw [done success] at differs
    obtain ⟨_,member,v,rfl⟩ := appliedWrote (fun st => (st.accounts x).storage k) applyStorage st _ differs
    rcases messageMade sha member with paid | ⟨creates,_⟩ | ⟨c,visits,makes⟩
    · exact absurd paid transferStoresNone
    · cases calls.symm.trans creates
    · rcases makes with ⟨c',turn,stored⟩ | ⟨callee,p,_,paid⟩
      · exact ⟨c,visits,storesMember turn stored⟩
      · exact absurd paid transferStoresNone

/- What a message can touch. A call leaves every nonce and all code, and a slot that
changes is of an address with code, written by a frame that ran as that address. A
creation leaves everything but two balances and the code of the address it makes. -/
theorem effectsConfined (sha : Bytes → Hash) (st : MptState) (msg : Message) :
    (∀ self x, msg.to' = some self →
      ((execute sha st msg).2.accounts x).nonce = (st.accounts x).nonce ∧
      ((execute sha st msg).2.accounts x).code = (st.accounts x).code ∧
      ∀ k, ((execute sha st msg).2.accounts x).storage k ≠ (st.accounts x).storage k →
        (st.accounts x).code ≠ [] ∧ ∃ c, Visits st msg c ∧ c.Stores x k) ∧
    (∀ x, msg.to' = none →
      ((execute sha st msg).2.accounts x).nonce = (st.accounts x).nonce ∧
      ((execute sha st msg).2.accounts x).storage = (st.accounts x).storage ∧
      (x ≠ createAddress sha msg.sender msg.nonce →
        ((execute sha st msg).2.accounts x).code = (st.accounts x).code ∧
        (x ≠ msg.sender → ((execute sha st msg).2.accounts x).balance = (st.accounts x).balance))) := by
  have done := (executed sha st msg).2
  refine ⟨fun self x calls => ⟨done.nonce,?_,fun k differs => ⟨fun codeless => ?_,storageWritten sha calls differs⟩⟩,
    fun x creates => ⟨done.nonce,?_,fun other => ⟨?_,fun stranger => ?_⟩⟩⟩
  · exact (done.code (a := x)).resolve_right (fun new => nomatch calls.symm.trans new.1)
  · exact differs (congrFun (done.storage codeless) k)
  · generalize (execute sha st msg).2 = after at done
    cases done with
    | failed => rfl
    | created => exact (codeFrame _ _).2.trans payFrame.2.2
    | called calls => exact nomatch creates.symm.trans calls
  · exact (done.code (a := x)).resolve_right (fun new => other new.2.1)
  · generalize (execute sha st msg).2 = after at done
    cases done with
    | failed => rfl
    | called calls => exact nomatch creates.symm.trans calls
    | created =>
      rw [setCodeAt,if_neg other]
      by_cases self : msg.sender = createAddress sha msg.sender msg.nonce
      · rw [payIdle (.inr self)]
      · rw [payAt self,if_neg other,if_neg stranger]

theorem transferMember {a b x : Address} {v : UInt64} {acct : Account} (member : .account x acct ∈ sc.transferWrites a b v) :
    v ≠ 0 ∧ (x = a ∨ x = b) := by
  unfold Scope.transferWrites at member
  split at member
  · cases member
  · rename_i moves
    dsimp only at member
    split at member
    · cases member
    · refine ⟨fun zero => moves (.inl zero),?_⟩
      rcases List.mem_cons.mp member with same | second
      · exact .inl (Write.account.inj same).1
      · exact .inr (Write.account.inj (List.mem_singleton.mp second)).1

theorem storesAccountNone {x : Address} {acct : Account} : .account x acct ∉ c.stores := by
  unfold Config.stores
  split
  · simp
  · exact List.not_mem_nil

theorem applyBalance {x : Address} (st : MptState) (w : Write) (other : ¬ ∃ acct, w = .account x acct) :
    (Write.apply st w).balances x = st.balances x := by
  cases w with
  | account a acct =>
    rw [Write.apply,balances,setAccountAt,if_neg]
    · rfl
    · rintro rfl
      exact other ⟨acct,rfl⟩
  | code a bytes => exact congrFun (codeBalances a bytes) x
  | storage a k v => exact congrFun (storageBalances a k v) x

/- A value passes from or to `x`: the message's own, or that of a CALL on its way. -/
def Moves (sha : Bytes → Hash) (st : MptState) (msg : Message) (x : Address) : Prop :=
  (msg.value ≠ 0 ∧ (x = msg.sender ∨ x = msg.to'.getD (createAddress sha msg.sender msg.nonce))) ∨
  ∃ c callee p, Visits st msg c ∧ c.turn = .calls callee p ∧
    callee.ctx.callValue ≠ 0 ∧ (x = c.ctx.self ∨ x = callee.ctx.self)

theorem balanceMoved (sha : Bytes → Hash) {msg : Message} {x : Address}
    (differs : (execute sha st msg).2.balances x ≠ st.balances x) : Moves sha st msg x := by
  obtain ⟨failed,done⟩ := executeKept sha st msg
  cases success : (execute sha st msg).1.success with
  | false => exact absurd (by rw [failed success]) differs
  | true =>
    rw [done success] at differs
    obtain ⟨_,member,acct,rfl⟩ := appliedWrote (fun st => st.balances x) applyBalance st _ differs
    rcases messageMade sha member with paid | ⟨_,code⟩ | ⟨c,visits,makes⟩
    · exact .inl (transferMember paid)
    · cases code
    · rcases makes with ⟨c',_,stored⟩ | ⟨callee,p,turn,paid⟩
      · exact absurd stored storesAccountNone
      · exact .inr ⟨c,callee,p,visits,turn,transferMember paid⟩

end
end L1Chain.StackVM
