import L1Chain.FrameWrites

/-! The value of a CALL. A CALL names a value by a word of 256 bits and moves the 64-bit
number `popCallArgs` makes of it; `CallLaw` is what that should come to, from the point
before the CALL to the one after it. It holds of a value exactly where the word fits,
the caller can pay it, itself included, and the target can hold it. -/
namespace L1Chain.StackVM
open Calls MptState

/- The next instruction is a CALL of `to'` with the value word `v`, paid for. -/
def Config.Names (c : VmConfig) (v : Hash) (to' : Address) : Prop :=
  ∃ g gasW addrW argsOff argsSize retOff retSize rest, c.Fetches .call g ∧
    c.frame.stack = gasW::addrW::(v.toNat : Int)::argsOff::argsSize::retOff::retSize::rest ∧ addrFromWord addrW = to'

def Config.balance (c : VmConfig) (x : Address) : UInt64 := (c.scope.getAccount x).balance

def Config.Pushes (c c' : VmConfig) (w : Int) : Prop :=
  (c.turn = .on (.goes c') ∨ ∃ callee p, c.turn = .calls callee p ∧ p.resume callee.outcome = .goes c') ∧
    c'.frame.stack.head? = some w

def Config.CallLaw (c : VmConfig) (v : Hash) (to' : Address) : Prop :=
  (∀ c', c.Pushes c' 1 → v.toNat ≤ (c.balance c.ctx.self).toNat ∧
    ∃ callee p, c.turn = .calls callee p ∧ callee.ctx.self = to' ∧ callee.ctx.callValue.toNat = v.toNat ∧
      (to' ≠ c.ctx.self →
        (callee.balance c.ctx.self).toNat + v.toNat = (c.balance c.ctx.self).toNat ∧
        (callee.balance to').toNat = (c.balance to').toNat + v.toNat ∧
        ∀ x, x ≠ c.ctx.self → x ≠ to' → callee.balance x = c.balance x)) ∧
  ∀ c', c.Pushes c' 0 → c'.scope = c.scope

def Payable (b : Address → UInt64) (self to' : Address) (v : Hash) : Prop :=
  if to' = self then v.toNat ≤ (b self).toNat
  else v.toNat < 2 ^ 64 ∧ (v.toNat ≤ (b self).toNat → (b to').toNat + v.toNat < 2 ^ 64)

@[irreducible] def narrowed (v : Hash) : UInt64 := if v.toNat < 2 ^ 64 then UInt64.ofNat v.toNat else 0

theorem narrowedFits {v : Hash} (fits : v.toNat < 2 ^ 64) : (narrowed v).toNat = v.toNat := by
  unfold narrowed
  rw [if_pos fits,UInt64.toNat_ofNat']
  exact Nat.mod_eq_of_lt fits

theorem popValue (v : Hash) : (if isUint64 v.toNat then UInt64.ofNat (v.toNat : Int).toNat else 0) = narrowed v := by
  unfold narrowed isUint64
  simp only [decide_eq_true_eq,Int.toNat_natCast]
  refine if_congr ?_ rfl rfl
  omega

theorem popCallArgsCons (gasW addrW valueW argsOff argsSize retOff retSize : Int) (rest : List Int) :
    popCallArgs (gasW::addrW::valueW::argsOff::argsSize::retOff::retSize::rest) =
      .ok (⟨addrFromWord addrW,if isUint64 valueW then UInt64.ofNat valueW.toNat else 0,argsOff,argsSize,retOff,retSize⟩,rest) :=
  rfl

section
variable {S : Type} [StateDB S]

theorem turnNext {c : Config S} {byte : UInt8} {op : Op} {g : GasMeter} {f : Frame} {sc : Scope S}
    (fetched : c.ctx.code[c.frame.pc]? = some byte) (decoded : opcode byte = some op)
    (paid : c.gas.charge (gasCost (some op)) = (g,.ok ()))
    (done : exec c.ctx c.frame c.scope op = .ok (.next f sc)) : c.turn = .on (.goes ⟨g,sc,c.depth,c.ctx,f⟩) := by
  unfold Config.turn
  rw [fetched]
  dsimp only
  rw [decoded,paid]
  dsimp only
  rw [done]

theorem turnCall {c : Config S} {g : GasMeter} {args : CallArgs} {st : List Int} {i n : ℕ} {mem : Bytes} {inner : Scope S}
    (fetches : c.Fetches .call g) (popped : popCallArgs c.frame.stack = .ok (args,st))
    (shallow : c.depth + 1 ≤ maxCallDepth) (range : memRange c.frame.mem args.argsOff args.argsSize = .ok (i,n,mem))
    (moved : c.scope.child.transfer c.ctx.self args.to' args.value = .ok inner) :
    c.turn = .calls (calleeOf ⟨g,c.scope,c.depth,c.ctx,⟨c.frame.pc,st,mem⟩⟩ args inner ((mem.drop i).take n))
      ⟨⟨g,c.scope,c.depth,c.ctx,⟨c.frame.pc,st,mem⟩⟩,args⟩ := by
  obtain ⟨byte,fetched,decoded⟩ := fetches.fetched
  have called : exec c.ctx c.frame c.scope .call = .ok (.call args ⟨c.frame.pc,st,c.frame.mem⟩) := by
    rw [exec,popped]
    rfl
  unfold Config.turn
  rw [fetched]
  dsimp only
  rw [decoded,fetches.paid]
  dsimp only
  rw [called]
  dsimp only [Config.opCall]
  rw [if_neg (not_lt.mpr shallow),range]
  dsimp only
  rw [moved]

theorem reachNext {g g' : GasMeter} {sc sc' : Scope S} {depth : ℕ} {ctx : Context} {f f' : Frame} {d : Config S}
    {byte : UInt8} {op : Op} (fetched : ctx.code[f.pc]? = some byte) (decoded : opcode byte = some op)
    (paid : g.charge (gasCost (some op)) = (g',.ok ())) (done : exec ctx f sc op = .ok (.next f' sc'))
    (rest : (interpreter S).Reaches ⟨g',sc',depth,ctx,f'⟩ d) : (interpreter S).Reaches ⟨g,sc,depth,ctx,f⟩ d :=
  .goes (@turnNext S _ ⟨g,sc,depth,ctx,f⟩ byte op g' f' sc' fetched decoded paid done) rest

theorem pushZeroHead {f f' : Frame} (ok : pushZero f = .ok f') : f'.stack.head? = some 0 := by
  obtain ⟨st,pushed,rfl⟩ := pushZeroOk ok
  unfold push at pushed
  split at pushed <;> cases pushed
  rfl

theorem callReturnHead {args : CallArgs} {f f' : Frame} {ret : Bytes} (ok : callReturn args f ret = .ok f') :
    f'.stack.head? = some 1 := by
  obtain ⟨st,mem,pushed,rfl⟩ := callReturnOk ok
  unfold push at pushed
  split at pushed <;> cases pushed
  rfl

end

section
variable {c c' callee : VmConfig} {p : Pending MptState} {v : Hash} {to' : Address} {b : Address → UInt64}

theorem namesArgs (names : c.Names v to') : ∃ args st, popCallArgs c.frame.stack = .ok (args,st) ∧
    args.to' = to' ∧ args.value = narrowed v := by
  obtain ⟨g,gasW,addrW,argsOff,argsSize,retOff,retSize,rest,_,stack,target⟩ := names
  have popped : popCallArgs c.frame.stack = .ok (⟨addrFromWord addrW,narrowed v,argsOff,argsSize,retOff,retSize⟩,rest) := by
    rw [stack,← popValue]
    exact popCallArgsCons ..
  exact ⟨_,rest,popped,target,rfl⟩

theorem namesGoes (names : c.Names v to') (turn : c.turn = .on (.goes c')) :
    c'.frame.stack.head? = some 0 ∧ c'.scope = c.scope := by
  obtain ⟨g,_,_,_,_,_,_,_,fetches,_⟩ := names
  rcases goesCases turn with ⟨op,g',f,sc,fetches',done,rfl⟩ | ⟨g',args,st,mem,f,_,_,_,pushed,rfl⟩
  · obtain rfl : Op.call = op := Option.some.inj ((fetchedOp fetches).symm.trans (fetchedOp fetches'))
    simp [exec,Runs.bindOk] at done
  · exact ⟨pushZeroHead pushed,rfl⟩

theorem namesCalls (names : c.Names v to') (turn : c.turn = .calls callee p) :
    callee.ctx.self = to' ∧ callee.ctx.callValue = narrowed v ∧
    c.scope.child.transfer c.ctx.self to' (narrowed v) = .ok callee.scope := by
  obtain ⟨args,st,popped,target,value⟩ := namesArgs names
  obtain ⟨g,args',st',i,n,mem,inner,_,popped',_,_,moved,rfl,rfl⟩ := callsCases turn
  cases popped.symm.trans popped'
  rw [target,value] at moved
  exact ⟨target,value,moved⟩

theorem movedExact {sc sc' : Scope MptState} {a b : Address} {w : UInt64} (apart : b ≠ a)
    (moved : sc.child.transfer a b w = .ok sc')
    (room : (sc.getAccount b).balance.toNat + w.toNat < 2 ^ 64) :
    (sc'.getAccount a).balance.toNat + w.toNat = (sc.getAccount a).balance.toNat ∧
    (sc'.getAccount b).balance.toNat = (sc.getAccount b).balance.toNat + w.toNat ∧
    ∀ x, x ≠ a → x ≠ b → (sc'.getAccount x).balance = (sc.getAccount x).balance := by
  obtain ⟨_,funded,view⟩ := transferOk moved
  rw [viewChild] at funded view
  have at' : ∀ x, (sc'.getAccount x).balance = ((sc.view.pay a b w).accounts x).balance :=
    fun x => congrArg (fun st : MptState => (st.accounts x).balance) view
  have held : w ≤ (sc.getAccount a).balance := by
    rcases funded with zero | same | held
    · rw [zero]
      exact UInt64.zero_le
    · exact absurd same.symm apart
    · exact held
  refine ⟨?_,?_,fun x own target => ?_⟩
  · rw [at' a,payAt apart.symm,if_neg apart.symm,if_pos rfl]
    show ((sc.getAccount a).balance - w).toNat + w.toNat = _
    rw [UInt64.toNat_sub_of_le _ _ held]
    have := UInt64.le_iff_toNat_le.mp held
    omega
  · rw [at' b,payAt apart.symm,if_pos rfl]
    show ((sc.getAccount b).balance + w).toNat = _
    rw [UInt64.toNat_add]
    exact Nat.mod_eq_of_lt room
  · rw [at' x,payAt apart.symm,if_neg target,if_neg own]
    rfl

theorem transferPaid {sc sc' : Scope MptState} {a b : Address} {w : UInt64} (apart : b ≠ a)
    (moved : sc.child.transfer a b w = .ok sc') : w.toNat ≤ (sc.getAccount a).balance.toNat := by
  obtain ⟨_,funded,_⟩ := transferOk moved
  rw [viewChild] at funded
  rcases funded with zero | same | held
  · rw [zero]
    exact Nat.zero_le _
  · exact absurd same.symm apart
  · exact UInt64.le_iff_toNat_le.mp held

theorem payableLaw (names : c.Names v to') (payable : Payable c.balance c.ctx.self to' v) : c.CallLaw v to' := by
  refine ⟨fun c' ⟨onward,head⟩ => ?_,fun c' ⟨onward,head⟩ => ?_⟩
  · rcases onward with goes | ⟨callee,p,turn,back⟩
    · rw [(namesGoes names goes).1] at head
      exact absurd head (by simp)
    · obtain ⟨self,value,moved⟩ := namesCalls names turn
      unfold Payable at payable
      split at payable
      · rename_i own
        have fits : v.toNat < 2 ^ 64 := payable.trans_lt (UInt64.toNat_lt _)
        exact ⟨payable,callee,p,turn,self,value ▸ narrowedFits fits,fun other => absurd own other⟩
      · rename_i apart
        obtain ⟨fits,room⟩ := payable
        have same := narrowedFits fits
        have paid := transferPaid apart moved
        rw [same] at paid
        have exact' := movedExact apart moved (by rw [same]; exact room paid)
        rw [same] at exact'
        exact ⟨paid,callee,p,turn,self,value ▸ same,fun _ => exact'⟩
  · rcases onward with goes | ⟨callee,p,turn,back⟩
    · exact (namesGoes names goes).2
    · rcases backCases back with ⟨g,e,f,_,_,rfl⟩ | ⟨g,ret,inner,f,_,returned,rfl⟩
      · exact (callsScope turn).2
      · have one := callReturnHead returned
        rw [show f.stack.head? = some 0 from head] at one
        exact absurd one (by simp)

end

/- A contract that calls the address in its second word of calldata with the value in
the first, and stops when it is called without calldata. -/
def callerCode : Bytes :=
  [0x36,0x60,5,0x57,0x00,0x5b,0x60,0,0x60,0,0x60,0,0x60,0,0x60,0,0x35,0x60,32,0x35,0x60,0,0xf1]

def callData (v : Hash) (to' : Address) : Bytes := Hash.bytes v ++ Hash.bytes (to'.setWidth 256)

def callerState (b : Address → UInt64) (self : Address) : MptState :=
  ⟨fun x => ⟨b x,0,if x = self then callerCode else [],fun _ => 0⟩⟩

def callerMessage (self to' : Address) (v : Hash) : Message := ⟨0,some self,0,100000,0,callData v to'⟩

def callPoint (b : Address → UInt64) (self to' : Address) (v : Hash) : VmConfig :=
  ⟨⟨100000,43⟩,Scope.new (callerState b self),0,⟨callerCode,self,0,callData v to'⟩,⟨22,[0,to'.toNat,v.toNat,0,0,0,0],[]⟩⟩

theorem callDataLength (v : Hash) (to' : Address) : (callData v to').length = 64 := by simp [callData]

theorem beNatHash (h : Hash) : beNat (Hash.bytes h) = h.toNat := by
  rw [Hash.bytes,beNatBytes]
  exact Nat.mod_eq_of_lt h.isLt

theorem callDataValue (v : Hash) (to' : Address) : beNat (readData (callData v to') 0) = v.toNat := by
  have first : readData (callData v to') 0 = Hash.bytes v := by
    show window (callData v to') 0 32 = _
    simp [window,callData]
  rw [first,beNatHash]

theorem callDataTarget (v : Hash) (to' : Address) : beNat (readData (callData v to') 32) = to'.toNat := by
  have second : readData (callData v to') 32 = Hash.bytes (to'.setWidth 256) := by
    show window (callData v to') 32 32 = _
    simp [window,callData]
  rw [second,beNatHash,BitVec.toNat_setWidth]
  exact Nat.mod_eq_of_lt (to'.isLt.trans (by decide))

theorem callReached (sc : Scope MptState) (self to' : Address) (v : Hash) :
    (interpreter MptState).Reaches ⟨⟨100000,0⟩,sc,0,⟨callerCode,self,0,callData v to'⟩,⟨0,[],[]⟩⟩
      ⟨⟨100000,43⟩,sc,0,⟨callerCode,self,0,callData v to'⟩,⟨22,[0,to'.toNat,v.toNat,0,0,0,0],[]⟩⟩ := by
  have size : exec ⟨callerCode,self,0,callData v to'⟩ ⟨0,[],[]⟩ sc .calldatasize = .ok (.next ⟨1,[64],[]⟩ sc) := by
    rw [exec,callDataLength]
    rfl
  have jump : exec ⟨callerCode,self,0,callData v to'⟩ ⟨3,[5,64],[]⟩ sc .jumpi = .ok (.next ⟨5,[],[]⟩ sc) := rfl
  have value : exec ⟨callerCode,self,0,callData v to'⟩ ⟨16,[0,0,0,0,0],[]⟩ sc .calldataload =
      .ok (.next ⟨17,[v.toNat,0,0,0,0],[]⟩ sc) := by
    rw [← callDataValue v to']
    rfl
  have target : exec ⟨callerCode,self,0,callData v to'⟩ ⟨19,[32,v.toNat,0,0,0,0],[]⟩ sc .calldataload =
      .ok (.next ⟨20,[to'.toNat,v.toNat,0,0,0,0],[]⟩ sc) := by
    rw [← callDataTarget v to']
    rfl
  refine reachNext rfl rfl rfl size ?_
  refine reachNext rfl rfl rfl rfl ?_
  refine reachNext rfl rfl rfl jump ?_
  refine reachNext rfl rfl rfl rfl ?_
  refine reachNext rfl rfl rfl rfl ?_
  refine reachNext rfl rfl rfl rfl ?_
  refine reachNext rfl rfl rfl rfl ?_
  refine reachNext rfl rfl rfl rfl ?_
  refine reachNext rfl rfl rfl rfl ?_
  refine reachNext rfl rfl rfl value ?_
  refine reachNext rfl rfl rfl rfl ?_
  refine reachNext rfl rfl rfl target ?_
  refine reachNext rfl rfl rfl rfl ?_
  exact .here _

section
variable (b : Address → UInt64) (self to' : Address) (v : Hash)

theorem callVisited : Visits (callerState b self) (callerMessage self to' v) (callPoint b self to' v) := by
  have code : (Scope.new (callerState b self)).getCode self = callerCode := by
    show (if self = self then callerCode else []) = callerCode
    exact if_pos rfl
  refine ⟨_,?_,callReached (Scope.new (callerState b self)) self to' v⟩
  rw [← code]
  rfl

theorem callFetched : (callPoint b self to' v).Fetches .call ⟨100000,743⟩ := by
  have fetched : (callPoint b self to' v).ctx.code[(callPoint b self to' v).frame.pc]? = some 0xf1 := by
    show callerCode[22]? = some 0xf1
    rfl
  have paid : (⟨100000,43⟩ : GasMeter).charge (gasCost (some .call)) = (⟨100000,743⟩,.ok ()) := rfl
  exact ⟨⟨0xf1,fetched,rfl⟩,paid⟩

theorem addressWord : addrFromWord to'.toNat = to' := by
  apply BitVec.eq_of_toNat_eq
  rw [addrFromWord,bigToHash,BitVec.toNat_setWidth,BitVec.toNat_ofInt]
  have small := to'.isLt
  omega

theorem callNamed : (callPoint b self to' v).Names v to' :=
  ⟨_,0,to'.toNat,0,0,0,0,[],callFetched b self to' v,rfl,addressWord to'⟩

end

theorem calleeStops (sc : Scope MptState) (self : Address) (value : UInt64) :
    (⟨⟨100000,743⟩,sc,1,⟨callerCode,self,value,[]⟩,⟨0,[],[]⟩⟩ : VmConfig).outcome = (⟨100000,758⟩,.ok ([],sc)) := by
  have size : Config.turn (⟨⟨100000,743⟩,sc,1,⟨callerCode,self,value,[]⟩,⟨0,[],[]⟩⟩ : VmConfig) =
      .on (.goes ⟨⟨100000,745⟩,sc,1,⟨callerCode,self,value,[]⟩,⟨1,[0],[]⟩⟩) := turnNext rfl rfl rfl rfl
  have dest : Config.turn (⟨⟨100000,745⟩,sc,1,⟨callerCode,self,value,[]⟩,⟨1,[0],[]⟩⟩ : VmConfig) =
      .on (.goes ⟨⟨100000,748⟩,sc,1,⟨callerCode,self,value,[]⟩,⟨3,[5,0],[]⟩⟩) := turnNext rfl rfl rfl rfl
  have falls : Config.turn (⟨⟨100000,748⟩,sc,1,⟨callerCode,self,value,[]⟩,⟨3,[5,0],[]⟩⟩ : VmConfig) =
      .on (.goes ⟨⟨100000,758⟩,sc,1,⟨callerCode,self,value,[]⟩,⟨4,[],[]⟩⟩) := turnNext rfl rfl rfl rfl
  have stops : Config.turn (⟨⟨100000,758⟩,sc,1,⟨callerCode,self,value,[]⟩,⟨4,[],[]⟩⟩ : VmConfig) =
      .on (.ends (⟨100000,758⟩,.ok ([],sc))) := rfl
  rw [outcomeGoes size,outcomeGoes dest,outcomeGoes falls,outcomeEnds stops]

theorem emptyStops (g : GasMeter) (sc : Scope MptState) (depth : ℕ) (ctx : Context) (f : Frame) (empty : ctx.code = []) :
    (⟨g,sc,depth,ctx,f⟩ : VmConfig).outcome = (g,.ok ([],sc)) := by
  refine outcomeEnds ?_
  unfold Config.turn
  rw [empty]
  rfl

theorem callPushes (b : Address → UInt64) (self to' : Address) (v : Hash)
    (moves : to' = self ∨ narrowed v ≤ b self) : ∃ c', (callPoint b self to' v).Pushes c' 1 := by
  obtain ⟨inner,moved⟩ : ∃ inner, (callPoint b self to' v).scope.child.transfer self to' (narrowed v) = .ok inner := by
    unfold Scope.transfer
    split
    · exact ⟨_,rfl⟩
    · rename_i apart
      have enough : ¬((callPoint b self to' v).scope.child.getAccount self).balance < narrowed v := by
        rcases moves with same | held
        · exact absurd (.inr same.symm) apart
        · exact UInt64.not_lt.mpr held
      dsimp only
      rw [if_neg enough]
      exact ⟨_,rfl⟩
  have popped : popCallArgs (callPoint b self to' v).frame.stack =
      .ok (⟨addrFromWord to'.toNat,narrowed v,0,0,0,0⟩,[]) := by
    rw [← popValue]
    exact popCallArgsCons ..
  have range : memRange (callPoint b self to' v).frame.mem 0 0 = .ok (0,0,[]) := by
    show memRange [] 0 0 = _
    rfl
  rw [addressWord] at popped
  have turn := turnCall (callFetched b self to' v) popped (show 0 + 1 ≤ maxCallDepth by decide) range moved
  have outcome : ∃ g, (calleeOf (⟨⟨100000,743⟩,(callPoint b self to' v).scope,0,(callPoint b self to' v).ctx,⟨22,[],[]⟩⟩ : VmConfig)
      ⟨to',narrowed v,0,0,0,0⟩ inner []).outcome = (g,.ok ([],inner)) := by
    have code : inner.getCode to' = ((callerState b self).accounts to').code := by
      obtain ⟨_,_,view⟩ := transferOk moved
      rw [viewChild] at view
      exact (congrArg (fun st : MptState => (st.accounts to').code) view).trans payFrame.2.1
    by_cases own : to' = self
    · have called : inner.getCode to' = callerCode := code.trans (if_pos own)
      refine ⟨⟨100000,758⟩,?_⟩
      rw [calleeOf,called]
      exact calleeStops inner to' (narrowed v)
    · exact ⟨_,emptyStops _ inner _ _ _ (code.trans (if_neg own))⟩
  obtain ⟨g,outcome⟩ := outcome
  exact ⟨⟨g,inner.commit,0,(callPoint b self to' v).ctx,⟨23,[1],[]⟩⟩,
    .inr ⟨_,_,turn,(congrArg (Pending.resume _) outcome).trans rfl⟩,rfl⟩

theorem lawNeedsFunds {c c' : VmConfig} {v : Hash} {to' : Address} (pushes : c.Pushes c' 1)
    (poor : (c.balance c.ctx.self).toNat < v.toNat) : ¬c.CallLaw v to' :=
  fun law => absurd (law.1 c' pushes).1 (not_le.mpr poor)

theorem unpayable {b : Address → UInt64} {self to' : Address} {v : Hash} (not : ¬Payable b self to' v) :
    ¬(callPoint b self to' v).CallLaw v to' := by
  unfold Payable at not
  split at not
  · rename_i own
    obtain ⟨c',pushes⟩ := callPushes b self to' v (.inl own)
    exact lawNeedsFunds pushes (not_le.mp not)
  · rename_i apart
    by_cases fits : v.toNat < 2 ^ 64
    · obtain ⟨paid,full⟩ : v.toNat ≤ (b self).toNat ∧ ¬(b to').toNat + v.toNat < 2 ^ 64 := by
        simpa only [fits,true_and,Classical.not_imp] using not
      obtain ⟨c',pushes⟩ := callPushes b self to' v (.inr (UInt64.le_iff_toNat_le.mpr (narrowedFits fits ▸ paid)))
      intro law
      obtain ⟨_,callee,p,_,_,_,moves⟩ := law.1 c' pushes
      have credited : (callee.balance to').toNat = (b to').toNat + v.toNat := (moves apart).2.1
      exact full (credited ▸ UInt64.toNat_lt _)
    · have zero : narrowed v = 0 := by
        unfold narrowed
        exact if_neg fits
      obtain ⟨c',pushes⟩ := callPushes b self to' v (.inr (zero ▸ UInt64.zero_le))
      exact lawNeedsFunds pushes ((UInt64.toNat_lt _).trans_le (not_lt.mp fits))

/- A CALL of value `v` from `self` to `to'` does what its value says, in every
execution in which these are the balances before it, just where that value is payable. -/
theorem callMovesItsValue (b : Address → UInt64) (self to' : Address) (v : Hash) :
    Payable b self to' v ↔ ∀ (st : MptState) (msg : Message) (c : Config MptState), Visits st msg c →
      c.ctx.self = self → c.Names v to' → (∀ x, c.balance x = b x) → c.CallLaw v to' := by
  constructor
  · intro payable st msg c _ own names balances
    subst own
    exact payableLaw names ((funext balances : c.balance = b) ▸ payable)
  · intro law
    by_contra not
    exact unpayable not (law _ _ _ (callVisited b self to' v) rfl (callNamed b self to' v) (fun _ => rfl))

theorem emptyAccountCalls :
    (∃ c c', Visits (callerState (fun _ => 0) 7) (callerMessage 7 9 (BitVec.ofNat 256 (2 ^ 64))) c ∧
      c.Names (BitVec.ofNat 256 (2 ^ 64)) 9 ∧ c.balance c.ctx.self = 0 ∧ c.Pushes c' 1 ∧
      ¬c.CallLaw (BitVec.ofNat 256 (2 ^ 64)) 9) ∧
    (∃ c c', Visits (callerState (fun _ => 0) 7) (callerMessage 7 7 1) c ∧ c.Names 1 7 ∧
      c.balance c.ctx.self = 0 ∧ c.Pushes c' 1 ∧ ¬c.CallLaw 1 7) := by
  have large : ¬(BitVec.ofNat 256 (2 ^ 64)).toNat < 2 ^ 64 := by decide
  have zero : narrowed (BitVec.ofNat 256 (2 ^ 64)) = 0 := by
    unfold narrowed
    exact if_neg large
  obtain ⟨c₁,first⟩ := callPushes (fun _ => 0) 7 9 (BitVec.ofNat 256 (2 ^ 64)) (.inr (zero ▸ UInt64.zero_le))
  obtain ⟨c₂,second⟩ := callPushes (fun _ => 0) 7 7 1 (.inl rfl)
  exact ⟨⟨_,c₁,callVisited _ _ _ _,callNamed _ _ _ _,rfl,first,lawNeedsFunds first (by decide)⟩,
    ⟨_,c₂,callVisited _ _ _ _,callNamed _ _ _ _,rfl,second,lawNeedsFunds second (by decide)⟩⟩

end L1Chain.StackVM
