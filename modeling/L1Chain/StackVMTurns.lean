import L1Chain.Calls
import L1Chain.StackVMSteps

/-! The StackVM turn by turn, as a machine that calls: a turn is one instruction, and a
CALL that passes its checks enters the callee. What a turn can do is said once, by
`Turned`. Every instruction that does not end its frame costs gas, so the remaining gas
ranks the machine and the fuel of `run` is never used up. -/
namespace L1Chain.StackVM
open Calls

structure Config (S : Type) where
  gas : GasMeter
  scope : Scope S
  depth : ℕ
  ctx : Context
  frame : Frame

structure Pending (S : Type) where
  caller : Config S
  args : CallArgs

abbrev VmOnward (S : Type) := Onward (Config S) (RunResult S)
abbrev VmTurn (S : Type) := Turn (Config S) (Pending S) (RunResult S)

section
variable {S : Type}

def Config.goesOn (c : Config S) : Except VmErr Frame → VmOnward S
  | .error e => .ends (c.gas,.error e)
  | .ok f => .goes {c with frame := f}

def Pending.resume (p : Pending S) : RunResult S → VmOnward S
  | (g,.error .outOfGas) => .ends (g,.error .outOfGas)
  | (g,.error .outOfFuel) => .ends (g,.error .outOfFuel)
  | (g,.error _) => Config.goesOn {p.caller with gas := g} (pushZero p.caller.frame)
  | (g,.ok (ret,inner)) =>
    Config.goesOn {p.caller with gas := g, scope := inner.commit} (callReturn p.args p.caller.frame ret)

variable [StateDB S]

def calleeOf (c : Config S) (args : CallArgs) (inner : Scope S) (input : Bytes) : Config S :=
  ⟨c.gas,inner,c.depth + 1,⟨inner.getCode args.to',args.to',args.value,input⟩,⟨0,[],[]⟩⟩

def Config.opCall (c : Config S) (args : CallArgs) : VmTurn S :=
  if c.depth + 1 > maxCallDepth then .on (c.goesOn (pushZero c.frame))
  else match memRange c.frame.mem args.argsOff args.argsSize with
  | .error e => .on (.ends (c.gas,.error e))
  | .ok (i,n,mem) =>
    let c : Config S := {c with frame := ⟨c.frame.pc,c.frame.stack,mem⟩}
    match c.scope.child.transfer c.ctx.self args.to' args.value with
    | .error _ => .on (c.goesOn (pushZero c.frame))
    | .ok inner => .calls (calleeOf c args inner ((mem.drop i).take n)) ⟨c,args⟩

def Config.turn (c : Config S) : VmTurn S :=
  match c.ctx.code[c.frame.pc]? with
  | none => .on (.ends (c.gas,.ok ([],c.scope)))
  | some byte =>
    match c.gas.charge (gasCost (opcode byte)) with
    | (g,.error e) => .on (.ends (g,.error e))
    | (g,.ok ()) =>
      match opcode byte with
      | none => .on (.ends (g,.error .invalidOpcode))
      | some op =>
        match exec c.ctx c.frame c.scope op with
        | .error e => .on (.ends (g,.error e))
        | .ok (.halt ret) => .on (.ends (g,.ok (ret,c.scope)))
        | .ok (.next f sc) => .on (.goes {c with gas := g, scope := sc, frame := f})
        | .ok (.call args f) => Config.opCall {c with gas := g, frame := f} args

def machine (S : Type) [StateDB S] : Machine (Config S) (Pending S) (RunResult S) := ⟨Config.turn,Pending.resume⟩

def Config.run (c : Config S) (fuel : ℕ) : RunResult S := StackVM.run fuel c.gas c.scope c.depth c.ctx c.frame

def Config.spent (c : Config S) : RunResult S := (c.gas,.error .outOfFuel)

theorem runTurns (c : Config S) (fuel : ℕ) : c.run fuel = (machine S).run Config.spent fuel c := by
  induction fuel generalizing c with
  | zero => rfl
  | succ fuel ih =>
    have turned : (machine S).turn c = c.turn := rfl
    unfold Config.run StackVM.run Machine.run
    rw [turned]
    unfold Config.turn Machine.proceed
    cases fetched : c.ctx.code[c.frame.pc]? with
    | none => rfl
    | some byte =>
      dsimp only
      cases charged : c.gas.charge (gasCost (opcode byte)) with
      | mk g paid =>
        cases paid with
        | error e => rfl
        | ok =>
          dsimp only
          cases decoded : opcode byte with
          | none => rfl
          | some op =>
            dsimp only
            cases executed : exec c.ctx c.frame c.scope op with
            | error e => rfl
            | ok step =>
              cases step with
              | halt ret => rfl
              | next f sc => exact ih {c with gas := g, scope := sc, frame := f}
              | call args f =>
                dsimp only [Config.opCall]
                by_cases deep : c.depth + 1 > maxCallDepth
                · rw [if_pos deep,if_pos deep]
                  cases pushZero f with
                  | error e => rfl
                  | ok f => exact ih ⟨g,c.scope,c.depth,c.ctx,f⟩
                · rw [if_neg deep,if_neg deep]
                  cases memRange f.mem args.argsOff args.argsSize with
                  | error e => rfl
                  | ok range =>
                    obtain ⟨i,n,mem⟩ := range
                    dsimp only
                    cases c.scope.child.transfer c.ctx.self args.to' args.value with
                    | error e =>
                      dsimp only
                      cases pushZero ⟨f.pc,f.stack,mem⟩ with
                      | error e => rfl
                      | ok f => exact ih ⟨g,c.scope,c.depth,c.ctx,f⟩
                    | ok inner =>
                      dsimp only
                      rw [← ih]
                      dsimp only [Config.run,calleeOf]
                      generalize StackVM.run fuel g inner (c.depth + 1) _ _ = result
                      obtain ⟨g',r⟩ := result
                      cases r with
                      | ok done =>
                        obtain ⟨ret,inner'⟩ := done
                        show _ = Onward.follow _ (Config.goesOn _ (callReturn args ⟨f.pc,f.stack,mem⟩ ret))
                        dsimp only
                        cases callReturn args ⟨f.pc,f.stack,mem⟩ ret with
                        | error e => rfl
                        | ok f => exact ih ⟨g',inner'.commit,c.depth,c.ctx,f⟩
                      | error e =>
                        cases e with
                        | outOfGas | outOfFuel => rfl
                        | _ =>
                          show _ = Onward.follow _ (Config.goesOn _ (pushZero ⟨f.pc,f.stack,mem⟩))
                          dsimp only
                          cases pushZero ⟨f.pc,f.stack,mem⟩ with
                          | error e => rfl
                          | ok f => exact ih ⟨g',c.scope,c.depth,c.ctx,f⟩

structure Config.Fetches (c : Config S) (op : Op) (g : GasMeter) : Prop where
  fetched : ∃ byte, c.ctx.code[c.frame.pc]? = some byte ∧ opcode byte = some op
  paid : c.gas.charge (gasCost (some op)) = (g,.ok ())

omit [StateDB S] in
theorem fetchedOp {c : Config S} {op : Op} {g : GasMeter} (fetches : c.Fetches op g) :
    c.ctx.code[c.frame.pc]?.bind opcode = some op := by
  obtain ⟨byte,fetched,decoded⟩ := fetches.fetched
  rw [fetched]
  exact decoded

/- A CALL is refused beyond the depth limit, before its memory is looked at, or for
want of funds, after the memory has grown. -/
def Config.Refused (c : Config S) (args : CallArgs) (mem : Bytes) : Prop :=
  c.depth + 1 > maxCallDepth ∧ mem = c.frame.mem ∨
  c.depth + 1 ≤ maxCallDepth ∧ (∃ i n, memRange c.frame.mem args.argsOff args.argsSize = .ok (i,n,mem)) ∧
    ∃ e, c.scope.child.transfer c.ctx.self args.to' args.value = .error e

inductive Config.Turned (c : Config S) : VmTurn S → Prop
  | stops (past : c.ctx.code[c.frame.pc]? = none) : c.Turned (.on (.ends (c.gas,.ok ([],c.scope))))
  | starves {byte : UInt8} {g : GasMeter} {e : VmErr} (fetched : c.ctx.code[c.frame.pc]? = some byte)
      (short : c.gas.charge (gasCost (opcode byte)) = (g,.error e)) : c.Turned (.on (.ends (g,.error e)))
  | invalid {byte : UInt8} {g : GasMeter} (fetched : c.ctx.code[c.frame.pc]? = some byte) (unknown : opcode byte = none)
      (paid : c.gas.charge (gasCost none) = (g,.ok ())) : c.Turned (.on (.ends (g,.error .invalidOpcode)))
  | fails {op : Op} {g : GasMeter} {e : VmErr} (fetches : c.Fetches op g)
      (failed : exec c.ctx c.frame c.scope op = .error e) : c.Turned (.on (.ends (g,.error e)))
  | halts {op : Op} {g : GasMeter} {ret : Bytes} (fetches : c.Fetches op g)
      (done : exec c.ctx c.frame c.scope op = .ok (.halt ret)) : c.Turned (.on (.ends (g,.ok (ret,c.scope))))
  | next {op : Op} {g : GasMeter} {f : Frame} {sc : Scope S} (fetches : c.Fetches op g)
      (done : exec c.ctx c.frame c.scope op = .ok (.next f sc)) : c.Turned (.on (.goes ⟨g,sc,c.depth,c.ctx,f⟩))
  | refuses {g : GasMeter} {args : CallArgs} {st : List Int} {mem : Bytes} (fetches : c.Fetches .call g)
      (popped : popCallArgs c.frame.stack = .ok (args,st))
      (refused : c.Refused args mem) :
      c.Turned (.on (Config.goesOn ⟨g,c.scope,c.depth,c.ctx,⟨c.frame.pc,st,mem⟩⟩ (pushZero ⟨c.frame.pc,st,mem⟩)))
  | overruns {g : GasMeter} {args : CallArgs} {st : List Int} {e : VmErr} (fetches : c.Fetches .call g)
      (popped : popCallArgs c.frame.stack = .ok (args,st)) (shallow : c.depth + 1 ≤ maxCallDepth)
      (range : memRange c.frame.mem args.argsOff args.argsSize = .error e) : c.Turned (.on (.ends (g,.error e)))
  | calls {g : GasMeter} {args : CallArgs} {st : List Int} {i n : ℕ} {mem : Bytes} {inner : Scope S}
      (fetches : c.Fetches .call g) (popped : popCallArgs c.frame.stack = .ok (args,st))
      (shallow : c.depth + 1 ≤ maxCallDepth) (range : memRange c.frame.mem args.argsOff args.argsSize = .ok (i,n,mem))
      (moved : c.scope.child.transfer c.ctx.self args.to' args.value = .ok inner) :
      c.Turned (.calls
        (calleeOf ⟨g,c.scope,c.depth,c.ctx,⟨c.frame.pc,st,mem⟩⟩ args inner ((mem.drop i).take n))
        ⟨⟨g,c.scope,c.depth,c.ctx,⟨c.frame.pc,st,mem⟩⟩,args⟩)

theorem execCall {ctx : Context} {f f' : Frame} {sc : Scope S} {op : Op} {args : CallArgs}
    (ok : exec ctx f sc op = .ok (.call args f')) :
    op = .call ∧ ∃ st, popCallArgs f.stack = .ok (args,st) ∧ f' = ⟨f.pc,st,f.mem⟩ := by
  cases op <;> simp only [exec,binary,next,Runs.bindOk,Prod.exists,Except.ok.injEq,reduceCtorEq] at ok
  case dup1 => split at ok <;> simp [Runs.bindOk] at ok
  case jumpi =>
    obtain ⟨_,_,_,_,_,_,ok⟩ := ok
    split at ok <;> simp [Runs.bindOk] at ok
  case call =>
    obtain ⟨args',st,popped,same⟩ := ok
    cases same
    exact ⟨rfl,st,popped,rfl⟩
  all_goals simp at ok

theorem turned (c : Config S) : c.Turned c.turn := by
  unfold Config.turn
  cases fetched : c.ctx.code[c.frame.pc]? with
  | none => exact .stops fetched
  | some byte =>
    dsimp only
    cases charged : c.gas.charge (gasCost (opcode byte)) with
    | mk g paid =>
      cases paid with
      | error e => exact .starves fetched charged
      | ok =>
        dsimp only
        cases decoded : opcode byte with
        | none => exact .invalid fetched decoded (decoded ▸ charged)
        | some op =>
          have fetches : c.Fetches op g := ⟨⟨byte,fetched,decoded⟩,decoded ▸ charged⟩
          dsimp only
          cases executed : exec c.ctx c.frame c.scope op with
          | error e => exact .fails fetches executed
          | ok step =>
            cases step with
            | halt ret => exact .halts fetches executed
            | next f sc => exact .next fetches executed
            | call args f =>
              obtain ⟨rfl,st,popped,rfl⟩ := execCall executed
              dsimp only [Config.opCall]
              by_cases deep : c.depth + 1 > maxCallDepth
              · rw [if_pos deep]
                exact .refuses fetches popped (.inl ⟨deep,rfl⟩)
              · rw [if_neg deep]
                cases range : memRange c.frame.mem args.argsOff args.argsSize with
                | error e => exact .overruns fetches popped (not_lt.mp deep) range
                | ok found =>
                  obtain ⟨i,n,mem⟩ := found
                  dsimp only
                  cases moved : c.scope.child.transfer c.ctx.self args.to' args.value with
                  | error e => exact .refuses fetches popped (.inr ⟨not_lt.mp deep,⟨i,n,range⟩,e,moved⟩)
                  | ok inner => exact .calls fetches popped (not_lt.mp deep) range moved

theorem callReturnOk {args : CallArgs} {f f' : Frame} {ret : Bytes} (ok : callReturn args f ret = .ok f') :
    ∃ st mem, push f.stack 1 = .ok st ∧ f' = ⟨f.pc + 1,st,mem⟩ := by
  unfold callReturn at ok
  split at ok
  · split at ok
    · cases ok
    · split at ok
      all_goals
        simp only [Runs.bindOk] at ok
        obtain ⟨mem,_,st,pushed,same⟩ := ok
        cases same
        exact ⟨st,mem,pushed,rfl⟩
  · cases ok

theorem pushZeroOk {f f' : Frame} (ok : pushZero f = .ok f') :
    ∃ st, push f.stack 0 = .ok st ∧ f' = ⟨f.pc + 1,st,f.mem⟩ := by
  simp only [pushZero,Runs.bindOk] at ok
  obtain ⟨st,pushed,same⟩ := ok
  cases same
  exact ⟨st,pushed,rfl⟩

inductive Pending.Resumed (p : Pending S) : RunResult S → VmOnward S → Prop
  | aborts {g : GasMeter} {e : VmErr} (fatal : e = .outOfGas ∨ e = .outOfFuel) : p.Resumed (g,.error e) (.ends (g,.error e))
  | recovers {g : GasMeter} {e : VmErr} (mild : e ≠ .outOfGas ∧ e ≠ .outOfFuel) :
      p.Resumed (g,.error e) (Config.goesOn {p.caller with gas := g} (pushZero p.caller.frame))
  | returns {g : GasMeter} {ret : Bytes} {inner : Scope S} : p.Resumed (g,.ok (ret,inner))
      (Config.goesOn {p.caller with gas := g, scope := inner.commit} (callReturn p.args p.caller.frame ret))

omit [StateDB S] in
theorem resumed (p : Pending S) (r : RunResult S) : p.Resumed r (p.resume r) := by
  obtain ⟨g,r⟩ := r
  cases r with
  | ok done => exact .returns
  | error e =>
    cases e with
    | outOfGas => exact .aborts (.inl rfl)
    | outOfFuel => exact .aborts (.inr rfl)
    | _ => exact .recovers ⟨by simp,by simp⟩

def GasMeter.remaining (g : GasMeter) : ℕ := g.limit.toNat - g.used.toNat

theorem chargePays {g g' : GasMeter} {cost : UInt64} (paid : g.charge cost = (g',.ok ())) :
    g'.limit = g.limit ∧ g'.used ≤ g.limit ∧ g'.used.toNat = g.used.toNat + cost.toNat := by
  unfold GasMeter.charge at paid
  split at paid
  · cases paid
  · rename_i room
    cases paid
    have within : ¬g.used + cost > g.limit := fun beyond => room (.inl beyond)
    have unwrapped : ¬g.used + cost < g.used := fun wraps => room (.inr wraps)
    refine ⟨rfl,UInt64.not_lt.mp within,?_⟩
    rw [UInt64.lt_iff_toNat_lt,UInt64.toNat_add] at unwrapped
    rw [UInt64.toNat_add]
    have := g.used.toNat_lt
    have := cost.toNat_lt
    omega

theorem chargeShort {g g' : GasMeter} {cost : UInt64} {e : VmErr} (short : g.charge cost = (g',.error e)) :
    g' = ⟨g.limit,g.limit⟩ ∧ e = .outOfGas := by
  unfold GasMeter.charge at short
  split at short
  · cases short
    exact ⟨rfl,rfl⟩
  · cases short

theorem gasCostPos {op : Op} (goes : op ≠ .stop ∧ op ≠ .ret) : 0 < (gasCost (some op)).toNat := by
  cases op with
  | stop => exact absurd rfl goes.1
  | ret => exact absurd rfl goes.2
  | _ => simp [gasCost,gasCall]

theorem execGoes {ctx : Context} {f f' : Frame} {sc sc' : Scope S} {op : Op}
    (ok : exec ctx f sc op = .ok (.next f' sc')) : op ≠ .stop ∧ op ≠ .ret := by
  constructor
  · rintro rfl
    cases ok
  · rintro rfl
    simp [exec,Runs.bindOk] at ok

omit [StateDB S] in
theorem goesOnEnds {c : Config S} {o : Except VmErr Frame} {r : RunResult S} (ends : c.goesOn o = .ends r) :
    ∃ e, o = .error e ∧ r = (c.gas,.error e) := by
  cases o with
  | error e => exact ⟨e,rfl,(Onward.ends.inj ends).symm⟩
  | ok f => cases ends

omit [StateDB S] in
theorem goesOnGoes {c c' : Config S} {o : Except VmErr Frame} (goes : c.goesOn o = .goes c') :
    ∃ f, o = .ok f ∧ c' = {c with frame := f} := by
  cases o with
  | error e => cases goes
  | ok f => exact ⟨f,rfl,(Onward.goes.inj goes).symm⟩

omit [StateDB S] in
theorem fetchSpends {c : Config S} {op : Op} {g : GasMeter} (fetches : c.Fetches op g) :
    g.limit = c.gas.limit ∧ c.gas.used ≤ g.used ∧ g.used ≤ g.limit ∧
      (op ≠ .stop ∧ op ≠ .ret → g.remaining < c.gas.remaining) := by
  obtain ⟨limit,within,used⟩ := chargePays fetches.paid
  refine ⟨limit,?_,limit ▸ within,fun goes => ?_⟩
  · rw [UInt64.le_iff_toNat_le]
    omega
  · have pos := gasCostPos goes
    rw [UInt64.le_iff_toNat_le] at within
    rw [GasMeter.remaining,GasMeter.remaining,limit]
    omega

structure Metered (g g' : GasMeter) : Prop where
  limit : g'.limit = g.limit
  rises : g.used ≤ g'.used
  within : g'.used ≤ g'.limit

theorem chargeMetered {g g' : GasMeter} {cost : UInt64} {paid : Except VmErr Unit} (charged : g.charge cost = (g',paid)) :
    g'.remaining ≤ g.remaining ∧ (g.used ≤ g.limit → Metered g g') := by
  cases paid with
  | error e =>
    rw [(chargeShort charged).1]
    refine ⟨?_,fun within => ⟨rfl,within,UInt64.le_refl _⟩⟩
    rw [GasMeter.remaining,Nat.sub_self]
    exact Nat.zero_le _
  | ok =>
    obtain ⟨limit,within,used⟩ := chargePays charged
    refine ⟨?_,fun _ => ⟨limit,?_,limit ▸ within⟩⟩
    · rw [GasMeter.remaining,GasMeter.remaining,limit]
      omega
    · rw [UInt64.le_iff_toNat_le]
      omega

theorem Metered.trans {g g' g'' : GasMeter} (first : Metered g g') (second : Metered g' g'') : Metered g g'' :=
  ⟨second.limit.trans first.limit,UInt64.le_trans first.rises second.rises,second.within⟩

theorem Metered.refl {g : GasMeter} (within : g.used ≤ g.limit) : Metered g g := ⟨rfl,UInt64.le_refl _,within⟩

omit [StateDB S] in
theorem Config.Fetches.metered {c : Config S} {op : Op} {g : GasMeter} (fetches : c.Fetches op g) : Metered c.gas g :=
  have spends := fetchSpends fetches
  ⟨spends.1,spends.2.1,spends.2.2.1⟩

theorem turnEnds {c : Config S} {r : RunResult S} (turn : c.turn = .on (.ends r)) :
    r.1 = c.gas ∨ ∃ cost paid, c.gas.charge cost = (r.1,paid) := by
  have made := turned c
  generalize c.turn = t at made turn
  cases made with
  | stops =>
    cases turn
    exact .inl rfl
  | starves _ paid | invalid _ _ paid =>
    cases turn
    exact .inr ⟨_,_,paid⟩
  | fails fetches | halts fetches | overruns fetches =>
    cases turn
    exact .inr ⟨_,_,fetches.paid⟩
  | next | calls => cases turn
  | refuses fetches =>
    obtain ⟨e,_,rfl⟩ := goesOnEnds (Turn.on.inj turn)
    exact .inr ⟨_,_,fetches.paid⟩

theorem goesCases {c c' : Config S} (turn : c.turn = .on (.goes c')) :
    (∃ op g f sc, c.Fetches op g ∧ exec c.ctx c.frame c.scope op = .ok (.next f sc) ∧ c' = ⟨g,sc,c.depth,c.ctx,f⟩) ∨
    ∃ g args st mem f, c.Fetches .call g ∧ popCallArgs c.frame.stack = .ok (args,st) ∧ c.Refused args mem ∧
      pushZero ⟨c.frame.pc,st,mem⟩ = .ok f ∧ c' = ⟨g,c.scope,c.depth,c.ctx,f⟩ := by
  have made := turned c
  generalize c.turn = t at made turn
  cases made with
  | stops | starves | invalid | fails | halts | overruns | calls => cases turn
  | next fetches done =>
    cases turn
    exact .inl ⟨_,_,_,_,fetches,done,rfl⟩
  | refuses fetches popped refused =>
    obtain ⟨f,pushed,rfl⟩ := goesOnGoes (Turn.on.inj turn)
    exact .inr ⟨_,_,_,_,f,fetches,popped,refused,pushed,rfl⟩

theorem callsCases {c callee : Config S} {p : Pending S} (turn : c.turn = .calls callee p) :
    ∃ g args st i n mem inner, c.Fetches .call g ∧ popCallArgs c.frame.stack = .ok (args,st) ∧
      c.depth + 1 ≤ maxCallDepth ∧ memRange c.frame.mem args.argsOff args.argsSize = .ok (i,n,mem) ∧
      c.scope.child.transfer c.ctx.self args.to' args.value = .ok inner ∧
      p = ⟨⟨g,c.scope,c.depth,c.ctx,⟨c.frame.pc,st,mem⟩⟩,args⟩ ∧
      callee = calleeOf p.caller args inner ((mem.drop i).take n) := by
  have made := turned c
  generalize c.turn = t at made turn
  cases made with
  | stops | starves | invalid | fails | halts | overruns | next | refuses => cases turn
  | calls fetches popped shallow range moved =>
    cases turn
    exact ⟨_,_,_,_,_,_,_,fetches,popped,shallow,range,moved,rfl,rfl⟩

omit [StateDB S] in
theorem backCases {p : Pending S} {r : RunResult S} {c : Config S} (back : p.resume r = .goes c) :
    (∃ g e f, r = (g,.error e) ∧ pushZero p.caller.frame = .ok f ∧ c = {p.caller with gas := g, frame := f}) ∨
    ∃ g ret inner f, r = (g,.ok (ret,inner)) ∧ callReturn p.args p.caller.frame ret = .ok f ∧
      c = {p.caller with gas := g, scope := inner.commit, frame := f} := by
  have made := resumed p r
  generalize p.resume r = o at made back
  cases made with
  | aborts => cases back
  | recovers =>
    obtain ⟨f,pushed,rfl⟩ := goesOnGoes back
    exact .inl ⟨_,_,f,rfl,pushed,rfl⟩
  | returns =>
    obtain ⟨f,returned,rfl⟩ := goesOnGoes back
    exact .inr ⟨_,_,_,f,rfl,returned,rfl⟩

theorem turnGoes {c c' : Config S} (turn : c.turn = .on (.goes c')) :
    Metered c.gas c'.gas ∧ c'.gas.remaining < c.gas.remaining := by
  rcases goesCases turn with ⟨op,g,f,sc,fetches,done,rfl⟩ | ⟨g,args,st,mem,f,fetches,_,_,_,rfl⟩
  · exact ⟨fetches.metered,(fetchSpends fetches).2.2.2 (execGoes done)⟩
  · exact ⟨fetches.metered,(fetchSpends fetches).2.2.2 ⟨by simp,by simp⟩⟩

theorem turnCalls {c callee : Config S} {p : Pending S} (turn : c.turn = .calls callee p) :
    Metered c.gas callee.gas ∧ callee.gas.remaining < c.gas.remaining := by
  obtain ⟨g,args,st,i,n,mem,inner,fetches,_,_,_,_,rfl,rfl⟩ := callsCases turn
  exact ⟨fetches.metered,(fetchSpends fetches).2.2.2 ⟨by simp,by simp⟩⟩

omit [StateDB S] in
theorem resumeEnds {p : Pending S} {r r' : RunResult S} (back : p.resume r = .ends r') : r'.1 = r.1 := by
  have made := resumed p r
  generalize p.resume r = o at made back
  cases made with
  | aborts =>
    cases back
    rfl
  | recovers | returns =>
    obtain ⟨e,_,rfl⟩ := goesOnEnds back
    rfl

omit [StateDB S] in
theorem resumeGoes {p : Pending S} {r : RunResult S} {c : Config S} (back : p.resume r = .goes c) : c.gas = r.1 := by
  rcases backCases back with ⟨g,e,f,rfl,_,rfl⟩ | ⟨g,ret,inner,f,rfl,_,rfl⟩
  · rfl
  · rfl

theorem machineSpends : (machine S).Spends (fun c => c.gas.remaining) (fun r => r.1.remaining) where
  ends turn := by
    rcases turnEnds turn with same | ⟨cost,paid,charged⟩
    · exact (congrArg GasMeter.remaining same).le
    · exact (chargeMetered charged).1
  goes turn := (turnGoes turn).2
  calls turn := (turnCalls turn).2
  closes back := (congrArg GasMeter.remaining (resumeEnds back)).le
  back back := (congrArg GasMeter.remaining (resumeGoes back)).le

def interpreter (S : Type) [StateDB S] : Ranked (Config S) (Pending S) (RunResult S) :=
  {machine S with rank := fun c => c.gas.remaining, left := fun r => r.1.remaining, spent := Config.spent, spends := machineSpends}

abbrev Config.outcome (c : Config S) : RunResult S := (interpreter S).outcome c

theorem runOutcome {c : Config S} {fuel : ℕ} (enough : c.gas.remaining < fuel) : c.run fuel = c.outcome :=
  (runTurns c fuel).trans (@Ranked.runOutcome _ _ _ (interpreter S) c _ _ enough)

theorem outcomeGoes {c c' : Config S} (turn : c.turn = .on (.goes c')) : c.outcome = c'.outcome :=
  Ranked.outcomeGoes turn

theorem outcomeEnds {c : Config S} {r : RunResult S} (turn : c.turn = .on (.ends r)) : c.outcome = r :=
  Ranked.outcomeEnds turn

theorem meterContract (g : GasMeter) : (interpreter S).Contract (fun c => Metered g c.gas)
    (fun c r => Metered g r.1 ∧ Metered c.gas r.1) where
  ends := fun {c r} inv turn => by
    have own : Metered c.gas r.1 := by
      rcases turnEnds turn with same | ⟨cost,paid,charged⟩
      · rw [same]
        exact .refl inv.within
      · exact (chargeMetered charged).2 inv.within
    exact ⟨inv.trans own,own⟩
  goes inv turn := by
    have step := (turnGoes turn).1
    exact ⟨inv.trans step,fun r post => ⟨post.1,step.trans post.2⟩⟩
  calls inv turn := inv.trans (turnCalls turn).1
  closes inv turn post back := by
    have step := (turnCalls turn).1
    rw [resumeEnds back]
    exact ⟨post.1,step.trans post.2⟩
  back inv turn post back := by
    have step := (turnCalls turn).1
    rw [resumeGoes back]
    exact ⟨post.1,fun r rest => ⟨rest.1,(step.trans post.2).trans rest.2⟩⟩

def VmErr.Own (e : VmErr) : Prop := e ≠ .outOfGas ∧ e ≠ .outOfFuel

theorem pushFails {st : List Int} {v : Int} {e : VmErr} (failed : push st v = .error e) : e.Own := by
  unfold push at failed
  split at failed
  · cases failed
    exact ⟨by simp,by simp⟩
  · cases failed

theorem popFails {st : List Int} {e : VmErr} (failed : pop st = .error e) : e.Own := by
  cases st with
  | nil =>
    cases failed
    exact ⟨by simp,by simp⟩
  | cons v st => cases failed

theorem pop2Fails {st : List Int} {e : VmErr} (failed : pop2 st = .error e) : e.Own := by
  simp only [pop2,Runs.bindError,reduceCtorEq,and_false,exists_false,or_false] at failed
  rcases failed with first | ⟨_,_,second⟩
  · exact popFails first
  · exact popFails second

theorem memRangeFails {mem : Bytes} {off size : Int} {e : VmErr} (failed : memRange mem off size = .error e) : e.Own := by
  unfold memRange at failed
  split at failed
  · split at failed
    · cases failed
      exact ⟨by simp,by simp⟩
    · cases failed
  · cases failed
    exact ⟨by simp,by simp⟩

theorem memWindowFails {mem : Bytes} {off : Int} {e : VmErr} (failed : memWindow mem off = .error e) : e.Own := by
  unfold memWindow at failed
  split at failed
  · cases failed
    exact ⟨by simp,by simp⟩
  · split at failed
    · cases failed
      exact ⟨by simp,by simp⟩
    · cases failed

theorem jumpToFails {code : Bytes} {dest : Int} {e : VmErr} (failed : jumpTo code dest = .error e) : e.Own := by
  unfold jumpTo at failed
  split at failed
  · cases failed
    exact ⟨by simp,by simp⟩
  · split at failed
    · cases failed
    · cases failed
      exact ⟨by simp,by simp⟩

theorem popCallArgsFails {st : List Int} {e : VmErr} (failed : popCallArgs st = .error e) : e.Own := by
  simp only [popCallArgs,Runs.bindError,reduceCtorEq,and_false,exists_false,or_false] at failed
  grind [popFails]

theorem execFails {ctx : Context} {f : Frame} {sc : Scope S} {op : Op} {e : VmErr}
    (failed : exec ctx f sc op = .error e) : e.Own := by
  cases op <;> simp only [exec,binary,Runs.bindError,Prod.exists,reduceCtorEq,and_false,exists_false,or_false] at failed
  case dup1 =>
    split at failed
    · cases failed
      exact ⟨by simp,by simp⟩
    · simp only [Runs.bindError,reduceCtorEq,and_false,exists_false,or_false] at failed
      exact pushFails failed
  case jumpi =>
    rcases failed with first | ⟨_,_,_,failed⟩
    · exact popFails first
    rcases failed with second | ⟨_,_,_,failed⟩
    · exact popFails second
    split at failed
    · simp only [Runs.bindError,reduceCtorEq,and_false,exists_false,or_false] at failed
      exact jumpToFails failed
    · cases failed
  case swap1 =>
    unfold swap1 at failed
    split at failed
    · cases failed
    · cases failed
      exact ⟨by simp,by simp⟩
  all_goals grind [pushFails,popFails,pop2Fails,memRangeFails,memWindowFails,jumpToFails,popCallArgsFails]

theorem pushZeroFails {f : Frame} {e : VmErr} (failed : pushZero f = .error e) : e.Own := by
  simp only [pushZero,Runs.bindError,reduceCtorEq,and_false,exists_false,or_false] at failed
  exact pushFails failed

theorem callReturnFails {args : CallArgs} {f : Frame} {ret : Bytes} {e : VmErr}
    (failed : callReturn args f ret = .error e) : e.Own := by
  unfold callReturn at failed
  split at failed
  · split at failed
    · cases failed
      exact ⟨by simp,by simp⟩
    · split at failed
      all_goals
        simp only [Runs.bindError,reduceCtorEq,and_false,exists_false,or_false,false_or,Except.ok.injEq] at failed
        obtain ⟨_,_,full⟩ := failed
        exact pushFails full
  · cases failed
    exact ⟨by simp,by simp⟩

theorem errorContract : (interpreter S).Contract (fun _ => True) (fun _ r => r.2 ≠ .error .outOfFuel) where
  ends := fun {c r} _ turn => by
    have made := turned c
    replace turn : c.turn = .on (.ends r) := turn
    generalize c.turn = t at made turn
    cases made with
    | stops | halts =>
      cases turn
      simp
    | starves _ short =>
      cases turn
      rw [(chargeShort short).2]
      simp
    | invalid =>
      cases turn
      simp
    | fails _ failed =>
      cases turn
      exact fun cut => (execFails failed).2 (Except.error.inj cut)
    | overruns _ _ _ range =>
      cases turn
      exact fun cut => (memRangeFails range).2 (Except.error.inj cut)
    | next | calls => cases turn
    | refuses =>
      obtain ⟨e,full,rfl⟩ := goesOnEnds (Turn.on.inj turn)
      exact fun cut => (pushZeroFails full).2 (Except.error.inj cut)
  goes _ _ := ⟨trivial,fun _ post => post⟩
  calls _ _ := trivial
  closes := fun {c callee p r r'} _ _ post back => by
    have made := resumed p r
    replace back : p.resume r = .ends r' := back
    generalize p.resume r = o at made back
    cases made with
    | aborts =>
      cases back
      exact post
    | recovers =>
      obtain ⟨e,full,rfl⟩ := goesOnEnds back
      exact fun cut => (pushZeroFails full).2 (Except.error.inj cut)
    | returns =>
      obtain ⟨e,beyond,rfl⟩ := goesOnEnds back
      exact fun cut => (callReturnFails beyond).2 (Except.error.inj cut)
  back _ _ _ _ := ⟨trivial,fun _ post => post⟩

theorem starvedUp {c d : Config S} (reached : (interpreter S).Reaches c d) (starved : d.outcome.2 = .error .outOfGas) :
    c.outcome.2 = .error .outOfGas := by
  induction reached with
  | here => exact starved
  | goes turn _ ih => exact (congrArg Prod.snd (Ranked.outcomeGoes turn)).trans (ih starved)
  | @enters c callee d p turn _ ih =>
    have called := ih starved
    rw [Config.outcome,Ranked.outcomeCalls turn]
    cases result : (interpreter S).outcome callee with
    | mk g r =>
      rw [Config.outcome,result] at called
      subst called
      rfl
  | resumes turn back _ ih =>
    rw [Config.outcome,Ranked.outcomeCalls turn,back]
    exact ih starved

def entry (st : S) (msg : Message) : Option (Config S) :=
  match msg.to' with
  | none => none
  | some self =>
    match (Scope.new st).transfer msg.sender self msg.value with
    | .error _ => none
    | .ok root => some ⟨⟨msg.gasLimit,0⟩,root,0,⟨root.getCode self,self,msg.value,msg.data⟩,⟨0,[],[]⟩⟩

def Visits (st : S) (msg : Message) (c : Config S) : Prop :=
  ∃ root, entry st msg = some root ∧ (interpreter S).Reaches root c

def Config.settle (root : Config S) (st : S) : Receipt × S :=
  match root.outcome with
  | (g,.error e) => (failed (finalGas g e) e,st)
  | (g,.ok (ret,sc)) => (⟨g.used,true,ret,none,none⟩,sc.flush)

theorem entryGas {st : S} {msg : Message} {root : Config S} (entered : entry st msg = some root) :
    root.gas = ⟨msg.gasLimit,0⟩ := by
  unfold entry at entered
  split at entered
  · cases entered
  · split at entered <;> cases entered
    rfl

theorem executeEntered (sha : Bytes → Hash) {st : S} {msg : Message} {root : Config S}
    (entered : entry st msg = some root) : execute sha st msg = root.settle st := by
  have fuel : root.run (fuelFor msg.gasLimit) = root.outcome := by
    refine runOutcome ?_
    rw [entryGas entered,GasMeter.remaining,fuelFor]
    simp
  unfold entry at entered
  unfold execute
  cases target : msg.to' with
  | none => simp [target] at entered
  | some self =>
    rw [target] at entered
    dsimp only at entered ⊢
    cases moved : (Scope.new st).transfer msg.sender self msg.value with
    | error e => simp [moved] at entered
    | ok sc =>
      rw [moved] at entered
      dsimp only at entered ⊢
      obtain rfl := Option.some.inj entered
      rw [Config.settle,← fuel]
      rfl

theorem transferFails {sc : Scope S} {a b : Address} {v : UInt64} {e : VmErr} (failed : sc.transfer a b v = .error e) :
    e = .insufficientFunds := by
  unfold Scope.transfer at failed
  split at failed
  · cases failed
  · dsimp only at failed
    split at failed
    · cases failed
      rfl
    · cases failed

theorem executeOther (sha : Bytes → Hash) {st : S} {msg : Message} (frameless : entry st msg = none) :
    execute sha st msg = create sha ⟨msg.gasLimit,0⟩ st msg ∧ msg.to' = none ∨
    execute sha st msg = (failed 0 .insufficientFunds,st) := by
  unfold entry at frameless
  unfold execute
  cases target : msg.to' with
  | none => exact .inl ⟨rfl,rfl⟩
  | some self =>
    rw [target] at frameless
    dsimp only at frameless ⊢
    cases moved : (Scope.new st).transfer msg.sender self msg.value with
    | error e => exact .inr (by rw [transferFails moved])
    | ok sc => simp [moved] at frameless

theorem createBounds (sha : Bytes → Hash) (st : S) (msg : Message) :
    (create sha ⟨msg.gasLimit,0⟩ st msg).1.gasUsed ≤ msg.gasLimit ∧
    (create sha ⟨msg.gasLimit,0⟩ st msg).1.err ≠ some .outOfFuel ∧
    ((create sha ⟨msg.gasLimit,0⟩ st msg).1.err = some .outOfGas →
      (create sha ⟨msg.gasLimit,0⟩ st msg).1.gasUsed = msg.gasLimit ∧ (create sha ⟨msg.gasLimit,0⟩ st msg).2 = st) := by
  unfold create
  cases charged : (⟨msg.gasLimit,0⟩ : GasMeter).charge gasCreate with
  | mk g paid =>
    cases paid with
    | error e =>
      have limit := (chargeBounds charged).1
      exact ⟨le_of_eq_of_le limit (UInt64.le_refl _),by simp [failed],fun _ => ⟨limit,rfl⟩⟩
    | ok =>
      obtain ⟨limit,within,_⟩ := chargePays charged
      dsimp only
      cases moved : (Scope.new st).transfer msg.sender (createAddress sha msg.sender msg.nonce) msg.value with
      | error e =>
        rw [transferFails moved]
        exact ⟨within,by simp [failed],by simp [failed]⟩
      | ok root => exact ⟨within,by simp,by simp⟩

/- A message's frames terminate, by the gas that remains, and `run` never runs out of
fuel; its meter only rises and stays within the limit; and out of gas, in whatever
frame, takes the whole limit and commits nothing. -/
theorem executionWithinGas (sha : Bytes → Hash) (st : S) (msg : Message) :
    (machine S).Spends (fun c => c.gas.remaining) (fun r => r.1.remaining) ∧
    (∀ (c : Config S) (fuel : ℕ), c.gas.remaining < fuel →
      c.run fuel = c.outcome ∧ c.outcome.2 ≠ .error .outOfFuel ∧
      c.outcome = (machine S).proceed Config.outcome c.turn) ∧
    (∀ c d : Config S, Visits st msg c → (interpreter S).Reaches c d →
      c.gas.used ≤ d.gas.used ∧ d.gas.used ≤ msg.gasLimit) ∧
    (execute sha st msg).1.err ≠ some .outOfFuel ∧
    (execute sha st msg).1.gasUsed ≤ msg.gasLimit ∧
    (∀ c, Visits st msg c → c.outcome.2 = .error .outOfGas → (execute sha st msg).1.err = some .outOfGas) ∧
    ((execute sha st msg).1.err = some .outOfGas →
      (execute sha st msg).1.gasUsed = msg.gasLimit ∧ (execute sha st msg).2 = st) := by
  have total : ∀ c : Config S, c.outcome.2 ≠ .error .outOfFuel := fun c => errorContract.outcome trivial
  refine ⟨machineSpends,fun c fuel enough => ⟨runOutcome enough,total c,(interpreter S).outcomeEq c⟩,?_,?_⟩
  · intro c d ⟨root,entered,before⟩ after
    have zero : Metered (⟨msg.gasLimit,0⟩ : GasMeter) root.gas := by
      rw [entryGas entered]
      exact .refl UInt64.zero_le
    have first := (meterContract _).reached zero before
    have second := (meterContract c.gas).reached (.refl first.within) after
    exact ⟨second.rises,le_of_le_of_eq second.within (second.limit.trans first.limit)⟩
  · cases entered : entry st msg with
    | none =>
      have unvisited : ∀ c, ¬Visits st msg c := fun c ⟨root,found,_⟩ => nomatch entered.symm.trans found
      rcases executeOther sha entered with ⟨creates,_⟩ | poor
      · rw [creates]
        obtain ⟨bound,fuel,starved⟩ := createBounds sha st msg
        exact ⟨fuel,bound,fun c visited => absurd visited (unvisited c),starved⟩
      · rw [poor]
        exact ⟨by simp [failed],UInt64.zero_le,fun c visited => absurd visited (unvisited c),by simp [failed]⟩
    | some root =>
      have metered := ((meterContract ⟨msg.gasLimit,0⟩).outcome (c := root)
        (by rw [entryGas entered]; exact .refl UInt64.zero_le)).1
      have fuel := total root
      rw [executeEntered sha entered,Config.settle]
      have up : ∀ c, Visits st msg c → c.outcome.2 = .error .outOfGas → root.outcome.2 = .error .outOfGas := by
        intro c ⟨root',found,reached⟩ starved
        obtain rfl := Option.some.inj (entered.symm.trans found)
        exact starvedUp reached starved
      cases result : root.outcome with
      | mk g r =>
        rw [result] at fuel up
        rw [Config.outcome] at result
        rw [result] at metered
        cases r with
        | error e =>
          have bound : finalGas g e ≤ (⟨msg.gasLimit,0⟩ : GasMeter).limit := finalGasBound metered.limit metered.within e
          refine ⟨fun cut => fuel (congrArg Except.error (Option.some.inj cut)),bound,?_,?_⟩
          · intro c visited starved
            exact congrArg some (Except.error.inj (up c visited starved))
          · intro starved
            obtain rfl : e = .outOfGas := Option.some.inj starved
            exact ⟨metered.limit,rfl⟩
        | ok done =>
          obtain ⟨ret,sc⟩ := done
          refine ⟨by simp,le_of_le_of_eq metered.within metered.limit,?_,by simp⟩
          intro c visited starved
          exact nomatch up c visited starved

end
end L1Chain.StackVM
