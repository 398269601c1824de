import L1Chain.StackVMTurns

/-! The gas limit of a message is a cut and nothing else. No instruction reads the meter,
and a CALL hands on all of it; so the run of a message at a lower limit is its run at a
higher one, frame by frame and turn by turn, up to the first charge that does not fit. -/
namespace L1Chain.StackVM
open Calls

section
variable {S : Type} {L : UInt64}

def Config.curb (L : UInt64) (c : Config S) : Config S := {c with gas := ⟨L,c.gas.used⟩}

def Pending.curb (L : UInt64) (p : Pending S) : Pending S := {p with caller := p.caller.curb L}

def starved (L : UInt64) : RunResult S := (⟨L,L⟩,.error .outOfGas)

def curbOnward (L : UInt64) : VmOnward S → VmOnward S
  | .ends r => .ends (⟨L,r.1.used⟩,r.2)
  | .goes c => .goes (c.curb L)

def curbTurn (L : UInt64) : VmTurn S → VmTurn S
  | .on o => .on (curbOnward L o)
  | .calls callee p => .calls (callee.curb L) (p.curb L)

def meterAfter : VmTurn S → UInt64
  | .on (.ends r) => r.1.used
  | .on (.goes c) => c.gas.used
  | .calls callee _ => callee.gas.used

def curbed (L : UInt64) : RunResult S → RunResult S
  | (_,.error .outOfGas) => starved L
  | (g,r) => if L < g.used then starved L else (⟨L,g.used⟩,r)

theorem curbedOver {r : RunResult S} (over' : L < r.1.used) : curbed L r = starved L := by
  unfold curbed
  split
  · rfl
  · exact if_pos over'

theorem curbedWithin {r : RunResult S} (within : r.1.used ≤ L) (fed : r.2 ≠ .error .outOfGas) :
    curbed L r = (⟨L,r.1.used⟩,r.2) := by
  unfold curbed
  split
  · exact absurd rfl fed
  · exact if_neg (UInt64.not_lt.mpr within)

theorem chargeCurbed {g g' : GasMeter} {cost : UInt64} (paid : g.charge cost = (g',.ok ())) (fits : g'.used ≤ L) :
    (⟨L,g.used⟩ : GasMeter).charge cost = (⟨L,g'.used⟩,.ok ()) := by
  unfold GasMeter.charge at paid ⊢
  split at paid
  · cases paid
  · rename_i room
    cases paid
    refine if_neg fun short => room (.inr (short.resolve_left ?_))
    exact UInt64.not_lt.mpr fits

theorem chargeCut {g g' : GasMeter} {cost : UInt64} {paid : Except VmErr Unit} (below : L ≤ g.limit)
    (charged : g.charge cost = (g',paid)) (cut : paid = .error .outOfGas ∨ L < g'.used) :
    (⟨L,g.used⟩ : GasMeter).charge cost = (⟨L,L⟩,.error .outOfGas) := by
  unfold GasMeter.charge at charged ⊢
  refine if_pos ?_
  split at charged
  · rename_i short
    exact short.imp_left fun beyond => UInt64.lt_of_le_of_lt below beyond
  · cases charged
    exact .inl (cut.resolve_left (by simp))

end

section
variable {S : Type} [StateDB S] {L : UInt64}

def Config.perform (c : Config S) (g : GasMeter) (byte : UInt8) : VmTurn S :=
  match opcode byte with
  | none => .on (.ends (g,.error .invalidOpcode))
  | some op =>
    match exec c.ctx c.frame c.scope op with
    | .error e => .on (.ends (g,.error e))
    | .ok (.halt ret) => .on (.ends (g,.ok (ret,c.scope)))
    | .ok (.next f sc) => .on (.goes {c with gas := g, scope := sc, frame := f})
    | .ok (.call args f) => Config.opCall {c with gas := g, frame := f} args

theorem turnPaid {c : Config S} {g : GasMeter} {byte : UInt8} (fetched : c.ctx.code[c.frame.pc]? = some byte)
    (paid : c.gas.charge (gasCost (opcode byte)) = (g,.ok ())) : c.turn = c.perform g byte := by
  unfold Config.turn
  rw [fetched]
  dsimp only
  rw [paid]
  rfl

theorem turnShort {c : Config S} {g : GasMeter} {e : VmErr} {byte : UInt8} (fetched : c.ctx.code[c.frame.pc]? = some byte)
    (short : c.gas.charge (gasCost (opcode byte)) = (g,.error e)) : c.turn = .on (.ends (g,.error e)) := by
  unfold Config.turn
  rw [fetched]
  dsimp only
  rw [short]

theorem turnPast {c : Config S} (past : c.ctx.code[c.frame.pc]? = none) :
    c.turn = .on (.ends (c.gas,.ok ([],c.scope))) := by
  unfold Config.turn
  rw [past]

omit [StateDB S] in
theorem goesOnCurbed (c : Config S) (o : Except VmErr Frame) :
    (c.curb L).goesOn o = curbOnward L (c.goesOn o) := by
  cases o with
  | error e => rfl
  | ok f => rfl

omit [StateDB S] in
theorem goesOnMeter (c : Config S) (o : Except VmErr Frame) : meterAfter (.on (c.goesOn o)) = c.gas.used := by
  cases o with
  | error e => rfl
  | ok f => rfl

theorem opCallCurbed (c : Config S) (args : CallArgs) :
    (c.curb L).opCall args = curbTurn L (c.opCall args) ∧ meterAfter (c.opCall args) = c.gas.used := by
  unfold Config.opCall
  by_cases deep : c.depth + 1 > maxCallDepth
  · rw [if_pos deep,if_pos (show (c.curb L).depth + 1 > maxCallDepth from deep)]
    exact ⟨congrArg Turn.on (goesOnCurbed c _),goesOnMeter c _⟩
  · rw [if_neg deep,if_neg (show ¬(c.curb L).depth + 1 > maxCallDepth from deep)]
    dsimp only [Config.curb]
    cases memRange c.frame.mem args.argsOff args.argsSize with
    | error e => exact ⟨rfl,rfl⟩
    | ok range =>
      obtain ⟨i,n,mem⟩ := range
      dsimp only
      cases c.scope.child.transfer c.ctx.self args.to' args.value with
      | error e => exact ⟨congrArg Turn.on (goesOnCurbed ⟨c.gas,c.scope,c.depth,c.ctx,_⟩ _),goesOnMeter _ _⟩
      | ok inner => exact ⟨rfl,rfl⟩

theorem performCurbed (c : Config S) (g : GasMeter) (byte : UInt8) :
    (c.curb L).perform ⟨L,g.used⟩ byte = curbTurn L (c.perform g byte) ∧ meterAfter (c.perform g byte) = g.used := by
  unfold Config.perform
  dsimp only [Config.curb]
  cases opcode byte with
  | none => exact ⟨rfl,rfl⟩
  | some op =>
    dsimp only
    cases exec c.ctx c.frame c.scope op with
    | error e => exact ⟨rfl,rfl⟩
    | ok step =>
      cases step with
      | halt ret => exact ⟨rfl,rfl⟩
      | next f sc => exact ⟨rfl,rfl⟩
      | call args f => exact opCallCurbed ⟨g,c.scope,c.depth,c.ctx,f⟩ args

theorem starvedShort {c : Config S} {g : GasMeter} (turn : c.turn = .on (.ends (g,.error .outOfGas))) :
    ∃ byte g', c.ctx.code[c.frame.pc]? = some byte ∧ c.gas.charge (gasCost (opcode byte)) = (g',.error .outOfGas) := by
  have made := turned c
  generalize c.turn = t at made turn
  cases made with
  | stops | invalid | halts | next | calls => cases turn
  | starves fetched short =>
    cases turn
    exact ⟨_,_,fetched,short⟩
  | fails _ failed =>
    cases turn
    exact absurd rfl (execFails failed).1
  | overruns _ _ _ range =>
    cases turn
    exact absurd rfl (memRangeFails range).1
  | refuses =>
    obtain ⟨e,full,same⟩ := goesOnEnds (Turn.on.inj turn)
    cases same
    exact absurd rfl (pushZeroFails full).1

theorem turnCurbed {c : Config S} (below : L ≤ c.gas.limit) (sofar : c.gas.used ≤ L) :
    (c.curb L).turn = curbTurn L c.turn ∧ meterAfter c.turn ≤ L ∧ (∀ g, c.turn ≠ .on (.ends (g,.error .outOfGas))) ∨
    (c.curb L).turn = .on (.ends (starved L)) ∧
      (L < meterAfter c.turn ∨ ∃ g, c.turn = .on (.ends (g,.error .outOfGas))) := by
  cases fetched : c.ctx.code[c.frame.pc]? with
  | none =>
    have same : (c.curb L).turn = curbTurn L c.turn := by
      rw [turnPast fetched,turnPast (c := c.curb L) fetched]
      rfl
    refine .inl ⟨same,?_,fun g => ?_⟩
    · rw [turnPast fetched]
      exact sofar
    · rw [turnPast fetched]
      simp
  | some byte =>
    cases charged : c.gas.charge (gasCost (opcode byte)) with
    | mk g paid =>
      cases paid with
      | error e =>
        obtain ⟨-,rfl⟩ := chargeShort charged
        refine .inr ⟨turnShort (c := c.curb L) fetched (chargeCut below charged (.inl rfl)),.inr ⟨g,turnShort fetched charged⟩⟩
      | ok =>
        have turn := turnPaid fetched charged
        obtain ⟨same,meter⟩ := performCurbed (L := L) c g byte
        by_cases fits : g.used ≤ L
        · refine .inl ⟨?_,?_,fun g' starves => ?_⟩
          · rw [turnPaid (c := c.curb L) fetched (chargeCurbed charged fits),same,turn]
          · rw [turn,meter]
            exact fits
          · obtain ⟨byte',g'',fetched',short⟩ := starvedShort starves
            obtain rfl := Option.some.inj (fetched.symm.trans fetched')
            cases charged.symm.trans short
        · have past := UInt64.not_le.mp fits
          refine .inr ⟨turnShort (c := c.curb L) fetched (chargeCut below charged (.inr past)),.inl ?_⟩
          rw [turn,meter]
          exact past

omit [StateDB S] in
theorem resumeCurbed {p : Pending S} {r : RunResult S} (within : r.1.used ≤ L) (fed : r.2 ≠ .error .outOfGas) :
    (p.curb L).resume (curbed L r) = curbOnward L (p.resume r) := by
  rw [curbedWithin within fed]
  obtain ⟨g,r⟩ := r
  cases r with
  | ok done => exact goesOnCurbed ⟨g,done.2.commit,_,_,_⟩ _
  | error e =>
    cases e with
    | outOfGas => exact absurd rfl fed
    | outOfFuel => rfl
    | _ => exact goesOnCurbed ⟨g,_,_,_,_⟩ _

omit [StateDB S] in
theorem resumeFed {p : Pending S} {r r' : RunResult S} (fed : r.2 ≠ .error .outOfGas) (back : p.resume r = .ends r') :
    r'.2 ≠ .error .outOfGas := by
  have made := resumed p r
  generalize p.resume r = o at made back
  cases made with
  | aborts =>
    cases back
    exact fed
  | recovers =>
    obtain ⟨e,full,rfl⟩ := goesOnEnds back
    exact fun starves => (pushZeroFails full).1 (Except.error.inj starves)
  | returns =>
    obtain ⟨e,beyond,rfl⟩ := goesOnEnds back
    exact fun starves => (callReturnFails beyond).1 (Except.error.inj starves)

theorem callCurbed {c callee : Config S} {p : Pending S} {r : RunResult S} (below : L ≤ c.gas.limit) (sofar : c.gas.used ≤ L)
    (turn : c.turn = .calls callee p) (meter : Metered callee.gas r.1)
    (called : callee.gas.used ≤ L → (callee.curb L).outcome = curbed L r) :
    (c.curb L).outcome = starved L ∧ (L < r.1.used ∨ r.2 = .error .outOfGas) ∨
    r.2 ≠ .error .outOfGas ∧ r.1.used ≤ L ∧
      (c.curb L).outcome = (curbOnward L (p.resume r)).follow Config.outcome := by
  rcases turnCurbed below sofar with ⟨same,within,_⟩ | ⟨cut,why⟩
  · rw [turn] at same within
    have resumes : (c.curb L).outcome = ((p.curb L).resume (curbed L r)).follow Config.outcome := by
      rw [← called within]
      exact Ranked.outcomeCalls same
    by_cases fed : r.2 = .error .outOfGas
    · have cut : curbed L r = starved L := by
        obtain ⟨g,res⟩ := r
        subst fed
        rfl
      refine .inl ⟨?_,.inr fed⟩
      rw [resumes,cut]
      rfl
    · by_cases fits : r.1.used ≤ L
      · refine .inr ⟨fed,fits,?_⟩
        rw [resumes,resumeCurbed fits fed]
      · have past := UInt64.not_le.mp fits
        refine .inl ⟨?_,.inl past⟩
        rw [resumes,curbedOver past]
        rfl
  · rw [turn] at why
    rcases why with past | ⟨g,starves⟩
    · exact .inl ⟨outcomeEnds cut,.inl (UInt64.lt_of_lt_of_le past meter.rises)⟩
    · cases starves

theorem curbContract (g : GasMeter) (below : L ≤ g.limit) : (interpreter S).Contract (fun c => Metered g c.gas)
    (fun c r => Metered c.gas r.1 ∧ (c.gas.used ≤ L → (c.curb L).outcome = curbed L r)) where
  ends := fun {c r} inv turn => by
    refine ⟨((meterContract g).ends inv turn).2,fun sofar => ?_⟩
    replace turn : c.turn = .on (.ends r) := turn
    rcases turnCurbed (below.trans_eq inv.limit.symm) sofar with ⟨same,within,fed⟩ | ⟨cut,why⟩
    · rw [turn] at same within fed
      rw [curbedWithin within fun starves => fed r.1 (by rw [← starves])]
      exact outcomeEnds same
    · rw [outcomeEnds cut]
      rw [turn] at why
      rcases why with past | ⟨g',starves⟩
      · exact (curbedOver past).symm
      · cases starves
        rfl
  goes := fun {c c'} inv turn => by
    have step := (turnGoes turn).1
    refine ⟨inv.trans step,fun r ⟨meter,rest⟩ => ⟨step.trans meter,fun sofar => ?_⟩⟩
    replace turn : c.turn = .on (.goes c') := turn
    rcases turnCurbed (below.trans_eq inv.limit.symm) sofar with ⟨same,within,_⟩ | ⟨cut,why⟩
    · rw [turn] at same within
      rw [outcomeGoes same]
      exact rest within
    · rw [turn] at why
      rcases why with past | ⟨g',starves⟩
      · rw [outcomeEnds cut]
        exact (curbedOver (UInt64.lt_of_lt_of_le past meter.rises)).symm
      · cases starves
  calls inv turn := inv.trans (turnCalls turn).1
  closes := fun {c callee p r r'} inv turn ⟨meter,called⟩ back => by
    have step := (turnCalls turn).1
    have kept : r'.1 = r.1 := resumeEnds back
    replace back : p.resume r = .ends r' := back
    refine ⟨kept ▸ step.trans meter,fun sofar => ?_⟩
    rcases callCurbed (below.trans_eq inv.limit.symm) sofar turn meter called with ⟨cut,why⟩ | ⟨fed,fits,same⟩
    · rw [cut]
      rcases why with past | starves
      · exact (curbedOver (kept ▸ past)).symm
      · obtain ⟨g',res⟩ := r
        subst starves
        cases back
        rfl
    · rw [same,back,curbedWithin (kept ▸ fits) (resumeFed fed back)]
      rfl
  back := fun {c callee p r c'} inv turn ⟨meter,called⟩ back => by
    have step := (turnCalls turn).1
    have kept : c'.gas = r.1 := resumeGoes back
    replace back : p.resume r = .goes c' := back
    have sofar' : Metered c.gas c'.gas := kept ▸ step.trans meter
    refine ⟨inv.trans sofar',fun r' ⟨meter',rest⟩ => ⟨sofar'.trans meter',fun sofar => ?_⟩⟩
    rcases callCurbed (below.trans_eq inv.limit.symm) sofar turn meter called with ⟨cut,why⟩ | ⟨_,fits,same⟩
    · rw [cut]
      rcases why with past | starves
      · exact (curbedOver (UInt64.lt_of_lt_of_le (kept ▸ past) meter'.rises)).symm
      · obtain ⟨g',res⟩ := r
        subst starves
        cases back
    · rw [same,back]
      exact rest (kept ▸ fits)

def Message.limited (msg : Message) (L : UInt64) : Message := {msg with gasLimit := L}

theorem entryLimited (st : S) (msg : Message) (L : UInt64) :
    entry st (msg.limited L) = (entry st msg).map (Config.curb L) := by
  unfold entry Message.limited
  cases msg.to' with
  | none => rfl
  | some self =>
    dsimp only
    cases (Scope.new st).transfer msg.sender self msg.value with
    | error e => rfl
    | ok root => rfl

def cutAt (st : S) (L : UInt64) (done : Receipt × S) : Receipt × S :=
  if done.1.err = some .outOfGas ∨ L < done.1.gasUsed then (failed L .outOfGas,st) else done

omit [StateDB S] in
theorem cutStarved {st : S} {done : Receipt × S} (why : done.1.err = some .outOfGas ∨ L < done.1.gasUsed) :
    cutAt st L done = (failed L .outOfGas,st) := if_pos why

omit [StateDB S] in
theorem cutWithin {st : S} {done : Receipt × S} (fed : done.1.err ≠ some .outOfGas) (fits : done.1.gasUsed ≤ L) :
    cutAt st L done = done := if_neg (not_or_intro fed (UInt64.not_lt.mpr fits))

theorem createLimited (sha : Bytes → Hash) (st : S) (msg : Message) {g : GasMeter} (below : L ≤ g.limit) :
    create sha ⟨L,g.used⟩ st (msg.limited L) = cutAt st L (create sha g st msg) := by
  unfold create
  cases charged : g.charge gasCreate with
  | mk g' paid =>
    cases paid with
    | error e =>
      obtain ⟨-,rfl⟩ := chargeShort charged
      rw [chargeCut below charged (.inl rfl)]
      exact (cutStarved (.inl rfl)).symm
    | ok =>
      by_cases fits : g'.used ≤ L
      · rw [chargeCurbed charged fits]
        dsimp only [Message.limited]
        cases moved : (Scope.new st).transfer msg.sender (createAddress sha msg.sender msg.nonce) msg.value with
        | error e =>
          rw [transferFails moved]
          exact (cutWithin (by simp [failed]) fits).symm
        | ok root => exact (cutWithin (by simp) fits).symm
      · have past := UInt64.not_le.mp fits
        rw [chargeCut below charged (.inr past)]
        dsimp only
        cases (Scope.new st).transfer msg.sender (createAddress sha msg.sender msg.nonce) msg.value with
        | error e => exact (cutStarved (.inr past)).symm
        | ok root => exact (cutStarved (.inr past)).symm

theorem settleLimited {root : Config S} {st : S} (below : L ≤ root.gas.limit) (fresh : root.gas.used = 0) :
    (root.curb L).settle st = cutAt st L (root.settle st) := by
  have started : Metered root.gas root.gas := .refl (fresh ▸ UInt64.zero_le)
  obtain ⟨meter,same⟩ := (curbContract (L := L) root.gas below).outcome started
  have curbs := same (fresh ▸ UInt64.zero_le)
  unfold Config.settle
  rw [curbs]
  cases result : root.outcome with
  | mk g r =>
    rw [show (interpreter S).outcome root = (g,r) from result] at meter ⊢
    by_cases fed : r = .error .outOfGas
    · subst fed
      exact (cutStarved (.inl rfl)).symm
    · by_cases fits : g.used ≤ L
      · rw [curbedWithin (r := (g,r)) fits fed]
        cases r with
        | ok done => exact (cutWithin (by simp) fits).symm
        | error e =>
          have own : e ≠ .outOfGas := fun starves => fed (congrArg Except.error starves)
          have charged (g : GasMeter) : finalGas g e = g.used := if_neg own
          dsimp only
          rw [charged,charged]
          exact (cutWithin (fun starves => own (Option.some.inj starves)) fits).symm
      · have past := UInt64.not_le.mp fits
        rw [curbedOver (r := (g,r)) past]
        cases r with
        | ok done => exact (cutStarved (.inr past)).symm
        | error e =>
          have own : e ≠ .outOfGas := fun starves => fed (congrArg Except.error starves)
          have charged : finalGas g e = g.used := if_neg own
          dsimp only
          rw [charged]
          exact (cutStarved (.inr past)).symm

theorem executeLimited (sha : Bytes → Hash) (st : S) (msg : Message) (below : L ≤ msg.gasLimit) :
    execute sha st (msg.limited L) = cutAt st L (execute sha st msg) := by
  have lower := entryLimited st msg L
  cases entered : entry st msg with
  | some root =>
    rw [entered] at lower
    rw [executeEntered sha entered,executeEntered sha lower]
    have gas := entryGas entered
    exact settleLimited (below.trans_eq (congrArg GasMeter.limit gas).symm) (congrArg GasMeter.used gas)
  | none =>
    rw [entered] at lower
    unfold execute
    unfold entry at entered
    cases target : msg.to' with
    | none =>
      rw [show (msg.limited L).to' = none from target]
      exact createLimited sha st msg (g := ⟨msg.gasLimit,0⟩) below
    | some self =>
      rw [target] at entered
      rw [show (msg.limited L).to' = some self from target]
      dsimp only [Message.limited] at entered ⊢
      cases moved : (Scope.new st).transfer msg.sender self msg.value with
      | error e =>
        rw [transferFails moved]
        exact (cutWithin (by simp [failed]) UInt64.zero_le).symm
      | ok sc => simp [moved] at entered

/- A message has one outcome, and its gas limit decides only whether it is reached: either
every limit is too low, or there are one receipt and one state, got under exactly the limits
that are at least the gas that receipt reports, while every lower limit takes itself whole
and changes nothing. -/
theorem gasLimitCuts (sha : Bytes → Hash) (st : S) (msg : Message) :
    (∀ L, execute sha st (msg.limited L) = (failed L .outOfGas,st)) ∨
    ∃ done : Receipt × S, done.1.err ≠ some .outOfGas ∧
      ∀ L, execute sha st (msg.limited L) = if L < done.1.gasUsed then (failed L .outOfGas,st) else done := by
  obtain ⟨top,most⟩ : ∃ top : UInt64, ∀ L, L ≤ top :=
    ⟨.ofNatLT (2 ^ 64 - 1) (Nat.sub_lt (Nat.two_pow_pos 64) Nat.one_pos),fun L => UInt64.le_iff_toNat_le.mpr (Nat.le_pred_of_lt L.toNat_lt)⟩
  have cuts (L : UInt64) : execute sha st (msg.limited L) = cutAt st L (execute sha st (msg.limited top)) :=
    executeLimited sha st (msg.limited top) (most L)
  generalize execute sha st (msg.limited top) = done at cuts
  by_cases starves : done.1.err = some .outOfGas
  · exact .inl fun L => (cuts L).trans (cutStarved (.inl starves))
  · refine .inr ⟨done,starves,fun L => (cuts L).trans ?_⟩
    rw [cutAt]
    exact if_congr (or_iff_right starves) rfl rfl

end
end L1Chain.StackVM
