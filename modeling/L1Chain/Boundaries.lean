import L1Chain.StackVMTurns

/-! Instruction boundaries. A scan from offset 0 goes from each opcode to the next,
over the immediate bytes of a PUSH. `validJumpdests` marks the JUMPDESTs the scan comes
to, and `run` advances its counter on its own: the two stay in step, so no byte of an
immediate is ever run. -/
namespace L1Chain.StackVM
open Calls

def Op.width : Op → ℕ
  | .push n => n + 1
  | _ => 1

def width (byte : UInt8) : ℕ := (opcode byte).elim 1 Op.width

inductive Scans (code : Bytes) : ℕ → ℕ → Prop
  | here (i : ℕ) : Scans code i i
  | past {i j : ℕ} {byte : UInt8} (fetched : code[i]? = some byte) (rest : Scans code (i + width byte) j) : Scans code i j

def Boundary (code : Bytes) (i : ℕ) : Prop := Scans code 0 i

def Marked (code : Bytes) (i : ℕ) : Prop := code[i]?.bind opcode = some .jumpdest

theorem Scans.trans {code : Bytes} {i j k : ℕ} (first : Scans code i j) (second : Scans code j k) : Scans code i k := by
  induction first with
  | here => exact second
  | past fetched _ ih => exact .past fetched (ih second)

theorem Boundary.next {code : Bytes} {i : ℕ} {byte : UInt8} (boundary : Boundary code i) (fetched : code[i]? = some byte) :
    Boundary code (i + width byte) :=
  boundary.trans (.past fetched (.here _))

theorem widthPos (byte : UInt8) : 0 < width byte := by
  unfold width
  cases opcode byte with
  | none => exact Nat.one_pos
  | some op => cases op <;> simp [Op.width]

theorem scanRound {code : Bytes} {fuel i : ℕ} {byte : UInt8} (fetched : code[i]? = some byte) :
    scanJumpdests code (fuel + 1) i =
      if opcode byte = some .jumpdest then i::scanJumpdests code fuel (i + width byte)
      else scanJumpdests code fuel (i + width byte) := by
  rw [scanJumpdests,fetched,width]
  dsimp only
  cases opcode byte with
  | none => simp
  | some op => cases op <;> simp [Op.width,Nat.add_assoc]

theorem scanSound {code : Bytes} {fuel i d : ℕ} (found : d ∈ scanJumpdests code fuel i) : Scans code i d ∧ Marked code d := by
  induction fuel generalizing i with
  | zero => cases found
  | succ fuel ih =>
    cases fetched : code[i]? with
    | none => simp [scanJumpdests,fetched] at found
    | some byte =>
      have later : d ∈ scanJumpdests code fuel (i + width byte) → Scans code i d ∧ Marked code d := fun member =>
        ⟨.past fetched (ih member).1,(ih member).2⟩
      rw [scanRound fetched] at found
      split at found
      · rename_i mark
        rcases List.mem_cons.mp found with rfl | member
        · exact ⟨.here _,by rw [Marked,fetched]; exact mark⟩
        · exact later member
      · exact later found

theorem scanComplete {code : Bytes} {fuel i d : ℕ} (enough : code.length ≤ i + fuel) (scans : Scans code i d)
    (marked : Marked code d) : d ∈ scanJumpdests code fuel i := by
  induction scans generalizing fuel with
  | here i =>
    cases fetched : code[i]? with
    | none => simp [Marked,fetched] at marked
    | some byte =>
      have inside := (List.getElem?_eq_some_iff.mp fetched).1
      obtain ⟨fuel,rfl⟩ := Nat.exists_eq_add_of_lt (show 0 < fuel by omega)
      rw [Marked,fetched,Option.bind_some] at marked
      rw [Nat.zero_add,scanRound fetched,if_pos marked]
      exact List.mem_cons_self
  | @past i j byte fetched rest ih =>
    have inside := (List.getElem?_eq_some_iff.mp fetched).1
    have positive := widthPos byte
    obtain ⟨fuel,rfl⟩ := Nat.exists_eq_add_of_lt (show 0 < fuel by omega)
    have later := @ih fuel (by omega) marked
    rw [Nat.zero_add,scanRound fetched]
    split
    · exact List.mem_cons_of_mem _ later
    · exact later

theorem jumpdestsExact (code : Bytes) (d : ℕ) : d ∈ validJumpdests code ↔ Boundary code d ∧ Marked code d :=
  ⟨scanSound,fun ⟨boundary,marked⟩ => scanComplete (by omega) boundary marked⟩

theorem jumpToExact {code : Bytes} {dest : Int} {d : ℕ} (ok : jumpTo code dest = .ok d) : Boundary code d ∧ Marked code d := by
  unfold jumpTo at ok
  split at ok
  · cases ok
  · split at ok
    · rename_i found
      cases ok
      exact (jumpdestsExact code _).mp found
    · cases ok

section
variable {S : Type} [StateDB S] {c c' : Config S}

def Config.Jumps (c : Config S) : Prop :=
  c.ctx.code[c.frame.pc]?.bind opcode = some .jump ∨
  c.ctx.code[c.frame.pc]?.bind opcode = some .jumpi ∧ ∃ dest cond rest, c.frame.stack = dest::cond::rest ∧ cond ≠ 0

theorem execAdvances {ctx : Context} {f f' : Frame} {sc sc' : Scope S} {op : Op}
    (ok : exec ctx f sc op = .ok (.next f' sc')) :
    f'.pc = f.pc + op.width ∨ Boundary ctx.code f'.pc ∧ Marked ctx.code f'.pc := by
  cases op with
  | stop => cases ok
  | ret | call => simp [exec,Runs.bindOk] at ok
  | jump =>
    simp only [exec,Runs.bindOk,Prod.exists] at ok
    obtain ⟨dest,st,_,d,jumped,same⟩ := ok
    cases same
    exact .inr (jumpToExact jumped)
  | jumpi =>
    simp only [exec,next,Runs.bindOk,Prod.exists] at ok
    obtain ⟨dest,st,_,cond,st',_,ok⟩ := ok
    split at ok
    · simp only [Runs.bindOk] at ok
      obtain ⟨d,jumped,same⟩ := ok
      cases same
      exact .inr (jumpToExact jumped)
    · cases ok
      exact .inl rfl
  | jumpdest =>
    cases ok
    exact .inl rfl
  | push n =>
    simp only [exec,Runs.bindOk] at ok
    obtain ⟨st,_,same⟩ := ok
    cases same
    exact .inl ((Nat.add_assoc ..).trans (congrArg _ (Nat.add_comm ..)))
  | dup1 =>
    cases stack : f.stack with
    | nil => simp [exec,stack] at ok
    | cons v st =>
      simp only [exec,stack,next,Runs.bindOk] at ok
      obtain ⟨st',_,same⟩ := ok
      cases same
      exact .inl rfl
  | _ =>
    simp only [exec,binary,next,Runs.bindOk,Prod.exists] at ok
    grind [Op.width]

theorem execJumps {ctx : Context} {f f' : Frame} {sc sc' : Scope S} {op : Op}
    (jumps : op = .jump ∨ op = .jumpi ∧ ∃ dest cond rest, f.stack = dest::cond::rest ∧ cond ≠ 0)
    (ok : exec ctx f sc op = .ok (.next f' sc')) : Boundary ctx.code f'.pc ∧ Marked ctx.code f'.pc := by
  rcases jumps with rfl | ⟨rfl,dest,cond,rest,stack,holds⟩
  · simp only [exec,Runs.bindOk,Prod.exists] at ok
    obtain ⟨dest,st,_,d,jumped,same⟩ := ok
    cases same
    exact jumpToExact jumped
  · simp only [exec,stack,pop,Runs.bindOk,Prod.exists,Except.ok.injEq,Prod.mk.injEq] at ok
    obtain ⟨_,_,⟨rfl,rfl⟩,_,_,⟨rfl,rfl⟩,ok⟩ := ok
    rw [if_pos holds] at ok
    simp only [Runs.bindOk] at ok
    obtain ⟨d,jumped,same⟩ := ok
    cases same
    exact jumpToExact jumped

omit [StateDB S] in
theorem fetchBoundary {op : Op} {g : GasMeter} (boundary : Boundary c.ctx.code c.frame.pc) (fetches : c.Fetches op g) :
    Boundary c.ctx.code (c.frame.pc + op.width) := by
  obtain ⟨byte,fetched,decoded⟩ := fetches.fetched
  have wide : width byte = op.width := by rw [width,decoded,Option.elim_some]
  rw [← wide]
  exact boundary.next fetched

theorem boundaryContract : (interpreter S).Contract (fun c => Boundary c.ctx.code c.frame.pc) (fun _ _ => True) where
  ends _ _ := trivial
  goes := fun {c c'} inv turn => by
    refine ⟨?_,fun _ _ => trivial⟩
    rcases goesCases turn with ⟨op,g,f,sc,fetches,done,rfl⟩ | ⟨g,args,st,mem,f,fetches,_,_,pushed,rfl⟩
    · rcases execAdvances done with on | ⟨boundary,_⟩
      · dsimp only
        rw [on]
        exact fetchBoundary inv fetches
      · exact boundary
    · obtain ⟨_,_,rfl⟩ := pushZeroOk pushed
      exact fetchBoundary inv fetches
  calls := fun {c callee p} _ turn => by
    obtain ⟨g,args,st,i,n,mem,inner,_,_,_,_,_,rfl,rfl⟩ := callsCases turn
    exact .here 0
  closes _ _ _ _ := trivial
  back := fun {c callee p r c'} inv turn _ back => by
    refine ⟨?_,fun _ _ => trivial⟩
    obtain ⟨g,args,st,i,n,mem,inner,fetches,_,_,_,_,rfl,rfl⟩ := callsCases turn
    have behind := fetchBoundary inv fetches
    rcases backCases back with ⟨g',e,f,_,pushed,rfl⟩ | ⟨g',ret,inner',f,_,returned,rfl⟩
    · obtain ⟨_,_,rfl⟩ := pushZeroOk pushed
      exact behind
    · obtain ⟨_,_,_,rfl⟩ := callReturnOk returned
      exact behind

theorem jumpLands (jumps : c.Jumps) (turn : c.turn = .on (.goes c')) :
    c'.ctx = c.ctx ∧ Boundary c.ctx.code c'.frame.pc ∧ Marked c.ctx.code c'.frame.pc := by
  rcases goesCases turn with ⟨op,g,f,sc,fetches,done,rfl⟩ | ⟨g,args,st,mem,f,fetches,_,_,_,rfl⟩
  · refine ⟨rfl,execJumps ?_ done⟩
    rw [Config.Jumps,fetchedOp fetches] at jumps
    simpa using jumps
  · rw [Config.Jumps,fetchedOp fetches] at jumps
    simp at jumps

/- Whatever the code, and in every frame a run of it comes to: the counter stands at an
instruction boundary, and a jump that is taken lands on a JUMPDEST at one. -/
theorem immediatesNeverRun {g : GasMeter} {sc : Scope S} {depth : ℕ} {ctx : Context}
    (reached : (interpreter S).Reaches ⟨g,sc,depth,ctx,⟨0,[],[]⟩⟩ c) :
    Boundary c.ctx.code c.frame.pc ∧ (c.Jumps → ∀ c', c.turn = .on (.goes c') →
      c'.ctx = c.ctx ∧ Boundary c.ctx.code c'.frame.pc ∧ Marked c.ctx.code c'.frame.pc) := by
  have start : Boundary ctx.code 0 := .here 0
  exact ⟨boundaryContract.reached start reached,fun jumps _ turn => jumpLands jumps turn⟩

end

def hiddenDest : Bytes := [0x60,0x05,0x56,0x60,0x5b,0x5b]

def hiddenStart : Config MptState := ⟨⟨100,0⟩,Scope.new MptState.empty,0,⟨hiddenDest,7,0,[]⟩,⟨0,[],[]⟩⟩
def hiddenJump : Config MptState := {hiddenStart with gas := ⟨100,3⟩, frame := ⟨2,[5],[]⟩}
def hiddenLanding : Config MptState := {hiddenStart with gas := ⟨100,11⟩, frame := ⟨5,[],[]⟩}

theorem hiddenDestSkipped : hiddenJump.Jumps ∧ hiddenJump.turn = .on (.goes hiddenLanding) ∧
    validJumpdests hiddenDest = [5] ∧ Boundary hiddenDest 2 ∧ Boundary hiddenDest 5 ∧ Marked hiddenDest 5 := by
  have pushed : (interpreter MptState).turn hiddenStart = .on (.goes hiddenJump) := rfl
  have jumps : hiddenJump.Jumps := .inl rfl
  have lands : hiddenJump.turn = .on (.goes hiddenLanding) := rfl
  obtain ⟨before,jumped⟩ := immediatesNeverRun (.goes pushed (.here _))
  exact ⟨jumps,lands,rfl,before,(jumped jumps _ lands).2⟩

end L1Chain.StackVM
