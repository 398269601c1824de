import L1Chain.GoSlices
import L1Chain.StackVMTurns

/-! The StackVM with its slices. `Go` has every index and slice expression of the
interpreter as the source writes it, each of which panics out of range; a panic is the
outcome `none`. None is ever reached, and what the interpreter computes is `run`. -/
namespace L1Chain.StackVM
open GoSlices Calls

namespace Go

abbrev GoM := Checked VmErr

def lift {α : Type} (x : Except VmErr α) : GoM α := (some x : Option (Except VmErr α))

-- The slice of a stack holds its bottom first.
def pop (st : List Int) : GoM (Int × List Int) :=
  let data := st.reverse
  let n : Int := data.length
  if n = 0 then throw .stackUnderflow
  else do
    let v ← index data (n - 1)
    let data ← slice data 0 (n - 1)
    pure (v,data.reverse)

def pop2 (st : List Int) : GoM (Int × Int × List Int) := do
  let (a,st) ← pop st
  let (b,st) ← pop st
  pure (a,b,st)

def peek (st : List Int) (n : Int) : GoM Int :=
  let data := st.reverse
  if data.length ≤ n then throw .stackUnderflow else index data (data.length - 1 - n)

def swap1 (st : List Int) : GoM (List Int) :=
  let data := st.reverse
  let n : Int := data.length
  if n < 2 then throw .stackUnderflow
  else do
    let a ← index data (n - 1)
    let b ← index data (n - 2)
    let data ← store data (n - 1) b
    let data ← store data (n - 2) a
    pure data.reverse

def div (a b : Int) : GoM Int := if b = 0 then panics else pure (a / b)

def ensureMem (mem : Bytes) (size : Int) : GoM Bytes :=
  if mem.length ≥ size then pure mem
  else do
    let grown ← make 0 size
    copyInto grown 0 size mem

-- `big.Int.Bytes`: the magnitude, big-endian and without leading zeros.
def bigBytes (n : ℕ) : Bytes := if n = 0 then [] else bigBytes (n / 256) ++ [UInt8.ofNat n]

def bigToHash (v : Int) : GoM Hash := do
  let b := bigBytes (wrap v).toNat
  let b ← if b.length > 32 then slice b (b.length - 32) b.length else pure b
  let h ← copyInto (List.replicate 32 0) (32 - b.length) 32 b
  pure (Hash.ofBytes h)

def addrFromWord (v : Int) : GoM Address := do
  let h ← bigToHash v
  let tail ← slice (Hash.bytes h) (32 - 20) 32
  let a ← copyInto (List.replicate 20 0) 0 20 tail
  pure (BitVec.ofNat 160 (beNat a))

def readData (data : Bytes) (off : Int) : GoM Bytes := do
  let out ← make 0 32
  match toIndex off with
  | none => pure out
  | some idx => fill data idx 32 0 out

def pushData (code : Bytes) (pc n : ℕ) : GoM Bytes := do
  let buf ← make 0 n
  fill code (pc + 1) n 0 buf

def scanJumpdests (code : Bytes) : ℕ → ℕ → GoM (List ℕ)
  | 0, _ => pure []
  | fuel+1, i =>
    if i < code.length then do
      let op ← index code i
      match opcode op with
      | some .jumpdest => do
        let rest ← scanJumpdests code fuel (i + 1)
        pure (i::rest)
      | some (.push n) => scanJumpdests code fuel (i + n + 1)
      | _ => scanJumpdests code fuel (i + 1)
    else pure []

def jumpTo (code : Bytes) (dest : Int) : GoM ℕ := do
  let dests ← scanJumpdests code code.length 0
  match toIndex dest with
  | none => throw .invalidJump
  | some d => if d ∈ dests then pure d else throw .invalidJump

def memWindow (mem : Bytes) (off : Int) : GoM (ℕ × Bytes) :=
  match toIndex off with
  | none => throw .memoryLimit
  | some idx =>
    if idx + 32 > maxMemBytes then throw .memoryLimit
    else do
      let mem ← ensureMem mem (idx + 32)
      pure (idx,mem)

def memRange (mem : Bytes) (off size : Int) : GoM (ℕ × ℕ × Bytes) :=
  match toIndex off,toIndex size with
  | some i,some n =>
    if i + n > maxMemBytes then throw .memoryLimit
    else do
      let mem ← ensureMem mem (i + n)
      pure (i,n,mem)
  | _,_ => throw .memoryLimit

def copyOut (mem : Bytes) (i n : ℕ) : GoM Bytes := do
  let out ← make 0 n
  let part ← slice mem i (i + n)
  copyInto out 0 n part

def popCallArgs (st : List Int) : GoM (CallArgs × List Int) := do
  let (_,st) ← pop st
  let (addrW,st) ← pop st
  let (valueW,st) ← pop st
  let (argsOff,st) ← pop st
  let (argsSize,st) ← pop st
  let (retOff,st) ← pop st
  let (retSize,st) ← pop st
  let to' ← addrFromWord addrW
  let value := if isUint64 valueW then UInt64.ofNat valueW.toNat else 0
  pure (⟨to',value,argsOff,argsSize,retOff,retSize⟩,st)

section
variable {S : Type} [StateDB S]

def binary (f : Frame) (sc : Scope S) (op : Int → Int → GoM Int) : GoM (Step S) := do
  let (a,b,st) ← pop2 f.stack
  let v ← op a b
  let st ← lift (push st v)
  pure (next f sc st)

def exec (ctx : Context) (f : Frame) (sc : Scope S) : Op → GoM (Step S)
  | .stop => pure (.halt [])
  | .add => binary f sc (fun a b => pure (wrap (a + b)))
  | .sub => binary f sc (fun a b => pure (wrap (a - b)))
  | .mul => binary f sc (fun a b => pure (wrap (a * b)))
  | .div => binary f sc (fun a b => if b = 0 then pure 0 else div a b)
  | .lt => binary f sc (fun a b => pure (boolWord (a < b)))
  | .gt => binary f sc (fun a b => pure (boolWord (a > b)))
  | .eq => binary f sc (fun a b => pure (boolWord (a = b)))
  | .iszero => do
    let (a,st) ← pop f.stack
    let st ← lift (push st (boolWord (a = 0)))
    pure (next f sc st)
  | .callvalue => do
    let st ← lift (push f.stack ctx.callValue.toNat)
    pure (next f sc st)
  | .calldatasize => do
    let st ← lift (push f.stack ctx.calldata.length)
    pure (next f sc st)
  | .calldataload => do
    let (off,st) ← pop f.stack
    let word ← readData ctx.calldata off
    let st ← lift (push st (beNat word))
    pure (next f sc st)
  | .pop => do
    let (_,st) ← pop f.stack
    pure (next f sc st)
  | .mload => do
    let (off,st) ← pop f.stack
    let (idx,mem) ← memWindow f.mem off
    let word ← slice mem idx (idx + 32)
    let st ← lift (push st (beNat word))
    pure (.next ⟨f.pc + 1,st,mem⟩ sc)
  | .mstore => do
    let (off,st) ← pop f.stack
    let (val,st) ← pop st
    let (idx,mem) ← memWindow f.mem off
    let w ← bigToHash val
    let mem ← copyInto mem idx (idx + 32) (Hash.bytes w)
    pure (.next ⟨f.pc + 1,st,mem⟩ sc)
  | .sload => do
    let (key,st) ← pop f.stack
    let k ← bigToHash key
    let st ← lift (push st (sc.getStorage ctx.self k).toNat)
    pure (next f sc st)
  | .sstore => do
    let (key,st) ← pop f.stack
    let (val,st) ← pop st
    let k ← bigToHash key
    let v ← bigToHash val
    pure (next f (sc.setStorage ctx.self k v) st)
  | .jump => do
    let (dest,st) ← pop f.stack
    let d ← jumpTo ctx.code dest
    pure (.next ⟨d,st,f.mem⟩ sc)
  | .jumpi => do
    let (dest,st) ← pop f.stack
    let (cond,st) ← pop st
    if cond ≠ 0 then
      let d ← jumpTo ctx.code dest
      pure (.next ⟨d,st,f.mem⟩ sc)
    else pure (next f sc st)
  | .jumpdest => pure (next f sc f.stack)
  | .push n => do
    let word ← pushData ctx.code f.pc n
    let st ← lift (push f.stack (beNat word))
    pure (.next ⟨f.pc + 1 + n,st,f.mem⟩ sc)
  | .dup1 => do
    let v ← peek f.stack 0
    let st ← lift (push f.stack v)
    pure (next f sc st)
  | .swap1 => do
    let st ← swap1 f.stack
    pure (next f sc st)
  | .ret => do
    let (off,st) ← pop f.stack
    let (size,_) ← pop st
    let (i,n,mem) ← memRange f.mem off size
    let out ← copyOut mem i n
    pure (.halt out)
  | .call => do
    let (args,st) ← popCallArgs f.stack
    pure (.call args ⟨f.pc,st,f.mem⟩)

def callReturn (args : CallArgs) (f : Frame) (ret : Bytes) : GoM Frame :=
  match toIndex args.retOff,toIndex args.retSize with
  | some i,some rs =>
    if i + rs > maxMemBytes then throw .memoryLimit
    else if rs > 0 then do
      let mem ← ensureMem f.mem (i + rs)
      let n := if rs > ret.length then ret.length else rs
      let part ← slice ret 0 n
      let mem ← copyInto mem i (i + n) part
      let st ← lift (push f.stack 1)
      pure ⟨f.pc + 1,st,mem⟩
    else do
      let st ← lift (push f.stack 1)
      pure ⟨f.pc + 1,st,f.mem⟩
  | _,_ => throw .memoryLimit

def catching {α β : Type} (x : GoM α) (fail : VmErr → β) (rest : α → Option β) : Option β :=
  match x.run with
  | none => none
  | some (.error e) => some (fail e)
  | some (.ok a) => rest a

def opCall (c : Config S) (args : CallArgs) : Option (VmTurn S) :=
  if c.depth + 1 > maxCallDepth then some (.on (c.goesOn (pushZero c.frame)))
  else
    catching (memRange c.frame.mem args.argsOff args.argsSize) (fun e => .on (.ends (c.gas,.error e)))
      fun (i,n,mem) =>
        let c : Config S := {c with frame := ⟨c.frame.pc,c.frame.stack,mem⟩}
        catching (copyOut mem i n) (fun e => .on (.ends (c.gas,.error e))) fun input =>
          match c.scope.child.transfer c.ctx.self args.to' args.value with
          | .error _ => some (.on (c.goesOn (pushZero c.frame)))
          | .ok inner => some (.calls (calleeOf c args inner input) ⟨c,args⟩)

def turn (c : Config S) : Option (VmTurn S) :=
  if c.frame.pc < c.ctx.code.length then
    catching (index c.ctx.code c.frame.pc) (fun e => .on (.ends (c.gas,.error e))) fun byte =>
      match c.gas.charge (gasCost (opcode byte)) with
      | (g,.error e) => some (.on (.ends (g,.error e)))
      | (g,.ok ()) =>
        match opcode byte with
        | none => some (.on (.ends (g,.error .invalidOpcode)))
        | some op =>
          catching (exec c.ctx c.frame c.scope op) (fun e => .on (.ends (g,.error e))) fun step =>
            match step with
            | .halt ret => some (.on (.ends (g,.ok (ret,c.scope))))
            | .next f sc => some (.on (.goes {c with gas := g, scope := sc, frame := f}))
            | .call args f => opCall {c with gas := g, frame := f} args
  else some (.on (.ends (c.gas,.ok ([],c.scope))))

def resume (p : Pending S) : RunResult S → Option (VmOnward S)
  | (g,.error .outOfGas) => some (.ends (g,.error .outOfGas))
  | (g,.error .outOfFuel) => some (.ends (g,.error .outOfFuel))
  | (g,.error _) => some (Config.goesOn {p.caller with gas := g} (pushZero p.caller.frame))
  | (g,.ok (ret,inner)) =>
    catching (callReturn p.args p.caller.frame ret) (fun e => .ends (g,.error e)) fun f =>
      some (.goes {p.caller with gas := g, scope := inner.commit, frame := f})

def run : ℕ → Config S → Option (RunResult S)
  | 0, c => some c.spent
  | fuel+1, c => do
    match ← turn c with
    | .on (.ends r) => some r
    | .on (.goes c) => run fuel c
    | .calls callee p =>
      let r ← run fuel callee
      match ← resume p r with
      | .ends r => some r
      | .goes c => run fuel c

def execute (sha : Bytes → Hash) (st : S) (msg : Message) : Option (Receipt × S) :=
  let g : GasMeter := ⟨msg.gasLimit,0⟩
  match msg.to' with
  | none => some (create sha g st msg)
  | some self =>
    match (Scope.new st).transfer msg.sender self msg.value with
    | .error e => some (failed g.used e,st)
    | .ok root => do
      match ← run (fuelFor msg.gasLimit) ⟨g,root,0,⟨root.getCode self,self,msg.value,msg.data⟩,⟨0,[],[]⟩⟩ with
      | (g,.error e) => some (failed (finalGas g e) e,st)
      | (g,.ok (ret,root)) => some (⟨g.used,true,ret,none,none⟩,root.flush)

end
theorem safeLift {α : Type} (x : Except VmErr α) : Safe (lift x) x := rfl

theorem safePop (st : List Int) : Safe (pop st) (StackVM.pop st) := by
  cases st with
  | nil => exact safeThrow _
  | cons v st =>
    have length : (((v::st).reverse.length : ℕ) : Int) = st.length + 1 := by simp
    have last : (v::st).reverse[st.length]? = some v := by simp
    have front : (v::st).reverse.take st.length = st.reverse := by simp
    unfold pop
    dsimp only
    rw [length,if_neg (by omega),add_sub_cancel_right]
    refine Safe.after (safeIndex last) (Safe.after (safeTake (by simp)) ?_)
    rw [front,List.reverse_reverse]
    exact safePure _

theorem safePop2 (st : List Int) : Safe (pop2 st) (StackVM.pop2 st) :=
  (safePop st).bind fun (_,st) _ => (safePop st).bind fun (_,_) _ => safePure _

theorem safeSwap1 (st : List Int) : Safe (swap1 st) (StackVM.swap1 st) := by
  match st with
  | [] => exact safeThrow _
  | [v] => exact safeThrow _
  | a::b::st =>
    have length : (((a::b::st).reverse.length : ℕ) : Int) = (st.length + 1 : ℕ) + 1 := by
      simp
      omega
    have below : ((st.length + 1 : ℕ) : Int) + 1 - 2 = st.length := by omega
    have top : (a::b::st).reverse[st.length + 1]? = some a := by simp
    have second : (a::b::st).reverse[st.length]? = some b := by simp
    unfold swap1
    dsimp only
    rw [length,if_neg (by omega),add_sub_cancel_right,below]
    refine Safe.after (safeIndex top) (Safe.after (safeIndex second) ?_)
    refine Safe.after (safeStore b (by simp)) (Safe.after (safeStore a (by simp)) ?_)
    have swapped : (((a::b::st).reverse.set (st.length + 1) b).set st.length a).reverse = b::a::st := by simp
    rw [swapped]
    exact safePure _

theorem safePeek {v : Int} {st : List Int} : Safe (peek (v::st) 0) (.ok v) := by
  have length : (((v::st).reverse.length : ℕ) : Int) = st.length + 1 := by simp
  unfold peek
  dsimp only
  rw [length,if_neg (by omega),add_sub_cancel_right,sub_zero]
  exact safeIndex (by simp)

theorem safeEnsureMem (mem : Bytes) (size : ℕ) : Safe (ensureMem mem size) (.ok (StackVM.ensureMem mem size)) := by
  unfold ensureMem StackVM.ensureMem
  split
  · rename_i large
    rw [Nat.sub_eq_zero_of_le (by omega),List.replicate_zero,List.append_nil]
    exact safePure _
  · rename_i small
    refine Safe.after (safeMake 0 size) ?_
    have copied := @safeCopyFront VmErr UInt8 (List.replicate size 0) mem size (by simp) (by omega)
    rwa [List.drop_replicate] at copied

theorem bigBytesLength {n k : ℕ} (small : n < 256 ^ k) : (bigBytes n).length ≤ k := by
  induction k generalizing n with
  | zero =>
    obtain rfl : n = 0 := by simpa using small
    simp [bigBytes]
  | succ k ih =>
    unfold bigBytes
    split
    · simp
    · have shorter := ih (Nat.div_lt_of_lt_mul (by rwa [Nat.pow_succ,Nat.mul_comm] at small))
      simpa using shorter

theorem beNatBigBytes (n : ℕ) : beNat (bigBytes n) = n := by
  induction n using Nat.strongRecOn with
  | _ n ih =>
    unfold bigBytes
    split
    · rename_i zero
      rw [zero]
      rfl
    · rename_i pos
      have byte : (UInt8.ofNat n).toNat = n % 256 := by simp
      rw [beNatSnoc,ih (n / 256) (by omega),byte]
      omega

theorem beNatPadded (k : ℕ) (bs : Bytes) : beNat (List.replicate k 0 ++ bs) = beNat bs := by
  induction k with
  | zero => rfl
  | succ k ih =>
    rw [List.replicate_succ,List.cons_append,← ih]
    rfl

theorem safeBigToHash (v : Int) : Safe (bigToHash v) (.ok (StackVM.bigToHash v)) := by
  have wrapped : (wrap v).toNat < 256 ^ 32 := by
    unfold wrap
    omega
  have short := bigBytesLength wrapped
  have start : (32 : Int) - (bigBytes (wrap v).toNat).length = (32 - (bigBytes (wrap v).toNat).length : ℕ) := by omega
  have stop : (32 : Int) = (32 - (bigBytes (wrap v).toNat).length : ℕ) + ((bigBytes (wrap v).toNat).length : ℕ) := by omega
  have value : Hash.ofBytes (List.replicate (32 - (bigBytes (wrap v).toNat).length) 0 ++ bigBytes (wrap v).toNat) =
      StackVM.bigToHash v := by
    rw [Hash.ofBytes,beNatPadded,beNatBigBytes]
    apply BitVec.eq_of_toNat_eq
    rw [BitVec.toNat_ofNat,StackVM.bigToHash,BitVec.toNat_ofInt,Nat.mod_eq_of_lt (by simpa using wrapped)]
    rfl
  unfold bigToHash
  dsimp only
  rw [if_neg (by omega),pure_bind,start,stop]
  refine Safe.after (safeCopy (by simp; omega) le_rfl) ?_
  rw [List.take_replicate,min_eq_left (by omega),List.drop_eq_nil_of_le (by simp; omega),List.append_nil,value]
  exact safePure _

theorem beBytesDrop (m k n : ℕ) : (beBytes (m + k) n).drop m = beBytes k n := by
  induction k generalizing n with
  | zero => exact List.drop_eq_nil_of_le (by simp)
  | succ k ih =>
    show (beBytes (m + k) (n / 256) ++ [UInt8.ofNat n]).drop m = _
    rw [List.drop_append_of_le_length (by simp),ih]
    rfl

theorem safeAddrFromWord (v : Int) : Safe (addrFromWord v) (.ok (StackVM.addrFromWord v)) := by
  have tail : ((Hash.bytes (StackVM.bigToHash v)).drop 12).take 20 = beBytes 20 (StackVM.bigToHash v).toNat := by
    rw [Hash.bytes,beBytesDrop 12 20,List.take_of_length_le (by simp)]
  have value : BitVec.ofNat 160 (beNat (beBytes 20 (StackVM.bigToHash v).toNat)) = StackVM.addrFromWord v := by
    rw [beNatBytes]
    apply BitVec.eq_of_toNat_eq
    rw [BitVec.toNat_ofNat,StackVM.addrFromWord,BitVec.toNat_setWidth]
    exact Nat.mod_mod _ _
  unfold addrFromWord
  refine Safe.after (safeBigToHash v) (Safe.after (safeSlice (i := 12) (n := 20) (by simp)) ?_)
  rw [tail]
  refine Safe.after (safeCopyAll (n := 20) (by simp) (by simp)) ?_
  rw [value]
  exact safePure _

theorem safeFillWindow (src : Bytes) (start n : ℕ) :
    Safe (fill src start n 0 (List.replicate n 0) : GoM Bytes) (.ok (window src start n)) :=
  @safeFill VmErr UInt8 src [] start 0 n

theorem safeReadData (data : Bytes) (off : Int) : Safe (readData data off) (.ok (StackVM.readData data off)) := by
  unfold readData StackVM.readData
  refine Safe.after (safeMake 0 32) ?_
  cases toIndex off with
  | none => exact safePure _
  | some idx => exact safeFillWindow data idx 32

theorem safePushData (code : Bytes) (pc n : ℕ) : Safe (pushData code pc n) (.ok (window code (pc + 1) n)) :=
  Safe.after (safeMake 0 n) (safeFillWindow code (pc + 1) n)

theorem safeScan (code : Bytes) (fuel i : ℕ) :
    Safe (scanJumpdests code fuel i) (.ok (StackVM.scanJumpdests code fuel i)) := by
  induction fuel generalizing i with
  | zero => exact safePure _
  | succ fuel ih =>
    unfold scanJumpdests StackVM.scanJumpdests
    cases found : code[i]? with
    | none =>
      rw [if_neg (not_lt.mpr (List.getElem?_eq_none_iff.mp found))]
      exact safePure _
    | some byte =>
      rw [if_pos (List.getElem?_eq_some_iff.mp found).1]
      refine Safe.after (safeIndex found) ?_
      dsimp only
      cases opcode byte with
      | none => exact ih _
      | some op =>
        cases op with
        | jumpdest => exact Safe.after (ih _) (safePure _)
        | _ => exact ih _

theorem safeJumpTo (code : Bytes) (dest : Int) : Safe (jumpTo code dest) (StackVM.jumpTo code dest) := by
  unfold jumpTo StackVM.jumpTo
  have dests : Safe (scanJumpdests code code.length 0) (.ok (validJumpdests code)) := safeScan code code.length 0
  refine Safe.after dests ?_
  cases toIndex dest with
  | none => exact safeThrow _
  | some d =>
    by_cases member : d ∈ validJumpdests code
    · simp only [if_pos member]
      exact safePure _
    · simp only [if_neg member]
      exact safeThrow _

theorem safeMemWindow (mem : Bytes) (off : Int) : Safe (memWindow mem off) (StackVM.memWindow mem off) := by
  unfold memWindow StackVM.memWindow
  cases toIndex off with
  | none => exact safeThrow _
  | some idx =>
    dsimp only
    split
    · exact safeThrow _
    · exact Safe.after (safeEnsureMem mem (idx + 32)) (safePure _)

theorem safeMemRange (mem : Bytes) (off size : Int) : Safe (memRange mem off size) (StackVM.memRange mem off size) := by
  unfold memRange StackVM.memRange
  cases toIndex off with
  | none => exact safeThrow _
  | some i =>
    cases toIndex size with
    | none => exact safeThrow _
    | some n =>
      dsimp only
      split
      · exact safeThrow _
      · exact Safe.after (safeEnsureMem mem (i + n)) (safePure _)

end Go

theorem ensureMemLength (mem : Bytes) (size : ℕ) : (ensureMem mem size).length = max mem.length size := by
  simp [ensureMem]
  omega

theorem memWindowCovers {mem mem' : Bytes} {off : Int} {idx : ℕ} (ok : memWindow mem off = .ok (idx,mem')) :
    idx + 32 ≤ mem'.length ∧ mem'.length ≤ max mem.length maxMemBytes := by
  unfold memWindow at ok
  split at ok
  · cases ok
  · split at ok
    · cases ok
    · rename_i within
      cases ok
      rw [ensureMemLength]
      omega

theorem memRangeCovers {mem mem' : Bytes} {off size : Int} {i n : ℕ} (ok : memRange mem off size = .ok (i,n,mem')) :
    i + n ≤ mem'.length ∧ mem'.length ≤ max mem.length maxMemBytes ∧ n ≤ maxMemBytes := by
  unfold memRange at ok
  split at ok
  · split at ok
    · cases ok
    · rename_i within
      cases ok
      rw [ensureMemLength]
      omega
  · cases ok

namespace Go

theorem safeCopyOut {mem : Bytes} {i n : ℕ} (inside : i + n ≤ mem.length) :
    Safe (copyOut mem i n) (.ok ((mem.drop i).take n)) := by
  have length : ((mem.drop i).take n).length = n := by
    simp
    omega
  refine Safe.after (safeMake 0 n) (Safe.after (safeSlice inside) ?_)
  exact safeCopyAll List.length_replicate length

theorem safePopCallArgs (st : List Int) : Safe (popCallArgs st) (StackVM.popCallArgs st) :=
  (safePop st).bind fun (_,st) _ => (safePop st).bind fun (addrW,st) _ => (safePop st).bind fun (_,st) _ =>
    (safePop st).bind fun (_,st) _ => (safePop st).bind fun (_,st) _ => (safePop st).bind fun (_,st) _ =>
      (safePop st).bind fun (_,_) _ => Safe.after (safeAddrFromWord addrW) (safePure _)

section
variable {S : Type} [StateDB S]

omit [StateDB S] in
theorem safeBinary (f : Frame) (sc : Scope S) {op : Int → Int → GoM Int} {op' : Int → Int → Int}
    (safe : ∀ a b, Safe (op a b) (.ok (op' a b))) : Safe (binary f sc op) (StackVM.binary f sc op') :=
  (safePop2 f.stack).bind fun (a,b,_) _ => Safe.after (safe a b) ((safeLift _).bind fun _ _ => safePure _)

theorem safeExec (ctx : Context) (f : Frame) (sc : Scope S) (op : Op) : Safe (exec ctx f sc op) (StackVM.exec ctx f sc op) := by
  cases op with
  | stop => exact safePure _
  | add | sub | mul | lt | gt | eq =>
    unfold exec StackVM.exec
    exact safeBinary f sc fun _ _ => safePure _
  | div =>
    unfold exec StackVM.exec
    refine safeBinary f sc fun a b => ?_
    by_cases zero : b = 0
    · rw [if_pos zero,if_pos zero]
      exact safePure _
    · rw [if_neg zero,if_neg zero,div,if_neg zero]
      exact safePure _
  | iszero => exact (safePop _).bind fun (_,_) _ => (safeLift _).bind fun _ _ => safePure _
  | callvalue | calldatasize => exact (safeLift _).bind fun _ _ => safePure _
  | calldataload =>
    exact (safePop _).bind fun (off,_) _ =>
      Safe.after (safeReadData ctx.calldata off) ((safeLift _).bind fun _ _ => safePure _)
  | pop => exact (safePop _).bind fun (_,_) _ => safePure _
  | mload =>
    exact (safePop _).bind fun (off,_) _ => (safeMemWindow f.mem off).bind fun (idx,mem) window =>
      Safe.after (safeSlice (memWindowCovers window).1) ((safeLift _).bind fun _ _ => safePure _)
  | mstore =>
    refine (safePop _).bind fun (off,st) _ => (safePop st).bind fun (val,_) _ =>
      (safeMemWindow f.mem off).bind fun (idx,mem) window => Safe.after (safeBigToHash val) ?_
    exact Safe.after (safeCopy (memWindowCovers window).1 (by simp)) (safePure _)
  | sload =>
    exact (safePop _).bind fun (key,_) _ =>
      Safe.after (safeBigToHash key) ((safeLift _).bind fun _ _ => safePure _)
  | sstore =>
    exact (safePop _).bind fun (key,st) _ => (safePop st).bind fun (val,_) _ =>
      Safe.after (safeBigToHash key) (Safe.after (safeBigToHash val) (safePure _))
  | jump => exact (safePop _).bind fun (dest,_) _ => (safeJumpTo ctx.code dest).bind fun _ _ => safePure _
  | jumpi =>
    refine (safePop _).bind fun (dest,st) _ => (safePop st).bind fun (cond,_) _ => ?_
    by_cases zero : cond = 0
    · simp only [zero,ne_eq,not_true_eq_false,if_false]
      exact safePure _
    · simp only [zero,ne_eq,not_false_eq_true,if_true]
      exact (safeJumpTo ctx.code dest).bind fun _ _ => safePure _
  | jumpdest => exact safePure _
  | push n => exact Safe.after (safePushData ctx.code f.pc n) ((safeLift _).bind fun _ _ => safePure _)
  | dup1 =>
    cases stack : f.stack with
    | nil =>
      simp only [exec,StackVM.exec,stack]
      exact safeThrow _
    | cons v st =>
      simp only [exec,StackVM.exec,stack]
      exact Safe.after safePeek ((safeLift _).bind fun _ _ => safePure _)
  | swap1 => exact (safeSwap1 _).bind fun _ _ => safePure _
  | ret =>
    refine (safePop _).bind fun (off,st) _ => (safePop st).bind fun (size,_) _ =>
      (safeMemRange f.mem off size).bind fun r range => ?_
    obtain ⟨i,n,mem⟩ := r
    exact Safe.after (safeCopyOut (memRangeCovers range).1) (safePure _)
  | call => exact (safePopCallArgs _).bind fun _ _ => safePure _

theorem safeCallReturn (args : CallArgs) (f : Frame) (ret : Bytes) :
    Safe (callReturn args f ret) (StackVM.callReturn args f ret) := by
  unfold callReturn StackVM.callReturn
  cases toIndex args.retOff with
  | none => exact safeThrow _
  | some i =>
    cases toIndex args.retSize with
    | none => exact safeThrow _
    | some rs =>
      dsimp only
      by_cases beyond : i + rs > maxMemBytes
      · rw [if_pos beyond,if_pos beyond]
        exact safeThrow _
      · rw [if_neg beyond,if_neg beyond]
        by_cases some : rs > 0
        · rw [if_pos some,if_pos some]
          refine Safe.after (safeEnsureMem f.mem (i + rs)) ?_
          have covers : i + rs ≤ (StackVM.ensureMem f.mem (i + rs)).length := by
            rw [ensureMemLength]
            exact le_max_right _ _
          have shorter : (if rs > ret.length then ret.length else rs) = min rs ret.length := by
            split <;> omega
          have part : (ret.take (min rs ret.length)) = ret.take rs := by
            rw [← List.take_take,List.take_length]
          rw [shorter]
          refine Safe.after (safeTake (by omega)) ?_
          rw [part]
          refine Safe.after (safeCopy (by omega) (by simp)) ?_
          exact (safeLift _).bind fun _ _ => safePure _
        · rw [if_neg some,if_neg some]
          exact (safeLift _).bind fun _ _ => safePure _

theorem catchingOk {α β : Type} {x : GoM α} {a : α} (fail : VmErr → β) (rest : α → Option β) (safe : Safe x (.ok a)) :
    catching x fail rest = rest a := by
  unfold Safe at safe
  rw [catching,safe]

theorem catchingError {α β : Type} {x : GoM α} {e : VmErr} (fail : VmErr → β) (rest : α → Option β)
    (safe : Safe x (.error e)) : catching x fail rest = some (fail e) := by
  unfold Safe at safe
  rw [catching,safe]

theorem safeOpCall (c : Config S) (args : CallArgs) : opCall c args = some (c.opCall args) := by
  unfold opCall Config.opCall
  by_cases deep : c.depth + 1 > maxCallDepth
  · rw [if_pos deep,if_pos deep]
  · rw [if_neg deep,if_neg deep]
    have safe := safeMemRange c.frame.mem args.argsOff args.argsSize
    cases range : StackVM.memRange c.frame.mem args.argsOff args.argsSize with
    | error e =>
      rw [range] at safe
      rw [catchingError _ _ safe]
    | ok found =>
      obtain ⟨i,n,mem⟩ := found
      rw [range] at safe
      rw [catchingOk _ _ safe]
      dsimp only
      rw [catchingOk _ _ (safeCopyOut (memRangeCovers range).1)]
      cases c.scope.child.transfer c.ctx.self args.to' args.value with
      | error e => rfl
      | ok inner => rfl

theorem safeTurn (c : Config S) : turn c = some c.turn := by
  unfold turn Config.turn
  cases fetched : c.ctx.code[c.frame.pc]? with
  | none => rw [if_neg (not_lt.mpr (List.getElem?_eq_none_iff.mp fetched))]
  | some byte =>
    rw [if_pos (List.getElem?_eq_some_iff.mp fetched).1,catchingOk _ _ (safeIndex fetched)]
    dsimp only
    cases c.gas.charge (gasCost (opcode byte)) with
    | mk g paid =>
      cases paid with
      | error e => rfl
      | ok =>
        dsimp only
        cases opcode byte with
        | none => rfl
        | some op =>
          dsimp only
          have safe := safeExec c.ctx c.frame c.scope op
          cases done : StackVM.exec c.ctx c.frame c.scope op with
          | error e =>
            rw [done] at safe
            rw [catchingError _ _ safe]
          | ok step =>
            rw [done] at safe
            rw [catchingOk _ _ safe]
            cases step with
            | halt ret => rfl
            | next f sc => rfl
            | call args f => exact safeOpCall _ _

omit [StateDB S] in
theorem safeResume (p : Pending S) (r : RunResult S) : resume p r = some (p.resume r) := by
  obtain ⟨g,r⟩ := r
  cases r with
  | error e => cases e <;> rfl
  | ok done =>
    obtain ⟨ret,inner⟩ := done
    unfold resume Pending.resume
    dsimp only
    have safe := safeCallReturn p.args p.caller.frame ret
    cases back : StackVM.callReturn p.args p.caller.frame ret with
    | error e =>
      rw [back] at safe
      rw [catchingError _ _ safe]
      rfl
    | ok f =>
      rw [back] at safe
      rw [catchingOk _ _ safe]
      rfl

theorem safeRun (fuel : ℕ) (c : Config S) : run fuel c = some (c.run fuel) := by
  rw [runTurns]
  induction fuel generalizing c with
  | zero => rfl
  | succ fuel ih =>
    have same : (machine S).turn c = c.turn := rfl
    unfold run Machine.run
    rw [safeTurn,same]
    cases c.turn with
    | on o =>
      cases o with
      | ends r => rfl
      | goes c' => exact ih c'
    | calls callee p =>
      have back : (machine S).resume p = p.resume := rfl
      dsimp only [Option.bind_eq_bind,Option.bind_some,Machine.proceed]
      rw [ih,Option.bind_some,safeResume,Option.bind_some,back]
      cases p.resume ((machine S).run Config.spent fuel callee) with
      | ends r => rfl
      | goes c' => exact ih c'

theorem safeExecute (sha : Bytes → Hash) (st : S) (msg : Message) :
    execute sha st msg = some (StackVM.execute sha st msg) := by
  unfold execute StackVM.execute
  cases msg.to' with
  | none => rfl
  | some self =>
    dsimp only
    cases (Scope.new st).transfer msg.sender self msg.value with
    | error e => rfl
    | ok root =>
      dsimp only [Option.bind_eq_bind]
      rw [safeRun,Option.bind_some]
      dsimp only [Config.run]
      cases StackVM.run (fuelFor msg.gasLimit) ⟨msg.gasLimit,0⟩ root 0 ⟨root.getCode self,self,msg.value,msg.data⟩ ⟨0,[],[]⟩ with
      | mk g r =>
        cases r with
        | error e => rfl
        | ok done => rfl

end
end Go

/- The bounds a frame keeps: its words are of 256 bits, its stack and its memory within
their limits. -/
def Word (w : Int) : Prop := 0 ≤ w ∧ w < 2 ^ 256

def Words (st : List Int) : Prop := st.length ≤ maxStack ∧ ∀ w ∈ st, Word w

structure Frame.Bounded (f : Frame) : Prop where
  words : Words f.stack
  mem : f.mem.length ≤ maxMemBytes

theorem wrapWord (v : Int) : Word (wrap v) := by
  unfold Word wrap
  omega

theorem boolWordWord (b : Bool) : Word (boolWord b) := by
  cases b <;> simp [Word,boolWord]

theorem natWord {n : ℕ} (small : n < 2 ^ 256) : Word n := by
  unfold Word
  omega

theorem bytesWord {bs : Bytes} (short : bs.length ≤ 32) : Word (beNat bs) := by
  refine natWord ((beNatLt bs).trans_le ?_)
  have grows : 256 ^ bs.length ≤ 256 ^ 32 := Nat.pow_le_pow_right (by decide) short
  exact grows

theorem windowLength (bs : Bytes) (start len : ℕ) : (window bs start len).length = len := by
  simp [window]

theorem divWord {a b : Int} (dividend : Word a) (divisor : Word b) : Word (if b = 0 then 0 else a / b) := by
  unfold Word at *
  split
  · omega
  · have below : a / b ≤ a := Int.ediv_le_self b dividend.1
    exact ⟨Int.ediv_nonneg dividend.1 divisor.1,by omega⟩

theorem popWords {st st' : List Int} {v : Int} (words : Words st) (ok : pop st = .ok (v,st')) : Word v ∧ Words st' := by
  cases st with
  | nil => cases ok
  | cons w st =>
    cases ok
    exact ⟨words.2 v List.mem_cons_self,by simpa using (Nat.le_succ _).trans words.1,
      fun w member => words.2 w (List.mem_cons_of_mem _ member)⟩

theorem pushWords {st st' : List Int} {v : Int} (words : Words st) (word : Word v) (ok : push st v = .ok st') : Words st' := by
  unfold push at ok
  split at ok
  · cases ok
  · rename_i room
    cases ok
    exact ⟨Nat.succ_le_of_lt (not_le.mp room),fun w member => (List.mem_cons.mp member).elim (fun same => same ▸ word) (words.2 w)⟩

theorem pop2Words {st st' : List Int} {a b : Int} (words : Words st) (ok : pop2 st = .ok (a,b,st')) :
    Word a ∧ Word b ∧ Words st' := by
  simp only [pop2,Runs.bindOk,Prod.exists] at ok
  obtain ⟨x,st₁,first,y,st₂,second,same⟩ := ok
  cases same
  obtain ⟨left,rest⟩ := popWords words first
  obtain ⟨right,rest⟩ := popWords rest second
  exact ⟨left,right,rest⟩

theorem swapWords {st st' : List Int} (words : Words st) (ok : swap1 st = .ok st') : Words st' := by
  unfold swap1 at ok
  split at ok
  · cases ok
    exact ⟨by simpa using words.1,fun w member => words.2 w (by simpa [or_left_comm] using member)⟩
  · cases ok

theorem popCallArgsWords {st st' : List Int} {args : CallArgs} (words : Words st)
    (ok : popCallArgs st = .ok (args,st')) : Words st' := by
  simp only [popCallArgs,Runs.bindOk,Prod.exists] at ok
  obtain ⟨_,_,p₁,_,_,p₂,_,_,p₃,_,_,p₄,_,_,p₅,_,_,p₆,_,_,p₇,same⟩ := ok
  cases same
  have w₁ := (popWords words p₁).2
  have w₂ := (popWords w₁ p₂).2
  have w₃ := (popWords w₂ p₃).2
  have w₄ := (popWords w₃ p₄).2
  have w₅ := (popWords w₄ p₅).2
  have w₆ := (popWords w₅ p₆).2
  exact (popWords w₆ p₇).2

theorem writeMemLength {mem bs : Bytes} {start : ℕ} (inside : start + bs.length ≤ mem.length) :
    (writeMem mem start bs).length = mem.length := by
  simp [writeMem]
  omega

theorem pushWidth {byte : UInt8} {n : ℕ} (decoded : opcode byte = some (.push n)) : n ≤ 32 := by
  unfold opcode at decoded
  split at decoded <;> try cases decoded
  split at decoded
  · cases decoded
    omega
  · cases decoded

section
variable {S : Type} [StateDB S]

omit [StateDB S] in
theorem binaryBounded {f f' : Frame} {sc sc' : Scope S} {op : Int → Int → Int} (bounded : f.Bounded)
    (word : ∀ a b, Word a → Word b → Word (op a b)) (ok : binary f sc op = .ok (.next f' sc')) : f'.Bounded := by
  simp only [binary,next,Runs.bindOk,Prod.exists] at ok
  obtain ⟨a,b,st,popped,st',pushed,same⟩ := ok
  cases same
  obtain ⟨left,right,words⟩ := pop2Words bounded.words popped
  exact ⟨pushWords words (word a b left right) pushed,bounded.mem⟩

theorem execBounded {ctx : Context} {f f' : Frame} {sc sc' : Scope S} {op : Op} (bounded : f.Bounded)
    (data : ctx.calldata.length < 2 ^ 63) (width : ∀ n, op = .push n → n ≤ 32)
    (ok : exec ctx f sc op = .ok (.next f' sc')) : f'.Bounded := by
  have words := bounded.words
  cases op with
  | stop => cases ok
  | ret | call => simp [exec,Runs.bindOk] at ok
  | add | sub | mul => exact binaryBounded bounded (fun _ _ _ _ => wrapWord _) ok
  | lt | gt | eq =>
    unfold exec at ok
    exact binaryBounded bounded (fun _ _ _ _ => boolWordWord _) ok
  | div => exact binaryBounded bounded (fun _ _ => divWord) ok
  | iszero =>
    simp only [exec,next,Runs.bindOk,Prod.exists] at ok
    obtain ⟨a,st,popped,st',pushed,same⟩ := ok
    cases same
    exact ⟨pushWords (popWords words popped).2 (boolWordWord _) pushed,bounded.mem⟩
  | callvalue =>
    simp only [exec,next,Runs.bindOk] at ok
    obtain ⟨st,pushed,same⟩ := ok
    cases same
    have small := ctx.callValue.toNat_lt
    exact ⟨pushWords words (natWord (by omega)) pushed,bounded.mem⟩
  | calldatasize =>
    simp only [exec,next,Runs.bindOk] at ok
    obtain ⟨st,pushed,same⟩ := ok
    cases same
    exact ⟨pushWords words (natWord (by omega)) pushed,bounded.mem⟩
  | calldataload =>
    simp only [exec,next,Runs.bindOk,Prod.exists] at ok
    obtain ⟨off,st,popped,st',pushed,same⟩ := ok
    cases same
    have short : (readData ctx.calldata off).length ≤ 32 := by
      unfold readData
      split
      · simp
      · rw [windowLength]
    exact ⟨pushWords (popWords words popped).2 (bytesWord short) pushed,bounded.mem⟩
  | pop =>
    simp only [exec,next,Runs.bindOk,Prod.exists] at ok
    obtain ⟨_,st,popped,same⟩ := ok
    cases same
    exact ⟨(popWords words popped).2,bounded.mem⟩
  | mload =>
    simp only [exec,Runs.bindOk,Prod.exists] at ok
    obtain ⟨off,st,popped,idx,mem,window,st',pushed,same⟩ := ok
    cases same
    have covers := memWindowCovers window
    have limit := bounded.mem
    exact ⟨pushWords (popWords words popped).2 (bytesWord (by simp)) pushed,by dsimp only; omega⟩
  | mstore =>
    simp only [exec,Runs.bindOk,Prod.exists] at ok
    obtain ⟨off,st,popped,val,st',popped',idx,mem,window,same⟩ := ok
    cases same
    have covers := memWindowCovers window
    have limit := bounded.mem
    refine ⟨(popWords (popWords words popped).2 popped').2,?_⟩
    dsimp only
    rw [writeMemLength (by simpa using covers.1)]
    omega
  | sload =>
    simp only [exec,next,Runs.bindOk,Prod.exists] at ok
    obtain ⟨key,st,popped,st',pushed,same⟩ := ok
    cases same
    exact ⟨pushWords (popWords words popped).2 (natWord (BitVec.isLt _)) pushed,bounded.mem⟩
  | sstore =>
    simp only [exec,next,Runs.bindOk,Prod.exists] at ok
    obtain ⟨key,st,popped,val,st',popped',same⟩ := ok
    cases same
    exact ⟨(popWords (popWords words popped).2 popped').2,bounded.mem⟩
  | jump =>
    simp only [exec,Runs.bindOk,Prod.exists] at ok
    obtain ⟨dest,st,popped,d,_,same⟩ := ok
    cases same
    exact ⟨(popWords words popped).2,bounded.mem⟩
  | jumpi =>
    simp only [exec,next,Runs.bindOk,Prod.exists] at ok
    obtain ⟨dest,st,popped,cond,st',popped',ok⟩ := ok
    have rest := (popWords (popWords words popped).2 popped').2
    split at ok
    · simp only [Runs.bindOk] at ok
      obtain ⟨d,_,same⟩ := ok
      cases same
      exact ⟨rest,bounded.mem⟩
    · cases ok
      exact ⟨rest,bounded.mem⟩
  | jumpdest =>
    cases ok
    exact ⟨words,bounded.mem⟩
  | push n =>
    simp only [exec,Runs.bindOk] at ok
    obtain ⟨st,pushed,same⟩ := ok
    cases same
    have short := width n rfl
    exact ⟨pushWords words (bytesWord (by rw [windowLength]; exact short)) pushed,bounded.mem⟩
  | dup1 =>
    cases stack : f.stack with
    | nil => simp [exec,stack] at ok
    | cons v st =>
      simp only [exec,stack,next,Runs.bindOk] at ok
      obtain ⟨st',pushed,same⟩ := ok
      cases same
      rw [stack] at words
      exact ⟨pushWords words (words.2 v List.mem_cons_self) pushed,bounded.mem⟩
  | swap1 =>
    simp only [exec,next,Runs.bindOk] at ok
    obtain ⟨st,swapped,same⟩ := ok
    cases same
    exact ⟨swapWords words swapped,bounded.mem⟩

theorem pushZeroBounded {f f' : Frame} (bounded : f.Bounded) (ok : pushZero f = .ok f') : f'.Bounded := by
  obtain ⟨st,pushed,rfl⟩ := pushZeroOk ok
  exact ⟨pushWords bounded.words ⟨le_rfl,by decide⟩ pushed,bounded.mem⟩

theorem callReturnBounded {args : CallArgs} {f f' : Frame} {ret : Bytes} (bounded : f.Bounded)
    (ok : callReturn args f ret = .ok f') : f'.Bounded := by
  have one : Word 1 := ⟨by decide,by decide⟩
  have limit := bounded.mem
  unfold callReturn at ok
  split at ok
  · rename_i i n _ _
    split at ok
    · cases ok
    · rename_i within
      split at ok
      · simp only [Runs.bindOk,Except.ok.injEq] at ok
        obtain ⟨mem,rfl,st,pushed,rfl⟩ := ok
        refine ⟨pushWords bounded.words one pushed,?_⟩
        dsimp only
        rw [writeMemLength (by rw [ensureMemLength]; simp),ensureMemLength]
        omega
      · simp only [Runs.bindOk,Except.ok.injEq] at ok
        obtain ⟨mem,rfl,st,pushed,rfl⟩ := ok
        exact ⟨pushWords bounded.words one pushed,limit⟩
  · cases ok

theorem boundsContract : (interpreter S).Contract (fun c => c.frame.Bounded ∧ c.ctx.calldata.length < 2 ^ 63)
    (fun _ _ => True) where
  ends _ _ := trivial
  goes := fun {c c'} inv turn => by
    refine ⟨?_,fun _ _ => trivial⟩
    rcases goesCases turn with ⟨op,g,f,sc,fetches,done,rfl⟩ | ⟨g,args,st,mem,f,_,popped,refused,pushed,rfl⟩
    · obtain ⟨byte,_,decoded⟩ := fetches.fetched
      refine ⟨execBounded inv.1 inv.2 (fun n push => ?_) done,inv.2⟩
      subst push
      exact pushWidth decoded
    · have limit := inv.1.mem
      have grown : mem.length ≤ maxMemBytes := by
        rcases refused with ⟨_,rfl⟩ | ⟨_,⟨i,n,range⟩,_⟩
        · exact limit
        · exact (memRangeCovers range).2.1.trans (max_le limit le_rfl)
      exact ⟨pushZeroBounded ⟨popCallArgsWords inv.1.words popped,grown⟩ pushed,inv.2⟩
  calls := fun {c callee p} inv turn => by
    obtain ⟨g,args,st,i,n,mem,inner,_,_,_,range,_,rfl,rfl⟩ := callsCases turn
    have small := (memRangeCovers range).2.2
    have short : ((mem.drop i).take n).length ≤ n := by simp
    have limit : maxMemBytes < 2 ^ 63 := by decide
    exact ⟨⟨⟨by simp [calleeOf],by simp [calleeOf]⟩,by simp [calleeOf]⟩,(short.trans small).trans_lt limit⟩
  closes _ _ _ _ := trivial
  back := fun {c callee p r c'} inv turn _ back => by
    refine ⟨?_,fun _ _ => trivial⟩
    obtain ⟨g,args,st,i,n,mem,inner,_,popped,_,range,_,rfl,rfl⟩ := callsCases turn
    have caller : (⟨c.frame.pc,st,mem⟩ : Frame).Bounded :=
      ⟨popCallArgsWords inv.1.words popped,(memRangeCovers range).2.1.trans (max_le inv.1.mem le_rfl)⟩
    rcases backCases back with ⟨g',e,f,_,pushed,rfl⟩ | ⟨g',ret,inner',f,_,returned,rfl⟩
    · exact ⟨pushZeroBounded caller pushed,inv.2⟩
    · exact ⟨callReturnBounded caller returned,inv.2⟩

theorem entryBounded {st : S} {msg : Message} {root : Config S} (fits : msg.data.length < 2 ^ 63)
    (entered : entry st msg = some root) : root.frame.Bounded ∧ root.ctx.calldata.length < 2 ^ 63 := by
  unfold entry at entered
  split at entered
  · cases entered
  · split at entered
    · cases entered
    · cases entered
      exact ⟨⟨⟨by simp,by simp⟩,by simp⟩,fits⟩

/- Whatever the code: at every instruction of every frame the stack holds at most 1024
words of 256 bits and the memory at most 65536 bytes, and no index or slice of the
interpreter is out of range. The length of the message's data is a Go `int`. -/
theorem bytecodeNeverPanics (sha : Bytes → Hash) (st : S) (msg : Message) (fits : msg.data.length < 2 ^ 63) :
    (∀ c, Visits st msg c → c.frame.stack.length ≤ 1024 ∧ (∀ w ∈ c.frame.stack, 0 ≤ w ∧ w < 2 ^ 256) ∧
      c.frame.mem.length ≤ 65536 ∧ Go.turn c = some c.turn) ∧
    Go.execute sha st msg = some (execute sha st msg) := by
  refine ⟨?_,Go.safeExecute sha st msg⟩
  intro c ⟨root,entered,reached⟩
  obtain ⟨bounded,_⟩ := boundsContract.reached (entryBounded fits entered) reached
  exact ⟨bounded.words.1,bounded.words.2,bounded.mem,Go.safeTurn c⟩

def truncatedPush : MptState := setCode MptState.empty 7 [0x7f,0xff]
def truncatedCall : Message := ⟨1,some 7,0,100,0,[0xaa]⟩

theorem truncatedPushSafe : truncatedCall.data.length < 2 ^ 63 ∧
    (∀ c, Visits truncatedPush truncatedCall c → c.frame.stack.length ≤ 1024 ∧
      (∀ w ∈ c.frame.stack, 0 ≤ w ∧ w < 2 ^ 256) ∧ c.frame.mem.length ≤ 65536 ∧ Go.turn c = some c.turn) ∧
    Go.execute (fun _ => 0) truncatedPush truncatedCall = some (execute (fun _ => 0) truncatedPush truncatedCall) :=
  ⟨by decide,bytecodeNeverPanics _ _ _ (by decide)⟩

end
end L1Chain.StackVM
