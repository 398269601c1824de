import L1Chain.StackVMSteps

/-! The balance updates of a message. Every addition to and subtraction from a balance
is logged where the VM makes it, whether or not the frame around it is reverted later.
The log follows `run` instruction by instruction; it changes nothing and is only read.
An update is exact when it does not wrap, and all are where the supply fits 64 bits. -/
namespace L1Chain

inductive BalanceUpdate where
  | add (balance amount : UInt64)
  | sub (balance amount : UInt64)
  | write (amount : Int64)

def BalanceUpdate.Exact : BalanceUpdate → Prop
  | .add balance amount => balance.toNat + amount.toNat < 2 ^ 64
  | .sub balance amount => amount.toNat ≤ balance.toNat
  | .write amount => 0 ≤ amount.toInt

end L1Chain

namespace L1Chain.StackVM
open Runs MptState Ledger

section
variable {S : Type} [StateDB S]

def Scope.transferUpdates (sc : Scope S) (sender to' : Address) (value : UInt64) : List BalanceUpdate :=
  if value = 0 ∨ sender = to' then []
  else
    let f := sc.getAccount sender
    if f.balance < value then []
    else
      let sc := sc.setAccount sender {f with balance := f.balance - value}
      [.sub f.balance value,.add (sc.getAccount to').balance value]

def runUpdates : Nat → GasMeter → Scope S → Nat → Context → Frame → List BalanceUpdate
  | 0, _, _, _, _, _ => []
  | fuel+1, g, sc, depth, ctx, f =>
    match ctx.code[f.pc]? with
    | none => []
    | some byte =>
      match g.charge (gasCost (opcode byte)) with
      | (_,.error _) => []
      | (g,.ok ()) =>
        match opcode byte with
        | none => []
        | some op =>
          match exec ctx f sc op with
          | .error _ => []
          | .ok (.halt _) => []
          | .ok (.next f sc) => runUpdates fuel g sc depth ctx f
          | .ok (.call args f) =>
            if depth + 1 > maxCallDepth then
              match pushZero f with
              | .error _ => []
              | .ok f => runUpdates fuel g sc depth ctx f
            else match memRange f.mem args.argsOff args.argsSize with
            | .error _ => []
            | .ok (i,n,mem) =>
              let f : Frame := ⟨f.pc,f.stack,mem⟩
              sc.child.transferUpdates ctx.self args.to' args.value ++
              match sc.child.transfer ctx.self args.to' args.value with
              | .error _ =>
                match pushZero f with
                | .error _ => []
                | .ok f => runUpdates fuel g sc depth ctx f
              | .ok inner =>
                let callee : Context := ⟨inner.getCode args.to',args.to',args.value,(mem.drop i).take n⟩
                runUpdates fuel g inner (depth + 1) callee ⟨0,[],[]⟩ ++
                match run fuel g inner (depth + 1) callee ⟨0,[],[]⟩ with
                | (_,.error .outOfGas) => []
                | (_,.error .outOfFuel) => []
                | (g,.error _) =>
                  match pushZero f with
                  | .error _ => []
                  | .ok f => runUpdates fuel g sc depth ctx f
                | (g,.ok (ret,inner)) =>
                  match callReturn args f ret with
                  | .error _ => []
                  | .ok f => runUpdates fuel g inner.commit depth ctx f

def executeUpdates (sha : Bytes → Hash) (st : S) (msg : Message) : List BalanceUpdate :=
  let g : GasMeter := ⟨msg.gasLimit,0⟩
  match msg.to' with
  | none =>
    match g.charge gasCreate with
    | (_,.error _) => []
    | (_,.ok ()) => (Scope.new st).transferUpdates msg.sender (createAddress sha msg.sender msg.nonce) msg.value
  | some self =>
    (Scope.new st).transferUpdates msg.sender self msg.value ++
    match (Scope.new st).transfer msg.sender self msg.value with
    | .error _ => []
    | .ok root => runUpdates (fuelFor msg.gasLimit) g root 0 ⟨root.getCode self,self,msg.value,msg.data⟩ ⟨0,[],[]⟩

end

section
variable {sc : Scope MptState} {a b : Address} {v : UInt64} {st : MptState} {u : BalanceUpdate}

theorem transferExact (fits : sc.view.supply < 2 ^ 64) : ∀ u ∈ sc.transferUpdates a b v, u.Exact := by
  intro u member
  unfold Scope.transferUpdates at member
  split at member
  · cases member
  · rename_i moves
    have apart : a ≠ b := fun same => moves (.inr same)
    have room := (pairLeTotal sc.view.balances apart).trans_lt fits
    dsimp only at member
    split at member
    · cases member
    · rename_i enough
      have held : v.toNat ≤ (sc.getAccount a).balance.toNat := UInt64.le_iff_toNat_le.mp (UInt64.not_lt.mp enough)
      rw [accountSet,if_neg apart.symm] at member
      rcases List.mem_cons.mp member with rfl | added
      · exact held
      · rw [List.mem_singleton.mp added]
        have left : sc.view.balances a = (sc.getAccount a).balance.toNat := rfl
        have right : sc.view.balances b = (sc.getAccount b).balance.toNat := rfl
        show (sc.getAccount b).balance.toNat + v.toNat < 2 ^ 64
        omega

theorem runExact (fuel : ℕ) (g : GasMeter) (sc : Scope MptState) (depth : ℕ) (ctx : Context) (f : Frame)
    (own : ctx.code = sc.getCode ctx.self) (fits : sc.view.supply < 2 ^ 64) :
    ∀ u ∈ runUpdates fuel g sc depth ctx f, u.Exact := by
  induction fuel generalizing g sc depth ctx f with
  | zero =>
    intro u member
    cases member
  | succ fuel ih =>
    intro u member
    unfold runUpdates at member
    split at member
    · cases member
    · rename_i byte read
      have coded : ctx.code ≠ [] := by
        intro none
        simp [none] at read
      split at member
      · cases member
      · rename_i g₁ charge
        split at member
        · cases member
        · rename_i op decoded
          split at member
          · cases member
          · cases member
          · rename_i f₁ sc₁ next
            rcases execNext next with ⟨_,rfl⟩ | ⟨key,val,rest,_,_,rfl⟩
            · exact ih _ _ _ _ _ own fits u member
            · refine ih _ (sc.setStorage ctx.self (bigToHash key) (bigToHash val)) _ _ _ own ?_ u member
              rw [viewStorage,supply,storageBalances]
              exact fits
          · rename_i args f₁ call
            split at member
            · split at member
              · cases member
              · exact ih _ _ _ _ _ own fits u member
            · split at member
              · cases member
              · rename_i i n mem range
                dsimp only at member
                rcases List.mem_append.mp member with sent | later
                · exact transferExact (by rw [viewChild]; exact fits) u sent
                · split at later
                  · split at later
                    · cases later
                    · exact ih _ _ _ _ _ own fits u later
                  · rename_i inner paid
                    have paidFits : inner.view.supply < 2 ^ 64 := by
                      obtain ⟨_,funded,moved⟩ := transferOk paid
                      rw [viewChild] at funded moved
                      rw [moved]
                      exact (paySupply funded fits).trans_lt fits
                    let callee : Context := ⟨inner.getCode args.to',args.to',args.value,(mem.drop i).take n⟩
                    have ran := runRan fuel g₁ inner (depth + 1) callee ⟨0,[],[]⟩
                    rcases List.mem_append.mp later with called | after
                    · exact ih _ _ _ callee _ rfl paidFits u called
                    · split at after
                      · cases after
                      · cases after
                      · split at after
                        · cases after
                        · exact ih _ _ _ _ _ own fits u after
                      · rename_i g₂ ret inner' outcome
                        rw [outcome] at ran
                        split at after
                        · cases after
                        · obtain ⟨_,effects,ownAfter⟩ := calledEffects own coded paid (ran.effects rfl rfl)
                          exact ih _ _ _ _ _ ownAfter ((effectsSupply fits effects).trans_lt fits) u after

theorem executeExact (sha : Bytes → Hash) (msg : Message) (fits : st.supply < 2 ^ 64) :
    ∀ u ∈ executeUpdates sha st msg, u.Exact := by
  intro u member
  have start : (Scope.new st).view.supply < 2 ^ 64 := by rwa [newView]
  unfold executeUpdates at member
  dsimp only at member
  split at member
  · split at member
    · cases member
    · exact transferExact start u member
  · rename_i self calls
    rcases List.mem_append.mp member with sent | later
    · exact transferExact start u sent
    · split at later
      · cases later
      · rename_i root paid
        obtain ⟨_,funded,moved⟩ := transferOk paid
        refine runExact _ _ root 0 ⟨root.getCode self,self,msg.value,msg.data⟩ _ rfl ?_ u later
        rw [moved]
        exact (paySupply funded start).trans_lt start

end
end L1Chain.StackVM
