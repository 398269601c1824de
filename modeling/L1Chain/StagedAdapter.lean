import L1Chain.OverlaySteps

/-! The EVM adapter over an overlay and over the state itself. The adapter alone looks at the
code hash and the storage root of a record: in `Exist`, in `Empty` and in the cleanup, which
also writes a record nobody read. Every other call is served alike, and the cleanup keeps the
two in step exactly when it sweeps no code and no storage. -/
namespace L1Chain.Adapter
open Transition MptState Lockstep

section
variable {B d : MptState} {o : OverlayState MptState} {s : StateDB (OverlayState MptState)} {t : StateDB MptState}
  {a : Address} {sha : Bytes → Hash}

def StateDB.rebased {S T : Type} (t : StateDB S) (base : T) : StateDB T where
  base := base
  journal := t.journal
  err := t.err
  refund := t.refund
  touched := t.touched
  selfDestructed := t.selfDestructed
  newContracts := t.newContracts
  warmAddrs := t.warmAddrs
  warmSlots := t.warmSlots
  transient := t.transient
  committed := t.committed
  logs := t.logs
  preimages := t.preimages

def Over (B : MptState) (s : StateDB (OverlayState MptState)) (t : StateDB MptState) : Prop :=
  ∃ o, s = t.rebased o ∧ Staged B o t.base

theorem stagedNonce (staged : Staged B o d) (a : Address) (nonce : UInt64) :
    Staged B (setNonce o a nonce) (setNonce d a nonce) := by
  have twins := staged.twins a
  exact staged.setAccount ⟨twins.balance,rfl,twins.left,twins.right⟩

theorem stagedBalance (staged : Staged B o d) (a : Address) (balance : UInt64) :
    Staged B (setBalance o a balance) (setBalance d a balance) := by
  have twins := staged.twins a
  exact staged.setAccount ⟨rfl,twins.nonce,twins.left,twins.right⟩

theorem stagedInstall (staged : Staged B o d) (a : Address) (code : Bytes) :
    Staged B (installCode o a code) (installCode d a code) := staged.setCode a _

theorem Over.touch (above : Over B s t) (a : Address) : Over B (s.touch a) (t.touch a) := by
  obtain ⟨o,rfl,staged⟩ := above
  exact @branchAlike _ _ (Over B) _ _ _ _ _ _ (fun _ => ⟨o,rfl,staged⟩) (fun _ => ⟨o,rfl,staged⟩)

theorem Over.warm (above : Over B s t) (a : Address) : Over B (s.addWarmAddr a) (t.addWarmAddr a) := by
  obtain ⟨o,rfl,staged⟩ := above
  exact @branchAlike _ _ (Over B) _ _ _ _ _ _ (fun _ => ⟨o,rfl,staged⟩) (fun _ => ⟨o,rfl,staged⟩)

theorem Over.warmSlot (above : Over B s t) (a : Address) (slot : Hash) :
    Over B (s.addWarmSlot a slot) (t.addWarmSlot a slot) := by
  obtain ⟨o,rfl,staged⟩ := above
  exact @branchAlike _ _ (Over B) _ _ _ _ _ _ (fun _ => ⟨o,rfl,staged⟩) (fun _ => ⟨o,rfl,staged⟩)

theorem Over.cache (above : Over B s t) (a : Address) (key : Hash) :
    Over B (s.cacheCommitted a key) (t.cacheCommitted a key) := by
  obtain ⟨o,rfl,staged⟩ := above
  unfold StateDB.cacheCommitted
  cases held : t.committed (a,key) with
  | some v =>
    rw [show (t.rebased o).committed (a,key) = some v from held]
    exact ⟨o,rfl,staged⟩
  | none =>
    rw [show (t.rebased o).committed (a,key) = none from held,
      show getStorage (t.rebased o).base a key = getStorage t.base a key from staged.storage a key]
    exact ⟨o,rfl,staged⟩

theorem Over.write (above : Over B s t) (u : Undo) (staged : Staged B o d) :
    Over B ({s with base := o}.record u) ({t with base := d}.record u) := by
  obtain ⟨_,rfl,_⟩ := above
  exact ⟨o,rfl,staged⟩

theorem Over.staged (above : Over B s t) : Staged B s.base t.base := by
  obtain ⟨o,rfl,staged⟩ := above
  exact staged

theorem Over.undo (above : Over B s t) (u : Undo) : Over B (s.undo u) (t.undo u) := by
  obtain ⟨o,rfl,staged⟩ := above
  cases u with
  | nonce a prev => exact ⟨_,rfl,stagedNonce staged a prev⟩
  | balance a prev => exact ⟨_,rfl,stagedBalance staged a prev⟩
  | code a prev => exact ⟨_,rfl,stagedInstall staged a prev⟩
  | storage a key prev => exact ⟨_,rfl,staged.setStorage a key prev⟩
  | _ => exact ⟨o,rfl,staged⟩

theorem Over.unwind (above : Over B s t) (entries : List Undo) : Over B (s.unwind entries) (t.unwind entries) := by
  induction entries generalizing s t with
  | nil => exact above
  | cons u entries ih => exact ih (above.undo u)

theorem Over.revert (above : Over B s t) (id : ℕ) :
    Option.Rel (Over B) (s.revertToSnapshot id) (t.revertToSnapshot id) := by
  have same : s.journal = t.journal := by
    obtain ⟨o,rfl,_⟩ := above
    rfl
  unfold StateDB.revertToSnapshot
  rw [same]
  split
  · obtain ⟨o,unwound,staged⟩ := above.unwind (t.journal.take (t.journal.length - id))
    exact .some ⟨o,by rw [unwound]; rfl,staged⟩
  · exact .none

def recordBefore (B : MptState) (t : StateDB MptState) (a : Address) : Account :=
  {t.base.accounts a with code := (B.accounts a).code, storage := (B.accounts a).storage}

theorem stagedRecord (staged : Staged B o t.base) (a : Address) : getAccount o a = recordBefore B t a :=
  Account.ext (staged.twins a).balance (staged.twins a).nonce (staged.twins a).left.1 (staged.twins a).left.2

/- Requests answered alike, whether or not code and storage are read from before the block. -/
def Request.Steady (B : MptState) (t : StateDB MptState) : Request → Prop
  | .exist a => a ∉ t.touched → basePersisted (recordBefore B t a) = basePersisted (t.base.accounts a)
  | .empty a => basePersistedEmpty (recordBefore B t a) = basePersistedEmpty (t.base.accounts a)
  | _ => True

def Replies (B : MptState) (x : Reply × StateDB (OverlayState MptState)) (y : Reply × StateDB MptState) : Prop :=
  x.1 = y.1 ∧ Over B x.2 y.2

theorem Over.addBalance (above : Over B s t) (a : Address) (amount : Word) :
    Over B (s.addBalance a amount) (t.addBalance a amount) := by
  have touched := above.touch a
  have balance : (getAccount (s.touch a).base a).balance = (getAccount (t.touch a).base a).balance :=
    (touched.staged.twins a).balance
  unfold StateDB.addBalance StateDB.writeBalance
  dsimp only
  rw [balance]
  split
  · exact touched.write _ (stagedBalance touched.staged a _)
  · obtain ⟨o,same,staged⟩ := touched
    exact ⟨o,by rw [same]; rfl,staged⟩

theorem Over.subBalance (above : Over B s t) (a : Address) (amount : Word) :
    Over B (s.subBalance a amount) (t.subBalance a amount) := by
  have touched := above.touch a
  have balance : (getAccount (s.touch a).base a).balance = (getAccount (t.touch a).base a).balance :=
    (touched.staged.twins a).balance
  unfold StateDB.subBalance StateDB.writeBalance
  dsimp only
  rw [balance]
  split
  · exact touched.write _ (stagedBalance touched.staged a _)
  · obtain ⟨o,same,staged⟩ := touched
    exact ⟨o,by rw [same]; rfl,staged⟩

theorem Over.serve {r : Request} (above : Over B s t) (steady : r.Steady B t) :
    Option.Rel (Replies B) (s.serve sha r) (t.serve sha r) := by
  have staged := above.staged
  have nonce (a : Address) : (getAccount s.base a).nonce = (getAccount t.base a).nonce := (staged.twins a).nonce
  have balance (a : Address) : (getAccount s.base a).balance = (getAccount t.base a).balance := (staged.twins a).balance
  have word (a : Address) (key : Hash) : getStorage s.base a key = getStorage t.base a key := staged.storage a key
  have code (a : Address) : s.code a = t.code a := congrArg Evm.untagCode (staged.code a)
  cases r with
  | getNonce a | getBalance a | getCode a | getCodeSize a | getCodeHash a | getState a key =>
    simp only [StateDB.serve,nonce,balance,code,word]
    exact .some ⟨rfl,above⟩
  | setNonce a v =>
    have touched := above.touch a
    have prev : (getAccount (s.touch a).base a).nonce = (getAccount (t.touch a).base a).nonce :=
      (touched.staged.twins a).nonce
    simp only [StateDB.serve,prev]
    exact .some ⟨rfl,touched.write _ (stagedNonce touched.staged a v)⟩
  | addBalance a amount =>
    simp only [StateDB.serve,balance]
    exact .some ⟨rfl,above.addBalance a amount⟩
  | subBalance a amount =>
    simp only [StateDB.serve,balance]
    exact .some ⟨rfl,above.subBalance a amount⟩
  | setCode a bytes =>
    have touched := above.touch a
    simp only [StateDB.serve,code]
    exact .some ⟨rfl,touched.write _ (stagedInstall touched.staged a bytes)⟩
  | setState a key value =>
    have cached := (above.touch a).cache a key
    have prev : getStorage ((s.touch a).cacheCommitted a key).base a key =
        getStorage ((t.touch a).cacheCommitted a key).base a key := cached.staged.storage a key
    simp only [StateDB.serve,prev]
    exact .some ⟨rfl,cached.write _ (cached.staged.setStorage a key value)⟩
  | getStateAndCommittedState a key =>
    have cached := above.cache a key
    have now : getStorage (s.cacheCommitted a key).base a key = getStorage (t.cacheCommitted a key).base a key :=
      cached.staged.storage a key
    have held : (s.cacheCommitted a key).committed = (t.cacheCommitted a key).committed := by
      obtain ⟨o,same,_⟩ := cached
      rw [same]
      rfl
    simp only [StateDB.serve,now,held]
    exact .some ⟨rfl,cached⟩
  | touch a | createAccount a => exact .some ⟨rfl,above.touch a⟩
  | exist a =>
    obtain ⟨o,rfl,staged⟩ := above
    refine .some ⟨?_,o,rfl,staged⟩
    by_cases known : a ∈ t.touched
    · have known' : a ∈ (t.rebased o).touched := known
      simp [known,known']
    · have new : a ∉ (t.rebased o).touched := known
      have same : basePersisted (getAccount (t.rebased o).base a) = basePersisted (getAccount t.base a) :=
        (congrArg basePersisted (stagedRecord staged a)).trans (steady known)
      simp only [known,new,same]
  | empty a =>
    obtain ⟨o,rfl,staged⟩ := above
    exact .some ⟨congrArg Reply.flag ((congrArg basePersistedEmpty (stagedRecord staged a)).trans steady),o,rfl,staged⟩
  | createContract a =>
    obtain ⟨o,same,staged⟩ := above.touch a
    simp only [StateDB.serve,same]
    exact branchAlike (fun _ => .some ⟨rfl,o,rfl,staged⟩) (fun _ => .some ⟨rfl,o,rfl,staged⟩)
  | selfDestruct a =>
    obtain ⟨o,same,staged⟩ := above.touch a
    simp only [StateDB.serve,same]
    exact branchAlike (fun _ => .some ⟨rfl,o,rfl,staged⟩) (fun _ => .some ⟨rfl,o,rfl,staged⟩)
  | addAddressToAccessList a => exact .some ⟨rfl,above.warm a⟩
  | addSlotToAccessList a slot => exact .some ⟨rfl,(above.warm a).warmSlot a slot⟩
  | revertToSnapshot id =>
    have reverted := above.revert id
    simp only [StateDB.serve]
    generalize s.revertToSnapshot id = left at reverted ⊢
    generalize t.revertToSnapshot id = right at reverted ⊢
    cases reverted with
    | none => exact .none
    | some related => exact .some ⟨rfl,related⟩
  | subRefund gas =>
    obtain ⟨o,rfl,staged⟩ := above
    simp only [StateDB.serve]
    exact branchAlike (fun _ => .none) (fun _ => .some ⟨rfl,o,rfl,staged⟩)
  | setTransientState a key value =>
    obtain ⟨o,rfl,staged⟩ := above
    simp only [StateDB.serve]
    exact branchAlike (fun _ => .some ⟨rfl,o,rfl,staged⟩) (fun _ => .some ⟨rfl,o,rfl,staged⟩)
  | addPreimage hash preimage =>
    obtain ⟨o,rfl,staged⟩ := above
    simp only [StateDB.serve]
    cases held : t.preimages hash with
    | some bytes =>
      rw [show (t.rebased o).preimages hash = some bytes from held]
      exact .some ⟨rfl,o,rfl,staged⟩
    | none =>
      rw [show (t.rebased o).preimages hash = none from held]
      exact .some ⟨rfl,o,rfl,staged⟩
  | _ =>
    obtain ⟨o,rfl,staged⟩ := above
    exact .some ⟨rfl,o,rfl,staged⟩

theorem Over.answers {r : Request} (above : Over B s t) :
    (s.serve sha r).map Prod.fst = (t.serve sha r).map Prod.fst ↔ r.Steady B t := by
  constructor
  · intro alike
    obtain ⟨o,rfl,staged⟩ := above
    have record (a : Address) : getAccount (t.rebased o).base a = recordBefore B t a := stagedRecord staged a
    cases r with
    | exist a =>
      intro new
      have new' : a ∉ (t.rebased o).touched := new
      simpa [StateDB.serve,record,new,new'] using alike
    | empty a => simpa [StateDB.serve,record,Request.Steady] using alike
    | _ => trivial
  · intro steady
    have served : Option.Rel (Replies B) (s.serve sha r) (t.serve sha r) := above.serve steady
    generalize s.serve sha r = left at served ⊢
    generalize t.serve sha r = right at served ⊢
    cases served with
    | none => rfl
    | some replies => exact congrArg some replies.1

def Yields (B : MptState) (x : UInt64 × StateDB (OverlayState MptState)) (y : UInt64 × StateDB MptState) : Prop :=
  x.1 = y.1 ∧ Over B x.2 y.2

theorem Over.interpret {prog : Prog} (above : Over B s t) (steady : IssuesAt sha (Request.Steady B) prog t) :
    Option.Rel (Yields B) (interpret sha prog s) (interpret sha prog t) := by
  induction prog generalizing s t with
  | done gas => exact .some ⟨rfl,above⟩
  | ask r k ih =>
    rw [IssuesAt] at steady
    obtain ⟨allowed,later⟩ := steady
    have served : Option.Rel (Replies B) (s.serve sha r) (t.serve sha r) := above.serve allowed
    rw [Adapter.interpret,Adapter.interpret]
    generalize s.serve sha r = left at served ⊢
    generalize t.serve sha r = right at served later ⊢
    cases served with
    | none => exact .none
    | @some x y replies =>
      obtain ⟨reply,next⟩ := x
      obtain ⟨reply',next'⟩ := y
      obtain ⟨same,above⟩ := replies
      cases same
      exact ih reply above later

def deletesBefore (B : MptState) (t : StateDB MptState) (a : Address) : Bool :=
  t.selfDestructed a || basePersistedEmpty (recordBefore B t a)

/- What the cleanup must not meet: an account it deletes whose code or storage was staged, and
an account it deletes on the overlay that had code or storage before the block. -/
structure Sweeps (B : MptState) (t : StateDB MptState) (a : Address) : Prop where
  after : t.deletes a = true → (t.base.accounts a).code = [] ∧ (t.base.accounts a).storage = fun _ => 0
  before : deletesBefore B t a = true → (B.accounts a).code = [] ∧ (B.accounts a).storage = fun _ => 0

theorem emptyRecord {acct : Account} (empty : basePersistedEmpty acct = true) : acct.balance = 0 ∧ acct.nonce = 0 := by
  simp only [basePersistedEmpty,decide_eq_true_eq] at empty
  exact ⟨empty.1,empty.2.1⟩

theorem judgedApart (apart : t.deletes a ≠ deletesBefore B t a) :
    (t.base.accounts a).balance = 0 ∧ (t.base.accounts a).nonce = 0 := by
  cases destructed : t.selfDestructed a with
  | true => simp [StateDB.deletes,deletesBefore,destructed] at apart
  | false =>
    cases now : basePersistedEmpty (t.base.accounts a) with
    | true => exact emptyRecord now
    | false =>
      have stale : basePersistedEmpty (recordBefore B t a) = true := by
        simpa [StateDB.deletes,deletesBefore,destructed,now] using apart
      exact ⟨(emptyRecord stale).1,(emptyRecord stale).2⟩

theorem finaliseMaps (touched : List Address) : (touched.foldl StateDB.finaliseOne s).base.base = s.base.base ∧
    (∀ a, getCode (touched.foldl StateDB.finaliseOne s).base a = getCode s.base a) ∧
    ∀ a key, getStorage (touched.foldl StateDB.finaliseOne s).base a key = getStorage s.base a key := by
  induction touched generalizing s with
  | nil => exact ⟨rfl,fun _ => rfl,fun _ _ => rfl⟩
  | cons b rest ih =>
    have one : (s.finaliseOne b).base.base = s.base.base ∧ (∀ a, getCode (s.finaliseOne b).base a = getCode s.base a) ∧
        ∀ a key, getStorage (s.finaliseOne b).base a key = getStorage s.base a key := by
      unfold StateDB.finaliseOne
      split
      · exact ⟨rfl,fun _ => rfl,fun _ _ => rfl⟩
      · exact ⟨rfl,fun _ => rfl,fun _ _ => rfl⟩
    obtain ⟨base,code,storage⟩ := @ih (s.finaliseOne b)
    exact ⟨base.trans one.1,fun a => (code a).trans (one.2.1 a),fun a key => (storage a key).trans (one.2.2 a key)⟩

theorem finaliseOverlay (a : Address) : getAccount s.finalise.base a =
    if a ∈ s.touched ∧ s.deletes a = true then Account.zero else getAccount s.base a := by
  have reads (o : OverlayState MptState) (b c : Address) (acct : Account) : getAccount (setAccount o b acct) c =
      if c = b then acct else getAccount o c := @StackVM.accountSet _ _ o.scope b acct c
  exact finaliseReads reads

theorem Over.deletes (above : Over B s t) (a : Address) : s.deletes a = deletesBefore B t a := by
  obtain ⟨o,rfl,staged⟩ := above
  rw [deletesBefore,← stagedRecord staged a]
  rfl

theorem Over.finalise (above : Over B s t) :
    Staged B s.finalise.base t.finalise.base ↔ ∀ a ∈ t.touched, Sweeps B t a := by
  have same : s.touched = t.touched := by
    obtain ⟨o,rfl,_⟩ := above
    rfl
  obtain ⟨base,codes,words⟩ := @finaliseMaps s s.touched
  have left (a : Address) : getAccount s.finalise.base a =
      if a ∈ t.touched ∧ deletesBefore B t a = true then Account.zero else recordBefore B t a := by
    rw [finaliseOverlay,same,above.deletes,stagedRecord above.staged]
  have right (a : Address) : t.finalise.base.accounts a =
      if a ∈ t.touched ∧ t.deletes a = true then Account.zero else t.base.accounts a := finaliseAt
  constructor
  · intro staged a touched
    refine ⟨fun deleted => ?_,fun gone => ?_⟩
    · have zero : t.finalise.base.accounts a = Account.zero := (right a).trans (if_pos ⟨touched,deleted⟩)
      have code := (above.staged.code a).symm.trans ((codes a).symm.trans (staged.code a))
      have word (key : Hash) := (above.staged.storage a key).symm.trans ((words a key).symm.trans (staged.storage a key))
      rw [zero] at code
      exact ⟨code,funext fun key => (word key).trans (by rw [zero]; rfl)⟩
    · have kept := (staged.twins a).left
      rw [(left a).trans (if_pos ⟨touched,gone⟩)] at kept
      exact ⟨kept.1.symm,kept.2.symm⟩
  · intro sweeps
    refine ⟨base.trans above.staged.base,fun a => ?_,fun a => ?_,fun a key => ?_⟩
    · rw [left,right]
      by_cases touched : a ∈ t.touched
      · simp only [touched,true_and]
        by_cases apart : t.deletes a = deletesBefore B t a
        · rw [apart]
          split
          · obtain ⟨code,storage⟩ := (sweeps a touched).before ‹_›
            exact ⟨rfl,rfl,⟨code.symm,storage.symm⟩,⟨rfl,rfl⟩⟩
          · exact ⟨rfl,rfl,⟨rfl,rfl⟩,⟨rfl,rfl⟩⟩
        · obtain ⟨balance,nonce⟩ := judgedApart apart
          refine ⟨?_,?_,?_,rfl,rfl⟩
          · split <;> split <;> first | rfl | exact balance | exact balance.symm
          · split <;> split <;> first | rfl | exact nonce | exact nonce.symm
          · split
            · obtain ⟨code,storage⟩ := (sweeps a touched).before ‹_›
              exact ⟨code.symm,storage.symm⟩
            · exact ⟨rfl,rfl⟩
      · simp only [touched,false_and,if_false]
        exact ⟨rfl,rfl,⟨rfl,rfl⟩,⟨rfl,rfl⟩⟩
    · rw [right]
      refine ((codes a).trans (above.staged.code a)).trans ?_
      split
      · exact ((sweeps a (And.left ‹_›)).after (And.right ‹_›)).1
      · rfl
    · rw [right]
      refine ((words a key).trans (above.staged.storage a key)).trans ?_
      split
      · rw [((sweeps a (And.left ‹_›)).after (And.right ‹_›)).2]
        rfl
      · rfl

end
end L1Chain.Adapter
