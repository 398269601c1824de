import L1Chain.AdapterSteps
import L1Chain.UndoLog

/-! Snapshots of the adapter. Every request that is not itself a revert only adds to the
journal entries that take back all it did, so a revert restores whatever could be
observed when the snapshot was taken. New code is the one write whose undo is exact
only where there was no code before. -/
namespace L1Chain.Adapter
open UndoLog

section
variable {S : Type} [L1Chain.StateDB S] {s mid s' : StateDB S} {u : Undo} {sha : Bytes → Hash}

/- What can be observed of the adapter: all but the journal and the three parts no entry
takes back, which are the latched error, the committed values and the preimages. -/
def StateDB.observed (s : StateDB S) : StateDB S :=
  {s with journal := [], err := none, committed := fun _ => none, preimages := fun _ => none}

def Recalls (s s' : StateDB S) : Prop := Leads StateDB.undo s.journal s.observed s'.journal s'.observed

theorem Recalls.refl (s : StateDB S) : Recalls s s := Leads.refl _ _

theorem Recalls.trans {t : StateDB S} (first : Recalls s mid) (second : Recalls mid t) : Recalls s t :=
  Leads.trans first second

theorem recallsSame (journal : s'.journal = s.journal) (observed : s'.observed = s.observed) : Recalls s s' := by
  rw [Recalls,journal,observed]
  exact Leads.refl _ _

theorem recallsEntry (journal : s'.journal = u::s.journal) (back : s'.observed.undo u = s.observed) : Recalls s s' := by
  rw [Recalls,journal]
  exact Leads.push back

theorem undoObserved (u : Undo) : (s.undo u).observed = s.observed.undo u := by
  cases u <;> rfl

theorem unwindObserved (entries : List Undo) :
    (s.unwind entries).observed = entries.foldl StateDB.undo s.observed := by
  induction entries generalizing s with
  | nil => rfl
  | cons u entries ih => rw [StateDB.unwind,ih,undoObserved,List.foldl_cons]

theorem revertObserved {id : Nat} (reverted : s.revertToSnapshot id = some s') :
    s'.journal = s.journal.drop (s.journal.length - id) ∧
    s'.observed = (s.journal.take (s.journal.length - id)).foldl StateDB.undo s.observed := by
  unfold StateDB.revertToSnapshot at reverted
  split at reverted
  · cases reverted
    exact ⟨rfl,unwindObserved _⟩
  · cases reverted

theorem Recalls.revert {id : Nat} (recalls : Recalls s mid) (later : s.snapshot ≤ id)
    (reverted : mid.revertToSnapshot id = some s') : Recalls s s' := by
  obtain ⟨journal,observed⟩ := revertObserved reverted
  rw [Recalls,journal,observed]
  exact Leads.revert recalls later

theorem Recalls.restore (recalls : Recalls s mid) :
    ∃ s', mid.revertToSnapshot s.snapshot = some s' ∧ s'.journal = s.journal ∧ s'.observed = s.observed := by
  obtain ⟨journal,observed⟩ := Leads.restore recalls
  refine ⟨_,if_pos (Leads.length recalls),journal,?_⟩
  exact (unwindObserved _).trans observed

theorem setBack {K V : Type} [DecidableEq K] {f : K → V} {k : K} {v w : V} (was : f k = w) :
    set (set f k v) k w = f := by
  funext x
  by_cases same : x = k
  · simp [set,same,was]
  · simp [set,same]

theorem touchRecalls (s : StateDB S) (a : Address) : Recalls s (s.touch a) := by
  unfold StateDB.touch
  split
  · exact .refl s
  · rename_i new
    refine recallsEntry rfl ?_
    have others : (a::s.touched).filter (· ≠ a) = s.touched := by
      rw [List.filter_cons_of_neg (by simp),List.filter_eq_self]
      intro b member
      exact decide_eq_true (fun same => new (same ▸ member))
    exact congrArg (fun touched => {s.observed with touched := touched}) others

theorem warmRecalls (s : StateDB S) (a : Address) : Recalls s (s.addWarmAddr a) := by
  unfold StateDB.addWarmAddr
  split
  · exact .refl s
  · rename_i cold
    exact recallsEntry rfl (congrArg (fun warm => {s.observed with warmAddrs := warm})
      (setBack (Bool.eq_false_iff.mpr cold)))

theorem warmSlotRecalls (s : StateDB S) (a : Address) (slot : Hash) : Recalls s (s.addWarmSlot a slot) := by
  unfold StateDB.addWarmSlot
  split
  · exact .refl s
  · rename_i cold
    exact recallsEntry rfl (congrArg (fun warm => {s.observed with warmSlots := warm})
      (setBack (Bool.eq_false_iff.mpr cold)))

theorem cacheRecalls (s : StateDB S) (a : Address) (key : Hash) : Recalls s (s.cacheCommitted a key) := by
  unfold StateDB.cacheCommitted
  split
  · exact .refl s
  · exact recallsSame rfl rfl

theorem writeRecalls {r : Request} {base : S} (write : Wrote s.base r u base) (exact : Undo.back base u = s.base) :
    Recalls s ({s with base := base}.record u) := by
  refine recallsEntry rfl ?_
  have undone : (StateDB.observed ({s with base := base}.record u)).undo u =
      {s.observed with base := Undo.back base u} := by
    cases write <;> rfl
  rw [undone,exact]
  rfl

end

section
variable {s s' : StateDB MptState} {sha : Bytes → Hash} {x : MptState} {r : Request}

/- The code that SetCode replaces, if any, is tagged: taking a SetCode back tags what it put aside. -/
def Request.Restorable (s : StateDB MptState) : Request → Prop
  | .setCode a _ => (s.base.accounts a).code = [] ∨ ∃ runtime ≠ [], (s.base.accounts a).code = Evm.tagCode runtime
  | _ => True

theorem retagged {code : Bytes} (held : code = [] ∨ ∃ runtime ≠ [], code = Evm.tagCode runtime) :
    (if Evm.untagCode code = [] then [] else Evm.tagCode (Evm.untagCode code)) = code := by
  rcases held with rfl | ⟨runtime,some,rfl⟩
  · rfl
  · have own : Evm.untagCode (Evm.tagCode runtime) = runtime := by
      simp [Evm.untagCode,Evm.isTaggedCode,Evm.tagCode]
    rw [own,if_neg some]

theorem codeExact {a : Address} (code : Bytes)
    (held : getCode x a = [] ∨ ∃ runtime ≠ [], getCode x a = Evm.tagCode runtime) :
    installCode (installCode x a code) a (Evm.untagCode (getCode x a)) = x := by
  refine putBack (Account.ext ?_ ?_ (retagged held) ?_) <;> simp [installCode]

theorem touchBase {S : Type} (s : StateDB S) (a : Address) : (s.touch a).base = s.base :=
  (touchNoted (r := .touch a) s a).base

theorem serveRecalls {reply : Reply} (restorable : r.Restorable s) (onward : ∀ id, r ≠ .revertToSnapshot id)
    (ok : s.serve sha r = some (reply,s')) : Recalls s s' := by
  cases r with
  | setNonce a nonce =>
    cases ok
    exact (touchRecalls s a).trans (writeRecalls (.nonce a nonce) (nonceBack _ a nonce))
  | addBalance a amount =>
    cases ok
    unfold StateDB.addBalance
    dsimp only
    split
    · exact (touchRecalls s a).trans (writeRecalls (.added a amount _) (balanceBack _ a _))
    · exact (touchRecalls s a).trans (recallsSame rfl rfl)
  | subBalance a amount =>
    cases ok
    unfold StateDB.subBalance
    dsimp only
    split
    · exact (touchRecalls s a).trans (writeRecalls (.taken a amount _) (balanceBack _ a _))
    · exact (touchRecalls s a).trans (recallsSame rfl rfl)
  | setCode a code =>
    have prev : s.code a = Evm.untagCode (getCode (s.touch a).base a) := by rw [touchBase,StateDB.code]
    cases ok
    rw [prev]
    refine (touchRecalls s a).trans (writeRecalls (.code a code) (codeExact code ?_))
    rw [touchBase]
    exact restorable
  | setState a key value =>
    cases ok
    exact ((touchRecalls s a).trans (cacheRecalls _ a key)).trans
      (writeRecalls (.storage a key value) (storageBack _ a key value))
  | addRefund gas =>
    cases ok
    exact recallsEntry rfl rfl
  | subRefund gas =>
    simp only [StateDB.serve] at ok
    split at ok
    · cases ok
    · cases ok
      exact recallsEntry rfl rfl
  | touch a | createAccount a =>
    cases ok
    exact touchRecalls s a
  | createContract a =>
    refine (touchRecalls s a).trans ?_
    simp only [StateDB.serve] at ok
    split at ok
    · cases ok
      exact .refl _
    · rename_i old
      cases ok
      exact recallsEntry rfl (congrArg (fun new => {(s.touch a).observed with newContracts := new})
        (setBack (Bool.eq_false_iff.mpr old)))
  | selfDestruct a =>
    refine (touchRecalls s a).trans ?_
    simp only [StateDB.serve] at ok
    split at ok
    · cases ok
      exact .refl _
    · rename_i alive
      cases ok
      exact recallsEntry rfl (congrArg (fun gone => {(s.touch a).observed with selfDestructed := gone})
        (setBack (Bool.eq_false_iff.mpr alive)))
  | addAddressToAccessList a =>
    cases ok
    exact warmRecalls s a
  | addSlotToAccessList a slot =>
    cases ok
    exact (warmRecalls s a).trans (warmSlotRecalls _ a slot)
  | setTransientState a key value =>
    simp only [StateDB.serve] at ok
    split at ok
    · cases ok
      exact .refl s
    · cases ok
      exact recallsEntry rfl (congrArg (fun transient => {s.observed with transient := transient}) (setBack rfl))
  | getStateAndCommittedState a key =>
    cases ok
    exact cacheRecalls s a key
  | addLog a topics data =>
    cases ok
    exact recallsEntry rfl (congrArg (fun logs => {s.observed with logs := logs}) List.dropLast_concat)
  | addPreimage hash preimage =>
    simp only [StateDB.serve] at ok
    split at ok
    · cases ok
      exact .refl s
    · cases ok
      exact recallsSame rfl rfl
  | revertToSnapshot id => exact absurd rfl (onward id)
  | _ =>
    cases ok
    exact .refl s

/- A revert goes to a snapshot taken since `id` that the journal still holds: reverting below
a snapshot makes it invalid. -/
def Request.StaysAbove (id : Nat) (s : StateDB MptState) (r : Request) : Prop :=
  ∀ n, r = .revertToSnapshot n → id ≤ n ∧ n ≤ s.snapshot

def Request.Follows (id : Nat) (s : StateDB MptState) (r : Request) : Prop := r.Restorable s ∧ r.StaysAbove id s

theorem followsRecalls {start : StateDB MptState} {reply : Reply} (follows : r.Follows start.snapshot s)
    (recalls : Recalls start s) (ok : s.serve sha r = some (reply,s')) : Recalls start s' := by
  by_cases reverts : ∃ id, r = .revertToSnapshot id
  · obtain ⟨id,rfl⟩ := reverts
    simp only [StateDB.serve,Option.map_eq_some_iff] at ok
    obtain ⟨back,reverted,same⟩ := ok
    cases same
    exact recalls.revert (follows.2 id rfl).1 reverted
  · exact recalls.trans (serveRecalls follows.1 (fun id same => reverts ⟨id,same⟩) ok)

theorem interpretRecalls {prog : Prog} {gas : UInt64} (issues : IssuesAt sha (Request.Follows s.snapshot) prog s)
    (ran : interpret sha prog s = some (gas,s')) : Recalls s s' :=
  interpretKeepsAt followsRecalls issues (.refl s) ran

def Request.Reads : Request → Prop
  | .getNonce _ | .getBalance _ | .getCode _ | .getCodeSize _ | .getCodeHash _ | .getRefund | .exist _ | .empty _
  | .isNewContract _ | .hasSelfDestructed _ | .addressInAccessList _ | .slotInAccessList .. | .getTransientState ..
  | .getState .. => True
  | _ => False

def StateDB.reply (sha : Bytes → Hash) (s : StateDB MptState) (r : Request) : Option Reply := (s.serve sha r).map Prod.fst

theorem readsObserved (reads : r.Reads) : s.reply sha r = s.observed.reply sha r := by
  cases r <;> first | rfl | exact reads.elim

theorem observedParts (same : s'.observed = s.observed) :
    s'.base = s.base ∧ s'.touched = s.touched ∧ s'.logs = s.logs := by
  have base : s'.observed.base = s.observed.base := congrArg StateDB.base same
  have touched : s'.observed.touched = s.observed.touched := congrArg StateDB.touched same
  have logs : s'.observed.logs = s.observed.logs := congrArg StateDB.logs same
  exact ⟨base,touched,logs⟩

theorem snapshotExact (sha : Bytes → Hash) (s s₁ : StateDB MptState) (calls : Prog) (gas : UInt64)
    (issues : IssuesAt sha (Request.Follows s.snapshot) calls s) (ran : interpret sha calls s = some (gas,s₁)) :
    ∃ s₂, s₁.revertToSnapshot s.snapshot = some s₂ ∧ s₂.base = s.base ∧ s₂.logs = s.logs ∧
      (∀ r, r.Reads → s₂.reply sha r = s.reply sha r) ∧ s₂.observed = s.observed ∧ s₂.journal = s.journal := by
  obtain ⟨s₂,reverted,journal,observed⟩ := (interpretRecalls issues ran).restore
  obtain ⟨base,_,logs⟩ := observedParts observed
  refine ⟨s₂,reverted,base,logs,?_,observed,journal⟩
  intro r reads
  rw [readsObserved reads,observed,← readsObserved reads]

def paidAccount : StateDB MptState := (new MptState.empty).addBalance 3 4

def nestedCalls : Prog :=
  .ask (.addBalance 1 7) fun _ => .ask .snapshot fun _ => .ask (.setCode 2 [1]) fun _ => .ask (.addLog 2 [] [9]) fun _ =>
    .ask (.revertToSnapshot 4) fun _ => .ask (.setState 2 5 6) fun _ => .done 0

theorem nestedFollows : IssuesAt (fun _ => 0) (Request.Follows paidAccount.snapshot) nestedCalls paidAccount :=
  ⟨⟨trivial,nofun⟩,⟨trivial,nofun⟩,⟨.inl rfl,nofun⟩,⟨trivial,nofun⟩,⟨trivial,fun n same => by cases same; decide⟩,
    ⟨trivial,nofun⟩,trivial⟩

theorem nestedRestored : IssuesAt (fun _ => 0) (Request.Follows paidAccount.snapshot) nestedCalls paidAccount ∧
    ∃ s₁, interpret (fun _ => 0) nestedCalls paidAccount = some (0,s₁) ∧
      ∃ s₂, s₁.revertToSnapshot paidAccount.snapshot = some s₂ ∧ s₂.base = paidAccount.base ∧
        s₂.logs = paidAccount.logs ∧ (∀ r, r.Reads → s₂.reply (fun _ => 0) r = paidAccount.reply (fun _ => 0) r) ∧
        s₂.observed = paidAccount.observed ∧ s₂.journal = paidAccount.journal :=
  ⟨nestedFollows,_,rfl,snapshotExact _ _ _ nestedCalls 0 nestedFollows rfl⟩

end

section
variable {s s' : StateDB MptState} {sha : Bytes → Hash} {base : MptState} {a : Address} {key : Hash} {r : Request}
  {u : Undo} {start : Address → Hash → Hash} {old : List Undo}

def StateDB.lasting {S : Type} (s : StateDB S) : Option AdapterErr × (Address × Hash → Option Hash) := (s.err,s.committed)

theorem touchLasting {S : Type} (s : StateDB S) (a : Address) : (s.touch a).lasting = s.lasting := by
  unfold StateDB.touch
  split <;> rfl

theorem warmLasting {S : Type} (s : StateDB S) (a : Address) : (s.addWarmAddr a).lasting = s.lasting := by
  unfold StateDB.addWarmAddr
  split <;> rfl

theorem warmSlotLasting {S : Type} (s : StateDB S) (a : Address) (slot : Hash) :
    (s.addWarmSlot a slot).lasting = s.lasting := by
  unfold StateDB.addWarmSlot
  split <;> rfl

theorem unwindLasting (entries : List Undo) : (s.unwind entries).lasting = s.lasting := by
  induction entries generalizing s with
  | nil => rfl
  | cons u entries ih =>
    rw [StateDB.unwind,ih]
    cases u <;> rfl

theorem revertLasting {id : Nat} (reverted : s.revertToSnapshot id = some s') : s'.lasting = s.lasting := by
  unfold StateDB.revertToSnapshot at reverted
  split at reverted
  · cases reverted
    exact unwindLasting _
  · cases reverted

def Request.Lasts : Request → Prop
  | .addBalance .. | .subBalance .. | .setState .. | .getStateAndCommittedState .. => True
  | _ => False

theorem servedLasting {reply : Reply} (passing : ¬ r.Lasts) (ok : s.serve sha r = some (reply,s')) :
    s'.lasting = s.lasting := by
  cases r with
  | addBalance b amount | subBalance b amount | setState b k value | getStateAndCommittedState b k =>
    exact absurd trivial passing
  | setNonce b nonce | setCode b code | touch b | createAccount b =>
    cases ok
    exact touchLasting s b
  | createContract b | selfDestruct b =>
    simp only [StateDB.serve] at ok
    split at ok <;> cases ok <;> exact touchLasting s b
  | addAddressToAccessList b =>
    cases ok
    exact warmLasting s b
  | addSlotToAccessList b slot =>
    cases ok
    exact (warmSlotLasting _ b slot).trans (warmLasting s b)
  | revertToSnapshot id =>
    simp only [StateDB.serve,Option.map_eq_some_iff] at ok
    obtain ⟨back,reverted,same⟩ := ok
    cases same
    exact revertLasting reverted
  | subRefund gas | setTransientState b k value | addPreimage hash preimage =>
    simp only [StateDB.serve] at ok
    split at ok <;> cases ok <;> rfl
  | _ =>
    cases ok
    rfl

theorem cacheAt (s : StateDB MptState) (b : Address) (k : Hash) :
    (s.cacheCommitted b k).committed (a,key) = s.committed (a,key) ∨
    (b = a ∧ k = key) ∧ s.committed (a,key) = none ∧
      (s.cacheCommitted b k).committed (a,key) = some ((s.base.accounts a).storage key) := by
  cases held : s.committed (b,k) with
  | some v => exact .inl (by rw [StateDB.cacheCommitted,held])
  | none =>
    rw [StateDB.cacheCommitted,held]
    by_cases own : (a,key) = (b,k)
    · cases own
      exact .inr ⟨⟨rfl,rfl⟩,held,if_pos rfl⟩
    · exact .inl (if_neg own)

theorem cacheHolds (s : StateDB MptState) (a : Address) (key : Hash) :
    (s.cacheCommitted a key).committed (a,key) ≠ none := by
  cases held : s.committed (a,key) with
  | some v => simp [StateDB.cacheCommitted,held]
  | none => simp [StateDB.cacheCommitted,held,set]

theorem servedCommitted {reply : Reply} (ok : s.serve sha r = some (reply,s')) :
    (s'.committed (a,key) = s.committed (a,key) ∨
      s.committed (a,key) = none ∧ s'.committed (a,key) = some ((s.base.accounts a).storage key)) ∧
    ∀ value, r = .setState a key value → s'.committed (a,key) ≠ none := by
  cases r with
  | setState b k value =>
    cases ok
    refine ⟨?_,fun value own => ?_⟩
    · have cached := @cacheAt a key (s.touch b) b k
      rw [show (s.touch b).committed = s.committed from congrArg Prod.snd (touchLasting s b),touchBase] at cached
      exact cached.imp id And.right
    · cases own
      exact cacheHolds (s.touch a) a key
  | getStateAndCommittedState b k =>
    cases ok
    exact ⟨(cacheAt s b k).imp id And.right,nofun⟩
  | addBalance b amount =>
    cases ok
    unfold StateDB.addBalance
    dsimp only
    split <;> exact ⟨.inl (congrFun (congrArg Prod.snd (touchLasting s b)) _),nofun⟩
  | subBalance b amount =>
    cases ok
    unfold StateDB.subBalance
    dsimp only
    split <;> exact ⟨.inl (congrFun (congrArg Prod.snd (touchLasting s b)) _),nofun⟩
  | _ => exact ⟨.inl (congrFun (congrArg Prod.snd (servedLasting id ok)) _),nofun⟩

theorem backSlot (other : ∀ prev, u ≠ .storage a key prev) :
    ((Undo.back base u).accounts a).storage key = (base.accounts a).storage key := by
  have kept {x : MptState} (same : Field.storage.Same (x.accounts a) (base.accounts a)) :
      (x.accounts a).storage key = (base.accounts a).storage key := congrFun same key
  cases u with
  | nonce b prev => exact kept (nonceSame (fun field => nomatch field))
  | balance b prev => exact kept (balanceSame (fun field => nomatch field))
  | code b prev => exact kept (codeSame (fun field => nomatch field))
  | storage b k prev =>
    by_cases own : a = b
    · subst own
      have apart : key ≠ k := fun same => other prev (by rw [same])
      simp [Undo.back,apart]
    · simp [Undo.back,own]
  | _ => rfl

theorem unwindSlot {entries : List Undo} (others : ∀ prev, .storage a key prev ∉ entries) :
    ((entries.foldl Undo.back base).accounts a).storage key = (base.accounts a).storage key := by
  induction entries generalizing base with
  | nil => rfl
  | cons u entries ih =>
    rw [List.foldl_cons,ih (fun prev member => others prev (List.mem_cons_of_mem _ member))]
    exact backSlot (fun prev same => others prev (same ▸ List.mem_cons_self))

/- Of the values slots had at the start, the cached ones are on record, and the others are
still there, with nothing in the journal since that could change them. -/
structure Baseline (start : Address → Hash → Hash) (old : List Undo) (s : StateDB MptState) : Prop where
  cached : ∀ a key v, s.committed (a,key) = some v → v = start a key
  uncached : ∀ a key, s.committed (a,key) = none → (s.base.accounts a).storage key = start a key
  journal : ∃ newer, s.journal = newer ++ old ∧ ∀ a key prev, .storage a key prev ∈ newer → s.committed (a,key) ≠ none

theorem wroteSlot {after : MptState} (write : Wrote base r u after) :
    (∃ value, r = .setState a key value) ∨
    (after.accounts a).storage key = (base.accounts a).storage key ∧ ∀ prev, u ≠ .storage a key prev := by
  have kept {x : MptState} (same : Field.storage.Same (x.accounts a) (base.accounts a)) :
      (x.accounts a).storage key = (base.accounts a).storage key := congrFun same key
  cases write with
  | nonce b nonce => exact .inr ⟨kept (nonceSame (fun field => nomatch field)),nofun⟩
  | added b amount balance | taken b amount balance =>
    exact .inr ⟨kept (balanceSame (fun field => nomatch field)),nofun⟩
  | code b code => exact .inr ⟨kept (codeSame (fun field => nomatch field)),nofun⟩
  | storage b k value =>
    by_cases own : a = b ∧ key = k
    · obtain ⟨rfl,rfl⟩ := own
      exact .inl ⟨value,rfl⟩
    · refine .inr ⟨?_,fun prev same => ?_⟩
      · rw [MptState.setStorageAt]
        split
        · rename_i here
          subst here
          exact if_neg (fun same => own ⟨rfl,same⟩)
        · rfl
      · cases same
        exact own ⟨rfl,rfl⟩

theorem revertBase {id : Nat} (reverted : s.revertToSnapshot id = some s') :
    s'.base = (s.journal.take (s.journal.length - id)).foldl Undo.back s.base := by
  unfold StateDB.revertToSnapshot at reverted
  split at reverted
  · cases reverted
    exact unwindBase _
  · cases reverted

theorem Baseline.serve {reply : Reply} (baseline : Baseline start old s) (above : r.StaysAbove old.length s)
    (ok : s.serve sha r = some (reply,s')) : Baseline start old s' := by
  have remains : ∀ a key, s'.committed (a,key) = none → s.committed (a,key) = none := by
    intro a key none
    rcases (servedCommitted ok).1 with same | ⟨before,_⟩
    · exact same ▸ none
    · exact before
  have cached : ∀ a key v, s'.committed (a,key) = some v → v = start a key := by
    intro a key v held
    rcases (servedCommitted ok).1 with same | ⟨before,taken⟩
    · exact baseline.cached a key v (same ▸ held)
    · cases held.symm.trans taken
      exact baseline.uncached a key before
  obtain ⟨newer,journal,covered⟩ := baseline.journal
  have covers : ∀ a key prev, .storage a key prev ∈ newer → s'.committed (a,key) ≠ none :=
    fun a key prev member none => covered a key prev member (remains a key none)
  cases served ok with
  | noted notes =>
    obtain ⟨base,⟨entries,quiet,onto⟩,_⟩ := notes
    refine ⟨cached,fun a key none => ?_,entries ++ newer,by rw [onto,journal,List.append_assoc],?_⟩
    · rw [base]
      exact baseline.uncached a key (remains a key none)
    · intro a key prev member
      rcases List.mem_append.mp member with noted | older
      · exact (quiet _ noted).elim
      · exact covers a key prev older
  | wrote notes write onto _ =>
    obtain ⟨base,⟨entries,quiet,before⟩,_⟩ := notes
    refine ⟨cached,fun a key none => ?_,_::(entries ++ newer),by rw [onto,before,journal,List.cons_append,List.append_assoc],?_⟩
    · rcases wroteSlot write with ⟨value,sets⟩ | ⟨same,_⟩
      · exact absurd none ((servedCommitted ok).2 value sets)
      · rw [same,base]
        exact baseline.uncached a key (remains a key none)
    · intro a key prev member
      rcases List.mem_cons.mp member with new | other
      · rcases wroteSlot write with ⟨value,sets⟩ | ⟨_,apart⟩
        · exact (servedCommitted ok).2 value sets
        · exact absurd new.symm (apart prev)
      · rcases List.mem_append.mp other with noted | older
        · exact (quiet _ noted).elim
        · exact covers a key prev older
  | @reverted id asks back =>
    obtain ⟨k,left,off⟩ := cutAbove newer (above id asks).1
    have base := revertBase back
    rw [journal,off] at base
    refine ⟨cached,fun a key none => ?_,newer.drop k,?_,fun a key prev member => ?_⟩
    · rw [base,unwindSlot (fun prev member => covers a key prev (List.mem_of_mem_take member) none)]
      exact baseline.uncached a key (remains a key none)
    · rw [(revertObserved back).1,journal,left]
    · exact covers a key prev (List.mem_of_mem_drop member)

theorem committedSincePrepare (sha : Bytes → Hash) (s s₁ : StateDB MptState) (sender coinbase : Address)
    (dst : Option Address) (precompiles : List Address) (calls : Prog) (gas : UInt64)
    (issues : IssuesAt sha (Request.StaysAbove s.snapshot) calls (s.prepare sender coinbase dst precompiles))
    (ran : interpret sha calls (s.prepare sender coinbase dst precompiles) = some (gas,s₁)) (a : Address) (key : Hash) :
    s₁.reply sha (.getStateAndCommittedState a key) = some (.hashes (getStorage s₁.base a key) (getStorage s.base a key)) := by
  have start : Baseline (getStorage s.base) s.journal (s.prepare sender coinbase dst precompiles) :=
    ⟨fun _ _ _ held => (nomatch held),fun _ _ _ => rfl,[],rfl,fun _ _ _ member => (nomatch member)⟩
  have baseline : Baseline (getStorage s.base) s.journal s₁ :=
    interpretKeepsAt (fun above baseline served => Baseline.serve baseline above served) issues start ran
  have last : (s₁.cacheCommitted a key).committed (a,key) = some (getStorage s.base a key) := by
    cases held : (s₁.cacheCommitted a key).committed (a,key) with
    | none => exact absurd held (cacheHolds s₁ a key)
    | some v =>
      rcases @cacheAt a key s₁ a key with same | ⟨_,before,taken⟩
      · rw [baseline.cached a key v (same ▸ held)]
      · rw [← held,taken,baseline.uncached a key before]
  have base : (s₁.cacheCommitted a key).base = s₁.base := (cacheNoted (Noted.refl (r := .touch a) s₁) a key).base
  simp only [StateDB.reply,StateDB.serve,Option.map_some,base,last,Option.getD_some]

def wordCalls : Prog :=
  .ask (.setState 3 5 6) fun _ => .ask .snapshot fun _ => .ask (.setState 3 5 7) fun _ => .ask (.revertToSnapshot 3) fun _ =>
    .done 0

def preparedAccount : StateDB MptState := paidAccount.prepare 3 0 none []

theorem wordCallsAbove : IssuesAt (fun _ => 0) (Request.StaysAbove paidAccount.snapshot) wordCalls preparedAccount :=
  ⟨nofun,nofun,nofun,fun n same => by cases same; decide,trivial⟩

theorem wordCommitted : IssuesAt (fun _ => 0) (Request.StaysAbove paidAccount.snapshot) wordCalls preparedAccount ∧
    ∃ s₁, interpret (fun _ => 0) wordCalls preparedAccount = some (0,s₁) ∧
      s₁.reply (fun _ => 0) (.getStateAndCommittedState 3 5) =
        some (.hashes (getStorage s₁.base 3 5) (getStorage paidAccount.base 3 5)) :=
  ⟨wordCallsAbove,_,rfl,committedSincePrepare _ paidAccount _ 3 0 none [] wordCalls 0 wordCallsAbove rfl 3 5⟩

end
end L1Chain.Adapter
