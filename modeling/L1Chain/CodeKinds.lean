import L1Chain.Solvency

/-! Two ways to install code. The interpreter stores code under a tag and a contract
creation of the stack machine stores its data as it stands; the tag is all that
dispatch looks at later. Each state is followed together with a record of which of
the two wrote the code that stands at an address. -/
namespace L1Chain.Evm

theorem taggedTag (runtime : Bytes) : isTaggedCode (tagCode runtime) = true := by
  simp [isTaggedCode,tagCode]

theorem untagEmpty {code : Bytes} (empty : untagCode code = []) : code = [] ∨ code = codeMagic := by
  unfold untagCode at empty
  split at empty
  · rename_i tagged
    simp only [isTaggedCode,decide_eq_true_eq] at tagged
    have whole := List.take_append_drop codeMagic.length code
    rw [tagged.2,empty,List.append_nil] at whole
    exact .inr whole.symm
  · exact .inl empty

structure Kind (code : Bytes) (evm : Bool) : Prop where
  tagged : isTaggedCode code = true ↔ code ≠ [] ∧ evm = true
  bare : code ≠ codeMagic

theorem kindEmpty (evm : Bool) : Kind [] evm := ⟨by simp [isTaggedCode,codeMagic],by decide⟩

theorem kindTagged {runtime : Bytes} (some : runtime ≠ []) : Kind (tagCode runtime) true where
  tagged := ⟨fun _ => ⟨by simp [tagCode,codeMagic],rfl⟩,fun _ => taggedTag runtime⟩
  bare same := some (List.append_right_eq_self.mp same)

theorem kindPlain {code : Bytes} : Kind code false ↔ isTaggedCode code = false := by
  constructor
  · intro kind
    cases tagged : isTaggedCode code with
    | false => rfl
    | true => cases (kind.tagged.mp tagged).2
  · intro plain
    refine ⟨by simp [plain],?_⟩
    rintro rfl
    exact absurd plain (by decide)

end L1Chain.Evm

namespace L1Chain.Adapter
open Evm MptState

def Request.Fresh (s : StateDB MptState) : Request → Prop
  | .setCode a _ => s.code a = []
  | _ => True

def wroteCode (journal : List Undo) (a : Address) : Bool :=
  journal.any (fun u => match u with
    | .code b _ => b = a
    | _ => false)

/- During a message: where code was written there was none before, and there is none now or
tagged code; everywhere else it is what the message started from. -/
structure Tracked (start : MptState) (base : MptState) (journal : List Undo) : Prop where
  kept : ∀ a, wroteCode journal a = false → (base.accounts a).code = (start.accounts a).code
  fresh : ∀ a prev, .code a prev ∈ journal → prev = []
  wrote : ∀ a, wroteCode journal a = true → (start.accounts a).code = [] ∧
    ((base.accounts a).code = [] ∨ ∃ runtime, runtime ≠ [] ∧ (base.accounts a).code = tagCode runtime)

section
variable {start base base' : MptState} {journal : List Undo} {s s' mid : StateDB MptState} {u : Undo} {r : Request}
  {a : Address} {sha : Bytes → Hash}

theorem wroteCons (a b : Address) (prev : Bytes) (journal : List Undo) :
    wroteCode (.code b prev::journal) a = (decide (b = a) || wroteCode journal a) := rfl

theorem trackedStart (start : MptState) : Tracked start start [] :=
  ⟨fun _ _ => rfl,fun _ _ member => (nomatch member),fun _ none => by cases none⟩

theorem installedAt (base : MptState) (a b : Address) (code : Bytes) : ((installCode base b code).accounts a).code =
    if a = b then (if code = [] then [] else tagCode code) else (base.accounts a).code := by
  rw [installCode,setCodeAt]
  split <;> rfl

theorem Tracked.beside (tracked : Tracked start base journal) (same : Agree .code base' base)
    (notes : List Undo) (other : ∀ u ∈ notes, ∀ b prev, u ≠ .code b prev) : Tracked start base' (notes ++ journal) := by
  have quiet : ∀ a, wroteCode (notes ++ journal) a = wroteCode journal a := by
    intro a
    have none : wroteCode notes a = false := by
      rw [wroteCode,List.any_eq_false]
      intro u member
      cases u with
      | code b prev => exact absurd rfl (other _ member b prev)
      | _ => simp
    rw [wroteCode,List.any_append]
    change (wroteCode notes a || wroteCode journal a) = _
    rw [none,Bool.false_or]
  refine ⟨fun a none => ?_,fun a prev member => ?_,fun a some => ?_⟩
  · rw [same a]
    exact tracked.kept a (quiet a ▸ none)
  · rcases List.mem_append.mp member with note | older
    · exact absurd rfl (other _ note a prev)
    · exact tracked.fresh a prev older
  · rw [same a]
    exact tracked.wrote a (quiet a ▸ some)

theorem Tracked.install (clean : ∀ a, (start.accounts a).code ≠ codeMagic) (tracked : Tracked start base journal)
    (code : Bytes) (fresh : untagCode (getCode base a) = []) :
    Tracked start (installCode base a code) (.code a (untagCode (getCode base a))::journal) := by
  rw [getCodeEq] at fresh ⊢
  have empty : (start.accounts a).code = [] := by
    cases written : wroteCode journal a with
    | true => exact (tracked.wrote a written).1
    | false =>
      rw [tracked.kept a written] at fresh
      exact (untagEmpty fresh).resolve_right (clean a)
  refine ⟨fun x none => ?_,fun x prev member => ?_,fun x some => ?_⟩
  · rw [wroteCons,Bool.or_eq_false_iff,decide_eq_false_iff_not] at none
    rw [installedAt,if_neg (Ne.symm none.1)]
    exact tracked.kept x none.2
  · rcases List.mem_cons.mp member with same | older
    · cases same
      exact fresh
    · exact tracked.fresh x prev older
  · rw [installedAt]
    by_cases own : x = a
    · rw [if_pos own,own]
      refine ⟨empty,?_⟩
      split
      · exact .inl rfl
      · rename_i some
        exact .inr ⟨code,some,rfl⟩
    · rw [if_neg own]
      rw [wroteCons,decide_eq_false (Ne.symm own),Bool.false_or] at some
      exact tracked.wrote x some

theorem Tracked.back (tracked : Tracked start base (u::journal)) : Tracked start (Undo.back base u) journal := by
  have tail : (∀ b prev, u ≠ .code b prev) → ∀ a, wroteCode (u::journal) a = wroteCode journal a := by
    intro other a
    cases u with
    | code b prev => exact absurd rfl (other b prev)
    | _ => rfl
  have idle : (∀ b prev, u ≠ .code b prev) → Agree .code (Undo.back base u) base → Tracked start (Undo.back base u) journal :=
    fun other same => {
      kept a none := (same a).trans (tracked.kept a ((tail other a).trans none))
      fresh a prev member := tracked.fresh a prev (List.mem_cons_of_mem _ member)
      wrote a some := by
        rw [same a]
        exact tracked.wrote a ((tail other a).trans some) }
  cases u with
  | code b prev =>
    have blank := tracked.fresh b prev List.mem_cons_self
    refine ⟨fun x none => ?_,fun x prev member => tracked.fresh x prev (List.mem_cons_of_mem _ member),fun x some => ?_⟩
    · rw [Undo.back,blank,installedAt]
      by_cases own : x = b
      · rw [if_pos own,if_pos rfl,own]
        exact (tracked.wrote b (by simp [wroteCons])).1.symm
      · rw [if_neg own]
        exact tracked.kept x (by rw [wroteCons,decide_eq_false (Ne.symm own),none]; rfl)
    · rw [Undo.back,blank,installedAt]
      obtain ⟨empty,now⟩ := tracked.wrote x (by rw [wroteCons,some,Bool.or_true])
      refine ⟨empty,?_⟩
      split
      · exact .inl (if_pos rfl)
      · exact now
  | nonce b prev => exact idle (fun _ _ => nofun) (fun _ => nonceSame nofun)
  | balance b prev => exact idle (fun _ _ => nofun) (fun _ => balanceSame nofun)
  | storage b key prev => exact idle (fun _ _ => nofun) (fun _ => storageSame nofun)
  | _ => exact idle (fun _ _ => nofun) (.of rfl)

theorem Tracked.revert {id : Nat} (tracked : Tracked start s.base s.journal) (reverted : s.revertToSnapshot id = some s') :
    Tracked start s'.base s'.journal := by
  have unwound : ∀ (entries rest : List Undo) (base : MptState), Tracked start base (entries ++ rest) →
      Tracked start (entries.foldl Undo.back base) rest := by
    intro entries rest
    induction entries with
    | nil => exact fun _ same => same
    | cons u entries ih => exact fun base same => ih _ same.back
  unfold StateDB.revertToSnapshot at reverted
  split at reverted
  · cases Option.some.inj reverted
    simp only [unwindBase]
    refine unwound _ _ _ ?_
    rw [List.take_append_drop]
    exact tracked
  · cases reverted

theorem Tracked.serve {reply : Reply} (clean : ∀ a, (start.accounts a).code ≠ codeMagic)
    (tracked : Tracked start s.base s.journal) (fresh : r.Fresh s) (ok : s.serve sha r = some (reply,s')) :
    Tracked start s'.base s'.journal := by
  have noted : ∀ {mid : StateDB MptState}, Noted r s mid → Tracked start mid.base mid.journal := by
    rintro mid ⟨base,⟨notes,quiet,journal⟩,_⟩
    rw [base,journal]
    refine tracked.beside (.of rfl) notes (fun u member b prev same => ?_)
    subst same
    exact quiet _ member
  cases served ok with
  | noted notes => exact noted notes
  | reverted asks back => exact tracked.revert back
  | wrote notes write journal _ =>
    have before := noted notes
    rw [journal]
    generalize s'.base = after at write
    cases write with
    | code a code =>
      refine before.install clean code ?_
      rw [notes.base]
      exact fresh
    | nonce a nonce => exact before.beside (fun _ => nonceSame nofun) [_] (by simp)
    | added a amount balance | taken a amount balance => exact before.beside (fun _ => balanceSame nofun) [_] (by simp)
    | storage a key value => exact before.beside (fun _ => storageSame nofun) [_] (by simp)

end
end L1Chain.Adapter

namespace L1Chain.Transition
open Adapter Evm Exchange MptState StackVM Runs

section
variable {E : Type}

structure Coded where
  st : MptState
  evm : Address → Bool

def Coded.genesis (alloc baseAlloc : AList (fun _ : Address => UInt64)) : Coded := ⟨fund alloc baseAlloc,fun _ => false⟩

def Coded.InstalledByEVM (s : Coded) (a : Address) : Prop := getCode s.st a ≠ [] ∧ s.evm a = true

def Coded.Kinds (s : Coded) : Prop := ∀ a, Kind (s.st.accounts a).code (s.evm a)

def installs (env : Env E) (s : Coded) (tx : Transaction) (height baseFee : UInt64) : Address → Bool :=
  match route s.st tx with
  | .evm =>
    match runEVM env (reserved s.st tx) tx height baseFee with
    | none => s.evm
    | some (_,sdb) => fun a => s.evm a || wroteCode sdb.journal a
  | .contract =>
    match (execute env.sha (charged s.st tx) (message tx)).1.contractAddress with
    | none => s.evm
    | some addr => Adapter.set s.evm addr false
  | _ => s.evm

inductive CodeStep (E : Type) where
  | tx (verifySig : VerifySig) (tx : Transaction) (height : UInt64) (index : UInt32) (session : Option (BatchSession E))
      (baseFee : UInt64)
  | settle (session : BatchSession E) (height : UInt64)
  | reward (a : Address) (amount : UInt64)

def Coded.step (env : Env E) (s : Coded) : CodeStep E → Coded
  | .tx verifySig tx height index session baseFee =>
    match applyTxAtSession env verifySig s.st tx height index session baseFee with
    | .error _ => s
    | .ok o => ⟨o.st,installs env s tx height baseFee⟩
  | .settle session height =>
    match session.finish env.engine s.st height with
    | .error _ => s
    | .ok st => ⟨st,s.evm⟩
  | .reward a amount => ⟨credit s.st a amount,s.evm⟩

def Coded.run (env : Env E) (alloc baseAlloc : AList (fun _ : Address => UInt64)) (steps : List (CodeStep E)) : Coded :=
  steps.foldl (Coded.step env) (Coded.genesis alloc baseAlloc)

def CodeStep.Untagged : CodeStep E → Prop
  | .tx _ t _ _ _ _ => t.recipient = 0 → isTaggedCode t.data = false
  | _ => True

/- The interpreter sets code only at addresses without. -/
def DeploysFresh (env : Env E) : Prop :=
  ∀ (st : MptState) (tx : Transaction) (height baseFee : UInt64),
    IssuesAt env.sha (fun s r => r.Fresh s) (evmProg env tx height baseFee) (evmStart env st tx)

def reservedAddresses : List Address := [0,Exchange.address,Pos.attestAddress,Evm.deployAddress]

end

section
variable {E : Type} {env : Env E} {verifySig : VerifySig} {s : Coded} {st : MptState} {tx : Transaction}
  {height baseFee gasUsed : UInt64} {index : UInt32} {session : Option (BatchSession E)} {o : Outcome MptState E}
  {sdb : Adapter.StateDB MptState}

theorem genesisKinds (alloc baseAlloc : AList (fun _ : Address => UInt64)) : (Coded.genesis alloc baseAlloc).Kinds := by
  intro a
  have empty : ((fund alloc baseAlloc).accounts a).code = [] := fundAside codeAside alloc baseAlloc
  rw [Coded.genesis,empty]
  exact kindEmpty false

theorem Coded.Kinds.same (kinds : s.Kinds) (same : ∀ a, (st.accounts a).code = (s.st.accounts a).code) :
    Coded.Kinds ⟨st,s.evm⟩ := fun a => (same a).symm ▸ kinds a

theorem messageTracked (law : DeploysFresh env) (clean : ∀ a, (st.accounts a).code ≠ codeMagic)
    (ran : runEVM env st tx height baseFee = some (gasUsed,sdb)) : Tracked st sdb.base sdb.journal :=
  runEVMKeepsAt (P := fun s => Tracked st s.base s.journal)
    (fun fresh before ok => before.serve clean fresh ok) (fun before reverted => before.revert reverted)
    (law st tx height baseFee) (trackedStart st) ran

theorem settledCode (s : Adapter.StateDB MptState) (tx : Transaction) (nonce refund : UInt64) (a : Address) :
    ((settled s.finalise.base tx nonce refund).accounts a).code = [] ∨
      ((settled s.finalise.base tx nonce refund).accounts a).code = (s.base.accounts a).code := by
  have kept : ((settled s.finalise.base tx nonce refund).accounts a).code = (s.finalise.base.accounts a).code :=
    putKeeps (·.code) rfl
  rw [kept,StateDB.finalise,finaliseAt]
  split
  · exact .inl rfl
  · exact .inr rfl

theorem messageKinds (law : DeploysFresh env) (kinds : s.Kinds)
    (ran : runEVM env (reserved s.st tx) tx height baseFee = some (gasUsed,sdb)) (nonce refund : UInt64) :
    Coded.Kinds ⟨settled sdb.finalise.base tx nonce refund,fun a => s.evm a || wroteCode sdb.journal a⟩ := by
  have start : ∀ a, ((reserved s.st tx).accounts a).code = (s.st.accounts a).code := fun a => putKeeps (·.code) rfl
  have tracked := messageTracked law (fun a => by rw [start]; exact (kinds a).bare) ran
  intro a
  dsimp only
  rcases settledCode sdb tx nonce refund a with wiped | kept
  · rw [wiped]
    exact kindEmpty _
  · rw [kept]
    cases written : wroteCode sdb.journal a with
    | false =>
      rw [tracked.kept a written,start,Bool.or_false]
      exact kinds a
    | true =>
      rw [Bool.or_true]
      rcases (tracked.wrote a written).2 with none | ⟨runtime,some,tagged⟩
      · rw [none]
        exact kindEmpty true
      · rw [tagged]
        exact kindTagged some

theorem creationKinds (kinds : s.Kinds) (plain : tx.recipient = 0 → isTaggedCode tx.data = false)
    (routed : route s.st tx = .contract) (refund : UInt64) :
    Coded.Kinds ⟨credit (execute env.sha (charged s.st tx) (message tx)).2 tx.sender refund,
      installs env s tx height baseFee⟩ := by
  have start : ∀ a, ((charged s.st tx).accounts a).code = (s.st.accounts a).code := fun a => putKeeps (·.code) rfl
  have credited : ∀ a, ((credit (execute env.sha (charged s.st tx) (message tx)).2 tx.sender refund).accounts a).code =
      ((execute env.sha (charged s.st tx) (message tx)).2.accounts a).code := fun a => putKeeps (·.code) rfl
  rw [installs,routed]
  rcases deployment env.sha (charged s.st tx) (message tx) with ⟨none,kept⟩ | ⟨creates,addr,named,stored⟩
  · rw [none]
    exact kinds.same (fun a => (credited a).trans ((kept a).trans (start a)))
  · rw [named]
    intro a
    dsimp only
    rw [credited,stored,start,Adapter.set]
    split
    · refine kindPlain.mpr (plain ?_)
      by_contra other
      rw [message,if_neg other] at creates
      cases creates
    · exact kinds a

theorem plainCode (ok : applyTxAtSession env verifySig st tx height index session baseFee = .ok o)
    (runs : route st tx ≠ .evm ∧ route st tx ≠ .contract) (a : Address) :
    (o.st.accounts a).code = (st.accounts a).code := by
  obtain ⟨_,_,ran⟩ := applyTxOk.mp ok
  cases routed : route st tx with
  | exchange =>
    rw [routed] at ran
    exact (exchangeAside codeAside ran).trans bumpedCode
  | attestation =>
    rw [routed] at ran
    obtain rfl : (⟨bumped st tx.sender,session,0,0⟩ : Outcome MptState E) = o := Except.ok.inj ran
    exact bumpedCode
  | transfer =>
    rw [routed] at ran
    obtain ⟨st',paid,rfl⟩ := mapOk.mp ran
    obtain ⟨_,rfl⟩ := transferPays.mp paid
    exact payFrame.2.1.trans bumpedCode
  | evm => exact absurd routed runs.1
  | contract => exact absurd routed runs.2

theorem txKinds (law : DeploysFresh env) (kinds : s.Kinds) (plain : tx.recipient = 0 → isTaggedCode tx.data = false)
    (ok : applyTxAtSession env verifySig s.st tx height index session baseFee = .ok o) :
    Coded.Kinds ⟨o.st,installs env s tx height baseFee⟩ := by
  obtain ⟨_,_,ran⟩ := applyTxOk.mp ok
  cases routed : route s.st tx with
  | exchange | attestation | transfer =>
    rw [installs,routed]
    exact kinds.same (plainCode ok (by rw [routed]; decide))
  | contract =>
    rw [routed] at ran
    obtain ⟨r,paid,rfl⟩ := mapOk.mp ran
    obtain ⟨_,rfl⟩ := contractOk.mp paid
    exact creationKinds kinds plain routed _
  | evm =>
    rw [routed] at ran
    obtain ⟨r,paid,rfl⟩ := mapOk.mp ran
    obtain ⟨_,gasUsed,sdb,run,rfl⟩ := evmOk.mp paid
    rw [installs,routed]
    dsimp only
    rw [run]
    exact messageKinds law kinds run _ _

theorem stepKinds (law : DeploysFresh env) (s : Coded) (x : CodeStep E) (kinds : s.Kinds) (plain : x.Untagged) :
    (s.step env x).Kinds := by
  cases x with
  | tx verifySig tx height index session baseFee =>
    rw [Coded.step]
    split
    · exact kinds
    · rename_i o ok
      exact txKinds law kinds plain ok
  | settle session height =>
    rw [Coded.step]
    split
    · exact kinds
    · rename_i st ok
      exact kinds.same (fun a => finishAside codeAside ok)
  | reward a amount => exact kinds.same (fun b => putKeeps (·.code) rfl)

theorem runKinds (law : DeploysFresh env) (alloc baseAlloc : AList (fun _ : Address => UInt64)) {steps : List (CodeStep E)}
    (plain : ∀ x ∈ steps, x.Untagged) : (Coded.run env alloc baseAlloc steps).Kinds :=
  invariant Coded.Kinds (stepKinds law) (genesisKinds alloc baseAlloc) (alongOfMem CodeStep.Untagged plain)

theorem taggedInstalled (kinds : s.Kinds) (a : Address) : isTaggedCode (getCode s.st a) = true ↔ s.InstalledByEVM a :=
  (kinds a).tagged

theorem evmCall (free : tx.recipient ∉ reservedAddresses) :
    (isEVMTx st tx = true ↔ isTaggedCode (getCode st tx.recipient) = true) ∧
    (route st tx = .evm ↔ isTaggedCode (getCode st tx.recipient) = true) := by
  simp only [reservedAddresses,List.mem_cons,List.not_mem_nil,or_false,not_or] at free
  obtain ⟨_,order,_,deploy⟩ := free
  have evm : isEVMTx st tx = isTaggedCode (getCode st tx.recipient) := by
    rw [isEVMTx,decide_eq_false deploy,Bool.false_or]
  have beside : isExchangeTx tx = false := decide_eq_false order
  rw [evm]
  refine ⟨Iff.rfl,fun routed => evm ▸ evmRoute routed,fun tagged => ?_⟩
  rw [route,beside,evm,tagged]
  rfl

def CodeStep.From (txs : List Transaction) : CodeStep E → Prop
  | .tx _ t _ _ _ _ => t ∈ txs
  | _ => True

theorem CodeStep.From.mono {txs more : List Transaction} {x : CodeStep E} (part : txs ⊆ more) (taken : x.From txs) :
    x.From more := by
  cases x with
  | tx verifySig tx height index session baseFee => exact part taken
  | _ => trivial

theorem loopSteps {txs : List Transaction} {i : Nat} {acc : Outcome MptState E} (now : s.st = acc.st)
    (ok : applyLoop env verifySig height baseFee i acc txs = .ok o) :
    ∃ steps : List (CodeStep E), (∀ x ∈ steps, x.From txs) ∧ (steps.foldl (Coded.step env) s).st = o.st := by
  induction txs generalizing i acc s with
  | nil =>
    obtain rfl := Except.ok.inj ok
    exact ⟨[],fun _ member => (nomatch member),now⟩
  | cons tx txs ih =>
    obtain ⟨first,ran,rest⟩ := loopCons.mp ok
    rw [← now] at ran
    have next : (s.step env (.tx verifySig tx height (UInt32.ofNat i) acc.session baseFee)).st = first.st := by
      rw [Coded.step,ran]
    obtain ⟨steps,taken,last⟩ := @ih _ _ ⟨first.st,first.session,acc.gasUsed + first.gasUsed,acc.tip + first.tip⟩ next rest
    refine ⟨.tx verifySig tx height (UInt32.ofNat i) acc.session baseFee::steps,fun x member => ?_,last⟩
    rcases List.mem_cons.mp member with rfl | later
    · exact List.mem_cons_self
    · exact (taken x later).mono (List.subset_cons_self _ _)

theorem rewardedSteps {mode : Mode} {b : Block} {after : MptState} {gas : UInt64}
    (ok : applyBlockRewarded env verifySig mode s.st b = .ok (after,gas)) :
    ∃ steps : List (CodeStep E), (∀ x ∈ steps, x.From b.txs) ∧ (steps.foldl (Coded.step env) s).st = after := by
  simp only [applyBlockRewarded,applyTxsAt,bindOk] at ok
  obtain ⟨r,⟨session,_,o,loop,final,finished,closed⟩,last⟩ := ok
  cases Except.ok.inj closed
  obtain ⟨steps,taken,reached⟩ := loopSteps (s := s) rfl loop
  have settled : ∃ more : List (CodeStep E), (∀ x ∈ more, x.From b.txs) ∧
      ((steps ++ more).foldl (Coded.step env) s).st = final := by
    unfold finishSession at finished
    split at finished
    · cases finished
      exact ⟨[],fun _ member => absurd member List.not_mem_nil,by rw [List.append_nil]; exact reached⟩
    · rename_i open' _
      refine ⟨[.settle open' b.header.height],by simp [CodeStep.From],?_⟩
      rw [List.foldl_append,List.foldl_cons,List.foldl_nil,Coded.step,reached,liftExchangeOk.mp finished]
  obtain ⟨more,also,done⟩ := settled
  have all : ∀ x ∈ steps ++ more, x.From b.txs := List.forall_mem_append.mpr ⟨taken,also⟩
  obtain ⟨rfl,_⟩ := Prod.mk.inj (Except.ok.inj last)
  split
  · refine ⟨steps ++ more ++ [.reward b.header.coinbase (blockReward + o.tip)],?_,?_⟩
    · exact List.forall_mem_append.mpr ⟨all,by simp [CodeStep.From]⟩
    · rw [List.foldl_append,List.foldl_cons,List.foldl_nil,Coded.step,done]
  · exact ⟨steps ++ more,all,done⟩

theorem replaySteps {mode : Mode} {bs : List Block} {after : MptState}
    (ok : replay env verifySig mode s.st bs = .ok after) :
    ∃ steps : List (CodeStep E), (∀ x ∈ steps, x.From (branchTxs bs)) ∧ (steps.foldl (Coded.step env) s).st = after := by
  induction bs generalizing s with
  | nil => exact ⟨[],fun _ member => (nomatch member),Except.ok.inj ok⟩
  | cons b bs ih =>
    simp only [replay,bindOk] at ok
    obtain ⟨⟨middle,gas⟩,applied,rest⟩ := ok
    obtain ⟨steps,taken,reached⟩ := rewardedSteps applied
    rw [← reached] at rest
    obtain ⟨more,also,last⟩ := ih rest
    refine ⟨steps ++ more,List.forall_mem_append.mpr ⟨fun x member => ?_,fun x member => ?_⟩,?_⟩
    · exact (taken x member).mono (List.subset_append_left _ _)
    · exact (also x member).mono (List.subset_append_right _ _)
    · rw [List.foldl_append]
      exact last

theorem derivedRun {c : Chain} {h : Hash} {path : List Block} (branch : c.chainTo h = some path)
    (derived : c.deriveState env verifySig h = .ok st) :
    ∃ steps : List (CodeStep E), (∀ x ∈ steps, x.From (branchTxs path.tail)) ∧
      (Coded.run env c.genesisAlloc c.genesisBaseAlloc steps).st = st := by
  simp only [Chain.deriveState,branch] at derived
  exact replaySteps (s := Coded.genesis c.genesisAlloc c.genesisBaseAlloc) (liftTxOk.mp derived)

end
end L1Chain.Transition

namespace L1Chain
open Transition Evm

/- Where no creation of the stack machine carries tagged data, tagged code is the code the
interpreter installed, and calls to it are the calls that reach the interpreter. -/
theorem codeKindsApart {E : Type} {env : Env E} (law : DeploysFresh env)
    (alloc baseAlloc : AList (fun _ : Address => UInt64)) (steps : List (CodeStep E)) (plain : ∀ x ∈ steps, x.Untagged) :
    (∀ a, isTaggedCode (getCode (Coded.run env alloc baseAlloc steps).st a) = true ↔
      (Coded.run env alloc baseAlloc steps).InstalledByEVM a) ∧
    ∀ tx : Transaction, tx.recipient ∉ reservedAddresses →
      (isEVMTx (Coded.run env alloc baseAlloc steps).st tx = true ↔
        (Coded.run env alloc baseAlloc steps).InstalledByEVM tx.recipient) ∧
      (route (Coded.run env alloc baseAlloc steps).st tx = .evm ↔
        (Coded.run env alloc baseAlloc steps).InstalledByEVM tx.recipient) := by
  have kinds := runKinds law alloc baseAlloc plain
  refine ⟨taggedInstalled kinds,fun tx free => ?_⟩
  rw [← taggedInstalled kinds]
  exact evmCall free

namespace Devnet

def home : Address := account 9

def deploy (data : Bytes) : Adapter.Prog :=
  .ask (.getCodeSize home) (fun reply => if reply = .number 0 then .ask (.setCode home data) (fun _ => .done 0) else .done 0)

def deploying : Env Unit :=
  ⟨Hash.ofBytes,env.blst,engine,⟨[],fun _ _ _ data _ _ => deploy data,fun _ _ _ _ _ _ _ => .done 0⟩,env.stateRoot⟩

def creation (recipient : Address) (nonce : UInt64) (data : Bytes) : Transaction :=
  {payment 0 with recipient := recipient, value := 0, nonce := nonce, gasLimit := 32000, data := data}

def created (recipient : Address) (nonce : UInt64) (data : Bytes) : CodeStep Unit :=
  .tx acceptNonEmptySig (creation recipient nonce data) 1 0 none 0

theorem deployingFresh : DeploysFresh deploying := by
  intro st tx height baseFee
  unfold evmProg
  split
  · refine ⟨trivial,?_⟩
    dsimp only [Adapter.StateDB.serve]
    split
    · rename_i empty
      refine ⟨List.length_eq_zero_iff.mp (Adapter.Reply.number.inj empty),?_⟩
      exact trivial
    · trivial
  · trivial

def bothKinds : List (CodeStep Unit) := [created deployAddress 0 [1],created 0 1 [0]]

theorem bothKindsApart : (∀ x ∈ bothKinds, x.Untagged) ∧
    getCode (Coded.run deploying ∅ ∅ bothKinds).st home = tagCode [1] ∧
    (Coded.run deploying ∅ ∅ bothKinds).InstalledByEVM home ∧
    getCode (Coded.run deploying ∅ ∅ bothKinds).st (2 ^ 64 + 1) = [0] ∧
    ¬ (Coded.run deploying ∅ ∅ bothKinds).InstalledByEVM (2 ^ 64 + 1) ∧
    ∀ tx : Transaction, tx.recipient = home → route (Coded.run deploying ∅ ∅ bothKinds).st tx = .evm := by
  have plain : ∀ x ∈ bothKinds, x.Untagged := by
    intro x member
    rcases List.mem_cons.mp member with rfl | later
    · exact fun zero => absurd zero (by decide)
    · cases List.mem_singleton.mp later
      exact fun _ => rfl
  have runtime : getCode (Coded.run deploying ∅ ∅ bothKinds).st home = tagCode [1] := by decide +kernel
  have stored : getCode (Coded.run deploying ∅ ∅ bothKinds).st (2 ^ 64 + 1) = [0] := by decide +kernel
  obtain ⟨tagged,calls⟩ := codeKindsApart deployingFresh ∅ ∅ bothKinds plain
  have installed := (tagged home).mp (by rw [runtime]; rfl)
  refine ⟨plain,runtime,installed,stored,fun evm => ?_,fun tx target => ?_⟩
  · have wrong := (tagged _).mpr evm
    rw [stored] at wrong
    cases wrong
  · exact (calls tx (by rw [target]; decide)).2.mpr (target ▸ installed)

def forgery : List (CodeStep Unit) := [created 0 0 (codeMagic ++ [0])]

/- The tag is in the data: code that no interpreter installed is taken for its own. -/
theorem forgedTag : isTaggedCode (getCode (Coded.run deploying ∅ ∅ forgery).st (2 ^ 64)) = true ∧
    ¬ (Coded.run deploying ∅ ∅ forgery).InstalledByEVM (2 ^ 64) ∧ (2 ^ 64 : Address) ∉ reservedAddresses ∧
    ∀ tx : Transaction, tx.recipient = 2 ^ 64 → isEVMTx (Coded.run deploying ∅ ∅ forgery).st tx = true ∧
      route (Coded.run deploying ∅ ∅ forgery).st tx = .evm := by
  have tagged : isTaggedCode (getCode (Coded.run deploying ∅ ∅ forgery).st (2 ^ 64)) = true := by decide +kernel
  have plain : (Coded.run deploying ∅ ∅ forgery).evm (2 ^ 64) = false := by decide +kernel
  have free : (2 ^ 64 : Address) ∉ reservedAddresses := by decide +kernel
  refine ⟨tagged,fun evm => Bool.false_ne_true (plain.symm.trans evm.2),free,fun tx target => ?_⟩
  obtain ⟨evm,routed⟩ := @evmCall (Coded.run deploying ∅ ∅ forgery).st tx (target.symm ▸ free)
  rw [target] at evm routed
  exact ⟨evm.mpr tagged,routed.mpr tagged⟩

end Devnet
end L1Chain
