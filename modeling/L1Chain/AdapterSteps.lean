import L1Chain.Adapter

/-! What a message through the interpreter leaves of one field of an account. A field
is written by its own request and by undoing it, and wiped by the cleanup at the end
of the transaction, whose test of emptiness does not look at storage. -/
namespace L1Chain.Adapter

section
variable {S : Type} [L1Chain.StateDB S] {sha : Bytes → Hash}

def Issues (sha : Bytes → Hash) (Allowed : Request → Prop) : Prog → StateDB S → Prop
  | .done _, _ => True
  | .ask r k, s => Allowed r ∧ match s.serve sha r with
    | none => True
    | some (reply,s) => Issues sha Allowed (k reply) s

theorem issuesAsk {Allowed : Request → Prop} {r : Request} {k : Reply → Prog} {s : StateDB S} (allowed : Allowed r)
    (later : ∀ reply s, Issues sha Allowed (k reply) (s : StateDB S)) : Issues sha Allowed (.ask r k) s := by
  rw [Issues]
  refine ⟨allowed,?_⟩
  split
  · trivial
  · exact later _ _

def IssuesAt (sha : Bytes → Hash) (Allowed : StateDB S → Request → Prop) : Prog → StateDB S → Prop
  | .done _, _ => True
  | .ask r k, s => Allowed s r ∧ match s.serve sha r with
    | none => True
    | some (reply,s) => IssuesAt sha Allowed (k reply) s

theorem issuesAtAsk {Allowed : StateDB S → Request → Prop} {r : Request} {k : Reply → Prog} {s : StateDB S}
    (allowed : Allowed s r) (later : ∀ reply s, IssuesAt sha Allowed (k reply) (s : StateDB S)) :
    IssuesAt sha Allowed (.ask r k) s := by
  rw [IssuesAt]
  refine ⟨allowed,?_⟩
  split
  · trivial
  · exact later _ _

theorem Issues.everywhere {Allowed : Request → Prop} {prog : Prog} {s : StateDB S} (issues : Issues sha Allowed prog s) :
    IssuesAt sha (fun _ => Allowed) prog s := by
  induction prog generalizing s with
  | done gas => trivial
  | ask r k ih =>
    rw [Issues] at issues
    obtain ⟨allowed,later⟩ := issues
    rw [IssuesAt]
    refine ⟨allowed,?_⟩
    split
    · trivial
    · rename_i reply next served
      rw [served] at later
      exact ih reply later

theorem IssuesAt.imp {Allowed Allowed' : StateDB S → Request → Prop} {prog : Prog} {s : StateDB S}
    (weaker : ∀ {s r}, Allowed s r → Allowed' s r) (issues : IssuesAt sha Allowed prog s) : IssuesAt sha Allowed' prog s := by
  induction prog generalizing s with
  | done gas => trivial
  | ask r k ih =>
    rw [IssuesAt] at issues ⊢
    obtain ⟨allowed,later⟩ := issues
    refine ⟨weaker allowed,?_⟩
    cases served : s.serve sha r with
    | none => trivial
    | some pair =>
      rw [served] at later
      exact ih pair.1 later

theorem interpretKeepsAt {P : StateDB S → Prop} {Allowed : StateDB S → Request → Prop}
    (keep : ∀ {s r reply s'}, Allowed s r → P s → s.serve sha r = some (reply,s') → P s')
    {prog : Prog} {s s' : StateDB S} {gas : UInt64} (issues : IssuesAt sha Allowed prog s) (start : P s)
    (ran : interpret sha prog s = some (gas,s')) : P s' := by
  induction prog generalizing s with
  | done g =>
    cases ran
    exact start
  | ask r k ih =>
    rw [interpret] at ran
    rw [IssuesAt] at issues
    obtain ⟨allowed,later⟩ := issues
    cases served : s.serve sha r with
    | none =>
      rw [served] at ran
      cases ran
    | some pair =>
      obtain ⟨reply,next⟩ := pair
      rw [served] at ran later
      exact ih reply later (keep allowed start served) ran

theorem interpretKeeps {P : StateDB S → Prop} {Allowed : Request → Prop}
    (keep : ∀ {s r reply s'}, Allowed r → P s → s.serve sha r = some (reply,s') → P s')
    {prog : Prog} {s s' : StateDB S} {gas : UInt64} (issues : Issues sha Allowed prog s) (start : P s)
    (ran : interpret sha prog s = some (gas,s')) : P s' :=
  interpretKeepsAt keep issues.everywhere start ran

end

section
variable {S : Type} {s : StateDB S} {r : Request}

def Undo.Quiet : Undo → Prop
  | .nonce .. | .balance .. | .code .. | .storage .. => False
  | _ => True

structure Noted (r : Request) (s s' : StateDB S) : Prop where
  base : s'.base = s.base
  journal : ∃ notes : List Undo, (∀ u ∈ notes, u.Quiet) ∧ s'.journal = notes ++ s.journal
  destroyed : ∀ a, r ≠ .selfDestruct a → s'.selfDestructed a = s.selfDestructed a

theorem Noted.refl (s : StateDB S) : Noted r s s := ⟨rfl,⟨[],fun _ member => (nomatch member),rfl⟩,fun _ _ => rfl⟩

theorem Noted.note {mid s' : StateDB S} {u : Undo} (notes : Noted r s mid) (base : s'.base = mid.base)
    (journal : s'.journal = u::mid.journal) (quiet : u.Quiet)
    (destroyed : ∀ a, r ≠ .selfDestruct a → s'.selfDestructed a = mid.selfDestructed a) : Noted r s s' := by
  obtain ⟨same,⟨entries,all,before⟩,alive⟩ := notes
  refine ⟨base.trans same,⟨u::entries,fun v member => ?_,by rw [journal,before,List.cons_append]⟩,
    fun a other => (destroyed a other).trans (alive a other)⟩
  rcases List.mem_cons.mp member with rfl | older
  · exact quiet
  · exact all v older

theorem touchNoted (s : StateDB S) (a : Address) : Noted r s (s.touch a) := by
  unfold StateDB.touch
  split
  · exact Noted.refl s
  · exact (Noted.refl s).note rfl rfl trivial (fun _ _ => rfl)

theorem failNoted {mid : StateDB S} (notes : Noted r s mid) (e : AdapterErr) : Noted r s (mid.fail e) :=
  ⟨notes.base,notes.journal,notes.destroyed⟩

theorem warmNoted (s : StateDB S) (a : Address) : Noted r s (s.addWarmAddr a) := by
  unfold StateDB.addWarmAddr
  split
  · exact Noted.refl s
  · exact (Noted.refl s).note rfl rfl trivial (fun _ _ => rfl)

theorem warmSlotNoted {mid : StateDB S} (notes : Noted r s mid) (a : Address) (slot : Hash) :
    Noted r s (mid.addWarmSlot a slot) := by
  unfold StateDB.addWarmSlot
  split
  · exact notes
  · exact notes.note rfl rfl trivial (fun _ _ => rfl)

end

section
variable {S : Type} [L1Chain.StateDB S] {s s' : StateDB S} {r : Request} {sha : Bytes → Hash}

inductive Wrote (base : S) : Request → Undo → S → Prop
  | nonce (a : Address) (nonce : UInt64) :
      Wrote base (.setNonce a nonce) (.nonce a (getAccount base a).nonce) (setNonce base a nonce)
  | added (a : Address) (amount : Word) (balance : UInt64) :
      Wrote base (.addBalance a amount) (.balance a (getAccount base a).balance) (setBalance base a balance)
  | taken (a : Address) (amount : Word) (balance : UInt64) :
      Wrote base (.subBalance a amount) (.balance a (getAccount base a).balance) (setBalance base a balance)
  | code (a : Address) (code : Bytes) :
      Wrote base (.setCode a code) (.code a (Evm.untagCode (getCode base a))) (installCode base a code)
  | storage (a : Address) (key value : Hash) :
      Wrote base (.setState a key value) (.storage a key (getStorage base a key)) (setStorage base a key value)

/- All that serving a request does to the base state, the journal and the set of destroyed
accounts: it notes something, notes something and writes, or takes back a part of the journal. -/
inductive Served (s : StateDB S) (r : Request) (s' : StateDB S) : Prop
  | noted (notes : Noted r s s')
  | wrote {mid : StateDB S} {u : Undo} (notes : Noted r s mid) (write : Wrote mid.base r u s'.base)
      (journal : s'.journal = u::mid.journal) (destroyed : s'.selfDestructed = mid.selfDestructed)
  | reverted {id : Nat} (asks : r = .revertToSnapshot id) (back : s.revertToSnapshot id = some s')

theorem cacheNoted {mid : StateDB S} (notes : Noted r s mid) (a : Address) (key : Hash) :
    Noted r s (mid.cacheCommitted a key) := by
  unfold StateDB.cacheCommitted
  split
  · exact notes
  · exact ⟨notes.base,notes.journal,notes.destroyed⟩

theorem served {reply : Reply}
    (ok : s.serve sha r = some (reply,s')) : Served s r s' := by
  cases r with
  | setNonce b nonce =>
    cases ok
    exact .wrote (touchNoted s b) (.nonce b nonce) rfl rfl
  | addBalance b amount =>
    cases ok
    unfold StateDB.addBalance
    dsimp only
    split
    · exact .wrote (touchNoted s b) (.added b amount _) rfl rfl
    · exact .noted (failNoted (touchNoted s b) _)
  | subBalance b amount =>
    cases ok
    unfold StateDB.subBalance
    dsimp only
    split
    · exact .wrote (touchNoted s b) (.taken b amount _) rfl rfl
    · exact .noted (failNoted (touchNoted s b) _)
  | setCode b code =>
    have notes : Noted (.setCode b code) s (s.touch b) := touchNoted s b
    have prev : s.code b = Evm.untagCode (getCode (s.touch b).base b) := by rw [notes.base,StateDB.code]
    cases ok
    rw [prev]
    exact .wrote notes (.code b code) rfl rfl
  | setState b key value =>
    cases ok
    exact .wrote (cacheNoted (touchNoted s b) b key) (.storage b key value) rfl rfl
  | subRefund gas =>
    simp only [StateDB.serve] at ok
    split at ok
    · cases ok
    · cases ok
      exact .noted ((Noted.refl s).note rfl rfl trivial (fun _ _ => rfl))
  | addRefund gas | addLog b topics data =>
    cases ok
    exact .noted ((Noted.refl s).note rfl rfl trivial (fun _ _ => rfl))
  | touch b | createAccount b =>
    cases ok
    exact .noted (touchNoted s b)
  | createContract b =>
    simp only [StateDB.serve] at ok
    split at ok
    · cases ok
      exact .noted (touchNoted s b)
    · cases ok
      exact .noted ((touchNoted s b).note rfl rfl trivial (fun _ _ => rfl))
  | selfDestruct b =>
    simp only [StateDB.serve] at ok
    split at ok
    · cases ok
      exact .noted (touchNoted s b)
    · cases ok
      refine .noted ((touchNoted s b).note rfl rfl trivial (fun a other => if_neg ?_))
      rintro rfl
      exact other rfl
  | addAddressToAccessList b =>
    cases ok
    exact .noted (warmNoted s b)
  | addSlotToAccessList b slot =>
    cases ok
    exact .noted (warmSlotNoted (warmNoted s b) b slot)
  | setTransientState b key value =>
    simp only [StateDB.serve] at ok
    split at ok
    · cases ok
      exact .noted (Noted.refl s)
    · cases ok
      exact .noted ((Noted.refl s).note rfl rfl trivial (fun _ _ => rfl))
  | getStateAndCommittedState b key =>
    cases ok
    exact .noted (cacheNoted (Noted.refl s) b key)
  | revertToSnapshot id =>
    simp only [StateDB.serve,Option.map_eq_some_iff] at ok
    obtain ⟨back,reverted,same⟩ := ok
    cases same
    exact .reverted rfl reverted
  | addPreimage hash preimage =>
    simp only [StateDB.serve] at ok
    split at ok
    · cases ok
      exact .noted (Noted.refl s)
    · cases ok
      exact .noted ⟨rfl,⟨[],fun _ member => (nomatch member),rfl⟩,fun _ _ => rfl⟩
  | _ =>
    cases ok
    exact .noted (Noted.refl s)

end

inductive Field where
  | nonce
  | balance
  | code
  | storage
  deriving DecidableEq

def Field.Same : Field → Account → Account → Prop
  | .nonce, x, y => x.nonce = y.nonce
  | .balance, x, y => x.balance = y.balance
  | .code, x, y => x.code = y.code
  | .storage, x, y => x.storage = y.storage

theorem Field.Same.refl (fd : Field) (x : Account) : fd.Same x x := by
  cases fd <;> rfl

theorem Field.Same.trans {fd : Field} {x y z : Account} (first : fd.Same x y) (second : fd.Same y z) : fd.Same x z := by
  cases fd <;> exact Eq.trans first second

def Undo.Writes (fd : Field) (a : Address) : Undo → Prop
  | .nonce b _ => fd = .nonce ∧ b = a
  | .balance b _ => fd = .balance ∧ b = a
  | .code b _ => fd = .code ∧ b = a
  | .storage b _ _ => fd = .storage ∧ b = a
  | _ => False

def Request.Avoids (fd : Field) (a : Address) : Request → Prop
  | .setNonce b _ => fd = .nonce → b ≠ a
  | .addBalance b _ => fd = .balance → b ≠ a
  | .subBalance b _ => fd = .balance → b ≠ a
  | .setCode b _ => fd = .code → b ≠ a
  | .setState b _ _ => fd = .storage → b ≠ a
  | .selfDestruct b => b ≠ a
  | _ => True

def Request.Spares (a : Address) : Request → Prop
  | .setState b _ _ => b ≠ a
  | .selfDestruct b => b ≠ a
  | _ => True

theorem sparesAvoids {a : Address} {r : Request} (spares : r.Spares a) : r.Avoids .storage a := by
  cases r with
  | setState b key value => exact fun _ => spares
  | selfDestruct b => exact spares
  | setNonce b nonce | addBalance b amount | subBalance b amount | setCode b code => exact fun none => by cases none
  | _ => trivial

section
variable {fd : Field} {a b : Address} {was : Account} {s s' : StateDB MptState} {u : Undo} {sha : Bytes → Hash}
  {base : MptState}

theorem writeSame {acct : Account} (other : b ≠ a ∨ fd.Same acct (base.accounts b)) :
    fd.Same ((base.put b acct).accounts a) (base.accounts a) := by
  have written : (base.put b acct).accounts a = if a = b then acct else base.accounts a := rfl
  rw [written]
  split
  · rename_i own
    subst own
    exact other.resolve_left (fun apart => apart rfl)
  · exact Field.Same.refl fd _

theorem nonceSame {v : UInt64} (other : fd = .nonce → b ≠ a) :
    fd.Same ((setNonce base b v).accounts a) (base.accounts a) := by
  refine writeSame ?_
  cases fd with
  | nonce => exact .inl (other rfl)
  | _ => exact .inr rfl

theorem balanceSame {v : UInt64} (other : fd = .balance → b ≠ a) :
    fd.Same ((setBalance base b v).accounts a) (base.accounts a) := by
  refine writeSame ?_
  cases fd with
  | balance => exact .inl (other rfl)
  | _ => exact .inr rfl

theorem codeSame {code : Bytes} (other : fd = .code → b ≠ a) :
    fd.Same ((installCode base b code).accounts a) (base.accounts a) := by
  refine writeSame ?_
  cases fd with
  | code => exact .inl (other rfl)
  | _ => exact .inr rfl

theorem storageSame {key value : Hash} (other : fd = .storage → b ≠ a) :
    fd.Same ((setStorage base b key value).accounts a) (base.accounts a) := by
  refine writeSame ?_
  cases fd with
  | storage => exact .inl (other rfl)
  | _ => exact .inr rfl

structure Spared (fd : Field) (a : Address) (was : Account) (s : StateDB MptState) : Prop where
  same : fd.Same (s.base.accounts a) was
  alive : s.selfDestructed a = false
  journal : ∀ u ∈ s.journal, ¬ u.Writes fd a

theorem Spared.undo (spared : Spared fd a was s) (other : ¬ u.Writes fd a) : Spared fd a was (s.undo u) := by
  cases u with
  | nonce b prev =>
    exact ⟨(nonceSame (fun field same => other ⟨field,same⟩)).trans spared.same,spared.alive,spared.journal⟩
  | balance b prev =>
    exact ⟨(balanceSame (fun field same => other ⟨field,same⟩)).trans spared.same,spared.alive,spared.journal⟩
  | code b prev =>
    exact ⟨(codeSame (fun field same => other ⟨field,same⟩)).trans spared.same,spared.alive,spared.journal⟩
  | storage b key prev =>
    exact ⟨(storageSame (fun field same => other ⟨field,same⟩)).trans spared.same,spared.alive,spared.journal⟩
  | selfDestructed b =>
    refine ⟨spared.same,?_,spared.journal⟩
    simp only [StateDB.undo,set]
    split
    · rfl
    · exact spared.alive
  | _ => exact ⟨spared.same,spared.alive,spared.journal⟩

theorem Spared.unwind {entries : List Undo} (spared : Spared fd a was s) (others : ∀ u ∈ entries, ¬ u.Writes fd a) :
    Spared fd a was (s.unwind entries) := by
  induction entries generalizing s with
  | nil => exact spared
  | cons u entries ih =>
    exact ih (spared.undo (others u List.mem_cons_self)) (fun x member => others x (List.mem_cons_of_mem _ member))

theorem Spared.revert {id : Nat} (spared : Spared fd a was s) (reverted : s.revertToSnapshot id = some s') :
    Spared fd a was s' := by
  unfold StateDB.revertToSnapshot at reverted
  split at reverted
  · cases Option.some.inj reverted
    have back : Spared fd a was (s.unwind (s.journal.take (s.journal.length - id))) :=
      spared.unwind (fun u member => spared.journal u (List.mem_of_mem_take member))
    exact ⟨back.same,back.alive,fun u member => spared.journal u (List.mem_of_mem_drop member)⟩
  · cases reverted

theorem quietWrites (quiet : u.Quiet) : ¬ u.Writes fd a := by
  cases u <;> first | exact id | exact quiet.elim

theorem wroteSame {r : Request} {after : MptState} (allowed : r.Avoids fd a) (write : Wrote base r u after) :
    fd.Same (after.accounts a) (base.accounts a) ∧ ¬ u.Writes fd a := by
  cases write with
  | nonce b nonce => exact ⟨nonceSame allowed,fun writes => allowed writes.1 writes.2⟩
  | added b amount balance | taken b amount balance => exact ⟨balanceSame allowed,fun writes => allowed writes.1 writes.2⟩
  | code b code => exact ⟨codeSame allowed,fun writes => allowed writes.1 writes.2⟩
  | storage b key value => exact ⟨storageSame allowed,fun writes => allowed writes.1 writes.2⟩

theorem Spared.noted {r : Request} (allowed : r.Avoids fd a) (spared : Spared fd a was s) (notes : Noted r s s') :
    Spared fd a was s' := by
  obtain ⟨base,⟨entries,quiet,journal⟩,destroyed⟩ := notes
  refine ⟨?_,?_,fun u member => ?_⟩
  · rw [base]
    exact spared.same
  · rw [destroyed a (fun same => by rw [same] at allowed; exact allowed rfl)]
    exact spared.alive
  · rw [journal] at member
    rcases List.mem_append.mp member with new | old
    · exact quietWrites (quiet u new)
    · exact spared.journal u old

theorem Spared.serve {r : Request} {reply : Reply} (allowed : r.Avoids fd a) (spared : Spared fd a was s)
    (ok : s.serve sha r = some (reply,s')) : Spared fd a was s' := by
  cases served ok with
  | noted notes => exact spared.noted allowed notes
  | reverted asks back => exact spared.revert back
  | wrote notes write journal destroyed =>
    have before := spared.noted allowed notes
    obtain ⟨same,other⟩ := wroteSame allowed write
    refine ⟨same.trans before.same,destroyed ▸ before.alive,fun x member => ?_⟩
    rw [journal] at member
    rcases List.mem_cons.mp member with rfl | earlier
    · exact other
    · exact before.journal x earlier

theorem finaliseReads {S : Type} [L1Chain.StateDB S] {s : StateDB S}
    (reads : ∀ (st : S) (b c : Address) (acct : Account), getAccount (setAccount st b acct) c =
      if c = b then acct else getAccount st c) {touched : List Address} :
    getAccount (touched.foldl StateDB.finaliseOne s).base a =
      if a ∈ touched ∧ s.deletes a = true then Account.zero else getAccount s.base a := by
  induction touched generalizing s with
  | nil => simp
  | cons b rest ih =>
    rw [List.foldl_cons,ih]
    by_cases own : b = a
    · subst own
      cases deleted : s.deletes b with
      | false =>
        have same : s.finaliseOne b = s := by simp [StateDB.finaliseOne,deleted]
        rw [same,deleted]
        simp
      | true =>
        have zeroed : getAccount (s.finaliseOne b).base b = Account.zero := by
          simp [StateDB.finaliseOne,deleted,reads]
        simp [zeroed]
    · have kept : getAccount (s.finaliseOne b).base a = getAccount s.base a ∧
          (s.finaliseOne b).deletes a = s.deletes a := by
        unfold StateDB.finaliseOne
        split
        · simp [StateDB.deletes,set,reads,Ne.symm own]
        · exact ⟨rfl,rfl⟩
      rw [kept.1,kept.2]
      simp [Ne.symm own]

theorem finaliseAt {touched : List Address} : ((touched.foldl StateDB.finaliseOne s).base.accounts a) =
    if a ∈ touched ∧ s.deletes a = true then Account.zero else s.base.accounts a := by
  have reads : ∀ (st : MptState) (b c : Address) (acct : Account), getAccount (setAccount st b acct) c =
      if c = b then acct else getAccount st c := fun _ _ _ _ => rfl
  exact finaliseReads reads

end

section
variable {S : Type} [L1Chain.StateDB S] {s : StateDB S}

def Undo.back (base : S) : Undo → S
  | .nonce a prev => setNonce base a prev
  | .balance a prev => setBalance base a prev
  | .code a prev => installCode base a prev
  | .storage a key prev => setStorage base a key prev
  | _ => base

def StateDB.origin (s : StateDB S) : S := s.journal.foldl Undo.back s.base

theorem unwindBase (entries : List Undo) : (s.unwind entries).base = entries.foldl Undo.back s.base := by
  induction entries generalizing s with
  | nil => rfl
  | cons u entries ih =>
    have now : (s.undo u).base = Undo.back s.base u := by cases u <;> rfl
    rw [StateDB.unwind,ih,now,List.foldl_cons]

theorem revertOrigin {id : Nat} {s' : StateDB S} (reverted : s.revertToSnapshot id = some s') :
    s'.origin = s.origin ∧ (id = 0 → s'.base = s.origin) := by
  unfold StateDB.revertToSnapshot at reverted
  split at reverted
  · cases Option.some.inj reverted
    simp only [StateDB.origin,unwindBase]
    refine ⟨?_,?_⟩
    · rw [← List.foldl_append,List.take_append_drop]
    · rintro rfl
      rw [Nat.sub_zero,List.take_length]
  · cases reverted

theorem Noted.origin {r : Request} {s' : StateDB S} (notes : Noted r s s') : s'.origin = s.origin := by
  obtain ⟨base,⟨entries,quiet,journal⟩,_⟩ := notes
  have still : ∀ base : S, entries.foldl Undo.back base = base := by
    clear journal
    induction entries with
    | nil => exact fun _ => rfl
    | cons u entries ih =>
      intro base
      have idle : Undo.back base u = base := by
        have here := quiet u List.mem_cons_self
        cases u <;> first | rfl | exact here.elim
      rw [List.foldl_cons,idle]
      exact ih (fun v member => quiet v (List.mem_cons_of_mem _ member)) base
  rw [StateDB.origin,StateDB.origin,journal,base,List.foldl_append,still]

theorem issuesAny {sha : Bytes → Hash} {Allowed : Request → Prop} (any : ∀ r, Allowed r) (prog : Prog) :
    Issues sha Allowed prog s := by
  induction prog generalizing s with
  | done gas => trivial
  | ask r k ih => exact issuesAsk (any r) (fun reply s => ih reply)

end

section
variable {fd : Field} {a : Address} {x y z : MptState} {s s' : StateDB MptState} {u : Undo} {sha : Bytes → Hash}

def Agree (fd : Field) (x y : MptState) : Prop := ∀ a, fd.Same (x.accounts a) (y.accounts a)

theorem Agree.of (same : x = y) : Agree fd x y := fun a => same ▸ Field.Same.refl fd (x.accounts a)

theorem Agree.trans (first : Agree fd x y) (second : Agree fd y z) : Agree fd x z :=
  fun a => (first a).trans (second a)

theorem putAgree {acct acct' : Account} (same : fd.Same acct acct') (agree : Agree fd x y) :
    Agree fd (x.put a acct) (y.put a acct') := by
  intro b
  have left : (x.put a acct).accounts b = if b = a then acct else x.accounts b := rfl
  have right : (y.put a acct').accounts b = if b = a then acct' else y.accounts b := rfl
  rw [left,right]
  split
  · exact same
  · exact agree b

theorem backAgree (u : Undo) (agree : Agree fd x y) : Agree fd (Undo.back x u) (Undo.back y u) := by
  cases u with
  | nonce b prev | balance b prev | code b prev | storage b key prev =>
    refine putAgree ?_ agree
    have own := agree b
    cases fd <;> first | rfl | exact own | exact congrArg (fun f k => if k = key then prev else f k) own
  | _ => exact agree

theorem unwindAgree {entries : List Undo} (agree : Agree fd x y) :
    Agree fd (entries.foldl Undo.back x) (entries.foldl Undo.back y) := by
  induction entries generalizing x y with
  | nil => exact agree
  | cons u entries ih => exact ih (backAgree u agree)

theorem putBack {acct acct' : Account} (back : acct' = x.accounts a) : (x.put a acct).put a acct' = x := by
  ext1 b
  have twice : ((x.put a acct).put a acct').accounts b = if b = a then acct' else if b = a then acct else x.accounts b := rfl
  rw [twice,back]
  split
  · rename_i own
    rw [own]
  · rfl

theorem nonceBack (x : MptState) (a : Address) (nonce : UInt64) :
    setNonce (setNonce x a nonce) a (getAccount x a).nonce = x := putBack (by simp [setNonce])

theorem balanceBack (x : MptState) (a : Address) (balance : UInt64) :
    setBalance (setBalance x a balance) a (getAccount x a).balance = x := putBack (by simp [setBalance])

theorem storageBack (x : MptState) (a : Address) (key value : Hash) :
    setStorage (setStorage x a key value) a key (getStorage x a key) = x := by
  refine putBack (Account.ext ?_ ?_ ?_ (funext fun k => ?_))
  · simp
  · simp
  · simp
  · by_cases same : k = key
    · simp [same]
    · simp [same]

theorem codeBack (x : MptState) (a : Address) (code prev : Bytes) (other : fd ≠ .code) :
    Agree fd (installCode (installCode x a code) a prev) x :=
  fun _ => (codeSame (fun same => absurd same other)).trans (codeSame (fun same => absurd same other))

theorem wroteBack {r : Request} (other : fd ≠ .code) (write : Wrote x r u y) : Agree fd (Undo.back y u) x := by
  cases write with
  | nonce a nonce => exact .of (nonceBack x a nonce)
  | added a amount balance | taken a amount balance => exact .of (balanceBack x a balance)
  | code a code => exact codeBack x a code _ other
  | storage a key value => exact .of (storageBack x a key value)

theorem serveOrigin {r : Request} {reply : Reply} (other : fd ≠ .code) (ok : s.serve sha r = some (reply,s')) :
    Agree fd s'.origin s.origin := by
  cases served ok with
  | noted notes => exact .of notes.origin
  | wrote notes write journal _ =>
    rw [← notes.origin,StateDB.origin,journal]
    exact unwindAgree (wroteBack other write)
  | reverted asks back => exact .of (revertOrigin back).1

theorem interpretOrigin {prog : Prog} {gas : UInt64} (other : fd ≠ .code) (ran : interpret sha prog s = some (gas,s')) :
    Agree fd s'.origin s.origin :=
  interpretKeeps (P := fun s' => Agree fd s'.origin s.origin) (fun _ before served => (serveOrigin other served).trans before)
    (issuesAny (fun _ => trivial) prog) (.of rfl) ran

end
end L1Chain.Adapter
