import L1Chain.MptBases
import L1Chain.Runs

/-! Sequences of StateDB calls. A caller writes back an account it has read, with another
balance and nonce, and no code or word of that account was set in between. Then the MPT
implementation answers like the plain state, whatever else is called. -/
namespace L1Chain.Mpt
open Trie Patricia Runs

/- `setAccount` names the account it writes back by the read it comes from, the latest read
being 0. -/
inductive Op where
  | getAccount (a : Address)
  | setAccount (read : ℕ) (balance nonce : UInt64)
  | getCode (a : Address)
  | setCode (a : Address) (code : Bytes)
  | getStorage (a : Address) (key : Hash)
  | setStorage (a : Address) (key val : Hash)

inductive Answer where
  | account (balance nonce : UInt64)
  | code (bytes : Bytes)
  | word (val : Hash)
  deriving DecidableEq

structure Session (S : Type) where
  db : S
  reads : List (Address × Account)

section
variable {S : Type} (B : Backend S)

def next (s : Session S) : Op → Session S
  | .getAccount a => {s with reads := (a,B.getAccount s.db a)::s.reads}
  | .setAccount i balance nonce =>
    match s.reads[i]? with
    | none => s
    | some (a,acct) => {s with db := B.setAccount s.db a {acct with balance := balance, nonce := nonce}}
  | .getCode _ => s
  | .setCode a code => {s with db := B.setCode s.db a code}
  | .getStorage _ _ => s
  | .setStorage a key val => {s with db := B.setStorage s.db a key val}

def answer (s : Session S) : Op → Option Answer
  | .getAccount a => some (.account (B.getAccount s.db a).balance (B.getAccount s.db a).nonce)
  | .getCode a => some (.code (B.getCode s.db a))
  | .getStorage a key => some (.word (B.getStorage s.db a key))
  | _ => none

def answers : Session S → List Op → List (Option Answer)
  | _, [] => []
  | s, op::ops => answer B s op::answers (next B s op) ops

def run (s : Session S) (ops : List Op) : Session S := ops.foldl (next B) s

end

abbrev Held := List (Address × Bool)

def spoil (a : Address) (held : Held) : Held := held.map (fun h => if h.1 = a then (h.1,false) else h)

def heldNext (held : Held) : Op → Held
  | .getAccount a => (a,true)::held
  | .setCode a _ => spoil a held
  | .setStorage a _ _ => spoil a held
  | _ => held

def WritesBack (held : Held) : Op → Prop
  | .setAccount i _ _ => ∃ a, held[i]? = some (a,true)
  | _ => True

def Disciplined (ops : List Op) : Prop := Along heldNext WritesBack [] ops

def stateNext (st : MptState) (held : Held) : Op → MptState
  | .setAccount i balance nonce =>
    match held[i]? with
    | none => st
    | some (a,_) => st.put a {st.accounts a with balance := balance, nonce := nonce}
  | .setCode a code => setCode st a code
  | .setStorage a key val => setStorage st a key val
  | _ => st

def specNext (s : MptState × Held) (op : Op) : MptState × Held := (stateNext s.1 s.2 op,heldNext s.2 op)

def specAnswer (st : MptState) : Op → Option Answer
  | .getAccount a => some (.account (st.accounts a).balance (st.accounts a).nonce)
  | .getCode a => some (.code (st.accounts a).code)
  | .getStorage a key => some (.word ((st.accounts a).storage key))
  | _ => none

def specAnswers : MptState × Held → List Op → List (Option Answer)
  | _, [] => []
  | s, op::ops => specAnswer s.1 op::specAnswers (specNext s op) ops

def codesOf (ops : List Op) : List Bytes :=
  ops.filterMap (fun | .setCode _ code => if code = [] then none else some code | _ => none)

def Op.address : Op → Option Address
  | .getAccount a | .getCode a | .setCode a _ | .getStorage a _ | .setStorage a _ _ => some a
  | .setAccount _ _ _ => none

def Op.slot : Op → Option Hash
  | .getStorage _ key | .setStorage _ key _ => some key
  | _ => none

/- What is assumed of the hash on keys: it tells apart the addresses and the slots that the
calls name. -/
def CallsApart (sha : Bytes → Hash) (ops : List Op) : Prop :=
  NamesApart sha (ops.filterMap Op.address) (ops.filterMap Op.slot)

structure Tracks (sha : Bytes → Hash) (codes : List Bytes) (names : List Address) (keys : List Hash) (s : Session MptDB)
    (plain : MptState) (held : Held) (st : MptState) (slots : Address → Tree 16 Bytes) : Prop where
  stands : Stands sha codes names keys s.db plain st slots
  same : s.reads.map Prod.fst = held.map Prod.fst
  named : ∀ h ∈ held, h.1 ∈ names
  fresh : ∀ (i : ℕ) (a : Address) (acct : Account), s.reads[i]? = some (a,acct) → held[i]? = some (a,true) →
    Current sha st slots a acct

section
variable {sha : Bytes → Hash} {codes : List Bytes} {names : List Address} {keys : List Hash} {s : Session MptDB}
  {plain st : MptState} {held : Held} {slots : Address → Tree 16 Bytes} {op : Op} {ops : List Op} {a : Address}

theorem nextExtends (addressed : Addressed sha s.db.nodes) (op : Op) :
    Extends sha s.db.nodes (next (MptDB.backend sha) s op).db.nodes := by
  cases op with
  | getAccount a => exact extendsRefl addressed
  | setAccount i balance nonce =>
    simp only [next]
    split
    · exact extendsRefl addressed
    · exact setAccountExtends addressed _ _
  | getCode a => exact extendsRefl addressed
  | setCode a code => exact setCodeExtends addressed a code
  | getStorage a key => exact extendsRefl addressed
  | setStorage a key val => exact setStorageExtends addressed a key val

theorem runExtends (addressed : Addressed sha s.db.nodes) (ops : List Op) :
    Extends sha s.db.nodes (run (MptDB.backend sha) s ops).db.nodes := by
  induction ops generalizing s with
  | nil => exact extendsRefl addressed
  | cons op ops ih =>
    have first := nextExtends addressed op
    exact first.trans (ih first.addressed)

theorem spoilKeeps {i : ℕ} {b : Address} (kept : (spoil a held)[i]? = some (b,true)) : b ≠ a ∧ held[i]? = some (b,true) := by
  rw [spoil,List.getElem?_map] at kept
  cases found : held[i]? with
  | none =>
    rw [found] at kept
    cases kept
  | some h =>
    rw [found,Option.map_some] at kept
    have same := Option.some.inj kept
    split at same
    · cases same
    · rename_i other
      rw [same] at other
      rw [same]
      exact ⟨other,rfl⟩

theorem spoilSame : (spoil a held).map Prod.fst = held.map Prod.fst := by
  rw [spoil,List.map_map]
  refine List.map_congr_left (fun h _ => ?_)
  dsimp only [Function.comp]
  split
  · rfl
  · rfl

theorem spoilNamed (named : ∀ h ∈ held, h.1 ∈ names) : ∀ h ∈ spoil a held, h.1 ∈ names := by
  intro h member
  obtain ⟨old,there,rfl⟩ := List.mem_map.mp member
  split
  · exact named old there
  · exact named old there

theorem Tracks.written {db : MptDB} {plain' st' : MptState} {slots' : Address → Tree 16 Bytes}
    (tracks : Tracks sha codes names keys s plain held st slots) (stands : Stands sha codes names keys db plain' st' slots')
    (others : ∀ b ∈ names, b ≠ a → ∀ r, Current sha st slots b r → Current sha st' slots' b r) :
    Tracks sha codes names keys {s with db := db} plain' (spoil a held) st' slots' := by
  refine ⟨stands,tracks.same.trans spoilSame.symm,spoilNamed tracks.named,fun i b acct read kept => ?_⟩
  obtain ⟨other,old⟩ := spoilKeeps kept
  exact others b (tracks.named _ (List.mem_of_getElem? old)) other acct (tracks.fresh i b acct read old)

theorem nextTracks (tracks : Tracks sha codes names keys s plain held st slots) (apart : NamesApart sha names keys)
    (back : WritesBack held op) (known : ∀ c ∈ codesOf [op], c ∈ codes) (address : ∀ a ∈ op.address, a ∈ names)
    (slot : ∀ k ∈ op.slot, k ∈ keys) (trusts : Trusts sha codes (next (MptDB.backend sha) s op).db.nodes) :
    ∃ st' slots', Tracks sha codes names keys (next (MptDB.backend sha) s op) (stateNext plain held op) (heldNext held op)
      st' slots' := by
  have levels := tracks.stands.represents.levels
  have free := trusts.nodes.mono (nextExtends levels.addressed op).grows
  cases op with
  | getAccount a =>
    refine ⟨st,slots,tracks.stands,?_,List.forall_mem_cons.mpr ⟨address a rfl,tracks.named⟩,?_⟩
    · simp only [next,heldNext,List.map_cons,tracks.same]
    · intro i b acct read kept
      cases i with
      | zero =>
        obtain ⟨rfl,rfl⟩ : a = b ∧ _ = acct := by simpa [next] using read
        have account := levels.getAccount free a
        exact ⟨congrArg Account.codeHash account,congrArg Account.storageRoot account⟩
      | succ i => exact tracks.fresh i b acct read kept
  | setAccount i balance nonce =>
    obtain ⟨a,writable⟩ := back
    have named : (s.reads.map Prod.fst)[i]? = some a := by
      rw [tracks.same,List.getElem?_map,writable]
      rfl
    rw [List.getElem?_map] at named
    obtain ⟨⟨_,acct⟩,read,rfl⟩ := Option.map_eq_some_iff.mp named
    simp only [next,read,stateNext,heldNext,writable] at trusts ⊢
    have known := tracks.named _ (List.mem_of_getElem? writable)
    have current : Current sha st slots _ {acct with balance := balance, nonce := nonce} :=
      tracks.fresh i _ acct read writable
    obtain ⟨st',slots',stands,kept⟩ := tracks.stands.setAccount apart known current trusts.nodes
    refine ⟨st',slots',stands,tracks.same,tracks.named,fun j b other read writable => ?_⟩
    exact kept b (tracks.named _ (List.mem_of_getElem? writable)) other (tracks.fresh j b other read writable)
  | getCode a => exact ⟨st,slots,tracks⟩
  | setCode a code =>
    obtain ⟨st',slots',stands,kept⟩ := tracks.stands.setCode apart (address a rfl)
      (fun some => known code (by simp [codesOf,some])) trusts
    exact ⟨st',slots',tracks.written stands kept⟩
  | getStorage a key => exact ⟨st,slots,tracks⟩
  | setStorage a key val =>
    obtain ⟨st',slots',stands,kept⟩ := tracks.stands.setStorage apart (address a rfl) (slot key rfl) val trusts
    exact ⟨st',slots',tracks.written stands kept⟩

theorem answerTracks (tracks : Tracks sha codes names keys s plain held st slots) (trusts : Trusts sha codes s.db.nodes)
    (address : ∀ a ∈ op.address, a ∈ names) (slot : ∀ k ∈ op.slot, k ∈ keys) :
    answer (MptDB.backend sha) s op = specAnswer plain op := by
  cases op with
  | getAccount a =>
    obtain ⟨balance,nonce,-,-⟩ := tracks.stands.answers trusts (address a rfl)
    exact congrArg₂ (fun balance nonce => some (Answer.account balance nonce)) balance nonce
  | getCode a =>
    obtain ⟨-,-,code,-⟩ := tracks.stands.answers trusts (address a rfl)
    exact congrArg (fun code => some (Answer.code code)) code
  | getStorage a key =>
    obtain ⟨-,-,-,words⟩ := tracks.stands.answers trusts (address a rfl)
    exact congrArg (fun val => some (Answer.word val)) (words key (slot key rfl))
  | _ => rfl

theorem startTracks : Tracks sha codes names keys ⟨new,[]⟩ .empty [] .empty (fun _ => .empty) := by
  refine ⟨⟨newRepresents,fun a _ => ⟨rfl,rfl,rfl,fun _ _ => rfl⟩⟩,rfl,fun h member => (nomatch member),?_⟩
  intro i a acct read
  cases read

theorem runTracks (tracks : Tracks sha codes names keys s plain held st slots) (apart : NamesApart sha names keys)
    (back : Along heldNext WritesBack held ops) (known : ∀ c ∈ codesOf ops, c ∈ codes)
    (address : ∀ a ∈ ops.filterMap Op.address, a ∈ names) (slot : ∀ k ∈ ops.filterMap Op.slot, k ∈ keys)
    (trusts : Trusts sha codes (run (MptDB.backend sha) s ops).db.nodes) :
    answers (MptDB.backend sha) s ops = specAnswers (plain,held) ops := by
  induction ops generalizing s plain held st slots with
  | nil => rfl
  | cons op ops ih =>
    have split : codesOf (op::ops) = codesOf [op] ++ codesOf ops := List.filterMap_append (l := [op])
    rw [split,List.forall_mem_append] at known
    have first := nextExtends tracks.stands.represents.levels.addressed op
    have rest := runExtends first.addressed ops
    have own : ∀ a ∈ op.address, a ∈ names := fun a member =>
      address a (List.mem_filterMap.mpr ⟨op,List.mem_cons_self,member⟩)
    have place : ∀ k ∈ op.slot, k ∈ keys := fun k member =>
      slot k (List.mem_filterMap.mpr ⟨op,List.mem_cons_self,member⟩)
    obtain ⟨st',slots',after⟩ := nextTracks tracks apart back.1 known.1 own place (trusts.earlier rest.grows)
    have later := ih after back.2 known.2
      (fun a member => address a (((List.sublist_cons_self ..).filterMap _).subset member))
      (fun k member => slot k (((List.sublist_cons_self ..).filterMap _).subset member)) trusts
    have now := answerTracks tracks (trusts.earlier (first.trans rest).grows) own place
    exact congrArg₂ List.cons now later

end

structure MemTracks (s : Session MemDB) (st : MptState) (held : Held) : Prop where
  balance : ∀ a, (s.db.getAccount a).balance = (st.accounts a).balance
  nonce : ∀ a, (s.db.getAccount a).nonce = (st.accounts a).nonce
  code : ∀ a, s.db.getCode a = (st.accounts a).code
  storage : ∀ a key, s.db.getStorage a key = (st.accounts a).storage key
  same : s.reads.map Prod.fst = held.map Prod.fst

section
variable {K V : Type} [DecidableEq K]

theorem insertRead (m : AList (fun _ : K => V)) (key k : K) (val missing : V) :
    ((m.insert key val).lookup k).getD missing = if k = key then val else (m.lookup k).getD missing := by
  split
  · rename_i same
    rw [same,AList.lookup_insert]
    rfl
  · rename_i other
    rw [AList.lookup_insert_ne other]

theorem eraseRead (m : AList (fun _ : K => V)) (key k : K) (missing : V) :
    ((m.erase key).lookup k).getD missing = if k = key then missing else (m.lookup k).getD missing := by
  split
  · rename_i same
    rw [same,AList.lookup_erase]
    rfl
  · rename_i other
    rw [AList.lookup_erase_ne other]

end

section
variable {s : Session MemDB} {st : MptState} {held : Held} {op : Op} {ops : List Op} {db : MemDB} {a b : Address}

theorem memAccount (acct : Account) : (db.setAccount a acct).getAccount b = if b = a then acct else db.getAccount b :=
  insertRead db.accounts a b acct Account.zero

theorem memCode (code : Bytes) : (db.setCode a code).getCode b = if b = a then code else db.getCode b := by
  unfold MemDB.setCode MemDB.getCode
  dsimp only
  split
  · rename_i void
    rw [void]
    exact eraseRead db.code a b []
  · exact insertRead db.code a b code []

theorem memRead (b : Address) (k : Hash) :
    db.getStorage b k = (((db.storage.lookup b).getD ∅).lookup k).getD 0 := by
  unfold MemDB.getStorage
  cases db.storage.lookup b with
  | none => rfl
  | some m => rfl

theorem memStorageBeside {key val : Hash} : (db.setStorage a key val).getAccount b = db.getAccount b ∧
    (db.setStorage a key val).getCode b = db.getCode b := by
  unfold MemDB.setStorage
  split
  · split
    · exact ⟨rfl,rfl⟩
    · exact ⟨rfl,rfl⟩
  · exact ⟨rfl,rfl⟩

theorem memStorage (key val k : Hash) : (db.setStorage a key val).getStorage b k =
    if b = a ∧ k = key then val else db.getStorage b k := by
  rw [memRead,memRead]
  unfold MemDB.setStorage
  by_cases own : b = a
  · subst own
    split
    · rename_i zero
      cases found : db.storage.lookup b with
      | none => simp [found,zero]
      | some m =>
        dsimp only
        split
        · rename_i none
          have void := eraseRead m key k 0
          rw [show m.erase key = ∅ from AList.ext none] at void
          simpa [zero] using void
        · simpa [zero] using eraseRead m key k 0
    · simpa using insertRead ((db.storage.lookup b).getD ∅) key k val 0
  · split
    · cases found : db.storage.lookup a with
      | none => simp [own]
      | some m =>
        dsimp only
        split
        · simp [own]
        · simp [own]
    · simp [own]

theorem putSame {β : Type} {acct : L1Chain.Account} {x : β} (f : L1Chain.Account → β)
    (same : f acct = f (st.accounts a)) (was : x = f (st.accounts b)) : x = f ((st.put a acct).accounts b) :=
  was.trans (MptState.putKeeps f same).symm

theorem memNext (tracks : MemTracks s st held) (op : Op) :
    MemTracks (next MemDB.backend s op) (stateNext st held op) (heldNext held op) := by
  cases op with
  | getAccount a => exact {tracks with same := congrArg (a::·) tracks.same}
  | setAccount i balance nonce =>
    have named := congrArg (·[i]?) tracks.same
    simp only [List.getElem?_map] at named
    simp only [next,stateNext,heldNext]
    cases read : s.reads[i]? with
    | none =>
      rw [read] at named
      rw [Option.map_eq_none_iff.mp named.symm]
      exact tracks
    | some x =>
      rw [read] at named
      obtain ⟨y,there,same⟩ := Option.map_eq_some_iff.mp named.symm
      rw [there]
      dsimp only
      rw [same]
      refine ⟨fun b => ?_,fun b => ?_,fun b => ?_,fun b key => ?_,tracks.same⟩
      · simp only [MemDB.backend,memAccount,MptState.put]
        split
        · rfl
        · exact tracks.balance b
      · simp only [MemDB.backend,memAccount,MptState.put]
        split
        · rfl
        · exact tracks.nonce b
      · exact putSame (·.code) rfl (tracks.code b)
      · exact putSame (·.storage key) rfl (tracks.storage b key)
  | getCode a => exact tracks
  | setCode a code =>
    refine ⟨fun b => ?_,fun b => ?_,fun b => ?_,fun b key => ?_,tracks.same.trans spoilSame.symm⟩
    · exact putSame (·.balance) rfl (tracks.balance b)
    · exact putSame (·.nonce) rfl (tracks.nonce b)
    · simp only [next,stateNext,MemDB.backend,memCode,MptState.setCodeAt]
      split
      · rfl
      · exact tracks.code b
    · exact putSame (·.storage key) rfl (tracks.storage b key)
  | getStorage a key => exact tracks
  | setStorage a key val =>
    refine ⟨fun b => ?_,fun b => ?_,fun b => ?_,fun b k => ?_,tracks.same.trans spoilSame.symm⟩
    · simp only [next,stateNext,MemDB.backend,memStorageBeside.1]
      exact putSame (·.balance) rfl (tracks.balance b)
    · simp only [next,stateNext,MemDB.backend,memStorageBeside.1]
      exact putSame (·.nonce) rfl (tracks.nonce b)
    · simp only [next,stateNext,MemDB.backend,memStorageBeside.2]
      exact putSame (·.code) rfl (tracks.code b)
    · simp only [next,stateNext,MemDB.backend,memStorage,MptState.setStorageAt]
      by_cases own : b = a
      · subst own
        simp [tracks.storage]
      · simp [own,tracks.storage]

theorem memAnswers (tracks : MemTracks s st held) (ops : List Op) :
    answers MemDB.backend s ops = specAnswers (st,held) ops := by
  induction ops generalizing s st held with
  | nil => rfl
  | cons op ops ih =>
    refine congrArg₂ List.cons ?_ (ih (memNext tracks op))
    cases op with
    | getAccount a =>
      exact congrArg₂ (fun balance nonce => some (Answer.account balance nonce)) (tracks.balance a) (tracks.nonce a)
    | getCode a => exact congrArg (fun code => some (Answer.code code)) (tracks.code a)
    | getStorage a key => exact congrArg (fun val => some (Answer.word val)) (tracks.storage a key)
    | _ => rfl

theorem memStarts : MemTracks ⟨newMem,[]⟩ .empty [] :=
  ⟨fun _ => rfl,fun _ => rfl,fun _ => rfl,fun _ _ => rfl,rfl⟩

theorem implementationsAgree {sha : Bytes → Hash} (disciplined : Disciplined ops) (apart : CallsApart sha ops)
    (trusts : Trusts sha (codesOf ops) (run (MptDB.backend sha) ⟨new,[]⟩ ops).db.nodes) :
    answers (MptDB.backend sha) ⟨new,[]⟩ ops = answers MemDB.backend ⟨newMem,[]⟩ ops := by
  have left := runTracks startTracks apart disciplined (fun _ member => member) (fun _ member => member)
    (fun _ member => member) trusts
  exact left.trans (memAnswers memStarts ops).symm

end

def calls : List Op :=
  [.setCode 1 [1,2,3],.getAccount 1,.setAccount 0 100 1,.setStorage 1 5 7,.getAccount 1,.setAccount 0 90 2,.getStorage 1 5,
    .getCode 1,.setStorage 1 5 0,.getStorage 1 5,.getAccount 1,.getStorage 2 6]

theorem callsDisciplined : Disciplined calls :=
  ⟨trivial,trivial,⟨1,rfl⟩,trivial,trivial,⟨1,rfl⟩,trivial,trivial,trivial,trivial,trivial,trivial,trivial⟩

theorem callsApart : CallsApart horner calls := by
  have addresses : Apart horner Address.bytes [1,2] := apartOfNodup (by decide +kernel)
  have slots : Apart horner Hash.bytes [5,6] := apartOfNodup (by decide +kernel)
  exact ⟨addresses.part (by decide),slots.part (by decide)⟩

theorem callsTrusted : Trusts horner (codesOf calls) (run (MptDB.backend horner) ⟨new,[]⟩ calls).db.nodes :=
  ⟨by decide +kernel,by decide +kernel,by decide +kernel⟩

theorem callsAgree : Disciplined calls ∧ answers (MptDB.backend horner) ⟨new,[]⟩ calls =
    [none,some (.account 0 0),none,none,some (.account 100 1),none,some (.word 7),some (.code [1,2,3]),none,
      some (.word 0),some (.account 90 2),some (.word 0)] :=
  ⟨callsDisciplined,(implementationsAgree callsDisciplined callsApart callsTrusted).trans (by decide)⟩

end L1Chain.Mpt
