import L1Chain.MptBases
import L1Chain.StackVMSteps

/-! The scopes of vm/stackvm.go over the StateDB interface as it is, where an account
record carries the hash of its code and the root of its words. A nest is the scopes made
over one base, the root first; each knows its parent, its parent's parent and so on. Any
of them may be read, written, committed or left alone at any time. -/
namespace L1Chain.Mpt.Journal
open Trie Patricia Runs

-- The nested storage map is keyed by address and key together; `above` starts with the parent.
structure Scope where
  above : List ℕ
  acct : AList (fun _ : Address => Account)
  code : AList (fun _ : Address => Bytes)
  storage : AList (fun _ : Address × Hash => Hash)

def Scope.empty (above : List ℕ) : Scope := ⟨above,∅,∅,∅⟩

-- `held` are the records the caller has read through scopes of the nest.
structure Nest (S : Type) where
  base : S
  scopes : List Scope
  held : List (Address × Account)

inductive Op where
  | child (i : ℕ)
  | getAccount (i : ℕ) (a : Address)
  | setAccount (i : ℕ) (record : ℕ) (balance nonce : UInt64)
  | setCode (i : ℕ) (a : Address) (code : Bytes)
  | setStorage (i : ℕ) (a : Address) (k v : Hash)
  | commit (i : ℕ)
  | discard (i : ℕ)

def Scope.absorb (parent child : Scope) : Scope :=
  {parent with
    acct := child.acct ∪ parent.acct
    code := child.code ∪ parent.code
    storage := child.storage ∪ parent.storage}

structure Scope.Iteration (s : Scope) where
  accts : List (Sigma fun _ : Address => Account)
  codes : List (Sigma fun _ : Address => Bytes)
  words : List (Sigma fun _ : Address × Hash => Hash)
  everyAcct : accts.Perm s.acct.entries
  everyCode : codes.Perm s.code.entries
  everyWord : words.Perm s.storage.entries

section
variable {S : Type} (B : Backend S)

namespace Nest

def newScope (base : S) : Nest S := ⟨base,[.empty []],[]⟩

def line (n : Nest S) (i : ℕ) : List Scope :=
  match n.scopes[i]? with
  | none => []
  | some s => s::s.above.filterMap (n.scopes[·]?)

def getAccount (n : Nest S) (i : ℕ) (a : Address) : Account :=
  ((n.line i).findSome? (·.acct.lookup a)).getD (B.getAccount n.base a)

def getCode (n : Nest S) (i : ℕ) (a : Address) : Bytes :=
  ((n.line i).findSome? (·.code.lookup a)).getD (B.getCode n.base a)

def getStorage (n : Nest S) (i : ℕ) (a : Address) (k : Hash) : Hash :=
  ((n.line i).findSome? (·.storage.lookup (a,k))).getD (B.getStorage n.base a k)

def step (n : Nest S) : Op → Nest S
  | .child i =>
    match n.scopes[i]? with
    | none => n
    | some s => {n with scopes := n.scopes ++ [.empty (i::s.above)]}
  | .getAccount i a => {n with held := (a,n.getAccount B i a)::n.held}
  | .setAccount i record balance nonce =>
    match n.held[record]? with
    | none => n
    | some (a,acct) =>
      {n with scopes := n.scopes.modify i (fun s =>
        {s with acct := s.acct.insert a {acct with balance := balance, nonce := nonce}})}
  | .setCode i a code => {n with scopes := n.scopes.modify i (fun s => {s with code := s.code.insert a code})}
  | .setStorage i a k v => {n with scopes := n.scopes.modify i (fun s => {s with storage := s.storage.insert (a,k) v})}
  | .commit i =>
    match n.scopes[i]? with
    | none => n
    | some s =>
      match s.above with
      | [] => n
      | parent::_ => {n with scopes := n.scopes.modify parent (·.absorb s)}
  -- A scope that is discarded is one that is not committed.
  | .discard _ => n

def run (n : Nest S) (ops : List Op) : Nest S := ops.foldl (step B) n

def root (n : Nest S) : Scope := n.scopes.headD (.empty [])

def flush (n : Nest S) (order : n.root.Iteration) : S :=
  let st := order.accts.foldl (fun st e => B.setAccount st e.1 e.2) n.base
  let st := order.codes.foldl (fun st e => B.setCode st e.1 e.2) st
  order.words.foldl (fun st e => B.setStorage st e.1.1 e.1.2 e.2) st

end Nest

def Carries (base : S) (a : Address) (acct : Account) : Prop :=
  acct.codeHash = (B.getAccount base a).codeHash ∧ acct.storageRoot = (B.getAccount base a).storageRoot

/- What no operation of a nest changes: the base, that the first scope is the root, and
that no record carries a code hash or storage root but the base's. -/
structure Nest.Sound (base : S) (n : Nest S) : Prop where
  frozen : n.base = base
  root : ∃ s rest, n.scopes = s::rest ∧ s.above = []
  buffered : ∀ s ∈ n.scopes, ∀ a acct, s.acct.lookup a = some acct → Carries B base a acct
  held : ∀ e ∈ n.held, Carries B base e.1 e.2

variable {B} {base : S} {n : Nest S} {a : Address} {acct : Account}

theorem newScopeSound : (Nest.newScope base).Sound B base where
  frozen := rfl
  root := ⟨_,[],rfl,rfl⟩
  buffered := by
    intro s member a acct found
    cases List.mem_singleton.mp member
    cases found
  held := fun e member => nomatch member

theorem Nest.Sound.read (sound : n.Sound B base) (i : ℕ) (a : Address) : Carries B base a (n.getAccount B i a) := by
  unfold Nest.getAccount
  cases found : (n.line i).findSome? (·.acct.lookup a) with
  | none =>
    rw [sound.frozen]
    exact ⟨rfl,rfl⟩
  | some acct =>
    obtain ⟨s,member,here⟩ := List.exists_of_findSome?_eq_some found
    have old : s ∈ n.scopes := by
      unfold Nest.line at member
      split at member
      · cases member
      · rename_i t own
        rcases List.mem_cons.mp member with rfl | below
        · exact List.mem_of_getElem? own
        · obtain ⟨j,-,there⟩ := List.mem_filterMap.mp below
          exact List.mem_of_getElem? there
    exact sound.buffered s old a acct here

theorem Nest.Sound.modify (sound : n.Sound B base) (i : ℕ) {f : Scope → Scope} (place : ∀ s, (f s).above = s.above)
    (enters : ∀ s ∈ n.scopes, ∀ a acct, (f s).acct.lookup a = some acct → Carries B base a acct) :
    ({n with scopes := n.scopes.modify i f} : Nest S).Sound B base := by
  refine ⟨sound.frozen,?_,?_,sound.held⟩
  · obtain ⟨s,rest,scopes,top⟩ := sound.root
    dsimp only
    rw [scopes]
    cases i with
    | zero => exact ⟨f s,rest,rfl,(place s).trans top⟩
    | succ i => exact ⟨s,rest.modify i f,rfl,top⟩
  · intro s member a acct found
    obtain ⟨j,at_⟩ := List.mem_iff_getElem?.mp member
    rw [List.getElem?_modify] at at_
    split at at_
    · obtain ⟨old,there,rfl⟩ := Option.map_eq_some_iff.mp at_
      exact enters old (List.mem_of_getElem? there) a acct found
    · exact sound.buffered s (List.mem_of_getElem? (by simpa using at_)) a acct found

theorem Nest.Sound.child (sound : n.Sound B base) (above : List ℕ) :
    ({n with scopes := n.scopes ++ [.empty above]} : Nest S).Sound B base := by
  refine ⟨sound.frozen,?_,?_,sound.held⟩
  · obtain ⟨s,rest,scopes,top⟩ := sound.root
    dsimp only
    rw [scopes]
    exact ⟨s,rest ++ [.empty above],rfl,top⟩
  · intro s member a acct found
    rcases List.mem_append.mp member with old | new
    · exact sound.buffered s old a acct found
    · cases List.mem_singleton.mp new
      cases found

theorem insertCarries {m : AList (fun _ : Address => Account)} {b : Address} {record : Account}
    (old : ∀ a acct, m.lookup a = some acct → Carries B base a acct) (new : Carries B base b record) (a : Address)
    (acct : Account) (found : (m.insert b record).lookup a = some acct) : Carries B base a acct := by
  by_cases same : a = b
  · subst same
    rw [AList.lookup_insert] at found
    cases found
    exact new
  · rw [AList.lookup_insert_ne same] at found
    exact old a acct found

theorem unionCarries {m m' : AList (fun _ : Address => Account)}
    (first : ∀ a acct, m.lookup a = some acct → Carries B base a acct)
    (second : ∀ a acct, m'.lookup a = some acct → Carries B base a acct) (a : Address) (acct : Account)
    (found : (m ∪ m').lookup a = some acct) : Carries B base a acct := by
  rcases AList.mem_lookup_union.mp found with left | ⟨-,right⟩
  · exact first a acct left
  · exact second a acct right

theorem stepSound (sound : n.Sound B base) (op : Op) : (n.step B op).Sound B base := by
  cases op with
  | child i =>
    simp only [Nest.step]
    split
    · exact sound
    · exact sound.child _
  | getAccount i a =>
    refine ⟨sound.frozen,sound.root,sound.buffered,fun e member => ?_⟩
    rcases List.mem_cons.mp member with rfl | older
    · exact sound.read i a
    · exact sound.held e older
  | setAccount i record balance nonce =>
    simp only [Nest.step]
    split
    · exact sound
    · rename_i a acct kept
      exact sound.modify i (fun s => rfl) (fun s member =>
        insertCarries (sound.buffered s member) (sound.held _ (List.mem_of_getElem? kept)))
  | setCode i a code => exact sound.modify i (fun s => rfl) sound.buffered
  | setStorage i a k v => exact sound.modify i (fun s => rfl) sound.buffered
  | commit i =>
    simp only [Nest.step]
    split
    · exact sound
    · rename_i s found
      split
      · exact sound
      · exact sound.modify _ (fun s => rfl) (fun parent member =>
          unionCarries (sound.buffered s (List.mem_of_getElem? found)) (sound.buffered parent member))
  | discard i => exact sound

theorem runSound (sound : n.Sound B base) (ops : List Op) : (n.run B ops).Sound B base := by
  induction ops generalizing n with
  | nil => exact sound
  | cons op ops ih => exact ih (stepSound sound op)

theorem Nest.Sound.line (sound : n.Sound B base) : n.line 0 = [n.root] := by
  obtain ⟨s,rest,scopes,top⟩ := sound.root
  rw [Nest.line,Nest.root,scopes]
  simp [top]

theorem rootReads (sound : n.Sound B base) (a : Address) (k : Hash) :
    n.getAccount B 0 a = (n.root.acct.lookup a).getD (B.getAccount base a) ∧
    n.getCode B 0 a = (n.root.code.lookup a).getD (B.getCode base a) ∧
    n.getStorage B 0 a k = (n.root.storage.lookup (a,k)).getD (B.getStorage base a k) := by
  rw [Nest.getAccount,Nest.getCode,Nest.getStorage,sound.line,sound.frozen]
  simp only [List.findSome?_singleton,and_self]

end

def Scope.installs (s : Scope) : List Bytes := s.code.entries.flatMap (fun e => Mpt.installs e.2)

def Scope.addresses (s : Scope) : List Address := s.acct.keys ++ (s.code.keys ++ s.storage.keys.map Prod.fst)

def Scope.slots (s : Scope) : List Hash := s.storage.keys.map Prod.snd

def funded (st : MptState) (e : Sigma fun _ : Address => Account) : MptState :=
  st.put e.1 {st.accounts e.1 with balance := e.2.balance, nonce := e.2.nonce}

section
variable {sha : Bytes → Hash} {codes : List Bytes} {names : List Address} {keys : List Hash} {db : MptDB}
  {plain st : MptState} {slots : Address → Tree 16 Bytes}

theorem foldExtends {α : Type} {f : MptDB → α → MptDB}
    (grows : ∀ db x, Addressed sha db.nodes → Extends sha db.nodes (f db x).nodes) (xs : List α)
    (addressed : Addressed sha db.nodes) : Extends sha db.nodes (xs.foldl f db).nodes := by
  induction xs generalizing db with
  | nil => exact extendsRefl addressed
  | cons x xs ih =>
    have first := grows db x addressed
    exact first.trans (ih first.addressed)

theorem accountsExtend (entries : List (Sigma fun _ : Address => Account)) (addressed : Addressed sha db.nodes) :
    Extends sha db.nodes (entries.foldl (fun db e => db.setAccount sha e.1 e.2) db).nodes :=
  foldExtends (fun _ _ addressed => setAccountExtends addressed _ _) entries addressed

theorem codesExtend (entries : List (Sigma fun _ : Address => Bytes)) (addressed : Addressed sha db.nodes) :
    Extends sha db.nodes (entries.foldl (fun db e => db.setCode sha e.1 e.2) db).nodes :=
  foldExtends (fun _ _ addressed => setCodeExtends addressed _ _) entries addressed

theorem wordsExtend (entries : List (Sigma fun _ : Address × Hash => Hash)) (addressed : Addressed sha db.nodes) :
    Extends sha db.nodes (entries.foldl (fun db e => db.setStorage sha e.1.1 e.1.2 e.2) db).nodes :=
  foldExtends (fun _ _ addressed => setStorageExtends addressed _ _ _) entries addressed

theorem accountsFlushed {entries : List (Sigma fun _ : Address => Account)} (apart : NamesApart sha names keys)
    (named : ∀ e ∈ entries, e.1 ∈ names) (carried : ∀ e ∈ entries, Current sha st slots e.1 e.2)
    (stands : Stands sha codes names keys db plain st slots)
    (trusts : Trusts sha codes (entries.foldl (fun db e => db.setAccount sha e.1 e.2) db).nodes) :
    ∃ st' slots', Stands sha codes names keys (entries.foldl (fun db e => db.setAccount sha e.1 e.2) db)
      (entries.foldl funded plain) st' slots' := by
  induction entries generalizing db plain st slots with
  | nil => exact ⟨st,slots,stands⟩
  | cons e entries ih =>
    obtain ⟨own,others⟩ := List.forall_mem_cons.mp carried
    obtain ⟨known,rest⟩ := List.forall_mem_cons.mp named
    have first := setAccountExtends stands.represents.levels.addressed e.1 e.2
    have free := trusts.nodes.mono (accountsExtend entries first.addressed).grows
    obtain ⟨st',slots',after,kept⟩ := stands.setAccount apart known own free
    exact ih rest (fun e member => kept e.1 (rest e member) e.2 (others e member)) after trusts

theorem fundedReads {entries : List (Sigma fun _ : Address => Account)} (once : entries.NodupKeys) (b : Address) :
    (entries.foldl funded plain).accounts b = {plain.accounts b with
      balance := ((entries.dlookup b).map (·.balance)).getD (plain.accounts b).balance
      nonce := ((entries.dlookup b).map (·.nonce)).getD (plain.accounts b).nonce} := by
  induction entries generalizing plain with
  | nil => rfl
  | cons e entries ih =>
    obtain ⟨a,acct⟩ := e
    obtain ⟨fresh,once⟩ := List.nodupKeys_cons.mp once
    rw [List.foldl_cons,ih once]
    by_cases same : b = a
    · subst same
      rw [List.dlookup_cons_eq,List.dlookup_eq_none.mpr fresh]
      simp [funded,MptState.put]
    · rw [List.dlookup_cons_ne _ _ same]
      simp only [funded,MptState.put,if_neg same]

theorem codesFlushed {entries : List (Sigma fun _ : Address => Bytes)} (apart : NamesApart sha names keys)
    (named : ∀ e ∈ entries, e.1 ∈ names) (known : ∀ e ∈ entries, e.2 ≠ [] → e.2 ∈ codes)
    (stands : Stands sha codes names keys db plain st slots)
    (trusts : Trusts sha codes (entries.foldl (fun db e => db.setCode sha e.1 e.2) db).nodes) :
    ∃ st' slots', Stands sha codes names keys (entries.foldl (fun db e => db.setCode sha e.1 e.2) db)
      (entries.foldl (fun st e => setCode st e.1 e.2) plain) st' slots' := by
  induction entries generalizing db plain st slots with
  | nil => exact ⟨st,slots,stands⟩
  | cons e entries ih =>
    obtain ⟨own,others⟩ := List.forall_mem_cons.mp known
    obtain ⟨address,rest⟩ := List.forall_mem_cons.mp named
    have first := setCodeExtends stands.represents.levels.addressed e.1 e.2
    have later := codesExtend entries first.addressed
    obtain ⟨st',slots',after,-⟩ := stands.setCode apart address own (trusts.earlier later.grows)
    exact ih rest others after trusts

theorem wordsFlushed {entries : List (Sigma fun _ : Address × Hash => Hash)} (apart : NamesApart sha names keys)
    (named : ∀ e ∈ entries, e.1.1 ∈ names) (slot : ∀ e ∈ entries, e.1.2 ∈ keys)
    (stands : Stands sha codes names keys db plain st slots)
    (trusts : Trusts sha codes (entries.foldl (fun db e => db.setStorage sha e.1.1 e.1.2 e.2) db).nodes) :
    ∃ st' slots', Stands sha codes names keys (entries.foldl (fun db e => db.setStorage sha e.1.1 e.1.2 e.2) db)
      (entries.foldl (fun st e => setStorage st e.1.1 e.1.2 e.2) plain) st' slots' := by
  induction entries generalizing db plain st slots with
  | nil => exact ⟨st,slots,stands⟩
  | cons e entries ih =>
    obtain ⟨address,rest⟩ := List.forall_mem_cons.mp named
    obtain ⟨own,others⟩ := List.forall_mem_cons.mp slot
    have first := setStorageExtends stands.represents.levels.addressed e.1.1 e.1.2 e.2
    have later := wordsExtend entries first.addressed
    obtain ⟨st',slots',after,-⟩ := stands.setStorage apart address own e.2 (trusts.earlier later.grows)
    exact ih rest others after trusts

theorem installsKnown {s : Scope} {e : Sigma fun _ : Address => Bytes} (member : e ∈ s.code.entries) (some : e.2 ≠ []) :
    e.2 ∈ s.installs :=
  List.mem_flatMap.mpr ⟨e,member,by simp [Mpt.installs,some]⟩

theorem flushStands {base : MptDB} {n : Nest MptDB} (sound : n.Sound (MptDB.backend sha) base) (order : n.root.Iteration)
    (apart : NamesApart sha names keys) (named : ∀ b ∈ n.root.addresses, b ∈ names) (slot : ∀ k ∈ n.root.slots, k ∈ keys)
    (represents : Represents sha codes base st slots) (known : ∀ c ∈ n.root.installs, c ∈ codes)
    (trusts : Trusts sha codes (n.flush (MptDB.backend sha) order).nodes) :
    ∃ plain st' slots', Stands sha codes names keys (n.flush (MptDB.backend sha) order) plain st' slots' ∧
      ∀ b, plain.accounts b = ⟨((n.root.acct.lookup b).map (·.balance)).getD (st.accounts b).balance,
        ((n.root.acct.lookup b).map (·.nonce)).getD (st.accounts b).nonce,
        (n.root.code.lookup b).getD (st.accounts b).code,
        fun k => (n.root.storage.lookup (b,k)).getD ((st.accounts b).storage k)⟩ := by
  obtain ⟨accts,codes',words,everyAcct,everyCode,everyWord⟩ := order
  obtain ⟨s,rest,scopes,-⟩ := sound.root
  unfold Nest.flush at trusts ⊢
  dsimp only [MptDB.backend] at trusts ⊢
  rw [sound.frozen] at trusts ⊢
  -- The stores grow from loop to loop, so what is trusted at the end was trusted before.
  have first := accountsExtend accts represents.levels.addressed
  have second := codesExtend codes' first.addressed
  have third := wordsExtend words second.addressed
  have free := trusts.nodes.mono ((first.trans second).trans third).grows
  have carried : ∀ e ∈ accts, Current sha st slots e.1 e.2 := by
    intro e member
    have found := AList.mem_lookup_iff.mpr (everyAcct.mem_iff.mp member)
    have top : n.root ∈ n.scopes := by
      rw [Nest.root,scopes]
      exact List.mem_cons_self
    have same := sound.buffered _ top e.1 e.2 found
    rw [Carries,MptDB.backend] at same
    dsimp only at same
    rwa [represents.levels.getAccount free] at same
  have address : ∀ e ∈ accts, e.1 ∈ names := fun e member =>
    named _ (List.mem_append_left _ (List.mem_map_of_mem (everyAcct.mem_iff.mp member)))
  have address' : ∀ e ∈ codes', e.1 ∈ names := fun e member =>
    named _ (List.mem_append_right _ (List.mem_append_left _ (List.mem_map_of_mem (everyCode.mem_iff.mp member))))
  have place : ∀ e ∈ words, e.1 ∈ n.root.storage.keys := fun e member => List.mem_map_of_mem (everyWord.mem_iff.mp member)
  have onceAcct := (List.perm_nodupKeys everyAcct).mpr n.root.acct.nodupKeys
  have onceCode := (List.perm_nodupKeys everyCode).mpr n.root.code.nodupKeys
  have onceWord := (List.perm_nodupKeys everyWord).mpr n.root.storage.nodupKeys
  have start : Stands sha codes names keys base st st slots :=
    ⟨represents,fun b _ => ⟨rfl,rfl,rfl,fun _ _ => rfl⟩⟩
  obtain ⟨_,_,afterAccts⟩ := accountsFlushed apart address carried start (trusts.earlier (second.trans third).grows)
  obtain ⟨_,_,afterCodes⟩ := codesFlushed apart address'
    (fun e member some => known _ (installsKnown (everyCode.mem_iff.mp member) some)) afterAccts (trusts.earlier third.grows)
  obtain ⟨st',slots',afterWords⟩ := wordsFlushed apart
    (fun e member => named _ (List.mem_append_right _ (List.mem_append_right _ (List.mem_map_of_mem (place e member)))))
    (fun e member => slot _ (List.mem_map_of_mem (place e member))) afterCodes trusts
  refine ⟨_,st',slots',afterWords,fun b => ?_⟩
  rw [StackVM.flushStorage onceWord,StackVM.flushCode onceCode,fundedReads onceAcct]
  simp only [List.perm_dlookup b onceAcct everyAcct,List.perm_dlookup b onceCode everyCode,
    fun k => List.perm_dlookup (b,k) onceWord everyWord]
  rfl

theorem flushExtends {n : Nest MptDB} (order : n.root.Iteration) (addressed : Addressed sha n.base.nodes) :
    Extends sha n.base.nodes (n.flush (MptDB.backend sha) order).nodes := by
  have first := accountsExtend order.accts addressed
  have second := codesExtend order.codes first.addressed
  exact (first.trans second).trans (wordsExtend order.words second.addressed)

theorem getDMap {α β : Type} (o : Option α) (d : α) (f : α → β) : (o.map f).getD (f d) = f (o.getD d) := by
  cases o with
  | none => rfl
  | some x => rfl

/- After the root's commit the base returns what the root scope returned, whatever was
done in the nest and in whatever order the commit ran over the maps. -/
theorem commitRealises {base : MptDB} {held : List Account} (grown : Grown sha base held codes) (ops : List Op)
    (order : ((Nest.newScope base).run (MptDB.backend sha) ops).root.Iteration)
    (trusts : Trusts sha (codes ++ ((Nest.newScope base).run (MptDB.backend sha) ops).root.installs)
      (((Nest.newScope base).run (MptDB.backend sha) ops).flush (MptDB.backend sha) order).nodes) (a : Address) (k : Hash)
    (apart : NamesApart sha (a::((Nest.newScope base).run (MptDB.backend sha) ops).root.addresses)
      (k::((Nest.newScope base).run (MptDB.backend sha) ops).root.slots)) :
    let nest := (Nest.newScope base).run (MptDB.backend sha) ops
    let after := nest.flush (MptDB.backend sha) order
    (after.getAccount sha a).balance = (nest.getAccount (MptDB.backend sha) 0 a).balance ∧
      (after.getAccount sha a).nonce = (nest.getAccount (MptDB.backend sha) 0 a).nonce ∧
      after.getCode sha a = nest.getCode (MptDB.backend sha) 0 a ∧
      after.getStorage sha a k = nest.getStorage (MptDB.backend sha) 0 a k := by
  intro nest after
  have sound : nest.Sound (MptDB.backend sha) base := runSound newScopeSound ops
  have grows : Extends sha nest.base.nodes after.nodes := flushExtends order (by rw [sound.frozen]; exact grownAddressed grown)
  rw [sound.frozen] at grows
  have trusted := trusts.earlier grows.grows
  obtain ⟨⟨st,slots,represents⟩,-⟩ := grownRepresents grown (fun c member => List.mem_append_left _ member) trusted
  obtain ⟨plain,st',slots',realised,reads⟩ := flushStands sound order apart (fun b member => List.mem_cons_of_mem _ member)
    (fun k member => List.mem_cons_of_mem _ member) represents (fun c member => List.mem_append_right _ member) trusts
  obtain ⟨account,code,word⟩ := rootReads sound a k
  obtain ⟨balance,nonce,code',words⟩ := realised.answers trusts List.mem_cons_self
  have before := represents.levels.getAccount trusted.nodes a
  rw [account,code,word,balance,nonce,code',words k List.mem_cons_self,reads]
  refine ⟨?_,?_,?_,?_⟩
  · exact (getDMap _ (leaf sha (st.accounts a) (slots a)) (·.balance)).trans (by rw [← before]; rfl)
  · exact (getDMap _ (leaf sha (st.accounts a) (slots a)) (·.nonce)).trans (by rw [← before]; rfl)
  · exact congrArg ((nest.root.code.lookup a).getD ·) (represents.levels.getCode represents.coded trusted a).symm
  · exact congrArg ((nest.root.storage.lookup (a,k)).getD ·) (represents.levels.getStorage trusted.nodes a k).symm

end

/- A base with an account that has code and a word, and a nest in which a child gives it
another word and other code and is committed, while a grandchild is left alone; the child
also writes a second account. -/
def contract : MptDB := new.setCode horner 1 [1,2,3]

def market : MptDB :=
  (contract.setAccount horner 1 {contract.getAccount horner 1 with balance := 100, nonce := 1}).setStorage horner 1 5 7

theorem marketGrown : Grown horner market [contract.getAccount horner 1] (installs [1,2,3] ++ []) := by
  have first : Grown horner contract [] (installs [1,2,3] ++ []) := .setCode .new 1 [1,2,3]
  exact ((first.getAccount 1).update List.mem_cons_self 1 100 1).setStorage 1 5 7

def trade : List Op :=
  [.getAccount 0 1,.child 0,.setStorage 1 1 5 9,.setAccount 1 0 80 2,.setCode 1 1 [4],.setStorage 1 2 6 8,.child 1,.setCode 2 1 [9,9],
    .discard 2,.commit 1,.getAccount 0 1,.setAccount 0 0 70 3]

def tradeOrder : ((Nest.newScope market).run (MptDB.backend horner) trade).root.Iteration :=
  ⟨_,_,_,.refl _,.refl _,.refl _⟩

theorem tradeTrusted : Trusts horner
    ((installs [1,2,3] ++ []) ++ ((Nest.newScope market).run (MptDB.backend horner) trade).root.installs)
    (((Nest.newScope market).run (MptDB.backend horner) trade).flush (MptDB.backend horner) tradeOrder).nodes :=
  ⟨by decide +kernel,by decide +kernel,by decide +kernel⟩

theorem tradeApart : NamesApart horner (1::((Nest.newScope market).run (MptDB.backend horner) trade).root.addresses)
    (5::((Nest.newScope market).run (MptDB.backend horner) trade).root.slots) := by
  have addresses : Apart horner Address.bytes [1,2] := apartOfNodup (by decide +kernel)
  have slots : Apart horner Hash.bytes [5,6] := apartOfNodup (by decide +kernel)
  exact ⟨addresses.part (by decide +kernel),slots.part (by decide +kernel)⟩

theorem tradeRealised :
    let after := ((Nest.newScope market).run (MptDB.backend horner) trade).flush (MptDB.backend horner) tradeOrder
    (after.getAccount horner 1).balance = 70 ∧ (after.getAccount horner 1).nonce = 3 ∧
      after.getCode horner 1 = [4] ∧ after.getStorage horner 1 5 = 9 := by
  obtain ⟨balance,nonce,code,word⟩ := commitRealises marketGrown trade tradeOrder tradeTrusted 1 5 tradeApart
  exact ⟨balance.trans (by decide +kernel),nonce.trans (by decide +kernel),code.trans (by decide +kernel),
    word.trans (by decide +kernel)⟩

end L1Chain.Mpt.Journal
