import L1Chain.MptSteps

/-! The bases the callers of package state can make. Whatever they do with the records
they read, the tries and the code behind a record stay in the stores, so that every
record of a base names a storage tree and code that it holds. Nothing is asked of the keys:
a write reaches every address with the hash of the one it names. -/
namespace L1Chain.Mpt
open Trie Patricia

structure Represents (sha : Bytes → Hash) (codes : List Bytes) (db : MptDB) (st : MptState)
    (slots : Address → Tree 16 Bytes) : Prop where
  levels : Levels sha db.nodes db.root st slots
  coded : Coded sha db.code st codes

def installs (code : Bytes) : List Bytes := if code = [] then [] else [code]

/- Calls on a base, from the empty one on. Records are read and kept as long as one likes;
the hashes of a record that is written are zero or were read before, at whatever address
and whether they are still current or not. `held` lists the records read and `codes` the
code that was set. -/
inductive Grown (sha : Bytes → Hash) : MptDB → List Account → List Bytes → Prop where
  | new : Grown sha new [] []
  | getAccount {db held codes} (grown : Grown sha db held codes) (a : Address) :
      Grown sha db (db.getAccount sha a::held) codes
  | setAccount {db held codes} (grown : Grown sha db held codes) (a : Address) (acct : Account)
      (code : acct.codeHash = 0 ∨ ∃ r ∈ held, acct.codeHash = r.codeHash)
      (root : acct.storageRoot = 0 ∨ ∃ r ∈ held, acct.storageRoot = r.storageRoot) :
      Grown sha (db.setAccount sha a acct) held codes
  | setCode {db held codes} (grown : Grown sha db held codes) (a : Address) (code : Bytes) :
      Grown sha (db.setCode sha a code) held (installs code ++ codes)
  | setStorage {db held codes} (grown : Grown sha db held codes) (a : Address) (key val : Hash) :
      Grown sha (db.setStorage sha a key val) held codes

structure Names (sha : Bytes → Hash) (codes : List Bytes) (db : MptDB) (acct : Account) (code : Bytes)
    (words : Hash → Hash) (t : Tree 16 Bytes) : Prop where
  hashed : acct.codeHash = codeHashOf sha code
  stored : code ≠ [] → code ∈ codes ∧ db.code.lookup (sha code) = some code
  root : acct.storageRoot = digest sha t
  holds : Holds sha db.nodes Hash.bytes t (fun k => wordOf (words k))

def MptDB.learn (sha : Bytes → Hash) (db : MptDB) (code : Bytes) : MptDB :=
  {db with code := if code = [] ∨ (db.code.lookup (sha code)).isSome then db.code else db.code.insert (sha code) code}

section
variable {sha : Bytes → Hash} {codes : List Bytes} {db db' : MptDB} {st : MptState} {slots : Address → Tree 16 Bytes}
  {a : Address} {acct : Account} {code : Bytes} {words : Hash → Hash} {t : Tree 16 Bytes} {held : List Account}

theorem Trusts.earlier {nodes nodes' : Nodes} (trusts : Trusts sha codes nodes') (grows : nodes ⊆ nodes') :
    Trusts sha codes nodes := {trusts with nodes := trusts.nodes.mono grows}

theorem setAccountExtends (addressed : Addressed sha db.nodes) (a : Address) (acct : Account) :
    Extends sha db.nodes (db.setAccount sha a acct).nodes := by
  rw [setAccountWrites]
  exact writeExtends addressed _ _ _

theorem setCodeWrites (db : MptDB) (a : Address) (code : Bytes) :
    db.setCode sha a code =
      MptDB.setAccount sha (db.learn sha code) a {db.getAccount sha a with codeHash := codeHashOf sha code} := by
  unfold MptDB.setCode codeHashOf MptDB.learn
  dsimp only
  by_cases none : code = []
  · rw [if_pos none,if_pos none,if_pos (.inl none)]
  · rw [if_neg none,if_neg none]
    by_cases found : (db.code.lookup (sha code)).isSome = true
    · rw [if_pos found,if_pos (.inr found)]
    · rw [if_neg found,if_neg (not_or.mpr ⟨none,found⟩)]

theorem setCodeExtends (addressed : Addressed sha db.nodes) (a : Address) (code : Bytes) :
    Extends sha db.nodes (db.setCode sha a code).nodes := by
  rw [setCodeWrites]
  exact @setAccountExtends sha (db.learn sha code) addressed _ _

theorem setStorageWrites (db : MptDB) (a : Address) (key val : Hash) :
    db.setStorage sha a key val =
      let acct := db.getAccount sha a
      let r := trieWrite sha db.nodes acct.storageRoot (Hash.bytes key) (wordOf val)
      MptDB.setAccount sha {db with nodes := r.2} a {acct with storageRoot := r.1} := by
  unfold MptDB.setStorage wordOf
  dsimp only
  split
  · rfl
  · rfl

theorem setStorageExtends (addressed : Addressed sha db.nodes) (a : Address) (key val : Hash) :
    Extends sha db.nodes (db.setStorage sha a key val).nodes := by
  rw [setStorageWrites]
  have first := writeExtends addressed (db.getAccount sha a).storageRoot (Hash.bytes key) (wordOf val)
  exact first.trans (@setAccountExtends sha {db with nodes := _} first.addressed _ _)

theorem newRepresents : Represents sha codes new .empty (fun _ => .empty) := by
  refine ⟨⟨fun x member => (nomatch member),fun a => holdsNothing,.empty,rfl,holdsNothing⟩,?_,?_⟩
  · intro a some
    exact absurd rfl some
  · intro h c found
    cases found

theorem Represents.reads (represents : Represents sha codes db st slots) (free : Collisionless sha db.nodes) (a : Address) :
    Names sha codes db (db.getAccount sha a) (st.accounts a).code (st.accounts a).storage (slots a) := by
  rw [represents.levels.getAccount free]
  exact ⟨rfl,represents.coded.installed a,rfl,represents.levels.words a⟩

theorem Names.later (names : Names sha codes db acct code words t) (grows : db.nodes ⊆ db'.nodes)
    (kept : ∀ h c, db.code.lookup h = some c → db'.code.lookup h = some c) : Names sha codes db' acct code words t :=
  ⟨names.hashed,fun some => ⟨(names.stored some).1,kept _ _ (names.stored some).2⟩,names.root,names.holds.mono grows⟩

theorem namesMixed (names : ∀ r ∈ held, ∃ code words t, Names sha codes db r code words t)
    (code : acct.codeHash = 0 ∨ ∃ r ∈ held, acct.codeHash = r.codeHash)
    (root : acct.storageRoot = 0 ∨ ∃ r ∈ held, acct.storageRoot = r.storageRoot) :
    ∃ code words t, Names sha codes db acct code words t := by
  have hashed : ∃ c, acct.codeHash = codeHashOf sha c ∧ (c ≠ [] → c ∈ codes ∧ db.code.lookup (sha c) = some c) := by
    rcases code with zero | ⟨r,member,same⟩
    · exact ⟨[],zero,fun some => absurd rfl some⟩
    · obtain ⟨c,_,_,named⟩ := names r member
      exact ⟨c,same.trans named.hashed,named.stored⟩
  have rooted : ∃ (words : Hash → Hash) (t : Tree 16 Bytes), acct.storageRoot = digest sha t ∧
      Holds sha db.nodes Hash.bytes t (fun k => wordOf (words k)) := by
    rcases root with zero | ⟨r,member,same⟩
    · exact ⟨fun _ => 0,.empty,zero,holdsNothing⟩
    · obtain ⟨_,words,t,named⟩ := names r member
      exact ⟨words,t,same.trans named.root,named.holds⟩
  obtain ⟨c,hash,stored⟩ := hashed
  obtain ⟨words,t,digest,holds⟩ := rooted
  exact ⟨c,words,t,hash,stored,digest,holds⟩

theorem Represents.setAccount (represents : Represents sha codes db st slots) (names : Names sha codes db acct code words t)
    (free : Collisionless sha (db.setAccount sha a acct).nodes) :
    Represents sha codes (db.setAccount sha a acct)
      ⟨writeUnder sha Address.bytes a ⟨acct.balance,acct.nonce,code,words⟩ st.accounts⟩
      (writeUnder sha Address.bytes a t slots) := by
  have own : ∀ {X : Type} (x : X) (f : Address → X) b, sha (Address.bytes b) = sha (Address.bytes a) →
      writeUnder sha Address.bytes a x f b = x := fun x f b same => if_pos same
  have others : ∀ {X : Type} (x : X) (f : Address → X) b, sha (Address.bytes b) ≠ sha (Address.bytes a) →
      writeUnder sha Address.bytes a x f b = f b := fun x f b other => if_neg other
  constructor
  · refine setLevels db represents.levels.addressed represents.levels.world (fun b => ?_)
      (fun b other => ⟨others _ _ b other,others _ _ b other⟩) (fun b same => ?_) free
    · by_cases same : sha (Address.bytes b) = sha (Address.bytes a)
      · simp only [own _ _ b same]
        exact names.holds
      · simp only [others _ _ b same]
        exact represents.levels.words b
    · simp only [own _ _ b same,leaf]
      rw [← names.hashed,← names.root]
  · rw [setAccountWrites]
    refine ⟨fun b some => ?_,represents.coded.content⟩
    by_cases same : sha (Address.bytes b) = sha (Address.bytes a)
    · dsimp only at some ⊢
      rw [own _ _ b same] at some ⊢
      exact names.stored some
    · dsimp only at some ⊢
      rw [others _ _ b same] at some ⊢
      exact represents.coded.installed b some

theorem learnKeeps {h : Hash} {c : Bytes} (found : db.code.lookup h = some c) :
    (db.learn sha code).code.lookup h = some c := by
  unfold MptDB.learn
  dsimp only
  split
  · exact found
  · rename_i absent
    by_cases same : h = sha code
    · subst same
      exact absurd (.inr (by rw [found]; rfl)) absent
    · rw [AList.lookup_insert_ne same]
      exact found

theorem learnFound (coded : Coded sha db.code st codes) (apart : ∀ c ∈ codes, ∀ d ∈ codes, sha c = sha d → c = d)
    (known : code ∈ codes) (live : code ≠ []) : (db.learn sha code).code.lookup (sha code) = some code := by
  unfold MptDB.learn
  dsimp only
  split
  · rename_i there
    obtain ⟨c,found⟩ := Option.isSome_iff_exists.mp (there.resolve_left live)
    obtain ⟨hashed,member⟩ := coded.content _ c found
    rw [found,apart code known c member hashed]
  · exact AList.lookup_insert _

theorem learnContent (coded : Coded sha db.code st codes) (known : code ≠ [] → code ∈ codes) {h : Hash} {c : Bytes}
    (found : (db.learn sha code).code.lookup h = some c) : h = sha c ∧ c ∈ codes := by
  unfold MptDB.learn at found
  dsimp only at found
  split at found
  · exact coded.content h c found
  · rename_i absent
    by_cases same : h = sha code
    · subst same
      rw [AList.lookup_insert] at found
      cases Option.some.inj found
      exact ⟨rfl,known (not_or.mp absent).1⟩
    · rw [AList.lookup_insert_ne same] at found
      exact coded.content h c found

theorem Represents.learn (represents : Represents sha codes db st slots) (known : code ≠ [] → code ∈ codes) :
    Represents sha codes (db.learn sha code) st slots := by
  refine ⟨represents.levels,fun b some => ?_,fun h c => learnContent represents.coded known⟩
  obtain ⟨member,found⟩ := represents.coded.installed b some
  exact ⟨member,learnKeeps found⟩

theorem Represents.setCode (represents : Represents sha codes db st slots) (known : code ≠ [] → code ∈ codes)
    (trusts : Trusts sha codes (db.setCode sha a code).nodes) :
    Represents sha codes (db.setCode sha a code)
      ⟨writeUnder sha Address.bytes a {st.accounts a with code := code} st.accounts⟩
      (writeUnder sha Address.bytes a (slots a) slots) := by
  have before := trusts.nodes.mono (setCodeExtends represents.levels.addressed a code).grows
  have free := trusts.nodes
  rw [setCodeWrites,represents.levels.getAccount before] at free ⊢
  have names : Names sha codes (db.learn sha code)
      {leaf sha (st.accounts a) (slots a) with codeHash := codeHashOf sha code} code (st.accounts a).storage (slots a) :=
    ⟨rfl,fun live => ⟨known live,learnFound represents.coded trusts.codeApart (known live) live⟩,rfl,
      represents.levels.words a⟩
  exact (represents.learn known).setAccount names free

theorem Represents.setStorage (represents : Represents sha codes db st slots) (key val : Hash)
    (trusts : Trusts sha codes (db.setStorage sha a key val).nodes) :
    ∃ t, Represents sha codes (db.setStorage sha a key val)
      ⟨writeUnder sha Address.bytes a
        {st.accounts a with storage := writeUnder sha Hash.bytes key val (st.accounts a).storage} st.accounts⟩
      (writeUnder sha Address.bytes a t slots) := by
  have free := trusts.nodes
  have before := free.mono (setStorageExtends represents.levels.addressed a key val).grows
  rw [setStorageWrites] at free ⊢
  rw [represents.levels.getAccount before] at free ⊢
  have first := writeExtends represents.levels.addressed (digest sha (slots a)) (Hash.bytes key) (wordOf val)
  have mid := free.mono (@setAccountExtends sha {db with nodes := _} first.addressed _ _).grows
  obtain ⟨t,root,after⟩ := (represents.levels.words a).write ⟨before,represents.levels.addressed⟩ key (wordShort val) mid
  have map : writeUnder sha Hash.bytes key (wordOf val) (fun k => wordOf ((st.accounts a).storage k)) =
      fun k => wordOf (writeUnder sha Hash.bytes key val (st.accounts a).storage k) := by
    funext k
    unfold writeUnder
    split
    · rfl
    · rfl
  rw [map] at after
  obtain ⟨w,at',holds⟩ := represents.levels.world
  have grown : Represents sha codes {db with
      nodes := (trieWrite sha db.nodes (digest sha (slots a)) (Hash.bytes key) (wordOf val)).2} st slots :=
    ⟨⟨first.addressed,fun b => (represents.levels.words b).mono first.grows,w,at',holds.mono first.grows⟩,
      represents.coded⟩
  exact ⟨t,grown.setAccount ⟨rfl,represents.coded.installed a,root,after⟩ free⟩

theorem setAccountCode : (db.setAccount sha a acct).code = db.code := by
  rw [setAccountWrites]

theorem setStorageCode (key val : Hash) : (db.setStorage sha a key val).code = db.code := by
  rw [setStorageWrites]
  exact setAccountCode

theorem setCodeKeeps {h : Hash} {c : Bytes} (found : db.code.lookup h = some c) :
    (db.setCode sha a code).code.lookup h = some c := by
  rw [setCodeWrites,setAccountCode]
  exact learnKeeps found

theorem grownAddressed (grown : Grown sha db held codes) : Addressed sha db.nodes := by
  induction grown with
  | new => exact (newRepresents : Represents sha [] _ _ _).levels.addressed
  | getAccount grown a ih => exact ih
  | setAccount grown a acct code root ih => exact (setAccountExtends ih _ _).addressed
  | setCode grown a code ih => exact (setCodeExtends ih _ _).addressed
  | setStorage grown a key val ih => exact (setStorageExtends ih _ _ _).addressed

theorem Grown.update (grown : Grown sha db held codes) {r : Account} (member : r ∈ held) (a : Address)
    (balance nonce : UInt64) : Grown sha (db.setAccount sha a {r with balance := balance, nonce := nonce}) held codes :=
  grown.setAccount a _ (.inr ⟨r,member,rfl⟩) (.inr ⟨r,member,rfl⟩)

/- The invariant of a growing base: it represents a state, and every record that was
read of it still names code and words that it holds. -/
theorem grownRepresents {all : List Bytes} (grown : Grown sha db held codes) (known : ∀ c ∈ codes, c ∈ all)
    (trusts : Trusts sha all db.nodes) :
    (∃ st slots, Represents sha all db st slots) ∧ ∀ r ∈ held, ∃ code words t, Names sha all db r code words t := by
  induction grown with
  | new => exact ⟨⟨_,_,newRepresents⟩,fun r member => nomatch member⟩
  | getAccount grown a ih =>
    obtain ⟨⟨st,slots,represents⟩,names⟩ := ih known trusts
    refine ⟨⟨st,slots,represents⟩,List.forall_mem_cons.mpr ⟨?_,names⟩⟩
    exact ⟨_,_,_,represents.reads trusts.nodes a⟩
  | setAccount grown a acct code root ih =>
    have grows := (setAccountExtends (grownAddressed grown) a acct).grows
    obtain ⟨⟨st,slots,represents⟩,names⟩ := ih known (trusts.earlier grows)
    obtain ⟨c,words,t,own⟩ := namesMixed names code root
    refine ⟨⟨_,_,represents.setAccount own trusts.nodes⟩,fun r member => ?_⟩
    obtain ⟨c,words,t,older⟩ := names r member
    exact ⟨c,words,t,older.later grows (fun h c found => by rwa [setAccountCode])⟩
  | setCode grown a code ih =>
    have grows := (setCodeExtends (grownAddressed grown) a code).grows
    obtain ⟨⟨st,slots,represents⟩,names⟩ := ih (fun c member => known c (List.mem_append_right _ member))
      (trusts.earlier grows)
    have installed : code ≠ [] → code ∈ all := fun some => known code (by simp [installs,some])
    refine ⟨⟨_,_,represents.setCode installed trusts⟩,fun r member => ?_⟩
    obtain ⟨c,words,t,older⟩ := names r member
    exact ⟨c,words,t,older.later grows (fun h c found => setCodeKeeps found)⟩
  | setStorage grown a key val ih =>
    have grows := (setStorageExtends (grownAddressed grown) a key val).grows
    obtain ⟨⟨st,slots,represents⟩,names⟩ := ih known (trusts.earlier grows)
    obtain ⟨t,after⟩ := represents.setStorage key val trusts
    refine ⟨⟨_,_,after⟩,fun r member => ?_⟩
    obtain ⟨c,words,t,older⟩ := names r member
    exact ⟨c,words,t,older.later grows (fun h c found => by rwa [setStorageCode])⟩

end

/- Two accounts with the same balance, nonce and code, and the same words under some keys. -/
structure Alike (keys : List Hash) (x y : L1Chain.Account) : Prop where
  balance : x.balance = y.balance
  nonce : x.nonce = y.nonce
  code : x.code = y.code
  words : ∀ k ∈ keys, x.storage k = y.storage k

/- A base that stands for `plain` at some addresses and under some keys: those a caller names. -/
structure Stands (sha : Bytes → Hash) (codes : List Bytes) (names : List Address) (keys : List Hash) (db : MptDB)
    (plain st : MptState) (slots : Address → Tree 16 Bytes) : Prop where
  represents : Represents sha codes db st slots
  alike : ∀ a ∈ names, Alike keys (st.accounts a) (plain.accounts a)

structure NamesApart (sha : Bytes → Hash) (names : List Address) (keys : List Hash) : Prop where
  addresses : Apart sha Address.bytes names
  words : Apart sha Hash.bytes keys

/- A record whose hashes are those of the account it was read from. -/
def Current (sha : Bytes → Hash) (st : MptState) (slots : Address → Tree 16 Bytes) (a : Address) (acct : Account) : Prop :=
  acct.codeHash = codeHashOf sha (st.accounts a).code ∧ acct.storageRoot = digest sha (slots a)

section
variable {sha : Bytes → Hash} {codes : List Bytes} {names : List Address} {keys : List Hash} {db : MptDB}
  {plain st : MptState} {slots : Address → Tree 16 Bytes} {a : Address} {acct : Account} {code : Bytes} {key : Hash}

theorem Stands.answers (stands : Stands sha codes names keys db plain st slots) (trusts : Trusts sha codes db.nodes)
    (known : a ∈ names) : (db.getAccount sha a).balance = (plain.accounts a).balance ∧
      (db.getAccount sha a).nonce = (plain.accounts a).nonce ∧ db.getCode sha a = (plain.accounts a).code ∧
      ∀ k ∈ keys, db.getStorage sha a k = (plain.accounts a).storage k := by
  have levels := stands.represents.levels
  have alike := stands.alike a known
  rw [levels.getAccount trusts.nodes,levels.getCode stands.represents.coded trusts]
  refine ⟨alike.balance,alike.nonce,alike.code,fun k member => ?_⟩
  rw [levels.getStorage trusts.nodes]
  exact alike.words k member

theorem Stands.setAccount (stands : Stands sha codes names keys db plain st slots) (apart : NamesApart sha names keys)
    (known : a ∈ names) (current : Current sha st slots a acct)
    (free : Collisionless sha (db.setAccount sha a acct).nodes) :
    ∃ st' slots', Stands sha codes names keys (db.setAccount sha a acct)
        (plain.put a {plain.accounts a with balance := acct.balance, nonce := acct.nonce}) st' slots' ∧
      ∀ b ∈ names, ∀ r, Current sha st slots b r → Current sha st' slots' b r := by
  have named : Names sha codes db acct (st.accounts a).code (st.accounts a).storage (slots a) :=
    ⟨current.1,stands.represents.coded.installed a,current.2,stands.represents.levels.words a⟩
  refine ⟨_,_,⟨stands.represents.setAccount named free,fun b member => ?_⟩,fun b member r older => ?_⟩
  · dsimp only [MptState.put]
    rw [writeUnderApart apart.addresses known member]
    split
    · have alike := stands.alike a known
      exact ⟨rfl,rfl,alike.code,alike.words⟩
    · exact stands.alike b member
  · unfold Current
    dsimp only
    rw [writeUnderApart apart.addresses known member,writeUnderApart apart.addresses known member]
    split
    · rename_i same
      rw [same] at older
      exact older
    · exact older

theorem Stands.setCode (stands : Stands sha codes names keys db plain st slots) (apart : NamesApart sha names keys)
    (known : a ∈ names) (install : code ≠ [] → code ∈ codes) (trusts : Trusts sha codes (db.setCode sha a code).nodes) :
    ∃ st' slots', Stands sha codes names keys (db.setCode sha a code) (setCode plain a code) st' slots' ∧
      ∀ b ∈ names, b ≠ a → ∀ r, Current sha st slots b r → Current sha st' slots' b r := by
  refine ⟨_,_,⟨stands.represents.setCode install trusts,fun b member => ?_⟩,fun b member other r older => ?_⟩
  · dsimp only
    rw [writeUnderApart apart.addresses known member,MptState.setCodeAt]
    split
    · have alike := stands.alike a known
      exact ⟨alike.balance,alike.nonce,rfl,alike.words⟩
    · exact stands.alike b member
  · unfold Current
    dsimp only
    rw [writeUnderApart apart.addresses known member,writeUnderApart apart.addresses known member,if_neg other,if_neg other]
    exact older

theorem Stands.setStorage (stands : Stands sha codes names keys db plain st slots) (apart : NamesApart sha names keys)
    (known : a ∈ names) (slot : key ∈ keys) (val : Hash) (trusts : Trusts sha codes (db.setStorage sha a key val).nodes) :
    ∃ st' slots', Stands sha codes names keys (db.setStorage sha a key val) (setStorage plain a key val) st' slots' ∧
      ∀ b ∈ names, b ≠ a → ∀ r, Current sha st slots b r → Current sha st' slots' b r := by
  obtain ⟨t,after⟩ := stands.represents.setStorage key val trusts
  refine ⟨_,_,⟨after,fun b member => ?_⟩,fun b member other r older => ?_⟩
  · dsimp only
    rw [writeUnderApart apart.addresses known member,MptState.setStorageAt]
    split
    · have alike := stands.alike a known
      refine ⟨alike.balance,alike.nonce,alike.code,fun k there => ?_⟩
      dsimp only
      rw [writeUnderApart apart.words slot there,alike.words k there]
    · exact stands.alike b member
  · unfold Current
    dsimp only
    rw [writeUnderApart apart.addresses known member,writeUnderApart apart.addresses known member,if_neg other,if_neg other]
    exact older

end
end L1Chain.Mpt
