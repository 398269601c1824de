import L1Chain.Mpt

/-! The MPT-backed StateDB represents a state of accounts. Each account's words are in a
storage tree of its own and the accounts themselves in the world tree, all of them in
normal form and in one node store; code is found under its hash. -/
namespace L1Chain.Mpt
open Trie Patricia

structure Holds {K : Type} (sha : Bytes → Hash) (nodes : Nodes) (key : K → Bytes) (t : Tree 16 Bytes)
    (m : K → Option Bytes) : Prop where
  stored : Stored sha nodes t
  inside : t.Within Short pathLength
  normal : t.Normal
  reads : ∀ k, t.lookup (path sha (key k)) = m k
  only : ∀ p, t.lookup p ≠ none → ∃ k, p = path sha (key k)

/- Keys of one hash are one key of a trie: what is written under one is read under the other. -/
def writeUnder {K X : Type} (sha : Bytes → Hash) (key : K → Bytes) (k : K) (x : X) (f : K → X) (l : K) : X :=
  if sha (key l) = sha (key k) then x else f l

def Apart {K : Type} (sha : Bytes → Hash) (key : K → Bytes) (ks : List K) : Prop :=
  ∀ k ∈ ks, ∀ l ∈ ks, sha (key k) = sha (key l) → k = l

section
variable {K : Type} {sha : Bytes → Hash} {nodes nodes' : Nodes} {key : K → Bytes} {t t' : Tree 16 Bytes}
  {m m' : K → Option Bytes}

theorem Holds.mono (holds : Holds sha nodes key t m) (grows : nodes ⊆ nodes') : Holds sha nodes' key t m :=
  {holds with stored := storedGrows grows holds.stored}

theorem holdsNothing : Holds sha nodes key .empty (fun _ => none) :=
  ⟨trivial,trivial,trivial,fun _ => rfl,fun _ found => absurd rfl found⟩

theorem Holds.unique (holds : Holds sha nodes key t m) (holds' : Holds sha nodes' key t' m) : t = t' := by
  refine Tree.normalUnique holds.normal holds'.normal (Tree.sameOn holds.only holds'.only ?_)
  rintro p ⟨k,same⟩
  rw [same,holds.reads,holds'.reads]

theorem Holds.get (holds : Holds sha nodes key t m) (readable : Readable sha nodes) (k : K) :
    MptDB.trieGet sha nodes (digest sha t) (key k) = m k := by
  have found := getTree readable holds.stored holds.inside le_rfl (by decide : pathLength < depth) (path sha (key k))
  rw [MptDB.trieGet,Get,found,holds.reads]
  rfl

def trieWrite (sha : Bytes → Hash) (nodes : Nodes) (root : Hash) (key : Bytes) : Option Bytes → Hash × Nodes
  | some value => MptDB.triePut sha nodes root key value
  | none => MptDB.trieDelete sha nodes root key

theorem writeExtends (addressed : Addressed sha nodes) (root : Hash) (k : Bytes) (value : Option Bytes) :
    Extends sha nodes (trieWrite sha nodes root k value).2 := by
  cases value with
  | some v =>
    rw [trieWrite,MptDB.triePut]
    cases ran : Put sha nodes root k v with
    | none => exact extendsRefl addressed
    | some r => exact putExtends addressed ran
  | none =>
    rw [trieWrite,MptDB.trieDelete]
    cases ran : Delete sha nodes root k with
    | none => exact extendsRefl addressed
    | some r => exact delExtends addressed ran

theorem writeApplied {r : Hash × Nodes} {root : Hash} {k : Bytes} {value : Option Bytes}
    (ran : (⟨0,k,value⟩ : Trie.Op).apply sha nodes root = some r) : trieWrite sha nodes root k value = r := by
  cases value with
  | some v => exact congrArg (Option.getD · _) ran
  | none => exact congrArg (Option.getD · _) ran

theorem apartOfNodup {ks : List K} (once : (ks.map (fun k => sha (key k))).Nodup) : Apart sha key ks :=
  fun _ known _ known' same => List.inj_on_of_nodup_map once known known' same

theorem Apart.part {ks ls : List K} (apart : Apart sha key ls) (sub : ks ⊆ ls) : Apart sha key ks :=
  fun k known l known' => apart k (sub known) l (sub known')

theorem writeUnderApart {X : Type} [DecidableEq K] {ks : List K} {k l : K} (apart : Apart sha key ks) (known : k ∈ ks)
    (known' : l ∈ ks) (x : X) (f : K → X) : writeUnder sha key k x f l = if l = k then x else f l := by
  unfold writeUnder
  split
  · rename_i same
    rw [if_pos (apart l known' k known same)]
  · rename_i other
    rw [if_neg (fun same => other (by rw [same]))]

theorem Holds.write (holds : Holds sha nodes key t m) (readable : Readable sha nodes) (k : K)
    {value : Option Bytes} (fits : ∀ v, value = some v → v.length < 2 ^ 32)
    (free : Collisionless sha (trieWrite sha nodes (digest sha t) (key k) value).2) :
    ∃ t', (trieWrite sha nodes (digest sha t) (key k) value).1 = digest sha t' ∧
      Holds sha (trieWrite sha nodes (digest sha t) (key k) value).2 key t' (writeUnder sha key k value m) := by
  obtain ⟨r,ran,updated⟩ := applyUpdated readable holds.stored holds.inside ⟨0,key k,value⟩
  rw [writeApplied ran] at free ⊢
  obtain ⟨root,stored⟩ := updated.tree free
  refine ⟨_,root,stored,treeWithin holds.inside fits,treeNormal holds.normal,fun l => ?_,fun p found => ?_⟩
  · rw [treeLookup,writeUnder,holds.reads]
    have keys : path sha (key l) = path sha (key k) ↔ sha (key l) = sha (key k) :=
      ⟨pathApart,fun same => by rw [path,path,same]⟩
    simp only [keys]
  · rw [treeLookup] at found
    split at found
    · rename_i same
      exact ⟨k,same⟩
    · exact holds.only p found

end

def codeHashOf (sha : Bytes → Hash) (code : Bytes) : Hash := if code = [] then 0 else sha code

def leaf (sha : Bytes → Hash) (acct : L1Chain.Account) (t : Tree 16 Bytes) : Account :=
  ⟨acct.balance,acct.nonce,codeHashOf sha acct.code,digest sha t⟩

def recordOf (acct : Account) : Option Bytes := if acct.isEmpty then none else some (encodeAccount acct)
def wordOf (val : Hash) : Option Bytes := if val = 0 then none else some (Hash.bytes val)

def worldMap (sha : Bytes → Hash) (st : MptState) (slots : Address → Tree 16 Bytes) (a : Address) : Option Bytes :=
  recordOf (leaf sha (st.accounts a) (slots a))

structure Levels (sha : Bytes → Hash) (nodes : Nodes) (root : Hash) (st : MptState) (slots : Address → Tree 16 Bytes) :
    Prop where
  addressed : Addressed sha nodes
  words : ∀ a, Holds sha nodes Hash.bytes (slots a) (fun k => wordOf ((st.accounts a).storage k))
  world : ∃ t, root = digest sha t ∧ Holds sha nodes Address.bytes t (worldMap sha st slots)

structure Coded (sha : Bytes → Hash) (code : AList (fun _ : Hash => Bytes)) (st : MptState) (codes : List Bytes) : Prop where
  installed : ∀ a, (st.accounts a).code ≠ [] →
    (st.accounts a).code ∈ codes ∧ code.lookup (sha (st.accounts a).code) = some (st.accounts a).code
  content : ∀ h c, code.lookup h = some c → h = sha c ∧ c ∈ codes

/- What is assumed of the hash: on the code that was set and on the encodings that were stored. -/
structure Trusts (sha : Bytes → Hash) (codes : List Bytes) (nodes : Nodes) : Prop where
  codeApart : ∀ c ∈ codes, ∀ d ∈ codes, sha c = sha d → c = d
  codeNonzero : ∀ c ∈ codes, sha c ≠ 0
  nodes : Collisionless sha nodes

section
variable {sha : Bytes → Hash} {nodes : Nodes} {root : Hash} {st st' : MptState} {slots slots' : Address → Tree 16 Bytes}
  {codes : List Bytes} {db : MptDB} {a b : Address} {acct : Account}

theorem encodeLength (acct : Account) : (encodeAccount acct).length = 80 := by
  simp [encodeAccount]

theorem decodeEncodeAccount (acct : Account) : decodeAccount (encodeAccount acct) = acct := by
  have size : ¬ (encodeAccount acct).length < accountEncLen := by
    rw [encodeLength]
    decide
  unfold decodeAccount
  rw [if_neg size]
  simp only [encodeAccount,List.append_assoc]
  have balance := be64Length acct.balance
  have nonce := be64Length acct.nonce
  have codeHash := hashBytesLength acct.codeHash
  rw [List.take_left' balance,List.drop_left' balance,List.take_left' nonce]
  rw [show (16 : ℕ) = 8 + 8 from rfl,← List.drop_drop,List.drop_left' balance,List.drop_left' nonce,
    List.take_left' codeHash,show (48 : ℕ) = 8 + (8 + 32) from rfl,← List.drop_drop,List.drop_left' balance,
    ← List.drop_drop,List.drop_left' nonce,List.drop_left' codeHash,
    List.take_of_length_le (Nat.le_of_eq (hashBytesLength acct.storageRoot))]
  simp

theorem encodeAccountInjective {acct' : Account} (same : encodeAccount acct = encodeAccount acct') : acct = acct' := by
  rw [← decodeEncodeAccount acct,same,decodeEncodeAccount]

theorem emptyZero : acct.isEmpty = true ↔ acct = .zero := by
  cases acct
  simp [Account.isEmpty,Account.zero]

theorem recordRead (acct : Account) :
    (match recordOf acct with | none => .zero | some val => decodeAccount val) = acct := by
  unfold recordOf
  split
  · rename_i none
    split at none
    · rename_i empty
      exact (emptyZero.mp empty).symm
    · cases none
  · rename_i val some
    split at some
    · cases some
    · cases Option.some.inj some
      exact decodeEncodeAccount acct

theorem recordInjective {acct' : Account} (same : recordOf acct = recordOf acct') : acct = acct' := by
  rw [← recordRead acct,same,recordRead]

theorem recordShort (acct : Account) : ∀ v, recordOf acct = some v → v.length < 2 ^ 32 := by
  intro v some
  unfold recordOf at some
  split at some
  · cases some
  · cases Option.some.inj some
    rw [encodeLength]
    decide

theorem wordShort (val : Hash) : ∀ v, wordOf val = some v → v.length < 2 ^ 32 := by
  intro v some
  unfold wordOf at some
  split at some
  · cases some
  · cases Option.some.inj some
    rw [hashBytesLength]
    decide

theorem wordRead (val : Hash) :
    (match wordOf val with | none => 0 | some bs => Hash.ofBytes (window bs 0 32)) = val := by
  unfold wordOf
  split
  · rename_i none
    split at none
    · rename_i zero
      exact zero.symm
    · cases none
  · rename_i bs some
    split at some
    · cases some
    · cases Option.some.inj some
      have whole : window (Hash.bytes val) 0 32 = Hash.bytes val := by
        simp [window,List.take_of_length_le (Nat.le_of_eq (hashBytesLength val))]
      rw [whole,ofBytesBytes]

theorem wordInjective {val val' : Hash} (same : wordOf val = wordOf val') : val = val' := by
  rw [← wordRead val,same,wordRead]

theorem Levels.getAccount (levels : Levels sha db.nodes db.root st slots) (free : Collisionless sha db.nodes)
    (a : Address) : db.getAccount sha a = leaf sha (st.accounts a) (slots a) := by
  obtain ⟨t,root,holds⟩ := levels.world
  unfold MptDB.getAccount
  rw [root,holds.get ⟨free,levels.addressed⟩ a]
  exact recordRead _

theorem Levels.wordless (levels : Levels sha nodes root st slots) (free : Collisionless sha nodes)
    (zero : digest sha (slots a) = 0) (key : Hash) : (st.accounts a).storage key = 0 := by
  have holds := levels.words a
  have read := holds.reads key
  rw [Tree.emptyOfIsEmpty ((digestZero free holds.stored).mp zero)] at read
  exact wordInjective (read.symm.trans (if_pos rfl : wordOf 0 = none).symm)

theorem Levels.getStorage (levels : Levels sha db.nodes db.root st slots) (free : Collisionless sha db.nodes)
    (a : Address) (key : Hash) : db.getStorage sha a key = (st.accounts a).storage key := by
  unfold MptDB.getStorage
  rw [levels.getAccount free]
  dsimp only [leaf]
  split
  · rename_i zero
    exact (levels.wordless free zero key).symm
  · rw [(levels.words a).get ⟨free,levels.addressed⟩ key]
    exact wordRead _

theorem codeHashZero (trusts : Trusts sha codes nodes) {code : Bytes} (known : code ≠ [] → code ∈ codes) :
    codeHashOf sha code = 0 ↔ code = [] := by
  unfold codeHashOf
  split
  · rename_i none
    exact ⟨fun _ => none,fun _ => rfl⟩
  · rename_i some
    exact ⟨fun zero => absurd zero (trusts.codeNonzero code (known some)),fun none => absurd none some⟩

theorem Levels.getCode (levels : Levels sha db.nodes db.root st slots) (coded : Coded sha db.code st codes)
    (trusts : Trusts sha codes db.nodes) (a : Address) : db.getCode sha a = (st.accounts a).code := by
  unfold MptDB.getCode
  rw [levels.getAccount trusts.nodes]
  dsimp only [leaf]
  split
  · rename_i zero
    exact ((codeHashZero trusts (fun some => (coded.installed a some).1)).mp zero).symm
  · rename_i live
    have some : (st.accounts a).code ≠ [] := by
      intro none
      exact live (by rw [none]; rfl)
    rw [codeHashOf,if_neg some,(coded.installed a some).2]
    rfl

theorem setAccountWrites (db : MptDB) (a : Address) (acct : Account) :
    db.setAccount sha a acct = {db with
      nodes := (trieWrite sha db.nodes db.root (Address.bytes a) (recordOf acct)).2
      root := (trieWrite sha db.nodes db.root (Address.bytes a) (recordOf acct)).1} := by
  unfold MptDB.setAccount recordOf
  split
  · rfl
  · rfl

theorem setLevels (db : MptDB) (addressed : Addressed sha db.nodes)
    (world : ∃ t, db.root = digest sha t ∧ Holds sha db.nodes Address.bytes t (worldMap sha st slots))
    (words : ∀ b, Holds sha db.nodes Hash.bytes (slots' b) (fun k => wordOf ((st'.accounts b).storage k)))
    (others : ∀ b, sha (Address.bytes b) ≠ sha (Address.bytes a) → st'.accounts b = st.accounts b ∧ slots' b = slots b)
    (written : ∀ b, sha (Address.bytes b) = sha (Address.bytes a) → acct = leaf sha (st'.accounts b) (slots' b))
    (free : Collisionless sha (db.setAccount sha a acct).nodes) :
    Levels sha (db.setAccount sha a acct).nodes (db.setAccount sha a acct).root st' slots' := by
  obtain ⟨t,root,holds⟩ := world
  rw [setAccountWrites,root] at free ⊢
  have grows := writeExtends addressed (digest sha t) (Address.bytes a) (recordOf acct)
  obtain ⟨t',root',after⟩ := holds.write ⟨free.mono grows.grows,addressed⟩ a (recordShort acct) free
  refine ⟨grows.addressed,fun b => (words b).mono grows.grows,t',root',?_⟩
  have map : writeUnder sha Address.bytes a (recordOf acct) (worldMap sha st slots) = worldMap sha st' slots' := by
    funext b
    rw [writeUnder]
    split
    · rename_i same
      rw [written b same]
      rfl
    · rename_i other
      rw [worldMap,worldMap,(others b other).1,(others b other).2]
  rwa [map] at after

end
end L1Chain.Mpt
