import L1Chain.MptRuns

/-! The state root commits to the observable state and to nothing else, and proofs against
it are bound to that state. A storage proof is rooted at the account the first stage
verified, and both stages are read in one store. -/
namespace L1Chain.Mpt
open Trie Patricia

def built (sha : Bytes → Hash) (ops : List Op) : MptDB := (run (MptDB.backend sha) ⟨new,[]⟩ ops).db

def Observed (sha : Bytes → Hash) (db db' : MptDB) : Prop :=
  ∀ a, (db.getAccount sha a).balance = (db'.getAccount sha a).balance ∧
    (db.getAccount sha a).nonce = (db'.getAccount sha a).nonce ∧
    db.getCode sha a = db'.getCode sha a ∧ ∀ key, db.getStorage sha a key = db'.getStorage sha a key

section
variable {sha : Bytes → Hash} {ops ops' : List Op} {codes : List Bytes} {nodes : Nodes} {db db' : MptDB}
  {root root' : Hash} {st st' : MptState} {slots slots' : Address → Tree 16 Bytes}

theorem nextGrown {s : Session MptDB} {held : List Account} (grown : Grown sha s.db held codes)
    (kept : ∀ r ∈ s.reads, r.2 ∈ held) (op : Op) :
    ∃ held' codes', Grown sha (next (MptDB.backend sha) s op).db held' codes' ∧
      (∀ r ∈ (next (MptDB.backend sha) s op).reads, r.2 ∈ held') ∧ codes' ⊆ codesOf [op] ++ codes := by
  cases op with
  | getAccount a =>
    refine ⟨_,codes,grown.getAccount a,List.forall_mem_cons.mpr ⟨List.mem_cons_self,fun r member => ?_⟩,
      List.subset_append_right _ _⟩
    exact List.mem_cons_of_mem _ (kept r member)
  | setAccount i balance nonce =>
    simp only [next]
    split
    · exact ⟨held,codes,grown,kept,List.subset_append_right _ _⟩
    · rename_i a acct read
      exact ⟨held,codes,grown.update (kept _ (List.mem_of_getElem? read)) a balance nonce,kept,List.subset_append_right _ _⟩
  | getCode a => exact ⟨held,codes,grown,kept,List.subset_append_right _ _⟩
  | setCode a code =>
    have same : installs code = codesOf [.setCode a code] := by
      unfold installs codesOf
      by_cases none : code = []
      · simp [none]
      · simp [none]
    exact ⟨held,_,grown.setCode a code,kept,by rw [same]; exact List.Subset.refl _⟩
  | getStorage a key => exact ⟨held,codes,grown,kept,List.subset_append_right _ _⟩
  | setStorage a key val => exact ⟨held,codes,grown.setStorage a key val,kept,List.subset_append_right _ _⟩

theorem runGrown {s : Session MptDB} {held : List Account} (grown : Grown sha s.db held codes)
    (kept : ∀ r ∈ s.reads, r.2 ∈ held) (ops : List Op) :
    ∃ held' codes', Grown sha (run (MptDB.backend sha) s ops).db held' codes' ∧ codes' ⊆ codesOf ops ++ codes := by
  induction ops generalizing s held codes with
  | nil => exact ⟨held,codes,grown,List.Subset.refl _⟩
  | cons op ops ih =>
    obtain ⟨held',codes',first,kept',part⟩ := nextGrown grown kept op
    obtain ⟨held'',codes'',last,rest⟩ := ih first kept'
    have split : codesOf (op::ops) = codesOf [op] ++ codesOf ops := List.filterMap_append (l := [op])
    refine ⟨held'',codes'',last,fun c member => ?_⟩
    rw [split]
    have later := rest member
    simp only [List.mem_append] at later ⊢
    rcases later with own | old
    · exact .inl (.inr own)
    · have now := part old
      rw [List.mem_append] at now
      exact now.imp_left .inl

theorem builtRepresents (known : ∀ c ∈ codesOf ops, c ∈ codes) (trusts : Trusts sha codes (built sha ops).nodes) :
    ∃ st slots, Represents sha codes (built sha ops) st slots := by
  obtain ⟨held,own,grown,part⟩ := @runGrown sha [] ⟨new,[]⟩ [] .new (fun r member => (nomatch member)) ops
  refine (grownRepresents grown (fun c member => known c ?_) trusts).1
  simpa using part member

theorem codeHashApart (trusts : Trusts sha codes nodes) {c d : Bytes} (known : c ≠ [] → c ∈ codes)
    (known' : d ≠ [] → d ∈ codes) (same : codeHashOf sha c = codeHashOf sha d) : c = d := by
  by_cases none : c = []
  · have zero := (codeHashZero trusts known).mpr none
    rw [same] at zero
    rw [none,(codeHashZero trusts known').mp zero]
  · by_cases none' : d = []
    · have zero := (codeHashZero trusts known').mpr none'
      rw [← same] at zero
      exact absurd ((codeHashZero trusts known).mp zero) none
    · rw [codeHashOf,codeHashOf,if_neg none,if_neg none'] at same
      exact trusts.codeApart c (known none) d (known' none') same

theorem Levels.mono {nodes' : Nodes} (levels : Levels sha nodes root st slots) (grows : nodes ⊆ nodes')
    (addressed : Addressed sha nodes') : Levels sha nodes' root st slots := by
  obtain ⟨t,at',holds⟩ := levels.world
  exact ⟨addressed,fun a => (levels.words a).mono grows,t,at',holds.mono grows⟩

theorem rootFixes (levels : Levels sha nodes root st slots) (levels' : Levels sha nodes root' st' slots')
    (free : Collisionless sha nodes) (same : root = root') (a : Address) :
    leaf sha (st.accounts a) (slots a) = leaf sha (st'.accounts a) (slots' a) ∧
      (st.accounts a).storage = (st'.accounts a).storage := by
  obtain ⟨t,at',holds⟩ := levels.world
  obtain ⟨t',at'',holds'⟩ := levels'.world
  have world := digestApart free holds.stored holds'.stored holds.inside holds'.inside le_rfl
    (at'.symm.trans (same.trans at''))
  have record := holds.reads a
  rw [world,holds'.reads a] at record
  have account := recordInjective record.symm
  have words := levels.words a
  have words' := levels'.words a
  have trees := digestApart free words.stored words'.stored words.inside words'.inside le_rfl
    (congrArg Account.storageRoot account)
  refine ⟨account,funext (fun key => ?_)⟩
  have word := words.reads key
  rw [trees,words'.reads key] at word
  exact wordInjective word.symm

theorem stateFixesRoot (levels : Levels sha nodes root st slots) (levels' : Levels sha nodes root' st slots') :
    root = root' := by
  have trees : slots = slots' := funext (fun a => (levels.words a).unique (levels'.words a))
  obtain ⟨t,at',holds⟩ := levels.world
  obtain ⟨t',at'',holds'⟩ := levels'.world
  rw [trees] at holds
  rw [at',at'',holds.unique holds']

theorem rootCommits
    (trusts : Trusts sha (codesOf (ops ++ ops')) ((built sha ops).nodes ++ (built sha ops').nodes)) :
    (built sha ops).stateRoot = (built sha ops').stateRoot ↔ Observed sha (built sha ops) (built sha ops') := by
  have codes : codesOf (ops ++ ops') = codesOf ops ++ codesOf ops' := List.filterMap_append
  rw [codes] at trusts
  have left := trusts.earlier (List.subset_append_left _ _)
  have right := trusts.earlier (List.subset_append_right _ _)
  obtain ⟨st,slots,levels,coded⟩ := builtRepresents (fun c member => List.mem_append_left _ member) left
  obtain ⟨st',slots',levels',coded'⟩ := builtRepresents (fun c member => List.mem_append_right _ member) right
  have addressed := List.forall_mem_append.mpr ⟨levels.addressed,levels'.addressed⟩
  have wide := levels.mono (List.subset_append_left _ _) addressed
  have wide' := levels'.mono (List.subset_append_right _ _) addressed
  refine ⟨fun same a => ?_,fun alike => ?_⟩
  · obtain ⟨account,storage⟩ := rootFixes wide wide' trusts.nodes same a
    rw [levels.getAccount left.nodes,levels'.getAccount right.nodes,levels.getCode coded left,levels'.getCode coded' right]
    refine ⟨congrArg Account.balance account,congrArg Account.nonce account,?_,fun key => ?_⟩
    · exact codeHashApart trusts (fun some => (coded.installed a some).1) (fun some => (coded'.installed a some).1)
        (congrArg Account.codeHash account)
    · rw [levels.getStorage left.nodes,levels'.getStorage right.nodes,storage]
  · have states : st = st' := by
      refine MptState.ext' (fun a => ?_)
      obtain ⟨balance,nonce,code,storage⟩ := alike a
      rw [levels.getAccount left.nodes,levels'.getAccount right.nodes] at balance nonce
      rw [levels.getCode coded left,levels'.getCode coded' right] at code
      refine L1Chain.Account.ext balance nonce code (funext (fun key => ?_))
      rw [← levels.getStorage left.nodes,← levels'.getStorage right.nodes]
      exact storage key
    rw [states] at wide
    exact stateFixesRoot wide wide'

end

def directly : List Op := [.getAccount 1,.setAccount 0 90 2,.setCode 1 [1,2,3]]

theorem directlyAlike : (built horner calls).stateRoot = (built horner directly).stateRoot ∧
    Observed horner (built horner calls) (built horner directly) := by
  have same : (built horner calls).stateRoot = (built horner directly).stateRoot := by decide +kernel
  have trusts : Trusts horner (codesOf (calls ++ directly)) ((built horner calls).nodes ++ (built horner directly).nodes) :=
    ⟨by decide +kernel,by decide +kernel,by decide +kernel⟩
  exact ⟨same,(rootCommits trusts).mp same⟩

section
variable {K : Type} {sha : Bytes → Hash} {nodes : Nodes} {key : K → Bytes} {t : Tree 16 Bytes} {m : K → Option Bytes}
  {ops : List Op} {st : MptState} {slots : Address → Tree 16 Bytes} {db : MptDB} {a : Address}

theorem Holds.verified (holds : Holds sha nodes key t m) {k : K} {value : Bytes} {proof : Proof}
    (unforged : Unforged sha nodes proof) (verified : VerifyProof sha (digest sha t) (key k) value proof = true) :
    m k = some value := by
  rw [← holds.reads]
  exact verifySound holds.stored holds.inside le_rfl unforged verified

theorem Holds.proof (holds : Holds sha nodes key t m) (readable : Readable sha nodes) (k : K) :
    ∃ proof, trieProof sha nodes (digest sha t) (key k) = (proof,m k) ∧
      ∀ value, m k = some value → VerifyProof sha (digest sha t) (key k) value proof = true := by
  obtain ⟨proof,generated,verifies⟩ := genProofVerifies readable holds.stored holds.inside le_rfl
    (by decide : pathLength < depth) (path sha (key k))
  rw [holds.reads] at generated verifies
  refine ⟨proof,?_,verifies⟩
  rw [trieProof,GenerateProof,generated]
  rfl

theorem recordSome {acct : Account} (live : acct ≠ .zero) : recordOf acct = some (encodeAccount acct) :=
  if_neg (fun empty => live (emptyZero.mp empty))

theorem recordIs {acct acct' : Account} (some : recordOf acct = some (encodeAccount acct')) : acct' = acct := by
  unfold recordOf at some
  split at some
  · cases some
  · exact (encodeAccountInjective (Option.some.inj some)).symm

theorem wordSome {val : Hash} (live : val ≠ 0) : wordOf val = some (Hash.bytes val) := if_neg live

theorem wordIs {val val' : Hash} (some : wordOf val = some (Hash.bytes val')) : val' = val := by
  unfold wordOf at some
  split at some
  · cases some
  · exact (hashBytesInjective (Option.some.inj some)).symm

theorem accountVerified (levels : Levels sha db.nodes db.root st slots) (free : Collisionless sha db.nodes)
    {ap : AccountProof} (unforged : Unforged sha db.nodes ap.proof)
    (verified : verifyAccountProof sha db.stateRoot a ap = true) : ap.account = db.getAccount sha a := by
  obtain ⟨t,root,holds⟩ := levels.world
  rw [verifyAccountProof,MptDB.stateRoot,root] at verified
  rw [levels.getAccount free]
  exact recordIs (holds.verified unforged verified)

theorem storageVerified (levels : Levels sha db.nodes db.root st slots) (free : Collisionless sha db.nodes)
    {key : Hash} {sp : StorageProof} (unforged : Unforged sha db.nodes sp.accountProof.proof)
    (unforged' : Unforged sha db.nodes sp.slotProof) (verified : verifyStorageProof sha db.stateRoot a key sp = true) :
    sp.value = db.getStorage sha a key ∧ sp.accountProof.account = db.getAccount sha a := by
  rw [verifyStorageProof,Bool.and_eq_true] at verified
  have account := accountVerified levels free unforged verified.1
  refine ⟨?_,account⟩
  have second := verified.2
  rw [account,levels.getAccount free] at second
  rw [levels.getStorage free]
  exact wordIs ((levels.words a).verified unforged' second)

theorem accountProved (levels : Levels sha db.nodes db.root st slots) (free : Collisionless sha db.nodes)
    (live : db.getAccount sha a ≠ .zero) : ∃ ap, db.accountProof sha a = some ap ∧ ap.account = db.getAccount sha a ∧
      verifyAccountProof sha db.stateRoot a ap = true := by
  obtain ⟨t,root,holds⟩ := levels.world
  rw [levels.getAccount free] at live ⊢
  have record := recordSome live
  obtain ⟨proof,generated,verifies⟩ := holds.proof ⟨free,levels.addressed⟩ a
  rw [worldMap,record] at generated verifies
  refine ⟨⟨leaf sha (st.accounts a) (slots a),proof⟩,?_,rfl,?_⟩
  · rw [MptDB.accountProof,generateAccountProof,root,generated]
    simp only [decodeEncodeAccount]
  · rw [verifyAccountProof,MptDB.stateRoot,root]
    exact verifies _ rfl

theorem storageProved (levels : Levels sha db.nodes db.root st slots) (free : Collisionless sha db.nodes)
    {key : Hash} (live : db.getStorage sha a key ≠ 0) : ∃ sp, db.storageProof sha a key = some sp ∧
      verifyStorageProof sha db.stateRoot a key sp = true := by
  have rooted : (db.getAccount sha a).storageRoot ≠ 0 := by
    intro zero
    exact live (if_pos zero)
  have present : db.getAccount sha a ≠ .zero := by
    intro zero
    rw [zero] at rooted
    exact rooted rfl
  obtain ⟨ap,account,same,verified⟩ := accountProved levels free present
  obtain ⟨proof,generated,verifies⟩ := (levels.words a).proof ⟨free,levels.addressed⟩ key
  rw [levels.getStorage free] at live
  rw [wordSome live] at generated verifies
  have place : ap.account.storageRoot = digest sha (slots a) := by
    rw [same,levels.getAccount free]
    rfl
  refine ⟨⟨ap,proof,(st.accounts a).storage key⟩,?_,?_⟩
  · have value := wordRead ((st.accounts a).storage key)
    rw [wordSome live] at value
    rw [← same,place] at rooted
    rw [MptDB.accountProof] at account
    rw [MptDB.storageProof,generateStorageProof,account]
    simp only [place,if_neg rooted,generated]
    exact congrArg (fun v => some (StorageProof.mk ap proof v)) value
  · rw [verifyStorageProof,Bool.and_eq_true,place]
    exact ⟨verified,verifies _ rfl⟩

/- Whoever sends a proof, it shows the state that was built; and what exists can be proved. -/
theorem proofsBound (trusts : Trusts sha (codesOf ops) (built sha ops).nodes) :
    (∀ a ap, Unforged sha (built sha ops).nodes ap.proof →
      verifyAccountProof sha (built sha ops).stateRoot a ap = true → ap.account = (built sha ops).getAccount sha a) ∧
    (∀ a key sp, Unforged sha (built sha ops).nodes sp.accountProof.proof → Unforged sha (built sha ops).nodes sp.slotProof →
      verifyStorageProof sha (built sha ops).stateRoot a key sp = true →
        sp.value = (built sha ops).getStorage sha a key ∧ sp.accountProof.account = (built sha ops).getAccount sha a) ∧
    (∀ a, (built sha ops).getAccount sha a ≠ .zero → ∃ ap, (built sha ops).accountProof sha a = some ap ∧
      verifyAccountProof sha (built sha ops).stateRoot a ap = true) ∧
    ∀ a key, (built sha ops).getStorage sha a key ≠ 0 → ∃ sp, (built sha ops).storageProof sha a key = some sp ∧
      verifyStorageProof sha (built sha ops).stateRoot a key sp = true := by
  obtain ⟨st,slots,levels,_⟩ := builtRepresents (fun _ member => member) trusts
  have free := trusts.nodes
  refine ⟨fun a ap unforged => accountVerified levels free unforged,
    fun a key sp unforged unforged' => storageVerified levels free unforged unforged',fun a live => ?_,
    fun a key => storageProved levels free⟩
  obtain ⟨ap,generated,_,verified⟩ := accountProved levels free live
  exact ⟨ap,generated,verified⟩

end

def funded : List Op := calls.take 8

theorem fundedProved : (∃ sp, (built horner funded).storageProof horner 1 5 = some sp ∧
      verifyStorageProof horner (built horner funded).stateRoot 1 5 sp = true) ∧
    ∀ sp, Unforged horner (built horner funded).nodes sp.accountProof.proof →
      Unforged horner (built horner funded).nodes sp.slotProof →
      verifyStorageProof horner (built horner funded).stateRoot 1 5 sp = true → sp.value = 7 := by
  have trusts : Trusts horner (codesOf funded) (built horner funded).nodes :=
    ⟨by decide +kernel,by decide +kernel,by decide +kernel⟩
  have word : (built horner funded).getStorage horner 1 5 = 7 := by decide +kernel
  obtain ⟨_,storage,_,proved⟩ := proofsBound trusts
  refine ⟨proved 1 5 (by rw [word]; decide),fun sp unforged unforged' verified => ?_⟩
  exact (storage 1 5 sp unforged unforged' verified).1.trans word
end L1Chain.Mpt
