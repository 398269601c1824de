import L1Chain.RpcServer
import L1Chain.MptBases
import L1Chain.NetworkRuns

/-! rpc/client.go and the command `l1 balance --verify` of cmd/l1: a client that checks what a
node tells it. The node on the other side is whatever answers the two requests; what a call
leaves in its result is the zero value where the answer is null. -/
namespace L1Chain
open Transition Runs
namespace Rpc

inductive ClientErr where
  | transport
  | rpc (e : RPCError)
  | json
  deriving DecidableEq

structure AccountProofResult where
  height : UInt64
  stateRoot : Bytes
  proof : AccountProofJSON

def AccountProofResult.zero : AccountProofResult := ⟨0,[],⟨⟨0,0,[],[]⟩,[]⟩⟩
def BlockJSON.zero : BlockJSON := ⟨⟨0,[],[],[],[],0,0,0,0,0,[]⟩,[],[]⟩

structure Client where
  accountProof : Bytes → Except ClientErr AccountProofResult
  block : UInt64 → Except ClientErr BlockJSON

namespace Client

def getAccountProof (c : Client) (addrHex : Bytes) : Except ClientErr (Option AccountProofResult) := do
  let out ← c.accountProof addrHex
  .ok (if out.stateRoot = [] then none else some out)

def getBlockByHeight (c : Client) (height : UInt64) : Except ClientErr (Option BlockJSON) := do
  let b ← c.block height
  .ok (if b.hash = [] then none else some b)

end Client

def verifyAccountProof (sha : Bytes → Hash) (stateRootHex addrHex : Bytes) (ap : AccountProofJSON) :
    Except WireErr (Mpt.Account × Bool) := do
  let stateRoot ← under (.field "stateRoot") (hashFromHex stateRootHex)
  let addr ← under (.field "addr") (liftHex (addressFromHex addrHex))
  let proof ← under (.field "proof") (accountProofFromJSON ap)
  .ok (proof.account,Mpt.verifyAccountProof sha stateRoot addr proof)

inductive VerifyErr where
  | getAccountProof (e : ClientErr)
  | getBlockByHeight (height : UInt64) (e : ClientErr)
  | blockMissing (height : UInt64)
  | decodeHeader (e : WireErr)
  | rootMismatch (height : UInt64) (header proof : Bytes)
  | badPoW (height : UInt64)
  | verifyProof (e : WireErr)
  | proofFailed
  deriving DecidableEq

inductive Printed where
  | untouched
  | verified (balance height : UInt64) (stateRoot : Bytes)
  deriving DecidableEq

def cmdBalanceVerify (sha : Bytes → Hash) (c : Client) (addrHex : Bytes) : Except VerifyErr Printed :=
  match c.getAccountProof addrHex with
  | .error e => .error (.getAccountProof e)
  | .ok none => .ok .untouched
  | .ok (some res) =>
    match c.getBlockByHeight res.height with
    | .error e => .error (.getBlockByHeight res.height e)
    | .ok none => .error (.blockMissing res.height)
    | .ok (some blk) =>
      match headerFromJSON blk.header with
      | .error e => .error (.decodeHeader e)
      | .ok header =>
        if hashHex header.stateRoot ≠ res.stateRoot then
          .error (.rootMismatch res.height (hashHex header.stateRoot) res.stateRoot)
        else if ¬ meetsTarget (header.hash sha) header.difficulty then .error (.badPoW res.height)
        else match verifyAccountProof sha res.stateRoot addrHex res.proof with
          | .error e => .error (.verifyProof e)
          | .ok (_,false) => .error .proofFailed
          | .ok (acct,true) => .ok (.verified acct.balance res.height res.stateRoot)

section
variable {sha : Bytes → Hash} {c : Client} {addrHex : Bytes} {v height : UInt64} {root : Bytes}

structure Checked (sha : Bytes → Hash) (c : Client) (addrHex : Bytes) (v height : UInt64) (root : Bytes)
    (addr : Address) (header : Header) (ap : Mpt.AccountProof) : Prop where
  address : addressFromHex addrHex = .ok addr
  answered : ∃ j, c.accountProof addrHex = .ok ⟨height,root,j⟩ ∧ accountProofFromJSON j = .ok ap
  fetched : ∃ j, c.block height = .ok j ∧ headerFromJSON j.header = .ok header
  rooted : root = hashHex header.stateRoot
  work : meetsTarget (header.hash sha) header.difficulty = true
  balance : v = ap.account.balance
  verified : Mpt.verifyAccountProof sha header.stateRoot addr ap = true

theorem underRead {α : Type} {wrap : WireErr → WireErr} {x : Except WireErr α} {a : α} (ok : under wrap x = .ok a) :
    x = .ok a := by
  cases x with
  | error e => cases ok
  | ok b => exact ok

theorem liftRead {α : Type} {x : Except HexErr α} {a : α} (ok : liftHex x = .ok a) : x = .ok a := by
  cases x with
  | error e => cases ok
  | ok b =>
    cases ok
    rfl

theorem proofChecked {stateRootHex : Bytes} {j : AccountProofJSON} {acct : Mpt.Account} {passes : Bool}
    (ok : verifyAccountProof sha stateRootHex addrHex j = .ok (acct,passes)) : ∃ stateRoot addr ap,
      hashFromHex stateRootHex = .ok stateRoot ∧ addressFromHex addrHex = .ok addr ∧ accountProofFromJSON j = .ok ap ∧
      acct = ap.account ∧ passes = Mpt.verifyAccountProof sha stateRoot addr ap := by
  simp only [verifyAccountProof,bindOk] at ok
  obtain ⟨stateRoot,first,addr,second,ap,third,last⟩ := ok
  obtain ⟨rfl,rfl⟩ := Prod.mk.inj (Except.ok.inj last)
  exact ⟨stateRoot,addr,ap,underRead first,liftRead (underRead second),underRead third,rfl,rfl⟩

theorem proofVerifies {stateRootHex : Bytes} {j : AccountProofJSON} {stateRoot : Hash} {addr : Address} {ap : Mpt.AccountProof}
    (first : hashFromHex stateRootHex = .ok stateRoot) (second : addressFromHex addrHex = .ok addr)
    (third : accountProofFromJSON j = .ok ap) :
    verifyAccountProof sha stateRootHex addrHex j = .ok (ap.account,Mpt.verifyAccountProof sha stateRoot addr ap) := by
  rw [verifyAccountProof,first,second,third]
  rfl

theorem balanceChecked (printed : cmdBalanceVerify sha c addrHex = .ok (.verified v height root)) :
    ∃ addr header ap, Checked sha c addrHex v height root addr header ap := by
  unfold cmdBalanceVerify at printed
  split at printed
  · cases printed
  · cases printed
  · rename_i res asked
    split at printed
    · cases printed
    · cases printed
    · rename_i blk fetched
      split at printed
      · cases printed
      · rename_i header read
        split at printed
        · cases printed
        · rename_i same
          split at printed
          · cases printed
          · rename_i work
            split at printed
            · cases printed
            · cases printed
            · rename_i acct checked
              cases printed
              obtain ⟨stateRoot,addr,ap,first,second,third,rfl,passes⟩ := proofChecked checked
              have own := not_not.mp same
              rw [← own,hashHexRead] at first
              cases first
              simp only [Client.getAccountProof,bindOk] at asked
              obtain ⟨out,called,kept⟩ := asked
              split at kept
              · cases kept
              · cases kept
                simp only [Client.getBlockByHeight,bindOk] at fetched
                obtain ⟨b,got,there⟩ := fetched
                split at there
                · cases there
                · cases there
                  refine ⟨addr,header,ap,second,⟨_,called,third⟩,⟨_,got,read⟩,own.symm,by simpa using work,rfl,passes.symm⟩

theorem hashHexInj {h h' : Hash} : hashHex h = hashHex h' ↔ h = h' := by
  refine ⟨fun texts => ?_,congrArg hashHex⟩
  have read := hashHexRead h
  rw [texts,hashHexRead] at read
  exact (Except.ok.inj read).symm

/- Whoever answers, a balance that is printed as verified is the balance of that account in every
state whose tries have the printed root, unless the proof collides with their nodes. -/
theorem balanceBound (printed : cmdBalanceVerify sha c addrHex = .ok (.verified v height root)) :
    ∃ addr header ap, Checked sha c addrHex v height root addr header ap ∧
      ∀ (db : Mpt.MptDB) (st : MptState) (slots : Address → Patricia.Tree 16 Bytes), Mpt.Levels sha db.nodes db.root st slots → Trie.Collisionless sha db.nodes →
        Trie.Unforged sha db.nodes ap.proof → hashHex db.stateRoot = root → v = (st.accounts addr).balance := by
  obtain ⟨addr,header,ap,checked⟩ := balanceChecked printed
  refine ⟨addr,header,ap,checked,fun db st slots levels free unforged same => ?_⟩
  have own : db.stateRoot = header.stateRoot := hashHexInj.mp (same.trans checked.rooted)
  have verified := checked.verified
  rw [← own] at verified
  rw [checked.balance,Mpt.accountVerified levels free unforged verified,levels.getAccount free]
  rfl

end

section
variable {E : Type} {env : Env E} {verifySig : VerifySig} {db : Mpt.MptDB} {n n' : Node} {codes : List Bytes}
  {slots : Address → Patricia.Tree 16 Bytes} {addr : Address}

def callAccountProof : Except RPCError Result → Except ClientErr AccountProofResult
  | .error e => .error (.rpc e)
  | .ok .null => .ok .zero
  | .ok (.accountProof height stateRoot proof) => .ok ⟨height,stateRoot,proof⟩
  | .ok _ => .error .json

def callBlock : Except RPCError Result → Except ClientErr BlockJSON
  | .error e => .error (.rpc e)
  | .ok .null => .ok .zero
  | .ok (.block b) => .ok b
  | .ok _ => .error .json

def served (env : Env E) (verifySig : VerifySig) (db : Mpt.MptDB) (n n' : Node) : Client where
  accountProof addrHex := callAccountProof (dispatch env verifySig db n ⟨"getAccountProof",[.text addrHex]⟩).1
  block height := callBlock (dispatch env verifySig db n' ⟨"getBlockByHeight",[.number height]⟩).1

theorem accountAbsent (represents : Mpt.Represents env.sha codes db n.chain.headState slots)
    (free : Trie.Collisionless env.sha db.nodes) (zero : db.getAccount env.sha addr = .zero) :
    db.accountProof env.sha addr = none := by
  obtain ⟨t,root,holds⟩ := represents.levels.world
  obtain ⟨proof,generated,_⟩ := holds.proof ⟨free,represents.levels.addressed⟩ addr
  rw [represents.levels.getAccount free] at zero
  have absent : Mpt.worldMap env.sha n.chain.headState slots addr = none := by
    rw [Mpt.worldMap,zero]
    rfl
  rw [absent] at generated
  rw [Mpt.MptDB.accountProof,Mpt.generateAccountProof,root,generated]

theorem hashPresent (h : Hash) : hashHex h ≠ [] := by
  intro empty
  have read := hashHexRead h
  rw [empty] at read
  cases read

theorem addressText (s : Bytes) : addressParam [.text s] 0 = readWire (liftHex (addressFromHex s)) := rfl

theorem gotProof {c : Client} {s root : Bytes} {height : UInt64} {j : AccountProofJSON} (present : root ≠ [])
    (called : c.accountProof s = .ok ⟨height,root,j⟩) : c.getAccountProof s = .ok (some ⟨height,root,j⟩) := by
  rw [Client.getAccountProof,called]
  exact congrArg Except.ok (if_neg present)

theorem gotBlock {c : Client} {height : UInt64} {j : HeaderJSON} {hash : Bytes} {txs : List TxJSON} (present : hash ≠ [])
    (called : c.block height = .ok ⟨j,hash,txs⟩) : c.getBlockByHeight height = .ok (some ⟨j,hash,txs⟩) := by
  rw [Client.getBlockByHeight,called]
  exact congrArg Except.ok (if_neg present)

section
variable {sha : Bytes → Hash} {c : Client} {s root : Bytes} {height : UInt64} {j : AccountProofJSON} {b : BlockJSON} {h : Header}
  {acct : Mpt.Account}

theorem blockLost (asked : c.getAccountProof s = .ok (some ⟨height,root,j⟩)) (lost : c.getBlockByHeight height = .ok none) :
    cmdBalanceVerify sha c s = .error (.blockMissing height) := by
  simp only [cmdBalanceVerify,asked,lost]

theorem proofAnswered (asked : c.getAccountProof s = .ok (some ⟨height,root,j⟩)) (got : c.getBlockByHeight height = .ok (some b))
    (read : headerFromJSON b.header = .ok h) (checks : verifyAccountProof sha root s j = .ok (acct,true)) :
    cmdBalanceVerify sha c s =
      if hashHex h.stateRoot ≠ root then .error (.rootMismatch height (hashHex h.stateRoot) root)
      else if ¬ meetsTarget (h.hash sha) h.difficulty then .error (.badPoW height)
      else .ok (.verified acct.balance height root) := by
  simp only [cmdBalanceVerify,asked,got,read,checks]

end

theorem servedProof (env : Env E) (verifySig : VerifySig) (db : Mpt.MptDB) (n n' : Node) {s : Bytes} (decoded : addressFromHex s = .ok addr) :
    (served env verifySig db n n').accountProof s =
      callAccountProof (match accountProof env db n addr with
        | none => .ok .null
        | some (ap,height,root) => .ok (.accountProof height (hashHex root) (accountProofToJSON ap))) := by
  have method : ("getAccountProof" : String) ≠ "sendRawTx" := by decide
  have asked : (dispatch env verifySig db n ⟨"getAccountProof",[.text s]⟩).1 = _ :=
    (dispatchQuery method).trans (queryAccountProof _)
  rw [addressText,decoded] at asked
  exact congrArg callAccountProof asked

theorem servedBlock (env : Env E) (verifySig : VerifySig) (db : Mpt.MptDB) (n n' : Node) (height : UInt64) :
    (served env verifySig db n n').block height = callBlock (match n'.chain.getByHeight height with
      | none => .ok .null
      | some b => .ok (.block (blockToJSON env.sha b))) := by
  have method : ("getBlockByHeight" : String) ≠ "sendRawTx" := by decide
  have asked : (dispatch env verifySig db n' ⟨"getBlockByHeight",[.number height]⟩).1 = _ :=
    (dispatchQuery method).trans (queryBlock _)
  exact congrArg callBlock asked

theorem servedOutcome (verifySig : VerifySig) (n' : Node)
    (represents : Mpt.Represents env.sha codes db n.chain.headState slots)
    (free : Trie.Collisionless env.sha db.nodes) (rooted : db.root = n.chain.headD.header.stateRoot) (addr : Address) :
    cmdBalanceVerify env.sha (served env verifySig db n n') (addressHex addr) =
      if db.getAccount env.sha addr = .zero then .ok .untouched
      else match n'.chain.getByHeight n.chain.headD.header.height with
        | none => .error (.blockMissing n.chain.headD.header.height)
        | some b =>
          if b.header.stateRoot ≠ n.chain.headD.header.stateRoot then
            .error (.rootMismatch n.chain.headD.header.height (hashHex b.header.stateRoot)
              (hashHex n.chain.headD.header.stateRoot))
          else if ¬ meetsTarget (b.hash env.sha) b.header.difficulty then .error (.badPoW n.chain.headD.header.height)
          else .ok (.verified (n.chain.headState.accounts addr).balance n.chain.headD.header.height
            (hashHex n.chain.headD.header.stateRoot)) := by
  have asked := servedProof env verifySig db n n' (addressHexRead addr)
  split
  · rename_i zero
    rw [cmdBalanceVerify,Client.getAccountProof,asked,accountProof,accountAbsent represents free zero]
    rfl
  · rename_i live
    obtain ⟨ap,generated,account,verified⟩ := Mpt.accountProved represents.levels free live
    rw [accountProof,generated] at asked
    have answered : (served env verifySig db n n').accountProof (addressHex addr) =
      .ok ⟨n.chain.headD.header.height,hashHex n.chain.headD.header.stateRoot,accountProofToJSON ap⟩ := asked
    have result := gotProof (hashPresent n.chain.headD.header.stateRoot) answered
    have balance : ap.account.balance = (n.chain.headState.accounts addr).balance := by
      rw [account,represents.levels.getAccount free]
      rfl
    have checks : verifyAccountProof env.sha (hashHex n.chain.headD.header.stateRoot) (addressHex addr) (accountProofToJSON ap) =
        .ok (ap.account,true) := by
      rw [proofVerifies (hashHexRead _) (addressHexRead addr) (accountProofFromToJSON ap),← rooted]
      exact congrArg (fun passes => Except.ok (ap.account,passes)) verified
    have fetched := servedBlock env verifySig db n n' n.chain.headD.header.height
    cases held : n'.chain.getByHeight n.chain.headD.header.height with
    | none =>
      rw [held] at fetched
      have lost : (served env verifySig db n n').getBlockByHeight n.chain.headD.header.height = .ok none := by
        rw [Client.getBlockByHeight,fetched]
        rfl
      exact blockLost result lost
    | some b =>
      rw [held] at fetched
      have got := gotBlock (hashPresent (b.hash env.sha)) (show (served env verifySig db n n').block _ =
        .ok ⟨headerToJSON b.header,hashHex (b.hash env.sha),b.txs.map (txToJSON env.sha)⟩ from fetched)
      rw [proofAnswered result got (headerFromToJSON b.header) checks,balance]
      exact if_congr (not_congr hashHexInj) rfl rfl

theorem recordZero (represents : Mpt.Represents env.sha codes db n.chain.headState slots)
    (trusts : Mpt.Trusts env.sha codes db.nodes) (addr : Address) :
    db.getAccount env.sha addr = .zero ↔ n.chain.headState.accounts addr = Account.zero := by
  have levels := represents.levels
  rw [levels.getAccount trusts.nodes]
  constructor
  · intro zero
    have hash : Mpt.codeHashOf env.sha (n.chain.headState.accounts addr).code = 0 := congrArg Mpt.Account.codeHash zero
    have root : Trie.digest env.sha (slots addr) = 0 := congrArg Mpt.Account.storageRoot zero
    refine Account.ext (congrArg Mpt.Account.balance zero) (congrArg Mpt.Account.nonce zero) ?_
      (funext (levels.wordless trusts.nodes root))
    exact (Mpt.codeHashZero trusts fun some => (represents.coded.installed addr some).1).mp hash
  · intro zero
    have words := levels.words addr
    rw [zero] at words ⊢
    have nothing : Mpt.Holds env.sha db.nodes Hash.bytes .empty (fun _ => none) := Mpt.holdsNothing
    have bare : slots addr = .empty := words.unique nothing
    rw [bare]
    rfl

theorem headRooted {setup : Setup} {xs : List Block} (first : n.chain = (setup.chain env).feed env verifySig xs)
    (rooted : db.root = env.stateRoot n.chain.headState) : db.root = n.chain.headD.header.stateRoot := by
  rw [rooted,first]
  exact reachedRoot setup xs

end

/- What the command does not see: whoever answers can choose the header, and one that declares no
difficulty costs no work. -/
section
variable (sha : Bytes → Hash) (addr : Address) (acct : Mpt.Account)

def forgedLeaf : Bytes := (Trie.Node.leaf (Trie.path sha (Address.bytes addr)) (Mpt.encodeAccount acct)).encode

def forgedHeader (height : UInt64) : Header :=
  ⟨height,0,0,sha (forgedLeaf sha addr acct),0,0,0,0,0,0,[]⟩

def forger (height : UInt64) : Client where
  accountProof _ := .ok ⟨height,hashHex (sha (forgedLeaf sha addr acct)),accountProofToJSON ⟨acct,[forgedLeaf sha addr acct]⟩⟩
  block _ := .ok ⟨headerToJSON (forgedHeader sha addr acct height),hashHex ((forgedHeader sha addr acct height).hash sha),[]⟩

theorem leafVerifies : Mpt.verifyAccountProof sha (sha (forgedLeaf sha addr acct)) addr ⟨acct,[forgedLeaf sha addr acct]⟩ = true := by
  have fits : (Trie.Node.leaf (Trie.path sha (Address.bytes addr)) (Mpt.encodeAccount acct)).Fits := by
    refine ⟨lt_of_le_of_lt (Trie.pathFits _) (by decide),?_⟩
    rw [Mpt.encodeLength]
    decide
  have decoded : Trie.decodeNode (forgedLeaf sha addr acct) = _ := Trie.decodeEncode fits
  rw [Mpt.verifyAccountProof,Trie.VerifyProof,Trie.verifyFrom,if_neg (not_not_intro rfl),decoded]
  simp

theorem forgedPrinted (height : UInt64) : cmdBalanceVerify sha (forger sha addr acct height) (addressHex addr) =
    .ok (.verified acct.balance height (hashHex (sha (forgedLeaf sha addr acct)))) := by
  have asked := gotProof (c := forger sha addr acct height) (s := addressHex addr) (hashPresent _) rfl
  have fetched : (forger sha addr acct height).block height =
      .ok ⟨_,hashHex ((forgedHeader sha addr acct height).hash sha),[]⟩ := rfl
  have got := gotBlock (hashPresent _) fetched
  have checks : verifyAccountProof sha (hashHex (sha (forgedLeaf sha addr acct))) (addressHex addr)
      (accountProofToJSON ⟨acct,[forgedLeaf sha addr acct]⟩) = .ok (acct,true) := by
    rw [proofVerifies (hashHexRead _) (addressHexRead addr) (accountProofFromToJSON _),leafVerifies]
  have idle : meetsTarget ((forgedHeader sha addr acct height).hash sha) 0 = true := decide_eq_true (Nat.zero_le _)
  rw [proofAnswered asked got (headerFromToJSON _) checks]
  exact (if_neg (not_not_intro rfl)).trans (if_neg (not_not_intro idle))

end

/- Every balance at every height can be answered for, and so can that there is no account. -/
theorem balanceForged (sha : Bytes → Hash) (addr : Address) :
    (∀ v height, ∃ c root, cmdBalanceVerify sha c (addressHex addr) = .ok (.verified v height root)) ∧
    ∃ c, cmdBalanceVerify sha c (addressHex addr) = .ok .untouched :=
  ⟨fun v height => ⟨_,_,forgedPrinted sha addr ⟨v,0,0,0⟩ height⟩,⟨⟨fun _ => .ok .zero,fun _ => .error .transport⟩,rfl⟩⟩

end Rpc

namespace Devnet
open Rpc

/- A node after its first block, with the tries behind its head state. -/
def mintConfig : Config :=
  {soloConfig 1 with genesisAlloc := ∅}
def mintSetup : Setup := mintConfig.setup 0 .continuous

@[irreducible] def mintSha (bs : Bytes) : Hash :=
  if bs.length = 20 then BitVec.ofNat 256 (beNat bs) else Trie.horner bs

theorem mintAddresses {k l : Address} (same : mintSha (Address.bytes k) = mintSha (Address.bytes l)) : k = l := by
  unfold mintSha at same
  rw [if_pos (addressBytesLength k),if_pos (addressBytesLength l),Address.bytes,Address.bytes,beNatBytes,beNatBytes] at same
  have bits := congrArg BitVec.toNat same
  rw [BitVec.toNat_ofNat,BitVec.toNat_ofNat] at bits
  have first := k.isLt
  have second := l.isLt
  exact BitVec.eq_of_toNat_eq (by omega)

@[irreducible] def mintDB : Mpt.MptDB := Mpt.new.setAccount mintSha (account 3) ⟨blockReward,0,0,0⟩

def mintRoot : Hash := 6343993834080781944915730738330416252086611353448809449835748884803222623916

def mintEnv : Env Unit := {env with sha := mintSha, stateRoot := fun _ => mintRoot}
def mintBlock : Block := assemble mintEnv (mintSetup.chain mintEnv) [] (account 3) 1 1 mintRoot 0

def mintState : MptState := credit .empty (account 3) blockReward

theorem mintAccepted : Accepted mintEnv acceptNonEmptySig (mintSetup.chain mintEnv) mintBlock mintState 1 := by
  have cand : (mintSetup.chain mintEnv).candidate mintEnv acceptNonEmptySig [] (account 3) = .ok (mintState,0) :=
    (candidateOk (setupSound _)).mpr ⟨fun tx member => absurd member List.not_mem_nil,⟨.empty,0,0⟩,rfl,rfl,rfl⟩
  have tall : (mintSetup.chain mintEnv).headD.header.height + 1 ≠ 0 := by
    rw [setupHead]
    exact (by decide : (0 : UInt64) + 1 ≠ 0)
  have room : 0 ≤ (mintSetup.chain mintEnv).gasLimit := (by decide : (0 : UInt64) ≤ defaultGasLimit)
  have meets : meetsTarget (({mintBlock.header with nonce := 0} : Header).hash mintEnv.sha) mintBlock.header.difficulty = true := by
    decide +kernel
  have mined : mine mintEnv.sha mintBlock.header = some mintBlock.header := mineFirst meets
  have fresh : (mintSetup.chain mintEnv).getByHash (mintBlock.hash mintEnv.sha) = none := by
    rw [setupFound]
    exact if_neg (by decide +kernel)
  exact minedAccepted (setupSound _) rfl cand room tall mined fresh

theorem mintTrusted : Mpt.Trusts mintSha [] mintDB.nodes := ⟨by decide,by decide,by decide +kernel⟩

def mintChain : Chain := (mintSetup.chain mintEnv).commit mintEnv mintBlock mintState 1

theorem mintFed : (mintSetup.chain mintEnv).feed mintEnv acceptNonEmptySig [mintBlock] = mintChain :=
  offerAccepted mintAccepted

theorem mintParent : mintBlock.header.prevHash = (mintSetup.chain mintEnv).head := by
  have own : mintBlock.header.prevHash = (mintSetup.chain mintEnv).headD.hash mintEnv.sha := rfl
  rw [own,setupHead]
  rfl

theorem mintHead : mintChain.head = mintBlock.hash mintEnv.sha ∧ mintChain.headState = mintState := by
  have sound : Sound mintEnv acceptNonEmptySig (mintSetup.chain mintEnv) := setupSound _
  have heavier : (mintSetup.chain mintEnv).outweighs mintEnv mintBlock 1 := by
    have weight : (mintSetup.chain mintEnv).td (mintSetup.chain mintEnv).head = 1 := if_pos rfl
    rw [outweighsIff sound.headStored mintAccepted.fresh,mintParent,weight]
    decide
  rw [mintChain,Chain.commitHead,Chain.commitHeadState,if_pos heavier,if_pos heavier]
  exact ⟨rfl,rfl⟩

theorem mintRepresents : ∃ slots, Mpt.Represents mintEnv.sha [] mintDB mintState slots := by
  have trusts := mintTrusted
  unfold mintDB at trusts ⊢
  have new : Mpt.Represents mintSha [] Mpt.new .empty (fun _ => .empty) := Mpt.newRepresents
  have own := new.reads (trusts.earlier (Mpt.setAccountExtends new.levels.addressed ..).grows).nodes (account 3)
  have names : Mpt.Names mintSha [] Mpt.new ⟨blockReward,0,0,0⟩ [] (fun _ => 0) .empty :=
    ⟨rfl,fun some => absurd rfl some,own.root,own.holds⟩
  have after := new.setAccount names trusts.nodes
  have state : (⟨Mpt.writeUnder mintSha Address.bytes (account 3) ⟨blockReward,0,[],fun _ => 0⟩ MptState.empty.accounts⟩ :
      MptState) = mintState := by
    refine MptState.ext' (fun b => ?_)
    have keys : mintSha (Address.bytes b) = mintSha (Address.bytes (account 3)) ↔ b = account 3 :=
      ⟨mintAddresses,fun same => by rw [same]⟩
    simp only [Mpt.writeUnder,keys]
    rfl
  rw [← state]
  exact ⟨_,after⟩

def mintNode : Node :=
  Node.withChain mintConfig mintChain none none mintConfig.genesisAlloc mintConfig.genesisBaseAlloc

theorem mintStored : mintChain.headD = mintBlock := by
  have found : mintChain.getByHash (mintBlock.hash mintEnv.sha) = some mintBlock :=
    (commitFound mintAccepted.fresh _ _).mpr (.inr ⟨rfl,rfl⟩)
  rw [Chain.headD,Chain.headBlock,mintHead.1,found]
  rfl

theorem mintRooted : mintDB.root = mintEnv.stateRoot mintNode.chain.headState :=
  (by decide +kernel : mintDB.root = mintRoot)

theorem mintPath : mintChain.Path mintChain.head [mintBlock,mintSetup.genesis.toBlock mintEnv] := by
  have genesis := setupStart mintEnv mintSetup
  have own : mintBlock.header.prevHash = (mintSetup.chain mintEnv).genesisHash := mintParent
  rw [← own] at genesis
  have sound : Sound mintEnv acceptNonEmptySig (mintSetup.chain mintEnv) := setupSound _
  rw [mintHead.1]
  exact commitPath sound mintAccepted.fresh genesis

theorem mintOnward : mintNode.chain = (mintSetup.chain mintEnv).feed mintEnv acceptNonEmptySig ([mintBlock] ++ []) :=
  mintFed.symm

theorem forgerBound : ∃ addr header ap,
    Checked mintSha (forger mintSha (account 1) ⟨100,0,0,0⟩ 1) (addressHex (account 1)) 100 1
      (hashHex (mintSha (forgedLeaf mintSha (account 1) ⟨100,0,0,0⟩))) addr header ap ∧
    ∀ (db : Mpt.MptDB) (st : MptState) (slots : Address → Patricia.Tree 16 Bytes),
      Mpt.Levels mintSha db.nodes db.root st slots → Trie.Collisionless mintSha db.nodes → Trie.Unforged mintSha db.nodes ap.proof →
      hashHex db.stateRoot = hashHex (mintSha (forgedLeaf mintSha (account 1) ⟨100,0,0,0⟩)) →
      100 = (st.accounts addr).balance :=
  balanceBound (forgedPrinted mintSha (account 1) ⟨100,0,0,0⟩ 1)

end Devnet
end L1Chain
