import L1Chain.Rpc
import L1Chain.ExchangeQuery
import L1Chain.MptRoots
import L1Chain.OwnBlocks

/-! rpc/server.go: the wire forms of headers, blocks and proofs, and the dispatch of requests
to a node. A parameter is what encoding/json makes of it. Proofs are read from the tries
behind the node's head state; a request other than sendRawTx only reads. -/
namespace L1Chain.Rpc
open Transition Runs

inductive WireErr where
  | hex (e : HexErr)
  -- "hash must be 32 bytes, got %d"
  | hashLength (got : Nat)
  -- "<name>: <cause>"
  | field (name : String) (cause : WireErr)
  -- "proof[%d]: <cause>"
  | node (i : Nat) (cause : WireErr)
  -- "tx %d: <cause>"
  | tx (i : Nat) (cause : WireErr)
  deriving DecidableEq, Repr

def liftHex {α : Type} : Except HexErr α → Except WireErr α
  | .error e => .error (.hex e)
  | .ok a => .ok a

def liftField {α : Type} : Except FieldErr α → Except WireErr α
  | .error e => .error (.field e.field (.hex e.cause))
  | .ok a => .ok a

def under {α : Type} (wrap : WireErr → WireErr) : Except WireErr α → Except WireErr α
  | .error e => .error (wrap e)
  | .ok a => .ok a

def hashFromHex (s : Bytes) : Except WireErr Hash := do
  let b ← liftHex (hexBytes s)
  if b.length ≠ 32 then .error (.hashLength b.length) else .ok (Hash.ofBytes b)

def hashHex (h : Hash) : Bytes := encodeToString (Hash.bytes h)
def addressHex (a : Address) : Bytes := encodeToString (Address.bytes a)

structure HeaderJSON where
  height : UInt64
  prevHash : Bytes
  merkleRoot : Bytes
  stateRoot : Bytes
  coinbase : Bytes
  timestamp : Int64
  difficulty : UInt32
  nonce : UInt64
  baseFee : UInt64
  gasUsed : UInt64
  proposerSig : Bytes
  deriving DecidableEq

structure BlockJSON where
  header : HeaderJSON
  hash : Bytes
  txs : List TxJSON
  deriving DecidableEq

structure AccountJSON where
  balance : UInt64
  nonce : UInt64
  codeHash : Bytes
  storageRoot : Bytes
  deriving DecidableEq

structure AccountProofJSON where
  account : AccountJSON
  proof : List Bytes
  deriving DecidableEq

structure StorageProofJSON where
  accountProof : AccountProofJSON
  slotProof : List Bytes
  value : Bytes
  deriving DecidableEq

def accountToJSON (a : Mpt.Account) : AccountJSON := ⟨a.balance,a.nonce,hashHex a.codeHash,hashHex a.storageRoot⟩

def proofToJSON (p : Trie.Proof) : List Bytes := p.map encodeToString

def accountProofToJSON (ap : Mpt.AccountProof) : AccountProofJSON := ⟨accountToJSON ap.account,proofToJSON ap.proof⟩

def storageProofToJSON (sp : Mpt.StorageProof) : StorageProofJSON :=
  ⟨accountProofToJSON sp.accountProof,proofToJSON sp.slotProof,hashHex sp.value⟩

def accountFromJSON (j : AccountJSON) : Except WireErr Mpt.Account := do
  let codeHash ← under (.field "codeHash") (hashFromHex j.codeHash)
  let storageRoot ← under (.field "storageRoot") (hashFromHex j.storageRoot)
  .ok ⟨j.balance,j.nonce,codeHash,storageRoot⟩

def readFrom {α β : Type} (place : Nat → WireErr → WireErr) (read : α → Except WireErr β) : Nat → List α →
    Except WireErr (List β)
  | _, [] => .ok []
  | i, x::rest => do
    let y ← under (place i) (read x)
    let ys ← readFrom place read (i + 1) rest
    .ok (y::ys)

def proofFromJSON (j : List Bytes) : Except WireErr Trie.Proof := readFrom .node (fun s => liftHex (hexBytes s)) 0 j

def accountProofFromJSON (j : AccountProofJSON) : Except WireErr Mpt.AccountProof := do
  let acct ← accountFromJSON j.account
  let proof ← proofFromJSON j.proof
  .ok ⟨acct,proof⟩

def storageProofFromJSON (j : StorageProofJSON) : Except WireErr Mpt.StorageProof := do
  let ap ← accountProofFromJSON j.accountProof
  let slotProof ← proofFromJSON j.slotProof
  let value ← under (.field "value") (hashFromHex j.value)
  .ok ⟨ap,slotProof,value⟩

def headerToJSON (h : Header) : HeaderJSON where
  height := h.height
  prevHash := hashHex h.prevHash
  merkleRoot := hashHex h.merkleRoot
  stateRoot := hashHex h.stateRoot
  coinbase := addressHex h.coinbase
  timestamp := h.timestamp
  difficulty := h.difficulty
  nonce := h.nonce
  baseFee := h.baseFee
  gasUsed := h.gasUsed
  proposerSig := encodeToString h.proposerSig

def blockToJSON (sha : Bytes → Hash) (b : Block) : BlockJSON :=
  ⟨headerToJSON b.header,hashHex (b.hash sha),b.txs.map (txToJSON sha)⟩

def headerFromJSON (j : HeaderJSON) : Except WireErr Header := do
  let prevHash ← under (.field "prevHash") (hashFromHex j.prevHash)
  let merkleRoot ← under (.field "merkleRoot") (hashFromHex j.merkleRoot)
  let stateRoot ← under (.field "stateRoot") (hashFromHex j.stateRoot)
  let coinbase ← under (.field "coinbase") (liftHex (addressFromHex j.coinbase))
  let proposerSig ← under (.field "proposerSig") (liftHex (hexBytes j.proposerSig))
  .ok ⟨j.height,prevHash,merkleRoot,stateRoot,coinbase,j.timestamp,j.difficulty,j.nonce,j.baseFee,j.gasUsed,proposerSig⟩

def blockFromJSON (j : BlockJSON) : Except WireErr Block := do
  let header ← headerFromJSON j.header
  let txs ← readFrom .tx (fun t => liftField (txFromJSON t)) 0 j.txs
  .ok ⟨header,txs⟩

-- A missing or null member of an object leaves the zero value.
def TxJSON.zero : TxJSON := ⟨[],[],0,0,0,0,0,0,[],[],[]⟩

/- A positional parameter: null decodes into the zero value of anything; `other` is a value
that encoding/json puts into none of the types below. -/
inductive Param where
  | null
  | number (n : UInt64)
  | text (s : Bytes)
  | tx (j : TxJSON)
  | other

def Param.uint64 : Param → Option UInt64
  | .null => some 0
  | .number n => some n
  | _ => none

def Param.string : Param → Option Bytes
  | .null => some []
  | .text s => some s
  | _ => none

def Param.txJSON : Param → Option TxJSON
  | .null => some .zero
  | .tx j => some j
  | _ => none

structure Request where
  method : String
  params : List Param

inductive Cause where
  -- "missing param at index %d"
  | missingParam (i : Nat)
  | json
  | wire (e : WireErr)
  | node (e : NodeErr)
  | exchange (e : Exchange.ExchangeErr)
  -- "unknown method: <name>"
  | unknownMethod (name : String)
  deriving DecidableEq

structure RPCError where
  code : Int
  message : Cause
  deriving DecidableEq

def codeMethodNotFound : Int := -32601
def codeInvalidParams : Int := -32602
def codeInternalError : Int := -32603

inductive Result where
  | null
  | chainHead (height : UInt64) (hash : Bytes)
  | block (b : BlockJSON)
  | balance (n : UInt64)
  | txHash (hash : Bytes)
  | tx (t : TxJSON)
  | depth (bids asks : List Exchange.Level)
  | orders (views : List (UInt64 × UInt32 × Bytes × Exchange.Side × Int64 × Int64))
  | auction (price volume : Int64) (height : UInt64)
  | exchangeBalance (base lockedBase lockedQuote : UInt64)
  | accountProof (height : UInt64) (stateRoot : Bytes) (proof : AccountProofJSON)
  | storageProof (height : UInt64) (stateRoot : Bytes) (proof : StorageProofJSON)

def decodeParam {α : Type} (params : List Param) (i : Nat) (dst : Param → Option α) : Except RPCError α :=
  match params[i]? with
  | none => .error ⟨codeInvalidParams,.missingParam i⟩
  | some p =>
    match dst p with
    | none => .error ⟨codeInvalidParams,.json⟩
    | some a => .ok a

def readWire {α : Type} : Except WireErr α → Except RPCError α
  | .error e => .error ⟨codeInvalidParams,.wire e⟩
  | .ok a => .ok a

def readExchange {α : Type} : Except Exchange.ExchangeErr α → Except RPCError α
  | .error e => .error ⟨codeInternalError,.exchange e⟩
  | .ok a => .ok a

def addressParam (params : List Param) (i : Nat) : Except RPCError Address := do
  let addrHex ← decodeParam params i Param.string
  readWire (liftHex (addressFromHex addrHex))

section
variable {E : Type} (env : Env E) (verifySig : VerifySig) (db : Mpt.MptDB) (n : Node)

def accountProof (a : Address) : Option (Mpt.AccountProof × UInt64 × Hash) :=
  (db.accountProof env.sha a).map (fun ap => (ap,n.chain.headD.header.height,n.chain.headD.header.stateRoot))

def storageProof (a : Address) (key : Hash) : Option (Mpt.StorageProof × UInt64 × Hash) :=
  (db.storageProof env.sha a key).map (fun sp => (sp,n.chain.headD.header.height,n.chain.headD.header.stateRoot))

def query (req : Request) : Except RPCError Result :=
  match req.method with
  | "getChainHead" => .ok (.chainHead n.chain.headD.header.height (hashHex (n.chain.headD.hash env.sha)))
  | "getBlockByHeight" => do
    let height ← decodeParam req.params 0 Param.uint64
    match n.chain.getByHeight height with
    | none => .ok .null
    | some b => .ok (.block (blockToJSON env.sha b))
  | "getBalance" => do
    let addr ← addressParam req.params 0
    .ok (.balance (n.chain.headState.accounts addr).balance)
  | "getTxByHash" => do
    let hashHex ← decodeParam req.params 0 Param.string
    let h ← readWire (hashFromHex hashHex)
    match n.getTxByHash env.sha h with
    | none => .ok .null
    | some tx => .ok (.tx (txToJSON env.sha tx))
  | "getOrderBookDepth" => do
    let (bids,asks) ← readExchange (Exchange.Depth env.engine n.chain.headState)
    .ok (.depth bids asks)
  | "getOrderBook" => do
    let views ← readExchange (Exchange.Snapshot env.engine n.chain.headState)
    .ok (.orders (views.map fun v => (v.height,v.index,addressHex v.account,v.side,v.price,v.qty)))
  | "getLastAuction" =>
    match Exchange.lastAuction n.chain.headState with
    | none => .ok .null
    | some (price,volume,height) => .ok (.auction price volume height)
  | "getExchangeBalance" => do
    let addr ← addressParam req.params 0
    let (base,lockedBase) := Exchange.baseOf n.chain.headState addr
    .ok (.exchangeBalance base lockedBase (Exchange.lockedQuoteOf n.chain.headState addr))
  | "getAccountProof" => do
    let addr ← addressParam req.params 0
    match accountProof env db n addr with
    | none => .ok .null
    | some (ap,height,root) => .ok (.accountProof height (hashHex root) (accountProofToJSON ap))
  | "getStorageProof" => do
    let addrHex ← decodeParam req.params 0 Param.string
    let keyHex ← decodeParam req.params 1 Param.string
    let addr ← readWire (liftHex (addressFromHex addrHex))
    let key ← readWire (hashFromHex keyHex)
    match storageProof env db n addr key with
    | none => .ok .null
    | some (sp,height,root) => .ok (.storageProof height (hashHex root) (storageProofToJSON sp))
  | name => .error ⟨codeMethodNotFound,.unknownMethod name⟩

def sendRawTx (params : List Param) : Except RPCError Result × Node :=
  match decodeParam params 0 Param.txJSON with
  | .error e => (.error e,n)
  | .ok txj =>
    match liftField (txFromJSON txj) with
    | .error e => (.error ⟨codeInvalidParams,.wire e⟩,n)
    | .ok tx =>
      match n.submitTx verifySig tx with
      | (.error e,n) => (.error ⟨codeInvalidParams,.node e⟩,n)
      | (.ok (),n) => (.ok (.txHash (hashHex (tx.hash env.sha))),n)

def dispatch (req : Request) : Except RPCError Result × Node :=
  if req.method = "sendRawTx" then sendRawTx env verifySig n req.params else (query env db n req,n)

end

section
variable {sha : Bytes → Hash} {α β : Type} {e : WireErr}

theorem hashRead {s bs : Bytes} (read : hexBytes s = .ok bs) (size : bs.length = 32) : hashFromHex s = .ok (Hash.ofBytes bs) := by
  rw [hashFromHex,read]
  change (if bs.length ≠ 32 then _ else _) = _
  rw [if_neg (not_not_intro size)]

theorem hexRead (bs : Bytes) : hexBytes (encodeToString bs) = .ok bs := hexBytesText bs

@[simp] theorem hashHexRead (h : Hash) : hashFromHex (hashHex h) = .ok h := by
  rw [hashHex,hashRead (hexRead _) (hashBytesLength h),ofBytesBytes]

@[simp] theorem addressHexRead (a : Address) : addressFromHex (addressHex a) = .ok a := by
  rw [addressHex,addressSpelled (hexRead _) (addressBytesLength a)]
  exact congrArg _ (addressBytesInjective (addressOfBytes (addressBytesLength a)))

theorem listRead {place : Nat → WireErr → WireErr} {read : α → Except WireErr β} {enc : β → α}
    (each : ∀ y, read (enc y) = .ok y) (ys : List β) (i : Nat) : readFrom place read i (ys.map enc) = .ok ys := by
  induction ys generalizing i with
  | nil => rfl
  | cons y ys ih =>
    rw [List.map_cons,readFrom,each,ih]
    rfl

theorem proofFromToJSON (p : Trie.Proof) : proofFromJSON (proofToJSON p) = .ok p := by
  refine listRead (fun bs => ?_) p 0
  rw [hexRead]
  rfl

theorem accountProofFromToJSON (ap : Mpt.AccountProof) : accountProofFromJSON (accountProofToJSON ap) = .ok ap := by
  rw [accountProofFromJSON,accountProofToJSON,accountFromJSON,accountToJSON]
  dsimp only
  rw [hashHexRead,hashHexRead,proofFromToJSON]
  rfl

theorem storageProofFromToJSON (sp : Mpt.StorageProof) : storageProofFromJSON (storageProofToJSON sp) = .ok sp := by
  rw [storageProofFromJSON,storageProofToJSON]
  dsimp only
  rw [accountProofFromToJSON,proofFromToJSON,hashHexRead]
  rfl

theorem headerFromToJSON (h : Header) : headerFromJSON (headerToJSON h) = .ok h := by
  rw [headerFromJSON,headerToJSON]
  dsimp only
  rw [hashHexRead,hashHexRead,hashHexRead,addressHexRead,hexRead]
  rfl

theorem blockFromToJSON (b : Block) : blockFromJSON (blockToJSON sha b) = .ok b := by
  have txs : readFrom .tx (fun t => liftField (txFromJSON t)) 0 (b.txs.map (txToJSON sha)) = .ok b.txs := by
    refine listRead (fun tx => ?_) b.txs 0
    rw [txFromToJSON]
    rfl
  rw [blockFromJSON,blockToJSON]
  dsimp only
  rw [headerFromToJSON,txs]
  rfl

theorem listError {place : Nat → WireErr → WireErr} {read : α → Except WireErr β} {xs : List α} {i : Nat}
    (failed : readFrom place read i xs = .error e) : ∃ k x cause, xs[k]? = some x ∧ read x = .error cause ∧
      e = place (i + k) cause ∧ ∀ l < k, ∀ y, xs[l]? = some y → ∃ z, read y = .ok z := by
  induction xs generalizing i with
  | nil => cases failed
  | cons x xs ih =>
    rw [readFrom] at failed
    cases first : read x with
    | error cause =>
      rw [first] at failed
      cases failed
      exact ⟨0,x,cause,rfl,first,rfl,fun l below => absurd below (Nat.not_lt_zero l)⟩
    | ok y =>
      rw [first] at failed
      rcases bindError.mp failed with impossible | ⟨_,same,later⟩
      · cases impossible
      · rcases bindError.mp later with rest | ⟨_,_,done⟩
        · obtain ⟨k,x',cause,at',unread,named,before⟩ := ih rest
          refine ⟨k + 1,x',cause,at',unread,by rw [named,Nat.add_right_comm,Nat.add_assoc],fun l below z found => ?_⟩
          cases l with
          | zero =>
            obtain rfl := Option.some.inj found
            exact ⟨y,first⟩
          | succ l => exact before l (Nat.lt_of_succ_lt_succ below) z found
        · cases done

def headerFields : List String := ["prevHash","merkleRoot","stateRoot","coinbase","proposerSig"]

theorem fieldError {name : String} {x : Except WireErr α} (failed : under (.field name) x = .error e) :
    ∃ cause, e = .field name cause := by
  cases x with
  | error cause =>
    cases failed
    exact ⟨cause,rfl⟩
  | ok a => cases failed

theorem headerError {j : HeaderJSON} (failed : headerFromJSON j = .error e) :
    ∃ name ∈ headerFields, ∃ cause, e = .field name cause := by
  unfold headerFromJSON at failed
  rcases bindError.mp failed with first | ⟨_,_,failed⟩
  · exact ⟨_,by simp [headerFields],fieldError first⟩
  rcases bindError.mp failed with first | ⟨_,_,failed⟩
  · exact ⟨_,by simp [headerFields],fieldError first⟩
  rcases bindError.mp failed with first | ⟨_,_,failed⟩
  · exact ⟨_,by simp [headerFields],fieldError first⟩
  rcases bindError.mp failed with first | ⟨_,_,failed⟩
  · exact ⟨_,by simp [headerFields],fieldError first⟩
  rcases bindError.mp failed with first | ⟨_,_,failed⟩
  · exact ⟨_,by simp [headerFields],fieldError first⟩
  cases failed

/- What the server sends of a block or of a proof is read back whole; and a block that cannot be
read is refused for a field of its header or, the header being readable, for the first of its
transactions that is not. -/
theorem wireFaithful (sha : Bytes → Hash) : (∀ b, blockFromJSON (blockToJSON sha b) = .ok b) ∧
    (∀ ap, accountProofFromJSON (accountProofToJSON ap) = .ok ap) ∧
    (∀ sp, storageProofFromJSON (storageProofToJSON sp) = .ok sp) ∧
    ∀ j e, blockFromJSON j = .error e →
      (∃ name ∈ headerFields, ∃ cause, e = .field name cause) ∨
      (∃ h, headerFromJSON j.header = .ok h) ∧ ∃ i tx cause, j.txs[i]? = some tx ∧ txFromJSON tx = .error cause ∧
        e = .tx i (.field cause.field (.hex cause.cause)) ∧
        ∀ l < i, ∀ t, j.txs[l]? = some t → ∃ tx, txFromJSON t = .ok tx := by
  refine ⟨blockFromToJSON,accountProofFromToJSON,storageProofFromToJSON,fun j e failed => ?_⟩
  unfold blockFromJSON at failed
  rcases bindError.mp failed with header | ⟨h,header,later⟩
  · exact .inl (headerError header)
  · rcases bindError.mp later with txs | ⟨_,_,done⟩
    · obtain ⟨i,tx,cause,at',unread,named,before⟩ := listError txs
      have lifted {t : TxJSON} {y : Transaction} (read : liftField (txFromJSON t) = .ok y) : txFromJSON t = .ok y := by
        cases own : txFromJSON t with
        | error f =>
          rw [own] at read
          cases read
        | ok tx =>
          rw [own] at read
          cases read
          rfl
      cases own : txFromJSON tx with
      | ok y =>
        rw [own] at unread
        cases unread
      | error f =>
        rw [own] at unread
        cases unread
        rw [Nat.zero_add] at named
        refine .inr ⟨⟨h,header⟩,i,tx,f,at',own,named,fun l below t found => ?_⟩
        obtain ⟨y,read⟩ := before l below t found
        exact ⟨y,lifted read⟩
    · cases done

end

section
variable {E : Type} {env : Env E} {verifySig : VerifySig} {db : Mpt.MptDB} {n : Node} {req : Request}

theorem dispatchQuery (other : req.method ≠ "sendRawTx") : (dispatch env verifySig db n req).1 = query env db n req := by
  rw [dispatch,if_neg other]

theorem queryBlock (params : List Param) : query env db n ⟨"getBlockByHeight",params⟩ = (do
    let height ← decodeParam params 0 Param.uint64
    match n.chain.getByHeight height with
    | none => .ok .null
    | some b => .ok (.block (blockToJSON env.sha b))) := by
  unfold query
  rfl

theorem queryAccountProof (params : List Param) : query env db n ⟨"getAccountProof",params⟩ = (do
    let addr ← addressParam params 0
    match accountProof env db n addr with
    | none => .ok .null
    | some (ap,height,root) => .ok (.accountProof height (hashHex root) (accountProofToJSON ap))) := by
  unfold query
  rfl

def Request.Submits (req : Request) (tx : Transaction) : Prop :=
  req.method = "sendRawTx" ∧ ∃ p j, req.params[0]? = some p ∧ p.txJSON = some j ∧ txFromJSON j = .ok tx

theorem dispatched (env : Env E) (verifySig : VerifySig) (db : Mpt.MptDB) (n : Node) (req : Request) :
    (dispatch env verifySig db n req).2 = n ∨ ∃ tx, req.Submits tx ∧ Admitted verifySig n tx ∧
      dispatch env verifySig db n req = (.ok (.txHash (hashHex (tx.hash env.sha))),n.pool tx) := by
  unfold dispatch
  by_cases method : req.method = "sendRawTx"
  · rw [if_pos method]
    unfold sendRawTx
    cases decoded : decodeParam req.params 0 Param.txJSON with
    | error e => exact .inl rfl
    | ok j =>
      dsimp only
      cases read : txFromJSON j with
      | error e => exact .inl rfl
      | ok tx =>
        rw [liftField]
        dsimp only
        rcases submitTxCases verifySig n tx with same | ⟨admitted,_⟩
        · refine .inl ?_
          split <;> rename_i ran <;> rw [ran] at same <;> exact same
        · rw [submitTxOk admitted]
          refine .inr ⟨tx,⟨method,?_⟩,admitted,rfl⟩
          unfold decodeParam at decoded
          split at decoded
          · cases decoded
          · rename_i p first
            split at decoded
            · cases decoded
            · rename_i j' found
              cases decoded
              exact ⟨p,j,first,found,read⟩
  · rw [if_neg method]
    exact .inl rfl

/- Whatever a client sends, the chain, the store and the configuration of the node stay; the pool
gets the transactions of some of its requests, in the order of the requests, each signed and for
this chain, and never more of them than it has room for. -/
theorem requestsOnlySubmit (env : Env E) (verifySig : VerifySig) (db : Mpt.MptDB) (n : Node) (reqs : List Request) :
    ∃ sends taken, sends.Sublist reqs ∧ List.Forall₂ Request.Submits sends taken ∧
      reqs.foldl (fun n req => (dispatch env verifySig db n req).2) n = {n with mempool := n.mempool ++ taken} ∧
      (n.mempool.length ≤ n.maxMempool → (n.mempool ++ taken).length ≤ n.maxMempool) ∧
      ∀ tx ∈ taken, verifySig tx = true ∧ tx.chainID = n.chainID := by
  induction reqs generalizing n with
  | nil => exact ⟨[],[],List.Sublist.slnil,.nil,by simp,by simp,by simp⟩
  | cons req reqs ih =>
    rw [List.foldl_cons]
    rcases dispatched env verifySig db n req with same | ⟨tx,submits,admitted,grown⟩
    · rw [same]
      obtain ⟨sends,taken,among,paired,after,fits,each⟩ := ih n
      exact ⟨sends,taken,among.cons req,paired,after,fits,each⟩
    · rw [grown]
      obtain ⟨sends,taken,among,paired,after,fits,each⟩ := ih (n.pool tx)
      refine ⟨req::sends,tx::taken,among.cons_cons req,.cons submits paired,?_,fun _ => ?_,fun tx' member => ?_⟩
      · rw [after,Node.pool]
        simp only [List.append_assoc,List.singleton_append]
      · have bound := fits (by rw [Node.pool,List.length_append]; exact admitted.room)
        rw [Node.pool,List.append_assoc] at bound
        exact bound
      · rcases List.mem_cons.mp member with rfl | later
        · exact ⟨admitted.signed,admitted.chainID⟩
        · exact each tx' later

end
end L1Chain.Rpc
