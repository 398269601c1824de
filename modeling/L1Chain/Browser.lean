import L1Chain.Exchange
import L1Chain.Rpc
import L1Chain.Runs

/-! web/lib/sign.ts and web/lib/exchange.ts: what the browser signs and sends, and
that the node reads the same transaction and the same order. A `bigint` is an
integer and a string its characters; a decimal string stands for the integer it
denotes, as the JSON libraries carry it. @noble/secp256k1 is the parameter `Curve`. -/
namespace L1Chain.Browser
open Runs

inductive SignErr where
  -- "odd-length hex"
  | oddLengthHex
  -- "from must be 20 bytes"
  | fromLength
  -- "to must be 20 bytes"
  | toLength
  | curve
  deriving DecidableEq, Repr

-- What String.prototype.trim and parseInt skip.
def isSpace (c : Char) : Bool :=
  c.toNat ∈ [0x9,0xA,0xB,0xC,0xD,0x20,0xA0,0x1680,0x2028,0x2029,0x202F,0x205F,0x3000,0xFEFF] ∨
    0x2000 ≤ c.toNat ∧ c.toNat ≤ 0x200A

def unprefixed : Text → Text
  | '0' :: 'x' :: rest => rest
  | '0' :: 'X' :: rest => rest
  | s => s

def leadingDigits : Text → List Nat
  | [] => []
  | c::rest =>
    match Hex.value c.toNat with
    | none => []
    | some d => d::leadingDigits rest

def signed : Text → Bool × Text
  | '-'::rest => (true,rest)
  | '+'::rest => (false,rest)
  | s => (false,s)

/- `parseInt(s, 16)`: the digits up to the first character that is none, after white
space, a sign and a prefix; `none` is NaN. -/
def parseInt16 (s : Text) : Option Int :=
  let (negative,s) := signed (s.dropWhile isSpace)
  match leadingDigits (unprefixed s) with
  | [] => none
  | ds =>
    let n : Int := ds.foldl (fun acc d => 16 * acc + d) 0
    some (if negative then -n else n)

def element : Option Int → UInt8
  | none => 0
  | some v => UInt8.ofInt v

def parsePairs : Text → Bytes
  | a::b::rest => element (parseInt16 [a,b])::parsePairs rest
  | _ => []

def hexToBytes (h : Text) : Except SignErr Bytes :=
  let s := unprefixed h
  if s.length % 2 ≠ 0 then .error .oddLengthHex else .ok (parsePairs s)

def bytesToHex (b : Bytes) : Text := b.flatMap (fun x => (Nat.toDigits 16 x.toNat).leftpad 2 '0')

-- `v & 0xffn` into the last free byte, then `v >>= 8n`; both are floored for a negative `v`.
def bigEndian : Nat → Int → Bytes
  | 0, _ => []
  | i+1, v => bigEndian i (v / 256) ++ [UInt8.ofInt (v % 256)]

def u64be (n : Int) : Bytes := bigEndian 8 n

structure Signature where
  compact : BitVec 512
  recovery : Nat

-- `none` is a call that throws; `publicKey` is `getPublicKey(priv, false)`.
structure Curve where
  publicKey : Bytes → Option Bytes
  sign : Hash → Bytes → Option Signature

def orThrow {α : Type} : Option α → Except SignErr α
  | none => .error .curve
  | some a => .ok a

def addressFromPrivHex (curve : Curve) (sha : Bytes → Hash) (privHex : Text) : Except SignErr Text := do
  let priv ← hexToBytes privHex
  let uncompressed ← orThrow (curve.publicKey priv)
  let digest := Hash.bytes (sha (uncompressed.drop 1))
  .ok (bytesToHex (digest.drop (digest.length - 20)))

def chainID : Int := 1337

structure UnsignedTx where
  recipient : Text
  value : Int
  nonce : Int
  gasLimit : Int
  chainId : Option Int
  gasFeeCap : Option Int
  gasTipCap : Option Int
  data : Option Bytes

def UnsignedTx.parts (tx : UnsignedTx) (sender recipient : Bytes) : List Bytes :=
  [sender,recipient,u64be tx.value,u64be tx.nonce,u64be tx.gasLimit,u64be (tx.chainId.getD chainID),
    u64be (tx.gasFeeCap.getD 0),u64be (tx.gasTipCap.getD 0),tx.data.getD []]

def signingPreimage (sender : Bytes) (tx : UnsignedTx) : Except SignErr Bytes := do
  let recipient ← hexToBytes tx.recipient
  if sender.length ≠ 20 then .error .fromLength
  else if recipient.length ≠ 20 then .error .toLength
  else .ok (tx.parts sender recipient).flatten

structure TxJSON where
  sender : Text
  recipient : Text
  value : Int
  nonce : Int
  gasLimit : Int
  chainId : Int
  gasFeeCap : Int
  gasTipCap : Int
  data : Text
  signature : Text
  hash : Text

-- 65 bytes: the recovery byte of a compressed key, then R and S.
def Signature.bytes (sig : Signature) : Bytes :=
  UInt8.ofNat (27 + sig.recovery + 4)::beBytes 64 sig.compact.toNat

def UnsignedTx.json (tx : UnsignedTx) (fromHex : Text) (sig : Signature) : TxJSON where
  sender := fromHex
  recipient := tx.recipient
  value := tx.value
  nonce := tx.nonce
  gasLimit := tx.gasLimit
  chainId := tx.chainId.getD chainID
  gasFeeCap := tx.gasFeeCap.getD 0
  gasTipCap := tx.gasTipCap.getD 0
  data := bytesToHex (tx.data.getD [])
  signature := bytesToHex sig.bytes
  hash := []

def signTx (curve : Curve) (sha : Bytes → Hash) (privHex : Text) (tx : UnsignedTx) : Except SignErr TxJSON := do
  let priv ← hexToBytes privHex
  let fromHex ← addressFromPrivHex curve sha privHex
  let sender ← hexToBytes fromHex
  let preimage ← signingPreimage sender tx
  let sig ← orThrow (curve.sign (sha preimage) priv)
  .ok (tx.json fromHex sig)

-- encoding/json on a decimal string for a `uint64`.
def uint64 (v : Int) : Option UInt64 :=
  if 0 ≤ v ∧ v < 2 ^ 64 then some (UInt64.ofNat v.toNat) else none

def TxJSON.received (j : TxJSON) : Option Rpc.TxJSON := do
  let value ← uint64 j.value
  let nonce ← uint64 j.nonce
  let gasLimit ← uint64 j.gasLimit
  let chainID ← uint64 j.chainId
  let gasFeeCap ← uint64 j.gasFeeCap
  let gasTipCap ← uint64 j.gasTipCap
  some ⟨Rpc.utf8 j.sender,Rpc.utf8 j.recipient,value,nonce,gasLimit,chainID,gasFeeCap,gasTipCap,
    Rpc.utf8 j.data,Rpc.utf8 j.signature,Rpc.utf8 j.hash⟩

def encodePlace (side : Exchange.Side) (price qty : Int) : Text :=
  bytesToHex (1::(if side = .sell then 1 else 0)::(u64be price ++ u64be qty))

-- `>>>` reads a number as a 32-bit word.
def encodeCancel (height index : Int) : Text :=
  let word := index % 2 ^ 32
  bytesToHex (2::(u64be height ++ [UInt8.ofInt (word / 2 ^ 24 % 256),UInt8.ofInt (word / 2 ^ 16 % 256),
    UInt8.ofInt (word / 2 ^ 8 % 256),UInt8.ofInt (index % 256)]))

theorem lowerDigit {d : Nat} (small : d < 16) : d.digitChar = Hex.lower d := by
  have every : ∀ i : Fin 16, i.val.digitChar = Hex.lower i.val := by decide
  exact every ⟨d,small⟩

theorem paddedDigits {x : Nat} (small : x < 256) :
    (Nat.toDigits 16 x).leftpad 2 '0' = [Hex.lower (x / 16),Hex.lower (x % 16)] := by
  rcases Nat.lt_or_ge x 16 with short | long
  · rw [Nat.toDigits_of_lt_base short,lowerDigit short,Nat.div_eq_of_lt short,Nat.mod_eq_of_lt short]
    rfl
  · have high : x / 16 < 16 := by omega
    rw [Nat.toDigits_of_base_le (by decide) long,Nat.toDigits_of_lt_base high,lowerDigit high,
      lowerDigit (Nat.mod_lt x (by decide))]
    rfl

theorem bytesToHexText (bs : Bytes) : bytesToHex bs = Hex.text bs := by
  unfold bytesToHex Hex.text
  exact congrArg (bs.flatMap ·) (funext (fun x => paddedDigits x.toNat_lt))

theorem unprefixedDigits {a b : Char} {d : Nat} (digit : Hex.value b.toNat = some d) (rest : Text) :
    unprefixed (a::b::rest) = a::b::rest := by
  unfold unprefixed
  split
  · rename_i same
    cases same
    cases digit
  · rename_i same
    cases same
    cases digit
  · rfl

theorem parseIntDigits {a b : Char} {high low : Nat} (first : Hex.value a.toNat = some high)
    (second : Hex.value b.toNat = some low) : parseInt16 [a,b] = some (16 * high + low : Nat) := by
  have solid : isSpace a = false := by
    obtain ⟨-,least,most⟩ := Hex.valueBound first
    rw [isSpace,decide_eq_false_iff_not]
    simp only [List.mem_cons,List.not_mem_nil,or_false]
    omega
  have plain : signed [a,b] = (false,[a,b]) := by
    unfold signed
    split
    · rename_i same
      cases same
      cases first
    · rename_i same
      cases same
      cases first
    · rfl
  have start : List.dropWhile isSpace [a,b] = [a,b] := by simp [List.dropWhile,solid]
  rw [parseInt16,start,plain]
  dsimp only
  rw [unprefixedDigits second]
  simp [leadingDigits,first,second]

theorem ofIntNat (n : Nat) : UInt8.ofInt n = UInt8.ofNat n := by
  have byte : ((n : Int) % (2 ^ 8 : Nat)).toNat = n % 256 := by omega
  rw [UInt8.ofInt]
  change UInt8.ofNat ((n : Int) % (2 ^ 8 : Nat)).toNat = _
  rw [byte]
  exact UInt8.ofNat_mod_size

theorem parsePairsSpelled {digits : Text} {bs : Bytes} (spells : Hex.Spells digits bs) : parsePairs digits = bs := by
  induction spells with
  | nil => rfl
  | cons first second tail ih =>
    rw [parsePairs,parseIntDigits first second,ih]
    exact congrArg (·::_) (ofIntNat _)

theorem hexToBytesUnprefixed {h digits : Text} {bs : Bytes} (stripped : unprefixed h = digits)
    (spells : Hex.Spells digits bs) : hexToBytes h = .ok bs := by
  have even : digits.length % 2 = 0 := by
    rw [Hex.spelledLength spells]
    omega
  rw [hexToBytes,stripped,if_neg (not_not_intro even),parsePairsSpelled spells]

theorem unprefixedSpelled {digits : Text} {bs : Bytes} (spells : Hex.Spells digits bs) :
    unprefixed digits = digits := by
  cases spells with
  | nil => rfl
  | cons first second tail => exact unprefixedDigits second _

theorem hexToBytesSpelled {digits : Text} {bs : Bytes} (spells : Hex.Spells digits bs) : hexToBytes digits = .ok bs :=
  hexToBytesUnprefixed (unprefixedSpelled spells) spells

theorem hexToBytesToHex (bs : Bytes) : hexToBytes (bytesToHex bs) = .ok bs := by
  rw [bytesToHexText]
  exact hexToBytesSpelled (Hex.textSpells bs)

theorem hexBytesToHex (bs : Bytes) : Rpc.hexBytes (Rpc.utf8 (bytesToHex bs)) = .ok bs := by
  rw [bytesToHexText]
  exact Rpc.hexBytesText bs

theorem bigEndianNat (width n : Nat) : bigEndian width n = beBytes width n := by
  induction width generalizing n with
  | zero => rfl
  | succ width ih =>
    have high : (n : Int) / 256 = (n / 256 : Nat) := by omega
    have low : (n : Int) % 256 = (n % 256 : Nat) := by omega
    rw [bigEndian,beBytes,high,low,ih,ofIntNat]
    exact congrArg (_ ++ [·]) UInt8.ofNat_mod_size

def Word64 (v : Int) : Prop := 0 ≤ v ∧ v < 2 ^ 64

instance (v : Int) : Decidable (Word64 v) := inferInstanceAs (Decidable (_ ∧ _))

theorem uint64Word {v : Int} (fits : Word64 v) : ∃ w : UInt64, uint64 v = some w ∧ u64be v = be64 w ∧ (w.toNat : Int) = v := by
  obtain ⟨nonneg,small⟩ := fits
  have value : (UInt64.ofNat v.toNat).toNat = v.toNat := by
    rw [UInt64.toNat_ofNat']
    exact Nat.mod_eq_of_lt (by omega)
  refine ⟨UInt64.ofNat v.toNat,if_pos ⟨nonneg,small⟩,?_,by omega⟩
  rw [u64be,be64,value,← bigEndianNat,Int.toNat_of_nonneg nonneg]

def HexAddress (s : Text) : Prop :=
  ∃ digits : Text, digits.length = 40 ∧ (∀ c ∈ digits, Hex.IsDigit c) ∧
    (s = digits ∨ s = '0' :: 'x' :: digits ∨ s = '0' :: 'X' :: digits)

structure UnsignedTx.Sendable (tx : UnsignedTx) : Prop where
  recipient : HexAddress tx.recipient
  value : Word64 tx.value
  nonce : Word64 tx.nonce
  gasLimit : Word64 tx.gasLimit
  chainId : ∀ v ∈ tx.chainId, Word64 v
  gasFeeCap : ∀ v ∈ tx.gasFeeCap, Word64 v
  gasTipCap : ∀ v ∈ tx.gasTipCap, Word64 v

def Accepts (curve : Curve) (privHex : Text) : Prop :=
  ∃ priv pub, hexToBytes privHex = .ok priv ∧ curve.publicKey priv = some pub ∧ ∀ h, ∃ sig, curve.sign h priv = some sig

theorem addressRead {s : Text} (address : HexAddress s) :
    ∃ bs : Bytes, bs.length = 20 ∧ hexToBytes s = .ok bs ∧ Rpc.hexBytes (Rpc.utf8 s) = .ok bs := by
  obtain ⟨digits,size,all,shape⟩ := address
  obtain ⟨bs,spells,length⟩ := Hex.spelled (n := 20) size all
  refine ⟨bs,length,?_⟩
  rcases shape with rfl | rfl | rfl
  · exact ⟨hexToBytesSpelled spells,Rpc.hexBytesSpelled spells⟩
  · exact ⟨hexToBytesUnprefixed rfl spells,Rpc.hexBytesUnprefixed rfl spells⟩
  · exact ⟨hexToBytesUnprefixed rfl spells,Rpc.hexBytesUnprefixed rfl spells⟩

theorem wordGetD {o : Option Int} {d : Int} (given : ∀ v ∈ o, Word64 v) (standard : Word64 d) : Word64 (o.getD d) := by
  cases o with
  | none => exact standard
  | some v => exact given v rfl

theorem orThrowOk {α : Type} {o : Option α} {a : α} : orThrow o = .ok a ↔ o = some a := by
  cases o <;> simp [orThrow]

theorem derivedAddress {curve : Curve} {sha : Bytes → Hash} {privHex fromHex : Text}
    (derived : addressFromPrivHex curve sha privHex = .ok fromHex) :
    ∃ sender : Bytes, sender.length = 20 ∧ fromHex = bytesToHex sender := by
  simp only [addressFromPrivHex,bindOk] at derived
  obtain ⟨priv,-,pub,-,done⟩ := derived
  exact ⟨_,by simp,(Except.ok.inj done).symm⟩

theorem signingPreimageOk {sender recipient : Bytes} {tx : UnsignedTx} (sized : sender.length = 20)
    (read : hexToBytes tx.recipient = .ok recipient) (size : recipient.length = 20) :
    signingPreimage sender tx = .ok (tx.parts sender recipient).flatten := by
  rw [signingPreimage,bindOk]
  exact ⟨recipient,read,by rw [if_neg (not_not_intro sized),if_neg (not_not_intro size)]⟩

theorem signTxAccepted {curve : Curve} {privHex : Text} {tx : UnsignedTx} (accepts : Accepts curve privHex)
    (sendable : tx.Sendable) (sha : Bytes → Hash) : ∃ j, signTx curve sha privHex tx = .ok j := by
  obtain ⟨priv,pub,key,known,signs⟩ := accepts
  obtain ⟨recipient,size,read,-⟩ := addressRead sendable.recipient
  have derived : ∃ fromHex, addressFromPrivHex curve sha privHex = .ok fromHex := by
    simp only [addressFromPrivHex,bindOk]
    exact ⟨_,priv,key,pub,orThrowOk.mpr known,rfl⟩
  obtain ⟨fromHex,derived⟩ := derived
  obtain ⟨sender,sized,rfl⟩ := derivedAddress derived
  obtain ⟨sig,made⟩ := signs (sha (tx.parts sender recipient).flatten)
  refine ⟨tx.json (bytesToHex sender) sig,?_⟩
  simp only [signTx,bindOk]
  exact ⟨priv,key,_,derived,sender,hexToBytesToHex sender,_,signingPreimageOk sized read size,sig,orThrowOk.mpr made,rfl⟩

theorem signTxParts {curve : Curve} {sha : Bytes → Hash} {privHex : Text} {tx : UnsignedTx} {j : TxJSON} {recipient : Bytes}
    (read : hexToBytes tx.recipient = .ok recipient) (size : recipient.length = 20)
    (done : signTx curve sha privHex tx = .ok j) :
    ∃ (sender priv : Bytes) (sig : Signature), sender.length = 20 ∧ hexToBytes privHex = .ok priv ∧
      curve.sign (sha (tx.parts sender recipient).flatten) priv = some sig ∧ j = tx.json (bytesToHex sender) sig := by
  simp only [signTx,bindOk] at done
  obtain ⟨priv,key,fromHex,derived,sender,parsed,preimage,hashed,sig,made,done⟩ := done
  cases done
  obtain ⟨bytes,sized,rfl⟩ := derivedAddress derived
  rw [hexToBytesToHex] at parsed
  obtain rfl := Except.ok.inj parsed
  rw [signingPreimageOk sized read size] at hashed
  obtain rfl := Except.ok.inj hashed
  exact ⟨_,priv,sig,sized,key,orThrowOk.mp made,rfl⟩

theorem jsonRead {tx : UnsignedTx} (sendable : tx.Sendable) {sender recipient : Bytes} (sized : sender.length = 20)
    (read : Rpc.hexBytes (Rpc.utf8 tx.recipient) = .ok recipient) (size : recipient.length = 20) (sig : Signature) :
    ∃ wire t, (tx.json (bytesToHex sender) sig).received = some wire ∧ Rpc.txFromJSON wire = .ok t ∧
      t.preimage false = (tx.parts sender recipient).flatten ∧ t.signature = sig.bytes := by
  obtain ⟨value,valueRead,valueBytes,-⟩ := uint64Word sendable.value
  obtain ⟨nonce,nonceRead,nonceBytes,-⟩ := uint64Word sendable.nonce
  obtain ⟨gas,gasRead,gasBytes,-⟩ := uint64Word sendable.gasLimit
  obtain ⟨chain,chainRead,chainBytes,-⟩ := uint64Word (wordGetD (d := chainID) sendable.chainId (by decide))
  obtain ⟨cap,capRead,capBytes,-⟩ := uint64Word (wordGetD (d := 0) sendable.gasFeeCap (by decide))
  obtain ⟨tip,tipRead,tipBytes,-⟩ := uint64Word (wordGetD (d := 0) sendable.gasTipCap (by decide))
  refine ⟨⟨Rpc.utf8 (bytesToHex sender),Rpc.utf8 tx.recipient,value,nonce,gas,chain,cap,tip,
    Rpc.utf8 (bytesToHex (tx.data.getD [])),Rpc.utf8 (bytesToHex sig.bytes),[]⟩,
    ⟨Address.ofBytes sender,Address.ofBytes recipient,value,nonce,gas,chain,cap,tip,tx.data.getD [],sig.bytes⟩,
    ?_,?_,?_,rfl⟩
  · simp only [TxJSON.received,UnsignedTx.json,valueRead,nonceRead,gasRead,chainRead,capRead,tipRead]
    rfl
  · simp only [Rpc.txFromJSON,Rpc.addressSpelled (hexBytesToHex sender) sized,Rpc.addressSpelled read size,hexBytesToHex]
    rfl
  · simp [Transaction.preimage,UnsignedTx.parts,addressOfBytes sized,addressOfBytes size,valueBytes,nonceBytes,
      gasBytes,chainBytes,capBytes,tipBytes]

theorem decodePlace (sender : Address) (side : Exchange.Side) (price qty : UInt64) :
    Exchange.decode sender (1::(if side = .sell then 1 else 0)::(be64 price ++ be64 qty)) =
      .ok (.place sender side price.toInt64 qty.toInt64) := by
  generalize flag : (if side = .sell then 1 else 0 : UInt8) = b
  have first : Exchange.slice (1::b::(be64 price ++ be64 qty)) 2 10 = be64 price := by
    simp [Exchange.slice]
  have second : Exchange.slice (1::b::(be64 price ++ be64 qty)) 10 18 = be64 qty := by
    simp [Exchange.slice,List.take_of_length_le]
  have size : (1::b::(be64 price ++ be64 qty)).length = 18 := by simp
  have op : (1 : UInt8) = Exchange.opPlace := rfl
  rw [Exchange.decode,if_pos op,if_neg (not_not_intro size),first,second,read64Be64,read64Be64]
  subst flag
  cases side with
  | buy => rfl
  | sell => rfl

theorem decodeCancel (sender : Address) (height : UInt64) (index : UInt32) :
    Exchange.decode sender (2::(be64 height ++ be32 index)) = .ok (.cancel sender ⟨height,index⟩) := by
  have first : Exchange.slice (2::(be64 height ++ be32 index)) 1 9 = be64 height := by
    simp [Exchange.slice]
  have second : Exchange.slice (2::(be64 height ++ be32 index)) 9 13 = be32 index := by
    simp [Exchange.slice,List.take_of_length_le]
  have size : (2::(be64 height ++ be32 index)).length = 13 := by simp
  have op : (2 : UInt8) = Exchange.opCancel := rfl
  rw [Exchange.decode,if_neg (by decide),if_pos op,if_neg (not_not_intro size),first,second,read64Be64,read32Be32]

theorem word63 {v : Int} (nonneg : 0 ≤ v) (small : v < 2 ^ 63) :
    ∃ w : UInt64, u64be v = be64 w ∧ w.toInt64.toInt = v := by
  obtain ⟨w,-,bytes,value⟩ := uint64Word (v := v) ⟨nonneg,by omega⟩
  refine ⟨w,bytes,?_⟩
  have half : 2 * w.toBitVec.toNat < 2 ^ 64 := by
    change 2 * w.toNat < 2 ^ 64
    omega
  change w.toBitVec.toInt = v
  rw [BitVec.toInt_eq_toNat_of_lt half]
  exact value

theorem word32 {v : Int} (nonneg : 0 ≤ v) (small : v < 2 ^ 32) :
    ∃ w : UInt32, [UInt8.ofInt (v % 2 ^ 32 / 2 ^ 24 % 256),UInt8.ofInt (v % 2 ^ 32 / 2 ^ 16 % 256),
      UInt8.ofInt (v % 2 ^ 32 / 2 ^ 8 % 256),UInt8.ofInt (v % 256)] = be32 w ∧ (w.toNat : Int) = v := by
  have value : (UInt32.ofNat v.toNat).toNat = v.toNat := by
    rw [UInt32.toNat_ofNat']
    exact Nat.mod_eq_of_lt (by omega)
  refine ⟨UInt32.ofNat v.toNat,?_,by omega⟩
  rw [be32,value,← bigEndianNat,Int.toNat_of_nonneg nonneg,Int.emod_eq_of_lt nonneg small]
  have first : v / 2 ^ 24 = v / 256 / 256 / 256 := by omega
  have second : v / 2 ^ 16 = v / 256 / 256 := by omega
  have third : v / 2 ^ 8 = v / 256 := rfl
  rw [first,second,third]
  rfl

/- Browser and node agree. What the node makes of a signed transaction has the very
preimage the browser hashed and handed to the curve, and the calldata the browser
writes decodes to the order or the cancel that was asked for. -/
theorem browserAgrees (curve : Curve) (sha : Bytes → Hash) :
    (∀ (privHex : Text) (tx : UnsignedTx), tx.Sendable →
      (Accepts curve privHex → ∃ j, signTx curve sha privHex tx = .ok j) ∧
      ∀ j, signTx curve sha privHex tx = .ok j → ∃ sender preimage priv sig wire t,
        hexToBytes j.sender = .ok sender ∧ signingPreimage sender tx = .ok preimage ∧
        hexToBytes privHex = .ok priv ∧ curve.sign (sha preimage) priv = some sig ∧
        j.received = some wire ∧ Rpc.txFromJSON wire = .ok t ∧
        t.preimage false = preimage ∧ t.signature = sig.bytes) ∧
    (∀ (sender : Address) (side : Exchange.Side) (price qty : Int),
      0 ≤ price → price < 2 ^ 63 → 0 ≤ qty → qty < 2 ^ 63 → ∃ (data : Bytes) (p q : Int64),
        hexToBytes (encodePlace side price qty) = .ok data ∧
        Rpc.hexBytes (Rpc.utf8 (encodePlace side price qty)) = .ok data ∧
        Exchange.decode sender data = .ok (.place sender side p q) ∧ p.toInt = price ∧ q.toInt = qty) ∧
    (∀ (sender : Address) (height index : Int),
      0 ≤ height → height < 2 ^ 64 → 0 ≤ index → index < 2 ^ 32 → ∃ (data : Bytes) (id : Exchange.OrderID),
        hexToBytes (encodeCancel height index) = .ok data ∧
        Rpc.hexBytes (Rpc.utf8 (encodeCancel height index)) = .ok data ∧
        Exchange.decode sender data = .ok (.cancel sender id) ∧
        (id.height.toNat : Int) = height ∧ (id.index.toNat : Int) = index) := by
  refine ⟨?_,?_,?_⟩
  · intro privHex tx sendable
    refine ⟨fun accepts => signTxAccepted accepts sendable sha,?_⟩
    intro j done
    obtain ⟨recipient,size,browser,node⟩ := addressRead sendable.recipient
    obtain ⟨sender,priv,sig,sized,key,made,rfl⟩ := signTxParts browser size done
    obtain ⟨wire,t,received,read,same,carried⟩ := jsonRead sendable sized node size sig
    exact ⟨sender,_,priv,sig,wire,t,hexToBytesToHex sender,signingPreimageOk sized browser size,key,made,
      received,read,same,carried⟩
  · intro sender side price qty priceNonneg priceSmall qtyNonneg qtySmall
    obtain ⟨p,priceBytes,priceValue⟩ := word63 priceNonneg priceSmall
    obtain ⟨q,qtyBytes,qtyValue⟩ := word63 qtyNonneg qtySmall
    refine ⟨_,p.toInt64,q.toInt64,hexToBytesToHex _,hexBytesToHex _,?_,priceValue,qtyValue⟩
    rw [priceBytes,qtyBytes]
    exact decodePlace sender side p q
  · intro sender height index heightNonneg heightSmall indexNonneg indexSmall
    obtain ⟨h,-,heightBytes,heightValue⟩ := uint64Word (v := height) ⟨heightNonneg,heightSmall⟩
    obtain ⟨i,indexBytes,indexValue⟩ := word32 indexNonneg indexSmall
    refine ⟨_,⟨h,i⟩,hexToBytesToHex _,hexBytesToHex _,?_,heightValue,indexValue⟩
    rw [heightBytes,indexBytes]
    exact decodeCancel sender h i

/- A curve that takes keys of 32 bytes and has public keys of 65. -/
def sized : Curve where
  publicKey priv := if priv.length = 32 then some (4::(priv ++ priv)) else none
  sign h priv := if priv.length = 32 then some ⟨h.setWidth 512,1⟩ else none

def privateKey : Text := '0' :: 'x' :: List.replicate 64 'a'

def payment : UnsignedTx where
  recipient := '0' :: 'x' :: 'E' :: List.replicate 39 'c'
  value := 2 ^ 64 - 1
  nonce := 7
  gasLimit := 21000
  chainId := none
  gasFeeCap := some 3
  gasTipCap := none
  data := some [255,0]

theorem paymentSendable : payment.Sendable where
  recipient := by
    refine ⟨'E' :: List.replicate 39 'c',rfl,?_,.inr (.inl rfl)⟩
    intro c member
    rcases List.mem_cons.mp member with rfl | rest
    · decide
    · rw [List.eq_of_mem_replicate rest]
      decide
  value := by decide
  nonce := by decide
  gasLimit := by decide
  chainId := fun v given => nomatch given
  gasFeeCap := by
    intro v given
    cases given
    decide
  gasTipCap := fun v given => nomatch given

theorem paymentAgrees : payment.Sendable ∧ Accepts sized privateKey ∧ ∃ j preimage wire t,
    signTx sized Hash.ofBytes privateKey payment = .ok j ∧ j.received = some wire ∧ Rpc.txFromJSON wire = .ok t ∧
      sized.sign (Hash.ofBytes preimage) (List.replicate 32 0xaa) = some ⟨(Hash.ofBytes preimage).setWidth 512,1⟩ ∧
      t.preimage false = preimage := by
  have key : hexToBytes privateKey = .ok (List.replicate 32 0xaa) := rfl
  have accepts : Accepts sized privateKey := ⟨_,_,key,rfl,fun h => ⟨_,rfl⟩⟩
  obtain ⟨produced,reads⟩ := (browserAgrees sized Hash.ofBytes).1 privateKey payment paymentSendable
  obtain ⟨j,done⟩ := produced accepts
  obtain ⟨sender,preimage,priv,sig,wire,t,-,-,-,-,received,read,same,-⟩ := reads j done
  exact ⟨paymentSendable,accepts,j,preimage,wire,t,done,received,read,rfl,same⟩

end L1Chain.Browser
