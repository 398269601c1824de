import L1Chain.Core
import L1Chain.Hex

/-! rpc/server.go: the wire form of a transaction. A Go string is its bytes, the
UTF-8 of the text a client sent; the fields with a `,string` tag are decimal strings
on the wire, which encoding/json turns into the `uint64` they denote. -/
namespace L1Chain.Rpc

inductive HexErr where
  | invalidByte (b : UInt8)
  | oddLength
  -- "address must be 20 bytes, got %d"
  | addressLength (got : Nat)
  deriving DecidableEq, Repr

-- "<field>: <cause>"
structure FieldErr where
  field : String
  cause : HexErr
  deriving DecidableEq, Repr

def utf8 (s : Text) : Bytes := s.flatMap String.utf8EncodeChar

/- `hex.DecodeString`. A last odd byte is looked up before the length is blamed. -/
def decodeString : Bytes → Except HexErr Bytes
  | [] => .ok []
  | [p] =>
    match Hex.value p.toNat with
    | none => .error (.invalidByte p)
    | some _ => .error .oddLength
  | p::q::rest =>
    match Hex.value p.toNat,Hex.value q.toNat with
    | none, _ => .error (.invalidByte p)
    | some _, none => .error (.invalidByte q)
    | some a, some b =>
      match decodeString rest with
      | .error e => .error e
      | .ok bs => .ok (UInt8.ofNat (16 * a + b)::bs)

-- `s[2:]` after "0x" or "0X".
def unprefixed : Bytes → Bytes
  | 48::120::rest => rest
  | 48::88::rest => rest
  | s => s

def hexBytes (s : Bytes) : Except HexErr Bytes :=
  let s := unprefixed s
  if s = [] then .ok [] else decodeString s

def addressFromHex (s : Bytes) : Except HexErr Address := do
  let b ← hexBytes s
  if b.length ≠ 20 then .error (.addressLength b.length) else .ok (Address.ofBytes b)

structure TxJSON where
  sender : Bytes
  recipient : Bytes
  value : UInt64
  nonce : UInt64
  gasLimit : UInt64
  chainID : UInt64
  gasFeeCap : UInt64
  gasTipCap : UInt64
  data : Bytes
  signature : Bytes
  hash : Bytes
  deriving DecidableEq

def encodeToString (b : Bytes) : Bytes := utf8 (Hex.text b)

def txToJSON (sha : Bytes → Hash) (tx : Transaction) : TxJSON where
  sender := encodeToString (Address.bytes tx.sender)
  recipient := encodeToString (Address.bytes tx.recipient)
  value := tx.value
  nonce := tx.nonce
  gasLimit := tx.gasLimit
  chainID := tx.chainID
  gasFeeCap := tx.gasFeeCap
  gasTipCap := tx.gasTipCap
  data := encodeToString tx.data
  signature := encodeToString tx.signature
  hash := encodeToString (Hash.bytes (tx.hash sha))

def named {α : Type} (field : String) : Except HexErr α → Except FieldErr α
  | .error e => .error ⟨field,e⟩
  | .ok a => .ok a

def txFromJSON (j : TxJSON) : Except FieldErr Transaction := do
  let sender ← named "from" (addressFromHex j.sender)
  let recipient ← named "to" (addressFromHex j.recipient)
  let data ← named "data" (hexBytes j.data)
  let sig ← named "signature" (hexBytes j.signature)
  .ok ⟨sender,recipient,j.value,j.nonce,j.gasLimit,j.chainID,j.gasFeeCap,j.gasTipCap,data,sig⟩

theorem utf8Digit {c : Char} {d : Nat} (read : Hex.value c.toNat = some d) :
    String.utf8EncodeChar c = [UInt8.ofNat c.toNat] := by
  have bound := (Hex.valueBound read).2.2
  have ascii : c.toNat ≤ 127 := by omega
  simp [String.utf8EncodeChar,ascii]

theorem utf8Digits {a b : Char} {high low : Nat} (first : Hex.value a.toNat = some high)
    (second : Hex.value b.toNat = some low) (rest : Text) :
    utf8 (a::b::rest) = UInt8.ofNat a.toNat::UInt8.ofNat b.toNat::utf8 rest := by
  simp [utf8,utf8Digit first,utf8Digit second]

theorem digitByte {c : Char} {d : Nat} (read : Hex.value c.toNat = some d) :
    (UInt8.ofNat c.toNat).toNat = c.toNat := by
  have bound := (Hex.valueBound read).2.2
  rw [UInt8.toNat_ofNat']
  exact Nat.mod_eq_of_lt (by omega)

theorem decodeSpelled {digits : Text} {bs : Bytes} (spells : Hex.Spells digits bs) :
    decodeString (utf8 digits) = .ok bs := by
  induction spells with
  | nil => rfl
  | cons first second tail ih =>
    rw [utf8Digits first second,decodeString,digitByte first,digitByte second,first,second,ih]

theorem unprefixedDigits {p q : UInt8} {d : Nat} (digit : Hex.value q.toNat = some d) (rest : Bytes) :
    unprefixed (p::q::rest) = p::q::rest := by
  unfold unprefixed
  split
  · rename_i same
    cases same
    cases digit
  · rename_i same
    cases same
    cases digit
  · rfl

theorem unprefixedSpelled {digits : Text} {bs : Bytes} (spells : Hex.Spells digits bs) :
    unprefixed (utf8 digits) = utf8 digits := by
  cases spells with
  | nil => rfl
  | cons first second tail =>
    rw [utf8Digits first second]
    exact unprefixedDigits (by rw [digitByte second,second]) _

theorem hexBytesUnprefixed {s : Bytes} {digits : Text} {bs : Bytes} (stripped : unprefixed s = utf8 digits)
    (spells : Hex.Spells digits bs) : hexBytes s = .ok bs := by
  have whole := decodeSpelled spells
  rw [hexBytes,stripped]
  split
  · rename_i empty
    rw [empty] at whole
    exact whole
  · exact whole

theorem hexBytesSpelled {digits : Text} {bs : Bytes} (spells : Hex.Spells digits bs) :
    hexBytes (utf8 digits) = .ok bs :=
  hexBytesUnprefixed (unprefixedSpelled spells) spells

theorem hexBytesText (bs : Bytes) : hexBytes (utf8 (Hex.text bs)) = .ok bs := hexBytesSpelled (Hex.textSpells bs)

theorem addressSpelled {s bs : Bytes} (read : hexBytes s = .ok bs) (size : bs.length = 20) :
    addressFromHex s = .ok (Address.ofBytes bs) := by
  rw [addressFromHex,read]
  change (if bs.length ≠ 20 then _ else _) = _
  rw [if_neg (not_not_intro size)]

theorem txFromToJSON (sha : Bytes → Hash) (tx : Transaction) : txFromJSON (txToJSON sha tx) = .ok tx := by
  have address (a : Address) : addressFromHex (encodeToString (Address.bytes a)) = .ok a := by
    rw [encodeToString,addressSpelled (hexBytesText _) (addressBytesLength a)]
    exact congrArg _ (addressBytesInjective (addressOfBytes (addressBytesLength a)))
  rw [txFromJSON,txToJSON]
  dsimp only
  rw [address,address,encodeToString,encodeToString,hexBytesText,hexBytesText]
  rfl

end L1Chain.Rpc
