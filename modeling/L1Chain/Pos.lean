import Mathlib.Algebra.GroupWithZero.Nat
import Mathlib.Data.List.Nodup
import L1Chain.Core
import L1Chain.Runs

/-! Package pos: validators, proposer selection and attestation payloads. BLS12-381
is an explicit primitive: `blst.verify` answers for a compressed key, message,
signature and domain tag of the right sizes, `blst.keyValidate` for a key. A
`ValidatorSet` carries what `NewValidatorSet` checked. -/
namespace L1Chain.Pos

inductive PosErr where
  | emptyValidatorSet
  | zeroStake (a : Address)
  | duplicateAddress (a : Address)
  | duplicatePubKey (a : Address)
  | invalidPubKey (a : Address)
  | totalStakeOverflow
  | noActiveValidators
  | malformedAttestation
  deriving DecidableEq, Repr

structure Blst where
  verify : Bytes → Bytes → Bytes → Bytes → Bool
  keyValidate : Bytes → Bool

def pubKeySize : Nat := 48
def sigSize : Nat := 96

def dst (chainID : UInt64) : Bytes :=
  ("BLS_SIG_BLS12381G2_XMD:SHA-256_SSWU_RO_L1CHAIN_POS_CHAIN" ++ toString chainID.toNat ++ "_").toList.map
    (fun c => UInt8.ofNat c.toNat)

def verify (blst : Blst) (pubKey msg sig domain : Bytes) : Bool :=
  pubKey.length = pubKeySize && sig.length = sigSize && blst.verify pubKey msg sig domain

def validatePubKey (blst : Blst) (pubKey : Bytes) : Bool :=
  pubKey.length = pubKeySize && blst.keyValidate pubKey

structure ValidatorInfo where
  address : Address
  blsPubKey : Bytes
  stake : UInt64
  deriving DecidableEq

def stakeSum (vs : List ValidatorInfo) : Nat := (vs.map (·.stake.toNat)).sum

structure ValidatorSet where
  validators : List ValidatorInfo
  totalStake : UInt64
  nonempty : validators ≠ []
  staked : ∀ v ∈ validators, v.stake ≠ 0
  distinct : (validators.map (·.address)).Nodup
  distinctKeys : (validators.map (·.blsPubKey)).Nodup
  total : stakeSum validators = totalStake.toNat

def register (blst : Blst) : List Address → List Bytes → UInt64 → List ValidatorInfo → Except PosErr UInt64
  | _, _, total, [] => .ok total
  | seenAddr, seenPub, total, v::vs =>
    if v.stake = 0 then .error (.zeroStake v.address)
    else if v.address ∈ seenAddr then .error (.duplicateAddress v.address)
    else if v.blsPubKey ∈ seenPub then .error (.duplicatePubKey v.address)
    else if ¬ validatePubKey blst v.blsPubKey then .error (.invalidPubKey v.address)
    else if total + v.stake < total then .error .totalStakeOverflow
    else register blst (v.address::seenAddr) (v.blsPubKey::seenPub) (total + v.stake) vs

structure Registered (seenAddr : List Address) (seenPub : List Bytes) (start : UInt64)
    (vs : List ValidatorInfo) (total : UInt64) : Prop where
  staked : ∀ v ∈ vs, v.stake ≠ 0
  distinct : (vs.map (·.address)).Nodup
  freshAddr : ∀ v ∈ vs, v.address ∉ seenAddr
  distinctKeys : (vs.map (·.blsPubKey)).Nodup
  freshKeys : ∀ v ∈ vs, v.blsPubKey ∉ seenPub
  total : start.toNat + stakeSum vs = total.toNat

theorem addNoWrap {a b : UInt64} (fits : ¬ a + b < a) : (a + b).toNat = a.toNat + b.toNat := by
  rw [UInt64.lt_iff_toNat_lt,UInt64.toNat_add] at fits
  rw [UInt64.toNat_add]
  have ha := a.toNat_lt
  have hb := b.toNat_lt
  omega

theorem registerSound {blst seenAddr seenPub start vs total}
    (ok : register blst seenAddr seenPub start vs = .ok total) : Registered seenAddr seenPub start vs total := by
  induction vs generalizing seenAddr seenPub start with
  | nil =>
    cases ok
    exact ⟨by simp,by simp,by simp,by simp,by simp,by simp [stakeSum]⟩
  | cons v vs ih =>
    simp only [register] at ok
    split at ok <;> try contradiction
    rename_i stake
    split at ok <;> try contradiction
    rename_i newAddr
    split at ok <;> try contradiction
    rename_i newKey
    split at ok <;> try contradiction
    split at ok <;> try contradiction
    rename_i fits
    have rest := ih ok
    refine ⟨?_,?_,?_,?_,?_,?_⟩
    · simpa [stake] using rest.staked
    · simp only [List.map_cons,List.nodup_cons,List.mem_map,not_exists,not_and]
      refine ⟨fun w member same => ?_,rest.distinct⟩
      exact rest.freshAddr w member (by simp [same])
    · simp only [List.mem_cons,forall_eq_or_imp]
      exact ⟨newAddr,fun w member seen => rest.freshAddr w member (List.mem_cons_of_mem _ seen)⟩
    · simp only [List.map_cons,List.nodup_cons,List.mem_map,not_exists,not_and]
      refine ⟨fun w member same => ?_,rest.distinctKeys⟩
      exact rest.freshKeys w member (by simp [same])
    · simp only [List.mem_cons,forall_eq_or_imp]
      exact ⟨newKey,fun w member seen => rest.freshKeys w member (List.mem_cons_of_mem _ seen)⟩
    · have sum := rest.total
      rw [addNoWrap fits] at sum
      simp only [stakeSum,List.map_cons,List.sum_cons] at sum ⊢
      omega

def newValidatorSet (blst : Blst) (vs : List ValidatorInfo) : Except PosErr ValidatorSet :=
  if nonempty : vs = [] then .error .emptyValidatorSet
  else match ok : register blst [] [] 0 vs with
    | .error e => .error e
    | .ok total =>
      let r := registerSound ok
      .ok ⟨vs,total,nonempty,r.staked,r.distinct,r.distinctKeys,by simpa using r.total⟩

namespace ValidatorSet

def byAddress (vs : ValidatorSet) (a : Address) : Option ValidatorInfo :=
  vs.validators.find? (fun v => v.address = a)

def active (vs : ValidatorSet) (jailed : Address → Bool) : List ValidatorInfo :=
  vs.validators.filter (fun v => ¬ jailed v.address)

-- The total accumulates in 64 bits, as the loop does.
def effectiveStake (vs : ValidatorSet) (jailed : Address → Bool) : List ValidatorInfo × UInt64 :=
  (vs.active jailed,(vs.active jailed).foldl (fun total v => total + v.stake) 0)

end ValidatorSet

def proposerSeed (sha : Bytes → Hash) (parentHash : Hash) (height : UInt64) : Hash :=
  hashConcat sha [Hash.bytes parentHash,be64 height]

def walkStake (target : Nat) : UInt64 → List ValidatorInfo → Option ValidatorInfo
  | _, [] => none
  | cum, v::vs => if target < (cum + v.stake).toNat then some v else walkStake target (cum + v.stake) vs

def selectProposer (active : List ValidatorInfo) (totalActiveStake : UInt64) (seed : Hash) :
    Except PosErr ValidatorInfo :=
  if totalActiveStake = 0 then .error .noActiveValidators
  else match active.getLast? with
    | none => .error .noActiveValidators
    | some last => .ok ((walkStake (seed.toNat % totalActiveStake.toNat) 0 active).getD last)

theorem walkStakeMember {target : Nat} {cum : UInt64} {vs : List ValidatorInfo} {v : ValidatorInfo}
    (found : walkStake target cum vs = some v) : v ∈ vs := by
  induction vs generalizing cum with
  | nil => simp [walkStake] at found
  | cons x vs ih =>
    simp only [walkStake] at found
    split at found
    · cases found
      exact List.mem_cons_self ..
    · exact List.mem_cons_of_mem _ (ih found)

theorem selectedMember {active : List ValidatorInfo} {total : UInt64} {seed : Hash} {v : ValidatorInfo}
    (ok : selectProposer active total seed = .ok v) : v ∈ active := by
  simp only [selectProposer] at ok
  split at ok
  · contradiction
  · split at ok
    · contradiction
    · rename_i last isLast
      cases ok
      cases walked : walkStake (seed.toNat % total.toNat) 0 active with
      | none => exact List.mem_of_getLast? isLast
      | some w => exact walkStakeMember walked

theorem memberOfAddress {vs : ValidatorSet} {v w : ValidatorInfo} (left : v ∈ vs.validators)
    (right : w ∈ vs.validators) (same : v.address = w.address) : v = w :=
  List.inj_on_of_nodup_map vs.distinct left right same

def attestAddress : Address := 0x504F530000000000000000000000000000000001
def checkpointInterval : UInt64 := 32
def opAttest : UInt8 := 0xA1
def attestPayloadLen : Nat := 1 + 8 + 32 + sigSize

structure Attestation where
  targetHeight : UInt64
  targetHash : Hash
  blsSig : Bytes
  deriving DecidableEq

-- A signature of another length is cut or zero-padded to the payload's size.
def encodeAttest (a : Attestation) : Bytes :=
  opAttest::be64 a.targetHeight ++ Hash.bytes a.targetHash ++ window a.blsSig 0 sigSize

def decodeAttest (data : Bytes) : Except PosErr Attestation :=
  if data.length = attestPayloadLen ∧ data.head? = some opAttest then
    .ok ⟨read64 ((data.drop 1).take 8),Hash.ofBytes ((data.drop 9).take 32),data.drop 41⟩
  else .error .malformedAttestation

theorem decodeEncode {a : Attestation} (whole : a.blsSig.length = sigSize) :
    decodeAttest (encodeAttest a) = .ok a := by
  have padded : window a.blsSig 0 sigSize = a.blsSig := by
    rw [window,List.drop_zero,← whole,List.take_length,Nat.sub_self,List.replicate_zero,List.append_nil]
  have shape : encodeAttest a = opAttest::(be64 a.targetHeight ++ (Hash.bytes a.targetHash ++ a.blsSig)) := by
    rw [encodeAttest,padded]
    simp
  have size : (encodeAttest a).length = attestPayloadLen := by
    rw [shape]
    simp only [List.length_cons,List.length_append,be64Length,hashBytesLength,whole,attestPayloadLen]
    omega
  have height : ((encodeAttest a).drop 1).take 8 = be64 a.targetHeight := by
    rw [shape,List.drop_one,List.tail_cons]
    exact List.take_left' (be64Length _)
  have rest : (encodeAttest a).drop 9 = Hash.bytes a.targetHash ++ a.blsSig := by
    rw [shape,List.drop_succ_cons]
    exact List.drop_left' (be64Length _)
  have sig : (encodeAttest a).drop 41 = a.blsSig := by
    have split : (encodeAttest a).drop 41 = ((encodeAttest a).drop 9).drop 32 := by rw [List.drop_drop]
    rw [split,rest]
    exact List.drop_left' (hashBytesLength _)
  have hash : ((encodeAttest a).drop 9).take 32 = Hash.bytes a.targetHash := by
    rw [rest]
    exact List.take_left' (hashBytesLength _)
  have op : (encodeAttest a).head? = some opAttest := by
    rw [shape]
    rfl
  rw [decodeAttest,if_pos ⟨size,op⟩,height,hash,sig,read64Be64,ofBytesBytes]

theorem decodePadded (height : UInt64) (target : Hash) (sig : Bytes) :
    ∃ padded, decodeAttest (encodeAttest ⟨height,target,sig⟩) = .ok ⟨height,target,padded⟩ := by
  have whole : (window sig 0 sigSize).length = sigSize := by
    simp only [window,List.length_append,List.length_replicate]
    have short := List.length_take_le sigSize (sig.drop 0)
    omega
  have again : window (window sig 0 sigSize) 0 sigSize = window sig 0 sigSize := by
    rw [window,List.drop_zero,List.take_of_length_le (Nat.le_of_eq whole),whole,Nat.sub_self,List.replicate_zero,
      List.append_nil]
  refine ⟨window sig 0 sigSize,?_⟩
  rw [← @decodeEncode ⟨height,target,window sig 0 sigSize⟩ whole,encodeAttest,encodeAttest,again]

def isAttestationTx (tx : Transaction) : Bool := tx.recipient = attestAddress

def checkpointRound (targetHeight : UInt64) : UInt64 := targetHeight / checkpointInterval

end L1Chain.Pos
