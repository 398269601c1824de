import L1Chain.Transition

/-! chain/transition.go: the overlay a block is staged on, and the block application that
uses it. The three maps of an overlay are association lists, so that a flush writes exactly
what was staged; the nested storage map is keyed by address and key together. Before the
flush the overlay only reads its base, so a block that fails leaves it as it was. -/
namespace L1Chain.Transition

structure OverlayState (S : Type) where
  base : S
  dirty : AList (fun _ : Address => Account)
  code : AList (fun _ : Address => Bytes)
  storage : AList (fun _ : Address × Hash => Hash)

def newOverlay {S : Type} (base : S) : OverlayState S := ⟨base,∅,∅,∅⟩

section
variable {S E : Type} [StateDB S]

/- An account comes with the code hash and the storage root it had when it was read from
the base: staging code or storage does not touch it. -/
instance : StateDB (OverlayState S) where
  getAccount o a := (o.dirty.lookup a).getD (getAccount o.base a)
  setAccount o a acct := {o with dirty := o.dirty.insert a acct}
  getCode o a := (o.code.lookup a).getD (getCode o.base a)
  setCode o a code := {o with code := o.code.insert a code}
  getStorage o a key := (o.storage.lookup (a,key)).getD (getStorage o.base a key)
  setStorage o a key val := {o with storage := o.storage.insert (a,key) val}

def OverlayState.flush (o : OverlayState S) : S :=
  let st := o.dirty.entries.foldl (fun st e => setAccount st e.1 e.2) o.base
  let st := o.code.entries.foldl (fun st e => setCode st e.1 e.2) st
  o.storage.entries.foldl (fun st e => setStorage st e.1.1 e.1.2 e.2) st

def applyBlockWithMode (env : Env E) (verifySig : VerifySig) (st : S) (b : Block) (miner : Address)
    (mode : Exchange.Mode) : Except TxErr Unit × S :=
  match applyTxsAt env verifySig (newOverlay st) b.txs b.header.height mode b.header.baseFee with
  | .error e => (.error e,st)
  | .ok r => (.ok (),(credit r.st miner (blockReward + r.tip)).flush)

def applyBlock (env : Env E) (verifySig : VerifySig) (st : S) (b : Block) (miner : Address) : Except TxErr Unit × S :=
  applyBlockWithMode env verifySig st b miner .continuous

end
end L1Chain.Transition
