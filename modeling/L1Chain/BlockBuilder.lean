import Mathlib.Data.List.Sort
import Mathlib.Data.List.TakeWhile
import L1Chain.Chain

/-! chain/blockbuilder.go: which pending transactions go into the next block. A
sender's queue is advanced from the front only; what is left of it stands for the
source's queue and position, and a sender no longer active has no queue. Addresses
are compared as numbers, which is the order of their hex texts. -/
namespace L1Chain
open Transition

structure Queue where
  addr : Address
  txs : List Transaction

namespace BlockBuilder

-- `sort.Slice` by nonce, in the stable order it has for short queues.
def queueOf (mempool : List Transaction) (addr : Address) : List Transaction :=
  (mempool.filter (·.sender = addr)).insertionSort (fun a b => a.nonce.toNat ≤ b.nonce.toNat)

def senders (mempool : List Transaction) : List Address :=
  (mempool.map (·.sender)).eraseDups.insertionSort (fun a b => a.toNat ≤ b.toNat)

def queues (mempool : List Transaction) : List Queue :=
  (senders mempool).map (fun addr => ⟨addr,queueOf mempool addr⟩)

section
variable (st : MptState) (baseFee gasLimit : UInt64)

def free (tx : Transaction) : Bool := ¬ isFeePriced st tx

def drained (active : List Queue) : List Transaction := active.flatMap (fun q => q.txs.takeWhile (free st))

def waiting (active : List Queue) : List Queue :=
  (active.map (fun q => {q with txs := q.txs.dropWhile (free st)})).filter (·.txs ≠ [])

-- A front priced below the base fee ends its sender's part in this block.
def candidate (q : Queue) : Bool :=
  match q.txs with
  | [] => false
  | tx::_ => tx.gasFeeCap ≥ baseFee

/- The candidate of the highest priority fee, of equal ones the smallest address:
queues are listed by address. -/
def winner : List Queue → Option (Address × Transaction)
  | [] => none
  | q::rest =>
    match q.txs,winner rest with
    | [],best => best
    | tx::_,none => some (q.addr,tx)
    | tx::_,some best => if priorityFee best.2 baseFee > priorityFee tx baseFee then some best else some (q.addr,tx)

def advance (addr : Address) (active : List Queue) : List Queue :=
  (active.map (fun q => if q.addr = addr then {q with txs := q.txs.tail} else q)).filter (·.txs ≠ [])

def select : Nat → List Queue → UInt64 → List Transaction
  | 0, _, _ => []
  | fuel+1, active, gasBudget =>
    let left := (waiting st active).filter (candidate baseFee)
    match winner baseFee left with
    | none => drained st active
    | some (addr,tx) =>
      if gasBudget + tx.gasLimit > gasLimit then
        drained st active ++ select fuel (left.filter (·.addr ≠ addr)) gasBudget
      else drained st active ++ tx::select fuel (advance addr left) (gasBudget + tx.gasLimit)

end

theorem selectFree {st : MptState} {baseFee gasLimit : UInt64} {fuel : Nat} {q : Queue}
    (all : ∀ tx ∈ q.txs, isFeePriced st tx = false) (budget : UInt64) :
    select st baseFee gasLimit (fuel + 1) [q] budget = q.txs := by
  have every : ∀ tx ∈ q.txs, free st tx = true := fun tx member => by simp [free,all tx member]
  have none : waiting st [q] = [] := by
    simp only [waiting,List.map_cons,List.map_nil,List.dropWhile_eq_nil_iff.mpr every]
    rfl
  simp only [select,none,List.filter_nil,winner,drained,List.flatMap_cons,List.flatMap_nil,List.append_nil]
  exact List.takeWhile_eq_self_iff.mpr every

theorem queuesSingle (tx : Transaction) : queues [tx] = [⟨tx.sender,[tx]⟩] := by
  simp [queues,senders,queueOf,List.eraseDups_cons]

end BlockBuilder

def Chain.buildBlockTxs (c : Chain) (mempool : List Transaction) : List Transaction :=
  BlockBuilder.select c.headState c.nextBaseFee c.gasLimit (2 * mempool.length + 1) (BlockBuilder.queues mempool) 0

theorem buildSingle {c : Chain} {tx : Transaction} (unpriced : isFeePriced c.headState tx = false) :
    c.buildBlockTxs [tx] = [tx] := by
  rw [Chain.buildBlockTxs,BlockBuilder.queuesSingle]
  exact BlockBuilder.selectFree (by simpa using unpriced) 0

end L1Chain
