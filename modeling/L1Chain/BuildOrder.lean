import L1Chain.BuildLoop
import L1Chain.Devnet
import Mathlib.Data.List.Perm.Subperm

/-! What BuildBlockTxs returns. Along the rounds of the loop the transactions included of
a sender are the front part of its queue that the sender's position has passed, and a
sender is retired at the end of its queue, at a front the base fee prices out, or at a
front that was the best offer of its round and did not fit. The budget is a 64-bit sum:
it bounds the gas of a block as long as no best offer wraps it. -/
namespace L1Chain.BlockBuilder
open Transition

inductive Reached (p : Setting) : Draft → Prop
  | start : Reached p p.start
  | round {d e : Draft} (before : Reached p d) (more : d.active.card > 0) (step : round p d = some e) : Reached p e

def bid (p : Setting) (d : Draft) : Option Candidate :=
  (collect p (drain p d) p.senders).bind fun r => (r.2.insertionSort Candidate.before).head?

def priced (p : Setting) (txs : List Transaction) : ℕ := gasDue (isFeePriced p.st) txs

/- The round that starts with `d` retired `a`: its front was offered, no candidate paid
more, and its gas limit did not fit what the budget had left. -/
def Refused (p : Setting) (d : Draft) (a : Address) (tx : Transaction) : Prop :=
  ∃ s candidates, collect p (drain p d) p.senders = some (s,candidates) ∧
    ⟨a,tx,priorityFee tx p.baseFee⟩ ∈ candidates ∧
    (∀ x ∈ candidates, x.priorityFee ≤ priorityFee tx p.baseFee) ∧
    s.gasBudget.toNat = priced p s.included % 2 ^ 64 ∧ p.gasLimit.toNat < s.gasBudget.toNat + tx.gasLimit.toNat

structure Stops (p : Setting) (a : Address) (tx : Transaction) : Prop where
  priced : isFeePriced p.st tx = true
  reason : tx.gasFeeCap < p.baseFee ∨ ∃ d, Reached p d ∧ Refused p d a tx

structure Kept (p : Setting) (d : Draft) : Prop where
  listed : Listed p d
  front : ∀ a, d.included.filter (·.sender = a) = (p.bySender a).take (d.queuePos a)
  stopped : ∀ a ∉ d.active, ∀ tx, (p.bySender a)[d.queuePos a]? = some tx → Stops p a tx
  budget : d.gasBudget.toNat = priced p d.included % 2 ^ 64
  within : d.gasBudget ≤ p.gasLimit

section
variable {c : Chain} {mempool : List Transaction} {p : Setting} {d e : Draft} {a addr : Address} {tx : Transaction}
  {fuel : ℕ}

theorem winnerBest {baseFee : UInt64} {active : List Queue} (won : winner baseFee active = some (addr,tx)) :
    ⟨addr,tx,priorityFee tx baseFee⟩ ∈ offers baseFee active ∧
      ∀ x ∈ offers baseFee active, x.priorityFee ≤ priorityFee tx baseFee := by
  induction active generalizing addr tx with
  | nil => cases won
  | cons q active ih =>
    cases front : q.txs with
    | nil =>
      have skips : offers baseFee (q::active) = offers baseFee active := by
        rw [offers,List.filterMap_cons,front]
        rfl
      rw [winner,front] at won
      rw [skips]
      exact ih won
    | cons own tail =>
      rw [winner,front] at won
      rw [offersCons front]
      cases later : winner baseFee active with
      | none =>
        rw [later] at won
        cases won
        have nothing : offers baseFee active = [] := by
          refine List.filterMap_eq_nil_iff.mpr fun r member => ?_
          cases used : r.txs with
          | nil => rfl
          | cons => exact absurd later (winnerSome member (by simp [used]))
        rw [nothing]
        exact ⟨List.mem_cons_self,by simp⟩
      | some best =>
        rw [later] at won
        obtain ⟨offered,most⟩ := ih later
        dsimp only at won
        split at won
        · rename_i more
          cases won
          refine ⟨List.mem_cons_of_mem _ offered,fun x member => ?_⟩
          rcases List.mem_cons.mp member with rfl | inside
          · exact UInt64.le_of_lt more
          · exact most x inside
        · rename_i less
          cases won
          refine ⟨List.mem_cons_self,fun x member => ?_⟩
          rcases List.mem_cons.mp member with rfl | inside
          · exact UInt64.le_refl _
          · exact UInt64.le_trans (most x inside) (UInt64.not_lt.mp less)

theorem bidEq (fair : p.Fair) (listed : Listed p d) :
    bid p d = (best p d).map (fun w => ⟨w.1,w.2,priorityFee w.2 p.baseFee⟩) := by
  rw [bid,settledEq fair listed,Option.bind_some]
  exact settledFront fair

theorem leftOrderly (fair : p.Fair) : Orderly (left p d) where
  distinct := by
    rw [left,List.map_map]
    simpa [Function.comp_def] using fair.nodup.filter _
  owned q member tx inside := by
    obtain ⟨a,_,rfl⟩ := List.mem_map.mp member
    exact fair.owned a tx (List.mem_of_mem_drop inside)

theorem leftLane (fair : p.Fair) (listed : Listed p d) : lane (left p d) a = if a ∈ d.active then rest p d a else [] := by
  rw [lane]
  rcases laneCases (@leftOrderly _ d fair) a with none | ⟨q,member,own,one⟩
  · rw [none,List.flatMap_nil]
    split
    · rename_i active
      have held : ⟨a,rest p d a⟩ ∈ left p d :=
        List.mem_map.mpr ⟨a,List.mem_filter.mpr ⟨listed a active,by simpa using active⟩,rfl⟩
      exact absurd (List.filter_eq_nil_iff.mp none _ held) (by simp)
    · rfl
  · obtain ⟨b,held,rfl⟩ := List.mem_map.mp member
    have active : b ∈ d.active := by simpa using (List.mem_filter.mp held).2
    subst own
    rw [one,List.flatMap_singleton,if_pos active]

theorem settledAt (active : a ∈ d.active) :
    (p.bySender a)[(settled p d).queuePos a]? = ((rest p d a).dropWhile (free p.st)).head? := by
  rw [← restFront,settledRest active,List.head?_eq_getElem?]

theorem settledIdle (absent : a ∉ d.active) : (settled p d).queuePos a = d.queuePos a := if_neg absent

theorem settledPriced (active : a ∈ d.active) (front : (p.bySender a)[(settled p d).queuePos a]? = some tx) :
    isFeePriced p.st tx = true := by
  have stopped := List.head?_dropWhile_not (free p.st) (rest p d a)
  rw [settledAt active] at front
  rw [front] at stopped
  simpa [free] using stopped

theorem bestPriced (won : best p d = some (addr,tx)) : isFeePriced p.st tx = true := by
  obtain ⟨active,tail,front⟩ := bestFront won
  refine settledPriced (settledActive.mp active).1 ?_
  rw [← restFront,front]
  rfl

theorem bestMeets (won : best p d = some (addr,tx)) : p.baseFee ≤ tx.gasFeeCap := by
  obtain ⟨active,tail,front⟩ := bestFront won
  obtain ⟨was,meets⟩ := settledActive.mp active
  rw [settledRest was] at front
  rw [front] at meets
  exact of_decide_eq_true meets

theorem bestPending (arranged : Arranged c mempool p) (won : best p d = some (addr,tx)) : tx ∈ mempool := by
  obtain ⟨_,tail,front⟩ := bestFront won
  have member : tx ∈ rest p (settled p d) addr := by
    rw [front]
    exact List.mem_cons_self
  exact (arranged.member.mp (List.mem_of_mem_drop member)).1

theorem settledGas : priced p (settled p d).included = priced p d.included := by
  have nothing : gasDue (isFeePriced p.st) (drained p.st (left p d)) = 0 := gasDueFree fun _ => drainedFree
  change gasDue _ (d.included ++ drained p.st (left p d)) = gasDue _ d.included
  rw [gasDueAppend,nothing,Nat.add_zero]

theorem settledKept (fair : p.Fair) (kept : Kept p d) : Kept p (settled p d) where
  listed := settledListed kept.listed
  within := kept.within
  front a := by
    have free := @laneDrained p.st _ a (@leftOrderly _ d fair)
    rw [leftLane fair kept.listed] at free
    change (d.included ++ drained p.st (left p d)).filter _ = _
    rw [List.filter_append,kept.front,free]
    by_cases active : a ∈ d.active
    · have moved : (settled p d).queuePos a = d.queuePos a + _ := if_pos active
      rw [if_pos active,moved,List.take_add]
      exact congrArg _ (List.prefix_iff_eq_take.mp (List.takeWhile_prefix _))
    · rw [if_neg active,settledIdle active,List.takeWhile_nil,List.append_nil]
  stopped a absent tx front := by
    by_cases active : a ∈ d.active
    · refine ⟨settledPriced active front,.inl ?_⟩
      rw [settledAt active,List.head?_eq_some_iff] at front
      obtain ⟨tail,front⟩ := front
      have cheap := fun meets => absent (settledActive.mpr ⟨active,meets⟩)
      simpa [candidate,front] using cheap
    · rw [settledIdle active] at front
      exact kept.stopped a active tx front
  budget := by
    rw [settledGas]
    exact kept.budget

theorem takenFront {tail : List Transaction} (fair : p.Fair) (kept : Kept p d) (front : rest p d addr = tx::tail) :
    ((d.included ++ [tx]).filter (·.sender = a)) =
      (p.bySender a).take (put d.queuePos addr (d.queuePos addr + 1) a) := by
  have found : (p.bySender addr)[d.queuePos addr]? = some tx := by
    rw [← restFront,front]
    rfl
  have own : tx.sender = addr := fair.owned addr tx (List.mem_of_getElem? found)
  rw [List.filter_append,kept.front,List.filter_singleton,own,put]
  by_cases mine : a = addr
  · subst mine
    simp [List.take_add_one,found]
  · have other : addr ≠ a := fun same => mine same.symm
    simp [mine,other]

theorem refusedKept (kept : Kept p d) (stops : ∀ tx, (p.bySender addr)[d.queuePos addr]? = some tx → Stops p addr tx) :
    Kept p (d.retire addr) where
  listed a active := kept.listed a (Finset.mem_of_mem_erase active)
  front := kept.front
  budget := kept.budget
  within := kept.within
  stopped a absent tx front := by
    by_cases mine : a = addr
    · subst mine
      exact stops tx front
    · exact kept.stopped a (fun active => absent (Finset.mem_erase.mpr ⟨mine,active⟩)) tx front

theorem takenKept {tail : List Transaction} (fair : p.Fair) (kept : Kept p d) (active : addr ∈ d.active)
    (front : rest p d addr = tx::tail) (priced : isFeePriced p.st tx = true) (fits : ¬ d.gasBudget + tx.gasLimit > p.gasLimit) :
    Kept p (d.take p addr tx) where
  listed a active := kept.listed a ((takeActive front).mp active).1
  front a := by
    rw [takeEq front]
    exact takenFront fair kept front
  within := by
    rw [takeEq front]
    exact UInt64.not_lt.mp fits
  budget := by
    rw [takeEq front]
    change (d.gasBudget + tx.gasLimit).toNat = gasDue _ (d.included ++ [tx]) % 2 ^ 64
    rw [UInt64.toNat_add,kept.budget,gasDueAppend,gasDueCons,if_pos priced]
    simp [gasDue,BlockBuilder.priced]
  stopped a absent next found := by
    rw [← restFront,takeRest front] at found
    by_cases mine : a = addr
    · -- Its own sender is retired only at the end of the queue.
      subst mine
      rw [if_pos rfl,front,List.tail_cons] at found
      have ends : tail = [] := by
        by_contra more
        exact absent ((takeActive front).mpr ⟨active,fun _ => more⟩)
      simp [ends] at found
    · rw [if_neg mine,restFront] at found
      exact kept.stopped a (fun active => absent ((takeActive front).mpr ⟨active,fun same => absurd same mine⟩)) next found

theorem roundKept (fair : p.Fair) (reached : Reached p d) (kept : Kept p d) (step : Round p d e) : Kept p e := by
  have settles := settledKept fair kept
  cases step with
  | idle => exact settles
  | @refused addr tx won unfit =>
    obtain ⟨_,tail,front⟩ := bestFront won
    refine refusedKept settles fun next found => ?_
    have same : next = tx := by
      rw [← restFront,front] at found
      exact (Option.some.inj found).symm
    subst same
    obtain ⟨offered,most⟩ := winnerBest won
    refine ⟨bestPriced won,.inr ⟨d,reached,_,_,settledEq fair kept.listed,offered,most,
      settles.budget,?_⟩⟩
    have above : p.gasLimit.toNat < (d.gasBudget + next.gasLimit).toNat := UInt64.lt_iff_toNat_lt.mp unfit
    rw [UInt64.toNat_add] at above
    exact Nat.lt_of_lt_of_le above (Nat.mod_le _ _)
  | @taken addr tx won fits =>
    obtain ⟨active,tail,front⟩ := bestFront won
    exact takenKept fair settles active front (bestPriced won) fits

theorem startKept (fair : p.Fair) : Kept p p.start where
  listed a active := List.mem_toFinset.mp active
  front a := (List.take_zero ..).symm
  budget := rfl
  within := UInt64.zero_le
  stopped a absent tx front := by
    have member : tx ∈ p.bySender a := List.mem_of_getElem? front
    have listed := (fair.listed a).mpr (List.ne_nil_of_mem member)
    exact absurd (List.mem_toFinset.mpr listed) absent

theorem roundIs (fair : p.Fair) (listed : Listed p d) (step : round p d = some e) : Round p d e := by
  obtain ⟨e',same,is⟩ := roundCases fair listed
  rw [step] at same
  cases same
  exact is

theorem reachedKept (fair : p.Fair) (reached : Reached p d) : Kept p d := by
  induction reached with
  | start => exact startKept fair
  | round before _ step kept => exact roundKept fair before kept (roundIs fair kept.listed step)

theorem loopReached (reached : Reached p d) (ran : loop p fuel d = some e) : Reached p e ∧ e.active = ∅ := by
  induction fuel generalizing d with
  | zero => cases ran
  | succ fuel ih =>
    rw [loop] at ran
    split at ran
    · rename_i more
      obtain ⟨d',step,later⟩ := Option.bind_eq_some_iff.mp ran
      exact ih (.round reached more step) later
    · rename_i none
      cases ran
      exact ⟨reached,Finset.card_eq_zero.mp (Nat.eq_zero_of_not_pos none)⟩

theorem reachedBefore (reached : Reached p d) (ran : loop p fuel p.start = some e) : ∃ n, loop p n d = some e := by
  induction reached with
  | start => exact ⟨fuel,ran⟩
  | round _ more step ih =>
    obtain ⟨n,ran⟩ := ih
    cases n with
    | zero => cases ran
    | succ n =>
      rw [loop,if_pos more,step,Option.bind_some] at ran
      exact ⟨n,ran⟩

theorem roundAdds (step : Round p d e) : d.included <+: e.included := by
  have drains : d.included <+: (settled p d).included := List.prefix_append _ _
  cases step with
  | idle => exact drains
  | refused => exact drains
  | taken won =>
    obtain ⟨_,tail,front⟩ := bestFront won
    rw [takeEq front]
    exact drains.trans (List.prefix_append _ _)

theorem loopAdds (fair : p.Fair) (listed : Listed p d) (ran : loop p fuel d = some e) : d.included <+: e.included := by
  induction fuel generalizing d with
  | zero => cases ran
  | succ fuel ih =>
    rw [loop] at ran
    split at ran
    · obtain ⟨d',step,later⟩ := Option.bind_eq_some_iff.mp ran
      have is := roundIs fair listed step
      exact (roundAdds is).trans (ih (roundListed listed is) later)
    · cases ran
      exact List.prefix_refl _

theorem lanesLength (mempool : List Transaction) (s : Finset Address) :
    ∑ a ∈ s, (mempool.filter (·.sender = a)).length ≤ mempool.length := by
  induction mempool with
  | nil => simp
  | cons tx mempool ih =>
    have one : ∑ a ∈ s, (if tx.sender = a then 1 else 0) ≤ 1 := by
      rw [Finset.sum_ite_eq]
      split <;> omega
    have split : ∀ a, ((tx::mempool).filter (·.sender = a)).length =
        (if tx.sender = a then 1 else 0) + (mempool.filter (·.sender = a)).length := fun a => by
      rw [List.filter_cons]
      by_cases own : tx.sender = a
      · simp [own,Nat.add_comm]
      · simp [own]
    simp only [split,Finset.sum_add_distrib,List.length_cons]
    omega

theorem selectTakes {st : MptState} {baseFee gasLimit budget : UInt64} {tail : List Transaction}
    (costly : isFeePriced st tx = true) (meets : baseFee ≤ tx.gasFeeCap) (fits : ¬ budget + tx.gasLimit > gasLimit) :
    select st baseFee gasLimit (fuel + 1) [⟨addr,tx::tail⟩] budget =
      tx::select st baseFee gasLimit fuel ([⟨addr,tail⟩].filter (·.txs ≠ [])) (budget + tx.gasLimit) := by
  have stays : free st tx = false := by simp [free,costly]
  have waits : (waiting st [⟨addr,tx::tail⟩]).filter (candidate baseFee) = [⟨addr,tx::tail⟩] := by
    simp [waiting,stays,candidate,meets]
  have moves : advance addr [⟨addr,tx::tail⟩] = [⟨addr,tail⟩].filter (·.txs ≠ []) := by simp [advance]
  rw [select,waits]
  change (if _ then _ else _) = _
  rw [if_neg fits,moves]
  simp [drained,stays]

theorem startWeight (arranged : Arranged c mempool p) : weight p p.start ≤ 2 * mempool.length := by
  have fair := arranged.fair
  have lengths := lanesLength mempool p.senders.toFinset
  have each : weight p p.start ≤ ∑ a ∈ p.senders.toFinset, 2 * (mempool.filter (·.sender = a)).length := by
    refine Finset.sum_le_sum fun a active => ?_
    have size : (rest p p.start a).length = (mempool.filter (·.sender = a)).length :=
      (arranged.bySender a).length_eq
    have some := List.length_pos_iff.mpr ((fair.listed a).mp (List.mem_toFinset.mp active))
    rw [(arranged.bySender a).length_eq] at some
    rw [size]
    omega
  rw [← Finset.mul_sum] at each
  omega

theorem startLeft : left p p.start = p.senders.map (fun a => ⟨a,p.bySender a⟩) := by
  have all : p.senders.filter (· ∈ p.start.active) = p.senders :=
    List.filter_eq_self.mpr fun a member => by simpa [Setting.start] using member
  rw [left,all]
  rfl

theorem callEnds (arranged : Arranged c mempool p) : ∃ d, (∀ fuel > 2 * mempool.length, loop p fuel p.start = some d) ∧
    Reached p d ∧ d.active = ∅ ∧ (p.bySender = queueOf mempool → d.included = c.buildBlockTxs mempool) := by
  have fair := arranged.fair
  have listed := (startKept fair).listed
  obtain ⟨d,ran,_⟩ := loopSelects fair listed (startWeight arranged)
  obtain ⟨reached,ended⟩ := loopReached .start ran
  refine ⟨d,fun fuel more => loopFrom ran more,reached,ended,fun same => ?_⟩
  obtain ⟨d',ran',selected⟩ := loopSelects fair listed (Nat.le_succ_of_le (startWeight arranged))
  rw [loopMore ran] at ran'
  cases ran'
  rw [selected,startLeft,same,arranged.senders,arranged.st,arranged.baseFee,arranged.gasLimit]
  rfl

theorem entryUnique {x y : Transaction} (distinct : (mempool.map (fun tx => (tx.sender,tx.nonce))).Nodup)
    (left : x ∈ mempool ∧ x.sender = a) (right : y ∈ mempool ∧ y.sender = a) (same : x.nonce.toNat = y.nonce.toNat) :
    x = y :=
  List.inj_on_of_nodup_map distinct left.1 right.1 (Prod.ext (left.2.trans right.2.symm) (UInt64.toNat_inj.mp same))

theorem arrangedQueue (arranged : Arranged c mempool p) (distinct : (mempool.map (fun tx => (tx.sender,tx.nonce))).Nodup) :
    p.bySender = queueOf mempool := by
  funext a
  have sorted := (settingArranged c mempool).sorted a
  have same : (p.bySender a).Perm (queueOf mempool a) := (arranged.bySender a).trans (List.perm_insertionSort _ _).symm
  refine same.eq_of_pairwise (fun x y left right below above => ?_) (arranged.sorted a) sorted
  exact entryUnique distinct (arranged.member.mp left) (queueMember.mp right) (Nat.le_antisymm below above)

theorem keptSubperm (arranged : Arranged c mempool p) (kept : Kept p d) : d.included.Subperm mempool := by
  refine List.subperm_iff_count.mpr fun tx => ?_
  have keeps : ∀ l : List Transaction, (l.filter (·.sender = tx.sender)).count tx = l.count tx := fun l =>
    List.count_filter (by simp)
  calc d.included.count tx = (d.included.filter (·.sender = tx.sender)).count tx := (keeps _).symm
    _ = ((p.bySender tx.sender).take (d.queuePos tx.sender)).count tx := by rw [kept.front]
    _ ≤ (p.bySender tx.sender).count tx := (List.take_sublist _ _).count_le _
    _ = (mempool.filter (·.sender = tx.sender)).count tx := (arranged.bySender _).count_eq _
    _ = mempool.count tx := keeps _

/- No best offer wraps the budget: in every round its gas limit and the budget so far add
up to less than `2 ^ 64`. -/
def Unwrapped (p : Setting) : Prop :=
  ∀ d, Reached p d → ∀ x, bid p d = some x → d.gasBudget.toNat + x.tx.gasLimit.toNat < 2 ^ 64

theorem unwrappedBest (fair : p.Fair) (unwrapped : Unwrapped p) (reached : Reached p d)
    (won : best p d = some (addr,tx)) : d.gasBudget.toNat + tx.gasLimit.toNat < 2 ^ 64 := by
  refine unwrapped d reached ⟨addr,tx,priorityFee tx p.baseFee⟩ ?_
  rw [bidEq fair (reachedKept fair reached).listed,won,Option.map_some]

theorem takenGas (won : best p d = some (addr,tx)) :
    priced p ((settled p d).take p addr tx).included = priced p d.included + tx.gasLimit.toNat := by
  obtain ⟨_,tail,front⟩ := bestFront won
  rw [takeEq front]
  change gasDue _ ((settled p d).included ++ [tx]) = _
  rw [gasDueAppend,gasDueCons,if_pos (bestPriced won)]
  exact congrArg (· + tx.gasLimit.toNat) settledGas

theorem unwrappedGas (fair : p.Fair) (unwrapped : Unwrapped p) (reached : Reached p d) :
    d.gasBudget.toNat = priced p d.included := by
  induction reached with
  | start => rfl
  | round before _ step exact =>
    cases roundIs fair (reachedKept fair before).listed step with
    | idle => rwa [settledGas]
    | refused =>
      change _ = priced p (settled p _).included
      rwa [settledGas]
    | taken won =>
      obtain ⟨_,tail,front⟩ := bestFront won
      have small := unwrappedBest fair unwrapped before won
      rw [takenGas won,takeEq front]
      change (_ + _ : UInt64).toNat = _
      rw [UInt64.toNat_add,← exact]
      exact Nat.mod_eq_of_lt small

theorem wrappedTaken (kept : Kept p d)
    (wraps : 2 ^ 64 ≤ d.gasBudget.toNat + tx.gasLimit.toNat) : ¬ d.gasBudget + tx.gasLimit > p.gasLimit := by
  have small := tx.gasLimit.toNat_lt
  have below := d.gasBudget.toNat_lt
  have within := UInt64.le_iff_toNat_le.mp kept.within
  refine UInt64.not_lt.mpr (UInt64.le_iff_toNat_le.mpr ?_)
  rw [UInt64.toNat_add,Nat.mod_eq_sub_mod wraps,Nat.mod_eq_of_lt (by omega)]
  omega

theorem wrappedGas (fair : p.Fair) (reached : Reached p d) (won : best p d = some (addr,tx))
    (wraps : 2 ^ 64 ≤ d.gasBudget.toNat + tx.gasLimit.toNat) (ran : loop p fuel p.start = some e) :
    p.gasLimit.toNat < priced p e.included := by
  have kept := reachedKept fair reached
  have fits := wrappedTaken kept wraps
  have more : d.active.card > 0 := Finset.card_pos.mpr ⟨addr,(settledActive.mp (bestFront won).1).1⟩
  have step : round p d = some ((settled p d).take p addr tx) := by
    rw [roundEq fair kept.listed,won]
    exact congrArg some (if_neg fits)
  have next : Reached p ((settled p d).take p addr tx) := .round reached more step
  obtain ⟨n,later⟩ := reachedBefore next ran
  obtain ⟨added,same⟩ := loopAdds fair (reachedKept fair next).listed later
  have total : priced p e.included = priced p d.included + tx.gasLimit.toNat + gasDue (isFeePriced p.st) added := by
    rw [← takenGas won,priced,← same,gasDueAppend]
    rfl
  have budget := Nat.mod_le (priced p d.included) (2 ^ 64)
  rw [← kept.budget] at budget
  have cap := p.gasLimit.toNat_lt
  omega

end
end L1Chain.BlockBuilder

namespace L1Chain
open Transition BlockBuilder

/- BuildBlockTxs ends, and returns entries of the pool, none of them twice: of every
sender the transactions up to a place in its queue, which is the end of the queue unless a
priced transaction stands there that the base fee prices out or that did not fit when it
was the best offer. -/
theorem buildOrdered {c : Chain} {mempool : List Transaction} {p : Setting} (arranged : Arranged c mempool p)
    (distinct : (mempool.map (fun tx => (tx.sender,tx.nonce))).Nodup) :
    ∃ d, (∀ fuel > 2 * mempool.length, loop p fuel p.start = some d) ∧ d.included = c.buildBlockTxs mempool ∧
      d.included.Subperm mempool ∧ d.included.Nodup ∧
      ∀ a, (p.bySender a).Pairwise (fun x y => x.nonce.toNat < y.nonce.toNat) ∧
        ∃ k, d.included.filter (·.sender = a) = (p.bySender a).take k ∧
          ∀ tx, (p.bySender a)[k]? = some tx → isFeePriced c.headState tx = true ∧
            (tx.gasFeeCap < c.nextBaseFee ∨ ∃ r, Reached p r ∧ Refused p r a tx) := by
  obtain ⟨d,ends,reached,ended,selects⟩ := callEnds arranged
  have kept := reachedKept arranged.fair reached
  have sub := keptSubperm arranged kept
  have each : mempool.Nodup := distinct.of_map _
  refine ⟨d,ends,selects (arrangedQueue arranged distinct),sub,?_,fun a => ⟨?_,d.queuePos a,kept.front a,?_⟩⟩
  · exact List.nodup_iff_count_le_one.mpr fun tx => (sub.count_le tx).trans (List.nodup_iff_count_le_one.mp each tx)
  · have own : (p.bySender a).Nodup := (arranged.bySender a).nodup_iff.mpr (each.filter _)
    refine ((arranged.sorted a).and own).imp_of_mem fun {x y} left right h => ?_
    exact Nat.lt_of_le_of_ne h.1 fun same =>
      h.2 (entryUnique distinct (arranged.member.mp left) (arranged.member.mp right) same)
  · intro tx front
    have stops := kept.stopped a (by simp [ended]) tx front
    rw [← arranged.st,← arranged.baseFee]
    exact ⟨stops.priced,stops.reason⟩

namespace Devnet

def bulky (nonce limit : UInt64) : Transaction :=
  {payment 0 with recipient := Evm.deployAddress, value := 0, nonce := nonce, gasLimit := limit, gasFeeCap := 0xffffffffffffffff}

/- A payment and two deployments of one sender, of which one block has room for the first. -/
def rivals : List Transaction := [bulky 2 5000000,payment 0,bulky 1 5000000]

theorem rivalsSelected : start.buildBlockTxs rivals = [payment 0,bulky 1 5000000] := by decide +kernel

theorem rivalsOrdered : ∃ d, (∀ fuel > 2 * 3, loop (setting start rivals) fuel (setting start rivals).start = some d) ∧
    d.included = [payment 0,bulky 1 5000000] := by
  obtain ⟨d,ends,selects,_⟩ := buildOrdered (settingArranged start rivals) (by decide)
  exact ⟨d,ends,selects.trans rivalsSelected⟩

end Devnet

/- The gas limits of the priced transactions of a selection add up to at most the block's
gas limit exactly when no best offer wraps the budget. Entries of one sender and nonce may
stand in either order. -/
theorem withinExact {c : Chain} {mempool : List Transaction} {p : Setting} (arranged : Arranged c mempool p) :
    ∃ d, (∀ fuel > 2 * mempool.length, loop p fuel p.start = some d) ∧
      (p = setting c mempool → d.included = c.buildBlockTxs mempool) ∧
      (gasDue (isFeePriced c.headState) d.included ≤ c.gasLimit.toNat ↔ Unwrapped p) := by
  have fair := arranged.fair
  obtain ⟨d,ends,reached,_,selects⟩ := callEnds arranged
  refine ⟨d,ends,fun same => selects (by rw [same]; rfl),?_⟩
  rw [← arranged.st,← arranged.gasLimit]
  constructor
  · intro within r before x offered
    rw [bidEq fair (reachedKept fair before).listed] at offered
    obtain ⟨w,won,rfl⟩ := Option.map_eq_some_iff.mp offered
    by_contra wraps
    have passed := wrappedGas fair before won (Nat.le_of_not_lt wraps) (ends _ (Nat.lt_succ_self _))
    exact absurd within (Nat.not_le.mpr passed)
  · intro unwrapped
    have sum := unwrappedGas fair unwrapped reached
    have within := UInt64.le_iff_toNat_le.mp (reachedKept fair reached).within
    rw [sum] at within
    exact within

/- What the pool has to bring: a priced transaction that meets the next base fee leaves room
for the block's gas limit in 64 bits. -/
theorem selectionWithin {c : Chain} {mempool : List Transaction} {p : Setting} (arranged : Arranged c mempool p)
    (room : ∀ tx ∈ mempool, isFeePriced c.headState tx = true → c.nextBaseFee ≤ tx.gasFeeCap →
      c.gasLimit.toNat + tx.gasLimit.toNat < 2 ^ 64) :
    ∃ d, (∀ fuel > 2 * mempool.length, loop p fuel p.start = some d) ∧
      (p = setting c mempool → d.included = c.buildBlockTxs mempool) ∧
      gasDue (isFeePriced c.headState) d.included ≤ c.gasLimit.toNat := by
  obtain ⟨d,ends,selects,exact⟩ := withinExact arranged
  refine ⟨d,ends,selects,exact.mpr (fun r reached x offered => ?_)⟩
  have kept := reachedKept arranged.fair reached
  rw [bidEq arranged.fair kept.listed] at offered
  obtain ⟨⟨addr,tx⟩,won,rfl⟩ := Option.map_eq_some_iff.mp offered
  have bound := room tx (bestPending arranged won) (arranged.st ▸ bestPriced won) (arranged.baseFee ▸ bestMeets won)
  have within := UInt64.le_iff_toNat_le.mp kept.within
  rw [arranged.gasLimit] at within
  exact (Nat.add_le_add_right within _).trans_lt bound

namespace Devnet

theorem rivalsWithin : (∀ tx ∈ rivals, start.gasLimit.toNat + tx.gasLimit.toNat < 2 ^ 64) ∧
    gasDue (isFeePriced start.headState) [payment 0,bulky 1 5000000] ≤ start.gasLimit.toNat := by
  have small : ∀ tx ∈ rivals, start.gasLimit.toNat + tx.gasLimit.toNat < 2 ^ 64 := by decide
  refine ⟨small,?_⟩
  obtain ⟨d,_,selects,within⟩ := selectionWithin (settingArranged start rivals) (fun tx member _ _ => small tx member)
  rw [← rivalsSelected,← selects rfl]
  exact within

theorem bulkyPriced (st : MptState) (nonce limit : UInt64) : isFeePriced st (bulky nonce limit) = true := by
  have other : (Exchange.isExchangeTx (bulky nonce limit) || Pos.isAttestationTx (bulky nonce limit)) = false :=
    (by decide : (decide (Evm.deployAddress = Exchange.address) || decide (Evm.deployAddress = Pos.attestAddress)) = false)
  have evm : isEVMTx st (bulky nonce limit) = true := by simp [isEVMTx,bulky]
  rw [isFeePriced,other,evm]
  rfl

/- Two deployments of one sender: the limit of the second takes the budget from 1 back to 0,
and both are selected. -/
theorem budgetPassed : start.buildBlockTxs [bulky 0 1,bulky 1 0xffffffffffffffff] = [bulky 0 1,bulky 1 0xffffffffffffffff] ∧
    start.gasLimit.toNat < gasDue (isFeePriced start.headState)
      (start.buildBlockTxs [bulky 0 1,bulky 1 0xffffffffffffffff]) := by
  have meets : start.nextBaseFee ≤ 0xffffffffffffffff :=
    UInt64.le_iff_toNat_le.mpr (Nat.le_of_lt_succ start.nextBaseFee.toNat_lt)
  have queued : queues [bulky 0 1,bulky 1 0xffffffffffffffff] = [⟨account 1,[bulky 0 1,bulky 1 0xffffffffffffffff]⟩] := by
    have sender : senders [bulky 0 1,bulky 1 0xffffffffffffffff] = [account 1] := by decide
    have queue : queueOf [bulky 0 1,bulky 1 0xffffffffffffffff] (account 1) = [bulky 0 1,bulky 1 0xffffffffffffffff] := by
      decide
    rw [queues,sender,List.map_singleton,queue]
  have selected : start.buildBlockTxs [bulky 0 1,bulky 1 0xffffffffffffffff] = [bulky 0 1,bulky 1 0xffffffffffffffff] := by
    rw [Chain.buildBlockTxs,queued]
    refine (selectTakes (bulkyPriced _ _ _) meets (by decide)).trans (congrArg _ ?_)
    refine (selectTakes (bulkyPriced _ _ _) meets (by decide)).trans (congrArg _ ?_)
    exact selectNone
  rw [selected]
  refine ⟨rfl,?_⟩
  rw [gasDueCons,gasDueCons,if_pos (bulkyPriced _ _ _),if_pos (bulkyPriced _ _ _)]
  decide

end Devnet
end L1Chain
