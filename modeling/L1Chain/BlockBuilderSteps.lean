import L1Chain.BlockBuilder
import L1Chain.Runs
import Mathlib.Data.List.Infix

/-! What a selection keeps of the pool: of every sender it takes a front part of the
queue, in the queue's order. The queues of a selection have distinct senders, so
`lane` reads the one queue of an address. -/
namespace L1Chain.BlockBuilder
open Transition

def lane (active : List Queue) (a : Address) : List Transaction := (active.filter (·.addr = a)).flatMap (·.txs)

structure Orderly (active : List Queue) : Prop where
  distinct : (active.map (·.addr)).Nodup
  owned : ∀ q ∈ active, ∀ tx ∈ q.txs, tx.sender = q.addr

section
variable {st : MptState} {baseFee gasLimit : UInt64} {active : List Queue} {a addr : Address} {tx : Transaction}
  {mempool : List Transaction}

theorem laneCases (orderly : Orderly active) (a : Address) :
    active.filter (·.addr = a) = [] ∨ ∃ q, q ∈ active ∧ q.addr = a ∧ active.filter (·.addr = a) = [q] := by
  cases found : active.filter (·.addr = a) with
  | nil => exact .inl rfl
  | cons q rest =>
    have member : ∀ x ∈ q::rest, x ∈ active ∧ x.addr = a := by
      intro x inside
      rw [← found] at inside
      simpa using inside
    have single : ((q::rest).map (·.addr)).Nodup := by
      rw [← found]
      exact orderly.distinct.sublist (List.filter_sublist.map _)
    refine .inr ⟨q,(member q List.mem_cons_self).1,(member q List.mem_cons_self).2,?_⟩
    cases rest with
    | nil => rfl
    | cons r rest =>
      have same : q.addr = r.addr := by
        rw [(member q (by simp)).2,(member r (by simp)).2]
      simp [same] at single

theorem filterOrderly (orderly : Orderly active) (p : Queue → Bool) : Orderly (active.filter p) :=
  ⟨orderly.distinct.sublist (List.filter_sublist.map _),fun q member => orderly.owned q (List.mem_of_mem_filter member)⟩

theorem cutOrderly (orderly : Orderly active) {cut : Queue → List Transaction}
    (sub : ∀ q, ∀ tx ∈ cut q, tx ∈ q.txs) : Orderly (active.map (fun q => {q with txs := cut q})) := by
  refine ⟨?_,?_⟩
  · rw [List.map_map]
    exact orderly.distinct
  · intro q member tx inside
    obtain ⟨q₀,original,rfl⟩ := List.mem_map.mp member
    exact orderly.owned q₀ original tx (sub q₀ tx inside)

theorem laneCut {cut : Queue → List Transaction} :
    lane ((active.map (fun q => {q with txs := cut q})).filter (·.txs ≠ [])) a =
      (active.filter (·.addr = a)).flatMap cut := by
  induction active with
  | nil => rfl
  | cons q rest ih =>
    rw [List.map_cons,List.filter_cons]
    by_cases own : q.addr = a
    · have kept : (q::rest).filter (·.addr = a) = q::rest.filter (·.addr = a) := by simp [own]
      rw [kept,List.flatMap_cons,← ih]
      by_cases used : cut q = []
      · simp [used]
      · simp [used,lane,own]
    · have dropped : (q::rest).filter (·.addr = a) = rest.filter (·.addr = a) := by simp [own]
      rw [dropped,← ih]
      split
      · simp [lane,own]
      · rfl

theorem laneWaiting (orderly : Orderly active) : lane (waiting st active) a = (lane active a).dropWhile (free st) := by
  rw [waiting,laneCut,lane]
  rcases laneCases orderly a with none | ⟨q,_,_,one⟩
  · simp [none]
  · simp [one]

theorem laneFilter (orderly : Orderly active) (p : Queue → Bool) : lane (active.filter p) a <+: lane active a := by
  unfold lane
  rw [List.filter_comm]
  rcases laneCases orderly a with none | ⟨q,_,_,one⟩
  · simp [none]
  · rw [one,List.filter_singleton]
    cases p q with
    | false => exact List.nil_prefix
    | true => exact List.prefix_refl _

theorem laneDrained (orderly : Orderly active) :
    (drained st active).filter (·.sender = a) = (lane active a).takeWhile (free st) := by
  have apart : (drained st active).filter (·.sender = a) =
      (active.filter (·.addr = a)).flatMap (fun q => q.txs.takeWhile (free st)) := by
    unfold drained
    have owned := orderly.owned
    clear orderly
    induction active with
    | nil => rfl
    | cons q rest ih =>
      rw [List.flatMap_cons,List.filter_append,ih (fun q member => owned q (List.mem_cons_of_mem _ member)),
        List.filter_cons]
      have own : ∀ tx ∈ q.txs.takeWhile (free st), tx.sender = q.addr := fun tx inside =>
        owned q List.mem_cons_self tx ((List.takeWhile_prefix _).subset inside)
      by_cases same : q.addr = a
      · have all : (q.txs.takeWhile (free st)).filter (·.sender = a) = q.txs.takeWhile (free st) :=
          List.filter_eq_self.mpr (fun tx inside => by simp [own tx inside,same])
        simp [all,same]
      · have none : (q.txs.takeWhile (free st)).filter (·.sender = a) = [] :=
          List.filter_eq_nil_iff.mpr (fun tx inside => by simp [own tx inside,same])
        simp [none,same]
  rw [apart,lane]
  rcases laneCases orderly a with none | ⟨q,_,_,one⟩
  · simp [none]
  · simp [one]

theorem drainedFree (member : tx ∈ drained st active) : isFeePriced st tx = false := by
  obtain ⟨q,_,inside⟩ := List.mem_flatMap.mp member
  simpa [free] using List.mem_takeWhile_imp inside

theorem winnerFront (won : winner baseFee active = some (addr,tx)) :
    ∃ q ∈ active, q.addr = addr ∧ ∃ rest, q.txs = tx::rest := by
  induction active with
  | nil => cases won
  | cons q rest ih =>
    have later : winner baseFee rest = some (addr,tx) → ∃ q' ∈ q::rest, q'.addr = addr ∧ ∃ rest, q'.txs = tx::rest := by
      intro won
      obtain ⟨q',member,found⟩ := ih won
      exact ⟨q',List.mem_cons_of_mem _ member,found⟩
    unfold winner at won
    split at won
    · exact later won
    · rename_i front _
      cases won
      exact ⟨q,List.mem_cons_self,rfl,_,front⟩
    · rename_i best front tail
      split at won
      · exact later (tail.trans won)
      · cases won
        exact ⟨q,List.mem_cons_self,rfl,_,front⟩

theorem winnerLane (orderly : Orderly active) (won : winner baseFee active = some (addr,tx)) :
    tx.sender = addr ∧ ∃ rest, lane active addr = tx::rest := by
  obtain ⟨q,member,own,rest,front⟩ := winnerFront won
  refine ⟨(orderly.owned q member tx (front ▸ List.mem_cons_self)).trans own,rest,?_⟩
  rw [lane]
  rcases laneCases orderly addr with none | ⟨q',_,_,one⟩
  · exact absurd own (by simpa using List.filter_eq_nil_iff.mp none q member)
  · have same : q ∈ active.filter (·.addr = addr) := List.mem_filter.mpr ⟨member,by simpa using own⟩
    rw [one,List.mem_singleton] at same
    rw [one,← same,List.flatMap_singleton,front]

theorem advanceEq (addr : Address) (active : List Queue) : advance addr active =
    (active.map (fun q => {q with txs := if q.addr = addr then q.txs.tail else q.txs})).filter (·.txs ≠ []) := by
  unfold advance
  refine congrArg _ (List.map_congr_left fun q _ => ?_)
  split <;> rfl

theorem advanceOrderly (orderly : Orderly active) (addr : Address) : Orderly (advance addr active) := by
  rw [advanceEq]
  refine filterOrderly (cutOrderly orderly fun q tx member => ?_) _
  split at member
  · exact List.mem_of_mem_tail member
  · exact member

theorem laneAdvance (orderly : Orderly active) :
    lane (advance addr active) a = if a = addr then (lane active a).tail else lane active a := by
  rw [advanceEq,laneCut,lane]
  rcases laneCases orderly a with none | ⟨q,_,own,one⟩
  · simp [none]
  · simp only [one,List.flatMap_singleton,own]

/- A selection takes a front part of every sender's queue: it drains free
transactions from the front, and takes a priced one only when it is the front. -/
theorem selectPrefix {fuel : Nat} {budget : UInt64} (orderly : Orderly active) :
    (select st baseFee gasLimit fuel active budget).filter (·.sender = a) <+: lane active a := by
  induction fuel generalizing active budget with
  | zero => exact List.nil_prefix
  | succ fuel ih =>
    have waits : Orderly (waiting st active) :=
      filterOrderly (cutOrderly orderly fun q tx member => (List.dropWhile_suffix _).subset member) _
    have lefts := filterOrderly waits (candidate baseFee)
    have rest : lane ((waiting st active).filter (candidate baseFee)) a <+: (lane active a).dropWhile (free st) := by
      rw [← laneWaiting orderly]
      exact laneFilter waits _
    have whole := List.takeWhile_append_dropWhile (p := free st) (l := lane active a)
    unfold select
    dsimp only
    split
    · rw [laneDrained orderly]
      exact List.takeWhile_prefix _
    · rename_i addr tx won
      split
      · rw [List.filter_append,laneDrained orderly]
        have later := (@ih _ budget (filterOrderly lefts (fun q => q.addr ≠ addr))).trans
          ((laneFilter lefts _).trans rest)
        refine List.IsPrefix.trans ((List.prefix_append_right_inj _).mpr later) ?_
        rw [whole]
      · rw [List.filter_append,laneDrained orderly]
        have later := @ih _ (budget + tx.gasLimit) (advanceOrderly lefts addr)
        rw [laneAdvance lefts] at later
        obtain ⟨own,tail,front⟩ := winnerLane lefts won
        have taken : (tx::select st baseFee gasLimit fuel (advance addr ((waiting st active).filter (candidate baseFee)))
            (budget + tx.gasLimit)).filter (·.sender = a) <+: (lane active a).dropWhile (free st) := by
          refine List.IsPrefix.trans ?_ rest
          by_cases mine : a = addr
          · subst mine
            rw [if_pos rfl,front] at later
            rw [List.filter_cons,if_pos (by simpa using own),front]
            exact List.cons_prefix_cons.mpr ⟨rfl,later⟩
          · rw [if_neg mine] at later
            rwa [List.filter_cons,if_neg (by simpa [own] using fun same => mine same.symm)]
        refine List.IsPrefix.trans ((List.prefix_append_right_inj _).mpr taken) ?_
        rw [whole]

theorem sendersMember : a ∈ senders mempool ↔ ∃ tx ∈ mempool, tx.sender = a := by
  rw [senders,(List.perm_insertionSort _ _).mem_iff,List.mem_eraseDups,List.mem_map]

theorem queueMember : tx ∈ queueOf mempool a ↔ tx ∈ mempool ∧ tx.sender = a := by
  rw [queueOf,(List.perm_insertionSort _ _).mem_iff,List.mem_filter]
  simp

theorem queuesOrderly (mempool : List Transaction) : Orderly (queues mempool) := by
  refine ⟨?_,?_⟩
  · have own : (queues mempool).map (·.addr) = senders mempool := by simp [queues,Function.comp_def]
    rw [own,senders,(List.perm_insertionSort _ _).nodup_iff]
    exact Runs.eraseDupsNodup _
  · intro q member tx inside
    obtain ⟨addr,_,rfl⟩ := List.mem_map.mp member
    exact (queueMember.mp inside).2

theorem laneQueues : lane (queues mempool) a = queueOf mempool a := by
  rw [lane]
  rcases laneCases (queuesOrderly mempool) a with none | ⟨q,member,own,one⟩
  · rw [none,List.flatMap_nil]
    refine (List.eq_nil_iff_forall_not_mem.mpr fun tx inside => ?_).symm
    obtain ⟨pooled,sent⟩ := queueMember.mp inside
    have listed : ⟨a,queueOf mempool a⟩ ∈ queues mempool :=
      List.mem_map.mpr ⟨a,sendersMember.mpr ⟨tx,pooled,sent⟩,rfl⟩
    exact absurd (List.filter_eq_nil_iff.mp none _ listed) (by simp)
  · obtain ⟨addr,_,rfl⟩ := List.mem_map.mp member
    rw [one,List.flatMap_singleton,← own]

end
end L1Chain.BlockBuilder

namespace L1Chain
open BlockBuilder

theorem buildPrefix (c : Chain) (mempool : List Transaction) (a : Address) :
    (c.buildBlockTxs mempool).filter (·.sender = a) <+: queueOf mempool a := by
  rw [← laneQueues]
  exact selectPrefix (queuesOrderly mempool)

theorem buildMember {c : Chain} {mempool : List Transaction} {tx : Transaction}
    (taken : tx ∈ c.buildBlockTxs mempool) : tx ∈ mempool := by
  have own : tx ∈ (c.buildBlockTxs mempool).filter (·.sender = tx.sender) := List.mem_filter.mpr ⟨taken,by simp⟩
  exact (queueMember.mp ((buildPrefix c mempool tx.sender).subset own)).1

end L1Chain
