import L1Chain.BlockBuilderSteps
import L1Chain.Progress
import Mathlib.Algebra.Order.BigOperators.Group.Finset

/-! The loop of BuildBlockTxs over its own variables: the positions in the queues, the
senders still active, the transactions included and the gas they reserve. `select` is
what the loop computes: `roundEq` says what a round does in the terms of `select`, and
`loopSelects` that the loop ends, for want of active senders, with that selection. -/
namespace L1Chain.BlockBuilder
open Transition

structure Candidate where
  addr : Address
  tx : Transaction
  priorityFee : UInt64

structure Setting where
  st : MptState
  baseFee : UInt64
  gasLimit : UInt64
  senders : List Address
  bySender : Address → List Transaction

structure Draft where
  queuePos : Address → ℕ
  active : Finset Address
  included : List Transaction
  gasBudget : UInt64

def Candidate.before (a b : Candidate) : Prop :=
  a.priorityFee > b.priorityFee ∨ a.priorityFee = b.priorityFee ∧ a.addr.toNat ≤ b.addr.toNat

instance : DecidableRel Candidate.before := fun _ _ => inferInstanceAs (Decidable (_ ∨ _))

def Draft.retire (d : Draft) (addr : Address) : Draft := {d with active := d.active.erase addr}

section
variable (p : Setting)

def Setting.start : Draft := ⟨fun _ => 0,p.senders.toFinset,[],0⟩

def drainSender (d : Draft) (addr : Address) : Draft :=
  if addr ∉ d.active then d
  else
    let taken := ((p.bySender addr).drop (d.queuePos addr)).takeWhile (free p.st)
    let i := d.queuePos addr + taken.length
    let d := {d with included := d.included ++ taken,queuePos := put d.queuePos addr i}
    if i ≥ (p.bySender addr).length then d.retire addr else d

def drain (d : Draft) : Draft := p.senders.foldl (drainSender p) d

-- `none` is the panic of an index out of range.
def collect (d : Draft) : List Address → Option (Draft × List Candidate)
  | [] => some (d,[])
  | addr::rest =>
    if addr ∉ d.active then collect d rest
    else
      match (p.bySender addr)[d.queuePos addr]? with
      | none => none
      | some tx =>
        if tx.gasFeeCap < p.baseFee then collect (d.retire addr) rest
        else (collect d rest).map fun r => (r.1,⟨addr,tx,priorityFee tx p.baseFee⟩::r.2)

def Draft.take (d : Draft) (addr : Address) (tx : Transaction) : Draft :=
  let d := {d with included := d.included ++ [tx],gasBudget := d.gasBudget + tx.gasLimit,
                   queuePos := put d.queuePos addr (d.queuePos addr + 1)}
  if d.queuePos addr ≥ (p.bySender addr).length then d.retire addr else d

def round (d : Draft) : Option Draft :=
  match collect p (drain p d) p.senders with
  | none => none
  | some (d,candidates) =>
    match candidates.insertionSort Candidate.before with
    | [] => some d
    | winner::_ =>
      if d.gasBudget + winner.tx.gasLimit > p.gasLimit then some (d.retire winner.addr)
      else some (d.take p winner.addr winner.tx)

-- `none` with fuel left is a panic.
def loop : ℕ → Draft → Option Draft
  | 0, _ => none
  | fuel+1, d => if d.active.card > 0 then (round p d).bind (loop fuel) else some d

end

/- The settings of a call: the queues are the pool's, each in some order of its nonces.
`sort.Slice` fixes that order up to entries of one nonce. -/
structure Arranged (c : Chain) (mempool : List Transaction) (p : Setting) : Prop where
  st : p.st = c.headState
  baseFee : p.baseFee = c.nextBaseFee
  gasLimit : p.gasLimit = c.gasLimit
  senders : p.senders = senders mempool
  bySender : ∀ a, (p.bySender a).Perm (mempool.filter (·.sender = a))
  sorted : ∀ a, (p.bySender a).Pairwise (fun x y => x.nonce.toNat ≤ y.nonce.toNat)

def setting (c : Chain) (mempool : List Transaction) : Setting :=
  ⟨c.headState,c.nextBaseFee,c.gasLimit,senders mempool,queueOf mempool⟩

structure Setting.Fair (p : Setting) : Prop where
  ordered : p.senders.Pairwise (fun a b => a.toNat < b.toNat)
  listed : ∀ a, a ∈ p.senders ↔ p.bySender a ≠ []
  owned : ∀ a, ∀ tx ∈ p.bySender a, tx.sender = a

section
variable {c : Chain} {mempool : List Transaction} {p : Setting} {d : Draft} {a addr : Address} {tx : Transaction}

theorem settingArranged (c : Chain) (mempool : List Transaction) : Arranged c mempool (setting c mempool) where
  st := rfl
  baseFee := rfl
  gasLimit := rfl
  senders := rfl
  bySender _ := List.perm_insertionSort _ _
  sorted a := by
    refine @List.pairwise_insertionSort _ (fun x y : Transaction => x.nonce.toNat ≤ y.nonce.toNat) _ ⟨fun x y => ?_⟩
      ⟨fun x y z first second => ?_⟩ (mempool.filter (·.sender = a))
    · exact Nat.le_total _ _
    · exact Nat.le_trans first second

theorem sendersOrdered (mempool : List Transaction) : (senders mempool).Pairwise (fun a b => a.toNat < b.toNat) := by
  have sorted : (senders mempool).Pairwise (fun a b => a.toNat ≤ b.toNat) :=
    @List.pairwise_insertionSort _ (fun a b : Address => a.toNat ≤ b.toNat) _ ⟨fun a b => Nat.le_total _ _⟩
      ⟨fun a b c first second => Nat.le_trans first second⟩ _
  have distinct : (senders mempool).Nodup := by
    rw [senders,(List.perm_insertionSort _ _).nodup_iff]
    exact Runs.eraseDupsNodup _
  refine (sorted.and distinct).imp fun {a b} h => ?_
  exact Nat.lt_of_le_of_ne h.1 fun same => h.2 (BitVec.eq_of_toNat_eq same)

theorem Arranged.member (arranged : Arranged c mempool p) : tx ∈ p.bySender a ↔ tx ∈ mempool ∧ tx.sender = a := by
  rw [(arranged.bySender a).mem_iff,List.mem_filter,decide_eq_true_iff]

theorem Arranged.fair (arranged : Arranged c mempool p) : p.Fair where
  ordered := arranged.senders ▸ sendersOrdered mempool
  owned a tx member := (arranged.member.mp member).2
  listed a := by
    rw [arranged.senders,sendersMember,Ne,List.eq_nil_iff_forall_not_mem]
    simp only [arranged.member,not_forall,not_not]

theorem Setting.Fair.nodup (fair : p.Fair) : p.senders.Nodup :=
  fair.ordered.imp fun {a b} below same => absurd below (by rw [same]; exact Nat.lt_irrefl _)

/- What is left of a sender's queue, and of the queues of all active senders: the
argument of `select` a draft stands for. -/
def rest (p : Setting) (d : Draft) (a : Address) : List Transaction := (p.bySender a).drop (d.queuePos a)

def left (p : Setting) (d : Draft) : List Queue := (p.senders.filter (· ∈ d.active)).map (fun a => ⟨a,rest p d a⟩)

theorem restLength : (rest p d a).length = (p.bySender a).length - d.queuePos a := List.length_drop

theorem restFront : (rest p d a)[0]? = (p.bySender a)[d.queuePos a]? := by
  rw [rest,List.getElem?_drop,Nat.add_zero]

theorem dropTaken {α : Type} (q : α → Bool) (l : List α) : l.drop (l.takeWhile q).length = l.dropWhile q := by
  have whole : l.takeWhile q ++ l.dropWhile q = l := List.takeWhile_append_dropWhile
  calc l.drop (l.takeWhile q).length
      = (l.takeWhile q ++ l.dropWhile q).drop (l.takeWhile q).length := by rw [whole]
    _ = l.dropWhile q := List.drop_left

theorem usedUp : d.queuePos a + ((rest p d a).takeWhile (free p.st)).length ≥ (p.bySender a).length ↔
    (rest p d a).dropWhile (free p.st) = [] := by
  have split := congrArg List.length (List.takeWhile_append_dropWhile (p := free p.st) (l := rest p d a))
  rw [List.length_append,restLength] at split
  rw [← List.length_eq_zero_iff]
  omega

theorem drainSenderOff (absent : addr ∉ d.active) : drainSender p d addr = d := if_pos absent

theorem drainSenderOn (active : addr ∈ d.active) : drainSender p d addr =
    ⟨put d.queuePos addr (d.queuePos addr + ((rest p d addr).takeWhile (free p.st)).length),
      if (rest p d addr).dropWhile (free p.st) = [] then d.active.erase addr else d.active,
      d.included ++ (rest p d addr).takeWhile (free p.st),d.gasBudget⟩ := by
  have step : drainSender p d addr = _ := if_neg (not_not.mpr active)
  rw [step]
  by_cases used : (rest p d addr).dropWhile (free p.st) = []
  · rw [if_pos used]
    exact if_pos (usedUp.mpr used)
  · rw [if_neg used]
    exact if_neg (fun all => used (usedUp.mp all))

theorem drainSenderPos : (drainSender p d addr).queuePos a = if a = addr ∧ a ∈ d.active
    then d.queuePos a + ((rest p d a).takeWhile (free p.st)).length else d.queuePos a := by
  by_cases active : addr ∈ d.active
  · rw [drainSenderOn active]
    change put d.queuePos addr _ a = _
    by_cases mine : a = addr
    · subst mine
      simp [put,active]
    · simp [put,mine]
  · have off : ¬ (a = addr ∧ a ∈ d.active) := fun h => active (h.1 ▸ h.2)
    rw [drainSenderOff active,if_neg off]

theorem drainSenderActive : a ∈ (drainSender p d addr).active ↔
    a ∈ d.active ∧ (a = addr → (rest p d a).dropWhile (free p.st) ≠ []) := by
  by_cases active : addr ∈ d.active
  · rw [drainSenderOn active]
    by_cases used : (rest p d addr).dropWhile (free p.st) = []
    · rw [if_pos used,Finset.mem_erase]
      exact ⟨fun h => ⟨h.2,fun same => absurd same h.1⟩,fun h => ⟨fun same => h.2 same (same ▸ used),h.1⟩⟩
    · rw [if_neg used]
      exact ⟨fun h => ⟨h,fun same => same ▸ used⟩,fun h => h.1⟩
  · rw [drainSenderOff active]
    exact ⟨fun h => ⟨h,fun same => absurd (same ▸ h) active⟩,fun h => h.1⟩

theorem drainSenderIncluded : (drainSender p d addr).included =
    d.included ++ if addr ∈ d.active then (rest p d addr).takeWhile (free p.st) else [] := by
  by_cases active : addr ∈ d.active
  · rw [drainSenderOn active,if_pos active]
  · rw [drainSenderOff active,if_neg active,List.append_nil]

theorem drainSenderBudget : (drainSender p d addr).gasBudget = d.gasBudget := by
  by_cases active : addr ∈ d.active
  · rw [drainSenderOn active]
  · rw [drainSenderOff active]

theorem restDrained (other : a ≠ addr) : rest p (drainSender p d addr) a = rest p d a := by
  rw [rest,drainSenderPos,if_neg (fun h => other h.1),rest]

theorem drainPos {l : List Address} (distinct : l.Nodup) : (l.foldl (drainSender p) d).queuePos a =
    if a ∈ l ∧ a ∈ d.active then d.queuePos a + ((rest p d a).takeWhile (free p.st)).length else d.queuePos a := by
  induction l generalizing d with
  | nil => simp
  | cons addr l ih =>
    obtain ⟨fresh,distinct⟩ := List.nodup_cons.mp distinct
    rw [List.foldl_cons,ih distinct]
    by_cases mine : a = addr
    · subst mine
      rw [if_neg (fun h => fresh h.1),drainSenderPos]
      simp
    · simp only [drainSenderActive,restDrained mine,drainSenderPos,mine,List.mem_cons,false_and,false_or,
        if_false,false_implies,and_true]

theorem drainActive {l : List Address} (distinct : l.Nodup) : a ∈ (l.foldl (drainSender p) d).active ↔
    a ∈ d.active ∧ (a ∈ l → (rest p d a).dropWhile (free p.st) ≠ []) := by
  induction l generalizing d with
  | nil => simp
  | cons addr l ih =>
    obtain ⟨fresh,distinct⟩ := List.nodup_cons.mp distinct
    rw [List.foldl_cons,ih distinct,drainSenderActive]
    by_cases mine : a = addr
    · subst mine
      simp [fresh]
    · rw [restDrained mine]
      simp [mine]

theorem drainIncluded {l : List Address} (distinct : l.Nodup) : (l.foldl (drainSender p) d).included =
    d.included ++ (l.filter (· ∈ d.active)).flatMap (fun a => (rest p d a).takeWhile (free p.st)) := by
  induction l generalizing d with
  | nil => simp
  | cons addr l ih =>
    obtain ⟨fresh,distinct⟩ := List.nodup_cons.mp distinct
    have apart : ∀ a ∈ l, a ≠ addr := fun a member same => fresh (same ▸ member)
    have stay : l.filter (· ∈ (drainSender p d addr).active) = l.filter (· ∈ d.active) :=
      List.filter_congr fun a member => by simp [drainSenderActive,apart a member]
    have same : (l.filter (· ∈ d.active)).flatMap (fun a => (rest p (drainSender p d addr) a).takeWhile (free p.st)) =
        (l.filter (· ∈ d.active)).flatMap (fun a => (rest p d a).takeWhile (free p.st)) :=
      List.flatMap_congr fun a member => by rw [restDrained (apart a (List.mem_of_mem_filter member))]
    rw [List.foldl_cons,ih distinct,stay,same,drainSenderIncluded,List.append_assoc,List.filter_cons]
    by_cases active : addr ∈ d.active
    · simp [active]
    · simp [active]

theorem drainBudget {l : List Address} : (l.foldl (drainSender p) d).gasBudget = d.gasBudget := by
  induction l generalizing d with
  | nil => rfl
  | cons addr l ih => rw [List.foldl_cons,ih,drainSenderBudget]

def settled (p : Setting) (d : Draft) : Draft where
  queuePos a := if a ∈ d.active then d.queuePos a + ((rest p d a).takeWhile (free p.st)).length else d.queuePos a
  active := d.active.filter (fun a => candidate p.baseFee ⟨a,(rest p d a).dropWhile (free p.st)⟩)
  included := d.included ++ drained p.st (left p d)
  gasBudget := d.gasBudget

def offers (baseFee : UInt64) (active : List Queue) : List Candidate :=
  active.filterMap (fun q => q.txs.head?.map (fun tx => ⟨q.addr,tx,priorityFee tx baseFee⟩))

theorem offersCons {baseFee : UInt64} {q : Queue} {later : List Transaction} {active : List Queue}
    (front : q.txs = tx::later) :
    offers baseFee (q::active) = ⟨q.addr,tx,priorityFee tx baseFee⟩::offers baseFee active := by
  rw [offers,List.filterMap_cons,front]
  rfl

theorem leftCongr {d e : Draft} {l : List Address} (active : ∀ a ∈ l, a ∈ d.active ↔ a ∈ e.active)
    (same : ∀ a ∈ l, rest p d a = rest p e a) :
    (l.filter (· ∈ d.active)).map (fun a => (⟨a,rest p d a⟩ : Queue)) =
      (l.filter (· ∈ e.active)).map (fun a => ⟨a,rest p e a⟩) := by
  rw [List.filter_congr (fun a member => decide_eq_decide.mpr (active a member))]
  exact List.map_congr_left fun a member => by rw [same a (List.mem_of_mem_filter member)]

theorem keptCons {s : Finset Address} {l : List Address} {keep : Address → Bool} {addr : Address}
    (stays : addr ∈ s → keep addr = true) :
    s.filter (fun a => a ∈ l → keep a) = s.filter (fun a => a ∈ addr::l → keep a) := by
  refine Finset.filter_congr fun a member => ?_
  by_cases mine : a = addr
  · subst mine
    simp [stays member]
  · simp [mine]

theorem leftCons {s : Finset Address} {l : List Address} {keep : Address → Bool} {addr : Address} (out : keep addr = false) :
    (s.erase addr).filter (fun a => a ∈ l → keep a) = s.filter (fun a => a ∈ addr::l → keep a) := by
  refine Finset.ext fun a => ?_
  rw [Finset.mem_filter,Finset.mem_filter,Finset.mem_erase]
  by_cases mine : a = addr
  · subst mine
    simp [out]
  · simp [mine]

theorem collectEq {l : List Address} (distinct : l.Nodup) (fronts : ∀ a ∈ l, a ∈ d.active → rest p d a ≠ []) :
    collect p d l = some ({d with active := d.active.filter (fun a => a ∈ l → candidate p.baseFee ⟨a,rest p d a⟩)},
      offers p.baseFee (((l.filter (· ∈ d.active)).map (fun a => ⟨a,rest p d a⟩)).filter (candidate p.baseFee))) := by
  induction l generalizing d with
  | nil =>
    have all : d.active.filter (fun a => a ∈ ([] : List Address) → candidate p.baseFee ⟨a,rest p d a⟩) = d.active :=
      Finset.filter_true_of_mem fun a _ member => absurd member List.not_mem_nil
    rw [all]
    rfl
  | cons addr l ih =>
    obtain ⟨fresh,distinct⟩ := List.nodup_cons.mp distinct
    have later : ∀ a ∈ l, a ∈ d.active → rest p d a ≠ [] := fun a member => fronts a (List.mem_cons_of_mem _ member)
    unfold collect
    by_cases active : addr ∈ d.active
    · rw [if_neg (not_not.mpr active),List.filter_cons,if_pos (decide_eq_true active),List.map_cons,List.filter_cons]
      cases front : rest p d addr with
      | nil => exact absurd front (fronts addr List.mem_cons_self active)
      | cons tx tail =>
        have found : (p.bySender addr)[d.queuePos addr]? = some tx := by
          rw [← restFront,front]
          rfl
        rw [found]
        dsimp only
        by_cases cheap : tx.gasFeeCap < p.baseFee
        · have out : candidate p.baseFee ⟨addr,tx::tail⟩ = false := by
            simpa [candidate] using UInt64.not_le.mpr cheap
          rw [if_pos cheap,@ih (d.retire addr) distinct (fun a member held => later a member (Finset.mem_of_mem_erase held)),
            out]
          have other : ∀ a ∈ l, a ∈ (d.retire addr).active ↔ a ∈ d.active := fun a member => by
            simp [Draft.retire,show a ≠ addr from fun same => fresh (same ▸ member)]
          rw [leftCongr other fun _ _ => rfl]
          have leaves : candidate p.baseFee ⟨addr,rest p d addr⟩ = false := by rw [front,out]
          exact congrArg (fun s => some ({d with active := s},_))
            (@leftCons d.active l (fun a => candidate p.baseFee ⟨a,rest p d a⟩) addr leaves)
        · have meets : candidate p.baseFee ⟨addr,tx::tail⟩ = true := by
            simpa [candidate] using UInt64.not_lt.mp cheap
          rw [if_neg cheap,ih distinct later,meets,Option.map_some,if_pos rfl,offersCons rfl]
          have stays : candidate p.baseFee ⟨addr,rest p d addr⟩ = true := by rw [front,meets]
          exact congrArg (fun s => some ({d with active := s},_))
            (@keptCons d.active l (fun a => candidate p.baseFee ⟨a,rest p d a⟩) addr fun _ => stays)
    · rw [if_pos active,ih distinct later,List.filter_cons,if_neg (by simpa using active)]
      exact congrArg (fun s => some ({d with active := s},_)) (keptCons fun held => absurd held active)

def Listed (p : Setting) (d : Draft) : Prop := ∀ a ∈ d.active, a ∈ p.senders

theorem settledRest (active : a ∈ d.active) : rest p (settled p d) a = (rest p d a).dropWhile (free p.st) := by
  have moved : (settled p d).queuePos a = d.queuePos a + ((rest p d a).takeWhile (free p.st)).length := if_pos active
  rw [rest,moved,← List.drop_drop,← dropTaken]
  rfl

theorem drainRest (fair : p.Fair) (listed : Listed p d) (active : a ∈ d.active) :
    rest p (drain p d) a = (rest p d a).dropWhile (free p.st) := by
  rw [← settledRest active,rest,drain,drainPos fair.nodup,if_pos ⟨listed a active,active⟩]
  exact congrArg (fun i => (p.bySender a).drop i) (if_pos active).symm

theorem drainKeeps (fair : p.Fair) (listed : Listed p d) :
    a ∈ (drain p d).active ↔ a ∈ d.active ∧ (rest p d a).dropWhile (free p.st) ≠ [] := by
  rw [drain,drainActive fair.nodup]
  exact ⟨fun h => ⟨h.1,h.2 (listed a h.1)⟩,fun h => ⟨h.1,fun _ => h.2⟩⟩

theorem candidateNonempty {baseFee : UInt64} {q : Queue} (meets : candidate baseFee q = true) : q.txs ≠ [] := by
  intro none
  simp [candidate,none] at meets

theorem settledActive : a ∈ (settled p d).active ↔
    a ∈ d.active ∧ candidate p.baseFee ⟨a,(rest p d a).dropWhile (free p.st)⟩ = true := Finset.mem_filter

theorem settledListed (listed : Listed p d) : Listed p (settled p d) :=
  fun a active => listed a (settledActive.mp active).1

theorem leftCut {e : Draft} {cut : Queue → List Transaction} {keep : Queue → Bool}
    (moved : ∀ a ∈ d.active, rest p e a = cut ⟨a,rest p d a⟩)
    (stay : ∀ a, a ∈ e.active ↔ a ∈ d.active ∧ keep ⟨a,cut ⟨a,rest p d a⟩⟩ = true) :
    left p e = ((left p d).map (fun q => {q with txs := cut q})).filter keep := by
  rw [left,left,List.map_map,List.filter_map,List.filter_filter]
  have same : p.senders.filter (· ∈ e.active) =
      p.senders.filter (fun a => keep ⟨a,cut ⟨a,rest p d a⟩⟩ && decide (a ∈ d.active)) :=
    List.filter_congr fun a _ => by
      rw [Bool.eq_iff_iff,decide_eq_true_iff,stay,Bool.and_eq_true,decide_eq_true_iff,and_comm]
  rw [same]
  refine List.map_congr_left fun a member => ?_
  have both := (List.mem_filter.mp member).2
  rw [Bool.and_eq_true,decide_eq_true_iff] at both
  rw [moved a both.2]
  rfl

theorem settledLeft : left p (settled p d) = (waiting p.st (left p d)).filter (candidate p.baseFee) := by
  have used : ∀ q : Queue, candidate p.baseFee q = (candidate p.baseFee q && decide (q.txs ≠ [])) := fun q => by
    cases meets : candidate p.baseFee q with
    | false => rfl
    | true => simp [candidateNonempty meets]
  rw [waiting,List.filter_filter,List.filter_congr fun q _ => (used q).symm]
  exact leftCut (fun _ => settledRest) (fun _ => settledActive)

theorem settledEq (fair : p.Fair) (listed : Listed p d) :
    collect p (drain p d) p.senders = some (settled p d,offers p.baseFee (left p (settled p d))) := by
  have fronts : ∀ a ∈ p.senders, a ∈ (drain p d).active → rest p (drain p d) a ≠ [] := fun a _ active => by
    obtain ⟨before,some⟩ := (drainKeeps fair listed).mp active
    rwa [drainRest fair listed before]
  have queues : left p (drain p d) = waiting p.st (left p d) :=
    leftCut (fun _ => drainRest fair listed) fun a => by rw [drainKeeps fair listed,decide_eq_true_iff]
  rw [collectEq fair.nodup fronts]
  change some (_,offers p.baseFee ((left p (drain p d)).filter (candidate p.baseFee))) = _
  rw [queues,← settledLeft]
  refine congrArg (fun e => some (e,_)) ?_
  rw [settled,Draft.mk.injEq]
  refine ⟨funext fun a => ?_,Finset.ext fun a => ?_,?_,drainBudget⟩
  · rw [drain,drainPos fair.nodup]
    by_cases active : a ∈ d.active
    · rw [if_pos ⟨listed a active,active⟩,if_pos active]
    · rw [if_neg (fun h => active h.2),if_neg active]
  · rw [Finset.mem_filter,Finset.mem_filter,drainKeeps fair listed]
    constructor
    · rintro ⟨⟨active,_⟩,meets⟩
      have own := meets (listed a active)
      rw [drainRest fair listed active] at own
      exact ⟨active,own⟩
    · rintro ⟨active,meets⟩
      refine ⟨⟨active,candidateNonempty meets⟩,fun _ => ?_⟩
      rwa [drainRest fair listed active]
  · rw [drain,drainIncluded fair.nodup,drained,left,List.flatMap_map]

theorem sortedFront {baseFee : UInt64} {active : List Queue}
    (ordered : active.Pairwise (fun q r => q.addr.toNat < r.addr.toNat)) (fronts : ∀ q ∈ active, q.txs ≠ []) :
    ((offers baseFee active).insertionSort Candidate.before).head? =
      (winner baseFee active).map (fun w => ⟨w.1,w.2,priorityFee w.2 baseFee⟩) := by
  induction active with
  | nil => rfl
  | cons q active ih =>
    obtain ⟨below,ordered⟩ := List.pairwise_cons.mp ordered
    have later := ih ordered fun r member => fronts r (List.mem_cons_of_mem _ member)
    cases front : q.txs with
    | nil => exact absurd front (fronts q List.mem_cons_self)
    | cons tx tail =>
      rw [offersCons front,List.insertionSort_cons,winner,front]
      cases sorted : (offers baseFee active).insertionSort Candidate.before with
      | nil =>
        rw [sorted,List.head?_nil] at later
        rw [Option.map_eq_none_iff.mp later.symm]
        rfl
      | cons x rest =>
        rw [sorted,List.head?_cons] at later
        obtain ⟨best,won,rfl⟩ := Option.map_eq_some_iff.mp later.symm
        obtain ⟨r,member,own,_⟩ := winnerFront won
        rw [won,List.orderedInsert]
        have less : q.addr.toNat ≤ best.1.toNat := own ▸ Nat.le_of_lt (below r member)
        by_cases more : priorityFee best.2 baseFee > priorityFee tx baseFee
        · have after : ¬ Candidate.before ⟨q.addr,tx,priorityFee tx baseFee⟩ ⟨best.1,best.2,priorityFee best.2 baseFee⟩ := by
            rintro (above | ⟨same,_⟩)
            · exact UInt64.lt_asymm more above
            · exact UInt64.ne_of_lt more same
          rw [if_neg after]
          dsimp only
          rw [if_pos more]
          rfl
        · have first : Candidate.before ⟨q.addr,tx,priorityFee tx baseFee⟩ ⟨best.1,best.2,priorityFee best.2 baseFee⟩ := by
            rcases UInt64.lt_or_eq_of_le (UInt64.not_lt.mp more) with above | same
            · exact .inl above
            · exact .inr ⟨same.symm,less⟩
          rw [if_pos first]
          dsimp only
          rw [if_neg more]
          rfl

theorem selectNone {st : MptState} {baseFee gasLimit : UInt64} {fuel : ℕ} {budget : UInt64} :
    select st baseFee gasLimit fuel [] budget = [] := by
  cases fuel <;> rfl

theorem winnerSome {baseFee : UInt64} {active : List Queue} {q : Queue} (member : q ∈ active) (front : q.txs ≠ []) :
    winner baseFee active ≠ none := by
  induction active with
  | nil => cases member
  | cons r active ih =>
    intro none
    unfold winner at none
    split at none
    · rename_i used
      rcases List.mem_cons.mp member with rfl | later
      · exact front used
      · exact ih later none
    · cases none
    · split at none <;> cases none

def best (p : Setting) (d : Draft) : Option (Address × Transaction) := winner p.baseFee (left p (settled p d))

theorem settledFront (fair : p.Fair) :
    ((offers p.baseFee (left p (settled p d))).insertionSort Candidate.before).head? =
      (best p d).map (fun w => ⟨w.1,w.2,priorityFee w.2 p.baseFee⟩) := by
  refine sortedFront ((fair.ordered.filter _).map _ fun _ _ below => below) fun q member => ?_
  rw [settledLeft] at member
  exact candidateNonempty (List.mem_filter.mp member).2

theorem roundEq (fair : p.Fair) (listed : Listed p d) : round p d = some (match best p d with
    | none => settled p d
    | some (addr,tx) =>
      if d.gasBudget + tx.gasLimit > p.gasLimit then (settled p d).retire addr else (settled p d).take p addr tx) := by
  have front := @settledFront _ d fair
  rw [round,settledEq fair listed]
  dsimp only
  cases sorted : (offers p.baseFee (left p (settled p d))).insertionSort Candidate.before with
  | nil =>
    rw [sorted,List.head?_nil] at front
    rw [Option.map_eq_none_iff.mp front.symm]
  | cons x rest =>
    rw [sorted,List.head?_cons] at front
    obtain ⟨w,won,rfl⟩ := Option.map_eq_some_iff.mp front.symm
    rw [won]
    exact (apply_ite some _ _ _).symm

theorem bestFront (won : best p d = some (addr,tx)) :
    addr ∈ (settled p d).active ∧ ∃ tail, rest p (settled p d) addr = tx::tail := by
  obtain ⟨q,member,rfl,tail,front⟩ := winnerFront won
  obtain ⟨a,held,rfl⟩ := List.mem_map.mp member
  exact ⟨by simpa using (List.mem_filter.mp held).2,tail,front⟩

section
variable {tail : List Transaction} (front : rest p d addr = tx::tail)
include front

theorem takeEnds : d.queuePos addr + 1 ≥ (p.bySender addr).length ↔ tail = [] := by
  have size := congrArg List.length front
  rw [restLength,List.length_cons] at size
  rw [← List.length_eq_zero_iff]
  omega

theorem takeEq : d.take p addr tx = ⟨put d.queuePos addr (d.queuePos addr + 1),
    if tail = [] then d.active.erase addr else d.active,d.included ++ [tx],d.gasBudget + tx.gasLimit⟩ := by
  have ended : put d.queuePos addr (d.queuePos addr + 1) addr ≥ (p.bySender addr).length ↔ tail = [] := by
    rw [← takeEnds front,put,if_pos rfl]
  by_cases ends : tail = []
  · rw [if_pos ends]
    exact if_pos (ended.mpr ends)
  · rw [if_neg ends]
    exact if_neg fun all => ends (ended.mp all)

theorem takeRest : rest p (d.take p addr tx) a = if a = addr then (rest p d a).tail else rest p d a := by
  rw [takeEq front]
  change (p.bySender a).drop (put d.queuePos addr _ a) = _
  by_cases mine : a = addr
  · subst mine
    rw [if_pos rfl,rest,List.tail_drop]
    simp [put]
  · rw [if_neg mine]
    simp [put,mine,rest]

theorem takeActive : a ∈ (d.take p addr tx).active ↔ a ∈ d.active ∧ (a = addr → tail ≠ []) := by
  rw [takeEq front]
  by_cases ends : tail = []
  · simp [ends,and_comm]
  · simp [ends]

end

theorem retireLeft : left p (d.retire addr) = (left p d).filter (·.addr ≠ addr) := by
  have cut : left p (d.retire addr) = ((left p d).map (fun q => {q with txs := q.txs})).filter (·.addr ≠ addr) :=
    leftCut (fun _ _ => rfl) fun a => by rw [Draft.retire,Finset.mem_erase,decide_eq_true_iff,and_comm]
  simpa using cut

theorem takeLeft {tail : List Transaction} (fronts : ∀ a ∈ d.active, rest p d a ≠ [])
    (front : rest p d addr = tx::tail) : left p (d.take p addr tx) = advance addr (left p d) := by
  rw [advanceEq]
  refine leftCut (fun a _ => takeRest front) fun a => ?_
  rw [takeActive front,decide_eq_true_iff]
  refine and_congr_right fun active => ?_
  by_cases mine : a = addr
  · subst mine
    simp [front]
  · simp [mine,fronts a active]

/- A sender still active weighs what is left of its queue and one for itself: every
round takes from one sender or retires one. -/
def weight (p : Setting) (d : Draft) : ℕ := ∑ a ∈ d.active, ((rest p d a).length + 1)

theorem weightLe {e : Draft} (sub : e.active ⊆ d.active)
    (less : ∀ a ∈ e.active, (rest p e a).length ≤ (rest p d a).length) : weight p e ≤ weight p d :=
  calc weight p e ≤ ∑ a ∈ e.active, ((rest p d a).length + 1) :=
        Finset.sum_le_sum fun a active => Nat.succ_le_succ (less a active)
    _ ≤ weight p d := Finset.sum_le_sum_of_subset sub

theorem settledWeight : weight p (settled p d) ≤ weight p d := by
  refine weightLe (Finset.filter_subset _ _) fun a active => ?_
  rw [settledRest (settledActive.mp active).1]
  exact (List.dropWhile_suffix _).length_le

theorem retireWeight (active : addr ∈ d.active) : weight p (d.retire addr) < weight p d := by
  have split := Finset.add_sum_erase d.active (fun a => (rest p d a).length + 1) active
  change ∑ a ∈ d.active.erase addr, ((rest p d a).length + 1) < weight p d
  rw [weight]
  omega

theorem takeWeight {tail : List Transaction} (active : addr ∈ d.active) (front : rest p d addr = tx::tail) :
    weight p (d.take p addr tx) < weight p d := by
  have lighter : ∑ a ∈ d.active, ((rest p (d.take p addr tx) a).length + 1) < weight p d := by
    refine Finset.sum_lt_sum (fun a _ => ?_) ⟨addr,active,?_⟩
    · rw [takeRest front]
      split
      · rw [List.length_tail]
        omega
      · exact Nat.le_refl _
    · rw [takeRest front,if_pos rfl,front]
      exact Nat.lt_succ_self _
  exact Nat.lt_of_le_of_lt (Finset.sum_le_sum_of_subset fun a inside => ((takeActive front).mp inside).1) lighter

inductive Round (p : Setting) (d : Draft) : Draft → Prop
  | idle (none : best p d = none) : Round p d (settled p d)
  | refused {addr : Address} {tx : Transaction} (won : best p d = some (addr,tx))
      (unfit : d.gasBudget + tx.gasLimit > p.gasLimit) : Round p d ((settled p d).retire addr)
  | taken {addr : Address} {tx : Transaction} (won : best p d = some (addr,tx))
      (fits : ¬ d.gasBudget + tx.gasLimit > p.gasLimit) : Round p d ((settled p d).take p addr tx)

theorem roundCases (fair : p.Fair) (listed : Listed p d) : ∃ e, round p d = some e ∧ Round p d e := by
  rw [roundEq fair listed]
  cases won : best p d with
  | none => exact ⟨_,rfl,.idle won⟩
  | some w =>
    dsimp only
    by_cases unfit : d.gasBudget + w.2.gasLimit > p.gasLimit
    · rw [if_pos unfit]
      exact ⟨_,rfl,.refused won unfit⟩
    · rw [if_neg unfit]
      exact ⟨_,rfl,.taken won unfit⟩

variable {e : Draft} {fuel : ℕ}

theorem roundListed (listed : Listed p d) (step : Round p d e) : Listed p e := by
  have settles := settledListed listed
  cases step with
  | idle => exact settles
  | refused => exact fun a active => settles a (Finset.mem_of_mem_erase active)
  | taken won =>
    obtain ⟨_,tail,front⟩ := bestFront won
    exact fun a active => settles a ((takeActive front).mp active).1

theorem idleActive (listed : Listed p d) (none : best p d = none) : (settled p d).active = ∅ := by
  refine Finset.eq_empty_iff_forall_notMem.mpr fun a active => ?_
  have member : ⟨a,rest p (settled p d) a⟩ ∈ left p (settled p d) :=
    List.mem_map.mpr ⟨a,List.mem_filter.mpr ⟨settledListed listed a active,by simpa using active⟩,rfl⟩
  have waits : (⟨a,rest p (settled p d) a⟩ : Queue) ∈ (waiting p.st (left p d)).filter (candidate p.baseFee) :=
    settledLeft ▸ member
  have front := candidateNonempty (List.mem_filter.mp waits).2
  rw [best] at none
  exact absurd none (winnerSome member front)

theorem roundWeight (listed : Listed p d) (some : d.active.card > 0) (step : Round p d e) : weight p e < weight p d := by
  cases step with
  | idle none =>
    obtain ⟨a,active⟩ := Finset.card_pos.mp some
    have nothing : weight p (settled p d) = 0 := by
      rw [weight,idleActive listed none,Finset.sum_empty]
    have least := Finset.single_le_sum (f := fun a => (rest p d a).length + 1) (fun _ _ => Nat.zero_le _) active
    rw [nothing,weight]
    exact Nat.lt_of_lt_of_le (Nat.succ_pos _) least
  | refused won =>
    exact Nat.lt_of_lt_of_le (retireWeight (bestFront won).1) settledWeight
  | taken won =>
    obtain ⟨active,tail,front⟩ := bestFront won
    exact Nat.lt_of_lt_of_le (takeWeight active front) settledWeight

theorem roundSelects (step : Round p d e) (listed : Listed p d) :
    d.included ++ select p.st p.baseFee p.gasLimit (fuel + 1) (left p d) d.gasBudget =
      e.included ++ select p.st p.baseFee p.gasLimit fuel (left p e) e.gasBudget := by
  have front : winner p.baseFee (left p (settled p d)) = best p d := rfl
  rw [select,← settledLeft,front]
  cases step with
  | idle none =>
    have empty : left p (settled p d) = [] := by simp [left,idleActive listed none]
    have nothing : select p.st p.baseFee p.gasLimit fuel [] (settled p d).gasBudget = [] := selectNone
    rw [none,empty,nothing,List.append_nil]
    rfl
  | refused won unfit =>
    rw [won,retireLeft]
    dsimp only
    rw [if_pos unfit,← List.append_assoc]
    rfl
  | taken won fits =>
    obtain ⟨_,tail,front⟩ := bestFront won
    have fronts : ∀ a ∈ (settled p d).active, rest p (settled p d) a ≠ [] := fun a active => by
      obtain ⟨before,meets⟩ := settledActive.mp active
      rw [settledRest before]
      exact candidateNonempty meets
    rw [won,takeLeft fronts front,takeEq front]
    dsimp only
    rw [if_neg fits]
    simp [settled]

theorem loopSelects (fair : p.Fair) (listed : Listed p d) (light : weight p d ≤ fuel) :
    ∃ e, loop p (fuel + 1) d = some e ∧
      e.included = d.included ++ select p.st p.baseFee p.gasLimit fuel (left p d) d.gasBudget := by
  induction fuel generalizing d with
  | zero =>
    have none : ¬ d.active.card > 0 := by
      intro some
      obtain ⟨e,_,step⟩ := roundCases fair listed
      have lighter := roundWeight listed some step
      omega
    exact ⟨d,if_neg none,(List.append_nil _).symm⟩
  | succ fuel ih =>
    obtain ⟨e,next,step⟩ := roundCases fair listed
    by_cases some : d.active.card > 0
    · have lighter := roundWeight listed some step
      obtain ⟨e',ran,selected⟩ := ih (roundListed listed step) (by omega)
      refine ⟨e',?_,?_⟩
      · rw [loop,if_pos some,next,Option.bind_some,ran]
      · rw [selected,roundSelects step listed]
    · have empty : left p d = [] := by
        simp [left,Finset.card_eq_zero.mp (Nat.eq_zero_of_not_pos some)]
      refine ⟨d,if_neg some,?_⟩
      rw [empty,selectNone,List.append_nil]

theorem loopMore {n : ℕ} (ran : loop p n d = some e) : loop p (n + 1) d = some e := by
  induction n generalizing d with
  | zero => cases ran
  | succ n ih =>
    rw [loop] at ran ⊢
    split
    · rename_i some
      rw [if_pos some] at ran
      obtain ⟨d',next,later⟩ := Option.bind_eq_some_iff.mp ran
      rw [next,Option.bind_some]
      exact ih later
    · rename_i none
      rwa [if_neg none] at ran

theorem loopFrom {n m : ℕ} (ran : loop p n d = some e) (more : n ≤ m) : loop p m d = some e := by
  induction more with
  | refl => exact ran
  | step _ ih => exact loopMore ih

end
end L1Chain.BlockBuilder
