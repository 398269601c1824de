import L1Chain.Effects
import L1Chain.ExchangeSteps
import L1Chain.Chain

/-! Nonces through a block. An accepted transaction carries its sender's nonce and
raises it by one; only the interpreter could move another account's. So the
transactions of one sender in an accepted block count up from the nonce before it. -/
namespace L1Chain.Transition
open Exchange MptState StackVM Runs

def Consecutive : UInt64 → List Transaction → Prop
  | _, [] => True
  | k, tx::rest => tx.nonce = k ∧ Consecutive (k + 1) rest

def blockTrace {E : Type} (env : Env E) (verifySig : VerifySig) (st : MptState) (txs : List Transaction)
    (height : UInt64) (mode : Exchange.Mode) (baseFee : UInt64) : List (Applied MptState E) :=
  match openSession env st txs mode with
  | .error _ => []
  | .ok session => applied env verifySig height baseFee 0 ⟨st,session,0,0⟩ txs

def Applied.KeepsNonce {E : Type} (a : Address) (x : Applied MptState E) : Prop :=
  route x.before x.tx = .evm → a ≠ x.tx.sender → (x.after.st.accounts a).nonce = (x.before.accounts a).nonce

section
variable {k : UInt64} {l taken : List Transaction} {tx u : Transaction} {i j : Nat}

theorem nonceAt (counts : Consecutive k l) (found : l[i]? = some tx) : tx.nonce = k + UInt64.ofNat i := by
  induction l generalizing k i with
  | nil => simp at found
  | cons t rest ih =>
    cases i with
    | zero =>
      cases found
      rw [counts.1]
      simp
    | succ i =>
      rw [ih counts.2 found,← ofNatSucc,UInt64.add_assoc,UInt64.add_comm 1]

theorem consecutiveAppend : Consecutive k (l ++ taken) ↔ Consecutive k l ∧ Consecutive (k + UInt64.ofNat l.length) taken := by
  induction l generalizing k with
  | nil => simp [Consecutive]
  | cons t rest ih =>
    rw [List.cons_append,Consecutive,ih,Consecutive,and_assoc,List.length_cons,← ofNatSucc,UInt64.add_assoc,
      UInt64.add_comm 1]

theorem consecutivePrefix (counts : Consecutive k l) (front : taken <+: l) : Consecutive k taken := by
  obtain ⟨rest,rfl⟩ := front
  exact (consecutiveAppend.mp counts).1

theorem consecutiveDrop (counts : Consecutive k l) (m : Nat) : Consecutive (k + UInt64.ofNat m) (l.drop m) := by
  rw [← List.take_append_drop m l] at counts
  have later := (consecutiveAppend.mp counts).2
  rcases Nat.le_total m l.length with low | high
  · rwa [List.length_take,Nat.min_eq_left low] at later
  · rw [List.drop_eq_nil_of_le high]
    trivial

theorem consecutiveSnoc (counts : Consecutive k l) (next : tx.nonce = k + UInt64.ofNat l.length) :
    Consecutive k (l ++ [tx]) := consecutiveAppend.mpr ⟨counts,next,trivial⟩

theorem positionEq (left : i < 2 ^ 64) (right : j < 2 ^ 64) (same : k + UInt64.ofNat i = k + UInt64.ofNat j) : i = j := by
  by_contra differ
  exact ofNatNe differ left right (UInt64.add_right_inj k |>.mp same)

theorem consecutiveApart (counts : Consecutive k l) (small : l.length < 2 ^ 64) :
    l.Pairwise (fun x y => x.nonce ≠ y.nonce) := by
  rw [List.pairwise_iff_getElem]
  intro i j iLess jLess before same
  rw [nonceAt counts (List.getElem?_eq_getElem iLess),nonceAt counts (List.getElem?_eq_getElem jLess)] at same
  exact absurd (positionEq (by omega) (by omega) same) (by omega)

theorem sendersApart (counts : ∀ a ∈ l.map (·.sender), ∃ k, Consecutive k (l.filter (·.sender = a)))
    (small : l.length < 2 ^ 64) : l.Pairwise (fun x y => x.sender = y.sender → x.nonce ≠ y.nonce) := by
  rw [List.pairwise_iff_getElem]
  intro i j iLess jLess before same
  obtain ⟨k,counted⟩ := counts l[i].sender (List.mem_map_of_mem (List.getElem_mem iLess))
  have apart := List.pairwise_filter.mp (consecutiveApart counted (Nat.lt_of_le_of_lt (List.length_filter_le ..) small))
  exact List.pairwise_iff_getElem.mp apart i j iLess jLess before (decide_eq_true rfl) (decide_eq_true same.symm)

theorem nonceUnique (counts : Consecutive k l) (small : l.length < 2 ^ 64) (left : tx ∈ l) (right : u ∈ l)
    (same : tx.nonce = u.nonce) : tx = u := by
  obtain ⟨i,atI⟩ := List.mem_iff_getElem?.mp left
  obtain ⟨j,atJ⟩ := List.mem_iff_getElem?.mp right
  rw [nonceAt counts atI,nonceAt counts atJ] at same
  have iLess := (List.getElem?_eq_some_iff.mp atI).1
  have jLess := (List.getElem?_eq_some_iff.mp atJ).1
  have position := positionEq (by omega) (by omega) same
  rw [position,atJ] at atI
  exact (Option.some.inj atI).symm

end

section
variable {E : Type} {env : Env E} {verifySig : VerifySig} {st : MptState} {tx : Transaction} {txs : List Transaction}
  {height baseFee : UInt64} {index : UInt32} {session : Option (BatchSession E)} {o : Outcome MptState E} {a : Address}

theorem traceMember {mode : Mode} {x : Applied MptState E}
    (member : x ∈ blockTrace env verifySig st txs height mode baseFee) : x.tx ∈ txs := by
  unfold blockTrace at member
  split at member
  · cases member
  · exact (appliedFrom member).1

theorem traceSingle {mode : Mode} {x : Applied MptState E}
    (member : x ∈ blockTrace env verifySig st [tx] height mode baseFee) : x.before = st ∧ x.tx = tx := by
  unfold blockTrace at member
  split at member
  · cases member
  · simp only [applied] at member
    split at member
    · cases member
    · cases List.mem_singleton.mp member
      exact ⟨rfl,rfl⟩

theorem bumpedNonce : ((bumped st tx.sender).accounts a).nonce =
    if a = tx.sender then (st.accounts a).nonce + 1 else (st.accounts a).nonce := by
  rw [bumpedAt]
  split
  · rename_i same
    rw [same]
  · rfl

theorem exchangeAside {β : Type} {f : Account → β} (aside : Aside f)
    (ok : applyExchangeTx env st tx (getAccount st tx.sender) height index session = .ok o) :
    f (o.st.accounts a) = f ((bumped st tx.sender).accounts a) := by
  cases session with
  | some s =>
    obtain ⟨_,_,_,rfl⟩ := orderOk.mp ok
    rfl
  | none =>
    obtain ⟨_,st',done,rfl⟩ := spotOk.mp ok
    exact applyAside aside done

theorem creditNonce (b : Address) (amount : UInt64) :
    ((credit st b amount).accounts a).nonce = (st.accounts a).nonce := putKeeps (·.nonce) rfl

theorem txNonce (kept : (⟨st,tx,o⟩ : Applied MptState E).KeepsNonce a)
    (ok : applyTxAtSession env verifySig st tx height index session baseFee = .ok o) :
    (o.st.accounts a).nonce = if a = tx.sender then (st.accounts a).nonce + 1 else (st.accounts a).nonce := by
  obtain ⟨_,_,ran⟩ := applyTxOk.mp ok
  cases routed : route st tx with
  | exchange =>
    rw [routed] at ran
    exact (exchangeAside nonceAside ran).trans bumpedNonce
  | attestation =>
    rw [routed] at ran
    obtain rfl : (⟨bumped st tx.sender,session,0,0⟩ : Outcome MptState E) = o := Except.ok.inj ran
    exact bumpedNonce
  | transfer =>
    rw [routed] at ran
    obtain ⟨st',paid,rfl⟩ := mapOk.mp ran
    obtain ⟨_,rfl⟩ := transferPays.mp paid
    exact payFrame.1.trans bumpedNonce
  | contract =>
    rw [routed] at ran
    obtain ⟨r,paid,rfl⟩ := mapOk.mp ran
    obtain ⟨_,rfl⟩ := contractOk.mp paid
    obtain ⟨_,done⟩ := executed env.sha (charged st tx) (message tx)
    refine (creditNonce _ _).trans (done.nonce.trans ?_)
    rw [charged,setAccountAt]
    split
    · rename_i same
      rw [same]
    · rfl
  | evm =>
    by_cases own : a = tx.sender
    · rw [routed] at ran
      obtain ⟨r,paid,rfl⟩ := mapOk.mp ran
      obtain ⟨_,gasUsed,sdb,_,rfl⟩ := evmOk.mp paid
      rw [if_pos own,own]
      simp only [priced,settled,setAccountAt,if_true]
    · rw [if_neg own]
      exact kept routed own

theorem loopNonces {i : Nat} {acc : Outcome MptState E} (ok : applyLoop env verifySig height baseFee i acc txs = .ok o)
    (kept : ∀ x ∈ applied env verifySig height baseFee i acc txs, x.KeepsNonce a) :
    Consecutive (acc.st.accounts a).nonce (txs.filter (·.sender = a)) ∧
    (o.st.accounts a).nonce = (acc.st.accounts a).nonce + UInt64.ofNat (txs.filter (·.sender = a)).length := by
  induction txs generalizing i acc with
  | nil =>
    obtain rfl := Except.ok.inj ok
    exact ⟨trivial,by simp⟩
  | cons tx txs ih =>
    obtain ⟨first,ran,rest⟩ := loopCons.mp ok
    simp only [applied,ran] at kept
    have moved := txNonce (kept _ List.mem_cons_self) ran
    obtain ⟨counts,total⟩ := ih rest (fun x member => kept x (List.mem_cons_of_mem _ member))
    dsimp only at counts total moved
    by_cases own : tx.sender = a
    · rw [if_pos own.symm] at moved
      rw [List.filter_cons,if_pos (by simpa using own),total,moved]
      rw [moved] at counts
      refine ⟨⟨?_,counts⟩,?_⟩
      · rw [← own]
        exact (applyTxOk.mp ran).2.1
      · rw [List.length_cons,← ofNatSucc,UInt64.add_assoc,UInt64.add_comm 1]
    · rw [if_neg (Ne.symm own)] at moved
      rw [List.filter_cons,if_neg (by simpa using own),total,moved]
      rw [moved] at counts
      exact ⟨counts,rfl⟩

theorem blockNonces {mode : Mode} {r : BlockOutcome MptState}
    (kept : ∀ x ∈ blockTrace env verifySig st txs height mode baseFee, x.KeepsNonce a)
    (ok : applyTxsAt env verifySig st txs height mode baseFee = .ok r) :
    Consecutive (st.accounts a).nonce (txs.filter (·.sender = a)) ∧
    (r.st.accounts a).nonce = (st.accounts a).nonce + UInt64.ofNat (txs.filter (·.sender = a)).length := by
  simp only [applyTxsAt,bindOk] at ok
  obtain ⟨session,opens,o,loop,final,finished,last⟩ := ok
  cases Except.ok.inj last
  rw [blockTrace,opens] at kept
  obtain ⟨counts,total⟩ := loopNonces loop kept
  refine ⟨counts,Eq.trans ?_ total⟩
  unfold finishSession at finished
  split at finished
  · cases finished
    rfl
  · exact finishAside nonceAside (liftExchangeOk.mp finished)

end
end L1Chain.Transition
