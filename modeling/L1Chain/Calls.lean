import Mathlib.Algebra.Order.Group.Nat

/-! Machines that call. A turn ends the frame it runs in, goes on in it, or enters a
callee frame and keeps what is needed to resume. A machine runs on fuel; where every
turn spends of a rank, enough fuel gives one outcome, and the outcome satisfies the
machine's own recursion without fuel. -/
namespace L1Chain.Calls

inductive Onward (C R : Type) where
  | ends (r : R)
  | goes (c : C)

inductive Turn (C K R : Type) where
  | on (o : Onward C R)
  | calls (callee : C) (k : K)

structure Machine (C K R : Type) where
  turn : C → Turn C K R
  resume : K → R → Onward C R

inductive CallTree (C R : Type) where
  | ends (r : R)
  | goes (c : C) (rest : CallTree C R)
  | calls (c callee : C) (inside rest : CallTree C R)

variable {C K R : Type}

def CallTree.result : CallTree C R → R
  | .ends r => r
  | .goes _ rest => rest.result
  | .calls _ _ _ rest => rest.result

def Onward.follow (rest : C → R) : Onward C R → R
  | .ends r => r
  | .goes c => rest c

def Machine.proceed (m : Machine C K R) (rest : C → R) : Turn C K R → R
  | .on o => o.follow rest
  | .calls callee k => (m.resume k (rest callee)).follow rest

def Machine.run (m : Machine C K R) (spent : C → R) : ℕ → C → R
  | 0, c => spent c
  | fuel+1, c => m.proceed (m.run spent fuel) (m.turn c)

/- Every turn that does not end its frame spends of the rank, callees included, and a
caller resumes with what its callee left. -/
structure Machine.Spends (m : Machine C K R) (rank : C → ℕ) (left : R → ℕ) : Prop where
  ends {c r} : m.turn c = .on (.ends r) → left r ≤ rank c
  goes {c c'} : m.turn c = .on (.goes c') → rank c' < rank c
  calls {c callee k} : m.turn c = .calls callee k → rank callee < rank c
  closes {k r r'} : m.resume k r = .ends r' → left r' ≤ left r
  back {k r c'} : m.resume k r = .goes c' → rank c' ≤ left r

section
variable {m : Machine C K R} {rank : C → ℕ} {left : R → ℕ} {spent spent' : C → R} {c d : C} {fuel fuel' : ℕ}

theorem Machine.Spends.bound (spends : m.Spends rank left) (enough : rank c < fuel) :
    left (m.run spent fuel c) ≤ rank c := by
  induction fuel generalizing c with
  | zero => omega
  | succ fuel ih =>
    unfold Machine.run
    cases turn : m.turn c with
    | on o =>
      cases o with
      | ends r => exact spends.ends turn
      | goes c' =>
        have less := spends.goes turn
        exact (ih (by omega)).trans less.le
    | calls callee k =>
      have less := spends.calls turn
      have callees : left (m.run spent fuel callee) ≤ rank callee := ih (by omega)
      dsimp only [Machine.proceed]
      cases back : m.resume k (m.run spent fuel callee) with
      | ends r => exact (spends.closes back).trans (callees.trans less.le)
      | goes c' =>
        have resumed := spends.back back
        exact (ih (by omega)).trans (by omega)

theorem Machine.Spends.settled (spends : m.Spends rank left) (enough : rank c < fuel) (enough' : rank c < fuel') :
    m.run spent fuel c = m.run spent' fuel' c := by
  induction fuel generalizing c fuel' with
  | zero => omega
  | succ fuel ih =>
    cases fuel' with
    | zero => omega
    | succ fuel' =>
      unfold Machine.run
      cases turn : m.turn c with
      | on o =>
        cases o with
        | ends r => rfl
        | goes c' =>
          have less := spends.goes turn
          exact ih (by omega) (by omega)
      | calls callee k =>
        have less := spends.calls turn
        have same : m.run spent fuel callee = m.run spent' fuel' callee := ih (by omega) (by omega)
        have callees : left (m.run spent' fuel' callee) ≤ rank callee := spends.bound (by omega)
        dsimp only [Machine.proceed]
        rw [same]
        cases back : m.resume k (m.run spent' fuel' callee) with
        | ends r => rfl
        | goes c' =>
          have resumed := spends.back back
          exact ih (by omega) (by omega)

end

/- A machine with its rank and a result for a frame that is cut off, which never
shows. -/
structure Ranked (C K R : Type) extends Machine C K R where
  rank : C → ℕ
  left : R → ℕ
  spent : C → R
  spends : toMachine.Spends rank left

namespace Ranked

def outcome (m : Ranked C K R) (c : C) : R := m.run m.spent (m.rank c + 1) c

variable {m : Ranked C K R} {c d : C}

theorem runOutcome {spent : C → R} {fuel : ℕ} (enough : m.rank c < fuel) : m.run spent fuel c = m.outcome c :=
  m.spends.settled enough (Nat.lt_succ_self _)

theorem outcomeLeft : m.left (m.outcome c) ≤ m.rank c := m.spends.bound (Nat.lt_succ_self _)

theorem outcomeEnds {r : R} (turn : m.turn c = .on (.ends r)) : m.outcome c = r := by
  rw [outcome,Machine.run,turn]
  rfl

theorem outcomeGoes {c' : C} (turn : m.turn c = .on (.goes c')) : m.outcome c = m.outcome c' := by
  rw [outcome,Machine.run,turn]
  exact runOutcome (m.spends.goes turn)

theorem outcomeCalls {callee : C} {k : K} (turn : m.turn c = .calls callee k) :
    m.outcome c = (m.resume k (m.outcome callee)).follow m.outcome := by
  have less := m.spends.calls turn
  have called : m.run m.spent (m.rank c) callee = m.outcome callee := runOutcome less
  rw [outcome,Machine.run,turn]
  dsimp only [Machine.proceed]
  rw [called]
  cases back : m.resume k (m.outcome callee) with
  | ends r => rfl
  | goes c' =>
    have resumed := m.spends.back back
    exact runOutcome (Nat.lt_of_le_of_lt (resumed.trans outcomeLeft) less)

theorem outcomeEq (m : Ranked C K R) (c : C) : m.outcome c = m.proceed m.outcome (m.turn c) := by
  cases turn : m.turn c with
  | on o =>
    cases o with
    | ends r => exact outcomeEnds turn
    | goes c' => exact outcomeGoes turn
  | calls callee k => exact outcomeCalls turn

/- What a run comes by: the turns of a frame, those of the frames it calls, and its
own again once the callee is done. -/
inductive Reaches (m : Ranked C K R) : C → C → Prop
  | here (c : C) : Reaches m c c
  | goes {c c' d : C} (turn : m.turn c = .on (.goes c')) (rest : Reaches m c' d) : Reaches m c d
  | enters {c callee d : C} {k : K} (turn : m.turn c = .calls callee k) (rest : Reaches m callee d) : Reaches m c d
  | resumes {c callee c' d : C} {k : K} (turn : m.turn c = .calls callee k)
      (back : m.resume k (m.outcome callee) = .goes c') (rest : Reaches m c' d) : Reaches m c d

theorem induct (m : Ranked C K R) {P : C → Prop}
    (ends : ∀ c r, m.turn c = .on (.ends r) → P c)
    (goes : ∀ c c', m.turn c = .on (.goes c') → P c' → P c)
    (closes : ∀ c callee k r, m.turn c = .calls callee k → m.resume k (m.outcome callee) = .ends r → P callee → P c)
    (back : ∀ c callee k c', m.turn c = .calls callee k → m.resume k (m.outcome callee) = .goes c' →
      P callee → P c' → P c) (c : C) : P c := by
  induction rank : m.rank c using Nat.strongRecOn generalizing c with
  | _ n ih =>
    subst rank
    cases turn : m.turn c with
    | on o =>
      cases o with
      | ends r => exact ends c r turn
      | goes c' => exact goes c c' turn (ih _ (m.spends.goes turn) c' rfl)
    | calls callee k =>
      have less := m.spends.calls turn
      cases resumed : m.resume k (m.outcome callee) with
      | ends r => exact closes c callee k r turn resumed (ih _ less callee rfl)
      | goes c' =>
        have later := Nat.lt_of_le_of_lt ((m.spends.back resumed).trans outcomeLeft) less
        exact back c callee k c' turn resumed (ih _ less callee rfl) (ih _ later c' rfl)

/- A contract of a machine: an invariant of its frames, and of each frame a
postcondition, which its caller may use when it resumes. -/
structure Contract (m : Ranked C K R) (Inv : C → Prop) (Post : C → R → Prop) : Prop where
  ends {c r} : Inv c → m.turn c = .on (.ends r) → Post c r
  goes {c c'} : Inv c → m.turn c = .on (.goes c') → Inv c' ∧ ∀ r, Post c' r → Post c r
  calls {c callee k} : Inv c → m.turn c = .calls callee k → Inv callee
  closes {c callee k r r'} : Inv c → m.turn c = .calls callee k → Post callee r → m.resume k r = .ends r' → Post c r'
  back {c callee k r c'} : Inv c → m.turn c = .calls callee k → Post callee r → m.resume k r = .goes c' →
    Inv c' ∧ ∀ r', Post c' r' → Post c r'

section
variable {Inv : C → Prop} {Post : C → R → Prop}

theorem Contract.outcome (contract : m.Contract Inv Post) (start : Inv c) : Post c (m.outcome c) := by
  induction c using m.induct with
  | ends c r turn =>
    rw [outcomeEnds turn]
    exact contract.ends start turn
  | goes c c' turn ih =>
    obtain ⟨inv,post⟩ := contract.goes start turn
    rw [outcomeGoes turn]
    exact post _ (ih inv)
  | closes c callee k r turn back ih =>
    rw [outcomeCalls turn,back]
    exact contract.closes start turn (ih (contract.calls start turn)) back
  | back c callee k c' turn back called rest =>
    obtain ⟨inv,post⟩ := contract.back start turn (called (contract.calls start turn)) back
    rw [outcomeCalls turn,back]
    exact post _ (rest inv)

theorem Contract.reached (contract : m.Contract Inv Post) (start : Inv c) (reached : m.Reaches c d) : Inv d := by
  induction reached with
  | here => exact start
  | goes turn _ ih => exact ih (contract.goes start turn).1
  | enters turn _ ih => exact ih (contract.calls start turn)
  | resumes turn back _ ih =>
    exact ih (contract.back start turn (contract.outcome (contract.calls start turn)) back).1

end

/- The call tree of a run: the turns of a frame one after another, and under each
call the tree of its callee. -/
def tree (m : Ranked C K R) (c : C) : CallTree C R :=
  match _ : m.turn c with
  | .on (.ends r) => .ends r
  | .on (.goes c') => .goes c (m.tree c')
  | .calls callee k =>
    .calls c callee (m.tree callee)
      (match _ : m.resume k (m.outcome callee) with
        | .ends r => .ends r
        | .goes c' => m.tree c')
termination_by m.rank c
decreasing_by
  · exact m.spends.goes ‹_›
  · exact m.spends.calls ‹_›
  · exact Nat.lt_of_le_of_lt ((m.spends.back ‹_›).trans outcomeLeft) (m.spends.calls ‹_›)

theorem treeEnds {r : R} (turn : m.turn c = .on (.ends r)) : m.tree c = .ends r := by
  rw [tree]
  split
  all_goals simp_all

theorem treeGoes {c' : C} (turn : m.turn c = .on (.goes c')) : m.tree c = .goes c (m.tree c') := by
  rw [tree]
  split
  all_goals simp_all

theorem treeCloses {callee : C} {k : K} {r : R} (turn : m.turn c = .calls callee k)
    (back : m.resume k (m.outcome callee) = .ends r) : m.tree c = .calls c callee (m.tree callee) (.ends r) := by
  rw [tree]
  split
  all_goals simp_all
  split
  all_goals simp_all

theorem treeBack {callee c' : C} {k : K} (turn : m.turn c = .calls callee k)
    (back : m.resume k (m.outcome callee) = .goes c') :
    m.tree c = .calls c callee (m.tree callee) (m.tree c') := by
  rw [tree]
  split
  all_goals simp_all
  split
  all_goals simp_all

theorem treeResult : (m.tree c).result = m.outcome c := by
  induction c using m.induct with
  | ends c r turn =>
    rw [treeEnds turn,outcomeEnds turn]
    rfl
  | goes c c' turn ih =>
    rw [treeGoes turn,outcomeGoes turn]
    exact ih
  | closes c callee k r turn back _ =>
    rw [treeCloses turn back,outcomeCalls turn,back]
    rfl
  | back c callee k c' turn back _ ih =>
    rw [treeBack turn back,outcomeCalls turn,back]
    exact ih

end Ranked
end L1Chain.Calls
