import Mathlib.Data.List.Basic

/-! Fallible computations and runs. A run feeds a list of inputs to a step
function; `Along` says of a run that each of its steps meets a condition on the
state before the step and the input it takes. -/
namespace L1Chain.Runs

section
variable {ε α β : Type}

theorem bindOk {x : Except ε α} {f : α → Except ε β} {b : β} :
    (x >>= f) = .ok b ↔ ∃ a, x = .ok a ∧ f a = .ok b := by
  cases x with
  | error e => simp [bind,Except.bind]
  | ok a => simp [bind,Except.bind]

theorem bindError {x : Except ε α} {f : α → Except ε β} {e : ε} :
    (x >>= f) = .error e ↔ x = .error e ∨ ∃ a, x = .ok a ∧ f a = .error e := by
  cases x with
  | error e' => simp [bind,Except.bind]
  | ok a => simp [bind,Except.bind]

theorem mapOk {x : Except ε α} {f : α → β} {b : β} : x.map f = .ok b ↔ ∃ a, x = .ok a ∧ f a = b := by
  cases x <;> simp [Except.map]

theorem eraseDupsNodup [DecidableEq α] (l : List α) : l.eraseDups.Nodup := by
  induction size : l.length using Nat.strongRecOn generalizing l with
  | _ n ih =>
    cases l with
    | nil => exact List.nodup_nil
    | cons a l =>
      rw [List.eraseDups_cons,List.nodup_cons]
      have shorter := List.length_filter_le (fun b => !b == a) l
      refine ⟨?_,ih _ (by rw [← size,List.length_cons]; omega) _ rfl⟩
      simp [List.mem_eraseDups]

end

section
variable {σ α : Type} {step : σ → α → σ} {P Q : σ → α → Prop} {s : σ}

def Along (step : σ → α → σ) (P : σ → α → Prop) : σ → List α → Prop
  | _, [] => True
  | s, x::xs => P s x ∧ Along step P (step s x) xs

@[simp] theorem alongNil : Along step P s [] := trivial

@[simp] theorem alongCons {x : α} {xs : List α} :
    Along step P s (x::xs) ↔ P s x ∧ Along step P (step s x) xs := Iff.rfl

theorem alongAppend {xs ys : List α} :
    Along step P s (xs ++ ys) ↔ Along step P s xs ∧ Along step P (xs.foldl step s) ys := by
  induction xs generalizing s with
  | nil => simp
  | cons x xs ih => simp [ih,and_assoc]

theorem alongMono {xs : List α} (weaker : ∀ s x, P s x → Q s x) (along : Along step P s xs) :
    Along step Q s xs := by
  induction xs generalizing s with
  | nil => trivial
  | cons x xs ih => exact ⟨weaker _ _ along.1,ih along.2⟩

theorem alongAnd {xs : List α} (left : Along step P s xs) (right : Along step Q s xs) :
    Along step (fun s x => P s x ∧ Q s x) s xs := by
  induction xs generalizing s with
  | nil => trivial
  | cons x xs ih => exact ⟨⟨left.1,right.1⟩,ih left.2 right.2⟩

/- The rule every safety result below uses: what each admissible step keeps, a run
of admissible steps keeps. -/
theorem invariant (Inv : σ → Prop) (keep : ∀ s x, Inv s → P s x → Inv (step s x))
    {xs : List α} (start : Inv s) (along : Along step P s xs) : Inv (xs.foldl step s) := by
  induction xs generalizing s with
  | nil => exact start
  | cons x xs ih => exact ih (keep s x start along.1) along.2

theorem invariantSoFar (Inv : List α → σ → Prop) (keep : ∀ taken s x, Inv taken s → P s x → Inv (taken ++ [x]) (step s x))
    {xs : List α} (start : Inv [] s) (along : Along step P s xs) : Inv xs (xs.foldl step s) := by
  induction xs generalizing s Inv with
  | nil => exact start
  | cons x xs ih =>
    exact ih (fun taken => Inv (x::taken)) (fun taken => keep (x::taken)) (keep [] s x start along.1) along.2

theorem alongOfMem (R : α → Prop) {xs : List α} (every : ∀ x ∈ xs, R x) :
    Along step (fun _ x => R x) s xs := by
  induction xs generalizing s with
  | nil => trivial
  | cons x xs ih =>
    exact ⟨every x (List.mem_cons_self ..),ih (fun y member => every y (List.mem_cons_of_mem _ member))⟩

theorem alongMem {R : α → Prop} {xs : List α} (along : Along step P s xs) (every : ∀ s x, P s x → R x) :
    ∀ x ∈ xs, R x := by
  induction xs generalizing s with
  | nil => simp
  | cons x xs ih =>
    intro y member
    rcases List.mem_cons.mp member with rfl | later
    · exact every s y along.1
    · exact ih along.2 y later

theorem alongBack {B : σ → Prop} (back : ∀ s x, B (step s x) → B s) {xs : List α} (last : B (xs.foldl step s)) :
    B s ∧ Along step (fun s x => B (step s x)) s xs := by
  induction xs generalizing s with
  | nil => exact ⟨last,trivial⟩
  | cons x xs ih =>
    obtain ⟨next,later⟩ := ih last
    exact ⟨back s x next,next,later⟩

end

section
variable {σ α β : Type} {step : σ → α → σ} {out : σ → α → Option β} {P : σ → α → Prop} {s : σ}

def collect (step : σ → α → σ) (out : σ → α → Option β) : σ → List α → List β
  | _, [] => []
  | s, x::xs => (out s x).toList ++ collect step out (step s x) xs

theorem collectAppend (xs ys : List α) :
    collect step out s (xs ++ ys) = collect step out s xs ++ collect step out (xs.foldl step s) ys := by
  induction xs generalizing s with
  | nil => rfl
  | cons x xs ih => rw [List.cons_append,collect,collect,ih,List.append_assoc,List.foldl_cons]

/- Outputs are related in pairs when each leaves a mark on the state that stays, and
whatever is put out over a mark is related to what left it. -/
structure Marking (step : σ → α → σ) (out : σ → α → Option β) (P : σ → α → Prop) (Inv : σ → Prop)
    (Mark : σ → β → Prop) (R : β → β → Prop) : Prop where
  keep : ∀ s x, Inv s → P s x → Inv (step s x)
  left : ∀ s x y, Inv s → P s x → out s x = some y → Mark (step s x) y
  stays : ∀ s x y, Inv s → P s x → Mark s y → Mark (step s x) y
  related : ∀ s x y z, Inv s → Mark s y → out s x = some z → R y z

theorem collectRelated {Inv : σ → Prop} {Mark : σ → β → Prop} {R : β → β → Prop}
    (marking : Marking step out P Inv Mark R) {xs : List α} (start : Inv s) (along : Along step P s xs) :
    (∀ y, Mark s y → ∀ z ∈ collect step out s xs, R y z) ∧ (collect step out s xs).Pairwise R := by
  induction xs generalizing s with
  | nil => exact ⟨fun _ _ _ member => (nomatch member),List.Pairwise.nil⟩
  | cons x xs ih =>
    obtain ⟨later,pairs⟩ := ih (marking.keep s x start along.1) along.2
    rw [collect]
    cases put : out s x with
    | none =>
      rw [Option.toList_none,List.nil_append]
      exact ⟨fun y mark => later y (marking.stays s x y start along.1 mark),pairs⟩
    | some y =>
      rw [Option.toList_some,List.singleton_append]
      refine ⟨fun w mark z member => ?_,List.pairwise_cons.mpr ⟨later y (marking.left s x y start along.1 put),pairs⟩⟩
      rcases List.mem_cons.mp member with rfl | after
      · exact marking.related s x w z start mark put
      · exact later w (marking.stays s x w start along.1 mark) z after

end
end L1Chain.Runs
