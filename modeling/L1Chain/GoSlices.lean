import Mathlib.Data.List.Basic
import Mathlib.Algebra.Order.Group.Nat

/-! Go's slice expressions. An index or a slice out of range panics, which is a result
of its own beside the errors a function returns. `Safe` says that a computation does
not panic and what it comes to; every primitive has its rule. -/
namespace L1Chain.GoSlices

abbrev Checked (ε α : Type) := ExceptT ε Option α

variable {ε α β : Type}

def panics : Checked ε α := (none : Option (Except ε α))

def Safe (x : Checked ε α) (y : Except ε α) : Prop := x.run = some y

theorem safePure (a : α) : Safe (pure a : Checked ε α) (.ok a) := rfl

theorem safeThrow (e : ε) : Safe (throw e : Checked ε α) (.error e) := rfl

theorem Safe.bind {x : Checked ε α} {y : Except ε α} {f : α → Checked ε β} {g : α → Except ε β}
    (first : Safe x y) (rest : ∀ a, y = .ok a → Safe (f a) (g a)) : Safe (x >>= f) (y >>= g) := by
  unfold Safe at first
  rw [Safe,ExceptT.run_bind,first]
  cases y with
  | error e => rfl
  | ok a => exact rest a rfl

theorem Safe.after {x : Checked ε α} {a : α} {f : α → Checked ε β} {y : Except ε β}
    (first : Safe x (.ok a)) (rest : Safe (f a) y) : Safe (x >>= f) y :=
  first.bind (fun _ same => Except.ok.inj same ▸ rest)

theorem Safe.unique {x : Checked ε α} {a b : α} (left : Safe x (.ok a)) (right : Safe x (.ok b)) : a = b :=
  Except.ok.inj (Option.some.inj (left.symm.trans right))

def make (zero : α) (n : Int) : Checked ε (List α) :=
  if 0 ≤ n then pure (List.replicate n.toNat zero) else panics

def index (xs : List α) (i : Int) : Checked ε α :=
  if 0 ≤ i then
    match xs[i.toNat]? with
    | some x => pure x
    | none => panics
  else panics

def store (xs : List α) (i : Int) (x : α) : Checked ε (List α) :=
  if 0 ≤ i ∧ i < xs.length then pure (xs.set i.toNat x) else panics

def slice (xs : List α) (i j : Int) : Checked ε (List α) :=
  if 0 ≤ i ∧ i ≤ j ∧ j ≤ xs.length then pure ((xs.drop i.toNat).take (j - i).toNat) else panics

-- `copy(xs[i:j], ys)` writes as many elements as both sides have.
def copyInto (xs : List α) (i j : Int) (ys : List α) : Checked ε (List α) :=
  if 0 ≤ i ∧ i ≤ j ∧ j ≤ xs.length then
    let n := min (j - i).toNat ys.length
    pure (xs.take i.toNat ++ ys.take n ++ xs.drop (i.toNat + n))
  else panics

theorem safeMake (zero : α) (n : ℕ) : Safe (make zero n : Checked ε (List α)) (.ok (List.replicate n zero)) := by
  rw [make,if_pos (Int.natCast_nonneg n),Int.toNat_natCast]
  exact safePure _

theorem safeIndex {xs : List α} {i : ℕ} {x : α} (found : xs[i]? = some x) :
    Safe (index xs i : Checked ε α) (.ok x) := by
  rw [index,if_pos (Int.natCast_nonneg i),Int.toNat_natCast,found]
  exact safePure _

theorem safeStore {xs : List α} {i : ℕ} (x : α) (inside : i < xs.length) :
    Safe (store xs i x : Checked ε (List α)) (.ok (xs.set i x)) := by
  rw [store,if_pos ⟨Int.natCast_nonneg i,by omega⟩,Int.toNat_natCast]
  exact safePure _

theorem safeSlice {xs : List α} {i n : ℕ} (inside : i + n ≤ xs.length) :
    Safe (slice xs i (i + n) : Checked ε (List α)) (.ok ((xs.drop i).take n)) := by
  have width : ((i : Int) + n - i).toNat = n := by omega
  rw [slice,if_pos ⟨Int.natCast_nonneg i,by omega,by omega⟩,Int.toNat_natCast,width]
  exact safePure _

theorem safeTake {xs : List α} {n : ℕ} (inside : n ≤ xs.length) :
    Safe (slice xs 0 n : Checked ε (List α)) (.ok (xs.take n)) := by
  have whole := @safeSlice ε α xs 0 n (by omega)
  rwa [Int.natCast_zero,Int.zero_add,List.drop_zero] at whole

theorem safeDrop {xs : List α} {i : ℕ} (inside : i ≤ xs.length) :
    Safe (slice xs i xs.length : Checked ε (List α)) (.ok (xs.drop i)) := by
  have whole := @safeSlice ε α xs i (xs.length - i) (by omega)
  rwa [← Int.natCast_add,Nat.add_sub_cancel' inside,List.take_of_length_le (by simp)] at whole

theorem safeCopy {xs ys : List α} {i n : ℕ} (inside : i + n ≤ xs.length) (short : ys.length ≤ n) :
    Safe (copyInto xs i (i + n) ys : Checked ε (List α)) (.ok (xs.take i ++ ys ++ xs.drop (i + ys.length))) := by
  have width : ((i : Int) + n - i).toNat = n := by omega
  rw [copyInto,if_pos ⟨Int.natCast_nonneg i,by omega,by omega⟩,Int.toNat_natCast,width,min_eq_right short]
  dsimp only
  rw [List.take_length]
  exact safePure _

theorem safeCopyFront {xs ys : List α} {n : ℕ} (inside : n ≤ xs.length) (short : ys.length ≤ n) :
    Safe (copyInto xs 0 n ys : Checked ε (List α)) (.ok (ys ++ xs.drop ys.length)) := by
  have whole := @safeCopy ε α xs ys 0 n (by omega) short
  rwa [Int.natCast_zero,Int.zero_add,Nat.zero_add,List.take_zero,List.nil_append] at whole

theorem safeCopyAll {xs ys : List α} {n : ℕ} (whole : xs.length = n) (same : ys.length = n) :
    Safe (copyInto xs 0 n ys : Checked ε (List α)) (.ok ys) := by
  have front := @safeCopyFront ε α xs ys n (by omega) (by omega)
  rwa [List.drop_eq_nil_of_le (by omega),List.append_nil] at front

theorem safeFold {step : β → α → Checked ε β} {next : β → α → β} {xs : List α}
    (each : ∀ s, ∀ x ∈ xs, Safe (step s x) (.ok (next s x))) (s : β) :
    Safe (xs.foldlM step s) (.ok (xs.foldl next s)) := by
  induction xs generalizing s with
  | nil => exact safePure s
  | cons x xs ih =>
    rw [List.foldlM_cons,List.foldl_cons]
    refine Safe.after (each s x List.mem_cons_self) ?_
    exact ih (fun s x inside => each s x (List.mem_cons_of_mem _ inside)) _

/- The loop `for i := 0; i < n && start+i < len(src); i++ { buf[i] = src[start+i] }`,
with `left` of its `n` rounds to go. -/
def fill (src : List α) (start : Int) : ℕ → Int → List α → Checked ε (List α)
  | 0, _, buf => pure buf
  | left+1, i, buf =>
    if start + i < src.length then do
      let x ← index src (start + i)
      let buf ← store buf i x
      fill src start left (i + 1) buf
    else pure buf

theorem safeFill {src done : List α} {start : ℕ} (zero : α) (left : ℕ) :
    Safe (fill src start left done.length (done ++ List.replicate left zero) : Checked ε (List α))
      (.ok (done ++ ((src.drop (start + done.length)).take left ++
        List.replicate (left - ((src.drop (start + done.length)).take left).length) zero))) := by
  induction left generalizing done with
  | zero =>
    rw [List.take_zero,List.replicate_zero]
    exact safePure _
  | succ left ih =>
    unfold fill
    by_cases more : start + done.length < src.length
    · have found : src[start + done.length]? = some src[start + done.length] := List.getElem?_eq_getElem more
      have grown := @ih (done ++ [src[start + done.length]])
      rw [List.length_append,List.length_singleton,← Nat.add_assoc,List.append_assoc,List.singleton_append] at grown
      rw [if_pos (by omega)]
      refine Safe.after (safeIndex (i := start + done.length) found) ?_
      refine Safe.after (safeStore _ (by simp)) ?_
      rw [List.set_append_right _ _ le_rfl,Nat.sub_self,List.replicate_succ,List.set_cons_zero,
        List.drop_eq_getElem_cons more,List.take_succ_cons]
      simp only [List.length_cons,Nat.add_sub_add_right,List.cons_append]
      rw [List.append_assoc,List.singleton_append] at grown
      exact grown
    · rw [if_neg (by omega),List.drop_eq_nil_of_le (by omega)]
      exact safePure _

/- The loop `for i := 0; i < n; i++ { out[i] = f(i) }`, with `left` rounds to go. -/
def tabulate (f : ℕ → Checked ε α) : ℕ → ℕ → List α → Checked ε (List α)
  | 0, _, out => pure out
  | left+1, i, out => do
    let x ← f i
    let out ← store out i x
    tabulate f left (i + 1) out

theorem safeTabulate {f : ℕ → Checked ε α} {g : ℕ → α} {done : List α} (zero : α) (left : ℕ)
    (each : ∀ i, i < done.length + left → Safe (f i) (.ok (g i))) :
    Safe (tabulate f left done.length (done ++ List.replicate left zero))
      (.ok (done ++ (List.range' done.length left).map g)) := by
  induction left generalizing done with
  | zero =>
    rw [List.replicate_zero]
    exact safePure _
  | succ left ih =>
    unfold tabulate
    have rest := @ih (done ++ [g done.length]) (by
      rw [List.length_append,List.length_singleton]
      exact fun i inside => each i (by omega))
    rw [List.length_append,List.length_singleton,List.append_assoc,List.singleton_append,List.append_assoc,
      List.singleton_append] at rest
    refine Safe.after (each done.length (by omega)) ?_
    refine Safe.after (safeStore _ (by simp)) ?_
    rw [List.set_append_right _ _ le_rfl,Nat.sub_self,List.replicate_succ,List.set_cons_zero]
    exact rest

end L1Chain.GoSlices
