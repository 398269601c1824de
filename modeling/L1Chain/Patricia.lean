import Mathlib.Data.List.FinRange
import Mathlib.Logic.Function.Basic

/-! Radix trees over words of `Fin k`: leaves and extensions carry a piece of the word,
branches one letter. Insertion splits a node where two words part; removal joins what
is left. A tree is a finite map from words to values, whatever its shape. -/
namespace L1Chain.Patricia

inductive Tree (k : ℕ) (V : Type) where
  | empty
  | leaf (word : List (Fin k)) (value : V)
  | ext (word : List (Fin k)) (child : Tree k V)
  | branch (children : Fin k → Tree k V) (value : Option V)

section
variable {α : Type} [DecidableEq α]

def strip : List α → List α → Option (List α)
  | [], p => some p
  | _::_, [] => none
  | a::w, b::p => if a = b then strip w p else none

def common : List α → List α → ℕ
  | a::p, b::w => if a = b then common p w + 1 else 0
  | _, _ => 0

theorem stripSome {w p q : List α} : strip w p = some q ↔ p = w ++ q := by
  induction w generalizing p with
  | nil =>
    rw [strip,Option.some.injEq]
    rfl
  | cons a w ih =>
    cases p with
    | nil => simp [strip]
    | cons b p =>
      rw [strip]
      split
      · rename_i same
        rw [ih,same]
        simp
      · rename_i other
        simp [Ne.symm other]

theorem stripSelf (w q : List α) : strip w (w ++ q) = some q := stripSome.mpr rfl

theorem stripNone {w p : List α} (none : strip w p = none) (q : List α) : p ≠ w ++ q := by
  intro same
  rw [same,stripSelf] at none
  cases none

theorem stripAppend (u w p : List α) : strip (u ++ w) p = (strip u p).bind (strip w) := by
  induction u generalizing p with
  | nil => rfl
  | cons a u ih =>
    cases p with
    | nil => rfl
    | cons b p =>
      simp only [List.cons_append,strip]
      split
      · exact ih p
      · rfl

theorem commonSplit (p w : List α) : ∃ c p' w', p = c ++ p' ∧ w = c ++ w' ∧ common p w = c.length ∧
    ∀ a u v, p' = a::u → w' = a::v → False := by
  induction p generalizing w with
  | nil => exact ⟨[],[],w,rfl,rfl,by cases w <;> rfl,fun _ _ _ left => nomatch left⟩
  | cons a p ih =>
    cases w with
    | nil => exact ⟨[],a::p,[],rfl,rfl,rfl,fun _ _ _ _ right => nomatch right⟩
    | cons b w =>
      by_cases same : a = b
      · subst same
        obtain ⟨c,p',w',left,right,length,apart⟩ := ih w
        refine ⟨a::c,p',w',by rw [left]; rfl,by rw [right]; rfl,?_,apart⟩
        rw [common,if_pos rfl,length,List.length_cons]
      · refine ⟨[],a::p,b::w,rfl,rfl,by rw [common,if_neg same]; rfl,fun x u v left right => ?_⟩
        rw [List.cons.injEq] at left right
        exact same (left.1.trans right.1.symm)

end

namespace Tree
variable {k : ℕ} {V : Type}

def isEmpty : Tree k V → Bool
  | .empty => true
  | _ => false

def lookup : Tree k V → List (Fin k) → Option V
  | .empty, _ => none
  | .leaf w v, p => if p = w then some v else none
  | .ext w c, p => (strip w p).bind c.lookup
  | .branch _ v, [] => v
  | .branch cs _, i::p => (cs i).lookup p

def under (w : List (Fin k)) (t : Tree k V) : Tree k V := if w = [] then t else .ext w t

def plant (t : (Fin k → Tree k V) × Option V) : List (Fin k) → V → (Fin k → Tree k V) × Option V
  | [], v => (t.1,some v)
  | i::w, v => (Function.update t.1 i (.leaf w v),t.2)

def hang (child : Tree k V) : List (Fin k) → (Fin k → Tree k V) × Option V
  | [] => (fun _ => .empty,none)
  | i::w => (Function.update (fun _ => .empty) i (under w child),none)

def forked (c : List (Fin k)) (t : (Fin k → Tree k V) × Option V) : Tree k V := under c (.branch t.1 t.2)

def insert : Tree k V → List (Fin k) → V → Tree k V
  | .empty, p, v => .leaf p v
  | .leaf w u, p, v =>
    let cp := common p w
    if cp = w.length ∧ cp = p.length then .leaf p v
    else forked (p.take cp) (plant (plant (fun _ => .empty,none) (w.drop cp) u) (p.drop cp) v)
  | .ext w c, p, v =>
    let cp := common p w
    if cp = w.length then .ext w (c.insert (p.drop cp) v)
    else forked (p.take cp) (plant (hang c (w.drop cp)) (p.drop cp) v)
  | .branch cs _, [], v => .branch cs (some v)
  | .branch cs u, i::p, v => .branch (Function.update cs i ((cs i).insert p v)) u

def graft (w : List (Fin k)) : Tree k V → Tree k V
  | .empty => .empty
  | .leaf u v => .leaf (w ++ u) v
  | .ext u c => .ext (w ++ u) c
  | .branch cs v => .ext w (.branch cs v)

def live (cs : Fin k → Tree k V) : List (Fin k) := (List.finRange k).filter (fun i => ¬ (cs i).isEmpty)

def collapse (cs : Fin k → Tree k V) (v : Option V) : Tree k V :=
  match live cs,v with
  | [],none => .empty
  | [],some v => .leaf [] v
  | [i],none => graft [i] (cs i)
  | _,_ => .branch cs v

def remove : Tree k V → List (Fin k) → Tree k V
  | .empty, _ => .empty
  | .leaf w v, p => if p = w then .empty else .leaf w v
  | .ext w c, p =>
    match strip w p with
    | none => .ext w c
    | some q => if (c.lookup q).isNone then .ext w c else graft w (c.remove q)
  | .branch cs v, [] => if v.isNone then .branch cs v else collapse cs none
  | .branch cs v, i::p =>
    if ((cs i).lookup p).isNone then .branch cs v else collapse (Function.update cs i ((cs i).remove p)) v

section
variable {t c : Tree k V} {cs : Fin k → Tree k V} {u v : V} {value : Option V} {p q w : List (Fin k)}

theorem updateAll {P : Tree k V → Prop} (every : ∀ j, P (cs j)) (i : Fin k) (new : P t) (j : Fin k) :
    P (Function.update cs i t j) :=
  (Function.forall_update_iff cs (fun _ => P)).mpr ⟨new,fun j _ => every j⟩ j

@[simp] theorem lookupEmpty : (empty : Tree k V).lookup p = none := rfl
@[simp] theorem lookupLeaf : (leaf w v).lookup p = if p = w then some v else none := rfl
@[simp] theorem lookupExt : (ext w c).lookup p = (strip w p).bind c.lookup := rfl
@[simp] theorem lookupHere : (branch cs value).lookup [] = value := rfl
@[simp] theorem lookupBelow {i : Fin k} : (branch cs value).lookup (i::p) = (cs i).lookup p := rfl

theorem lookupUnder : (under w t).lookup p = (strip w p).bind t.lookup := by
  unfold under
  split
  · rename_i none
    rw [none]
    rfl
  · rfl

theorem lookupForked {b : (Fin k → Tree k V) × Option V} :
    (forked w b).lookup p = (strip w p).bind (branch b.1 b.2).lookup := lookupUnder

theorem lookupPlant {b : (Fin k → Tree k V) × Option V} (free : ∀ i r, w = i::r → b.1 i = .empty) :
    (branch (plant b w v).1 (plant b w v).2).lookup p = if p = w then some v else (branch b.1 b.2).lookup p := by
  cases w with
  | nil =>
    cases p with
    | nil => rfl
    | cons i p => rfl
  | cons i w =>
    cases p with
    | nil => rfl
    | cons j p =>
      simp only [plant,lookupBelow,List.cons.injEq]
      by_cases same : j = i
      · subst same
        rw [Function.update_self,free j w rfl]
        simp
      · rw [Function.update_of_ne same]
        simp [same]

theorem lookupHang {i : Fin k} : (branch (hang c (i::w)).1 (hang c (i::w)).2).lookup p = (strip (i::w) p).bind c.lookup := by
  cases p with
  | nil => rfl
  | cons j p =>
    simp only [hang,lookupBelow,strip]
    by_cases same : j = i
    · subst same
      rw [Function.update_self,if_pos rfl,lookupUnder]
    · rw [Function.update_of_ne same,if_neg (Ne.symm same)]
      rfl

theorem lookupGraft : (graft w t).lookup p = (strip w p).bind t.lookup := by
  cases t with
  | empty =>
    simp only [graft,lookupEmpty]
    cases strip w p <;> rfl
  | leaf u v =>
    simp only [graft,lookupLeaf]
    cases stripped : strip w p with
    | none => rw [if_neg (stripNone stripped u),Option.bind_none]
    | some r =>
      rw [stripSome.mp stripped]
      simp
  | ext u c =>
    rw [graft,lookupExt,stripAppend,Option.bind_assoc]
    rfl
  | branch cs v => rfl

theorem lookupFork {b : (Fin k → Tree k V) × Option V} {c p' : List (Fin k)}
    (found : ∀ r, (branch b.1 b.2).lookup r = if r = p' then some v else t.lookup r) :
    (forked c b).lookup q = if q = c ++ p' then some v else (strip c q).bind t.lookup := by
  rw [lookupForked]
  cases stripped : strip c q with
  | none => rw [if_neg (stripNone stripped p'),Option.bind_none,Option.bind_none]
  | some r =>
    rw [stripSome.mp stripped]
    simp only [Option.bind_some,found,List.append_cancel_left_eq]

theorem lookupInsert (t : Tree k V) (p q : List (Fin k)) (v : V) :
    (t.insert p v).lookup q = if q = p then some v else t.lookup q := by
  induction t generalizing p q with
  | empty => rfl
  | leaf w u =>
    obtain ⟨c,p',w',rfl,rfl,length,apart⟩ := commonSplit p w
    simp only [insert,length,List.length_append,List.take_left,List.drop_left]
    split
    · rename_i whole
      have left : p' = [] := List.eq_nil_of_length_eq_zero (by omega)
      have right : w' = [] := List.eq_nil_of_length_eq_zero (by omega)
      subst left right
      simp only [lookupLeaf]
      split <;> rfl
    · rw [lookupFork (t := leaf w' u),← lookupGraft]
      · rfl
      · intro r
        rw [lookupPlant,lookupPlant]
        · cases r <;> rfl
        · exact fun _ _ _ => rfl
        · intro i r first
          cases w' with
          | nil => rfl
          | cons j w' =>
            have other : i ≠ j := fun same => apart i r w' first (same ▸ rfl)
            simp only [plant,Function.update_of_ne other]
  | ext w child ih =>
    obtain ⟨c,p',w',rfl,rfl,length,apart⟩ := commonSplit p w
    simp only [insert,length,List.length_append,List.take_left,List.drop_left]
    split
    · rename_i whole
      have right : w' = [] := List.eq_nil_of_length_eq_zero (by omega)
      subst right
      rw [List.append_nil,lookupExt,lookupExt]
      cases stripped : strip c q with
      | none => rw [if_neg (stripNone stripped p'),Option.bind_none,Option.bind_none]
      | some r =>
        rw [stripSome.mp stripped]
        simp only [Option.bind_some,ih,List.append_cancel_left_eq]
    · rename_i partly
      cases w' with
      | nil => exact absurd (by simp) partly
      | cons j w' =>
        rw [lookupFork (t := ext (j::w') child),lookupExt,stripAppend,Option.bind_assoc]
        · rfl
        · intro r
          rw [lookupPlant,lookupHang]
          · rfl
          · intro i r first
            have other : i ≠ j := fun same => apart i r w' first (same ▸ rfl)
            simp only [hang,Function.update_of_ne other]
  | branch cs u ih =>
    cases p with
    | nil =>
      cases q with
      | nil => rfl
      | cons j q => rfl
    | cons i p =>
      cases q with
      | nil => rfl
      | cons j q =>
        simp only [insert,lookupBelow,List.cons.injEq]
        by_cases same : j = i
        · subst same
          rw [Function.update_self,ih]
          simp
        · rw [Function.update_of_ne same]
          simp [same]

theorem emptyOfIsEmpty (none : t.isEmpty = true) : t = .empty := by
  cases t with
  | empty => rfl
  | _ => cases none

theorem liveEmpty {i : Fin k} (dead : i ∉ live cs) : (cs i).lookup p = none := by
  have none : (cs i).isEmpty = true := by
    by_contra alive
    exact dead (List.mem_filter.mpr ⟨List.mem_finRange i,by simpa using alive⟩)
  rw [emptyOfIsEmpty none]
  rfl

theorem lookupCollapse : (collapse cs value).lookup p = (branch cs value).lookup p := by
  unfold collapse
  split
  · rename_i none
    cases p with
    | nil => rfl
    | cons i p => exact (liveEmpty (by rw [none]; exact List.not_mem_nil)).symm
  · rename_i v none
    cases p with
    | nil => rfl
    | cons i p => exact (liveEmpty (by rw [none]; exact List.not_mem_nil)).symm
  · rename_i i single
    rw [lookupGraft]
    cases p with
    | nil => rfl
    | cons j p =>
      simp only [strip,lookupBelow]
      by_cases same : i = j
      · rw [if_pos same,same]
        rfl
      · rw [if_neg same]
        exact (liveEmpty (by rw [single,List.mem_singleton]; exact Ne.symm same)).symm
  · rfl

theorem lookupAbsent (gone : t.lookup p = none) : t.lookup q = if q = p then none else t.lookup q := by
  split
  · rename_i same
    rw [same,gone]
  · rfl

theorem lookupRemove (t : Tree k V) (p q : List (Fin k)) :
    (t.remove p).lookup q = if q = p then none else t.lookup q := by
  induction t generalizing p q with
  | empty => exact lookupAbsent rfl
  | leaf w v =>
    unfold remove
    split
    · rename_i same
      subst same
      simp only [lookupEmpty,lookupLeaf]
      split <;> rfl
    · rename_i other
      exact lookupAbsent (if_neg other)
  | ext w c ih =>
    unfold remove
    split
    · rename_i stripped
      exact lookupAbsent (by rw [lookupExt,stripped]; rfl)
    · rename_i r stripped
      obtain rfl := stripSome.mp stripped
      split
      · rename_i gone
        exact lookupAbsent (by rw [lookupExt,stripSelf]; exact Option.isNone_iff_eq_none.mp gone)
      · rw [lookupGraft,lookupExt]
        cases stripped : strip w q with
        | none => rw [if_neg (stripNone stripped r),Option.bind_none,Option.bind_none]
        | some s =>
          rw [stripSome.mp stripped]
          simp only [Option.bind_some,List.append_cancel_left_eq]
          exact ih r s
  | branch cs v ih =>
    cases p with
    | nil =>
      unfold remove
      split
      · rename_i gone
        exact lookupAbsent (Option.isNone_iff_eq_none.mp gone)
      · rw [lookupCollapse]
        cases q with
        | nil => rfl
        | cons j q => rfl
    | cons i p =>
      unfold remove
      split
      · rename_i gone
        exact lookupAbsent (Option.isNone_iff_eq_none.mp gone)
      · rw [lookupCollapse]
        cases q with
        | nil => rfl
        | cons j q =>
          simp only [lookupBelow,List.cons.injEq]
          by_cases same : j = i
          · subst same
            rw [Function.update_self,ih]
            simp
          · rw [Function.update_of_ne same]
            simp [same]

theorem removeAbsent (gone : t.lookup p = none) : t.remove p = t := by
  cases t with
  | empty => rfl
  | leaf w v =>
    refine if_neg (fun same => ?_)
    rw [lookupLeaf,if_pos same] at gone
    cases gone
  | ext w c =>
    unfold remove
    split
    · rfl
    · rename_i r stripped
      rw [lookupExt,stripped] at gone
      exact if_pos (Option.isNone_iff_eq_none.mpr gone)
  | branch cs v =>
    cases p with
    | nil => exact if_pos (Option.isNone_iff_eq_none.mpr gone)
    | cons i p => exact if_pos (Option.isNone_iff_eq_none.mpr gone)

theorem removeExt (stripped : strip w p = some q) (found : c.lookup q ≠ none) : (ext w c).remove p = graft w (c.remove q) := by
  simp [remove,stripped,found]

theorem removeBelow {i : Fin k} (found : (cs i).lookup p ≠ none) :
    (branch cs value).remove (i::p) = collapse (Function.update cs i ((cs i).remove p)) value := by
  simp [remove,found]

theorem removePresent (found : t.lookup p ≠ none) : t.remove p ≠ t := by
  intro same
  have gone := lookupRemove t p p
  rw [same,if_pos rfl] at gone
  exact found gone

end

/- Words of at most `n` letters, values of one kind, and no node that stands for nothing:
an extension has letters and something below it. -/
def Within (ok : V → Prop) : ℕ → Tree k V → Prop
  | _, .empty => True
  | n, .leaf w v => w.length ≤ n ∧ ok v
  | n, .ext w c => w ≠ [] ∧ w.length ≤ n ∧ c.isEmpty = false ∧ c.Within ok (n - w.length)
  | n, .branch cs v => 0 < n ∧ (∀ i, (cs i).Within ok (n - 1)) ∧ ∀ u, v = some u → ok u

section
variable {ok : V → Prop} {n : ℕ} {t c : Tree k V} {cs : Fin k → Tree k V} {u v : V} {value : Option V}
  {p q w : List (Fin k)}

theorem insertFull (t : Tree k V) (p : List (Fin k)) (v : V) : (t.insert p v).isEmpty = false := by
  have under : ∀ {w : List (Fin k)} {b : (Fin k → Tree k V) × Option V}, (forked w b).isEmpty = false := by
    intro w b
    unfold forked Tree.under
    split <;> rfl
  cases t with
  | empty => rfl
  | leaf w u =>
    unfold insert
    dsimp only
    split
    · rfl
    · exact under
  | ext w c =>
    unfold insert
    dsimp only
    split
    · rfl
    · exact under
  | branch cs u =>
    cases p with
    | nil => rfl
    | cons i p => rfl

theorem underWithin (inside : t.Within ok (n - w.length)) (short : w.length ≤ n) (full : t.isEmpty = false) :
    (under w t).Within ok n := by
  unfold under
  split
  · rename_i none
    rw [none] at inside
    exact inside
  · rename_i some
    exact ⟨some,short,full,inside⟩

theorem plantWithin {b : (Fin k → Tree k V) × Option V} (inside : (branch b.1 b.2).Within ok n) (short : w.length ≤ n)
    (good : ok v) : (branch (plant b w v).1 (plant b w v).2).Within ok n := by
  obtain ⟨room,children,values⟩ := inside
  cases w with
  | nil =>
    refine ⟨room,children,fun u same => ?_⟩
    cases Option.some.inj same
    exact good
  | cons i w =>
    rw [List.length_cons] at short
    exact ⟨room,updateAll children i ⟨by omega,good⟩,values⟩

theorem freshWithin (room : 0 < n) : (branch (fun _ : Fin k => (empty : Tree k V)) none).Within ok n :=
  ⟨room,fun _ => trivial,fun _ none => nomatch none⟩

theorem insertWithin (inside : t.Within ok n) (short : p.length ≤ n) (good : ok v) : (t.insert p v).Within ok n := by
  induction t generalizing p n with
  | empty => exact ⟨short,good⟩
  | leaf w u =>
    obtain ⟨fits,old⟩ := inside
    obtain ⟨c,p',w',rfl,rfl,length,apart⟩ := commonSplit p w
    simp only [insert,length,List.length_append,List.take_left,List.drop_left] at fits short ⊢
    split
    · exact ⟨by simpa using short,good⟩
    · rename_i parts
      refine underWithin (plantWithin (plantWithin (freshWithin ?_) ?_ old) ?_ good) ?_ rfl <;> omega
  | ext w child ih =>
    obtain ⟨some,fits,full,below⟩ := inside
    obtain ⟨c,p',w',rfl,rfl,length,apart⟩ := commonSplit p w
    simp only [insert,length,List.length_append,List.take_left,List.drop_left] at fits short below ⊢
    split
    · rename_i whole
      refine ⟨some,by simpa using fits,insertFull _ _ _,?_⟩
      rw [List.length_append]
      exact ih below (by omega)
    · rename_i partly
      cases w' with
      | nil => exact absurd (by simp) partly
      | cons j w' =>
        rw [List.length_cons] at fits below
        have hung : (branch (hang child (j::w')).1 (hang child (j::w')).2).Within ok (n - c.length) := by
          refine ⟨by omega,updateAll (fun _ => trivial) j (underWithin ?_ (by omega) full),fun _ none => nomatch none⟩
          have rest : n - c.length - 1 - w'.length = n - (c.length + (w'.length + 1)) := by omega
          rw [rest]
          exact below
        exact underWithin (plantWithin hung (by omega) good) (by omega) rfl
  | branch cs u ih =>
    obtain ⟨room,children,values⟩ := inside
    cases p with
    | nil =>
      refine ⟨room,children,fun x same => ?_⟩
      cases Option.some.inj same
      exact good
    | cons i p =>
      rw [List.length_cons] at short
      exact ⟨room,updateAll children i (ih i (children i) (by omega)),values⟩

theorem graftWithin (inside : t.Within ok (n - w.length)) (short : w.length ≤ n) (some : w ≠ []) :
    (graft w t).Within ok n := by
  cases t with
  | empty => trivial
  | leaf u v =>
    obtain ⟨fits,good⟩ := inside
    refine ⟨?_,good⟩
    rw [List.length_append]
    omega
  | ext u c =>
    obtain ⟨_,fits,full,below⟩ := inside
    refine ⟨by simp [some],?_,full,?_⟩
    · rw [List.length_append]
      omega
    · rwa [List.length_append,← Nat.sub_sub]
  | branch cs v => exact ⟨some,short,rfl,inside⟩

theorem collapseWithin (inside : (branch cs value).Within ok n) : (collapse cs value).Within ok n := by
  obtain ⟨room,children,values⟩ := inside
  unfold collapse
  split
  · trivial
  · rename_i v _
    exact ⟨Nat.zero_le _,values v rfl⟩
  · rename_i i _
    exact graftWithin (children i) room (by simp)
  · exact ⟨room,children,values⟩

theorem removeWithin (inside : t.Within ok n) : (t.remove p).Within ok n := by
  induction t generalizing p n with
  | empty => trivial
  | leaf w v =>
    unfold remove
    split
    · trivial
    · exact inside
  | ext w c ih =>
    unfold remove
    split
    · exact inside
    · split
      · exact inside
      · obtain ⟨some,fits,_,below⟩ := inside
        exact graftWithin (ih below) fits some
  | branch cs v ih =>
    cases p with
    | nil =>
      unfold remove
      split
      · exact inside
      · obtain ⟨room,children,_⟩ := inside
        exact collapseWithin ⟨room,children,fun _ none => nomatch none⟩
    | cons i p =>
      unfold remove
      split
      · exact inside
      · obtain ⟨room,children,values⟩ := inside
        exact collapseWithin ⟨room,updateAll children i (ih i (children i)),values⟩

end
end Tree
end L1Chain.Patricia
