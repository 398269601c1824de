import L1Chain.Patricia

/-! The normal form of radix trees: extensions lead to branches, and branches hold two
things at least. Insertion and removal keep it, and a tree in normal form is determined by
the map it stands for. -/
namespace L1Chain.Patricia.Tree
variable {k : ℕ} {V : Type}

def isBranch : Tree k V → Bool
  | .branch _ _ => true
  | _ => false

def Normal : Tree k V → Prop
  | .empty => True
  | .leaf _ _ => True
  | .ext w c => w ≠ [] ∧ c.isBranch = true ∧ c.Normal
  | .branch cs v => (∀ i, (cs i).Normal) ∧ (∃ j, (cs j).isEmpty = false) ∧
      ∀ i, v ≠ none ∨ ∃ j, j ≠ i ∧ (cs j).isEmpty = false

section
variable {s t c : Tree k V} {cs : Fin k → Tree k V} {u v : V} {value : Option V} {p q w : List (Fin k)}

theorem branchFull (branch : t.isBranch = true) : t.isEmpty = false := by
  cases t with
  | branch cs v => rfl
  | _ => cases branch

theorem underNormal (branch : t.isBranch = true) (normal : t.Normal) : (under w t).Normal := by
  unfold under
  split
  · exact normal
  · rename_i some
    exact ⟨some,branch,normal⟩

theorem underFull (full : t.isEmpty = false) : (under w t).isEmpty = false := by
  unfold under
  split
  · exact full
  · rfl

theorem plantNormal {b : (Fin k → Tree k V) × Option V} (children : ∀ i, (b.1 i).Normal)
    (apart : ∀ i r, w = i::r → b.2 ≠ none ∨ ∃ j, j ≠ i ∧ (b.1 j).isEmpty = false)
    (below : w = [] → ∃ j, (b.1 j).isEmpty = false) : (branch (plant b w v).1 (plant b w v).2).Normal := by
  cases w with
  | nil => exact ⟨children,below rfl,fun _ => .inl (by simp [plant])⟩
  | cons i r =>
    have planted : (Function.update b.1 i (leaf r v) i).isEmpty = false := by
      rw [Function.update_self]
      rfl
    refine ⟨updateAll children i trivial,⟨i,planted⟩,fun j => ?_⟩
    by_cases same : j = i
    · subst same
      rcases apart j r rfl with held | ⟨l,other,full⟩
      · exact .inl held
      · refine .inr ⟨l,other,?_⟩
        simp only [plant,Function.update_of_ne other]
        exact full
    · exact .inr ⟨i,Ne.symm same,planted⟩

theorem insertBranch (branch : t.isBranch = true) : (t.insert p v).isBranch = true := by
  cases t with
  | branch cs u =>
    cases p with
    | nil => rfl
    | cons i p => rfl
  | _ => cases branch

theorem forkedNormal {b : (Fin k → Tree k V) × Option V} (normal : (branch b.1 b.2).Normal) : (forked w b).Normal :=
  underNormal rfl normal

theorem insertNormal (normal : t.Normal) : (t.insert p v).Normal := by
  induction t generalizing p with
  | empty => trivial
  | leaf w u =>
    obtain ⟨c,p',w',rfl,rfl,length,apart⟩ := commonSplit p w
    simp only [insert,length,List.length_append,List.take_left,List.drop_left]
    split
    · trivial
    · rename_i parts
      cases w' with
      | nil =>
        refine forkedNormal (plantNormal (fun _ => trivial) (fun i r _ => .inl (by simp [plant])) (fun ends => ?_))
        exact absurd (by simp [ends]) parts
      | cons j w' =>
        have hung : ((plant (fun _ => empty,none) (j::w') u).1 j).isEmpty = false := by simp [plant,isEmpty]
        refine forkedNormal (plantNormal (updateAll (fun _ => trivial) j trivial) (fun i r first => ?_) (fun _ => ⟨j,hung⟩))
        exact .inr ⟨j,fun same => apart j r w' (same ▸ first) rfl,hung⟩
  | ext w child ih =>
    obtain ⟨some,branch,below⟩ := normal
    obtain ⟨c,p',w',rfl,rfl,length,apart⟩ := commonSplit p w
    simp only [insert,length,List.length_append,List.take_left,List.drop_left]
    split
    · exact ⟨some,insertBranch branch,ih below⟩
    · rename_i partly
      cases w' with
      | nil => exact absurd (by simp) partly
      | cons j w' =>
        have hung : ((hang child (j::w')).1 j).isEmpty = false := by
          simp only [hang,Function.update_self]
          exact underFull (branchFull branch)
        refine forkedNormal (plantNormal (updateAll (fun _ => trivial) j (underNormal branch below)) (fun i r first => ?_)
          (fun _ => ⟨j,hung⟩))
        exact .inr ⟨j,fun same => apart j r w' (same ▸ first) rfl,hung⟩
  | branch cs u ih =>
    obtain ⟨children,⟨j,full⟩,two⟩ := normal
    cases p with
    | nil => exact ⟨children,⟨j,full⟩,fun _ => .inl (by simp)⟩
    | cons i p =>
      have grown : ∀ l, (cs l).isEmpty = false → (Function.update cs i ((cs i).insert p v) l).isEmpty = false := by
        intro l alive
        by_cases same : l = i
        · rw [same,Function.update_self]
          exact insertFull _ _ _
        · rw [Function.update_of_ne same]
          exact alive
      refine ⟨updateAll children i (ih i (children i)),⟨j,grown j full⟩,fun l => ?_⟩
      rcases two l with held | ⟨m,other,alive⟩
      · exact .inl held
      · exact .inr ⟨m,other,grown m alive⟩

theorem graftNormal (some : w ≠ []) (normal : t.Normal) : (graft w t).Normal := by
  cases t with
  | empty => trivial
  | leaf u v => trivial
  | ext u c => exact ⟨by simp [some],normal.2⟩
  | branch cs v => exact ⟨some,rfl,normal⟩

theorem liveFull {i : Fin k} : i ∈ live cs ↔ (cs i).isEmpty = false := by
  simp [live]

theorem collapseNormal (children : ∀ i, (cs i).Normal) : (collapse cs value).Normal := by
  unfold collapse
  cases alive : live cs with
  | nil =>
    cases value with
    | none => trivial
    | some v => trivial
  | cons i rest =>
    have first : (cs i).isEmpty = false := liveFull.mp (by simp [alive])
    cases rest with
    | nil =>
      cases value with
      | none => exact graftNormal (by simp) (children i)
      | some v => exact ⟨children,⟨i,first⟩,fun _ => .inl (by simp)⟩
    | cons j rest =>
      have second : (cs j).isEmpty = false := liveFull.mp (by simp [alive])
      have once : (live cs).Nodup := (List.nodup_finRange k).filter _
      have differ : i ≠ j := by
        intro same
        rw [alive,same] at once
        simp at once
      refine ⟨children,⟨i,first⟩,fun l => ?_⟩
      by_cases same : i = l
      · exact .inr ⟨j,fun other => differ (same.trans other.symm),second⟩
      · exact .inr ⟨i,same,first⟩

theorem removeNormal (normal : t.Normal) : (t.remove p).Normal := by
  induction t generalizing p with
  | empty => trivial
  | leaf w v =>
    unfold remove
    split
    · trivial
    · trivial
  | ext w c ih =>
    unfold remove
    split
    · exact normal
    · split
      · exact normal
      · exact graftNormal normal.1 (ih normal.2.2)
  | branch cs v ih =>
    cases p with
    | nil =>
      unfold remove
      split
      · exact normal
      · exact collapseNormal normal.1
    | cons i p =>
      unfold remove
      split
      · exact normal
      · exact collapseNormal (updateAll normal.1 i (ih i (normal.1 i)))

theorem normalFull (normal : t.Normal) (full : t.isEmpty = false) : ∃ p, t.lookup p ≠ none := by
  induction t with
  | empty => cases full
  | leaf w v => exact ⟨w,by simp⟩
  | ext w c ih =>
    obtain ⟨p,found⟩ := ih normal.2.2 (branchFull normal.2.1)
    refine ⟨w ++ p,?_⟩
    rw [lookupExt,stripSelf]
    exact found
  | branch cs v ih =>
    obtain ⟨j,alive⟩ := normal.2.1
    obtain ⟨p,found⟩ := ih j (normal.1 j) alive
    exact ⟨j::p,found⟩

theorem branchSpread (normal : t.Normal) (branch : t.isBranch = true) (i : Fin k) :
    ∃ p, t.lookup p ≠ none ∧ ∀ r, p ≠ i::r := by
  cases t with
  | branch cs v =>
    rcases normal.2.2 i with held | ⟨j,other,alive⟩
    · exact ⟨[],held,fun r same => nomatch same⟩
    · obtain ⟨p,found⟩ := normalFull (normal.1 j) alive
      refine ⟨j::p,found,fun r same => other ?_⟩
      rw [List.cons.injEq] at same
      exact same.1
  | _ => cases branch

theorem extWords (found : (ext w c).lookup p ≠ none) : ∃ q, p = w ++ q ∧ c.lookup q ≠ none := by
  rw [lookupExt] at found
  cases stripped : strip w p with
  | none =>
    rw [stripped] at found
    exact absurd rfl found
  | some q =>
    rw [stripped] at found
    exact ⟨q,stripSome.mp stripped,found⟩

theorem spreadBare (normal : t.Normal) (branch : t.isBranch = true)
    (begins : ∀ p, t.lookup p ≠ none → ∃ q, p = w ++ q) : w = [] := by
  cases w with
  | nil => rfl
  | cons i w =>
    obtain ⟨p,found,other⟩ := branchSpread normal branch i
    obtain ⟨q,same⟩ := begins p found
    exact absurd same (other (w ++ q))

theorem spreadTwo (normal : t.Normal) (branch : t.isBranch = true) (p : List (Fin k)) :
    ∃ q, q ≠ p ∧ t.lookup q ≠ none := by
  cases t with
  | branch cs v =>
    cases p with
    | nil =>
      obtain ⟨j,alive⟩ := normal.2.1
      obtain ⟨q,found⟩ := normalFull (normal.1 j) alive
      exact ⟨j::q,by simp,found⟩
    | cons i p =>
      obtain ⟨q,found,other⟩ := branchSpread normal rfl i
      exact ⟨q,other p,found⟩
  | _ => cases branch

theorem extWordsMeet {c' : Tree k V} {w' : List (Fin k)} (normal : (ext w c).Normal) (normal' : (ext w' c').Normal)
    (same : ∀ p, (ext w c).lookup p = (ext w' c').lookup p) (long : w.length ≤ w'.length) : w = w' := by
  obtain ⟨q,found⟩ := normalFull normal.2.2 (branchFull normal.2.1)
  have begins : ∀ p, c.lookup p ≠ none → ∃ q, w ++ p = w' ++ q := by
    intro p found
    have there : (ext w c).lookup (w ++ p) ≠ none := by
      rw [lookupExt,stripSelf]
      exact found
    rw [same] at there
    obtain ⟨q,eq,_⟩ := extWords there
    exact ⟨q,eq⟩
  obtain ⟨r,first⟩ := begins q found
  obtain ⟨x,rfl⟩ : ∃ x, w' = w ++ x := by
    rcases List.append_eq_append_iff.mp first with ⟨x,left,_⟩ | ⟨x,left,_⟩
    · exact ⟨x,left⟩
    · have none : x = [] := by
        have lengths := congrArg List.length left
        rw [List.length_append] at lengths
        exact List.eq_nil_of_length_eq_zero (by omega)
      exact ⟨[],by rw [left,none]; simp⟩
  have bare : x = [] := by
    refine spreadBare normal.2.2 normal.2.1 (fun p found => ?_)
    obtain ⟨q,eq⟩ := begins p found
    rw [List.append_assoc,List.append_cancel_left_eq] at eq
    exact ⟨q,eq⟩
  rw [bare,List.append_nil]

theorem sameOn {α β : Type} {f g : α → Option β} {Known : α → Prop} (left : ∀ a, f a ≠ none → Known a)
    (right : ∀ a, g a ≠ none → Known a) (agree : ∀ a, Known a → f a = g a) (a : α) : f a = g a := by
  by_cases known : Known a
  · exact agree a known
  · have missing : f a = none := not_not.mp (fun held => known (left a held))
    have absent : g a = none := not_not.mp (fun held => known (right a held))
    rw [missing,absent]

theorem emptyUnique (normal : t.Normal) (nothing : ∀ p, t.lookup p = none) : t = .empty := by
  cases shape : t.isEmpty with
  | true => exact emptyOfIsEmpty shape
  | false =>
    obtain ⟨p,found⟩ := normalFull normal shape
    exact absurd (nothing p) found

theorem leafUnique {v : V} (normal : t.Normal) (same : ∀ p, t.lookup p = (leaf w v).lookup p) : t = leaf w v := by
  have only : ∀ p, t.lookup p ≠ none → p = w := by
    intro p found
    rw [same p,lookupLeaf] at found
    by_contra other
    exact found (if_neg other)
  have own : t.lookup w = some v := by
    rw [same w,lookupLeaf,if_pos rfl]
  cases t with
  | empty => cases own
  | leaf w' v' =>
    obtain rfl : w' = w := only w' (by simp)
    rw [lookupLeaf,if_pos rfl] at own
    rw [Option.some.inj own]
  | ext w' c =>
    obtain ⟨q,eq,_⟩ := extWords (own ▸ Option.some_ne_none v)
    obtain ⟨r,other,found⟩ := spreadTwo normal.2.2 normal.2.1 q
    have again := only (w' ++ r) (by rw [lookupExt,stripSelf]; exact found)
    rw [eq,List.append_cancel_left_eq] at again
    exact absurd again other
  | branch cs value =>
    obtain ⟨r,other,found⟩ := spreadTwo normal rfl w
    exact absurd (only r found) other

theorem extApart {cs : Fin k → Tree k V} {value : Option V} (normal : (ext w c).Normal) (normal' : (branch cs value).Normal) :
    ¬ ∀ p, (ext w c).lookup p = (branch cs value).lookup p := by
  intro same
  refine absurd (spreadBare normal' rfl (fun p found => ?_)) normal.1
  rw [← same p] at found
  obtain ⟨q,eq,_⟩ := extWords found
  exact ⟨q,eq⟩

theorem normalUnique (normal : s.Normal) (normal' : t.Normal) (same : ∀ p, s.lookup p = t.lookup p) : s = t := by
  induction s generalizing t with
  | empty => exact (emptyUnique normal' (fun p => (same p).symm)).symm
  | leaf w v => exact (leafUnique normal' (fun p => (same p).symm)).symm
  | ext w c ih =>
    cases t with
    | empty => exact emptyUnique normal same
    | leaf w' v => exact leafUnique normal same
    | branch cs value => exact absurd same (extApart normal normal')
    | ext w' c' =>
      have words : w = w' := by
        rcases Nat.le_total w.length w'.length with long | long
        · exact extWordsMeet normal normal' same long
        · exact (extWordsMeet normal' normal (fun p => (same p).symm) long).symm
      subst words
      have below : c = c' := ih normal.2.2 normal'.2.2 (fun p => by
        have there := same (w ++ p)
        rwa [lookupExt,lookupExt,stripSelf,Option.bind_some,Option.bind_some] at there)
      rw [below]
  | branch cs value ih =>
    cases t with
    | empty => exact emptyUnique normal same
    | leaf w v => exact leafUnique normal same
    | ext w c => exact absurd (fun p => (same p).symm) (extApart normal' normal)
    | branch cs' value' =>
      have values : value = value' := same []
      have children : cs = cs' := funext (fun i => ih i (normal.1 i) (normal'.1 i) (fun p => same (i::p)))
      rw [values,children]

end
end L1Chain.Patricia.Tree
