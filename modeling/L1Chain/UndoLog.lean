import Mathlib.Data.List.Basic

/-! Undo logs. A log keeps, newest first, an entry for everything done since it began, and
a snapshot is its length. `Leads` says that what stands above an older log takes the
state back to the one that log was kept in, exactly; it holds along every way a log grows
or is cut back, as long as it is not cut below the older one. -/
namespace L1Chain.UndoLog

variable {σ ε : Type} {undo : σ → ε → σ} {old log log' : List ε} {was now now' : σ} {u : ε}

def Leads (undo : σ → ε → σ) (old : List ε) (was : σ) (log : List ε) (now : σ) : Prop :=
  ∃ newer, log = newer ++ old ∧ newer.foldl undo now = was

theorem Leads.refl (log : List ε) (now : σ) : Leads undo log now log now := ⟨[],rfl,rfl⟩

theorem Leads.push (back : undo now u = was) : Leads undo log was (u::log) now := ⟨[u],rfl,back⟩

theorem Leads.trans (first : Leads undo old was log now) (second : Leads undo log now log' now') :
    Leads undo old was log' now' := by
  obtain ⟨below,rfl,back⟩ := first
  obtain ⟨above,rfl,rfl⟩ := second
  refine ⟨above ++ below,(List.append_assoc _ _ _).symm,?_⟩
  rw [List.foldl_append]
  exact back

theorem Leads.length (leads : Leads undo old was log now) : old.length ≤ log.length := by
  obtain ⟨newer,rfl,_⟩ := leads
  rw [List.length_append]
  exact Nat.le_add_left _ _

theorem cutAbove (newer : List ε) {n : ℕ} (later : old.length ≤ n) :
    ∃ k, (newer ++ old).drop ((newer ++ old).length - n) = newer.drop k ++ old ∧
      (newer ++ old).take ((newer ++ old).length - n) = newer.take k := by
  have within : (newer ++ old).length - n ≤ newer.length := by
    rw [List.length_append]
    omega
  exact ⟨_,List.drop_append_of_le_length within,List.take_append_of_le_length within⟩

theorem Leads.revert (leads : Leads undo old was log now) {n : ℕ} (later : old.length ≤ n) :
    Leads undo old was (log.drop (log.length - n)) ((log.take (log.length - n)).foldl undo now) := by
  obtain ⟨newer,rfl,back⟩ := leads
  obtain ⟨k,left,off⟩ := cutAbove newer later
  refine ⟨newer.drop k,left,?_⟩
  rw [off,← List.foldl_append,List.take_append_drop]
  exact back

theorem Leads.restore (leads : Leads undo old was log now) : log.drop (log.length - old.length) = old ∧
    (log.take (log.length - old.length)).foldl undo now = was := by
  obtain ⟨newer,rfl,back⟩ := leads
  have above : (newer ++ old).length - old.length = newer.length := by
    rw [List.length_append,Nat.add_sub_cancel]
  rw [above]
  exact ⟨List.drop_left,by rw [List.take_left]; exact back⟩

end L1Chain.UndoLog
