import L1Chain.HeightIndex
import L1Chain.TransitionSteps

/-! The chains an AddBlock history reaches. The verifier is an argument of each call, so
every block of a history may have been judged by another one. Whatever one verifier
let through, the one that accepts everything lets through with the same result, and
the invariants of the store hold under that one. -/
namespace L1Chain
open Transition Runs

inductive Extended {E : Type} (env : Env E) (start : Chain) : Chain → Prop where
  | start : Extended env start start
  | add {c c' : Chain} {verifySig : VerifySig} {b : Block} (before : Extended env start c)
      (added : c.addBlock env verifySig b = .ok c') : Extended env start c'

def anySig : VerifySig := fun _ => true

section
variable {E : Type} {env : Env E} {verifySig : VerifySig} {c c' : Chain} {b : Block} {st : MptState} {w : UInt64}
  {txs : List Transaction} {height baseFee : UInt64} {mode : Exchange.Mode}

theorem loopAnySig {i : Nat} {acc o : Outcome MptState E} (ok : applyLoop env verifySig height baseFee i acc txs = .ok o) :
    applyLoop env anySig height baseFee i acc txs = .ok o := by
  induction txs generalizing i acc with
  | nil => exact ok
  | cons tx txs ih =>
    obtain ⟨first,ran,rest⟩ := loopCons.mp ok
    obtain ⟨_,nonce,routed⟩ := applyTxOk.mp ran
    exact loopCons.mpr ⟨first,applyTxOk.mpr ⟨rfl,nonce,routed⟩,ih rest⟩

theorem rewardedAnySig {r : MptState × UInt64} (ok : applyBlockRewarded env verifySig mode st b = .ok r) :
    applyBlockRewarded env anySig mode st b = .ok r := by
  simp only [applyBlockRewarded,applyTxsAt,bindOk] at ok ⊢
  obtain ⟨out,⟨session,opened,o,loop,rest⟩,last⟩ := ok
  exact ⟨out,⟨session,opened,o,loopAnySig loop,rest⟩,last⟩

theorem replayAnySig {bs : List Block} {after : MptState} (ok : replay env verifySig mode st bs = .ok after) :
    replay env anySig mode st bs = .ok after := by
  induction bs generalizing st with
  | nil => exact ok
  | cons b bs ih =>
    simp only [replay,bindOk] at ok ⊢
    obtain ⟨r,applied,rest⟩ := ok
    exact ⟨r,rewardedAnySig applied,ih rest⟩

theorem deriveAnySig {h : Hash} (ok : c.deriveState env verifySig h = .ok st) : c.deriveState env anySig h = .ok st := by
  unfold Chain.deriveState at ok ⊢
  cases walked : c.chainTo h with
  | none =>
    rw [walked] at ok
    cases ok
  | some path =>
    rw [walked] at ok
    exact liftTxOk.mpr (replayAnySig (liftTxOk.mp ok))

theorem acceptedAnySig (a : Accepted env verifySig c b st w) : Accepted env anySig c b st w := by
  obtain ⟨before,derived,applied⟩ := a.derived
  exact ⟨a.fresh,a.parent,a.gate,a.consensus,a.txRoot,a.chainID,⟨before,deriveAnySig derived,rewardedAnySig applied⟩,
    a.gas,a.root⟩

theorem extendedSound {start : Chain} (s : Sound env anySig start) (indexed : Indexed env start)
    (e : Extended env start c) : Sound env anySig c ∧ Indexed env c ∧ Grows start c := by
  induction e with
  | start => exact ⟨s,indexed,Grows.refl _⟩
  | add _ added ih =>
    obtain ⟨st,w,a,rfl⟩ := addBlockOk.mp added
    obtain ⟨sound,indexed,grows⟩ := ih
    have accepted := acceptedAnySig a
    exact ⟨commitSound sound accepted,commitIndexed sound indexed accepted,grows.trans (commitGrows a.fresh)⟩

theorem extendedSetup {setup : Setup} (e : Extended env (setup.chain env) c) :
    Sound env anySig c ∧ Indexed env c ∧ Grows (setup.chain env) c :=
  extendedSound (setupSound setup) (setupIndexed setup) e

structure Grown (env : Env E) (verifySig : VerifySig) (c₀ : Chain) (sent : List Block) (c : Chain) : Prop where
  sound : Sound env verifySig c
  indexed : Indexed env c
  grows : Grows c₀ c
  only : ∀ h x, c.getByHash h = some x → c₀.getByHash h = some x ∨ x ∈ sent

theorem grownAdd {c₀ c' : Chain} {sent : List Block} (g : Grown env verifySig c₀ sent c)
    (added : c.addBlock env verifySig b = .ok c') (inside : b ∈ sent) : Grown env verifySig c₀ sent c' := by
  obtain ⟨st,w,a,rfl⟩ := addBlockOk.mp added
  refine ⟨commitSound g.sound a,commitIndexed g.sound g.indexed a,g.grows.trans (commitGrows a.fresh),fun h x found => ?_⟩
  rcases (commitFound a.fresh h x).mp found with old | ⟨_,rfl⟩
  · exact g.only h x old
  · exact .inr inside

theorem grownStart {sent : List Block} (s : Sound env verifySig c) (indexed : Indexed env c) :
    Grown env verifySig c sent c := ⟨s,indexed,Grows.refl c,fun _ _ found => .inl found⟩

theorem grownMono {c₀ : Chain} {sent more : List Block} (g : Grown env verifySig c₀ sent c) (part : sent ⊆ more) :
    Grown env verifySig c₀ more c := ⟨g.sound,g.indexed,g.grows,fun h x found => (g.only h x found).imp id (part ·)⟩

theorem feedGrown {bs : List Block} (s : Sound env verifySig c) (indexed : Indexed env c) :
    Grown env verifySig c bs (c.feed env verifySig bs) := by
  refine invariant (Grown env verifySig c bs) (fun d b g inside => ?_) (grownStart s indexed)
    (alongOfMem (· ∈ bs) (fun _ inside => inside))
  rcases offerCases env verifySig d b with ⟨same,_⟩ | ⟨st,w,a,same⟩
  · rw [same]
    exact g
  · rw [same]
    exact grownAdd g (addBlockOk.mpr ⟨st,w,a,rfl⟩) inside

end
end L1Chain
