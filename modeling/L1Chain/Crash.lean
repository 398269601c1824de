import L1Chain.Validation

/-! Save cut short. Save is a list of updates, each atomic by itself: for every height
the block and its entry in the height index, from genesis up, and the head last. After
some of them the index names the new branch below and the old branch above, while
the head is still the old one; Load replays what the index names. -/
namespace L1Chain
open Transition Runs

inductive Update where
  | block (b : Block)
  | canonical (height : UInt64) (h : Hash)
  | head (h : Hash)

namespace Store

def update (sha : Bytes → Hash) (s : Store) : Update → Store
  | .block b => s.putBlock sha b
  | .canonical height h => s.setCanonical height h
  | .head h => s.setHead h

def updatesFrom (sha : Bytes → Hash) (c : Chain) (last : List Update) : Nat → UInt64 → List Update
  | 0, _ => last
  | count+1, h =>
    match c.getByHeight h with
    | none => []
    | some b => .block b::.canonical h (b.hash sha)::updatesFrom sha c last count (h + 1)

def updates (sha : Bytes → Hash) (c : Chain) : List Update :=
  updatesFrom sha c [.head (c.headD.hash sha)] (c.headD.header.height.toNat + 1) 0

def saveCut (sha : Bytes → Hash) (s : Store) (c : Chain) (k : Nat) : Store :=
  ((updates sha c).take k).foldl (update sha) s

end Store

section
variable {E : Type} {env : Env E} {verifySig other : VerifySig} {c d : Chain} {sha : Bytes → Hash} {s t : Store}

theorem saveFromUpdates (last : List Update) (count : Nat) (h : UInt64) (s : Store) :
    (Store.updatesFrom sha c last count h).foldl (Store.update sha) s =
      match Store.saveFrom sha c count h s with
      | (.error _,s') => s'
      | (.ok (),s') => last.foldl (Store.update sha) s' := by
  induction count generalizing h s with
  | zero => rfl
  | succ count ih =>
    simp only [Store.updatesFrom,Store.saveFrom]
    cases c.getByHeight h with
    | none => rfl
    | some b => exact ih (h + 1) _

theorem saveUpdates (sha : Bytes → Hash) (s : Store) (c : Chain) :
    (s.save sha c).2 = (Store.updates sha c).foldl (Store.update sha) s := by
  rw [Store.updates,saveFromUpdates,Store.save]
  rcases Store.saveFrom sha c (c.headD.header.height.toNat + 1) 0 s with ⟨(e | _),s'⟩
  · rfl
  · rfl

def rows (sha : Bytes → Hash) : Nat → List Block → List Update
  | _, [] => []
  | i, b::q => .block b::.canonical (UInt64.ofNat i) (b.hash sha)::rows sha (i + 1) q

theorem rowsLength (sha : Bytes → Hash) (i : Nat) (q : List Block) : (rows sha i q).length = 2 * q.length := by
  induction q generalizing i with
  | nil => rfl
  | cons b q ih =>
    simp only [rows,List.length_cons,ih]
    omega

theorem updatesRows {q : List Block} {last : List Update} (done : Nat)
    (found : ∀ j b, q[j]? = some b → c.getByHeight (UInt64.ofNat (done + j)) = some b) :
    Store.updatesFrom sha c last q.length (UInt64.ofNat done) = rows sha done q ++ last := by
  induction q generalizing done with
  | nil => rfl
  | cons b q ih =>
    have first : c.getByHeight (UInt64.ofNat done) = some b := found 0 b rfl
    simp only [List.length_cons,Store.updatesFrom,first,ofNatSucc,rows,List.cons_append]
    rw [ih (done + 1) (fun j x at' => by rw [Nat.add_right_comm,Nat.add_assoc]; exact found (j + 1) x at')]

theorem updatesPath {p : List Block} (sound : Sound env other c) (indexed : Indexed env c)
    (small : c.blocks.entries.length ≤ 2 ^ 64) (path : c.Path c.head p) :
    Store.updates env.sha c = rows env.sha 0 p.reverse ++ [.head c.head] := by
  obtain ⟨x,older,rfl,found⟩ := Forest.pathHead path
  obtain ⟨q,path',fits⟩ := sound.rooted _ x found
  rw [Forest.pathUnique path' path] at fits
  have bound := Nat.le_trans fits small
  have head : c.headD = x := by simp [Chain.headD,Chain.headBlock,found]
  have count : c.headD.header.height.toNat + 1 = (x::older).reverse.length := by
    simp only [List.length_cons] at bound
    rw [head,pathHeight sound path,UInt64.toNat_ofNat',Nat.mod_eq_of_lt (by omega)]
    simp
  have start : (0 : UInt64) = UInt64.ofNat 0 := rfl
  rw [Store.updates,count,start,head,sound.keyed _ _ found]
  refine updatesRows 0 (fun j b at' => ?_)
  rw [Nat.zero_add]
  exact getByHeightPath sound indexed path bound at'

/- The store after the first updates for a branch `q` from height `i` on, of which `m`
were entries of the index. `look` names the blocks by hash. -/
structure Cut (sha : Bytes → Hash) (look : Hash → Option Block) (i m : Nat) (q : List Block) (s t : Store) : Prop where
  head : t.head = s.head
  alloc : t.genesisAlloc = s.genesisAlloc
  baseAlloc : t.genesisBaseAlloc = s.genesisBaseAlloc
  written : ∀ j x, q[j]? = some x → j < m → t.heights (UInt64.ofNat (i + j)) = some (x.hash sha)
  untouched : ∀ n, n < 2 ^ 64 → n < i ∨ i + m ≤ n → t.heights (UInt64.ofNat n) = s.heights (UInt64.ofNat n)
  present : ∀ j x, q[j]? = some x → j < m → t.blocks (x.hash sha) = some x
  kept : ∀ h x, look h = some x → s.blocks h = some x → t.blocks h = some x

theorem cutStart (look : Hash → Option Block) (i : Nat) (q : List Block) (s : Store) : Cut sha look i 0 q s s :=
  ⟨rfl,rfl,rfl,fun _ _ _ none => absurd none (Nat.not_lt_zero _),fun _ _ _ => rfl,
    fun _ _ _ none => absurd none (Nat.not_lt_zero _),fun _ _ _ held => held⟩

theorem putKept {look : Hash → Option Block} {b x : Block} {h : Hash} (own : look (b.hash sha) = some b)
    (found : look h = some x) (held : s.blocks h = some x) : (s.putBlock sha b).blocks h = some x := by
  simp only [Store.putBlock,put]
  split
  · rename_i same
    rw [← same,found] at own
    exact congrArg some (Option.some.inj own).symm
  · exact held

theorem rowsCut {look : Hash → Option Block} {q : List Block} (i k : Nat) (s : Store) (fits : i + q.length ≤ 2 ^ 64)
    (enough : k ≤ 2 * q.length) (named : ∀ x ∈ q, look (x.hash sha) = some x) :
    Cut sha look i (k / 2) q s (((rows sha i q).take k).foldl (Store.update sha) s) := by
  induction q generalizing i k s with
  | nil =>
    rw [Nat.le_zero.mp enough]
    exact cutStart look i [] s
  | cons b q ih =>
    have own := named b (List.mem_cons_self ..)
    rw [List.length_cons] at fits enough
    match k with
    | 0 => exact cutStart look i (b::q) s
    | 1 =>
      have c := @cutStart sha look i (b::q) (s.putBlock sha b)
      exact ⟨rfl,rfl,rfl,c.written,c.untouched,c.present,fun _ _ found held => putKept own found held⟩
    | k+2 =>
      have c := ih (i + 1) k ((s.putBlock sha b).setCanonical (UInt64.ofNat i) (b.hash sha)) (by omega) (by omega)
        (fun x inside => named x (List.mem_cons_of_mem _ inside))
      have half : (k + 2) / 2 = k / 2 + 1 := by omega
      have same : ((rows sha i (b::q)).take (k + 2)).foldl (Store.update sha) s = ((rows sha (i + 1) q).take k).foldl
          (Store.update sha) ((s.putBlock sha b).setCanonical (UInt64.ofNat i) (b.hash sha)) := rfl
      rw [same,half]
      refine ⟨c.head,c.alloc,c.baseAlloc,?_,?_,?_,?_⟩
      · intro j x at' less
        cases j with
        | zero =>
          cases Option.some.inj at'
          rw [Nat.add_zero i,c.untouched i (by omega) (.inl (Nat.lt_succ_self i))]
          simp [Store.setCanonical,put]
        | succ j =>
          rw [← Nat.add_assoc,Nat.add_right_comm]
          exact c.written j x at' (by omega)
      · intro n small outside
        rw [c.untouched n small (by omega)]
        simp [Store.setCanonical,Store.putBlock,put,ofNatNe (show n ≠ i by omega) small (by omega)]
      · intro j x at' less
        cases j with
        | zero =>
          cases Option.some.inj at'
          exact c.kept _ _ own (by simp [Store.setCanonical,Store.putBlock,put])
        | succ j => exact c.present j x at' (by omega)
      · intro h x found held
        exact c.kept h x found (putKept own found held)

theorem addBlocksGrown {c₀ : Chain} {sent bs : List Block} (g : Grown env verifySig c₀ sent c) (part : bs ⊆ sent)
    (ok : c.addBlocks env verifySig bs = .ok d) : Grown env verifySig c₀ sent d := by
  induction bs generalizing c with
  | nil =>
    cases ok
    exact g
  | cons b bs ih =>
    obtain ⟨e,first,rest⟩ := addBlocksCons.mp ok
    obtain ⟨inside,others⟩ := List.cons_subset.mp part
    exact ih (grownAdd g first inside) others rest

/- Two branches of a store, oldest first, that start with the same genesis: what the
index names after `m` entries of the second were written over the first. -/
def spliced (m : Nat) (q₁ q₂ : List Block) : List Block := q₂.take m ++ q₁.drop m

theorem splicedLevels {p₁ p₂ : List Block} {k₁ k₂ : Hash} (s : Sound env other c) (path₁ : c.Path k₁ p₁)
    (path₂ : c.Path k₂ p₂) {m i : Nat} {b : Block} (less : m ≤ p₂.length)
    (at' : (spliced m p₁.reverse p₂.reverse)[i]? = some b) : b.header.height = UInt64.ofNat i ∧ (b ∈ p₁ ∨ b ∈ p₂) := by
  have size : (p₂.reverse.take m).length = m := by
    rw [List.length_take,List.length_reverse]
    omega
  rw [spliced,List.getElem?_append] at at'
  split at at'
  · rw [List.getElem?_take_of_lt (by omega)] at at'
    exact ⟨pathLevels s path₂ i b at',.inr (by simpa using List.mem_of_getElem? at')⟩
  · rw [List.getElem?_drop,size,Nat.add_sub_cancel' (by omega)] at at'
    exact ⟨pathLevels s path₁ i b at',.inl (by simpa using List.mem_of_getElem? at')⟩

theorem splicedLength {m : Nat} {q₁ q₂ : List Block} (first : m ≤ q₁.length) (second : m ≤ q₂.length) :
    (spliced m q₁ q₂).length = q₁.length := by
  rw [spliced,List.length_append,List.length_take,List.length_drop]
  omega

theorem splicedSelf {m : Nat} {q₁ q₂ : List Block} (second : m ≤ q₂.length) :
    q₂.take m <+: q₁ ↔ spliced m q₁ q₂ = q₁ := by
  constructor
  · intro within
    have same : q₂.take m = q₁.take m := by
      rw [List.prefix_iff_eq_take,List.length_take,Nat.min_eq_left second] at within
      exact within
    rw [spliced,same,List.take_append_drop]
  · intro same
    exact ⟨q₁.drop m,same⟩

theorem splicedOnly {p₁ p₂ : List Block} {k₁ k₂ : Hash} {m : Nat} (s : Sound env other c) (path₁ : c.Path k₁ p₁)
    (path₂ : c.Path k₂ p₂) (first : m ≤ p₁.length) (second : m ≤ p₂.length) (small : p₁.length ≤ 2 ^ 64)
    (sound : Sound env verifySig d) (genesis : d.genesisHash = c.genesisHash)
    (only : ∀ h x, d.getByHash h = some x → x ∈ spliced m p₁.reverse p₂.reverse) (head : d.head = k₁) :
    d.Path d.head p₁ ∧ spliced m p₁.reverse p₂.reverse = p₁.reverse := by
  have inside : ∀ h x, d.getByHash h = some x → c.getByHash h = some x := by
    intro h x found
    obtain ⟨i,at'⟩ := List.mem_iff_getElem?.mp (only h x found)
    obtain ⟨key,stored⟩ : ∃ key, c.getByHash key = some x := by
      rcases (splicedLevels s path₁ path₂ second at').2 with member | member
      · exact Forest.pathStored path₁ x member
      · exact Forest.pathStored path₂ x member
    rw [← sound.keyed _ _ found,s.keyed _ _ stored]
    exact stored
  obtain ⟨y,stored⟩ := sound.headStored
  obtain ⟨q,own,_⟩ := sound.rooted _ _ stored
  have shared : c.Path k₁ q := by
    have climbed := Forest.pathMono inside own
    rw [genesis,head] at climbed
    exact climbed
  rw [Forest.pathUnique shared path₁] at own
  have size := @splicedLength m p₁.reverse p₂.reverse (by simpa using first) (by simpa using second)
  refine ⟨own,List.ext_getElem? (fun i => ?_)⟩
  cases at' : p₁.reverse[i]? with
  | none =>
    rw [List.getElem?_eq_none_iff] at at' ⊢
    omega
  | some x =>
    obtain ⟨key,found⟩ := Forest.pathStored own x (by simpa using List.mem_of_getElem? at')
    obtain ⟨j,there⟩ := List.mem_iff_getElem?.mp (only key x found)
    have level := (splicedLevels s path₁ path₂ second there).1
    rw [pathLevels s path₁ i x at'] at level
    have low := (List.getElem?_eq_some_iff.mp at').1
    have high := (List.getElem?_eq_some_iff.mp there).1
    rw [size] at high
    rw [List.length_reverse] at low high
    have same : i = j := by
      by_contra differ
      exact ofNatNe differ (by omega) (by omega) level
    rw [same]
    exact there

/- The branch, oldest first, is valid under the parameters Load sets and ends in its
heaviest block. -/
def Reloads (env : Env E) (verifySig : VerifySig) (setup : Setup) (path : List Block) : Prop :=
  (∀ b older, b::older <:+ path.reverse → older ≠ [] → WellMined env verifySig setup.defaults older b) ∧ Leads path.reverse

theorem reloadsIff {setup : Setup} {k : Hash} {p : List Block} (s : Sound env other c) (grows : Grows (setup.chain env) c)
    (path : c.Path k p) : (∃ d, (setup.defaults.chain env).addBlocks env verifySig p.reverse.tail = .ok d ∧
      d.headD.hash env.sha = k) ↔ Reloads env verifySig setup p.reverse := by
  obtain ⟨kept,taken⟩ := @reopens _ env verifySig other _ setup.defaults _ k p s grows rfl rfl path
  have heads : ∀ d, (setup.defaults.chain env).addBlocks env verifySig p.reverse.tail = .ok d →
      (d.headD.hash env.sha = k ↔ Leads p) := by
    intro d added
    have r := kept d added
    rw [r.sound.keyed _ _ (headFound r.sound)]
    exact reopenedHead rfl r path
  rw [Reloads,List.reverse_reverse,← taken]
  constructor
  · rintro ⟨d,added,head⟩
    exact ⟨⟨d,added⟩,(heads d added).mp head⟩
  · rintro ⟨⟨d,added⟩,leads⟩
    exact ⟨d,added,(heads d added).mpr leads⟩

theorem defaultReloads {setup : Setup} {p : List Block} (s : Sound env verifySig c) (grows : Grows (setup.chain env) c)
    (default : setup.defaults = setup) (path : c.Path c.head p) : Reloads env verifySig setup p.reverse := by
  have pow : setup.consensus = .pow := congrArg Setup.consensus default.symm
  rw [Reloads,List.reverse_reverse,default]
  refine ⟨fun b older suffix below => ?_,headLeads s grows pow path⟩
  obtain ⟨key,walk⟩ := Forest.pathSuffix path suffix
  exact linkedMined s grows.config pow walk below

theorem savedSynced (sound : Sound env other c) (indexed : Indexed env c) (small : c.blocks.entries.length ≤ 2 ^ 64)
    (alloc : s.genesisAlloc = some c.genesisAlloc) (baseAlloc : s.genesisBaseAlloc = some c.genesisBaseAlloc)
    (saved : s.save env.sha c = (.ok (),t)) : Synced env.sha t c := by
  obtain ⟨s',ok,synced⟩ := saveSynced sound indexed small alloc baseAlloc
  rw [saved] at ok
  cases ok
  exact synced

theorem splicedStart {m : Nat} {q₁ q₂ : List Block} {g : Block} (one : q₁ = g::q₁.tail) (two : q₂ = g::q₂.tail) :
    spliced m q₁ q₂ = g::(spliced m q₁ q₂).tail := by
  rw [one,two]
  cases m with
  | zero => rfl
  | succ m => rfl

theorem cutRows {c₁ : Chain} {p₁ p₂ : List Block} {m : Nat} (sound : Sound env other c) (grows : Grows c₁ c)
    (fits : c.FitsMap) (synced : Synced env.sha s c₁) (path₁ : c₁.Path c₁.head p₁)
    (written : Cut env.sha c.getByHash 0 m p₂.reverse s t) (enough : m ≤ p₂.length) (j : Nat) (b : Block)
    (at' : (spliced (min m p₁.length) p₁.reverse p₂.reverse)[j]? = some b) :
    t.heights (UInt64.ofNat j) = some (b.hash env.sha) ∧ t.blocks (b.hash env.sha) = some b := by
  have size : (p₂.reverse.take (min m p₁.length)).length = min m p₁.length := by
    rw [List.length_take,List.length_reverse]
    omega
  rw [spliced,List.getElem?_append] at at'
  split at at'
  · rename_i low
    rw [size] at low
    rw [List.getElem?_take_of_lt low] at at'
    have height := written.written j b at' (by omega)
    rw [Nat.zero_add] at height
    exact ⟨height,written.present j b at' (by omega)⟩
  · rename_i high
    rw [size] at high
    rw [List.getElem?_drop,size,Nat.add_sub_cancel' (by omega)] at at'
    have below := (List.getElem?_eq_some_iff.mp at').1
    rw [List.length_reverse] at below
    obtain ⟨height,block⟩ := synced.branch _ path₁ j b at'
    obtain ⟨key,stored⟩ := Forest.pathStored (growsPath grows path₁) b (by simpa using List.mem_of_getElem? at')
    have short := pathFits sound fits (growsPath grows path₁)
    refine ⟨?_,written.kept _ b ?_ block⟩
    · rw [written.untouched j (by omega) (.inr (by omega))]
      exact height
    · rw [sound.keyed _ _ stored]
      exact stored

theorem cutLoad {setup : Setup} {c₁ : Chain} {p₁ p₂ : List Block} {k : Nat} (sound : Sound env other c)
    (indexed : Indexed env c) (start : Grows (setup.chain env) c) (sound₁ : Sound env other c₁) (grows : Grows c₁ c)
    (fits : c.FitsMap) (synced : Synced env.sha s c₁) (path₁ : c₁.Path c₁.head p₁) (path₂ : c.Path c.head p₂)
    (cut : k ≤ 2 * p₂.length) : (s.saveCut env.sha c k).load env verifySig = .ok (some d) ↔
      (setup.defaults.chain env).addBlocks env verifySig
        (spliced (min (k / 2) p₁.length) p₁.reverse p₂.reverse).tail = .ok d ∧ d.headD.hash env.sha = c₁.head := by
  obtain ⟨g,genesis,_⟩ := sound.genesis
  have shared := growsPath grows path₁
  have short := pathFits sound fits path₂
  have shape := @splicedStart (min (k / 2) p₁.length) _ _ _ (pathHeadGenesis shared genesis) (pathHeadGenesis path₂ genesis)
  have named : ∀ x ∈ p₂.reverse, c.getByHash (x.hash env.sha) = some x := by
    intro x inside
    obtain ⟨key,stored⟩ := Forest.pathStored path₂ x (by simpa using inside)
    rw [sound.keyed _ _ stored]
    exact stored
  have written := @rowsCut env.sha c.getByHash p₂.reverse 0 k s (by rw [List.length_reverse]; omega) (by simpa using cut) named
  have same : s.saveCut env.sha c k = ((rows env.sha 0 p₂.reverse).take k).foldl (Store.update env.sha) s := by
    rw [Store.saveCut,updatesPath sound indexed (Nat.le_trans (Nat.le_of_lt fits) (by omega)) path₂,
      List.take_append_of_le_length (by rw [rowsLength,List.length_reverse]; exact cut)]
  rw [← same] at written
  have holds := cutRows sound grows fits synced path₁ written (by omega)
  rw [shape] at holds
  obtain ⟨x,older,rfl,found⟩ := Forest.pathHead path₁
  have last := synced.branch _ path₁ older.length x (by simp)
  rw [sound₁.keyed _ _ found] at last
  have stored := written.kept _ x (grows.blocks _ _ found) last.2
  have size := @splicedLength (min (k / 2) (x::older).length) (x::older).reverse p₂.reverse (by simp) (by
    rw [List.length_reverse]
    omega)
  have height : x.header.height.toNat = (spliced (min (k / 2) (x::older).length) (x::older).reverse p₂.reverse).tail.length := by
    rw [heightNat sound fits shared,List.length_tail,size]
    simp
  rw [← reloadStart start genesis]
  refine loadRows (written.head.trans synced.head) stored height holds ?_ ?_
  · rw [written.alloc,synced.alloc,grows.config.genesisAlloc]
  · rw [written.baseAlloc,synced.baseAlloc,grows.config.genesisBaseAlloc]

theorem splicedReload {setup : Setup} {k₁ k₂ : Hash} {p₁ p₂ : List Block} {m : Nat} (sound : Sound env other c)
    (start : Grows (setup.chain env) c) (fits : c.FitsMap) (path₁ : c.Path k₁ p₁) (path₂ : c.Path k₂ p₂)
    (first : m ≤ p₁.length) (second : m ≤ p₂.length)
    (added : (setup.defaults.chain env).addBlocks env verifySig (spliced m p₁.reverse p₂.reverse).tail = .ok d)
    (head : d.headD.hash env.sha = k₁) :
    d.chainTo d.head = some p₁.reverse ∧ spliced m p₁.reverse p₂.reverse = p₁.reverse := by
  obtain ⟨own,_,grows,only⟩ := addBlocksGrown
    (grownStart (setupSound setup.defaults) (setupIndexed setup.defaults)) (List.Subset.refl _) added
  obtain ⟨g,genesis,_⟩ := sound.genesis
  have short := pathFits sound fits path₁
  have root : d.genesisHash = c.genesisHash := grows.config.genesisHash.trans start.config.genesisHash.symm
  rw [own.keyed _ _ (headFound own)] at head
  have held : ∀ h x, d.getByHash h = some x → x ∈ spliced m p₁.reverse p₂.reverse := by
    intro h x found
    rw [splicedStart (pathHeadGenesis path₁ genesis) (pathHeadGenesis path₂ genesis)]
    rcases only h x found with old | inside
    · rw [(setupOnly old).2,setupStored start genesis]
      exact List.mem_cons_self ..
    · exact List.mem_cons_of_mem _ inside
  obtain ⟨walk,same⟩ := splicedOnly sound path₁ path₂ first second (by omega) own root held head
  refine ⟨?_,same⟩
  rw [Chain.chainTo,(ancestryPath own.rooted).mpr walk]
  rfl

theorem savedLoads {setup : Setup} {p : List Block} (sound : Sound env other c) (start : Grows (setup.chain env) c)
    (small : c.blocks.entries.length ≤ 2 ^ 64) (synced : Synced env.sha s c) (path : c.Path c.head p) :
    (∃ d, s.load env verifySig = .ok (some d)) ↔ Reloads env verifySig setup p.reverse := by
  obtain ⟨g,genesis,_⟩ := sound.genesis
  have load := fun d => @loadSynced _ env verifySig other c d s p sound synced small path g _ (pathHeadGenesis path genesis)
  rw [reloadStart start genesis] at load
  rw [← reloadsIff sound start path]
  exact exists_congr load

theorem savedFound {setup : Setup} {p : List Block} (sound : Sound env other c) (start : Grows (setup.chain env) c)
    (small : c.blocks.entries.length ≤ 2 ^ 64) (synced : Synced env.sha s c) (path : c.Path c.head p)
    (loaded : s.load env verifySig = .ok (some d)) : d.chainTo d.head = some p.reverse := by
  obtain ⟨g,genesis,_⟩ := sound.genesis
  obtain ⟨added,head⟩ := (loadSynced sound synced small path (pathHeadGenesis path genesis)).mp loaded
  rw [reloadStart start genesis] at added
  obtain ⟨kept,_⟩ := @reopens _ env verifySig other _ setup.defaults _ _ p sound start rfl rfl path
  have r := kept d added
  rw [r.sound.keyed _ _ (headFound r.sound)] at head
  rw [head,Chain.chainTo,(ancestryPath r.sound.rooted).mpr (copiedPath r.copied path)]
  rfl

/- Load after a cut: while the head is the old one, the entries already written must not
differ from the old branch. -/
theorem saveCutRecovers {setup : Setup} {c₁ c₂ : Chain} {s s₁ : Store} {path₁ path₂ : List Block}
    (reached : Extended env (setup.chain env) c₁) (later : Extended env c₁ c₂) (fits : c₂.FitsMap)
    (alloc : s.genesisAlloc = some setup.genesis.alloc) (baseAlloc : s.genesisBaseAlloc = some setup.genesis.baseAlloc)
    (saved : s.save env.sha c₁ = (.ok (),s₁)) (canonical₁ : c₁.chainTo c₁.head = some path₁)
    (canonical₂ : c₂.chainTo c₂.head = some path₂) (k : Nat) :
    (∃ d, (s₁.saveCut env.sha c₂ k).load env verifySig = .ok (some d) ∧
      (d.chainTo d.head = some path₁ ∨ d.chainTo d.head = some path₂)) ↔
    if k < (Store.updates env.sha c₂).length then
      path₂.take (min (k / 2) path₁.length) <+: path₁ ∧ Reloads env verifySig setup path₁
    else Reloads env verifySig setup path₂ := by
  obtain ⟨sound₁,indexed₁,start₁⟩ := extendedSetup reached
  obtain ⟨sound₂,indexed₂,grows⟩ := extendedSound sound₁ indexed₁ later
  have start₂ := start₁.trans grows
  have small₂ : c₂.blocks.entries.length ≤ 2 ^ 64 := Nat.le_trans (Nat.le_of_lt fits) (by omega)
  obtain ⟨p₁,climbed₁,rfl⟩ := Option.map_eq_some_iff.mp canonical₁
  obtain ⟨p₂,climbed₂,rfl⟩ := Option.map_eq_some_iff.mp canonical₂
  have walk₁ := (ancestryPath sound₁.rooted).mp climbed₁
  have walk₂ := (ancestryPath sound₂.rooted).mp climbed₂
  have synced₁ : Synced env.sha s₁ c₁ := savedSynced sound₁ indexed₁ (Nat.le_trans grows.size small₂)
    (alloc.trans (congrArg some start₁.config.genesisAlloc.symm))
    (baseAlloc.trans (congrArg some start₁.config.genesisBaseAlloc.symm)) saved
  have count : (Store.updates env.sha c₂).length = 2 * p₂.length + 1 := by
    rw [updatesPath sound₂ indexed₂ small₂ walk₂,List.length_append,rowsLength,List.length_reverse]
    rfl
  rw [count]
  split
  · rename_i cut
    have load := fun d => @cutLoad _ env verifySig anySig c₂ d s₁ setup c₁ p₁ p₂ k sound₂ indexed₂ start₂ sound₁ grows fits
      synced₁ walk₁ walk₂ (by omega)
    have bound : min (k / 2) p₁.length ≤ p₂.length := by omega
    have only := fun d => @splicedReload _ env verifySig anySig c₂ d setup _ _ p₁ p₂ (min (k / 2) p₁.length) sound₂ start₂ fits
      (growsPath grows walk₁) walk₂ (Nat.min_le_right ..) bound
    rw [List.length_reverse,splicedSelf (by rw [List.length_reverse]; exact bound),← reloadsIff sound₁ start₁ walk₁]
    constructor
    · rintro ⟨d,loaded,_⟩
      obtain ⟨added,head⟩ := (load d).mp loaded
      obtain ⟨_,same⟩ := only d added head
      rw [same] at added
      exact ⟨same,d,added,head⟩
    · rintro ⟨same,d,added,head⟩
      rw [← same] at added
      exact ⟨d,(load d).mpr ⟨added,head⟩,.inl (only d added head).1⟩
  · rename_i complete
    have whole : s₁.saveCut env.sha c₂ k = (s₁.save env.sha c₂).2 := by
      rw [Store.saveCut,saveUpdates,List.take_of_length_le (by omega)]
    obtain ⟨s₂,ok,synced₂⟩ := saveSynced sound₂ indexed₂ small₂
      (synced₁.alloc.trans (congrArg some grows.config.genesisAlloc.symm))
      (synced₁.baseAlloc.trans (congrArg some grows.config.genesisBaseAlloc.symm))
    rw [whole,ok,← savedLoads sound₂ start₂ small₂ synced₂ walk₂]
    constructor
    · rintro ⟨d,loaded,_⟩
      exact ⟨d,loaded⟩
    · rintro ⟨d,loaded⟩
      exact ⟨d,loaded,.inr (savedFound sound₂ start₂ small₂ synced₂ walk₂ loaded)⟩

end

namespace Devnet

/- Miners race on the development network: blocks without transactions of difficulty 1,
told apart by their timestamps. -/
def raced (n : Nat) (parent : Hash) (time : Int64) : Block where
  header :=
    { height := UInt64.ofNat (n + 1), prevHash := parent, merkleRoot := merkleRoot sha [], stateRoot := 0
      coinbase := account 3, timestamp := time, difficulty := 1, nonce := 0, baseFee := 0, gasUsed := 0
      proposerSig := [] }
  txs := []

structure Racing (c : Chain) : Prop where
  sound : Sound env acceptNonEmptySig c
  reached : Extended env ((soloSetup 0).chain env) c
  grows : Grows ((soloSetup 0).chain env) c
  free : ∀ h x, c.getByHash h = some x → x.header.baseFee = 0 ∧ x.header.gasUsed = 0

theorem racedHash {n : Nat} (small : n < 2 ^ 31) (parent : Hash) (time : Int64) :
    (raced n parent time).hash env.sha = hashAt (n + 1) time.toUInt64.toNat := by
  have height : (UInt64.ofNat (n + 1)).toNat = n + 1 := heightSmall (by omega)
  rw [Block.hash,headerHash]
  exact congrArg (fun h => hashAt h _) height

theorem topBit {n t : Nat} (small : n < 2 ^ 32) (time : t < 2 ^ 64) : (hashAt n t).getMsbD 0 = false := by
  unfold hashAt
  rw [BitVec.getMsbD_eq_getLsbD,BitVec.getLsbD_ofNat,Nat.testBit_lt_two_pow]
  · simp
  · omega

theorem oneZeroBit {h : Hash} (top : h.getMsbD 0 = false) : 1 ≤ leadingZeroBits h := by
  rw [leadingZeroBits,List.range_succ_eq_map,List.takeWhile_cons_of_pos (by rw [top]; decide),List.length_cons]
  exact Nat.le_add_left ..

theorem racingStart : Racing ((soloSetup 0).chain env) := by
  refine ⟨setupSound _,.start,Grows.refl _,fun h x found => ?_⟩
  rw [(setupOnly found).2]
  exact ⟨rfl,rfl⟩

theorem racedMined {c : Chain} {n : Nat} {parent : Hash} {time : Int64} {p : List Block} (r : Racing c)
    (path : c.Path parent p) (level : p.length = n + 1) (small : n < 2 ^ 31) :
    WellMined env acceptNonEmptySig (soloSetup 0) p (raced n parent time) := by
  obtain ⟨x,older,rfl,found⟩ := Forest.pathHead path
  obtain ⟨fee,gas⟩ := r.free _ _ found
  obtain ⟨st,derived⟩ := storedReplays r.sound found
  rw [setupDerive r.sound.rooted r.grows.config path] at derived
  have tall : (raced n parent time).header.height ≠ 0 := by
    intro zero
    have value := congrArg UInt64.toNat zero
    have height : (UInt64.ofNat (n + 1)).toNat = n + 1 := heightSmall (by omega)
    rw [show (raced n parent time).header.height = UInt64.ofNat (n + 1) from rfl,height] at value
    exact absurd value (Nat.succ_ne_zero n)
  refine ⟨⟨x,rfl,?_,?_⟩,?_,rfl,by simp [raced],⟨st,_,liftTxOk.mp derived,(rewardedOk tall).mpr ⟨⟨st,0,0⟩,rfl,rfl,rfl⟩,rfl⟩,
    UInt64.zero_le⟩
  · simp only [List.length_cons] at level
    rw [pathHeight r.sound path,ofNatSucc,level]
    rfl
  · rw [fee,gas]
    rfl
  · rw [racedHash small]
    exact decide_eq_true (oneZeroBit (topBit (by omega) (UInt64.toNat_lt _)))

structure Step (c c' : Chain) (k : Hash) (b : Block) (p : List Block) : Prop where
  racing : Racing c'
  grows : Grows c c'
  found : ∀ h x, c'.getByHash h = some x ↔ c.getByHash h = some x ∨ (h = k ∧ x = b)
  path : c'.Path k (b::p)
  head : c'.head = if c.td c.head < powWeight (b::p) then k else c.head
  size : c'.blocks.entries.length = c.blocks.entries.length + 1

theorem racedStep {c : Chain} {n : Nat} {parent : Hash} (time : Int64) {p : List Block} (r : Racing c)
    (path : c.Path parent p) (level : p.length = n + 1) (small : n < 2 ^ 31)
    (fresh : c.getByHash (hashAt (n + 1) time.toUInt64.toNat) = none) :
    ∃ c', c.addBlock env acceptNonEmptySig (raced n parent time) = .ok c' ∧
      Step c c' (hashAt (n + 1) time.toUInt64.toNat) (raced n parent time) p := by
  have hash := racedHash small parent time
  have mined := @racedMined c n parent time p r path level small
  obtain ⟨st,w,a⟩ := (powAccepts r.sound.rooted r.grows.config rfl path).mpr ⟨by rw [hash]; exact fresh,mined⟩
  have added : c.addBlock env acceptNonEmptySig (raced n parent time) = .ok _ := addBlockOk.mpr ⟨st,w,a,rfl⟩
  have grows : Grows c (c.commit env (raced n parent time) st w) := commitGrows a.fresh
  have weight := consensusWeight a.consensus
  have pow : c.consensus = .pow := r.grows.config.consensus
  have found := @commitFound _ env c (raced n parent time) st w a.fresh
  rw [hash] at found
  refine ⟨_,added,⟨commitSound r.sound a,.add r.reached added,r.grows.trans grows,fun h x stored => ?_⟩,grows,found,?_,?_,
    commitSize a.fresh⟩
  · rcases (found h x).mp stored with old | ⟨_,rfl⟩
    · exact r.free h x old
    · exact ⟨rfl,rfl⟩
  · rw [← hash]
    exact commitPath r.sound a.fresh path
  · rw [Chain.commitHead,hash]
    refine if_congr ?_ rfl rfl
    rw [outweighsIff r.sound.headStored a.fresh,weight,pow]
    have td : c.td (raced n parent time).header.prevHash = powWeight p := powTd r.sound r.grows rfl path
    rw [td]
    exact Iff.rfl

def genesisBlock : Block := (soloSetup 0).genesis.toBlock env

theorem genesisPath : ((soloSetup 0).chain env).Path (hashAt 0 0) [genesisBlock] := by
  have root : ((soloSetup 0).chain env).genesisHash = hashAt 0 0 := headerHash _
  rw [← root]
  exact setupStart env _

theorem genesisOnly {h : Hash} {x : Block} (found : ((soloSetup 0).chain env).getByHash h = some x) : h = hashAt 0 0 :=
  (setupOnly found).1.trans (headerHash _)

theorem genesisTd : ((soloSetup 0).chain env).td ((soloSetup 0).chain env).head = 1 := if_pos rfl

/- Two blocks on genesis, and one more on the second: the second branch wins. -/
def leftBlock : Block := raced 0 (hashAt 0 0) 1
def rightBlock : Block := raced 0 (hashAt 0 0) 2
def rightTip : Block := raced 1 (hashAt 1 2) 1

structure Forked (c₁ c₂ : Chain) : Prop where
  before : Racing c₁
  after : Racing c₂
  later : Extended env c₁ c₂
  grows : Grows c₁ c₂
  left : c₁.head = hashAt 1 1 ∧ c₁.Path (hashAt 1 1) [leftBlock,genesisBlock]
  right : c₂.head = hashAt 2 1 ∧ c₂.Path (hashAt 2 1) [rightTip,rightBlock,genesisBlock]
  size : c₂.blocks.entries.length = 4
  fits : c₂.FitsMap
  fed : c₁ = ((soloSetup 0).chain env).feed env acceptNonEmptySig [leftBlock] ∧
    c₂ = ((soloSetup 0).chain env).feed env acceptNonEmptySig [leftBlock,rightBlock,rightTip]
  unknown : c₁.getByHash (hashAt 1 2) = none

theorem raceForks : ∃ c₁ c₂, Forked c₁ c₂ := by
  obtain ⟨c₁,addedOne,one⟩ := @racedStep _ 0 _ 1 _ racingStart genesisPath rfl (by omega) (by
    cases found : ((soloSetup 0).chain env).getByHash (hashAt 1 1) with
    | none => exact found
    | some x => exact absurd (genesisOnly found) (hashApart (by omega) (by omega)))
  have oneHead := one.head
  rw [genesisTd,if_pos (by decide)] at oneHead
  have unknown : c₁.getByHash (hashAt 1 2) = none := by
    cases found : c₁.getByHash (hashAt 1 2) with
    | none => rfl
    | some x =>
      rcases (one.found _ _).mp found with old | ⟨same,_⟩
      · exact absurd (genesisOnly old) (hashApart (by omega) (by omega))
      · exact absurd same (hashApart (by decide) (by decide))
  obtain ⟨e,addedTwo,two⟩ :=
    @racedStep _ 0 _ 2 _ one.racing (growsPath one.grows genesisPath) rfl (by omega) unknown
  have twoTd : c₁.td c₁.head = 2 := by
    rw [oneHead,powTd one.racing.sound one.racing.grows rfl one.path]
    rfl
  have twoHead := two.head
  rw [twoTd,if_neg (by decide)] at twoHead
  obtain ⟨c₂,addedThree,three⟩ := @racedStep _ 1 _ 1 _ two.racing two.path rfl (by omega) (by
    cases found : e.getByHash (hashAt 2 1) with
    | none => exact found
    | some x =>
      rcases (two.found _ _).mp found with old | ⟨same,_⟩
      · rcases (one.found _ _).mp old with older | ⟨same,_⟩
        · exact absurd (genesisOnly older) (hashApart (by omega) (by omega))
        · exact absurd same (hashApart (by decide) (by decide))
      · exact absurd same (hashApart (by decide) (by decide)))
  have threeTd : e.td e.head = 2 := by
    rw [twoHead,oneHead,powTd two.racing.sound two.racing.grows rfl (growsPath two.grows one.path)]
    rfl
  have threeHead := three.head
  rw [threeTd,if_pos (by decide)] at threeHead
  have size : c₂.blocks.entries.length = 4 := by
    rw [three.size,two.size,one.size]
    rfl
  refine ⟨c₁,c₂,one.racing,three.racing,.add (.add .start addedTwo) addedThree,two.grows.trans three.grows,
    ⟨oneHead,one.path⟩,⟨threeHead,three.path⟩,size,show _ < 2 ^ 63 by rw [size]; omega,⟨(offerOk addedOne).symm,?_⟩,unknown⟩
  have first : ((soloSetup 0).chain env).addBlock env acceptNonEmptySig leftBlock = .ok c₁ := addedOne
  have second : c₁.addBlock env acceptNonEmptySig rightBlock = .ok e := addedTwo
  have third : e.addBlock env acceptNonEmptySig rightTip = .ok c₂ := addedThree
  simp only [Chain.feed,List.foldl_cons,List.foldl_nil,offerOk first,offerOk second,offerOk third]

theorem raceForkChoice : ∃ c₁ c₂, c₁.head = hashAt 1 1 ∧ Extended env c₁ c₂ ∧ c₂.head = hashAt 2 1 ∧
    ForkChoice env acceptNonEmptySig ((soloSetup 0).chain env) [leftBlock,rightBlock,rightTip] c₂ := by
  obtain ⟨c₁,c₂,f⟩ := raceForks
  have unwrapped : c₂.Unwrapped := unwrappedSmall f.after.sound (by rw [f.size]; decide)
  have kept := @forkChoiceKept _ env acceptNonEmptySig (soloSetup 0) [leftBlock,rightBlock,rightTip]
  rw [← f.fed.2] at kept
  exact ⟨c₁,c₂,f.left.1,f.later,f.right.1,kept unwrapped f.fits⟩

def fundedStore : Store := (Store.empty.putGenesisAlloc (soloConfig 0).genesisAlloc).putGenesisBaseAlloc ∅

theorem forkSaved {c₁ c₂ : Chain} (f : Forked c₁ c₂) : ∃ s₁, fundedStore.save env.sha c₁ = (.ok (),s₁) ∧ Synced env.sha s₁ c₁ := by
  obtain ⟨sound,indexed,grows⟩ := extendedSetup f.before.reached
  have small : c₁.blocks.entries.length ≤ 2 ^ 64 :=
    Nat.le_trans f.grows.size (Nat.le_trans (Nat.le_of_lt f.fits) (by omega))
  exact saveSynced sound indexed small (congrArg some grows.config.genesisAlloc.symm)
    (congrArg some grows.config.genesisBaseAlloc.symm)

theorem forkCanonical {c₁ c₂ : Chain} (f : Forked c₁ c₂) : c₁.chainTo c₁.head = some [genesisBlock,leftBlock] ∧
    c₂.chainTo c₂.head = some [genesisBlock,rightBlock,rightTip] := by
  constructor
  · rw [f.left.1,Chain.chainTo,(ancestryPath f.before.sound.rooted).mpr f.left.2]
    rfl
  · rw [f.right.1,Chain.chainTo,(ancestryPath f.after.sound.rooted).mpr f.right.2]
    rfl

/- The Save after the reorganization is cut once genesis and the first block of the new
branch are written: the store names a head that its index does not lead to. -/
theorem cutReorgNotLoaded : ∃ c₁ c₂ s₁, Extended env ((soloSetup 0).chain env) c₁ ∧ Extended env c₁ c₂ ∧ c₂.FitsMap ∧
    fundedStore.save env.sha c₁ = (.ok (),s₁) ∧ ∀ r, (s₁.saveCut env.sha c₂ 4).load env acceptNonEmptySig ≠ .ok r := by
  obtain ⟨c₁,c₂,f⟩ := raceForks
  obtain ⟨s₁,saved,synced⟩ := forkSaved f
  obtain ⟨sound₁,indexed₁,_⟩ := extendedSetup f.before.reached
  obtain ⟨sound₂,indexed₂,_⟩ := extendedSound sound₁ indexed₁ f.later
  have left : c₁.Path c₁.head [leftBlock,genesisBlock] := by rw [f.left.1]; exact f.left.2
  have right : c₂.Path c₂.head [rightTip,rightBlock,genesisBlock] := by rw [f.right.1]; exact f.right.2
  refine ⟨c₁,c₂,s₁,f.before.reached,f.later,f.fits,saved,fun r loaded => ?_⟩
  cases r with
  | none =>
    have head : (s₁.saveCut env.sha c₂ 4).head = some c₁.head := by
      rw [Store.saveCut,updatesPath sound₂ indexed₂ (Nat.le_trans (Nat.le_of_lt f.fits) (by omega)) right]
      exact synced.head
    exact loadSome head loaded
  | some d =>
    obtain ⟨added,head⟩ := (cutLoad sound₂ indexed₂ f.after.grows sound₁ f.grows f.fits synced left right (by decide)).mp loaded
    obtain ⟨_,same⟩ := splicedReload sound₂ f.after.grows f.fits (growsPath f.grows left) right (by decide) (by decide) added head
    injection same with _ rest
    injection rest with block _
    exact absurd (congrArg (fun b : Block => b.header.timestamp) block) (by decide)

theorem cutEarlyLoaded : ∃ c₁ c₂ s₁ d, Extended env c₁ c₂ ∧ fundedStore.save env.sha c₁ = (.ok (),s₁) ∧
    (s₁.saveCut env.sha c₂ 3).load env acceptNonEmptySig = .ok (some d) ∧
    (d.chainTo d.head = some [genesisBlock,leftBlock] ∨ d.chainTo d.head = some [genesisBlock,rightBlock,rightTip]) := by
  obtain ⟨c₁,c₂,f⟩ := raceForks
  obtain ⟨s₁,saved,_⟩ := forkSaved f
  obtain ⟨canonical₁,canonical₂⟩ := forkCanonical f
  have left : c₁.Path c₁.head [leftBlock,genesisBlock] := by rw [f.left.1]; exact f.left.2
  have right : c₂.Path c₂.head [rightTip,rightBlock,genesisBlock] := by rw [f.right.1]; exact f.right.2
  obtain ⟨sound₂,indexed₂,_⟩ := extendedSetup f.after.reached
  have count : (Store.updates env.sha c₂).length = 7 := by
    rw [updatesPath sound₂ indexed₂ (Nat.le_trans (Nat.le_of_lt f.fits) (by omega)) right]
    rfl
  have reloads : Reloads env acceptNonEmptySig (soloSetup 0) [genesisBlock,leftBlock] :=
    defaultReloads f.before.sound f.before.grows rfl left
  have recovers := (@saveCutRecovers _ env acceptNonEmptySig _ _ _ fundedStore s₁ _ _ f.before.reached f.later f.fits rfl rfl saved
    canonical₁ canonical₂ 3).mpr
  rw [count,if_pos (by decide)] at recovers
  obtain ⟨d,loaded,found⟩ := recovers ⟨⟨[leftBlock],rfl⟩,reloads⟩
  exact ⟨c₁,c₂,s₁,d,f.later,saved,loaded,found⟩

end Devnet
end L1Chain
