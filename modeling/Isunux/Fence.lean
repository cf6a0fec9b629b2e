import Isunux.Mapping

/-! Which slots of memory the mapping of low-half pages can write. `G` marks slots
that must stay as they are; the tables below the low half of `pml4` hold none of
them, and no table sits in two places. Both facts survive every new table, and a
table allocation that fails writes only frame zero and one slot of a low table. The
allocator pays a page for each table that is missing on the way, and for no other. -/
namespace Isunux

open Radix

/-- The table or page at an index path of an address space. -/
abbrev reach (mem : PhysMem) (pml4 : Nat) (q : List Nat) : Option Nat := walk pteChild mem pml4 q

theorem reach_snoc (mem : PhysMem) (pml4 : Nat) (q : List Nat) (i : Nat) :
    reach mem pml4 (q ++ [i]) = (reach mem pml4 q).bind fun g => pteChild (mem g i) :=
  walk_snoc pteChild mem pml4 q i

theorem reach_absent {mem : PhysMem} {pml4 f i : Nat} {q : List Nat} (here : reach mem pml4 q = some f)
    (absent : pteChild (mem f i) = none) : reach mem pml4 (q ++ [i]) = none := by
  rw [reach_snoc, here, Option.bind_some, absent]

/-- The frame of a page mapped in the low half. -/
def LowPage (mem : PhysMem) (pml4 f : Nat) : Prop :=
  ∃ q, LowPath q ∧ q.length = 4 ∧ reach mem pml4 q = some f

def neededTables (vs : List Word) : Finset (List Nat) :=
  (vs.flatMap fun v => [[pml4Idx v], [pml4Idx v, pdptIdx v], tablePath v]).toFinset

/-- Those of a set of tables that do not exist yet. -/
def missing (mem : PhysMem) (pml4 : Nat) (Q : Finset (List Nat)) : Finset (List Nat) :=
  Q.filter fun q => reach mem pml4 q = none

theorem neededTables_append (vs ws : List Word) :
    neededTables (vs ++ ws) = neededTables vs ∪ neededTables ws := by
  simp [neededTables, List.flatMap_append]

theorem mem_neededTables {q : List Nat} {v : Word} : q ∈ neededTables [v] ↔ q <+: tablePath v ∧ q ≠ [] := by
  simp only [neededTables, List.flatMap_cons, List.flatMap_nil, List.append_nil, List.mem_toFinset, List.mem_cons,
    List.not_mem_nil, or_false]
  constructor
  · rintro (rfl | rfl | rfl)
    · exact ⟨⟨_, rfl⟩, List.cons_ne_nil _ _⟩
    · exact ⟨⟨_, rfl⟩, List.cons_ne_nil _ _⟩
    · exact ⟨List.prefix_rfl, List.cons_ne_nil _ _⟩
  · rintro ⟨⟨rest, whole⟩, some⟩
    rcases q with _ | ⟨a, _ | ⟨b, _ | ⟨c, _ | ⟨d, q⟩⟩⟩⟩
    · exact absurd rfl some
    · simp_all [tablePath]
    · simp_all [tablePath]
    · simp_all [tablePath]
    · simp [tablePath] at whole

theorem mem_neededTables_low {vs : List Word} (low : ∀ v ∈ vs, pml4Idx v < 256) {q : List Nat}
    (needed : q ∈ neededTables vs) : LowPath q ∧ q.length ≤ 3 := by
  rw [neededTables, List.mem_toFinset, List.mem_flatMap] at needed
  obtain ⟨v, mem, here⟩ := needed
  have lowT : LowPath (tablePath v) := (tablePath_low (low v mem)).init
  have onPath : q <+: tablePath v := by
    simp only [List.mem_cons, List.not_mem_nil, or_false] at here
    rcases here with rfl | rfl | rfl
    · exact ⟨_, rfl⟩
    · exact ⟨_, rfl⟩
    · exact List.prefix_rfl
  exact ⟨lowT.of_prefix onPath, onPath.length_le⟩

theorem missing_union (mem : PhysMem) (pml4 : Nat) (N M : Finset (List Nat)) :
    (missing mem pml4 (N ∪ M)).card = (missing mem pml4 N).card + (missing mem pml4 M \ N).card := by
  have split : missing mem pml4 (N ∪ M) = missing mem pml4 N ∪ (missing mem pml4 M \ N) := by
    ext q
    simp only [missing, Finset.mem_union, Finset.mem_filter, Finset.mem_sdiff]
    tauto
  rw [split, Finset.card_union_of_disjoint]
  rw [Finset.disjoint_left]
  intro q old new
  exact (Finset.mem_sdiff.mp new).2 (Finset.mem_filter.mp old).1

/-- The pages that new pages at some addresses take, with their missing tables. -/
def pagesNeeded (mem : PhysMem) (pml4 : Nat) (vs : List Word) : Nat :=
  vs.length + (missing mem pml4 (neededTables vs)).card

theorem pagesNeeded_append (mem : PhysMem) (pml4 : Nat) (vs ws : List Word) :
    pagesNeeded mem pml4 (vs ++ ws) =
      pagesNeeded mem pml4 vs + ws.length + (missing mem pml4 (neededTables ws) \ neededTables vs).card := by
  rw [pagesNeeded, neededTables_append, missing_union, pagesNeeded, List.length_append]
  omega

structure Fenced (G : Nat → Nat → Prop) (pml4 : Nat) (s : Vm) : Prop where
  zero : Held s.pmm 0
  guarded : ∀ f j, G f j → f ≠ 0 ∧ Held s.pmm f
  root : pml4 ≠ 0 ∧ Held s.pmm pml4
  rootLow : ∀ i, i < 256 → ¬ G pml4 i
  tables : ∀ q f, LowPath q → q ≠ [] → q.length ≤ 3 → reach s.mem pml4 q = some f →
    f ≠ 0 ∧ Held s.pmm f ∧ ∀ j, ¬ G f j
  tree : ∀ q q' f, LowPath q → LowPath q' → q.length ≤ 3 → q'.length ≤ 3 →
    reach s.mem pml4 q = some f → reach s.mem pml4 q' = some f → q = q'

theorem leaf_child {d : Nat} {flags : Word} (small : d < 2 ^ 52) (plain : flags.toNat < 4096) :
    pteChild (pageAddr d ||| (flags ||| ptePresent)) = some d := by
  have bits : (flags ||| ptePresent).toNat < 4096 := by
    rw [BitVec.toNat_or]
    exact Nat.or_lt_two_pow (n := 12) plain (by decide)
  have present : hasBits (flags ||| ptePresent) ptePresent = true := by
    unfold hasBits ptePresent
    rw [bne_iff_ne]
    intro zero
    have bit := congrArg (fun e => e.getLsbD 0) zero
    simp at bit
  rw [pteChild, hasBits_pageAddr_or (by decide), if_pos present, pteFrame_pageAddr_or small bits]

section Fence

variable {G : Nat → Nat → Prop} {pml4 : Nat} {s t : Vm}

theorem Fenced.inner (w : Fenced G pml4 s) {q : List Nat} {f : Nat} (low : LowPath q)
    (short : q.length ≤ 3) (here : reach s.mem pml4 q = some f) : f ≠ 0 ∧ Held s.pmm f := by
  by_cases root : q = []
  · subst root
    cases here
    exact w.root
  · exact ⟨(w.tables q f low root short here).1, (w.tables q f low root short here).2.1⟩

theorem Fenced.slot (w : Fenced G pml4 s) {q : List Nat} {f i : Nat} (low : LowPath (q ++ [i]))
    (here : reach s.mem pml4 q = some f) : ¬ G f i := by
  by_cases root : q = []
  · subst root
    cases here
    exact w.rootLow i (low.2.2 i rfl)
  · exact (w.tables q f low.init root (length_snoc_le low) here).2.2 i

theorem Fenced.fresh_off (w : Fenced G pml4 s) {g : Nat} (bound : g < s.pmm.totalPages)
    (clear : s.pmm.bitmap g = false) {q : List Nat} (low : LowPath q) (short : q.length ≤ 3) :
    reach s.mem pml4 q ≠ some g := by
  intro here
  rw [(w.inner low short here).2 bound] at clear
  cases clear

theorem Fenced.transfer (w : Fenced G pml4 s) (grown : Grown s.pmm t.pmm)
    (same : ∀ q, LowPath q → q.length ≤ 3 → reach t.mem pml4 q = reach s.mem pml4 q) :
    Fenced G pml4 t := by
  refine ⟨grown.held w.zero, fun f j h => ?_, ⟨w.root.1, grown.held w.root.2⟩, w.rootLow, ?_, ?_⟩
  · exact ⟨(w.guarded f j h).1, grown.held (w.guarded f j h).2⟩
  · intro q f low nonroot short here
    rw [same q low short] at here
    obtain ⟨nonzero, held, open_⟩ := w.tables q f low nonroot short here
    exact ⟨nonzero, grown.held held, open_⟩
  · intro q q' f low low' short short' here here'
    rw [same q low short] at here
    rw [same q' low' short'] at here'
    exact w.tree q q' f low low' short short' here here'

theorem Fenced.mono {H : Nat → Nat → Prop} (w : Fenced G pml4 s) (sub : ∀ f j, H f j → G f j) :
    Fenced H pml4 s :=
  ⟨w.zero, fun f j h => w.guarded f j (sub f j h), w.root, fun i hi h => w.rootLow i hi (sub _ _ h),
    fun q f low nonroot short here =>
      let ⟨nonzero, held, open_⟩ := w.tables q f low nonroot short here
      ⟨nonzero, held, fun j h => open_ j (sub f j h)⟩,
    w.tree⟩

theorem reach_off {mem mem' : PhysMem} {D : Nat → Prop} {n : Nat}
    (same : ∀ f, ¬ D f → mem' f = mem f)
    (off : ∀ q f, LowPath q → q.length < n → reach mem pml4 q = some f → ¬ D f) {u : List Nat}
    (low : LowPath u) (short : u.length ≤ n) : reach mem' pml4 u = reach mem pml4 u := by
  apply walk_congr
  intro q i hq g hg
  have shorter := hq.length_le
  simp only [List.length_append, List.length_singleton] at shorter
  rw [same g (off q g (low.of_prefix hq).init (by omega) hg)]

theorem Fenced.takePages (w : Fenced G pml4 s) {D : Nat → Prop} (grown : Grown s.pmm t.pmm)
    (fresh : ∀ d, D d → d ≠ 0 ∧ d < s.pmm.totalPages ∧ s.pmm.bitmap d = false ∧
      t.pmm.bitmap d = true)
    (same : ∀ f, ¬ D f → t.mem f = s.mem f) :
    Fenced (fun f j => G f j ∨ D f) pml4 t ∧
      ∀ u, LowPath u → reach t.mem pml4 u = reach s.mem pml4 u := by
  have off : ∀ q f, LowPath q → q.length < 4 → reach s.mem pml4 q = some f → ¬ D f := by
    intro q f low short here hD
    exact w.fresh_off (fresh f hD).2.1 (fresh f hD).2.2.1 low (by omega) here
  have paths : ∀ u, LowPath u → reach t.mem pml4 u = reach s.mem pml4 u :=
    fun u low => reach_off same off low low.1
  refine ⟨⟨grown.held w.zero, ?_, ⟨w.root.1, grown.held w.root.2⟩, ?_, ?_, ?_⟩, paths⟩
  · rintro f j (hG | hD)
    · exact ⟨(w.guarded f j hG).1, grown.held (w.guarded f j hG).2⟩
    · exact ⟨(fresh f hD).1, fun _ => (fresh f hD).2.2.2⟩
  · rintro i hi (hG | hD)
    · exact w.rootLow i hi hG
    · exact off [] pml4 .nil (by simp) rfl hD
  · intro q f low nonroot short here
    rw [paths q low] at here
    obtain ⟨nonzero, held, open_⟩ := w.tables q f low nonroot short here
    refine ⟨nonzero, grown.held held, ?_⟩
    rintro j (hG | hD)
    · exact open_ j hG
    · exact off q f low (by omega) here hD
  · intro q q' f low low' short short' here here'
    rw [paths q low] at here
    rw [paths q' low'] at here'
    exact w.tree q q' f low low' short short' here here'

theorem walk_shrink {mem mem' : PhysMem}
    (fewer : ∀ f j g, pteChild (mem' f j) = some g → pteChild (mem f j) = some g) {f : Nat}
    {u : List Nat} {x : Nat} (here : walk pteChild mem' f u = some x) :
    walk pteChild mem f u = some x := by
  induction u generalizing f with
  | nil => exact here
  | cons i u ih =>
    simp only [walk, Option.bind_eq_some_iff] at here ⊢
    obtain ⟨g, hg, rest⟩ := here
    exact ⟨g, fewer f i g hg, ih rest⟩

/-- What a successful part of the work does: the fence stays, no guarded slot and
no allocated page is touched, tables stay where they are and no page is mapped. -/
structure Step (G : Nat → Nat → Prop) (pml4 : Nat) (s t : Vm) : Prop where
  fenced : Fenced G pml4 t
  kept : ∀ f j, G f j → t.mem f j = s.mem f j
  grown : Grown s.pmm t.pmm
  stays : ∀ q f, LowPath q → q.length ≤ 3 → reach s.mem pml4 q = some f →
    reach t.mem pml4 q = some f
  leaves : ∀ q f, LowPath q → q.length = 4 → reach t.mem pml4 q = some f →
    reach s.mem pml4 q = some f

theorem Step.refl (w : Fenced G pml4 s) : Step G pml4 s s :=
  ⟨w, fun _ _ _ => rfl, .refl _, fun _ _ _ _ h => h, fun _ _ _ _ h => h⟩

theorem Step.trans {u : Vm} (h : Step G pml4 s t) (h' : Step G pml4 t u) : Step G pml4 s u :=
  ⟨h'.fenced, fun f j g => (h'.kept f j g).trans (h.kept f j g), h.grown.trans h'.grown,
    fun q f low short here => h'.stays q f low short (h.stays q f low short here),
    fun q f low four here => h.leaves q f low four (h'.leaves q f low four here)⟩

/-- Where a new table puts the paths: those there before stay, and only its own path
reaches it. -/
theorem Fenced.newTable_reach (w : Fenced G pml4 s) {q : List Nat} {f i g : Nat}
    (low : LowPath (q ++ [i])) (here : reach s.mem pml4 q = some f)
    (absent : pteChild (s.mem f i) = none) (small : g < 2 ^ 52)
    (unused : ∀ u, LowPath u → u.length ≤ 3 → reach s.mem pml4 u ≠ some g) :
    (∀ u x, LowPath u → reach s.mem pml4 u = some x →
      reach (put (zeroFrame s.mem g) f i (tableEntry g)) pml4 u = some x) ∧
    (∀ u x, LowPath u → reach (put (zeroFrame s.mem g) f i (tableEntry g)) pml4 u = some x →
      reach s.mem pml4 u = some x ∨ (x = g ∧ u = q ++ [i])) := by
  have short := length_snoc_le low
  have other : f ≠ g := by
    rintro rfl
    exact unused q low.init short here
  -- the entries of the changed memory, seen from frames other than the new table
  have edge : ∀ h j, h ≠ g → ¬ (h = f ∧ j = i) →
      put (zeroFrame s.mem g) f i (tableEntry g) h j = s.mem h j := by
    intro h j hg off
    rw [put_other _ _ off, zeroFrame, Function.update_of_ne hg]
  constructor
  · intro u x lowU hu
    rw [← hu]
    apply walk_congr
    intro r j hr h hh
    have lowR := lowU.of_prefix hr
    apply edge
    · rintro rfl
      exact unused r lowR.init (length_snoc_le lowR) hh
    · rintro ⟨rfl, rfl⟩
      obtain ⟨rest, rfl⟩ := hr
      rw [reach, walk_append, walk_snoc, hh, Option.bind_some, absent] at hu
      cases hu
  · intro u
    induction u using List.reverseRecOn with
    | nil => exact fun x _ hu => .inl hu
    | append_singleton r j ih =>
      intro x lowU hu
      rw [reach_snoc, Option.bind_eq_some_iff] at hu
      obtain ⟨h, hr, hc⟩ := hu
      rcases ih h lowU.init hr with old | ⟨rfl, -⟩
      · by_cases slot : h = f ∧ j = i
        · obtain ⟨rfl, rfl⟩ := slot
          rw [put_same, tableEntry_child small] at hc
          cases hc
          rw [w.tree r q h lowU.init low.init (length_snoc_le lowU) short old here]
          exact .inr ⟨rfl, rfl⟩
        · have hg : h ≠ g := by
            rintro rfl
            exact unused r lowU.init (length_snoc_le lowU) old
          rw [edge h j hg slot] at hc
          refine .inl ?_
          rw [reach_snoc, Option.bind_eq_some_iff]
          exact ⟨h, old, hc⟩
      · rw [put_table _ _ _ other.symm, zeroFrame, Function.update_self] at hc
        cases hc

theorem Fenced.newTable (w : Fenced G pml4 s) {q : List Nat} {f i g : Nat} {p : Pmm}
    (low : LowPath (q ++ [i])) (short : q.length ≤ 2) (here : reach s.mem pml4 q = some f)
    (absent : pteChild (s.mem f i) = none) (grown : Grown s.pmm p) (bound : g < s.pmm.totalPages)
    (clear : s.pmm.bitmap g = false) (nonzero : g ≠ 0) (used : p.bitmap g = true) :
    Step G pml4 s { s with pmm := p, mem := put (zeroFrame s.mem g) f i (tableEntry g) } ∧
      reach (put (zeroFrame s.mem g) f i (tableEntry g)) pml4 (q ++ [i]) = some g ∧
      ∀ u x, LowPath u → reach (put (zeroFrame s.mem g) f i (tableEntry g)) pml4 u = some x →
        reach s.mem pml4 u = some x ∨ u = q ++ [i] := by
  have unused : ∀ u, LowPath u → u.length ≤ 3 → reach s.mem pml4 u ≠ some g :=
    fun u lowU shortU => w.fresh_off bound clear lowU shortU
  have small := small_of_bound bound
  obtain ⟨stays, only⟩ := w.newTable_reach low here absent small unused
  have open_ : ∀ j, ¬ G g j := by
    intro j hG
    rw [(w.guarded g j hG).2 bound] at clear
    cases clear
  refine ⟨⟨⟨grown.held w.zero, ?_, ⟨w.root.1, grown.held w.root.2⟩, w.rootLow, ?_, ?_⟩,
    ?_, grown, fun u x lowU _ hu => stays u x lowU hu, ?_⟩, ?_, ?_⟩
  · exact fun h j hG => ⟨(w.guarded h j hG).1, grown.held (w.guarded h j hG).2⟩
  · intro u x lowU nonroot shortU hu
    rcases only u x lowU hu with old | ⟨rfl, -⟩
    · obtain ⟨nonzero, held, open_⟩ := w.tables u x lowU nonroot shortU old
      exact ⟨nonzero, grown.held held, open_⟩
    · exact ⟨nonzero, fun _ => used, open_⟩
  · intro u u' x lowU lowU' shortU shortU' hu hu'
    rcases only u x lowU hu with old | ⟨rfl, new⟩
    · rcases only u' x lowU' hu' with old' | ⟨rfl, -⟩
      · exact w.tree u u' x lowU lowU' shortU shortU' old old'
      · exact absurd old (unused u lowU shortU)
    · rcases only u' x lowU' hu' with old' | ⟨-, new'⟩
      · exact absurd old' (unused u' lowU' shortU')
      · rw [new, new']
  · intro h j hG
    have hg : h ≠ g := by
      rintro rfl
      exact open_ j hG
    have slot : ¬ (h = f ∧ j = i) := by
      rintro ⟨rfl, rfl⟩
      exact w.slot low here hG
    dsimp only
    rw [put_other _ _ slot, zeroFrame, Function.update_of_ne hg]
  · intro u x lowU four hu
    rcases only u x lowU hu with old | ⟨-, new⟩
    · exact old
    · rw [new, List.length_append, List.length_singleton] at four
      omega
  · have path := stays q f low.init here
    rw [reach_snoc, path, Option.bind_some, put_same, tableEntry_child small]
  · exact fun u x lowU hu => (only u x lowU hu).imp_right fun new => new.2

/-- The allocator after `n` single pages. -/
def afterPages (p : Pmm) (n : Nat) : Pmm := (fun q => (pmmAllocPage q).1)^[n] p

theorem afterPages_add (p : Pmm) (n m : Nat) : afterPages p (n + m) = afterPages (afterPages p n) m := by
  rw [afterPages, Nat.add_comm, Function.iterate_add_apply]
  rfl

/-- The tables of `N` are there now, besides those that were there before. -/
def AddsTables (pml4 : Nat) (N : Finset (List Nat)) (mem mem' : PhysMem) : Prop :=
  ∀ q, LowPath q → q.length ≤ 3 → (reach mem' pml4 q = none ↔ reach mem pml4 q = none ∧ q ∉ N)

theorem AddsTables.missing {N M : Finset (List Nat)} {mem mem' : PhysMem} (adds : AddsTables pml4 N mem mem')
    (lows : ∀ q ∈ M, LowPath q ∧ q.length ≤ 3) :
    missing mem' pml4 M = Isunux.missing mem pml4 M \ N := by
  ext q
  rw [Isunux.missing, Isunux.missing, Finset.mem_sdiff, Finset.mem_filter, Finset.mem_filter, and_assoc]
  exact and_congr_right fun mem => adds q (lows q mem).1 (lows q mem).2

theorem AddsTables.trans {N M : Finset (List Nat)} {mem mem' mem'' : PhysMem} (adds : AddsTables pml4 N mem mem')
    (adds' : AddsTables pml4 M mem' mem'') : AddsTables pml4 (N ∪ M) mem mem'' := by
  intro q low few
  rw [adds' q low few, adds q low few, Finset.mem_union]
  tauto

/-- The tables of `N` are there, those that were missing each on a page of its own, and
no others have been made. -/
structure Built (pml4 : Nat) (N : Finset (List Nat)) (s t : Vm) : Prop where
  tables : AddsTables pml4 N s.mem t.mem
  pmm : t.pmm = afterPages s.pmm (missing s.mem pml4 N).card
  free : freeFrames t.pmm + (missing s.mem pml4 N).card = freeFrames s.pmm

theorem Built.refl {N : Finset (List Nat)} (there : ∀ q ∈ N, (reach s.mem pml4 q).isSome) :
    Built pml4 N s s := by
  have none : missing s.mem pml4 N = ∅ := by
    refine Finset.filter_eq_empty_iff.mpr fun q mem gone => ?_
    have here := there q mem
    rw [gone] at here
    cases here
  refine ⟨fun q _ _ => ⟨fun gone => ⟨gone, fun mem => ?_⟩, fun h => h.1⟩, ?_, ?_⟩
  · have here := there q mem
    rw [gone] at here
    cases here
  · rw [none, Finset.card_empty]
    rfl
  · rw [none, Finset.card_empty, Nat.add_zero]

theorem Built.trans {N M : Finset (List Nat)} {u : Vm} (b : Built pml4 N s t) (b' : Built pml4 M t u)
    (lows : ∀ q ∈ M, LowPath q ∧ q.length ≤ 3) : Built pml4 (N ∪ M) s u := by
  have left := congrArg Finset.card (b.tables.missing lows)
  refine ⟨b.tables.trans b'.tables, ?_, ?_⟩
  · rw [missing_union, afterPages_add, b'.pmm, left, b.pmm]
  · have first := b.free
    have second := b'.free
    rw [left] at second
    rw [missing_union]
    omega

theorem Built.short {N M : Finset (List Nat)} {q : List Nat} (b : Built pml4 N s t) (sub : N ⊆ M)
    (wanted : q ∈ M) (low : LowPath q) (few : q.length ≤ 3) (absent : reach t.mem pml4 q = none)
    (full : ∀ h, Held t.pmm h) : freeFrames s.pmm < (Isunux.missing s.mem pml4 M).card := by
  obtain ⟨gone, other⟩ := (b.tables q low few).mp absent
  have more : Isunux.missing s.mem pml4 N ⊂ Isunux.missing s.mem pml4 M := by
    refine (Finset.ssubset_iff_of_subset (Finset.filter_subset_filter _ sub)).mpr ⟨q, ?_, fun mem => ?_⟩
    · exact Finset.mem_filter.mpr ⟨wanted, gone⟩
    · exact other (Finset.mem_filter.mp mem).1
  have larger := Finset.card_lt_card more
  have none := freeFrames_eq_zero full
  have paid := b.free
  omega

/-- What is left behind when a table allocation fails below slot `i` of `f`: the
slot and frame zero, whose entries all point back to it. -/
structure Spill (s : Vm) (f i : Nat) (t : Vm) : Prop where
  pmm : t.pmm = { s.pmm with exhausted := true }
  rest : ∀ h, h ≠ 0 → t.mem h = put s.mem f i (tableEntry 0) h
  frame : ∀ j x, pteChild (t.mem 0 j) = some x → x = 0

theorem getOrCreateTable_spill {f i : Nat} (zero : Held s.pmm 0) (nonzero : f ≠ 0)
    (absent : ¬ hasBits (s.mem f i) ptePresent = true) (failed : (pmmAllocPage s.pmm).2 = 0) :
    Spill s f i (getOrCreateTable s f i).1 ∧ (getOrCreateTable s f i).2 = 0 := by
  rw [getOrCreateTable, if_neg absent]
  refine ⟨⟨(pmmAllocPage_zero zero failed).2, fun h other => ?_, fun j x hx => ?_⟩, failed⟩
  · simp only [failed]
    by_cases hf : h = f
    · subst hf
      simp [put, zeroFrame, other]
    · rw [put_table _ _ _ hf, put_table _ _ _ hf, zeroFrame, Function.update_of_ne other]
  · simp only [failed] at hx
    rw [put_table _ _ _ nonzero.symm, zeroFrame, Function.update_self] at hx
    cases hx

/-- `get_or_create_table` below a low table: a step that makes just this table, or every
page is in use and the new table is frame zero. -/
theorem Fenced.ensure (w : Fenced G pml4 s) {q : List Nat} {f i : Nat} (low : LowPath (q ++ [i]))
    (short : q.length ≤ 2) (here : reach s.mem pml4 q = some f) :
    (Step G pml4 s (getOrCreateTable s f i).1 ∧
      reach (getOrCreateTable s f i).1.mem pml4 (q ++ [i]) = some (getOrCreateTable s f i).2 ∧
      Built pml4 {q ++ [i]} s (getOrCreateTable s f i).1) ∨
    (pteChild (s.mem f i) = none ∧ (∀ h, Held s.pmm h) ∧ Spill s f i (getOrCreateTable s f i).1 ∧
      (getOrCreateTable s f i).2 = 0) := by
  by_cases present : hasBits (s.mem f i) ptePresent = true
  · refine .inl ?_
    rw [getOrCreateTable, if_pos present]
    have there : reach s.mem pml4 (q ++ [i]) = some (pteFrame (s.mem f i)) := by
      rw [reach_snoc, here, Option.bind_some, pteChild, if_pos present]
    refine ⟨.refl w, there, .refl fun u mem => ?_⟩
    rw [Finset.mem_singleton.mp mem, there]
    rfl
  · have absent : pteChild (s.mem f i) = none := by rw [pteChild, if_neg present]
    by_cases failed : (pmmAllocPage s.pmm).2 = 0
    · have nonzero := (w.inner low.init (by omega) here).1
      obtain ⟨spill, zero⟩ := getOrCreateTable_spill w.zero nonzero present failed
      exact .inr ⟨absent, (pmmAllocPage_zero w.zero failed).1, spill, zero⟩
    · obtain ⟨bound, clear, after⟩ := pmmAllocPage_fresh failed
      rw [getOrCreateTable, if_neg present]
      have used : (pmmAllocPage s.pmm).1.bitmap (pmmAllocPage s.pmm).2 = true := by
        rw [after]
        simp [Pmm.take]
      obtain ⟨step, there, only⟩ := w.newTable low short here absent (pmmAllocPage_grown s.pmm) bound clear failed used
      have gone := reach_absent here absent
      have one : Isunux.missing s.mem pml4 {q ++ [i]} = {q ++ [i]} :=
        Finset.filter_true_of_mem fun u mem => Finset.mem_singleton.mp mem ▸ gone
      refine .inl ⟨step, there, fun u lowU fewU => ⟨fun absentU => ⟨?_, ?_⟩, fun absentU => ?_⟩, ?_, ?_⟩
      · cases old : reach s.mem pml4 u with
        | none => rfl
        | some x =>
          rw [step.stays u x lowU fewU old] at absentU
          cases absentU
      · intro mem
        rw [Finset.mem_singleton.mp mem, there] at absentU
        cases absentU
      · dsimp only
        cases new : reach (put (zeroFrame s.mem (pmmAllocPage s.pmm).2) f i
            (tableEntry (pmmAllocPage s.pmm).2)) pml4 u with
        | none => rfl
        | some x =>
          rcases only u x lowU new with old | mine
          · rw [absentU.1] at old
            cases old
          · exact absurd (Finset.mem_singleton.mpr mine) absentU.2
      · rw [one, Finset.card_singleton]
        rfl
      · have taken := freeFrames_take s.pmm bound clear
        rw [← after] at taken
        rw [one, Finset.card_singleton]
        exact taken

theorem Spill.ensure {f i : Nat} (h : Spill s f i t) (full : ∀ h, Held s.pmm h) (j : Nat) :
    Spill s f i (getOrCreateTable t 0 j).1 ∧ (getOrCreateTable t 0 j).2 = 0 := by
  unfold getOrCreateTable
  split
  · rename_i present
    exact ⟨h, h.frame j _ (by rw [pteChild, if_pos present])⟩
  · have held : ∀ g, Held t.pmm g := by
      rw [h.pmm]
      exact full
    have failed : (pmmAllocPage t.pmm).2 = 0 := by
      by_contra ok
      obtain ⟨bound, clear, -⟩ := pmmAllocPage_fresh ok
      rw [held _ bound] at clear
      cases clear
    refine ⟨⟨?_, fun g nonzero => ?_, fun l x hx => ?_⟩, failed⟩
    · have after := (pmmAllocPage_zero (held 0) failed).2
      rw [h.pmm] at after
      dsimp only
      rw [h.pmm]
      exact after
    · dsimp only
      rw [failed, put_table _ _ _ nonzero, zeroFrame, Function.update_of_ne nonzero, h.rest g nonzero]
    · dsimp only at hx
      rw [failed] at hx
      by_cases slot : l = j
      · subst slot
        rw [put_same, tableEntry_child (by decide)] at hx
        exact (Option.some.inj hx).symm
      · rw [put_other _ _ (fun e => slot e.2), zeroFrame, Function.update_self] at hx
        cases hx

/-- The page tables `vmm_map_4k_in` walks through, and the page table it ends in. -/
def mapTables (s : Vm) (pml4 : Nat) (v : Word) : Vm × Nat :=
  let a := getOrCreateTable s pml4 (pml4Idx v)
  let b := getOrCreateTable a.1 a.2 (pdptIdx v)
  getOrCreateTable b.1 b.2 (pdIdx v)

theorem vmmMap4kIn_eq (s : Vm) (pml4 : Nat) (v : Word) (frame : Nat) (flags : Word) :
    vmmMap4kIn s pml4 v frame flags =
      { (mapTables s pml4 v).1 with
        mem := put (mapTables s pml4 v).1.mem (mapTables s pml4 v).2 (ptIdx v)
          (pageAddr frame ||| (flags ||| ptePresent)) } := rfl

theorem Fenced.mapTables (w : Fenced G pml4 s) {v : Word} (low : pml4Idx v < 256) :
    (Step G pml4 s (mapTables s pml4 v).1 ∧
      reach (mapTables s pml4 v).1.mem pml4 (tablePath v) = some (mapTables s pml4 v).2 ∧
      Built pml4 (neededTables [v]) s (mapTables s pml4 v).1) ∨
    ∃ m q f i, Step G pml4 s m ∧ LowPath (q ++ [i]) ∧ q.length ≤ 2 ∧
      reach m.mem pml4 q = some f ∧ pteChild (m.mem f i) = none ∧ (∀ h, Held m.pmm h) ∧
      Spill m f i (mapTables s pml4 v).1 ∧ (mapTables s pml4 v).2 = 0 ∧
      freeFrames s.pmm < (missing s.mem pml4 (neededTables [v])).card := by
  have lowLeaf := tablePath_low low
  have low₁ : LowPath ([] ++ [pml4Idx v]) := lowLeaf.of_prefix ⟨_, rfl⟩
  have low₂ : LowPath ([pml4Idx v] ++ [pdptIdx v]) := lowLeaf.of_prefix ⟨_, rfl⟩
  have low₃ : LowPath ([pml4Idx v, pdptIdx v] ++ [pdIdx v]) := lowLeaf.of_prefix ⟨_, rfl⟩
  have three : neededTables [v] = {[pml4Idx v]} ∪ ({[pml4Idx v, pdptIdx v]} ∪ {tablePath v}) := by
    ext q
    simp [neededTables, or_left_comm]
  have one : ∀ {q : List Nat}, LowPath q → q.length ≤ 3 → ∀ u ∈ ({q} : Finset (List Nat)), LowPath u ∧ u.length ≤ 3 :=
    fun lowQ few u mem => Finset.mem_singleton.mp mem ▸ ⟨lowQ, few⟩
  unfold Isunux.mapTables
  dsimp only
  generalize ha : getOrCreateTable s pml4 (pml4Idx v) = a
  generalize hb : getOrCreateTable a.1 a.2 (pdptIdx v) = b
  generalize hc : getOrCreateTable b.1 b.2 (pdIdx v) = c
  have first := w.ensure low₁ (by simp) (walk_nil pteChild s.mem pml4)
  rw [ha] at first
  rcases first with ⟨stepA, hereA, builtA⟩ | ⟨absent, full, spill, zero⟩
  · have second := stepA.fenced.ensure low₂ (by simp) hereA
    rw [hb] at second
    rcases second with ⟨stepB, hereB, builtB⟩ | ⟨absent, full, spill, zero⟩
    · have both := builtA.trans builtB (one low₂ (by simp))
      have third := stepB.fenced.ensure low₃ (by simp) hereB
      rw [hc] at third
      rcases third with ⟨stepC, hereC, builtC⟩ | ⟨absent, full, spill, zero⟩
      · refine .inl ⟨stepA.trans (stepB.trans stepC), hereC, ?_⟩
        have all := both.trans builtC (one low₃ (by simp))
        rw [Finset.union_assoc] at all
        rw [three]
        exact all
      · refine .inr ⟨b.1, _, b.2, _, stepA.trans stepB, low₃, by simp, hereB, absent, full, spill, zero, ?_⟩
        refine both.short (q := [pml4Idx v, pdptIdx v] ++ [pdIdx v]) ?_ ?_ low₃ (by simp) ?_ full
        · rw [three, ← Finset.union_assoc]
          exact Finset.subset_union_left
        · simp [three, tablePath]
        · exact reach_absent hereB absent
    · obtain ⟨spill', zero'⟩ := spill.ensure full (pdIdx v)
      rw [zero] at hc
      rw [hc] at spill' zero'
      refine .inr ⟨a.1, _, a.2, _, stepA, low₂, by simp, hereA, absent, full, spill', zero', ?_⟩
      refine builtA.short (q := [pml4Idx v] ++ [pdptIdx v]) ?_ ?_ low₂ (by simp) ?_ full
      · rw [three]
        exact Finset.subset_union_left
      · simp [three]
      · exact reach_absent hereA absent
  · obtain ⟨spill', zero'⟩ := spill.ensure full (pdptIdx v)
    rw [zero] at hb
    rw [hb] at spill' zero'
    obtain ⟨spill'', zero''⟩ := spill'.ensure full (pdIdx v)
    rw [zero'] at hc
    rw [hc] at spill'' zero''
    refine .inr ⟨s, [], pml4, _, .refl w, low₁, by simp, rfl, absent, full, spill'', zero'', ?_⟩
    refine Built.short (q := [] ++ [pml4Idx v]) (.refl (N := ∅) (fun _ mem => absurd mem (Finset.notMem_empty _))) (Finset.empty_subset _)
      ?_ low₁ (by simp) ?_ full
    · simp [three]
    · exact reach_absent rfl absent

theorem Fenced.put_tables (w : Fenced G pml4 s) {q : List Nat} {f l : Nat} (e : Word) (low : LowPath q)
    (three : q.length = 3) (here : reach s.mem pml4 q = some f) {u : List Nat} (lowU : LowPath u)
    (short : u.length ≤ 3) : reach (put s.mem f l e) pml4 u = reach s.mem pml4 u := by
  refine reach_off (D := fun g => g = f) (n := 3) (fun g hg => put_table _ _ _ hg) ?_ lowU short
  rintro r g lowR shorter hr rfl
  rw [w.tree r q g lowR low (by omega) (by omega) hr here] at shorter
  omega

theorem Fenced.putLeaf (w : Fenced G pml4 s) {q : List Nat} {f l : Nat} (e : Word)
    (low : LowPath (q ++ [l])) (three : q.length = 3) (here : reach s.mem pml4 q = some f) :
    Fenced G pml4 { s with mem := put s.mem f l e } ∧
      (∀ h j, G h j → put s.mem f l e h j = s.mem h j) ∧
      ∀ u x, LowPath u → u.length = 4 → reach (put s.mem f l e) pml4 u = some x →
        pteChild e = some x ∨ reach s.mem pml4 u = some x := by
  refine ⟨w.transfer (.refl _) fun u lowU short => w.put_tables e low.init three here lowU short,
    fun h j hG => ?_, fun u x lowU four hu => ?_⟩
  · apply put_other
    rintro ⟨rfl, rfl⟩
    exact w.slot low here hG
  · have nonempty : u ≠ [] := by
      rintro rfl
      cases four
    obtain ⟨r, j, rfl⟩ : ∃ r j, u = r ++ [j] :=
      ⟨u.dropLast, u.getLast nonempty, (List.dropLast_append_getLast nonempty).symm⟩
    rw [reach_snoc, w.put_tables e low.init three here lowU.init (length_snoc_le lowU)] at hu
    rw [reach_snoc]
    obtain ⟨h, hr, hc⟩ := Option.bind_eq_some_iff.mp hu
    by_cases slot : h = f ∧ j = l
    · obtain ⟨rfl, rfl⟩ := slot
      rw [put_same] at hc
      exact .inl hc
    · rw [put_other _ _ slot] at hc
      exact .inr (Option.bind_eq_some_iff.mpr ⟨h, hr, hc⟩)

/-! A page mapped after a table allocation has failed. The page table is frame zero,
so the entry is written there. -/

section Spilled

variable {m : Vm} {q : List Nat} {f i d l : Nat} {e : Word}

theorem Spill.stays (spill : Spill m f i t) (w : Fenced G pml4 m)
    (absent : pteChild (m.mem f i) = none) {u : List Nat} {x : Nat} (lowU : LowPath u)
    (hu : reach m.mem pml4 u = some x) : reach (put t.mem 0 l e) pml4 u = some x := by
  rw [← hu]
  apply walk_congr
  intro r j hr h hh
  have lowR := lowU.of_prefix hr
  have nonzero := (w.inner lowR.init (length_snoc_le lowR) hh).1
  rw [put_table _ _ _ nonzero, spill.rest h nonzero, put_other]
  rintro ⟨rfl, rfl⟩
  obtain ⟨rest, rfl⟩ := hr
  rw [reach, walk_append, walk_snoc, hh, Option.bind_some, absent] at hu
  cases hu

theorem Spill.edge (spill : Spill m f i t) {h j x : Nat} (nonzero : h ≠ 0)
    (hc : pteChild (put t.mem 0 l e h j) = some x) :
    (h = f ∧ j = i) ∨ pteChild (m.mem h j) = some x := by
  rw [put_table _ _ _ nonzero, spill.rest h nonzero] at hc
  by_cases slot : h = f ∧ j = i
  · exact .inl slot
  · rw [put_other _ _ slot] at hc
    exact .inr hc

theorem Spill.only (spill : Spill m f i t) (w : Fenced G pml4 m) (low : LowPath (q ++ [i]))
    (here : reach m.mem pml4 q = some f) (child : pteChild e = some d) (guard : ∀ j, G d j)
    (empty : ∀ j, pteChild (m.mem d j) = none) {u : List Nat} {x : Nat} (lowU : LowPath u)
    (short : u.length ≤ 3) (hu : reach (put t.mem 0 l e) pml4 u = some x) :
    x = 0 ∨ x = d ∨ reach m.mem pml4 u = some x := by
  induction u using List.reverseRecOn generalizing x with
  | nil => exact .inr (.inr hu)
  | append_singleton r j ih =>
    rw [reach_snoc, Option.bind_eq_some_iff] at hu
    obtain ⟨h, hr, hc⟩ := hu
    rcases ih lowU.init (by simp at short; omega) hr with rfl | rfl | old
    · by_cases slot : j = l
      · subst slot
        rw [put_same, child] at hc
        exact .inr (.inl (Option.some.inj hc).symm)
      · rw [put_other _ _ (fun e => slot e.2)] at hc
        exact .inl (spill.frame j x hc)
    · rcases spill.edge (w.guarded h 0 (guard 0)).1 hc with ⟨rfl, -⟩ | hc
      · exact absurd (guard i) (w.slot low here)
      · rw [empty j] at hc
        cases hc
    · have nonzero := (w.inner lowU.init (length_snoc_le lowU) old).1
      rcases spill.edge nonzero hc with ⟨rfl, rfl⟩ | hc'
      · rw [put_table _ _ _ nonzero, spill.rest h nonzero, put_same,
          tableEntry_child (by decide)] at hc
        exact .inl (Option.some.inj hc).symm
      · refine .inr (.inr ?_)
        rw [reach_snoc, old, Option.bind_some, hc']

/-- The pages at the address just mapped and at addresses whose tables were all
there before: the new page or the old ones, never frame zero. -/
theorem Spill.leaf (spill : Spill m f i t) (w : Fenced G pml4 m) (low : LowPath (q ++ [i]))
    (shallow : q.length ≤ 2) (here : reach m.mem pml4 q = some f)
    (absent : pteChild (m.mem f i) = none) (child : pteChild e = some d) (guard : ∀ j, G d j)
    (empty : ∀ j, pteChild (m.mem d j) = none) {r : List Nat} {j x : Nat}
    (lowR : LowPath (r ++ [j])) (three : r.length = 3)
    (known : j = l ∨ (reach m.mem pml4 r).isSome)
    (hu : reach (put t.mem 0 l e) pml4 (r ++ [j]) = some x) :
    x = d ∨ reach m.mem pml4 (r ++ [j]) = some x := by
  rw [reach_snoc, Option.bind_eq_some_iff] at hu
  obtain ⟨h, hr, hc⟩ := hu
  rcases spill.only w low here child guard empty lowR.init (by omega) hr with rfl | rfl | old
  · rcases known with rfl | tables
    · rw [put_same, child] at hc
      exact .inl (Option.some.inj hc).symm
    · obtain ⟨y, hy⟩ := Option.isSome_iff_exists.mp tables
      have same := spill.stays (l := l) (e := e) w absent lowR.init hy
      rw [hr] at same
      cases same
      exact absurd rfl (w.inner lowR.init (by omega) hy).1
  · rcases spill.edge (w.guarded h 0 (guard 0)).1 hc with ⟨rfl, -⟩ | hc
    · exact absurd (guard i) (w.slot low here)
    · rw [empty j] at hc
      cases hc
  · have nonzero := (w.inner lowR.init (by omega) old).1
    rcases spill.edge nonzero hc with ⟨rfl, rfl⟩ | hc'
    · rw [w.tree r q h lowR.init low.init (by omega) (by omega) old here] at three
      omega
    · refine .inr ?_
      rw [reach_snoc, old, Option.bind_some, hc']

theorem Spill.kept (spill : Spill m f i t) (w : Fenced G pml4 m) (low : LowPath (q ++ [i]))
    (here : reach m.mem pml4 q = some f) {h j : Nat} (hG : G h j) :
    put t.mem 0 l e h j = m.mem h j := by
  have nonzero := (w.guarded h j hG).1
  rw [put_table _ _ _ nonzero, spill.rest h nonzero, put_other]
  rintro ⟨rfl, rfl⟩
  exact w.slot low here hG

end Spilled

/-- What mapping page `d` at `v` leaves at an address: the table of the address is
open, and its page is `d` or the one it was. -/
def Loosely (G : Nat → Nat → Prop) (pml4 d : Nat) (s t : Vm) (v : Word) : Prop :=
  (∀ x, reach t.mem pml4 (tablePath v) = some x → x = 0 ∨ x = d ∨ ∀ j, ¬ G x j) ∧
    ∀ x, reach t.mem pml4 (tablePath v ++ [ptIdx v]) = some x →
      x = d ∨ reach s.mem pml4 (tablePath v ++ [ptIdx v]) = some x

/-- `vmm_map_4k_in` of a low page. The page itself is guarded while its tables are
made. When a table cannot be allocated, every page is in use afterwards: there were not
enough for the tables. -/
theorem Fenced.mapPage (w : Fenced G pml4 s) {v flags : Word} {d : Nat} (low : pml4Idx v < 256)
    (child : pteChild (pageAddr d ||| (flags ||| ptePresent)) = some d) (guard : ∀ j, G d j)
    (empty : ∀ j, pteChild (s.mem d j) = none) (ht : t = vmmMap4kIn s pml4 v d flags) :
    (∀ h j, G h j → t.mem h j = s.mem h j) ∧ Grown s.pmm t.pmm ∧
    (∀ u, pml4Idx u < 256 → u = v ∨ (reach s.mem pml4 (tablePath u)).isSome →
      Loosely G pml4 d s t u) ∧
    ((Fenced G pml4 t ∧ (reach t.mem pml4 (tablePath v)).isSome ∧
        Built pml4 (neededTables [v]) s t ∧
        ∀ q x, LowPath q → q.length = 4 → reach t.mem pml4 q = some x →
          x = d ∨ reach s.mem pml4 q = some x) ∨
      (∀ h, Held t.pmm h) ∧ freeFrames s.pmm < (missing s.mem pml4 (neededTables [v])).card) := by
  have lowLeaf := tablePath_low low
  rw [vmmMap4kIn_eq] at ht
  subst ht
  dsimp only
  rcases w.mapTables low with ⟨step, here, built⟩ | ⟨m, q, f, i, step, lowQ, shallow, here, absent, full,
    spill, zero, short⟩
  · generalize hc : Isunux.mapTables s pml4 v = c at step here built ⊢
    obtain ⟨fenced, kept, pages⟩ := step.fenced.putLeaf
      (pageAddr d ||| (flags ||| ptePresent)) lowLeaf rfl here
    have built' : Built pml4 (neededTables [v]) s { c.1 with
        mem := put c.1.mem c.2 (ptIdx v) (pageAddr d ||| (flags ||| ptePresent)) } := by
      refine ⟨fun q lowQ few => ?_, built.pmm, built.free⟩
      dsimp only
      rw [step.fenced.put_tables _ lowLeaf.init rfl here lowQ few]
      exact built.tables q lowQ few
    have leaves : ∀ q x, LowPath q → q.length = 4 →
        reach (put c.1.mem c.2 (ptIdx v) (pageAddr d ||| (flags ||| ptePresent))) pml4 q = some x →
        x = d ∨ reach s.mem pml4 q = some x := by
      intro q x lowQ four hq
      rcases pages q x lowQ four hq with new | old
      · rw [child] at new
        exact .inl (Option.some.inj new).symm
      · exact .inr (step.leaves q x lowQ four old)
    refine ⟨fun h j hG => (kept h j hG).trans (step.kept h j hG), step.grown, fun u lowU _ => ⟨?_, ?_⟩,
      .inl ⟨fenced, ?_, built', leaves⟩⟩
    · intro x hx
      exact .inr (.inr (fenced.tables _ x (tablePath_low lowU).init (by simp [tablePath])
        (by simp [tablePath]) hx).2.2)
    · intro x hx
      exact leaves _ x (tablePath_low lowU) (by simp [tablePath]) hx
    · rw [step.fenced.put_tables _ lowLeaf.init rfl here lowLeaf.init (by simp [tablePath]), here]
      rfl
  · generalize hc : Isunux.mapTables s pml4 v = c at spill zero ⊢
    have emptyM : ∀ j, pteChild (m.mem d j) = none := by
      intro j
      rw [step.kept d j (guard j), empty j]
    rw [zero]
    refine ⟨fun h j hG => (spill.kept step.fenced lowQ here hG).trans (step.kept h j hG), ?_,
      fun u lowU known => ⟨?_, ?_⟩, .inr ⟨?_, short⟩⟩
    · rw [spill.pmm]
      exact step.grown.trans ⟨rfl, fun _ used => ⟨used, rfl⟩⟩
    · intro x hx
      rcases spill.only step.fenced lowQ here child guard emptyM (tablePath_low lowU).init
        (by simp [tablePath]) hx with h | h | old
      · exact .inl h
      · exact .inr (.inl h)
      · exact .inr (.inr (step.fenced.tables _ x (tablePath_low lowU).init (by simp [tablePath])
          (by simp [tablePath]) old).2.2)
    · intro x hx
      have known' : ptIdx u = ptIdx v ∨ (reach m.mem pml4 (tablePath u)).isSome := by
        rcases known with rfl | tables
        · exact .inl rfl
        · obtain ⟨y, hy⟩ := Option.isSome_iff_exists.mp tables
          exact .inr (by
            rw [step.stays _ y (tablePath_low lowU).init (by simp [tablePath]) hy]; rfl)
      rcases spill.leaf step.fenced lowQ shallow here absent child guard emptyM (tablePath_low lowU)
        rfl known' hx with h | old
      · exact .inl h
      · exact .inr (step.leaves _ x (tablePath_low lowU) (by simp [tablePath]) old)
    · rw [spill.pmm]
      exact full

end Fence

end Isunux
