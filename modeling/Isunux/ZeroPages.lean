import Isunux.Budget
import Isunux.Loading

/-! The loops of `process_brk` and `process_mmap`: zeroed pages mapped one by one,
wherever the break or the arena pointer happens to be. The allocator may have pages that
no entry leads to any more, so the ledger of the tables is only a part of its own. -/
namespace Isunux

open Radix

section Tables

variable {K : Type*} {roots : K → Option Nat} {scope : Nat → Prop} {s t u : Vm}
  {L M N N' : Finset (Ref K × Nat)} {k : K} {path : List Nat}

/-- What making the tables along a path has added: a page each for tables that were not
there. -/
structure Tabled (roots : K → Option Nat) (k : K) (path : List Nat) (N : Finset (Ref K × Nat)) (s t : Vm) :
    Prop where
  refs : ∀ e ∈ N, e.1.1 = k ∧ e.1.2 <+: path ∧ e.1.2 ≠ []
  absent : ∀ e ∈ N, at_ roots s.mem k e.1.2 = none
  made : ∀ e ∈ N, at_ roots t.mem k e.1.2 = some e.2
  clear : ∀ e ∈ N, s.pmm.bitmap e.2 = false ∧ t.pmm.bitmap e.2 = true
  stays : ∀ k' q f, LowPath q → q.length ≤ 3 → at_ roots s.mem k' q = some f → at_ roots t.mem k' q = some f
  others : ∀ k' q f, LowPath q → q.length ≤ 3 → at_ roots t.mem k' q = some f →
    at_ roots s.mem k' q = some f ∨ ((k', q), f) ∈ N
  free : freeFrames t.pmm + N.card = freeFrames s.pmm
  grown : Grown s.pmm t.pmm
  taken : ∀ f, t.pmm.bitmap f = true → s.pmm.bitmap f = true ∨ ∃ r, (r, f) ∈ N

theorem Tabled.refl (s : Vm) : Tabled roots k path ∅ s s :=
  ⟨fun _ h => absurd h (Finset.notMem_empty _), fun _ h => absurd h (Finset.notMem_empty _),
    fun _ h => absurd h (Finset.notMem_empty _), fun _ h => absurd h (Finset.notMem_empty _), fun _ _ _ _ _ here => here, fun _ _ _ _ _ here => .inl here, rfl, .refl _, fun _ used => .inl used⟩

variable [DecidableEq K]

theorem Owned.table (o : Owned scope roots s.mem s.pmm L M) {q : List Nat} {i f : Nat}
    (low : LowPath (q ++ [i])) (short : q.length ≤ 2) (here : at_ roots s.mem k q = some f)
    (onPath : q ++ [i] <+: path) (fine : (getOrCreateTable s f i).1.pmm.exhausted = false) :
    ∃ N, Owned scope roots (getOrCreateTable s f i).1.mem (getOrCreateTable s f i).1.pmm (N ∪ L) (N ∪ M) ∧
      Tabled roots k path N s (getOrCreateTable s f i).1 ∧
      at_ roots (getOrCreateTable s f i).1.mem k (q ++ [i]) = some (getOrCreateTable s f i).2 ∧
      (∀ k' q' l', LowPath (q' ++ [l']) → q'.length = 3 →
        leafWord roots (getOrCreateTable s f i).1.mem k' q' l' = leafWord roots s.mem k' q' l') ∧
      Spared scope M s.mem (getOrCreateTable s f i).1.mem := by
  obtain ⟨N, o', -, made, words, spared⟩ := o.ensure low short here fine
  by_cases present : hasBits (s.mem f i) ptePresent = true
  · have same : getOrCreateTable s f i = (s, pteFrame (s.mem f i)) := by rw [getOrCreateTable, if_pos present]
    rw [same] at made ⊢
    exact ⟨∅, by rwa [Finset.empty_union, Finset.empty_union], .refl s, made, fun _ _ _ _ _ => rfl, .refl _⟩
  · have absent : hasBits (s.mem f i) ptePresent = false := by simpa using present
    have gone : at_ roots s.mem k (q ++ [i]) = none := by
      rw [at_snoc, here, Option.bind_some, pteChild, if_neg present]
    unfold getOrCreateTable at fine made words spared ⊢
    rw [if_neg present] at fine made words spared ⊢
    obtain ⟨bound, -, -, clear, after⟩ := pmmAllocPage_spec s.pmm fine
    obtain ⟨o'', -⟩ := o.newTable low short here absent fine
    refine ⟨{((k, q ++ [i]), (pmmAllocPage s.pmm).2)}, ?_, ?_, made, words, spared⟩
    · rw [← Finset.insert_eq, ← Finset.insert_eq]
      exact o''
    · refine ⟨fun e he => ?_, fun e he => ?_, fun e he => ?_, fun e he => ?_, fun k' q' g low' _ there => ?_,
        fun k' q' g low' _ there => ?_, ?_, pmmAllocPage_grown s.pmm, fun g used => ?_⟩
      · rw [Finset.mem_singleton.mp he]
        exact ⟨rfl, onPath, by simp⟩
      · rw [Finset.mem_singleton.mp he]
        exact gone
      · rw [Finset.mem_singleton.mp he]
        exact made
      · rw [Finset.mem_singleton.mp he]
        dsimp only
        rw [after]
        exact ⟨clear, by simp [Pmm.take]⟩
      · have old := (o.forest.nodes k' q' g).mpr ⟨low', there⟩
        exact ((o''.forest.nodes k' q' g).mp (Finset.mem_insert_of_mem old)).2
      · rcases Finset.mem_insert.mp ((o''.forest.nodes k' q' g).mpr ⟨low', there⟩) with new | old
        · rw [new]
          exact .inr (Finset.mem_singleton_self _)
        · exact .inl ((o.forest.nodes k' q' g).mp old).2
      · rw [Finset.card_singleton]
        dsimp only
        rw [after]
        exact freeFrames_take s.pmm bound clear
      · by_cases mine : g = (pmmAllocPage s.pmm).2
        · subst mine
          exact .inr ⟨_, Finset.mem_singleton_self _⟩
        · refine .inl ?_
          dsimp only at used
          rw [after] at used
          simpa [Pmm.take, mine] using used

theorem Tabled.trans (h : Tabled roots k path N s t) (h' : Tabled roots k path N' t u) (low : LowPath path)
    (short : path.length ≤ 3) : Tabled roots k path (N' ∪ N) s u := by
  have apart : Disjoint N' N := by
    rw [Finset.disjoint_left]
    intro e new old
    have used := (h.clear e old).2
    rw [(h'.clear e new).1] at used
    cases used
  refine ⟨fun e he => ?_, fun e he => ?_, fun e he => ?_, fun e he => ?_, fun k' q f lowQ few here => ?_,
    fun k' q f lowQ few here => ?_, ?_, h.grown.trans h'.grown, fun f used => ?_⟩
  · rcases Finset.mem_union.mp he with new | old
    · exact h'.refs e new
    · exact h.refs e old
  · rcases Finset.mem_union.mp he with new | old
    · cases here : at_ roots s.mem k e.1.2 with
      | none => rfl
      | some f =>
        have onPath := (h'.refs e new).2.1
        have there := h.stays k _ f (low.of_prefix onPath) (onPath.length_le.trans short) here
        rw [h'.absent e new] at there
        cases there
    · exact h.absent e old
  · rcases Finset.mem_union.mp he with new | old
    · exact h'.made e new
    · have onPath := (h.refs e old).2.1
      exact h'.stays k _ _ (low.of_prefix onPath) (onPath.length_le.trans short) (h.made e old)
  · rcases Finset.mem_union.mp he with new | old
    · refine ⟨?_, (h'.clear e new).2⟩
      by_contra used
      have still := (h.grown.used e.2 (eq_true_of_ne_false used)).1
      rw [(h'.clear e new).1] at still
      cases still
    · exact ⟨(h.clear e old).1, (h'.grown.used e.2 (h.clear e old).2).1⟩
  · exact h'.stays k' q f lowQ few (h.stays k' q f lowQ few here)
  · rcases h'.others k' q f lowQ few here with before | new
    · exact (h.others k' q f lowQ few before).imp_right (Finset.mem_union_right _)
    · exact .inr (Finset.mem_union_left _ new)
  · rw [Finset.card_union_of_disjoint apart, ← h.free, ← h'.free, Nat.add_assoc]
  · rcases h'.taken f used with before | ⟨r, new⟩
    · rcases h.taken f before with first | ⟨r, old⟩
      · exact .inl first
      · exact .inr ⟨r, Finset.mem_union_right _ old⟩
    · exact .inr ⟨r, Finset.mem_union_left _ new⟩

/-- `vmm_map_4k_in` of a page that the allocator accounts for, at any address of the low
half: the entry there is the new page's, whatever it was before. -/
theorem Owned.mapLeaf (o : Owned scope roots s.mem s.pmm L M) {v : Word} {pml4 g : Nat} {flags : Word} {kind : Kind}
    (own : ((k, tablePath v ++ [ptIdx v]), g) ∈ M) (low : pml4Idx v < 256) (root : roots k = some pml4)
    (format : flags ||| ptePresent = kind.flags)
    (fine : (vmmMap4kIn s pml4 v g flags).pmm.exhausted = false) :
    ∃ N L', Owned scope roots (vmmMap4kIn s pml4 v g flags).mem (vmmMap4kIn s pml4 v g flags).pmm L' (N ∪ M) ∧
      Tabled roots k (tablePath v) N s (vmmMap4kIn s pml4 v g flags) ∧
      leafWord roots (vmmMap4kIn s pml4 v g flags).mem k (tablePath v) (ptIdx v) = some (leafEntry g kind) ∧
      (∀ k' q l, LowPath (q ++ [l]) → q.length = 3 → ¬ SlotOf k v k' q l →
        leafWord roots (vmmMap4kIn s pml4 v g flags).mem k' q l = leafWord roots s.mem k' q l) ∧
      Spared scope M s.mem (vmmMap4kIn s pml4 v g flags).mem := by
  have lowLeaf := tablePath_low low
  have lowTable : LowPath (tablePath v) := lowLeaf.init
  unfold vmmMap4kIn at fine ⊢
  dsimp only at fine ⊢
  set a := getOrCreateTable s pml4 (pml4Idx v) with ha
  set b := getOrCreateTable a.1 a.2 (pdptIdx v) with hb
  set c := getOrCreateTable b.1 b.2 (pdIdx v) with hc
  have fineB : b.1.pmm.exhausted = false := getOrCreateTable_fine fine
  have fineA : a.1.pmm.exhausted = false := getOrCreateTable_fine fineB
  have here₀ : at_ roots s.mem k [] = some pml4 := by rw [at_, node_root]; exact root
  have onPath₁ : [] ++ [pml4Idx v] <+: tablePath v := ⟨_, rfl⟩
  have onPath₂ : [pml4Idx v] ++ [pdptIdx v] <+: tablePath v := ⟨_, rfl⟩
  have onPath₃ : [pml4Idx v, pdptIdx v] ++ [pdIdx v] <+: tablePath v := List.prefix_rfl
  obtain ⟨N₁, o₁, tab₁, here₁, words₁, sp₁⟩ :=
    o.table (q := []) (i := pml4Idx v) (lowTable.of_prefix ⟨_, rfl⟩) (Nat.zero_le 2) here₀ onPath₁ fineA
  obtain ⟨N₂, o₂, tab₂, here₂, words₂, sp₂⟩ :=
    o₁.table (q := [pml4Idx v]) (i := pdptIdx v) (lowTable.of_prefix ⟨_, rfl⟩) (Nat.le_succ 1) here₁ onPath₂ fineB
  obtain ⟨N₃, o₃, tab₃, here₃, words₃, sp₃⟩ :=
    o₂.table (q := [pml4Idx v, pdptIdx v]) (i := pdIdx v) lowTable le_rfl here₂ onPath₃ fine
  rw [← ha] at o₁ tab₁ here₁ words₁ sp₁
  rw [← hb] at o₂ tab₂ here₂ words₂ sp₂
  rw [← hc] at o₃ tab₃ here₃ words₃ sp₃
  have tab := (tab₁.trans tab₂ lowTable le_rfl).trans tab₃ lowTable le_rfl
  have small : g < 2 ^ 52 := o.accounts.small own
  -- the entry that was there gives way to the new one
  set Lc := N₃ ∪ (N₂ ∪ (N₁ ∪ L)) with hLc
  set L' := insert ((k, tablePath v ++ [ptIdx v]), g)
    (Lc.filter fun e => ¬ (e.1.1 = k ∧ e.1.2 = tablePath v ++ [ptIdx v])) with hL'
  obtain ⟨forest, nodes, written, words⟩ := o₃.putLeaf lowLeaf rfl here₃ (leafEntry g kind)
    (.inr ⟨g, kind, small, rfl⟩) L' (by
      intro k' q' h
      rw [leafEntry_child small, hL', Finset.mem_insert, Finset.mem_filter]
      by_cases slot : k' = k ∧ q' = tablePath v ++ [ptIdx v]
      · obtain ⟨rfl, rfl⟩ := slot
        simp [eq_comm]
      · simp only [Prod.mk.injEq, slot, false_and, false_or, not_false_eq_true, and_true, true_and]
        constructor
        · exact fun h => .inr h
        · rintro (⟨rfl, rfl, -⟩ | h)
          · exact absurd ⟨rfl, rfl⟩ slot
          · exact h)
  have sum : N₃ ∪ (N₂ ∪ (N₁ ∪ M)) = N₃ ∪ (N₂ ∪ N₁) ∪ M := by
    rw [Finset.union_assoc, Finset.union_assoc]
  have word : pageAddr g ||| (flags ||| ptePresent) = leafEntry g kind := by rw [format, leafEntry]
  rw [word]
  have spLast := o₃.spared_put (s := c.1) lowTable (Nat.le_refl 3) here₃ (ptIdx v) (leafEntry g kind)
  refine ⟨N₃ ∪ (N₂ ∪ N₁), L', ⟨forest, by rw [← sum]; exact o₃.accounts, fun e he => ?_⟩, ?_,
    by rw [written]; simp, fun k' q l lowQ len other => ?_,
    sp₁.trans Finset.subset_union_right (sp₂.trans Finset.subset_union_right
      (sp₃.trans Finset.subset_union_right spLast))⟩
  · rw [← sum]
    rcases Finset.mem_insert.mp he with rfl | old
    · exact Finset.mem_union_right _ (Finset.mem_union_right _ (Finset.mem_union_right _ own))
    · exact o₃.sub (Finset.mem_filter.mp old).1
  · refine ⟨tab.refs, tab.absent, fun e he => ?_, tab.clear, fun k' q f lowQ few there => ?_,
      fun k' q f lowQ few there => ?_, tab.free, tab.grown, tab.taken⟩
    · have onPath := (tab.refs e he).2.1
      exact (nodes k _ (lowTable.of_prefix onPath) onPath.length_le).trans (tab.made e he)
    · exact (nodes k' q lowQ few).trans (tab.stays k' q f lowQ few there)
    · exact tab.others k' q f lowQ few ((nodes k' q lowQ few).symm.trans there)
  · rw [words k' q l lowQ len other, words₃ k' q l lowQ len, words₂ k' q l lowQ len, words₁ k' q l lowQ len]

omit [DecidableEq K] in
theorem Tabled.tables {v : Word} (h : Tabled roots k (tablePath v) N s t)
    (mapped : (at_ roots t.mem k (tablePath v)).isSome = true) {q : List Nat} (lowQ : LowPath q)
    (few : q.length ≤ 3) :
    at_ roots t.mem k q = none ↔ at_ roots s.mem k q = none ∧ q ∉ neededTables [v] := by
  rw [mem_neededTables]
  constructor
  · intro gone
    constructor
    · cases here : at_ roots s.mem k q with
      | none => rfl
      | some f =>
        rw [h.stays k q f lowQ few here] at gone
        cases gone
    · rintro ⟨⟨rest, whole⟩, -⟩
      obtain ⟨f, there⟩ := Option.isSome_iff_exists.mp mapped
      rw [← whole] at there
      obtain ⟨g, here⟩ := node_prefix pteChild roots there
      rw [at_, here] at gone
      cases gone
  · rintro ⟨absent, other⟩
    cases here : at_ roots t.mem k q with
    | none => rfl
    | some f =>
      rcases h.others k q f lowQ few here with old | new
      · rw [absent] at old
        cases old
      · exact absurd (h.refs _ new).2 other

omit [DecidableEq K] in
theorem Tabled.card {v : Word} {pml4 : Nat} (h : Tabled roots k (tablePath v) N s t) (root : roots k = some pml4)
    (low : LowPath (tablePath v)) (mapped : (at_ roots t.mem k (tablePath v)).isSome = true) :
    N.card = (missing s.mem pml4 (neededTables [v])).card := by
  refine Finset.card_bij (fun e _ => e.1.2) (fun e he => ?_) (fun e he e' he' same => ?_) fun q hq => ?_
  · rw [missing, Finset.mem_filter, mem_neededTables, ← at_reach root]
    exact ⟨(h.refs e he).2, h.absent e he⟩
  · have frame := h.made e he
    rw [same, h.made e' he'] at frame
    refine Prod.ext (Prod.ext ?_ same) (Option.some.inj frame).symm
    exact (h.refs e he).1.trans (h.refs e' he').1.symm
  · rw [missing, Finset.mem_filter, ← at_reach root] at hq
    obtain ⟨needed, absent⟩ := hq
    have onPath := (mem_neededTables.mp needed).1
    have lowQ := low.of_prefix onPath
    have few : q.length ≤ 3 := onPath.length_le
    cases here : at_ roots t.mem k q with
    | none => exact absurd needed ((h.tables mapped lowQ few).mp here).2
    | some f =>
      rcases h.others k q f lowQ few here with old | new
      · rw [absent] at old
        cases old
      · exact ⟨_, new, rfl⟩

end Tables

section Enough

variable {s : Vm} {f pml4 : Nat} {is : List Nat}

/-- No allocation fails as long as there is a page for each table that is not there. -/
theorem tablesAlong_fine (zero : Held s.pmm 0) (enough : absentAlong s.mem f is ≤ freeFrames s.pmm)
    (fine : s.pmm.exhausted = false) : (tablesAlong s f is).1.pmm.exhausted = false := by
  induction is generalizing s f with
  | nil => exact fine
  | cons i is ih =>
    unfold tablesAlong
    unfold absentAlong at enough
    cases here : pteChild (s.mem f i) with
    | some g =>
      rw [here] at enough
      rw [getOrCreateTable_present here]
      exact ih zero enough fine
    | none =>
      rw [here] at enough
      dsimp only at enough
      have spent := getOrCreateTable_spends s f i
      have less := spent.free zero
      exact ih (spent.zero zero) ((absentAlong_le _ _ is).trans (by omega)) (spent.fine zero (by omega) fine)

theorem absentAlong_tablePath (mem : PhysMem) (pml4 : Nat) (v : Word) :
    absentAlong mem pml4 (tablePath v) = (missing mem pml4 (neededTables [v])).card := by
  have three : neededTables [v] = {[pml4Idx v], [pml4Idx v, pdptIdx v], [pml4Idx v, pdptIdx v, pdIdx v]} := by
    ext q
    simp [neededTables, tablePath]
  rw [missing, three, tablePath, Finset.filter_insert, Finset.filter_insert, Finset.filter_singleton]
  cases first : pteChild (mem pml4 (pml4Idx v)) with
  | none => simp [absentAlong, reach, walk, first]
  | some pdpt =>
    cases second : pteChild (mem pdpt (pdptIdx v)) with
    | none => simp [absentAlong, reach, walk, first, second]
    | some pd =>
      cases third : pteChild (mem pd (pdIdx v)) with
      | none => simp [absentAlong, reach, walk, first, second, third]
      | some pt => simp [absentAlong, reach, walk, first, second, third]

end Enough

section Zeroed

variable {K : Type*} {roots : K → Option Nat} {scope : Nat → Prop} {s t u : Vm} {L M M' M'' : Finset (Ref K × Nat)}
  {k : K} {pml4 : Nat} {flags : Word} {kind : Kind} {pages pages' : List (Word × Nat)}

/-- Pages are mapped, zeroed, each in a frame that was free. -/
structure Zeroed (scope : Nat → Prop) (roots : K → Option Nat) (k : K) (pml4 : Nat) (kind : Kind)
    (M M' : Finset (Ref K × Nat)) (pages : List (Word × Nat)) (s t : Vm) : Prop where
  owned : ∃ L, Owned scope roots t.mem t.pmm L M'
  sub : M ⊆ M'
  leaves : ∀ x ∈ pages, leafWord roots t.mem k (tablePath x.1) (ptIdx x.1) = some (leafEntry x.2 kind)
  own : ∀ x ∈ pages, ((k, tablePath x.1 ++ [ptIdx x.1]), x.2) ∈ M'
  fresh : ∀ x ∈ pages, s.pmm.bitmap x.2 = false
  sole : ∀ x ∈ pages, t.pmm.bitmap x.2 = true ∧ t.pmm.refcount x.2 = 1
  apart : (pages.map Prod.snd).Nodup
  blank : ∀ x ∈ pages, t.mem x.2 = fun _ => 0#64
  rest : ∀ k' q l, LowPath (q ++ [l]) → q.length = 3 → (∀ x ∈ pages, ¬ SlotOf k x.1 k' q l) →
    leafWord roots t.mem k' q l = leafWord roots s.mem k' q l
  data : ∀ k' q h, ((k', q), h) ∈ M → q.length = 4 → t.mem h = s.mem h
  tables : ∀ q, LowPath q → q.length ≤ 3 →
    (at_ roots t.mem k q = none ↔ at_ roots s.mem k q = none ∧ q ∉ neededTables (pages.map Prod.fst))
  stays : ∀ k' q f, LowPath q → q.length ≤ 3 → at_ roots s.mem k' q = some f → at_ roots t.mem k' q = some f
  taken : ∀ f, t.pmm.bitmap f = true → s.pmm.bitmap f = true ∨ (∃ x ∈ pages, f = x.2) ∨
    ∃ q ∈ neededTables (pages.map Prod.fst), at_ roots s.mem k q = none ∧ at_ roots t.mem k q = some f
  grown : Grown s.pmm t.pmm
  free : freeFrames t.pmm + pagesNeeded s.mem pml4 (pages.map Prod.fst) = freeFrames s.pmm
  zero : Held t.pmm 0
  fine : t.pmm.exhausted = false

theorem Zeroed.start (o : Owned scope roots s.mem s.pmm L M) (zero : Held s.pmm 0)
    (fine : s.pmm.exhausted = false) : Zeroed scope roots k pml4 kind M M [] s s := by
  have none : ∀ x : Word × Nat, x ∉ [] := fun _ => List.not_mem_nil
  have empty : neededTables [] = ∅ := rfl
  exact
    { owned := ⟨L, o⟩
      sub := subset_rfl
      leaves := fun x mem => absurd mem (none x)
      own := fun x mem => absurd mem (none x)
      fresh := fun x mem => absurd mem (none x)
      sole := fun x mem => absurd mem (none x)
      apart := List.nodup_nil
      blank := fun x mem => absurd mem (none x)
      rest := fun _ _ _ _ _ _ => rfl
      data := fun _ _ _ _ _ => rfl
      tables := fun q _ _ => by simp [empty]
      stays := fun _ _ _ _ _ here => here
      taken := fun _ used => .inl used
      grown := .refl _
      free := by simp [pagesNeeded, empty, missing]
      zero := zero
      fine := fine }

theorem Zeroed.missing (h : Zeroed scope roots k pml4 kind M M' pages s t) (root : roots k = some pml4)
    {vs : List Word} (low : ∀ v ∈ vs, pml4Idx v < 256) :
    missing t.mem pml4 (neededTables vs) =
      Isunux.missing s.mem pml4 (neededTables vs) \ neededTables (pages.map Prod.fst) := by
  ext q
  rw [Isunux.missing, Isunux.missing, Finset.mem_sdiff, Finset.mem_filter, Finset.mem_filter, and_assoc]
  refine and_congr_right fun new => ?_
  have lowQ := mem_neededTables_low low new
  rw [← at_reach root, ← at_reach root]
  exact h.tables q lowQ.1 lowQ.2

theorem Zeroed.trans (h : Zeroed scope roots k pml4 kind M M' pages s t)
    (h' : Zeroed scope roots k pml4 kind M' M'' pages' t u) (root : roots k = some pml4)
    (low : ∀ x ∈ pages, pml4Idx x.1 < 256) (low' : ∀ x ∈ pages', pml4Idx x.1 < 256)
    (slots : ∀ x ∈ pages, ∀ y ∈ pages', ¬ SlotOf k y.1 k (tablePath x.1) (ptIdx x.1)) :
    Zeroed scope roots k pml4 kind M M'' (pages ++ pages') s u := by
  have both : ∀ {P : Word × Nat → Prop}, (∀ x ∈ pages, P x) → (∀ x ∈ pages', P x) → ∀ x ∈ pages ++ pages', P x :=
    fun first second x mem => (List.mem_append.mp mem).elim (first x) (second x)
  have needed : neededTables ((pages ++ pages').map Prod.fst) =
      neededTables (pages.map Prod.fst) ∪ neededTables (pages'.map Prod.fst) := by
    rw [List.map_append, neededTables_append]
  have clear : ∀ f, t.pmm.bitmap f = false → s.pmm.bitmap f = false := by
    intro f unused
    by_contra used
    rw [(h.grown.used f (eq_true_of_ne_false used)).1] at unused
    cases unused
  have lowAll : ∀ v ∈ (pages ++ pages').map Prod.fst, pml4Idx v < 256 := by
    intro v mem
    obtain ⟨x, hx, rfl⟩ := List.mem_map.mp mem
    exact both low low' x hx
  refine
    { owned := h'.owned
      sub := h.sub.trans h'.sub
      leaves := both (fun x mem => ?_) h'.leaves
      own := both (fun x mem => h'.sub (h.own x mem)) h'.own
      fresh := both h.fresh fun x mem => clear _ (h'.fresh x mem)
      sole := both (fun x mem => ?_) h'.sole
      apart := ?_
      blank := both (fun x mem => ?_) h'.blank
      rest := fun k' q l lowQ len out => ?_
      data := fun k' q f mem len => (h'.data k' q f (h.sub mem) len).trans (h.data k' q f mem len)
      tables := fun q lowQ few => ?_
      stays := fun k' q f lowQ few here => h'.stays k' q f lowQ few (h.stays k' q f lowQ few here)
      taken := fun f used => ?_
      grown := h.grown.trans h'.grown
      free := ?_
      zero := h'.zero
      fine := h'.fine }
  · rw [h'.rest k _ _ (tablePath_low (low x mem)) rfl fun y there => slots x mem y there]
    exact h.leaves x mem
  · obtain ⟨used, one⟩ := h.sole x mem
    obtain ⟨used', same⟩ := h'.grown.used _ used
    exact ⟨used', same.trans one⟩
  · rw [List.map_append, List.nodup_append]
    refine ⟨h.apart, h'.apart, fun f first g second => ?_⟩
    rintro rfl
    obtain ⟨x, hx, rfl⟩ := List.mem_map.mp first
    obtain ⟨y, hy, same⟩ := List.mem_map.mp second
    have used := (h.sole x hx).1
    rw [← same, h'.fresh y hy] at used
    cases used
  · exact (h'.data k _ _ (h.own x mem) rfl).trans (h.blank x mem)
  · rw [h'.rest k' q l lowQ len fun x mem => out x (List.mem_append_right _ mem),
      h.rest k' q l lowQ len fun x mem => out x (List.mem_append_left _ mem)]
  · rw [h'.tables q lowQ few, h.tables q lowQ few, needed, Finset.mem_union]
    tauto
  · rw [needed]
    rcases h'.taken f used with before | ⟨x, mem, rfl⟩ | ⟨q, new, absent, made⟩
    · rcases h.taken f before with old | ⟨x, mem, rfl⟩ | ⟨q, new, absent, made⟩
      · exact .inl old
      · exact .inr (.inl ⟨x, List.mem_append_left _ mem, rfl⟩)
      · have lowQ := mem_neededTables_low (fun v hv => lowAll v (by
          rw [List.map_append]; exact List.mem_append_left _ hv)) new
        exact .inr (.inr ⟨q, Finset.mem_union_left _ new, absent, h'.stays k q f lowQ.1 lowQ.2 made⟩)
    · exact .inr (.inl ⟨x, List.mem_append_right _ mem, rfl⟩)
    · have lowQ := mem_neededTables_low (fun v hv => lowAll v (by
        rw [List.map_append]; exact List.mem_append_right _ hv)) new
      exact .inr (.inr ⟨q, Finset.mem_union_right _ new, ((h.tables q lowQ.1 lowQ.2).mp absent).1, made⟩)
  · have latter : ∀ v ∈ pages'.map Prod.fst, pml4Idx v < 256 := fun v hv => lowAll v (by
      rw [List.map_append]; exact List.mem_append_right _ hv)
    have left := h.missing root latter
    have first := h.free
    have second := h'.free
    rw [pagesNeeded, left] at second
    rw [List.map_append, pagesNeeded_append]
    omega

variable [DecidableEq K]

/-- What a successful `pmm_alloc_page` does to the allocator. -/
structure TakenPage (p q : Pmm) (g : Nat) : Prop where
  clear : p.bitmap g = false
  sole : q.bitmap g = true ∧ q.refcount g = 1
  free : freeFrames q + 1 = freeFrames p
  taken : ∀ f, q.bitmap f = true → p.bitmap f = true ∨ f = g
  grown : Grown p q

omit [DecidableEq K] in
theorem pmmAllocPage_taken {p : Pmm} (fine : (pmmAllocPage p).1.exhausted = false) :
    TakenPage p (pmmAllocPage p).1 (pmmAllocPage p).2 := by
  obtain ⟨bound, -, -, clear, after⟩ := pmmAllocPage_spec p fine
  refine ⟨clear, ?_, ?_, fun f used => ?_, pmmAllocPage_grown p⟩
  · rw [after]
    simp [Pmm.take]
  · rw [after]
    exact freeFrames_take p bound clear
  · by_cases mine : f = (pmmAllocPage p).2
    · exact .inr mine
    · rw [after] at used
      exact .inl (by simpa [Pmm.take, mine] using used)

theorem Owned.takePage (o : Owned scope roots s.mem s.pmm L M) (r : Ref K)
    (fine : (pmmAllocPage s.pmm).1.exhausted = false) :
    let g := (pmmAllocPage s.pmm).2
    Owned scope roots (zeroFrame s.mem g) (pmmAllocPage s.pmm).1 L (insert (r, g) M) ∧
      (∀ k q, LowPath q → at_ roots (zeroFrame s.mem g) k q = at_ roots s.mem k q) ∧
      (∀ k q l, LowPath (q ++ [l]) → leafWord roots (zeroFrame s.mem g) k q l = leafWord roots s.mem k q l) ∧
      ∀ r' f, (r', f) ∈ M → f ≠ g := by
  intro g
  obtain ⟨accounts, -, clear⟩ := o.accounts.alloc r fine
  obtain ⟨forest, nodes, words⟩ := o.forest.frame (zeroFrame s.mem g) fun k' q f lowQ _ here => by
    have other : f ≠ g := by
      rintro rfl
      exact o.not_at_of_free clear lowQ here
    rw [zeroFrame, Function.update_of_ne other]
  refine ⟨⟨forest, accounts, o.sub.trans (Finset.subset_insert _ _)⟩, nodes, words, fun r' f mem => ?_⟩
  rintro rfl
  exact o.accounts.balanced.not_mem_of_unused clear _ mem

theorem TakenPage.mapped {p : Pmm} {g : Nat} {v : Word} (page : TakenPage s.pmm p g)
    (o : Owned scope roots (zeroFrame s.mem g) p L (insert ((k, tablePath v ++ [ptIdx v]), g) M))
    (nodes : ∀ k q, LowPath q → at_ roots (zeroFrame s.mem g) k q = at_ roots s.mem k q)
    (words : ∀ k q l, LowPath (q ++ [l]) → leafWord roots (zeroFrame s.mem g) k q l = leafWord roots s.mem k q l)
    (others : ∀ r f, (r, f) ∈ M → f ≠ g) (low : pml4Idx v < 256) (root : roots k = some pml4)
    (format : flags ||| ptePresent = kind.flags) (zero : Held p 0)
    (same : missing (zeroFrame s.mem g) pml4 (neededTables [v]) = missing s.mem pml4 (neededTables [v]))
    (fine : (vmmMap4kIn { s with pmm := p, mem := zeroFrame s.mem g } pml4 v g flags).pmm.exhausted = false) :
    ∃ M', Zeroed scope roots k pml4 kind M M' [(v, g)] s
      (vmmMap4kIn { s with pmm := p, mem := zeroFrame s.mem g } pml4 v g flags) := by
  have lowLeaf := tablePath_low low
  obtain ⟨N, L', owned, tabled, leaf, rest, spared⟩ := o.mapLeaf (s := { s with pmm := p, mem := zeroFrame s.mem g })
    (Finset.mem_insert_self _ _) low root format fine
  generalize vmmMap4kIn { s with pmm := p, mem := zeroFrame s.mem g } pml4 v g flags = t at *
  have mapped : (at_ roots t.mem k (tablePath v)).isSome = true := by
    obtain ⟨f, there, -⟩ := leafWord_some.mp leaf
    rw [there]
    rfl
  have card : N.card = (missing s.mem pml4 (neededTables [v])).card := by
    rw [← same]
    exact tabled.card root lowLeaf.init mapped
  have one : ∀ {P : Word × Nat → Prop}, P (v, g) → ∀ x ∈ [(v, g)], P x := by
    intro P here x mem
    rw [List.mem_singleton.mp mem]
    exact here
  have needed : neededTables ([(v, g)].map Prod.fst) = neededTables [v] := rfl
  refine ⟨N ∪ insert ((k, tablePath v ++ [ptIdx v]), g) M,
    { owned := ⟨L', owned⟩
      sub := (Finset.subset_insert _ _).trans Finset.subset_union_right
      leaves := one leaf
      own := one (Finset.mem_union_right _ (Finset.mem_insert_self _ _))
      fresh := one page.clear
      sole := one ?_
      apart := List.nodup_singleton g
      blank := one ?_
      rest := fun k' q l lowQ len out => ?_
      data := fun k' q f mem len => ?_
      tables := fun q lowQ few => ?_
      stays := fun k' q f lowQ few here => ?_
      taken := fun f used => ?_
      grown := page.grown.trans tabled.grown
      free := ?_
      zero := tabled.grown.held zero
      fine := fine }⟩
  · obtain ⟨used, count⟩ := tabled.grown.used g page.sole.1
    exact ⟨used, count.trans page.sole.2⟩
  · have kept := spared.pages k (tablePath v ++ [ptIdx v]) g (Finset.mem_insert_self _ _) rfl
    exact kept.trans (Function.update_self _ _ _)
  · exact (rest k' q l lowQ len (out (v, g) (List.mem_singleton_self _))).trans (words k' q l lowQ)
  · have kept := spared.pages k' q f (Finset.mem_insert_of_mem mem) len
    exact kept.trans (Function.update_of_ne (others _ f mem) _ _)
  · rw [needed, tabled.tables mapped lowQ few]
    exact and_congr_left fun _ => by rw [nodes k q lowQ]
  · exact tabled.stays k' q f lowQ few ((nodes k' q lowQ).trans here)
  · rcases tabled.taken f used with before | ⟨⟨k', q⟩, new⟩
    · exact (page.taken f before).imp_right fun mine => .inl ⟨(v, g), List.mem_singleton_self _, mine⟩
    · obtain ⟨rfl, onPath, some⟩ := tabled.refs _ new
      have absent := (nodes _ q (lowLeaf.init.of_prefix onPath)).symm.trans (tabled.absent _ new)
      exact .inr (.inr ⟨q, mem_neededTables.mpr ⟨onPath, some⟩, absent, tabled.made _ new⟩)
  · have free : freeFrames t.pmm + N.card = freeFrames p := tabled.free
    have before := page.free
    rw [card] at free
    have count : pagesNeeded s.mem pml4 ([(v, g)].map Prod.fst) = 1 + (missing s.mem pml4 (neededTables [v])).card :=
      rfl
    rw [count]
    omega

omit [DecidableEq K] in
theorem missing_zeroed {g : Nat} {v : Word} (root : roots k = some pml4) (low : pml4Idx v < 256)
    (nodes : ∀ k q, LowPath q → at_ roots (zeroFrame s.mem g) k q = at_ roots s.mem k q) :
    missing (zeroFrame s.mem g) pml4 (neededTables [v]) = missing s.mem pml4 (neededTables [v]) := by
  ext q
  rw [missing, missing, Finset.mem_filter, Finset.mem_filter]
  refine and_congr_right fun new => ?_
  have lowQ : LowPath q := (tablePath_low low).init.of_prefix (mem_neededTables.mp new).1
  rw [← at_reach root, ← at_reach root, nodes k q lowQ]

omit [DecidableEq K] in
theorem vmmMap4kIn_fine {v : Word} {g : Nat} (h : (vmmMap4kIn s pml4 v g flags).pmm.exhausted = false) :
    s.pmm.exhausted = false := by
  by_contra flagged
  rw [vmmMap4kIn_exhausted (eq_true_of_ne_false flagged)] at h
  cases h

theorem Owned.mapZeroPage_fine (o : Owned scope roots s.mem s.pmm L M) {v : Word} (low : pml4Idx v < 256)
    (root : roots k = some pml4) (format : flags ||| ptePresent = kind.flags) (zero : Held s.pmm 0)
    (ok : (pmmAllocPage s.pmm).2 ≠ 0) (fine : (Isunux.mapZeroPage s pml4 v flags).1.pmm.exhausted = false) :
    ∃ M', Zeroed scope roots k pml4 kind M M' [(v, (pmmAllocPage s.pmm).2)] s
      (Isunux.mapZeroPage s pml4 v flags).1 := by
  rw [mapZeroPage_given ok] at fine ⊢
  have fineA : (pmmAllocPage s.pmm).1.exhausted = false := vmmMap4kIn_fine fine
  have zeroA := (allocPage_spends s (zeroFrame s.mem (pmmAllocPage s.pmm).2)).zero zero
  obtain ⟨oA, nodes, words, others⟩ := o.takePage (k, tablePath v ++ [ptIdx v]) fineA
  exact (pmmAllocPage_taken fineA).mapped oA nodes words others low root format zeroA
    (missing_zeroed root low nodes) fine

theorem Owned.mapZeroPage (o : Owned scope roots s.mem s.pmm L M) {v : Word} (low : pml4Idx v < 256)
    (root : roots k = some pml4) (format : flags ||| ptePresent = kind.flags) (zero : Held s.pmm 0)
    (fine : s.pmm.exhausted = false) (enough : pagesNeeded s.mem pml4 [v] ≤ freeFrames s.pmm) :
    (Isunux.mapZeroPage s pml4 v flags).2 = true ∧
      ∃ M', Zeroed scope roots k pml4 kind M M' [(v, (pmmAllocPage s.pmm).2)] s
        (Isunux.mapZeroPage s pml4 v flags).1 := by
  rw [pagesNeeded, List.length_singleton] at enough
  have some : 0 < freeFrames s.pmm := by omega
  have ok := pmmAllocPage_ok zero some
  have spent := allocPage_spends s (zeroFrame s.mem (pmmAllocPage s.pmm).2)
  have fineA := spent.fine zero some fine
  obtain ⟨-, nodes, -⟩ := o.takePage (k, tablePath v ++ [ptIdx v]) fineA
  have fineB : (vmmMap4kIn { s with pmm := (pmmAllocPage s.pmm).1, mem := zeroFrame s.mem (pmmAllocPage s.pmm).2 }
      pml4 v (pmmAllocPage s.pmm).2 flags).pmm.exhausted = false := by
    rw [vmmMap4kIn_eq, mapTables_along]
    refine tablesAlong_fine (s := { s with
      pmm := (pmmAllocPage s.pmm).1, mem := zeroFrame s.mem (pmmAllocPage s.pmm).2 }) (spent.zero zero) ?_ fineA
    have left := (pmmAllocPage_taken fineA).free
    dsimp only
    rw [absentAlong_tablePath, missing_zeroed root low nodes]
    omega
  have run := mapZeroPage_given ok pml4 v flags
  refine ⟨by rw [run], o.mapZeroPage_fine low root format zero ok ?_⟩
  rw [run]
  exact fineB

omit [DecidableEq K] in
theorem pageOfRange_low_idx {base : Word} {n : Nat} (fits : base.toNat + n * 4096 ≤ 2 ^ 47) {v : Word}
    (mem : v ∈ (List.range n).map (pageOfRange base)) : pml4Idx v < 256 := by
  obtain ⟨p, hp, rfl⟩ := List.mem_map.mp mem
  exact lowHalf_idx (pageOfRange_low fits (List.mem_range.mp hp))

omit [DecidableEq K] in
theorem pmmAllocPage_full {p : Pmm} (none : freeFrames p = 0) : pmmAllocPage p = ({ p with exhausted := true }, 0) := by
  rcases pmmAllocPage_cases p with ⟨idx, bound, clear, e⟩ | e
  · have less := freeFrames_take p bound clear
    omega
  · exact e

omit [DecidableEq K] in
theorem Zeroed.snoc {base : Word} {i g : Nat} (h : Zeroed scope roots k pml4 kind M M' pages s t)
    (shape : pages.map Prod.fst = (List.range i).map (pageOfRange base)) (root : roots k = some pml4)
    (fits : base.toNat + (i + 1) * 4096 ≤ 2 ^ 47)
    (one : Zeroed scope roots k pml4 kind M' M'' [(pageOfRange base i, g)] t u) :
    Zeroed scope roots k pml4 kind M M'' (pages ++ [(pageOfRange base i, g)]) s u ∧
      (pages ++ [(pageOfRange base i, g)]).map Prod.fst = (List.range (i + 1)).map (pageOfRange base) := by
  have before : ∀ x ∈ pages, ∃ p < i, x.1 = pageOfRange base p := by
    intro x mem
    have addr : x.1 ∈ (List.range i).map (pageOfRange base) := shape ▸ List.mem_map_of_mem mem
    obtain ⟨p, hp, same⟩ := List.mem_map.mp addr
    exact ⟨p, List.mem_range.mp hp, same.symm⟩
  have lowOf : ∀ p < i + 1, pml4Idx (pageOfRange base p) < 256 := fun p hp =>
    pageOfRange_low_idx fits (List.mem_map.mpr ⟨p, List.mem_range.mpr hp, rfl⟩)
  refine ⟨h.trans one root (fun x mem => ?_) (fun x mem => ?_) fun x mem y there slot => ?_, ?_⟩
  · obtain ⟨p, hp, same⟩ := before x mem
    rw [same]
    exact lowOf p (by omega)
  · rw [List.mem_singleton.mp mem]
    exact lowOf i (by omega)
  · obtain ⟨p, hp, same⟩ := before x mem
    rw [List.mem_singleton.mp there, same] at slot
    have equal : i = p := pageOfRange_slot (fun p hp => pageOfRange_low fits hp) (by omega) (by omega) fits slot
    omega
  · rw [List.map_append, shape, List.range_succ, List.map_append]
    rfl

theorem Zeroed.loop {base : Word} {i n j : Nat} (h : Zeroed scope roots k pml4 kind M M' pages s t)
    (shape : pages.map Prod.fst = (List.range i).map (pageOfRange base)) (root : roots k = some pml4)
    (format : flags ||| ptePresent = kind.flags) (fits : base.toNat + j * 4096 ≤ 2 ^ 47)
    (first : i ≤ j) (last : j ≤ i + n)
    (paid : pagesNeeded s.mem pml4 ((List.range j).map (pageOfRange base)) ≤ freeFrames s.pmm)
    (stop : j = i + n ∨ freeFrames s.pmm = pagesNeeded s.mem pml4 ((List.range j).map (pageOfRange base))) :
    (mapZeroPages pml4 base flags n i t).2 = j ∧ ∃ u M'' pages', Zeroed scope roots k pml4 kind M M'' pages' s u ∧
      pages'.map Prod.fst = (List.range j).map (pageOfRange base) ∧
      Agree (mapZeroPages pml4 base flags n i t).1 u := by
  induction n generalizing i t M' pages with
  | zero =>
    obtain rfl : i = j := by omega
    exact ⟨rfl, t, M', pages, h, shape, rfl⟩
  | succ n ih =>
    have free := h.free
    rw [shape] at free
    rcases first.eq_or_lt with rfl | before
    · -- the allocator is empty
      have none : freeFrames t.pmm = 0 := by omega
      rw [mapZeroPages, mapZeroPage, pmmAllocPage_full none, if_pos rfl]
      exact ⟨rfl, t, M', pages, h, shape, rfl⟩
    · have lowI : pml4Idx (pageOfRange base i) < 256 :=
        pageOfRange_low_idx fits (List.mem_map.mpr ⟨i, List.mem_range.mpr before, rfl⟩)
      have needed : pagesNeeded t.mem pml4 [pageOfRange base i] ≤ freeFrames t.pmm := by
        have more : pagesNeeded s.mem pml4 ((List.range (i + 1)).map (pageOfRange base)) ≤ freeFrames s.pmm :=
          (pagesNeeded_mono (by omega)).trans paid
        rw [List.range_succ, List.map_append, pagesNeeded_append, List.map_singleton, List.length_singleton] at more
        have low : ∀ v ∈ [pageOfRange base i], pml4Idx v < 256 := by simpa using lowI
        have left := h.missing root low
        rw [pagesNeeded, left, shape, List.length_singleton]
        omega
      obtain ⟨L', owned⟩ := h.owned
      obtain ⟨ok, M'', one⟩ := owned.mapZeroPage (k := k) lowI root format h.zero h.fine needed
      have within : (i + 1) * 4096 ≤ j * 4096 := Nat.mul_le_mul_right _ before
      obtain ⟨both, shape'⟩ := h.snoc shape root ((Nat.add_le_add_left within _).trans fits) one
      rw [mapZeroPages, if_pos ok]
      exact ih both shape' (by omega) (by omega) (by omega)

omit [DecidableEq K] in
theorem mapZeroPages_fine {base : Word} {n i : Nat}
    (fine : (mapZeroPages pml4 base flags n i s).1.pmm.exhausted = false) : s.pmm.exhausted = false := by
  induction n generalizing i s with
  | zero => exact fine
  | succ n ih =>
    have before : (mapZeroPage s pml4 (pageOfRange base i) flags).1.pmm.exhausted = false := by
      rw [mapZeroPages] at fine
      split at fine
      · exact ih fine
      · exact fine
    by_contra flagged
    have flagged' := eq_true_of_ne_false flagged
    rw [mapZeroPage] at before
    split at before
    · rw [pmmAllocPage_exhausted _ flagged'] at before
      cases before
    · have late := vmmMap4kIn_fine before
      dsimp only at late
      rw [pmmAllocPage_exhausted _ flagged'] at late
      cases late

theorem Zeroed.loop_fine {base : Word} {i n : Nat} (h : Zeroed scope roots k pml4 kind M M' pages s t)
    (shape : pages.map Prod.fst = (List.range i).map (pageOfRange base)) (root : roots k = some pml4)
    (format : flags ||| ptePresent = kind.flags) (fits : base.toNat + (i + n) * 4096 ≤ 2 ^ 47)
    (count : (mapZeroPages pml4 base flags n i t).2 = i + n)
    (fine : (mapZeroPages pml4 base flags n i t).1.pmm.exhausted = false) :
    ∃ M'' pages', Zeroed scope roots k pml4 kind M M'' pages' s (mapZeroPages pml4 base flags n i t).1 ∧
      pages'.map Prod.fst = (List.range (i + n)).map (pageOfRange base) := by
  induction n generalizing i t M' pages with
  | zero => exact ⟨M', pages, h, shape⟩
  | succ n ih =>
    have within : base.toNat + (i + 1) * 4096 ≤ 2 ^ 47 := by
      refine (Nat.add_le_add_left (Nat.mul_le_mul_right _ ?_) _).trans fits
      omega
    have lowI : pml4Idx (pageOfRange base i) < 256 :=
      pageOfRange_low_idx within (List.mem_map.mpr ⟨i, List.mem_range.mpr (Nat.lt_succ_self i), rfl⟩)
    rw [mapZeroPages] at count fine ⊢
    by_cases more : (mapZeroPage t pml4 (pageOfRange base i) flags).2 = true
    · rw [if_pos more] at count fine ⊢
      have ok : (pmmAllocPage t.pmm).2 ≠ 0 := by
        intro none
        rw [mapZeroPage, if_pos none] at more
        cases more
      obtain ⟨L', owned⟩ := h.owned
      obtain ⟨M'', one⟩ := owned.mapZeroPage_fine (k := k) lowI root format h.zero ok (mapZeroPages_fine fine)
      obtain ⟨both, shape'⟩ := h.snoc shape root within one
      have order : i + (n + 1) = i + 1 + n := by omega
      rw [order] at fits count ⊢
      exact ih both shape' fits count fine
    · rw [if_neg more] at count
      dsimp only at count
      omega

end Zeroed

section Flag

variable {s t : Vm}

theorem Agree.mapZeroPage (h : Agree s t) (pml4 : Nat) (v flags : Word) :
    (mapZeroPage s pml4 v flags).2 = (mapZeroPage t pml4 v flags).2 ∧
      Agree (mapZeroPage s pml4 v flags).1 (mapZeroPage t pml4 v flags).1 := by
  obtain ⟨page, pmm⟩ := h.alloc
  have same := agree_iff.mp h
  unfold Isunux.mapZeroPage
  dsimp only
  rw [page, same.2.1]
  split
  · exact ⟨rfl, agree_iff.mpr ⟨pmm, rfl, same.2.2⟩⟩
  · refine ⟨rfl, ?_⟩
    apply Agree.map
    exact agree_iff.mpr ⟨pmm, rfl, same.2.2⟩

theorem Agree.mapZeroPages (h : Agree s t) (pml4 : Nat) (base flags : Word) (n i : Nat) :
    (mapZeroPages pml4 base flags n i s).2 = (mapZeroPages pml4 base flags n i t).2 ∧
      Agree (mapZeroPages pml4 base flags n i s).1 (mapZeroPages pml4 base flags n i t).1 := by
  induction n generalizing i s t with
  | zero => exact ⟨rfl, h⟩
  | succ n ih =>
    obtain ⟨same, agree⟩ := h.mapZeroPage pml4 (pageOfRange base i) flags
    unfold Isunux.mapZeroPages
    dsimp only
    rw [same]
    split
    · exact ih agree (i + 1)
    · exact ⟨rfl, agree⟩

theorem Agree.freeFrames (h : Agree s t) : freeFrames s.pmm = freeFrames t.pmm := by
  have same : Isunux.freeFrames s.pmm.unflagged = Isunux.freeFrames t.pmm.unflagged := congrArg _ h.pmm
  exact same

end Flag

section Running

variable {K : Type*} [DecidableEq K] {roots : K → Option Nat} {scope : Nat → Prop} {s : Vm}
  {L M : Finset (Ref K × Nat)} {k : K} {pml4 n j : Nat} {base flags : Word} {kind : Kind}

omit [DecidableEq K] in
theorem Owned.unflagged (o : Owned scope roots s.mem s.pmm L M) :
    Owned scope roots s.unflagged.mem s.unflagged.pmm L M :=
  ⟨o.forest, ⟨o.accounts.balanced, o.accounts.tracked, o.accounts.outside⟩, o.sub⟩

theorem Owned.mapZeroPages (o : Owned scope roots s.mem s.pmm L M) (zero : Held s.pmm 0)
    (root : roots k = some pml4) (format : flags ||| ptePresent = kind.flags)
    (fits : base.toNat + j * 4096 ≤ 2 ^ 47) (last : j ≤ n)
    (paid : pagesNeeded s.mem pml4 ((List.range j).map (pageOfRange base)) ≤ freeFrames s.pmm)
    (stop : j = n ∨ freeFrames s.pmm = pagesNeeded s.mem pml4 ((List.range j).map (pageOfRange base))) :
    (mapZeroPages pml4 base flags n 0 s).2 = j ∧ ∃ u M' pages,
      Zeroed scope roots k pml4 kind M M' pages s.unflagged u ∧
      pages.map Prod.fst = (List.range j).map (pageOfRange base) ∧
      Agree (mapZeroPages pml4 base flags n 0 s).1 u := by
  have start : Zeroed scope roots k pml4 kind M M [] s.unflagged s.unflagged := .start o.unflagged zero rfl
  obtain ⟨count, u, M', pages, zeroed, shape, agree⟩ := start.loop (i := 0) (n := n) (j := j) rfl root format fits
    (Nat.zero_le j) (by omega) paid (by rw [Nat.zero_add]; exact stop)
  obtain ⟨same, flags⟩ := (agree_unflagged s).mapZeroPages pml4 base flags n 0
  exact ⟨same.trans count, u, M', pages, zeroed, shape, flags.trans agree⟩

end Running

end Isunux
