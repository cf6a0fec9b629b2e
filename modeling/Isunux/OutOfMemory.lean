import Isunux.Fence
import Isunux.Vfs

/-! What the callers of the page allocator do with its failure value. Page 0 is never
handed out, yet `get_or_create_table`, `vmm_new_address_space` and
`tmpfs_create_file` use the answer without looking at it. -/
namespace Isunux

open Radix

/-- The allocator gave page `f` away between two states, to one owner. -/
structure HandedOut (p q : Pmm) (f : Nat) : Prop where
  nonzero : f ≠ 0
  bound : f < p.totalPages
  clear : p.bitmap f = false
  used : q.bitmap f = true
  sole : q.refcount f = 1

section Handed

variable {p q r : Pmm} {f : Nat}

theorem HandedOut.later (h : HandedOut p q f) (grown : Grown q r) : HandedOut p r f := by
  obtain ⟨used, sole⟩ := grown.used f h.used
  exact ⟨h.nonzero, h.bound, h.clear, used, sole.trans h.sole⟩

theorem HandedOut.earlier (h : HandedOut q r f) (grown : Grown p q) : HandedOut p r f := by
  refine ⟨h.nonzero, grown.total ▸ h.bound, ?_, h.used, h.sole⟩
  by_contra used
  have clear := h.clear
  rw [(grown.used f (by simpa using used)).1] at clear
  cases clear

theorem HandedOut.free (h : HandedOut p q f) : 0 < freeFrames p :=
  Finset.card_pos.mpr ⟨f, Finset.mem_filter.mpr ⟨Finset.mem_range.mpr h.bound, h.clear⟩⟩

theorem pmmAllocPage_ok (zero : Held p 0) (some : 0 < freeFrames p) : (pmmAllocPage p).2 ≠ 0 := by
  intro failed
  have none := freeFrames_eq_zero (pmmAllocPage_zero zero failed).1
  omega

theorem pmmAllocPage_handed (ok : (pmmAllocPage p).2 ≠ 0) :
    HandedOut p (pmmAllocPage p).1 (pmmAllocPage p).2 := by
  obtain ⟨bound, clear, after⟩ := pmmAllocPage_fresh ok
  refine ⟨ok, bound, clear, ?_, ?_⟩ <;> rw [after] <;> simp [Pmm.take]

theorem pmmAllocPages_handed (ok : (pmmAllocPages p 1).2 ≠ 0) :
    HandedOut p (pmmAllocPages p 1).1 (pmmAllocPages p 1).2 := by
  rcases pmmAllocPages_cases p 1 with e | ⟨start, -, inside, clear, e⟩
  · rw [e] at ok
    exact absurd rfl ok
  · rw [e] at ok ⊢
    exact ⟨ok, by omega, clear start le_rfl (by omega), by simp, by simp⟩

end Handed

/-! Page tables -/

/-- `get_or_create_table` along a list of indices, from table `f` down. -/
def tablesAlong (s : Vm) (f : Nat) : List Nat → Vm × Nat
  | [] => (s, f)
  | i :: is => tablesAlong (getOrCreateTable s f i).1 (getOrCreateTable s f i).2 is

/-- How many of the tables along a list of indices are not there. -/
def absentAlong (mem : PhysMem) (f : Nat) : List Nat → Nat
  | [] => 0
  | i :: is =>
    match pteChild (mem f i) with
    | none => is.length + 1
    | some g => absentAlong mem g is

theorem mapTables_along (s : Vm) (pml4 : Nat) (v : Word) :
    mapTables s pml4 v = tablesAlong s pml4 (tablePath v) := rfl

/-- The tables along the path are pages in use. -/
def PathHeld (s : Vm) (f : Nat) (is : List Nat) : Prop :=
  ∀ q, q <+: is → ∀ g, reach s.mem f q = some g → g ≠ 0 ∧ Held s.pmm g

/-- Slot `i` of `f` was written, or lies in a table made by the call, and leads to `g`. -/
def Installs (s t : Vm) (f i g : Nat) : Prop :=
  (t.mem f i ≠ s.mem f i ∨ HandedOut s.pmm t.pmm f) ∧ pteChild (t.mem f i) = some g

/-- The page tables grew by pages that the allocator handed out, one for each new
entry, and page 0 was left alone. -/
structure Backed (s t : Vm) : Prop where
  zero : t.mem 0 = s.mem 0
  grown : Grown s.pmm t.pmm
  handed : ∀ f i g, Installs s t f i g → HandedOut s.pmm t.pmm g
  own : ∀ f i f' i' g, Installs s t f i g → Installs s t f' i' g → f = f' ∧ i = i'

section Tables

variable {s t u : Vm} {f : Nat}

theorem Backed.refl : Backed s s := by
  have none : ∀ f i g, ¬ Installs s s f i g := by
    rintro f i g ⟨changed | new, -⟩
    · exact changed rfl
    · have used := new.used
      rw [new.clear] at used
      cases used
  exact ⟨rfl, .refl _, fun f i g h => absurd h (none f i g), fun f i _ _ g h => absurd h (none f i g)⟩

theorem Installs.split {i g : Nat} (h : Installs s u f i g) (first : Grown s.pmm t.pmm)
    (second : Grown t.pmm u.pmm) : Installs s t f i g ∨ Installs t u f i g := by
  obtain ⟨written, leads⟩ := h
  by_cases same : u.mem f i = t.mem f i
  · rcases written with changed | new
    · exact .inl ⟨.inl (same ▸ changed), same ▸ leads⟩
    · cases mid : t.pmm.bitmap f with
      | false => exact .inr ⟨.inr ⟨new.nonzero, first.total ▸ new.bound, mid, new.used, new.sole⟩, leads⟩
      | true =>
        have sole := (second.used f mid).2
        rw [new.sole] at sole
        exact .inl ⟨.inr ⟨new.nonzero, new.bound, new.clear, mid, sole.symm⟩, same ▸ leads⟩
  · exact .inr ⟨.inl same, leads⟩

theorem Backed.trans (h : Backed s t) (h' : Backed t u) : Backed s u := by
  refine ⟨h'.zero.trans h.zero, h.grown.trans h'.grown, fun f i g made => ?_,
    fun f i f' i' g made made' => ?_⟩
  · rcases made.split h.grown h'.grown with first | second
    · exact (h.handed f i g first).later h'.grown
    · exact (h'.handed f i g second).earlier h.grown
  · -- a page handed out in the first step is not free in the second
    have apart : ∀ {f i f' i'}, Installs s t f i g → Installs t u f' i' g → False := by
      intro f i f' i' first second
      have used := (h.handed f i g first).used
      rw [(h'.handed f' i' g second).clear] at used
      cases used
    rcases made.split h.grown h'.grown with first | second
    · rcases made'.split h.grown h'.grown with first' | second'
      · exact h.own f i f' i' g first first'
      · exact absurd second' (apart first)
    · rcases made'.split h.grown h'.grown with first' | second'
      · exact absurd second (apart first')
      · exact h'.own f i f' i' g second second'

theorem getOrCreateTable_backed {i : Nat} (nonzero : f ≠ 0) (held : Held s.pmm f)
    (absent : pteChild (s.mem f i) = none) (ok : (pmmAllocPage s.pmm).2 ≠ 0) :
    Backed s (getOrCreateTable s f i).1 ∧
      HandedOut s.pmm (getOrCreateTable s f i).1.pmm (getOrCreateTable s f i).2 ∧
      ((getOrCreateTable s f i).1.mem (getOrCreateTable s f i).2 = fun _ => 0#64) ∧
      freeFrames (getOrCreateTable s f i).1.pmm + 1 = freeFrames s.pmm ∧
      ∀ h j, h ≠ (getOrCreateTable s f i).2 → ¬ (h = f ∧ j = i) →
        (getOrCreateTable s f i).1.mem h j = s.mem h j := by
  have missing : ¬ hasBits (s.mem f i) ptePresent = true := by
    intro present
    rw [pteChild, if_pos present] at absent
    cases absent
  have handed := pmmAllocPage_handed ok
  have grown := pmmAllocPage_grown s.pmm
  have less : freeFrames (pmmAllocPage s.pmm).1 + 1 = freeFrames s.pmm := by
    obtain ⟨bound, clear, after⟩ := pmmAllocPage_fresh ok
    rw [after]
    exact freeFrames_take s.pmm bound clear
  have alone : ∀ h, h ≠ (pmmAllocPage s.pmm).2 →
      (pmmAllocPage s.pmm).1.bitmap h = s.pmm.bitmap h := by
    intro h hne
    obtain ⟨bound, clear, after⟩ := pmmAllocPage_fresh ok
    rw [after]
    simp [Pmm.take, hne]
  rw [getOrCreateTable, if_neg missing]
  dsimp only
  generalize (pmmAllocPage s.pmm).1 = p at handed grown less alone ⊢
  generalize (pmmAllocPage s.pmm).2 = g at ok handed alone ⊢
  have other : f ≠ g := by
    rintro rfl
    have used := held handed.bound
    rw [handed.clear] at used
    cases used
  have edge : ∀ h j, h ≠ g → ¬ (h = f ∧ j = i) →
      put (zeroFrame s.mem g) f i (tableEntry g) h j = s.mem h j := by
    intro h j hg off
    rw [put_other _ _ off, zeroFrame, Function.update_of_ne hg]
  have table : put (zeroFrame s.mem g) f i (tableEntry g) g = fun _ => 0#64 := by
    rw [put_table _ _ _ other.symm, zeroFrame, Function.update_self]
  -- the only entry the step makes is the one for the new table
  have only : ∀ h j x, Installs s { s with pmm := p, mem := put (zeroFrame s.mem g) f i (tableEntry g) }
      h j x → h = f ∧ j = i ∧ x = g := by
    rintro h j x ⟨written, leads⟩
    dsimp only at written leads
    by_cases new : h = g
    · subst new
      rw [table, pteChild_absent] at leads
      cases leads
    · by_cases slot : h = f ∧ j = i
      · obtain ⟨rfl, rfl⟩ := slot
        rw [put_same, tableEntry_child (small_of_bound handed.bound)] at leads
        exact ⟨rfl, rfl, (Option.some.inj leads).symm⟩
      · rcases written with changed | given
        · exact absurd (edge h j new slot) changed
        · have used := given.used
          rw [alone h new, given.clear] at used
          cases used
  refine ⟨⟨?_, grown, fun h j x made => ?_, fun h j h' j' x made made' => ?_⟩, handed, table, less, edge⟩
  · funext j
    exact edge 0 j handed.nonzero.symm fun slot => nonzero slot.1.symm
  · rw [(only h j x made).2.2]
    exact handed
  · obtain ⟨rfl, rfl, -⟩ := only h j x made
    obtain ⟨rfl, rfl, -⟩ := only h' j' x made'
    exact ⟨rfl, rfl⟩

theorem getOrCreateTable_present {i g : Nat} (here : pteChild (s.mem f i) = some g) :
    getOrCreateTable s f i = (s, g) := by
  unfold pteChild at here
  split at here
  · rename_i present
    rw [getOrCreateTable, if_pos present, Option.some.inj here]
  · cases here

theorem absent_bit {e : Word} (absent : pteChild e = none) : ¬ hasBits e ptePresent = true := by
  intro present
  rw [pteChild, if_pos present] at absent
  cases absent

theorem absentAlong_le (mem : PhysMem) (f : Nat) (is : List Nat) : absentAlong mem f is ≤ is.length := by
  induction is generalizing f with
  | nil => exact le_rfl
  | cons i is ih =>
    unfold absentAlong
    split
    · exact le_rfl
    · exact (ih _).trans (Nat.le_succ _)

theorem absentAlong_blank {mem : PhysMem} {g : Nat} {is : List Nat} (blank : mem g = fun _ => 0#64) :
    absentAlong mem g is = is.length := by
  cases is with
  | nil => rfl
  | cons i is =>
    unfold absentAlong
    rw [blank, pteChild_absent]
    rfl

theorem tablesAlong_grown (s : Vm) (f : Nat) (is : List Nat) : Grown s.pmm (tablesAlong s f is).1.pmm := by
  induction is generalizing s f with
  | nil => exact .refl _
  | cons i is ih =>
    refine Grown.trans ?_ (ih _ _)
    unfold getOrCreateTable
    split
    · exact .refl _
    · exact pmmAllocPage_grown s.pmm

theorem PathHeld.head {is : List Nat} (held : PathHeld s f is) : f ≠ 0 ∧ Held s.pmm f :=
  held [] List.nil_prefix f rfl

theorem PathHeld.tail {i g : Nat} {is : List Nat} (held : PathHeld s f (i :: is))
    (here : pteChild (s.mem f i) = some g) : PathHeld s g is := by
  intro q sub h found
  refine held (i :: q) (List.cons_prefix_cons.mpr ⟨rfl, sub⟩) h ?_
  rw [reach, walk, here, Option.bind_some]
  exact found

theorem PathHeld.empty {g : Nat} (is : List Nat) (nonzero : g ≠ 0) (held : Held t.pmm g)
    (blank : t.mem g = fun _ => 0#64) : PathHeld t g is := by
  intro q _ h found
  cases q with
  | nil =>
    cases found
    exact ⟨nonzero, held⟩
  | cons j q =>
    rw [reach, walk, blank, pteChild_absent] at found
    cases found

theorem tablesAlong_backed {is : List Nat} (zero : Held s.pmm 0) (held : PathHeld s f is)
    (enough : absentAlong s.mem f is ≤ freeFrames s.pmm) :
    Backed s (tablesAlong s f is).1 ∧ (tablesAlong s f is).2 ≠ 0 := by
  induction is generalizing s f with
  | nil => exact ⟨.refl, held.head.1⟩
  | cons i is ih =>
    unfold tablesAlong
    unfold absentAlong at enough
    cases here : pteChild (s.mem f i) with
    | some g =>
      rw [here] at enough
      rw [getOrCreateTable_present here]
      exact ih zero (held.tail here) enough
    | none =>
      rw [here] at enough
      dsimp only at enough
      have ok := pmmAllocPage_ok zero (by omega : 0 < freeFrames s.pmm)
      obtain ⟨backed, handed, blank, less, -⟩ := getOrCreateTable_backed held.head.1 held.head.2 here ok
      generalize getOrCreateTable s f i = a at backed handed blank less ⊢
      have rest := ih (backed.grown.held zero)
        (PathHeld.empty is handed.nonzero (fun _ => handed.used) blank)
        ((absentAlong_le a.1.mem a.2 is).trans (by omega))
      exact ⟨backed.trans rest.1, rest.2⟩

theorem Spill.along {i : Nat} (h : Spill s f i t) (full : ∀ g, Held s.pmm g) (is : List Nat) :
    Spill s f i (tablesAlong t 0 is).1 ∧ (tablesAlong t 0 is).2 = 0 := by
  induction is generalizing t with
  | nil => exact ⟨h, rfl⟩
  | cons j is ih =>
    unfold tablesAlong
    obtain ⟨spill, zero⟩ := h.ensure full j
    rw [zero]
    exact ih spill

theorem tablesAlong_short {is : List Nat} (zero : Held s.pmm 0) (held : PathHeld s f is)
    (short : freeFrames s.pmm < absentAlong s.mem f is) :
    (tablesAlong s f is).2 = 0 ∧ ∃ h j, h ≠ 0 ∧ (tablesAlong s f is).1.mem h j = tableEntry 0 ∧
      ((tablesAlong s f is).1.mem h j ≠ s.mem h j ∨
        HandedOut s.pmm (tablesAlong s f is).1.pmm h) := by
  induction is generalizing s f with
  | nil => exact absurd short (Nat.not_lt_zero _)
  | cons i is ih =>
    unfold tablesAlong
    unfold absentAlong at short
    cases here : pteChild (s.mem f i) with
    | some g =>
      rw [here] at short
      rw [getOrCreateTable_present here]
      exact ih zero (held.tail here) short
    | none =>
      rw [here] at short
      dsimp only at short
      by_cases failed : (pmmAllocPage s.pmm).2 = 0
      · obtain ⟨spill, at_zero⟩ := getOrCreateTable_spill zero held.head.1 (absent_bit here) failed
        rw [at_zero]
        obtain ⟨last, ends⟩ := spill.along (pmmAllocPage_zero zero failed).1 is
        refine ⟨ends, f, i, held.head.1, ?_, .inl ?_⟩
        · rw [last.rest f held.head.1, put_same]
        · rw [last.rest f held.head.1, put_same]
          intro same
          rw [← same, tableEntry_child (by decide)] at here
          cases here
      · obtain ⟨backed, handed, blank, less, edge⟩ :=
          getOrCreateTable_backed held.head.1 held.head.2 here failed
        generalize getOrCreateTable s f i = a at backed handed blank less edge ⊢
        obtain ⟨ends, h, j, nonzero, leads, made⟩ := ih (backed.grown.held zero)
          (PathHeld.empty is handed.nonzero (fun _ => handed.used) blank)
          (by rw [absentAlong_blank blank]; omega)
        refine ⟨ends, h, j, nonzero, leads, ?_⟩
        rcases made with changed | given
        · by_cases new : h = a.2
          · rw [new]
            exact .inr (handed.later (tablesAlong_grown a.1 a.2 is))
          · refine .inl ?_
            by_cases slot : h = f ∧ j = i
            · obtain ⟨rfl, rfl⟩ := slot
              rw [leads]
              intro same
              rw [← same, tableEntry_child (by decide)] at here
              cases here
            · rwa [edge h j new slot] at changed
        · exact .inr (given.earlier backed.grown)

end Tables

/-- The leaf entry that `vmm_map_4k_in` writes. -/
def mappedEntry (d : Nat) (flags : Word) : Word := pageAddr d ||| (flags ||| ptePresent)

/-- `vmm_map_4k_in` made no entry but the leaf that does not lead to a page handed out
for it, and page 0 was left alone. -/
structure MapBacked (leaf : Word) (s t : Vm) : Prop where
  zero : t.mem 0 = s.mem 0
  handed : ∀ f i g, Installs s t f i g → t.mem f i = leaf ∨ HandedOut s.pmm t.pmm g
  own : ∀ f i f' i' g, Installs s t f i g → Installs s t f' i' g → t.mem f i ≠ leaf →
    t.mem f' i' ≠ leaf → f = f' ∧ i = i'

/-- The new PML4 is a page handed out for it, and page 0 was left alone. -/
def NewSpaceBacked (s : Vm) : Prop :=
  HandedOut s.pmm (vmmNewAddressSpace s).1.pmm (vmmNewAddressSpace s).2 ∧
    (vmmNewAddressSpace s).1.mem 0 = s.mem 0

/-- The new file has a page of its own, or nothing was linked and the call says so. -/
def CreateBacked {F : Type} (s : Files F) (d : Nat) (name : List Char) : Prop :=
  tmpfsCreateFile s d name = (s, none) ∨
    ∃ i f, (tmpfsCreateFile s d name).2 = some i ∧
      ((tmpfsCreateFile s d name).1.tmp.nodes i).data = some f ∧
      HandedOut s.pmm (tmpfsCreateFile s d name).1.pmm f

section Calls

variable {s : Vm}

theorem newSpace_backed_iff (zero : Held s.pmm 0) : NewSpaceBacked s ↔ 0 < freeFrames s.pmm := by
  constructor
  · rintro ⟨handed, -⟩
    exact handed.free
  · intro some
    have handed := pmmAllocPage_handed (pmmAllocPage_ok zero some)
    refine ⟨handed, ?_⟩
    simp only [vmmNewAddressSpace, zeroFrame]
    rw [Function.update_of_ne handed.nonzero.symm, Function.update_of_ne handed.nonzero.symm]

theorem mappedEntry_page {d : Nat} (page : d ≠ 0) (small : d < 2 ^ 52) (flags : Word) :
    mappedEntry d flags ≠ tableEntry 0 := by
  intro same
  have value := congrArg BitVec.toNat same
  have most : (pageAddr d).toNat ≤ (mappedEntry d flags).toNat := by
    rw [mappedEntry, BitVec.toNat_or]
    exact Nat.left_le_or
  rw [value, pageAddr_toNat small] at most
  have seven : (tableEntry 0).toNat = 7 := rfl
  omega

theorem Backed.leaf {m : Vm} {pt l : Nat} {leaf : Word} (b : Backed s m) (nonzero : pt ≠ 0) :
    MapBacked leaf s { m with mem := put m.mem pt l leaf } := by
  have before : ∀ f i g, Installs s { m with mem := put m.mem pt l leaf } f i g →
      put m.mem pt l leaf f i ≠ leaf → Installs s m f i g := by
    rintro f i g ⟨written, leads⟩ off
    have slot : ¬ (f = pt ∧ i = l) := by
      rintro ⟨rfl, rfl⟩
      exact off (put_same _ _ _ _)
    dsimp only at written leads
    rw [put_other _ _ slot] at written leads
    exact ⟨written, leads⟩
  refine ⟨?_, fun f i g made => ?_, fun f i f' i' g made made' off off' => ?_⟩
  · dsimp only
    rw [put_table _ _ _ nonzero.symm]
    exact b.zero
  · by_cases same : put m.mem pt l leaf f i = leaf
    · exact .inl same
    · exact .inr (b.handed f i g (before f i g made same))
  · exact b.own f i f' i' g (before f i g made off) (before f' i' g made' off')

/-- `vmm_map_4k_in` is backed exactly when a page is free for each missing table. -/
theorem map_backed_iff {pml4 d : Nat} {v flags : Word} (zero : Held s.pmm 0)
    (held : PathHeld s pml4 (tablePath v)) (page : d ≠ 0) (small : d < 2 ^ 52) :
    MapBacked (mappedEntry d flags) s (vmmMap4kIn s pml4 v d flags) ↔
      absentAlong s.mem pml4 (tablePath v) ≤ freeFrames s.pmm := by
  rw [vmmMap4kIn_eq, mapTables_along]
  constructor
  · intro backed
    by_contra short
    obtain ⟨ends, h, j, nonzero, leads, made⟩ := tablesAlong_short zero held (Nat.lt_of_not_le short)
    rw [ends] at backed
    generalize (tablesAlong s pml4 (tablePath v)).1 = m at backed leads made
    have slot : put m.mem 0 (ptIdx v) (mappedEntry d flags) h j = m.mem h j :=
      put_other _ _ fun same => nonzero same.1
    have installs : Installs s { m with mem := put m.mem 0 (ptIdx v) (mappedEntry d flags) } h j 0 := by
      refine ⟨?_, ?_⟩
      · dsimp only
        rw [slot]
        exact made
      · dsimp only
        rw [slot, leads, tableEntry_child (by decide)]
    rcases backed.handed h j 0 installs with leaf | handed
    · exact mappedEntry_page page small flags ((slot.symm.trans leaf).symm.trans leads)
    · exact handed.nonzero rfl
  · intro enough
    obtain ⟨backed, nonzero⟩ := tablesAlong_backed zero held enough
    exact backed.leaf nonzero

theorem create_backed_iff {F : Type} {s : Files F} (d : Nat) (name : List Char) (zero : Held s.pmm 0) :
    CreateBacked s d name ↔ tmpfsMaxNodes ≤ s.tmp.count ∨ 0 < freeFrames s.pmm := by
  by_cases full : tmpfsMaxNodes ≤ s.tmp.count
  · have none : tmpfsCreateFile s d name = (s, none) := by
      simp only [tmpfsCreateFile, tmpfsAllocNode, if_pos full]
    exact ⟨fun _ => .inl full, fun _ => .inl none⟩
  · have made : (tmpfsCreateFile s d name).2 = some s.tmp.count ∧
        ((tmpfsCreateFile s d name).1.tmp.nodes s.tmp.count).data = some (pmmAllocPages s.pmm 1).2 ∧
        (tmpfsCreateFile s d name).1.pmm = (pmmAllocPages s.pmm 1).1 := by
      simp only [tmpfsCreateFile, tmpfsAllocNode, if_neg full, Tmpfs.link, Tmpfs.set, true_and, and_true]
      by_cases self : s.tmp.count = d
      · subst self
        simp
      · simp [self]
    obtain ⟨slot, data, pmm⟩ := made
    constructor
    · rintro (none | ⟨i, f, slot', data', handed⟩)
      · rw [none] at slot
        cases slot
      · exact .inr handed.free
    · rintro (full' | some)
      · exact absurd full' full
      · refine .inr ⟨_, _, slot, data, ?_⟩
        rw [pmm]
        exact pmmAllocPages_handed ((pmmAllocPages_one zero).mpr some)

end Calls

/-- When the failure value of the allocator is not used as memory: a new address space
needs a free page, a mapping one for each page table that is not there, a new file one
unless its node cannot be allocated. -/
theorem allocation_failure_unused_iff (s : Vm) (zero : Held s.pmm 0) :
    (NewSpaceBacked s ↔ 0 < freeFrames s.pmm) ∧
    (∀ (pml4 d : Nat) (v flags : Word), PathHeld s pml4 (tablePath v) → d ≠ 0 → d < 2 ^ 52 →
      (MapBacked (mappedEntry d flags) s (vmmMap4kIn s pml4 v d flags) ↔
        absentAlong s.mem pml4 (tablePath v) ≤ freeFrames s.pmm)) ∧
    ∀ (F : Type) (files : Files F) (d : Nat) (name : List Char), files.pmm = s.pmm →
      (CreateBacked files d name ↔ tmpfsMaxNodes ≤ files.tmp.count ∨ 0 < freeFrames s.pmm) := by
  refine ⟨newSpace_backed_iff zero, fun _ _ _ _ held page small => map_backed_iff zero held page small,
    fun _ files d name same => ?_⟩
  rw [← same] at zero ⊢
  exact create_backed_iff d name zero

/-- Four pages. Page 0 holds the interrupt vectors of real mode, page 1 is the kernel's
PML4, page 2 that of a process, page 3 is free or not. -/
def fourPages (last : Bool) : Vm where
  pmm := .small 4#6 (fun f => f < 3 || last) (fun _ => 1) 0 4
  mem := fun f _ => if f = 0 then 0xf000ff53f000ff53#64 else 0#64
  kernelPml4 := 1

theorem fourPages_pathHeld (last : Bool) (is : List Nat) : PathHeld (fourPages last) 2 is :=
  PathHeld.empty is (by decide) (fun _ => rfl) rfl

/-- With one page left, a new address space gets it, and a mapping, which needs three,
is not backed. -/
theorem allocation_failure_unused_fourPages :
    NewSpaceBacked (fourPages false) ∧
    ¬ MapBacked (mappedEntry 1 pteUser) (fourPages false)
      (vmmMap4kIn (fourPages false) 2 0x400000#64 1 pteUser) := by
  have one : freeFrames (fourPages false).pmm = 1 := by decide
  obtain ⟨space, map, -⟩ := allocation_failure_unused_iff (fourPages false) fun _ => rfl
  refine ⟨space.mpr (by omega), ?_⟩
  rw [map 2 1 0x400000#64 pteUser (fourPages_pathHeld false _) (by decide) (by decide), one]
  decide

def fullFiles : Files Unit := ⟨tmpfsInit, (fourPages true).pmm, (fourPages true).mem, (), 0, 0⟩

/-- A full machine: the new PML4 is page 0, which is overwritten, a new page table is
page 0, and so is the buffer of a new file that is linked all the same. -/
theorem failed_allocation_used_as_memory :
    (vmmNewAddressSpace (fourPages true)).2 = 0 ∧
    (vmmNewAddressSpace (fourPages true)).1.mem 0 0 ≠ (fourPages true).mem 0 0 ∧
    ¬ NewSpaceBacked (fourPages true) ∧
    (vmmMap4kIn (fourPages true) 2 0x400000#64 1 pteUser).mem 2 0 = tableEntry 0 ∧
    (tmpfsCreateFile fullFiles 0 ['a']).2 = some 1 ∧
    ((tmpfsCreateFile fullFiles 0 ['a']).1.tmp.nodes 1).data = some 0 := by
  refine ⟨by decide, by decide, ?_, by decide, by decide, by decide⟩
  rw [newSpace_backed_iff fun _ => rfl]
  decide

end Isunux
