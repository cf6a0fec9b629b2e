import Isunux.Vmm

/-! The low halves of a family of address spaces as a forest of tables, and what
each primitive write of vmm.c does to it. References are pairs of a space and a
path of indices; those of length four are mapped pages, the shorter ones tables. -/
namespace Isunux

open Radix

/-- Index paths from a PML4 that stay in the low half. -/
def LowPath (p : List Nat) : Prop :=
  p.length ≤ 4 ∧ (∀ i ∈ p, i < 512) ∧ ∀ i ∈ p.head?, i < 256

theorem LowPath.nil : LowPath [] := by simp [LowPath]

theorem LowPath.of_prefix {p q : List Nat} (h : LowPath q) (hp : p <+: q) : LowPath p := by
  obtain ⟨t, rfl⟩ := hp
  refine ⟨?_, ?_, ?_⟩
  · have := h.1
    simp only [List.length_append] at this
    omega
  · exact fun i hi => h.2.1 i (List.mem_append_left t hi)
  · intro i hi
    apply h.2.2 i
    cases p with
    | nil => simp at hi
    | cons a p => simpa using hi

theorem LowPath.init {p : List Nat} {i : Nat} (h : LowPath (p ++ [i])) : LowPath p :=
  h.of_prefix (List.prefix_append p [i])

/-! Splitting the paths below a table by their next index. -/

theorem snoc_prefix_inj {q p : List Nat} {i i' : Nat} (h : q ++ [i] <+: p) (h' : q ++ [i'] <+: p) :
    i = i' := by
  have e := List.prefix_of_prefix_length_le h h' (by simp)
  have := e.eq_of_length (by simp)
  simpa using this

theorem prefix_next {q p : List Nat} {n : Nat} (hp : q <+: p) (long : q.length < p.length)
    (bound : ∀ i, q ++ [i] <+: p → i < n) : ∃ i, i < n ∧ q ++ [i] <+: p := by
  obtain ⟨r, rfl⟩ := hp
  cases r with
  | nil => simp at long
  | cons i r =>
    have hp : q ++ [i] <+: q ++ i :: r := ⟨r, by simp⟩
    exact ⟨i, bound i hp, hp⟩

theorem LowPath.slot {p : List Nat} (low : LowPath p) {q : List Nat} {i : Nat}
    (hp : q ++ [i] <+: p) : i < 512 :=
  low.2.1 i (hp.subset (by simp))

theorem LowPath.first {p : List Nat} (low : LowPath p) {i : Nat} (hp : [] ++ [i] <+: p) : i < 256 := by
  obtain ⟨r, rfl⟩ := hp
  exact low.2.2 i (by simp)

theorem LowPath.extend {q : List Nat} {i : Nat} (low : LowPath q) (short : q.length ≤ 3)
    (nonroot : q ≠ []) (hi : i < 512) : LowPath (q ++ [i]) := by
  refine ⟨by simp; omega, ?_, ?_⟩
  · intro x hx
    rcases List.mem_append.mp hx with hx | hx
    · exact low.2.1 x hx
    · rw [List.mem_singleton] at hx
      omega
  · intro x hx
    rw [List.head?_append_of_ne_nil _ nonroot] at hx
    exact low.2.2 x hx

/-- How a page is mapped: permanently read-only, writable, or shared read-only by
a fork although the program may write it. -/
inductive Kind where
  | ro | rw | cow
  deriving DecidableEq, Repr

def Kind.flags : Kind → Word
  | .ro => ptePresent ||| pteUser
  | .rw => ptePresent ||| pteWrite ||| pteUser
  | .cow => ptePresent ||| pteUser ||| pteCow

def leafEntry (f : Nat) (k : Kind) : Word := pageAddr f ||| k.flags

theorem Kind.flags_low (k : Kind) : k.flags.toNat < 4096 := by cases k <;> decide

theorem leafEntry_frame {f : Nat} (small : f < 2 ^ 52) (k : Kind) : pteFrame (leafEntry f k) = f :=
  pteFrame_pageAddr_or small k.flags_low

theorem leafEntry_flags {f : Nat} (small : f < 2 ^ 52) (k : Kind) :
    pteFlags (leafEntry f k) = k.flags :=
  pteFlags_pageAddr_or small k.flags_low

@[simp] theorem leafEntry_present (f : Nat) (k : Kind) : hasBits (leafEntry f k) ptePresent = true := by
  rw [leafEntry, hasBits_pageAddr_or (by decide)]
  cases k <;> decide

@[simp] theorem leafEntry_user (f : Nat) (k : Kind) : hasBits (leafEntry f k) pteUser = true := by
  rw [leafEntry, hasBits_pageAddr_or (by decide)]
  cases k <;> decide

@[simp] theorem leafEntry_write (f : Nat) (k : Kind) :
    hasBits (leafEntry f k) pteWrite = decide (k = .rw) := by
  rw [leafEntry, hasBits_pageAddr_or (by decide)]
  cases k <;> decide

@[simp] theorem leafEntry_cow (f : Nat) (k : Kind) :
    hasBits (leafEntry f k) pteCow = decide (k = .cow) := by
  rw [leafEntry, hasBits_pageAddr_or (by decide)]
  cases k <;> decide

theorem leafEntry_child {f : Nat} (small : f < 2 ^ 52) (k : Kind) :
    pteChild (leafEntry f k) = some f := by
  simp [pteChild, leafEntry_frame small]

theorem tableEntry_frame {f : Nat} (small : f < 2 ^ 52) : pteFrame (tableEntry f) = f :=
  pteFrame_pageAddr_or small (by decide)

@[simp] theorem tableEntry_present (f : Nat) : hasBits (tableEntry f) ptePresent = true := by
  rw [tableEntry, hasBits_pageAddr_or (by decide)]
  decide

@[simp] theorem tableEntry_user (f : Nat) : hasBits (tableEntry f) pteUser = true := by
  rw [tableEntry, hasBits_pageAddr_or (by decide)]
  decide

@[simp] theorem tableEntry_huge (f : Nat) : hasBits (tableEntry f) pteHuge = false := by
  rw [tableEntry, hasBits_pageAddr_or (by decide)]
  decide

theorem tableEntry_child {f : Nat} (small : f < 2 ^ 52) : pteChild (tableEntry f) = some f := by
  simp [pteChild, tableEntry_frame small]

theorem pteChild_eq_some {e : Word} {f : Nat} :
    pteChild e = some f ↔ hasBits e ptePresent = true ∧ pteFrame e = f := by
  unfold pteChild
  split <;> simp_all

section Forest

variable {K : Type*} (roots : K → Option Nat) (mem : PhysMem)

/-- The table or page at a path of a space. -/
abbrev at_ (k : K) (p : List Nat) : Option Nat := node pteChild roots mem k p

/-- The present leaf entry in slot `l` of the page table at `p`. -/
def leafWord (k : K) (p : List Nat) (l : Nat) : Option Word :=
  (at_ roots mem k p).bind fun f => if hasBits (mem f l) ptePresent then some (mem f l) else none

theorem at_snoc (k : K) (p : List Nat) (i : Nat) :
    at_ roots mem k (p ++ [i]) = (at_ roots mem k p).bind fun g => pteChild (mem g i) :=
  node_snoc pteChild roots mem k p i

theorem at_append (k : K) (p q : List Nat) :
    at_ roots mem k (p ++ q) = (at_ roots mem k p).bind fun g => walk pteChild mem g q :=
  node_append pteChild roots mem k p q

variable {roots mem}

theorem leafWord_some {k : K} {p : List Nat} {l : Nat} {e : Word} :
    leafWord roots mem k p l = some e ↔
      ∃ f, at_ roots mem k p = some f ∧ mem f l = e ∧ hasBits e ptePresent = true := by
  unfold leafWord
  rw [Option.bind_eq_some_iff]
  constructor
  · rintro ⟨f, hf, h⟩
    split at h
    · cases Option.some.inj h
      exact ⟨f, hf, rfl, by assumption⟩
    · cases h
  · rintro ⟨f, hf, rfl, hp⟩
    exact ⟨f, hf, by simp [hp]⟩

theorem at_leaf {k : K} {p : List Nat} {l g : Nat} :
    at_ roots mem k (p ++ [l]) = some g ↔
      ∃ e, leafWord roots mem k p l = some e ∧ pteFrame e = g := by
  rw [at_snoc, Option.bind_eq_some_iff]
  constructor
  · rintro ⟨f, hf, hc⟩
    obtain ⟨hp, hg⟩ := pteChild_eq_some.mp hc
    exact ⟨mem f l, leafWord_some.mpr ⟨f, hf, rfl, hp⟩, hg⟩
  · rintro ⟨e, he, hg⟩
    obtain ⟨f, hf, rfl, hp⟩ := leafWord_some.mp he
    exact ⟨f, hf, pteChild_eq_some.mpr ⟨hp, hg⟩⟩

end Forest

/-- A page reference: a space and the path of the entry that holds it. -/
abbrev Ref (K : Type*) := K × List Nat

def Ref.table {K : Type*} (r : Ref K) : Prop := r.2.length ≤ 3

section WellFormed

variable {K : Type*} {roots : K → Option Nat} {mem : PhysMem} {p : Pmm} {scope : Nat → Prop}
  {L M : Finset (Ref K × Nat)}

/-- The memory holds exactly the ledger's references, in the two entry formats
vmm.c writes. -/
structure Forest (roots : K → Option Nat) (mem : PhysMem) (L : Finset (Ref K × Nat)) : Prop where
  nodes : ∀ k q f, ((k, q), f) ∈ L ↔ LowPath q ∧ at_ roots mem k q = some f
  tables : ∀ k q i f, LowPath (q ++ [i]) → q.length ≤ 2 → at_ roots mem k q = some f →
    hasBits (mem f i) ptePresent = true → ∃ g, g < 2 ^ 52 ∧ mem f i = tableEntry g
  leaves : ∀ k q l e, LowPath (q ++ [l]) → q.length = 3 → leafWord roots mem k q l = some e →
    ∃ g kind, g < 2 ^ 52 ∧ e = leafEntry g kind

/-- The allocator accounts for `M`, of which the memory holds `L`. -/
structure Owned (scope : Nat → Prop) (roots : K → Option Nat) (mem : PhysMem) (p : Pmm)
    (L M : Finset (Ref K × Nat)) : Prop where
  forest : Forest roots mem L
  accounts : Accounts Ref.table scope p M
  sub : L ⊆ M

theorem Owned.mem_of_at (o : Owned scope roots mem p L M) {k : K} {q : List Nat} {f : Nat}
    (low : LowPath q) (h : at_ roots mem k q = some f) : ((k, q), f) ∈ M :=
  o.sub ((o.forest.nodes k q f).mpr ⟨low, h⟩)

theorem Owned.unique (o : Owned scope roots mem p L M) {k k' : K} {q q' : List Nat} {f : Nat}
    (low : LowPath q) (short : q.length ≤ 3) (h : at_ roots mem k q = some f)
    (low' : LowPath q') (h' : at_ roots mem k' q' = some f) : k' = k ∧ q' = q := by
  have e := o.accounts.balanced.unique (o.mem_of_at low h) (o.mem_of_at low' h') short
  exact ⟨(congrArg Prod.fst e).symm, (congrArg Prod.snd e).symm⟩

theorem Owned.not_at_of_free (o : Owned scope roots mem p L M) {k : K} {q : List Nat} {g : Nat}
    (free : p.bitmap g = false) (low : LowPath q) : at_ roots mem k q ≠ some g := by
  intro h
  exact o.accounts.balanced.not_mem_of_unused free _ (o.mem_of_at low h)

theorem Forest.frame (w : Forest roots mem L) (mem' : PhysMem)
    (same : ∀ k q f, LowPath q → q.length ≤ 3 → at_ roots mem k q = some f → mem' f = mem f) :
    Forest roots mem' L ∧ (∀ k q, LowPath q → at_ roots mem' k q = at_ roots mem k q) ∧
      ∀ k q l, LowPath (q ++ [l]) → leafWord roots mem' k q l = leafWord roots mem k q l := by
  have nodes : ∀ k q, LowPath q → at_ roots mem' k q = at_ roots mem k q := by
    intro k q low
    apply node_congr
    intro r i hr f hf
    have hlow := low.of_prefix hr
    have hlen := hlow.1
    simp only [List.length_append, List.length_singleton] at hlen
    rw [same k r f hlow.init (by omega) hf]
  have words : ∀ k q l, LowPath (q ++ [l]) →
      leafWord roots mem' k q l = leafWord roots mem k q l := by
    intro k q l low
    have hlen := low.1
    simp only [List.length_append, List.length_singleton] at hlen
    unfold leafWord
    rw [nodes k q low.init]
    cases hf : at_ roots mem k q with
    | none => rfl
    | some f => simp only [Option.bind_some, same k q f low.init (by omega) hf]
  refine ⟨⟨?_, ?_, ?_⟩, nodes, words⟩
  · intro k q f
    rw [w.nodes k q f]
    constructor
    · rintro ⟨low, h⟩; exact ⟨low, by rw [nodes k q low]; exact h⟩
    · rintro ⟨low, h⟩; exact ⟨low, by rw [← nodes k q low]; exact h⟩
  · intro k q i f low short h hp
    rw [nodes k q low.init] at h
    rw [same k q f low.init (by omega) h] at hp ⊢
    exact w.tables k q i f low short h hp
  · intro k q l e low len h
    rw [words k q l low] at h
    exact w.leaves k q l e low len h

theorem length_snoc_le {q : List Nat} {i : Nat} (low : LowPath (q ++ [i])) : q.length ≤ 3 := by
  have h := low.1
  simp only [List.length_append, List.length_singleton] at h
  omega

theorem Owned.at_put_off (o : Owned scope roots mem p L M) {k : K} {q : List Nat} {i f : Nat}
    (low : LowPath (q ++ [i])) (here : at_ roots mem k q = some f) (e : Word) {k' : K}
    {q' : List Nat} (low' : LowPath q') (off : ¬ (k' = k ∧ q ++ [i] <+: q')) :
    at_ roots (put mem f i e) k' q' = at_ roots mem k' q' := by
  apply node_put_off
  intro r hr hf
  obtain ⟨rfl, rfl⟩ := o.unique low.init (length_snoc_le low) here (low'.of_prefix hr).init hf
  exact off ⟨rfl, hr⟩

theorem Owned.at_put_at (o : Owned scope roots mem p L M) {k : K} {q : List Nat} {i f : Nat}
    (low : LowPath (q ++ [i])) (here : at_ roots mem k q = some f) (e : Word) :
    at_ roots (put mem f i e) k (q ++ [i]) = pteChild e := by
  apply node_put_at pteChild roots mem f i e k q here
  intro r hr hf
  obtain ⟨-, rfl⟩ := o.unique low.init (length_snoc_le low) here (low.init.of_prefix hr).init hf
  have := hr.length_le
  simp only [List.length_append, List.length_singleton] at this
  omega

theorem Owned.putLeaf (o : Owned scope roots mem p L M) {k : K} {q : List Nat} {l f : Nat}
    (low : LowPath (q ++ [l])) (len : q.length = 3) (here : at_ roots mem k q = some f) (e : Word)
    (good : e = 0#64 ∨ ∃ g kind, g < 2 ^ 52 ∧ e = leafEntry g kind) (L' : Finset (Ref K × Nat))
    (ledger : ∀ k' q' g, ((k', q'), g) ∈ L' ↔
      (k' = k ∧ q' = q ++ [l] ∧ pteChild e = some g) ∨
        (¬ (k' = k ∧ q' = q ++ [l]) ∧ ((k', q'), g) ∈ L)) :
    Forest roots (put mem f l e) L' ∧
      (∀ k' q', LowPath q' → q'.length ≤ 3 → at_ roots (put mem f l e) k' q' = at_ roots mem k' q') ∧
      leafWord roots (put mem f l e) k q l = (if hasBits e ptePresent then some e else none) ∧
      ∀ k' q' l', LowPath (q' ++ [l']) → q'.length = 3 → ¬ (k' = k ∧ q' = q ∧ l' = l) →
        leafWord roots (put mem f l e) k' q' l' = leafWord roots mem k' q' l' := by
  have off : ∀ k' q', LowPath q' → ¬ (k' = k ∧ q' = q ++ [l]) →
      at_ roots (put mem f l e) k' q' = at_ roots mem k' q' := by
    intro k' q' low' hne
    refine o.at_put_off low here e low' ?_
    rintro ⟨rfl, hpre⟩
    have hle := low'.1
    have hlen : (q ++ [l]).length = 4 := by simp [len]
    exact hne ⟨rfl, (hpre.eq_of_length (by have := hpre.length_le; omega)).symm⟩
  have inner : ∀ k' q', LowPath q' → q'.length ≤ 3 →
      at_ roots (put mem f l e) k' q' = at_ roots mem k' q' := by
    intro k' q' low' short
    refine off k' q' low' ?_
    rintro ⟨-, rfl⟩
    simp [len] at short
  have written : leafWord roots (put mem f l e) k q l =
      if hasBits e ptePresent then some e else none := by
    unfold leafWord
    rw [inner k q low.init (by omega), here]
    simp [put_same]
  have words : ∀ k' q' l', LowPath (q' ++ [l']) → q'.length = 3 → ¬ (k' = k ∧ q' = q ∧ l' = l) →
      leafWord roots (put mem f l e) k' q' l' = leafWord roots mem k' q' l' := by
    intro k' q' l' low' len' hne
    unfold leafWord
    rw [inner k' q' low'.init (by omega)]
    cases hf : at_ roots mem k' q' with
    | none => rfl
    | some f' =>
      have hslot : ¬ (f' = f ∧ l' = l) := by
        rintro ⟨rfl, rfl⟩
        obtain ⟨rfl, rfl⟩ := o.unique low.init (by omega) here low'.init hf
        exact hne ⟨rfl, rfl, rfl⟩
      simp only [Option.bind_some, put_other mem e hslot]
  refine ⟨⟨?_, ?_, ?_⟩, inner, written, words⟩
  · intro k' q' g
    rw [ledger]
    by_cases hc : k' = k ∧ q' = q ++ [l]
    · obtain ⟨rfl, rfl⟩ := hc
      rw [o.at_put_at low here e]
      simp [low]
    · constructor
      · rintro (⟨rfl, rfl, -⟩ | ⟨-, h⟩)
        · exact False.elim (hc ⟨rfl, rfl⟩)
        · obtain ⟨low', h⟩ := (o.forest.nodes k' q' g).mp h
          exact ⟨low', by rw [off k' q' low' hc]; exact h⟩
      · rintro ⟨low', h⟩
        rw [off k' q' low' hc] at h
        exact .inr ⟨hc, (o.forest.nodes k' q' g).mpr ⟨low', h⟩⟩
  · intro k' q' i f' low' short h hp
    rw [inner k' q' low'.init (by omega)] at h
    have hne : f' ≠ f := by
      rintro rfl
      obtain ⟨-, rfl⟩ := o.unique low.init (by omega) here low'.init h
      omega
    rw [put_table mem l e hne] at hp ⊢
    exact o.forest.tables k' q' i f' low' short h hp
  · intro k' q' l' e' low' len' h
    by_cases hc : k' = k ∧ q' = q ∧ l' = l
    · obtain ⟨rfl, rfl, rfl⟩ := hc
      rw [written] at h
      rcases good with rfl | ⟨g, kind, small, rfl⟩
      · cases h
      · simp only [leafEntry_present, if_true, Option.some.injEq] at h
        exact ⟨g, kind, small, h.symm⟩
    · rw [words k' q' l' low' len' hc] at h
      exact o.forest.leaves k' q' l' e' low' len' h

variable [DecidableEq K]

/-- Creating a missing table: a fresh zeroed page becomes the node below the
slot, every leaf entry stays, and only the fresh frame and the slot are written. -/
theorem Owned.newTable (o : Owned scope roots mem p L M) {k : K} {q : List Nat} {i f : Nat}
    (low : LowPath (q ++ [i])) (short : q.length ≤ 2) (here : at_ roots mem k q = some f)
    (absent : hasBits (mem f i) ptePresent = false)
    (fine : (pmmAllocPage p).1.exhausted = false) :
    let g := (pmmAllocPage p).2
    let mem' := put (zeroFrame mem g) f i (tableEntry g)
    Owned scope roots mem' (pmmAllocPage p).1
        (insert ((k, q ++ [i]), g) L) (insert ((k, q ++ [i]), g) M) ∧
      at_ roots mem' k (q ++ [i]) = some g ∧
      (∀ k' q' l', LowPath (q' ++ [l']) → q'.length = 3 →
        leafWord roots mem' k' q' l' = leafWord roots mem k' q' l') ∧
      (∀ h, h ≠ g → h ≠ f → mem' h = mem h) ∧ scope g ∧ p.bitmap g = false := by
  intro g mem'
  obtain ⟨accounts, inScope, clear⟩ := o.accounts.alloc (k, q ++ [i]) fine
  have small : g < 2 ^ 52 := accounts.small (Finset.mem_insert_self _ _)
  have notG : ∀ k' q', LowPath q' → at_ roots mem k' q' ≠ some g := fun k' q' low' =>
    o.not_at_of_free clear low'
  obtain ⟨forest₁, nodes₁, words₁⟩ := o.forest.frame (zeroFrame mem g) (by
    intro k' q' h low' _ hat
    have hne : h ≠ g := fun e => notG k' q' low' (e ▸ hat)
    simp [zeroFrame, hne])
  have o₁ : Owned scope roots (zeroFrame mem g) p L M := ⟨forest₁, o.accounts, o.sub⟩
  have here₁ : at_ roots (zeroFrame mem g) k q = some f := by rw [nodes₁ k q low.init]; exact here
  have hfg : f ≠ g := fun e => notG k q low.init (e ▸ here)
  have gone : at_ roots (zeroFrame mem g) k (q ++ [i]) = none := by
    rw [nodes₁ k _ low, at_snoc, here]
    simp [pteChild, absent]
  have gzero : ∀ j, mem' g j = 0#64 := by
    intro j
    rw [show mem' g = zeroFrame mem g g from put_table _ i _ (Ne.symm hfg)]
    simp [zeroFrame]
  have made : at_ roots mem' k (q ++ [i]) = some g := by
    rw [o₁.at_put_at low here₁ (tableEntry g), tableEntry_child small]
  -- every other node of the forest is where it was; below the new table there is none
  have nodes₂ : ∀ k' q', LowPath q' → ¬ (k' = k ∧ q' = q ++ [i]) →
      at_ roots mem' k' q' = at_ roots mem k' q' := by
    intro k' q' low' hne
    rw [← nodes₁ k' q' low']
    by_cases hpre : k' = k ∧ q ++ [i] <+: q'
    · obtain ⟨rfl, t, rfl⟩ := hpre
      cases t with
      | nil => exact False.elim (hne ⟨rfl, by simp⟩)
      | cons j t =>
        rw [at_append, made, at_append, gone]
        simp [walk, gzero, pteChild_absent]
    · exact o₁.at_put_off low here₁ _ low' hpre
  have words₂ : ∀ k' q' l', LowPath (q' ++ [l']) → q'.length = 3 →
      leafWord roots mem' k' q' l' = leafWord roots mem k' q' l' := by
    intro k' q' l' low' len'
    rw [← words₁ k' q' l' low']
    unfold leafWord
    by_cases hc : k' = k ∧ q' = q ++ [i]
    · obtain ⟨rfl, rfl⟩ := hc
      rw [made, gone]
      simp [gzero, hasBits]
    · rw [nodes₂ k' q' low'.init hc, nodes₁ k' q' low'.init]
      cases hf : at_ roots mem k' q' with
      | none => rfl
      | some f' =>
        have hne : f' ≠ f := by
          rintro rfl
          obtain ⟨-, rfl⟩ := o.unique low.init (by omega) here low'.init hf
          omega
        rw [Option.bind_some, Option.bind_some,
          show mem' f' = zeroFrame mem g f' from put_table _ i _ hne]
  refine ⟨⟨⟨?_, ?_, ?_⟩, accounts, Finset.insert_subset_insert _ o.sub⟩, made, words₂, ?_,
    inScope, clear⟩
  · intro k' q' h
    rw [Finset.mem_insert, o.forest.nodes]
    by_cases hc : k' = k ∧ q' = q ++ [i]
    · obtain ⟨rfl, rfl⟩ := hc
      rw [made, ← nodes₁ k' _ low, gone]
      simp [low, eq_comm]
    · constructor
      · rintro (h' | ⟨low', h'⟩)
        · simp only [Prod.mk.injEq] at h'
          exact False.elim (hc h'.1)
        · exact ⟨low', by rw [nodes₂ k' q' low' hc]; exact h'⟩
      · rintro ⟨low', h'⟩
        rw [nodes₂ k' q' low' hc] at h'
        exact .inr ⟨low', h'⟩
  · intro k' q' i' f' low' short' h hp
    by_cases hc : k' = k ∧ q' = q ++ [i]
    · obtain ⟨rfl, rfl⟩ := hc
      rw [made] at h
      cases h
      rw [gzero] at hp
      cases hp
    · rw [nodes₂ k' q' low'.init hc] at h
      by_cases hslot : f' = f ∧ i' = i
      · obtain ⟨rfl, rfl⟩ := hslot
        exact ⟨g, small, put_same _ _ _ _⟩
      · have hne : f' ≠ g := fun e => notG k' q' low'.init (e ▸ h)
        have hw : mem' f' i' = mem f' i' := by
          rw [show mem' f' i' = zeroFrame mem g f' i' from put_other _ _ hslot]
          simp [zeroFrame, hne]
        rw [hw] at hp ⊢
        exact o.forest.tables k' q' i' f' low' short' h hp
  · intro k' q' l' e low' len' h
    rw [words₂ k' q' l' low' len'] at h
    exact o.forest.leaves k' q' l' e low' len' h
  · intro h hg hf
    rw [show mem' h = zeroFrame mem g h from put_table _ i _ hf]
    simp [zeroFrame, hg]

end WellFormed

end Isunux
