import Isunux.Isolation
import Isunux.Sharing

/-! The loader and the kernel half. A segment's pages hold bytes of the file, so the
loader is only safe while its page tables can be allocated and while it copies no
more than the pages it asked for. -/
namespace Isunux

open Radix

/-- No guarded slot and no page in use has changed. -/
def Untouched (G : Nat → Nat → Prop) (s t : Vm) : Prop :=
  (∀ f j, G f j → t.mem f j = s.mem f j) ∧ Grown s.pmm t.pmm

section Funds

variable {G : Nat → Nat → Prop} {pml4 : Nat} {s t : Vm}

theorem Untouched.refl : Untouched G s s := ⟨fun _ _ _ => rfl, .refl _⟩

theorem Untouched.trans {u : Vm} (h : Untouched G s t) (h' : Untouched G t u) : Untouched G s u :=
  ⟨fun f j hG => (h'.1 f j hG).trans (h.1 f j hG), h.2.trans h'.2⟩

/-- `vmm_map_4k_in` with pages for the missing tables. What the page holds does not matter. -/
theorem Fenced.mapPaid (w : Fenced G pml4 s) {v : Word} (flags : Word) (d : Nat) (low : pml4Idx v < 256)
    (paid : (missing s.mem pml4 (neededTables [v])).card ≤ freeFrames s.pmm) :
    Fenced G pml4 (vmmMap4kIn s pml4 v d flags) ∧ Untouched G s (vmmMap4kIn s pml4 v d flags) ∧
      Built pml4 (neededTables [v]) s (vmmMap4kIn s pml4 v d flags) := by
  have lowLeaf := tablePath_low low
  rw [vmmMap4kIn_eq]
  rcases w.mapTables low with ⟨step, here, built⟩ | ⟨_, _, _, _, -, -, -, -, -, -, -, -, short⟩
  · obtain ⟨fenced, kept, -⟩ := step.fenced.putLeaf (pageAddr d ||| (flags ||| ptePresent)) lowLeaf rfl here
    refine ⟨fenced, ⟨fun f j hG => (kept f j hG).trans (step.kept f j hG), step.grown⟩,
      fun q lowQ few => ?_, built.pmm, built.free⟩
    dsimp only
    rw [step.fenced.put_tables _ lowLeaf.init rfl here lowQ few]
    exact built.tables q lowQ few
  · omega

end Funds

section Segments

variable {G : Nat → Nat → Prop} {pml4 : Nat} {Q : Finset (List Nat)} {s : Vm} {data : ElfData} {ph : Phdr}

def Phdr.pages (ph : Phdr) : List Word := firstPages ph.segStart ph.numPages

/-- The file bytes of the segment fit into the pages the loader asks for. -/
def Phdr.Inside (ph : Phdr) : Prop :=
  ph.offsetInFirstPage.toNat + ph.filesz.toNat ≤ ph.numPages * 4096

theorem copySegment_off (inside : ph.Inside) {phys : Nat} (mem : PhysMem) {f : Nat}
    (off : ¬ (phys ≤ f ∧ f < phys + ph.numPages)) : copySegment data ph phys mem f = mem f := by
  unfold copySegment
  refine Run.foldl_rule (fun (t : PhysMem) => t f = mem f) _ _ mem rfl fun b hb t ht => ?_
  have bound := List.mem_range.mp hb
  unfold Phdr.Inside at inside
  rw [← ht]
  apply storeByte_other
  rintro rfl
  exact off ⟨by omega, by omega⟩

theorem zeroed_off {phys n : Nat} (mem : PhysMem) {f : Nat} (off : ¬ (phys ≤ f ∧ f < phys + n)) :
    (List.range n).foldl (fun mem p => zeroFrame mem (phys + p)) mem f = mem f := by
  refine Run.foldl_rule (fun (t : PhysMem) => t f = mem f) _ _ mem rfl fun p hp t ht => ?_
  have bound := List.mem_range.mp hp
  rw [← ht, zeroFrame, Function.update_of_ne]
  rintro rfl
  exact off ⟨by omega, by omega⟩

theorem Fenced.mapFirst (w : Fenced G pml4 s) {start : Word} {n : Nat} (flags : Word) (phys : Nat)
    (low : ∀ v ∈ firstPages start n, pml4Idx v < 256)
    (paid : (missing s.mem pml4 (neededTables (firstPages start n))).card ≤ freeFrames s.pmm) :
    let t := (List.range n).foldl (fun s p => vmmMap4kIn s pml4 (pageOfRange start p) (phys + p) flags) s
    Fenced G pml4 t ∧ Untouched G s t ∧ Built pml4 (neededTables (firstPages start n)) s t := by
  refine Run.range_rule (fun i t => Fenced G pml4 t ∧ Untouched G s t ∧
    Built pml4 (neededTables (firstPages start i)) s t) _ _ s
    ⟨w, .refl, .refl fun q mem => absurd mem (Finset.notMem_empty q)⟩ ?_
  rintro p hp t ⟨wt, ut, bt⟩
  have mem : pageOfRange start p ∈ firstPages start n := List.mem_map.mpr ⟨p, List.mem_range.mpr hp, rfl⟩
  have lowP : ∀ v ∈ [pageOfRange start p], pml4Idx v < 256 := fun v hv => List.mem_singleton.mp hv ▸ low _ mem
  have lowQ : ∀ q ∈ neededTables [pageOfRange start p], LowPath q ∧ q.length ≤ 3 :=
    fun q needed => mem_neededTables_low lowP needed
  have within : neededTables (firstPages start (p + 1)) ⊆ neededTables (firstPages start n) := by
    obtain ⟨d, rfl⟩ := Nat.exists_eq_add_of_le (Nat.succ_le_of_lt hp)
    rw [firstPages_add start (p + 1) d, neededTables_append]
    exact Finset.subset_union_left
  have split : neededTables (firstPages start (p + 1)) =
      neededTables (firstPages start p) ∪ neededTables [pageOfRange start p] := by
    rw [firstPages_succ, neededTables_append]
  have cost := missing_union s.mem pml4 (neededTables (firstPages start p)) (neededTables [pageOfRange start p])
  rw [← split, ← bt.tables.missing lowQ] at cost
  have most := Finset.card_le_card (show missing s.mem pml4 (neededTables (firstPages start (p + 1))) ⊆
    missing s.mem pml4 (neededTables (firstPages start n)) from Finset.filter_subset_filter _ within)
  have free := bt.free
  obtain ⟨wt', ut', bt'⟩ := wt.mapPaid flags (phys + p) (low _ mem) (by omega)
  rw [split]
  exact ⟨wt', ut.trans ut', bt.trans bt' lowQ⟩

/-- A segment whose pages have been given, zeroed and filled, before they are mapped. -/
def filled (data : ElfData) (ph : Phdr) (s : Vm) : Vm :=
  let a := pmmAllocPages s.pmm ph.numPages
  { s with
    pmm := a.1
    mem := copySegment data ph a.2 ((List.range ph.numPages).foldl (fun mem p => zeroFrame mem (a.2 + p)) s.mem) }

theorem loadSegment_filled (ok : (pmmAllocPages s.pmm ph.numPages).2 ≠ 0) :
    loadSegment data pml4 ph s = (mapSegment pml4 ph (pmmAllocPages s.pmm ph.numPages).2 (filled data ph s), true) := by
  rw [loadSegment, if_neg ok]
  rfl

theorem filled_held (inside : ph.Inside) {f : Nat} (held : Held s.pmm f)
    (ok : (pmmAllocPages s.pmm ph.numPages).2 ≠ 0) : (filled data ph s).mem f = s.mem f := by
  rcases pmmAllocPages_cases s.pmm ph.numPages with e | ⟨start, -, bound, clear, e⟩
  · rw [e] at ok
    exact absurd rfl ok
  have off : ¬ (start ≤ f ∧ f < start + ph.numPages) := by
    intro given
    have free := clear f given.1 given.2
    rw [held (by omega)] at free
    cases free
  unfold filled
  dsimp only
  rw [e]
  dsimp only
  rw [copySegment_off inside _ off, zeroed_off _ off]

variable (data) in
theorem filled_fenced (w : Fenced G pml4 s) (inside : ph.Inside) (ok : (pmmAllocPages s.pmm ph.numPages).2 ≠ 0) :
    Fenced G pml4 (filled data ph s) ∧ Untouched G s (filled data ph s) ∧
      ∀ u, LowPath u → reach (filled data ph s).mem pml4 u = reach s.mem pml4 u := by
  have grown : Grown s.pmm (filled data ph s).pmm := pmmAllocPages_grown s.pmm ph.numPages
  have same : ∀ f, Held s.pmm f → (filled data ph s).mem f = s.mem f := fun f held => filled_held inside held ok
  have rest : ∀ f, ¬ (f ≠ 0 ∧ f < s.pmm.totalPages ∧ s.pmm.bitmap f = false ∧
      (filled data ph s).pmm.bitmap f = true) → (filled data ph s).mem f = s.mem f := by
    intro f off
    rcases pmmAllocPages_cases s.pmm ph.numPages with e | ⟨start, -, bound, clear, e⟩
    · rw [e] at ok
      exact absurd rfl ok
    have first : start ≠ 0 := by
      rw [e] at ok
      exact ok
    by_cases given : start ≤ f ∧ f < start + ph.numPages
    · refine absurd ⟨by omega, by omega, clear f given.1 given.2, ?_⟩ off
      unfold filled
      dsimp only
      rw [e]
      exact if_pos given
    · unfold filled
      dsimp only
      rw [e]
      dsimp only
      rw [copySegment_off inside _ given, zeroed_off _ given]
  obtain ⟨fence, paths⟩ := w.takePages (D := fun f => f ≠ 0 ∧ f < s.pmm.totalPages ∧ s.pmm.bitmap f = false ∧
    (filled data ph s).pmm.bitmap f = true) grown (fun _ fresh => fresh) rest
  exact ⟨fence.mono fun _ _ h => .inl h, ⟨fun f j hG => by rw [same f (w.guarded f j hG).2], grown⟩, paths⟩

theorem Fenced.loadSegment (w : Fenced G pml4 s) (data : ElfData) (low : ∀ v ∈ ph.pages, pml4Idx v < 256)
    (inside : ph.Inside) (ok : (pmmAllocPages s.pmm ph.numPages).2 ≠ 0)
    (paid : (missing s.mem pml4 (neededTables ph.pages)).card ≤ freeFrames (pmmAllocPages s.pmm ph.numPages).1) :
    let t := (loadSegment data pml4 ph s).1
    Fenced G pml4 t ∧ Untouched G s t ∧ AddsTables pml4 (neededTables ph.pages) s.mem t.mem ∧
      t.pmm = afterPages (pmmAllocPages s.pmm ph.numPages).1 (missing s.mem pml4 (neededTables ph.pages)).card := by
  rw [loadSegment_filled ok]
  obtain ⟨fence, untouched, paths⟩ := filled_fenced data w inside ok
  have same : missing (filled data ph s).mem pml4 (neededTables ph.pages) = missing s.mem pml4 (neededTables ph.pages) :=
    Finset.filter_congr fun u mem => by rw [paths u (mem_neededTables_low low mem).1]
  obtain ⟨fence', untouched', built⟩ := fence.mapFirst
    (if hasBits ph.flags pfW then pteUser ||| pteWrite else pteUser) (pmmAllocPages s.pmm ph.numPages).2 low (by
      rw [Phdr.pages] at same paid
      rw [same]
      exact paid)
  refine ⟨fence', untouched.trans untouched', fun q lowQ few => ?_, ?_⟩
  · rw [← paths q lowQ]
    exact built.tables q lowQ few
  · rw [← same]
    exact built.pmm

/-- Whether the loader can touch the kernel half from header `i` on, `n` headers being left,
where `p` is the allocator and `Q` are the tables made so far. Each segment whose pages can
be given must be low, bring no more bytes than it has pages for, and leave pages for the
tables it misses. -/
def SegmentsSafe (mem : PhysMem) (pml4 : Nat) (data : ElfData) : Nat → Nat → Pmm → Finset (List Nat) → Prop
  | 0, _, _, _ => True
  | n + 1, i, p, Q =>
    let ph := phdr data i
    let a := pmmAllocPages p ph.numPages
    let k := (missing mem pml4 (neededTables ph.pages) \ Q).card
    if ph.type ≠ ptLoad ∨ ph.memsz = 0#64 then SegmentsSafe mem pml4 data n (i + 1) p Q
    else a.2 ≠ 0 → ((∀ v ∈ ph.pages, pml4Idx v < 256) ∧ ph.Inside ∧ k ≤ freeFrames a.1) ∧
      SegmentsSafe mem pml4 data n (i + 1) (afterPages a.1 k) (Q ∪ neededTables ph.pages)

theorem loadSegments_untouched {mem : PhysMem} {i n : Nat} {st : ElfProgress} (w : Fenced G pml4 st.vm)
    (tables : AddsTables pml4 Q mem st.vm.mem) (safe : SegmentsSafe mem pml4 data n i st.vm.pmm Q) :
    Untouched G st.vm (loadSegments data pml4 n i st).1.vm := by
  induction n generalizing i st Q with
  | zero => exact .refl
  | succ n ih =>
    rw [loadSegments]
    rw [SegmentsSafe] at safe
    generalize phdr data i = ph at safe ⊢
    dsimp only at safe ⊢
    by_cases skipped : ph.type ≠ ptLoad ∨ ph.memsz = 0#64
    · rw [if_pos skipped] at safe ⊢
      exact ih w tables safe
    · rw [if_neg skipped] at safe ⊢
      by_cases failed : (pmmAllocPages st.vm.pmm ph.numPages).2 = 0
      · have stopped : loadSegment data pml4 ph st.vm =
            ({ st.vm with pmm := (pmmAllocPages st.vm.pmm ph.numPages).1 }, false) := by
          rw [Isunux.loadSegment, if_pos failed]
        rw [stopped]
        exact ⟨fun _ _ _ => rfl, pmmAllocPages_grown _ _⟩
      · have going : (loadSegment data pml4 ph st.vm).2 = true := by rw [loadSegment_filled failed]
        obtain ⟨⟨low, inside, paid⟩, rest⟩ := safe failed
        rw [← tables.missing fun q mem => mem_neededTables_low low mem] at paid rest
        obtain ⟨w', u', t', p'⟩ := w.loadSegment data low inside failed paid
        rw [← p'] at rest
        rw [if_pos going]
        generalize Isunux.loadSegment data pml4 ph st.vm = r at w' u' t' rest ⊢
        exact u'.trans (@ih _ _ ⟨r.1, _, _⟩ w' (tables.trans t') rest)

end Segments

section Isolation

variable {spaces : Nat → Prop} {pml4 : Nat} {s : Vm}

/-- A file that can be loaded without touching the kernel half. -/
def ImageSafe (s : Vm) (pml4 : Nat) (data : ElfData) : Prop :=
  SegmentsSafe s.mem pml4 data (ePhnum data) 0 s.pmm ∅

theorem elfLoad_kept (apart : KernelApart spaces pml4 s) (data : ElfData) (size : Word)
    (safe : elfAccepted data size = true → ImageSafe s pml4 data) :
    KernelHalfKept spaces pml4 s (elfLoad s pml4 data size).1 := by
  unfold elfLoad
  split
  · rename_i accepted
    have untouched : Untouched (Guarded s.mem spaces) s
        (loadSegments data pml4 (ePhnum data) 0 ⟨s, 0#64, 0#64⟩).1.vm :=
      loadSegments_untouched apart.fenced (fun q _ _ => ⟨fun gone => ⟨gone, Finset.notMem_empty q⟩, fun h => h.1⟩)
        (safe accepted)
    exact .of_kept untouched.1 untouched.2.pagesKept
  · exact .refl

/-- The accounted address spaces are such a state, with the kernel's own tables
outside what the allocator hands out to processes. -/
theorem Sound.kernelApart {K : Type*} {scope : Nat → Prop} {roots : K → Option Nat}
    {L : Finset (Ref K × Nat)} (w : Sound scope roots s L) {k : K} (root : roots k = some pml4)
    (zero : Held s.pmm 0) (kernel : s.kernelPml4 ≠ 0 ∧ ¬ scope s.kernelPml4)
    (tables : ∀ r n f, (∃ k, roots k = some r) ∨ r = s.kernelPml4 → HighTable s.mem r n f →
      f ≠ 0 ∧ ¬ scope f) :
    KernelApart (fun r => (∃ k, roots k = some r) ∨ r = s.kernelPml4) pml4 s := by
  have o := w.owned
  have at_eq : ∀ q, at_ roots s.mem k q = reach s.mem pml4 q := by
    intro q
    simp [at_, node, root]
  have rootMem : ∀ k r, roots k = some r → ((k, []), r) ∈ L := by
    intro k r hr
    exact o.mem_of_at .nil (by rw [at_, node_root]; exact hr)
  have mine : ∀ q f, LowPath q → reach s.mem pml4 q = some f → ((k, q), f) ∈ L :=
    fun q f low here => o.mem_of_at low (by rw [at_eq q]; exact here)
  have known : ∀ r f, (r, f) ∈ L → f ≠ 0 ∧ Held s.pmm f ∧ scope f := by
    intro r f hf
    have inScope := o.accounts.balanced.within _ hf
    exact ⟨(o.accounts.tracked f inScope).2, fun _ => o.accounts.used hf, inScope⟩
  have outside : ∀ f, f ≠ 0 → ¬ scope f → Held s.pmm f :=
    fun f nonzero out bound => o.accounts.outside f bound nonzero out
  refine ⟨.inl ⟨k, root⟩, ⟨zero, ?_, ?_, ?_, ?_, ?_⟩⟩
  · rintro f j ⟨-, ⟨⟨k', hk⟩ | rfl, -⟩ | ⟨r, n, hr, high⟩⟩
    · exact ⟨(known _ f (rootMem k' f hk)).1, (known _ f (rootMem k' f hk)).2.1⟩
    · exact ⟨kernel.1, outside _ kernel.1 kernel.2⟩
    · obtain ⟨nonzero, out⟩ := tables r n f hr high
      exact ⟨nonzero, outside f nonzero out⟩
  · exact ⟨(known _ pml4 (rootMem k pml4 root)).1, (known _ pml4 (rootMem k pml4 root)).2.1⟩
  · rintro i hi ⟨-, ⟨-, high⟩ | ⟨r, n, hr, high⟩⟩
    · omega
    · exact (tables r n pml4 hr high).2 (known _ pml4 (rootMem k pml4 root)).2.2
  · intro q f low nonroot short here
    have mem := mine q f low here
    refine ⟨(known _ f mem).1, (known _ f mem).2.1, ?_⟩
    rintro j ⟨-, ⟨⟨k', hk⟩ | rfl, -⟩ | ⟨r, n, hr, high⟩⟩
    · have same := o.accounts.balanced.unique mem (rootMem k' f hk) short
      exact nonroot (congrArg Prod.snd same)
    · exact kernel.2 (known _ _ mem).2.2
    · exact (tables r n f hr high).2 (known _ f mem).2.2
  · intro q q' f low low' short short' here here'
    exact congrArg Prod.snd (o.accounts.balanced.unique (mine q f low here) (mine q' f low' here') short)

end Isolation

end Isunux
