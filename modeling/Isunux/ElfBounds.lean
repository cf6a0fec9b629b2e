import Isunux.Loading
import Isunux.OutOfMemory

/-! Which bytes `elf_load` touches. The file is the first `size` bytes behind a
pointer and a segment's buffer is as long as its pages; neither the offsets of a
program header nor its sizes are compared with them. Up to the first access out of
bounds no write reaches the file's own buffer, so the file can be read as a constant. -/
namespace Isunux

open Radix

/-- A byte read from the file, or one written through the buffer of a segment that
was given `pages` pages. -/
inductive Access where
  | read (i : Word)
  | write (i : Word) (pages : Nat)
deriving DecidableEq

def Access.InBounds (size : Word) : Access → Prop
  | .read i => i < size
  | .write i pages => i.toNat < pages * 4096

instance (size : Word) : DecidablePred (Access.InBounds size)
  | .read i => inferInstanceAs (Decidable (i < size))
  | .write i pages => inferInstanceAs (Decidable (i.toNat < pages * 4096))

def readField (at_ : Word) (n : Nat) : List Access :=
  (List.range n).map fun k => .read (at_ + BitVec.ofNat 64 k)

/-- The comparison with the magic bytes stops at the first that differs. -/
def magicAccesses (data : ElfData) : List Access :=
  .read 0#64 :: if data 0#64 ≠ 0x7f then [] else
    .read 1#64 :: if data 1#64 ≠ 0x45 then [] else
      .read 2#64 :: if data 2#64 ≠ 0x4c then [] else [.read 3#64]

/-- The checks of the file's header, in order. -/
def headerAccesses (data : ElfData) (size : Word) : List Access :=
  if size < 64#64 then [] else
    magicAccesses data ++
      if data 0#64 ≠ 0x7f ∨ data 1#64 ≠ 0x45 ∨ data 2#64 ≠ 0x4c ∨ data 3#64 ≠ 0x46 then [] else
        readField 4#64 1 ++ if data 4#64 ≠ 2 then [] else
          readField 18#64 2 ++ if field data 18#64 2 ≠ 0x3e then [] else
            readField 32#64 8 ++ readField 56#64 2 ++ readField 54#64 2

/-- Where program header `i` is. -/
def phdrAt (data : ElfData) (i : Nat) : Word := ePhoff data + BitVec.ofNat 64 (i * ePhentsize data)

/-- `k_memset` and the copy loop, with the header's fields that each round reads again,
and the flags. -/
def segmentAccesses (data : ElfData) (i : Nat) : List Access :=
  let ph := phdr data i
  let at_ := phdrAt data i
  (List.range (ph.numPages * 4096)).map (fun b => .write (BitVec.ofNat 64 b) ph.numPages) ++
    (List.range ph.filesz.toNat).flatMap (fun b =>
      readField (at_ + 32#64) 8 ++ readField (at_ + 8#64) 8 ++
        [.read (ph.offset + BitVec.ofNat 64 b),
          .write (ph.offsetInFirstPage + BitVec.ofNat 64 b) ph.numPages]) ++
    readField (at_ + 32#64) 8 ++ readField (at_ + 4#64) 4

/-- The segment loop over `n` headers from `i` on. -/
def loadAccesses (data : ElfData) (pml4 : Nat) : Nat → Nat → Vm → List Access
  | 0, _, _ => readField 56#64 2
  | n + 1, i, s =>
    let ph := phdr data i
    let at_ := phdrAt data i
    readField 56#64 2 ++ readField 32#64 8 ++ readField 54#64 2 ++ readField at_ 4 ++
      if ph.type ≠ ptLoad then loadAccesses data pml4 n (i + 1) s
      else
        readField (at_ + 40#64) 8 ++
          if ph.memsz = 0#64 then loadAccesses data pml4 n (i + 1) s
          else
            readField (at_ + 8#64) 8 ++ readField (at_ + 16#64) 8 ++
              let r := loadSegment data pml4 ph s
              if r.2 then segmentAccesses data i ++ loadAccesses data pml4 n (i + 1) r.1 else []

/-- All that `elf_load` touches, up to the fields it hands back. -/
def elfAccesses (s : Vm) (pml4 : Nat) (data : ElfData) (size : Word) : List Access :=
  headerAccesses data size ++
    if elfAccepted data size then
      loadAccesses data pml4 (ePhnum data) 0 s ++
        if (elfLoad s pml4 data size).2.isSome then
          readField 24#64 8 ++ readField 54#64 2 ++ readField 56#64 2 else []
    else []

/-- A header whose segment is loaded. -/
def Phdr.Loaded (ph : Phdr) : Prop := ph.type = ptLoad ∧ ph.memsz ≠ 0#64

instance (ph : Phdr) : Decidable ph.Loaded := inferInstanceAs (Decidable (_ ∧ _))

/-- How many pages the segments before header `i` take. -/
def pagesBefore (data : ElfData) : Nat → Nat
  | 0 => 0
  | i + 1 => pagesBefore data i + if (phdr data i).Loaded then (phdr data i).numPages else 0

/-- The allocator could give every segment before header `i` its pages, if it
had all the memory it can manage. Page 0 is never handed out. -/
def Loadable (data : ElfData) (i : Nat) : Prop :=
  (∀ j < i, (phdr data j).Loaded → 0 < (phdr data j).numPages) ∧ pagesBefore data i < maxPages

/-- The `n` bytes from `at_` on are bytes of the file. -/
def FieldIn (size at_ : Word) (n : Nat) : Prop := ∀ k < n, at_ + BitVec.ofNat 64 k < size

/-- What is read of header `i` before its segment is given pages. -/
structure HeaderFits (data : ElfData) (size : Word) (i : Nat) : Prop where
  type : FieldIn size (phdrAt data i) 4
  memsz : (phdr data i).type = ptLoad → FieldIn size (phdrAt data i + 40#64) 8
  place : (phdr data i).Loaded →
    FieldIn size (phdrAt data i + 8#64) 8 ∧ FieldIn size (phdrAt data i + 16#64) 8

/-- The rest of header `i`, and the bytes of its segment: they lie in the file and in
the segment's pages. -/
structure SegmentFits (data : ElfData) (size : Word) (i : Nat) : Prop where
  filesz : FieldIn size (phdrAt data i + 32#64) 8
  flags : FieldIn size (phdrAt data i + 4#64) 4
  bytes : (phdr data i).filesz = 0#64 ∨
    (phdr data i).offset.toNat + (phdr data i).filesz.toNat ≤ size.toNat
  pages : (phdr data i).Inside

/-- A file with nothing wrong in its program headers. -/
structure WellFormedElf (data : ElfData) (size : Word) : Prop where
  entsize : ePhnum data = 0 ∨ 56 ≤ ePhentsize data
  headers : ∀ i < ePhnum data, HeaderFits data size i
  segments : ∀ i < ePhnum data, (phdr data i).Loaded → SegmentFits data size i
  sizes : ∀ i < ePhnum data, (phdr data i).Loaded → (phdr data i).filesz ≤ (phdr data i).memsz

/-- In every memory `elf_load` stays inside the file and inside the segments' pages,
and it rejects what is not well-formed. -/
def StaysInBounds (data : ElfData) (size : Word) : Prop :=
  ∀ s pml4, (∀ a ∈ elfAccesses s pml4 data size, a.InBounds size) ∧
    (¬ WellFormedElf data size → (elfLoad s pml4 data size).2 = none)

/-- What has to be right for that: the headers the loader can come to, the segments it
can load and, when it can load all of them, the whole file. -/
structure HarmlessElf (data : ElfData) (size : Word) : Prop where
  headers : ∀ i < ePhnum data, Loadable data i → HeaderFits data size i
  segments : ∀ i < ePhnum data, Loadable data (i + 1) → (phdr data i).Loaded → SegmentFits data size i
  whole : Loadable data (ePhnum data) → WellFormedElf data size

section Fields

variable {size at_ x : Word} {n : Nat} {data : ElfData}

theorem readField_inBounds : (∀ a ∈ readField at_ n, a.InBounds size) ↔ FieldIn size at_ n := by
  simp only [readField, List.mem_map, List.mem_range, forall_exists_index, and_imp,
    forall_apply_eq_imp_iff₂]
  rfl

theorem fieldIn_header (large : ¬ size < 64#64) (inside : x.toNat + n ≤ 64) : FieldIn size x n := by
  intro k small
  rw [BitVec.lt_def] at large ⊢
  have here : (x + BitVec.ofNat 64 k).toNat = x.toNat + k := by
    rw [BitVec.toNat_add, BitVec.toNat_ofNat]
    omega
  rw [here]
  have : (64#64).toNat = 64 := rfl
  omega

theorem fieldIn_iff (small : n < 2 ^ 64) : FieldIn size x n ↔ n = 0 ∨ x.toNat + n ≤ size.toNat := by
  have bound := size.isLt
  constructor
  · intro inside
    by_contra outside
    push Not at outside
    -- the first byte past the end of the file, or the very first one
    have here : (x + BitVec.ofNat 64 (size.toNat - x.toNat)).toNat = x.toNat + (size.toNat - x.toNat) := by
      rw [BitVec.toNat_add, BitVec.toNat_ofNat]
      have := x.isLt
      omega
    have low := inside (size.toNat - x.toNat) (by omega)
    rw [BitVec.lt_def, here] at low
    omega
  · intro inside k low
    have here : (x + BitVec.ofNat 64 k).toNat = x.toNat + k := by
      rw [BitVec.toNat_add, BitVec.toNat_ofNat]
      omega
    rw [BitVec.lt_def, here]
    omega

theorem headerAccesses_inBounds (data : ElfData) (size : Word) :
    ∀ a ∈ headerAccesses data size, a.InBounds size := by
  unfold headerAccesses
  split
  · exact fun a mem => by cases mem
  · rename_i large
    have fixed : ∀ (x : Word) (n : Nat), x.toNat + n ≤ 64 → ∀ a ∈ readField x n, a.InBounds size :=
      fun x n inside => readField_inBounds.mpr (fieldIn_header large inside)
    have magic : ∀ a ∈ magicAccesses data, a.InBounds size := by
      intro a mem
      have four : a ∈ readField 0#64 4 := by
        revert mem
        unfold magicAccesses
        split_ifs <;> simp +decide [readField, List.range_succ] <;> tauto
      exact fixed 0#64 4 (by decide) a four
    intro a mem
    rcases List.mem_append.mp mem with mem | mem
    · exact magic a mem
    split at mem
    · cases mem
    rcases List.mem_append.mp mem with mem | mem
    · exact fixed _ _ (by decide) a mem
    split at mem
    · cases mem
    rcases List.mem_append.mp mem with mem | mem
    · exact fixed _ _ (by decide) a mem
    split at mem
    · cases mem
    rcases List.mem_append.mp mem with mem | mem
    · rcases List.mem_append.mp mem with mem | mem
      · exact fixed _ _ (by decide) a mem
      · exact fixed _ _ (by decide) a mem
    · exact fixed _ _ (by decide) a mem

end Fields

section Segments

variable {data : ElfData} {size : Word} {i : Nat} {ph : Phdr}

theorem Phdr.offsetInFirstPage_toNat (ph : Phdr) : ph.offsetInFirstPage.toNat = ph.vaddr.toNat % 4096 := by
  have start : ph.segStart.toNat = ph.vaddr.toNat / 4096 * 4096 := mask_page_toNat ph.vaddr
  have bound := ph.vaddr.isLt
  rw [Phdr.offsetInFirstPage, BitVec.toNat_sub, start]
  omega

theorem Phdr.numPages_le (ph : Phdr) : ph.numPages * 4096 < 2 ^ 64 := by
  have bound := (ph.segEnd - ph.segStart).isLt
  unfold Phdr.numPages
  omega

theorem Phdr.inside_iff (sized : 0 < ph.numPages) :
    ph.Inside ↔ ∀ b < ph.filesz.toNat,
      (ph.offsetInFirstPage + BitVec.ofNat 64 b).toNat < ph.numPages * 4096 := by
  have first := ph.offsetInFirstPage_toNat
  have total := ph.numPages_le
  unfold Phdr.Inside
  constructor
  · intro inside b low
    have here : (ph.offsetInFirstPage + BitVec.ofNat 64 b).toNat = ph.offsetInFirstPage.toNat + b := by
      rw [BitVec.toNat_add, BitVec.toNat_ofNat]
      omega
    omega
  · intro inside
    by_contra outside
    -- the first byte behind the pages
    have here : (ph.offsetInFirstPage +
        BitVec.ofNat 64 (ph.numPages * 4096 - ph.offsetInFirstPage.toNat)).toNat = ph.numPages * 4096 := by
      rw [BitVec.toNat_add, BitVec.toNat_ofNat]
      omega
    have low := inside (ph.numPages * 4096 - ph.offsetInFirstPage.toNat) (by omega)
    omega

theorem segmentAccesses_inBounds (fits : SegmentFits data size i)
    (place : FieldIn size (phdrAt data i + 8#64) 8) (sized : 0 < (phdr data i).numPages) :
    ∀ a ∈ segmentAccesses data i, a.InBounds size := by
  have total := (phdr data i).numPages_le
  have copied := (Phdr.inside_iff sized).mp fits.pages
  have read : FieldIn size (phdr data i).offset (phdr data i).filesz.toNat := by
    refine (fieldIn_iff (phdr data i).filesz.isLt).mpr ?_
    rcases fits.bytes with none | inFile
    · exact .inl (by rw [none]; rfl)
    · exact .inr inFile
  intro a mem
  simp only [segmentAccesses, List.mem_append] at mem
  rcases mem with ((mem | mem) | mem) | mem
  · obtain ⟨b, low, rfl⟩ := List.mem_map.mp mem
    have low := List.mem_range.mp low
    show (BitVec.ofNat 64 b).toNat < _
    rw [BitVec.toNat_ofNat]
    omega
  · obtain ⟨b, low, mem⟩ := List.mem_flatMap.mp mem
    have low := List.mem_range.mp low
    simp only [List.mem_append, List.mem_cons, List.not_mem_nil, or_false] at mem
    rcases mem with (mem | mem) | rfl | rfl
    · exact readField_inBounds.mpr fits.filesz a mem
    · exact readField_inBounds.mpr place a mem
    · exact read b low
    · exact copied b low
  · exact readField_inBounds.mpr fits.filesz a mem
  · exact readField_inBounds.mpr fits.flags a mem

theorem SegmentFits.of_inBounds (inBounds : ∀ a ∈ segmentAccesses data i, a.InBounds size)
    (sized : 0 < (phdr data i).numPages) : SegmentFits data size i := by
  simp only [segmentAccesses, List.mem_append] at inBounds
  have copied : ∀ b < (phdr data i).filesz.toNat, ∀ a ∈ [
      Access.read ((phdr data i).offset + BitVec.ofNat 64 b),
      Access.write ((phdr data i).offsetInFirstPage + BitVec.ofNat 64 b) (phdr data i).numPages],
      a.InBounds size := by
    intro b low a mem
    exact inBounds a (.inl (.inl (.inr (List.mem_flatMap.mpr
      ⟨b, List.mem_range.mpr low, List.mem_append_right _ mem⟩))))
  have read : FieldIn size (phdr data i).offset (phdr data i).filesz.toNat :=
    fun b low => copied b low _ List.mem_cons_self
  refine ⟨readField_inBounds.mp fun a mem => inBounds a (.inl (.inr mem)),
    readField_inBounds.mp fun a mem => inBounds a (.inr mem), ?_, ?_⟩
  · rcases (fieldIn_iff (phdr data i).filesz.isLt).mp read with none | inFile
    · exact .inl (BitVec.eq_of_toNat_eq none)
    · exact .inr inFile
  · exact (Phdr.inside_iff sized).mpr fun b low =>
      copied b low _ (List.mem_cons_of_mem _ List.mem_cons_self)

/-- What the loader touches of a header before it asks for the segment's pages. -/
def leadAccesses (data : ElfData) (i : Nat) : List Access :=
  readField 56#64 2 ++ readField 32#64 8 ++ readField 54#64 2 ++ readField (phdrAt data i) 4 ++
    (if (phdr data i).type = ptLoad then readField (phdrAt data i + 40#64) 8 else []) ++
    if (phdr data i).Loaded then
      readField (phdrAt data i + 8#64) 8 ++ readField (phdrAt data i + 16#64) 8 else []

theorem leadAccesses_inBounds (large : ¬ size < 64#64) :
    (∀ a ∈ leadAccesses data i, a.InBounds size) ↔ HeaderFits data size i := by
  have fixed : ∀ (x : Word) (n : Nat), x.toNat + n ≤ 64 → ∀ a ∈ readField x n, a.InBounds size :=
    fun x n inside => readField_inBounds.mpr (fieldIn_header large inside)
  have plain := fixed 56#64 2 (by decide)
  have plain' := fixed 32#64 8 (by decide)
  have plain'' := fixed 54#64 2 (by decide)
  simp only [leadAccesses, List.forall_mem_append]
  constructor
  · rintro ⟨⟨⟨-, type⟩, memsz⟩, place⟩
    refine ⟨readField_inBounds.mp type, fun load => ?_, fun loaded => ?_⟩
    · rw [if_pos load] at memsz
      exact readField_inBounds.mp memsz
    · rw [if_pos loaded, List.forall_mem_append] at place
      exact ⟨readField_inBounds.mp place.1, readField_inBounds.mp place.2⟩
  · intro fits
    refine ⟨⟨⟨⟨⟨plain, plain'⟩, plain''⟩, readField_inBounds.mpr fits.type⟩, ?_⟩, ?_⟩
    · split
      · rename_i load
        exact readField_inBounds.mpr (fits.memsz load)
      · exact fun a mem => by cases mem
    · split
      · rename_i loaded
        exact List.forall_mem_append.mpr ⟨readField_inBounds.mpr (fits.place loaded).1,
          readField_inBounds.mpr (fits.place loaded).2⟩
      · exact fun a mem => by cases mem

theorem loadAccesses_succ (data : ElfData) (pml4 n i : Nat) (s : Vm) :
    loadAccesses data pml4 (n + 1) i s = leadAccesses data i ++
      if (phdr data i).Loaded then
        if (loadSegment data pml4 (phdr data i) s).2 then
          segmentAccesses data i ++
            loadAccesses data pml4 n (i + 1) (loadSegment data pml4 (phdr data i) s).1
        else []
      else loadAccesses data pml4 n (i + 1) s := by
  rw [loadAccesses, leadAccesses]
  by_cases load : (phdr data i).type = ptLoad
  · by_cases empty : (phdr data i).memsz = 0#64
    · have skipped : ¬ (phdr data i).Loaded := fun loaded => loaded.2 empty
      simp [load, empty, skipped]
    · have loaded : (phdr data i).Loaded := ⟨load, empty⟩
      simp [load, empty, loaded]
  · have skipped : ¬ (phdr data i).Loaded := fun loaded => load loaded.1
    simp [load, skipped]

theorem not_loaded_iff : ¬ ph.Loaded ↔ ph.type ≠ ptLoad ∨ ph.memsz = 0#64 := by
  rw [Phdr.Loaded, not_and_or, not_not]

/-- What the loop keeps after a segment was loaded. -/
def ElfProgress.past (st : ElfProgress) (data : ElfData) (ph : Phdr) (s : Vm) : ElfProgress where
  vm := s
  highestEnd := if st.highestEnd < ph.segEnd then ph.segEnd else st.highestEnd
  phdrVaddr := if ph.offset = 0#64 then ph.vaddr + ePhoff data else st.phdrVaddr

variable {pml4 n : Nat} {st : ElfProgress}

theorem loadSegments_skipped (skipped : ¬ (phdr data i).Loaded) :
    loadSegments data pml4 (n + 1) i st = loadSegments data pml4 n (i + 1) st := by
  rw [loadSegments]
  dsimp only
  rw [if_pos (not_loaded_iff.mp skipped)]

theorem loadSegments_loaded (loaded : (phdr data i).Loaded)
    (ok : (loadSegment data pml4 (phdr data i) st.vm).2 = true) :
    loadSegments data pml4 (n + 1) i st = loadSegments data pml4 n (i + 1)
      (st.past data (phdr data i) (loadSegment data pml4 (phdr data i) st.vm).1) := by
  rw [loadSegments]
  dsimp only
  rw [if_neg fun skipped => not_loaded_iff.mpr skipped loaded, if_pos ok]
  rfl

theorem loadSegments_failed (loaded : (phdr data i).Loaded)
    (failed : (loadSegment data pml4 (phdr data i) st.vm).2 = false) :
    loadSegments data pml4 (n + 1) i st =
      ({ st.past data (phdr data i) (loadSegment data pml4 (phdr data i) st.vm).1 with
          highestEnd := st.highestEnd }, false) := by
  rw [loadSegments]
  dsimp only
  rw [if_neg fun skipped => not_loaded_iff.mpr skipped loaded, if_neg (by rw [failed]; decide),
    ElfProgress.past]

end Segments

section Harmless

variable {data : ElfData} {size : Word} {pml4 n i : Nat} {s : Vm} {ph : Phdr}

/-- The pages of the segments before header `i` are taken, none of them page 0. -/
structure TakenBefore (data : ElfData) (i : Nat) (s : Vm) (D : Finset Nat) : Prop where
  sized : ∀ j < i, (phdr data j).Loaded → 0 < (phdr data j).numPages
  card : D.card = pagesBefore data i
  used : ∀ f ∈ D, 0 < f ∧ f < s.pmm.totalPages ∧ s.pmm.bitmap f = true

theorem TakenBefore.loadable {D : Finset Nat} (h : TakenBefore data i s D) : Loadable data i := by
  refine ⟨h.sized, ?_⟩
  have inside : D ⊆ Finset.Ico 1 maxPages := by
    intro f mem
    obtain ⟨positive, bound, -⟩ := h.used f mem
    exact Finset.mem_Ico.mpr ⟨positive, Nat.lt_of_lt_of_le bound s.pmm.total_le⟩
  have few := Finset.card_le_card inside
  rw [h.card, Nat.card_Ico] at few
  have : 0 < maxPages := by decide
  omega

theorem pagesBefore_loaded (loaded : (phdr data i).Loaded) :
    pagesBefore data (i + 1) = pagesBefore data i + (phdr data i).numPages := by
  rw [pagesBefore, if_pos loaded]

theorem pagesBefore_skipped (skipped : ¬ (phdr data i).Loaded) :
    pagesBefore data (i + 1) = pagesBefore data i := by
  rw [pagesBefore, if_neg skipped, Nat.add_zero]

theorem TakenBefore.skip {D : Finset Nat} (h : TakenBefore data i s D) (skipped : ¬ (phdr data i).Loaded) :
    TakenBefore data (i + 1) s D where
  sized j low loaded := by
    rcases Nat.lt_succ_iff_lt_or_eq.mp low with low | rfl
    · exact h.sized j low loaded
    · exact absurd loaded skipped
  card := by rw [h.card, pagesBefore_skipped skipped]
  used := h.used

theorem mapSegment_grown (pml4 : Nat) (ph : Phdr) (phys : Nat) (s : Vm) :
    Grown s.pmm (mapSegment pml4 ph phys s).pmm := by
  unfold mapSegment
  refine Run.foldl_rule (fun t : Vm => Grown s.pmm t.pmm) _ _ s (.refl _) fun p _ t grown => ?_
  rw [vmmMap4kIn_eq, mapTables_along]
  exact grown.trans (tablesAlong_grown _ _ _)

theorem loadSegment_grown (data : ElfData) (pml4 : Nat) (ph : Phdr) (s : Vm) :
    Grown s.pmm (loadSegment data pml4 ph s).1.pmm := by
  have block := pmmAllocPages_grown s.pmm ph.numPages
  unfold loadSegment
  dsimp only
  by_cases failed : (pmmAllocPages s.pmm ph.numPages).2 = 0
  · rw [if_pos failed]
    exact block
  · rw [if_neg failed]
    refine block.trans ?_
    exact mapSegment_grown pml4 ph _ { s with pmm := (pmmAllocPages s.pmm ph.numPages).1, mem := _ }

theorem loadSegments_grown (data : ElfData) (pml4 n i : Nat) (st : ElfProgress) :
    Grown st.vm.pmm (loadSegments data pml4 n i st).1.vm.pmm := by
  induction n generalizing i st with
  | zero => exact .refl _
  | succ n ih =>
    by_cases loaded : (phdr data i).Loaded
    · have here := loadSegment_grown data pml4 (phdr data i) st.vm
      cases ok : (loadSegment data pml4 (phdr data i) st.vm).2 with
      | true =>
        rw [loadSegments_loaded loaded ok]
        exact here.trans (ih _ (st.past data (phdr data i) _))
      | false =>
        rw [loadSegments_failed loaded ok]
        exact here
    · rw [loadSegments_skipped loaded]
      exact ih _ _

theorem elfLoad_grown (s : Vm) (pml4 : Nat) (data : ElfData) (size : Word) :
    Grown s.pmm (elfLoad s pml4 data size).1.pmm := by
  unfold elfLoad
  cases elfAccepted data size with
  | true => exact loadSegments_grown _ _ _ _ ⟨s, _, _⟩
  | false => exact .refl _

theorem loadSegment_taken (ok : (loadSegment data pml4 ph s).2 = true) :
    ∃ start, start ≠ 0 ∧ 0 < ph.numPages ∧ start + ph.numPages ≤ s.pmm.totalPages ∧
      (∀ f, start ≤ f → f < start + ph.numPages → s.pmm.bitmap f = false) ∧
      (∀ f, start ≤ f → f < start + ph.numPages →
        (loadSegment data pml4 ph s).1.pmm.bitmap f = true) ∧
      Grown s.pmm (loadSegment data pml4 ph s).1.pmm := by
  unfold loadSegment at ok ⊢
  dsimp only at ok ⊢
  by_cases failed : (pmmAllocPages s.pmm ph.numPages).2 = 0
  · rw [if_pos failed] at ok
    cases ok
  rw [if_neg failed]
  have grown := pmmAllocPages_grown s.pmm ph.numPages
  have mapped := fun mem => mapSegment_grown pml4 ph (pmmAllocPages s.pmm ph.numPages).2
    { s with pmm := (pmmAllocPages s.pmm ph.numPages).1, mem := mem }
  rcases pmmAllocPages_cases s.pmm ph.numPages with e | ⟨start, sized, bound, clear, e⟩
  · rw [e] at failed
    exact absurd rfl failed
  have first : (pmmAllocPages s.pmm ph.numPages).2 = start := by rw [e]
  refine ⟨start, by rwa [first] at failed, sized, bound, clear, fun f lo hi => ?_,
    grown.trans (mapped _)⟩
  refine ((mapped _).used f ?_).1
  rw [e]
  exact if_pos ⟨lo, hi⟩

theorem TakenBefore.load {D : Finset Nat} (h : TakenBefore data i s D) (loaded : (phdr data i).Loaded)
    (ok : (loadSegment data pml4 (phdr data i) s).2 = true) :
    ∃ D', TakenBefore data (i + 1) (loadSegment data pml4 (phdr data i) s).1 D' := by
  obtain ⟨start, nonzero, sized, bound, clear, used, grown⟩ := loadSegment_taken ok
  have apart : Disjoint D (Finset.Ico start (start + (phdr data i).numPages)) := by
    rw [Finset.disjoint_left]
    intro f mem new
    rw [Finset.mem_Ico] at new
    have set := (h.used f mem).2.2
    rw [clear f new.1 new.2] at set
    cases set
  refine ⟨D ∪ Finset.Ico start (start + (phdr data i).numPages), ⟨fun j low loaded => ?_, ?_, ?_⟩⟩
  · rcases Nat.lt_succ_iff_lt_or_eq.mp low with low | rfl
    · exact h.sized j low loaded
    · exact sized
  · rw [Finset.card_union_of_disjoint apart, h.card, Nat.card_Ico, pagesBefore_loaded loaded]
    omega
  · intro f mem
    rw [grown.total]
    rcases Finset.mem_union.mp mem with old | new
    · obtain ⟨positive, bound, set⟩ := h.used f old
      exact ⟨positive, bound, (grown.used f set).1⟩
    · rw [Finset.mem_Ico] at new
      exact ⟨by omega, by omega, used f new.1 new.2⟩

theorem HarmlessElf.loop (h : HarmlessElf data size) (large : ¬ size < 64#64)
    (rest : i + n = ePhnum data) {D : Finset Nat} (taken : TakenBefore data i s D) :
    (∀ a ∈ loadAccesses data pml4 n i s, a.InBounds size) ∧
      ∀ st : ElfProgress, st.vm = s → (loadSegments data pml4 n i st).2 = true →
        Loadable data (ePhnum data) := by
  induction n generalizing i s D with
  | zero =>
    refine ⟨readField_inBounds.mpr (fieldIn_header large (by decide)), fun st _ _ => ?_⟩
    rw [← rest]
    exact taken.loadable
  | succ n ih =>
    have lead := (leadAccesses_inBounds large).mpr (h.headers i (by omega) taken.loadable)
    rw [loadAccesses_succ]
    by_cases loaded : (phdr data i).Loaded
    · rw [if_pos loaded]
      cases ok : (loadSegment data pml4 (phdr data i) s).2 with
      | true =>
        obtain ⟨D', taken'⟩ := taken.load loaded ok
        obtain ⟨later, done⟩ := ih (by omega) taken'
        have fits := h.segments i (by omega) taken'.loadable loaded
        have place := ((h.headers i (by omega) taken.loadable).place loaded).1
        have mine := segmentAccesses_inBounds fits place (taken'.sized i (Nat.lt_succ_self i) loaded)
        refine ⟨?_, fun st same finished => ?_⟩
        · rw [if_pos rfl]
          exact List.forall_mem_append.mpr ⟨lead, List.forall_mem_append.mpr ⟨mine, later⟩⟩
        · rw [← same] at ok done
          rw [loadSegments_loaded loaded ok] at finished
          exact done _ rfl finished
      | false =>
        refine ⟨by simpa using lead, fun st same finished => ?_⟩
        rw [← same] at ok
        rw [loadSegments_failed loaded ok] at finished
        cases finished
    · rw [if_neg loaded]
      obtain ⟨later, done⟩ := ih (by omega) (taken.skip loaded)
      refine ⟨List.forall_mem_append.mpr ⟨lead, later⟩, fun st same finished => ?_⟩
      rw [loadSegments_skipped loaded] at finished
      exact done st same finished

theorem elfLoad_some (accepted : elfAccepted data size = true) (s : Vm) (pml4 : Nat) :
    (elfLoad s pml4 data size).2.isSome = (loadSegments data pml4 (ePhnum data) 0 ⟨s, 0#64, 0#64⟩).2 := by
  rw [elfLoad, if_pos accepted]
  dsimp only
  split
  · rename_i done
    rw [done]
    rfl
  · rename_i stopped
    rw [Option.isSome_none, Bool.eq_false_iff.mpr stopped]

theorem elfAccepted_large (accepted : elfAccepted data size = true) : ¬ size < 64#64 := by
  simp only [elfAccepted, Bool.and_eq_true, Bool.not_eq_true', decide_eq_false_iff_not] at accepted
  exact accepted.1.1.1.1

theorem TakenBefore.start (data : ElfData) (s : Vm) : TakenBefore data 0 s ∅ :=
  ⟨fun j low => absurd low (Nat.not_lt_zero j), rfl, fun f mem => absurd mem (Finset.notMem_empty f)⟩

theorem HarmlessElf.staysInBounds (h : HarmlessElf data size)
    (accepted : elfAccepted data size = true) : StaysInBounds data size := by
  intro s pml4
  have large := elfAccepted_large accepted
  obtain ⟨loop, done⟩ := h.loop large (Nat.zero_add _) (TakenBefore.start data s)
  have fixed : ∀ (x : Word) (n : Nat), x.toNat + n ≤ 64 → ∀ a ∈ readField x n, a.InBounds size :=
    fun x n inside => readField_inBounds.mpr (fieldIn_header large inside)
  refine ⟨?_, fun malformed => ?_⟩
  · rw [elfAccesses, if_pos accepted]
    refine List.forall_mem_append.mpr ⟨headerAccesses_inBounds data size,
      List.forall_mem_append.mpr ⟨loop, ?_⟩⟩
    split
    · exact List.forall_mem_append.mpr ⟨List.forall_mem_append.mpr ⟨fixed _ _ (by decide),
        fixed _ _ (by decide)⟩, fixed _ _ (by decide)⟩
    · exact fun a mem => by cases mem
  · by_contra loaded
    have some := Option.isSome_iff_ne_none.mpr loaded
    rw [elfLoad_some accepted] at some
    exact malformed (h.whole (done _ rfl some))

theorem staysInBounds_of_rejected (rejected : elfAccepted data size = false) :
    StaysInBounds data size := by
  intro s pml4
  refine ⟨?_, fun _ => ?_⟩
  · rw [elfAccesses, rejected]
    simpa using headerAccesses_inBounds data size
  · rw [elfLoad, rejected]
    rfl

end Harmless

/-! A memory in which every segment that fits can be loaded: all pages from some page on
are free, and the page tables of the whole address space exist already, behind what the
allocator manages. -/

/-- How many tables are above the page tables. -/
def upperTables : Nat := 1 + 512 + 512 * 512

/-- The table in slot `i` of upper table `t`. -/
def tableBelow (t i : Nat) : Nat := t * 512 + i + 1

structure Roomy (k : Nat) (s : Vm) : Prop where
  total : s.pmm.totalPages = maxPages
  bitmap : ∀ f, s.pmm.bitmap f = decide (f < k)
  tables : ∀ t < upperTables, ∀ i < 512, s.mem (maxPages + t) i = tableEntry (maxPages + tableBelow t i)

def roomyVm : Vm where
  pmm :=
    { bitmap := fun f => decide (f < 1)
      refcount := fun _ => 0
      totalPages := maxPages
      freePages := maxPages - 1
      usedPages := 1
      scanHint := 0
      exhausted := false
      hint_le := Nat.zero_le _
      total_le := le_rfl }
  mem := fun f i => if maxPages ≤ f then tableEntry (maxPages + tableBelow (f - maxPages) i) else 0#64
  kernelPml4 := maxPages

theorem roomyVm_roomy : Roomy 1 roomyVm := by
  refine ⟨rfl, fun _ => rfl, fun t _ i _ => ?_⟩
  show (if maxPages ≤ maxPages + t then _ else _) = _
  rw [if_pos (Nat.le_add_right _ _), Nat.add_sub_cancel_left]

section Roomy

variable {data : ElfData} {size : Word} {k n i : Nat} {s : Vm} {ph : Phdr}

theorem searchRun_threshold {total count fuel start : Nat} (bitmap : ∀ f, s.pmm.bitmap f = decide (f < k))
    (sized : 0 < count) (fits : k + count ≤ total) (before : start ≤ k) (fuelled : k < start + fuel) :
    searchRun s.pmm.bitmap total count fuel start = some k := by
  induction fuel generalizing start with
  | zero => omega
  | succ fuel ih =>
    rw [searchRun, if_pos (by omega)]
    rcases Nat.lt_or_eq_of_le before with low | rfl
    · have blocked : runLength s.pmm.bitmap start count = 0 := by
        obtain ⟨c, rfl⟩ : ∃ c, count = c + 1 := ⟨count - 1, by omega⟩
        have set : s.pmm.bitmap (start + 0) = true := by simpa [bitmap] using low
        rw [runLength, List.range_succ_eq_map, List.find?_cons_of_pos (by exact set)]
        rfl
      rw [blocked]
      dsimp only
      rw [if_neg (by omega)]
      exact ih (by omega) (by omega)
    · have whole : runLength s.pmm.bitmap start count = count := by
        by_contra part
        have used := (runLength_blocked part).2
        rw [bitmap] at used
        have := of_decide_eq_true used
        omega
      rw [whole]
      exact if_pos rfl

theorem Roomy.alloc (h : Roomy k s) (sized : 0 < n) (fits : k + n ≤ maxPages) :
    (pmmAllocPages s.pmm n).2 = k ∧ (pmmAllocPages s.pmm n).1.totalPages = maxPages ∧
      ∀ f, (pmmAllocPages s.pmm n).1.bitmap f = decide (f < k + n) := by
  have found : searchRun s.pmm.bitmap s.pmm.totalPages n (s.pmm.totalPages + 1) 0 = some k := by
    rw [h.total]
    exact searchRun_threshold h.bitmap sized fits (Nat.zero_le k) (by omega)
  rw [pmmAllocPages, if_neg (by rw [h.total]; omega), found]
  refine ⟨rfl, h.total, fun f => ?_⟩
  dsimp only
  split
  · rename_i new
    exact (decide_eq_true (by omega)).symm
  · rename_i old
    rw [h.bitmap]
    exact decide_eq_decide.mpr (by omega)

theorem index_lt (v : Word) (d : Nat) : ((v >>> d) &&& 0x1FF#64).toNat < 512 := by
  rw [index_toNat]
  exact Nat.mod_lt _ (by decide)

theorem Roomy.table (h : Roomy k s) {t i : Nat} (upper : t < upperTables) (slot : i < 512) :
    getOrCreateTable s (maxPages + t) i = (s, maxPages + tableBelow t i) := by
  apply getOrCreateTable_present
  rw [h.tables t upper i slot]
  apply tableEntry_child
  unfold tableBelow
  have : maxPages = 2 ^ 20 := rfl
  have : upperTables = 262657 := rfl
  omega

theorem Roomy.map (h : Roomy k s) (v : Word) (d : Nat) (flags : Word) :
    Roomy k (vmmMap4kIn s maxPages v d flags) := by
  have tall : upperTables = 262657 := rfl
  have first : tableBelow 0 (pml4Idx v) < upperTables := by
    have := index_lt v 39
    unfold tableBelow pml4Idx
    omega
  have low : 1 ≤ tableBelow 0 (pml4Idx v) ∧ tableBelow 0 (pml4Idx v) ≤ 512 := by
    have := index_lt v 39
    unfold tableBelow pml4Idx
    omega
  have second : 513 ≤ tableBelow (tableBelow 0 (pml4Idx v)) (pdptIdx v) ∧
      tableBelow (tableBelow 0 (pml4Idx v)) (pdptIdx v) < upperTables := by
    have := index_lt v 30
    generalize tableBelow 0 (pml4Idx v) = t at low ⊢
    unfold tableBelow pdptIdx
    omega
  have leaf : upperTables ≤ tableBelow (tableBelow (tableBelow 0 (pml4Idx v)) (pdptIdx v)) (pdIdx v) := by
    generalize tableBelow (tableBelow 0 (pml4Idx v)) (pdptIdx v) = t at second ⊢
    unfold tableBelow
    omega
  have walked : mapTables s maxPages v =
      (s, maxPages + tableBelow (tableBelow (tableBelow 0 (pml4Idx v)) (pdptIdx v)) (pdIdx v)) := by
    unfold mapTables
    dsimp only
    have top : getOrCreateTable s maxPages (pml4Idx v) = (s, maxPages + tableBelow 0 (pml4Idx v)) :=
      h.table (t := 0) (by decide) (index_lt v 39)
    have middle : getOrCreateTable s (maxPages + tableBelow 0 (pml4Idx v)) (pdptIdx v) =
        (s, maxPages + tableBelow (tableBelow 0 (pml4Idx v)) (pdptIdx v)) := h.table first (index_lt v 30)
    rw [top, middle]
    exact h.table second.2 (index_lt v 21)
  rw [vmmMap4kIn_eq, walked]
  refine ⟨h.total, h.bitmap, fun t upper i slot => ?_⟩
  dsimp only
  rw [put_other _ _ (by omega)]
  exact h.tables t upper i slot

theorem Roomy.loadSegment (h : Roomy k s) (positive : 0 < k) (sized : 0 < ph.numPages)
    (fits : k + ph.numPages ≤ maxPages) (data : ElfData) :
    (loadSegment data maxPages ph s).2 = true ∧
      (ph.Inside → Roomy (k + ph.numPages) (loadSegment data maxPages ph s).1) := by
  obtain ⟨first, total, bitmap⟩ := h.alloc sized fits
  unfold Isunux.loadSegment
  dsimp only
  rw [if_neg (by omega)]
  refine ⟨rfl, fun inside => ?_⟩
  unfold mapSegment
  refine Run.foldl_rule (Roomy (k + ph.numPages)) _ _ _ ⟨total, bitmap, fun t upper i slot => ?_⟩
    fun p _ t roomy => roomy.map _ _ _
  dsimp only
  rw [first, copySegment_off inside _ (by omega), zeroed_off _ (by omega)]
  exact h.tables t upper i slot

end Roomy

section Exact

variable {data : ElfData} {size : Word} {i : Nat}

theorem Loadable.before (h : Loadable data (i + 1)) : Loadable data i := by
  refine ⟨fun j low => h.1 j (by omega), Nat.lt_of_le_of_lt ?_ h.2⟩
  rw [pagesBefore]
  exact Nat.le_add_right _ _

/-- The loader has come to header `i`, and stays in bounds from there on. -/
structure Arrived (data : ElfData) (size : Word) (i : Nat) (st : ElfProgress) : Prop where
  roomy : Roomy (1 + pagesBefore data i) st.vm
  fits : ∀ j < i, (phdr data j).Loaded → SegmentFits data size j
  inBounds : ∀ a ∈ loadAccesses data maxPages (ePhnum data - i) i st.vm, a.InBounds size
  same : loadSegments data maxPages (ePhnum data) 0 ⟨roomyVm, 0#64, 0#64⟩ =
    loadSegments data maxPages (ePhnum data - i) i st

theorem Arrived.next {st : ElfProgress} (h : Arrived data size i st) (more : i < ePhnum data)
    (loadable : Loadable data (i + 1)) : ∃ st', Arrived data size (i + 1) st' := by
  obtain ⟨n, rest⟩ : ∃ n, ePhnum data - i = n + 1 := ⟨ePhnum data - i - 1, by omega⟩
  have fewer : ePhnum data - (i + 1) = n := by omega
  have inBounds := h.inBounds
  have same := h.same
  rw [rest] at same
  rw [rest, loadAccesses_succ, List.forall_mem_append] at inBounds
  by_cases loaded : (phdr data i).Loaded
  · have sized := loadable.1 i (Nat.lt_succ_self i) loaded
    have room : 1 + pagesBefore data i + (phdr data i).numPages ≤ maxPages := by
      have := loadable.2
      rw [pagesBefore_loaded loaded] at this
      omega
    obtain ⟨ok, stays⟩ := h.roomy.loadSegment (by omega) sized room data
    rw [if_pos loaded, if_pos ok, List.forall_mem_append] at inBounds
    have fits := SegmentFits.of_inBounds inBounds.2.1 sized
    refine ⟨st.past data (phdr data i) (loadSegment data maxPages (phdr data i) st.vm).1,
      ⟨?_, fun j low loaded => ?_, ?_, same.trans ?_⟩⟩
    · rw [pagesBefore_loaded loaded, ← Nat.add_assoc]
      exact stays fits.pages
    · rcases Nat.lt_succ_iff_lt_or_eq.mp low with low | rfl
      · exact h.fits j low loaded
      · exact fits
    · rw [fewer]
      exact inBounds.2.2
    · rw [fewer]
      exact loadSegments_loaded loaded ok
  · rw [if_neg loaded] at inBounds
    refine ⟨st, ⟨?_, fun j low loaded' => ?_, ?_, same.trans ?_⟩⟩
    · rw [pagesBefore_skipped loaded]
      exact h.roomy
    · rcases Nat.lt_succ_iff_lt_or_eq.mp low with low | rfl
      · exact h.fits j low loaded'
      · exact absurd loaded' loaded
    · rw [fewer]
      exact inBounds.2
    · rw [fewer]
      exact loadSegments_skipped loaded

/-- With the roomy memory the loader comes to every header it can come to in any memory. -/
theorem roomy_arrives
    (inBounds : ∀ a ∈ loadAccesses data maxPages (ePhnum data) 0 roomyVm, a.InBounds size)
    (bound : i ≤ ePhnum data) (loadable : Loadable data i) : ∃ st, Arrived data size i st := by
  induction i with
  | zero =>
    exact ⟨⟨roomyVm, 0#64, 0#64⟩, roomyVm_roomy, fun j low => absurd low (Nat.not_lt_zero j), inBounds, rfl⟩
  | succ i ih =>
    obtain ⟨st, arrived⟩ := ih (by omega) loadable.before
    exact arrived.next (by omega) loadable

theorem StaysInBounds.harmless (h : StaysInBounds data size)
    (accepted : elfAccepted data size = true) : HarmlessElf data size := by
  obtain ⟨inBounds, rejects⟩ := h roomyVm maxPages
  rw [elfAccesses, if_pos accepted, List.forall_mem_append, List.forall_mem_append] at inBounds
  have arrives := fun i => roomy_arrives (i := i) inBounds.2.1
  refine ⟨fun i bound loadable => ?_, fun i bound loadable loaded => ?_, fun loadable => ?_⟩
  · obtain ⟨st, arrived⟩ := arrives i bound.le loadable
    have here := arrived.inBounds
    obtain ⟨n, rest⟩ : ∃ n, ePhnum data - i = n + 1 := ⟨ePhnum data - i - 1, by omega⟩
    rw [rest, loadAccesses_succ, List.forall_mem_append] at here
    exact (leadAccesses_inBounds (elfAccepted_large accepted)).mp here.1
  · obtain ⟨st, arrived⟩ := arrives (i + 1) bound loadable
    exact arrived.fits i (Nat.lt_succ_self i) loaded
  · obtain ⟨st, arrived⟩ := arrives (ePhnum data) le_rfl loadable
    have done : (loadSegments data maxPages (ePhnum data) 0 ⟨roomyVm, 0#64, 0#64⟩).2 = true := by
      rw [arrived.same, Nat.sub_self]
      rfl
    by_contra malformed
    have none := rejects malformed
    rw [← elfLoad_some accepted, none] at done
    cases done

/-- `elf_load` stays in bounds on a file, whatever the memory, exactly when its header
checks reject it or the headers and segments it can come to do lie in it. -/
theorem elf_load_in_bounds_iff (data : ElfData) (size : Word) :
    StaysInBounds data size ↔ (elfAccepted data size = true → HarmlessElf data size) := by
  constructor
  · intro h accepted
    exact h.harmless accepted
  · intro harmless
    cases accepted : elfAccepted data size with
    | true => exact (harmless accepted).staysInBounds accepted
    | false => exact staysInBounds_of_rejected accepted

end Exact

/-- A header and nothing else, with one program header 56 bytes before the file. -/
def wrappingElf : ElfData := fun i =>
  if i = 0#64 then 0x7f else if i = 1#64 then 0x45 else if i = 2#64 then 0x4c else if i = 3#64 then 0x46
  else if i = 4#64 then 2 else if i = 18#64 then 0x3e
  else if i = 32#64 then 0xc8 else if 33#64 ≤ i ∧ i ≤ 39#64 then 0xff
  else if i = 54#64 then 56 else if i = 56#64 then 1 else 0

/-- The end of the table wraps around to 0, so the file passes and the loader reads
below its first byte. -/
theorem wrapped_table_read_outside :
    elfAccepted wrappingElf 64#64 = true ∧ phdrAt wrappingElf 0 = BitVec.ofInt 64 (-56) ∧
      ¬ StaysInBounds wrappingElf 64#64 := by
  refine ⟨by decide +kernel, by decide +kernel, fun h => ?_⟩
  have outside : .read (BitVec.ofInt 64 (-56)) ∈ elfAccesses roomyVm maxPages wrappingElf 64#64 := by
    decide +kernel
  have inside := (h roomyVm maxPages).1 _ outside
  revert inside
  decide

end Isunux
