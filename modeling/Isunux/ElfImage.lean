import Isunux.ElfBounds
import Isunux.Windows
import Isunux.Spaces

/-! The image that `elf_load` leaves behind. Each segment is a block of pages of its own,
filled through the HHDM window before any of them is mapped, so that what the program
reads is decided by the header alone. -/
namespace Isunux

open Radix

/-- What byte `x` of a segment's pages is to hold. -/
def Phdr.byte (data : ElfData) (ph : Phdr) (x : Nat) : BitVec 8 :=
  let o := ph.offsetInFirstPage.toNat
  if o ≤ x ∧ x < o + ph.filesz.toNat then data (ph.offset + BitVec.ofNat 64 (x - o)) else 0

def Phdr.kind (ph : Phdr) : Kind := if hasBits ph.flags pfW then .rw else .ro

theorem Phdr.kind_flags (ph : Phdr) :
    (if hasBits ph.flags pfW then pteUser ||| pteWrite else pteUser) ||| ptePresent = ph.kind.flags := by
  unfold Phdr.kind
  split
  · decide
  · decide

section Bytes

variable {data : ElfData} {ph : Phdr} {phys : Nat}

theorem zeroed_page (mem : PhysMem) {n p : Nat} (hp : p < n) :
    (List.range n).foldl (fun mem p => zeroFrame mem (phys + p)) mem (phys + p) = fun _ => 0#64 := by
  refine Run.range_rule (fun i (t : PhysMem) => p < i → t (phys + p) = fun _ => 0#64) _ n mem
    (fun low => absurd low (Nat.not_lt_zero p)) (fun i _ t before low => ?_) hp
  unfold zeroFrame
  by_cases here : i = p
  · subst here
    rw [Function.update_self]
  · rw [Function.update_of_ne (by omega)]
    exact before (by omega)

theorem segment_bytes (mem : PhysMem) {p o : Nat} (hp : p < ph.numPages) (ho : o < 4096) :
    byteAt (copySegment data ph phys
      ((List.range ph.numPages).foldl (fun mem p => zeroFrame mem (phys + p)) mem) (phys + p)) o =
      ph.byte data (p * 4096 + o) := by
  unfold copySegment Phdr.byte
  dsimp only
  -- after `b` rounds the first `b` bytes are in place
  refine Run.range_rule (fun b (t : PhysMem) => byteAt (t (phys + p)) o =
    if ph.offsetInFirstPage.toNat ≤ p * 4096 + o ∧ p * 4096 + o < ph.offsetInFirstPage.toNat + b then
      data (ph.offset + BitVec.ofNat 64 (p * 4096 + o - ph.offsetInFirstPage.toNat)) else 0)
    _ _ _ ?_ fun b _ t before => ?_
  · rw [zeroed_page mem hp, if_neg (by omega)]
    simp [byteAt]
  · by_cases page : phys + (ph.offsetInFirstPage.toNat + b) / 4096 = phys + p
    · rw [page, byteAt_storeByte]
      by_cases here : o = (ph.offsetInFirstPage.toNat + b) % 4096
      · have same : p * 4096 + o - ph.offsetInFirstPage.toNat = b := by omega
        rw [if_pos here, if_pos (by omega), same]
      · rw [if_neg here, before]
        exact if_congr (by omega) rfl rfl
    · rw [storeByte_other _ _ _ (Ne.symm page), before]
      exact if_congr (by omega) rfl rfl

end Bytes

section Segment

variable {K : Type*} {roots : K → Option Nat} {scope : Nat → Prop} {s : Vm} {L : Finset (Ref K × Nat)}
  {k : K} {pml4 : Nat} {data : ElfData} {ph : Phdr}

/-- The pages of a segment are mapped in the space `k`, with the bytes of the segment. -/
def Placed (roots : K → Option Nat) (k : K) (data : ElfData) (mem : PhysMem) (ph : Phdr) : Prop :=
  ∀ p < ph.numPages, ∃ f, f < 2 ^ 52 ∧
    leafWord roots mem k (tablePath (pageOfRange ph.segStart p)) (ptIdx (pageOfRange ph.segStart p)) =
      some (leafEntry f ph.kind) ∧
    ∀ o < 4096, byteAt (mem f) o = ph.byte data (p * 4096 + o)

/-- Slots and pages of all spaces are as before, but for the slots of some pages of `k`. -/
structure Otherwise (roots : K → Option Nat) (k : K) (new : Word → Prop) (mem mem' : PhysMem) : Prop where
  slots : ∀ k' q l, LowPath (q ++ [l]) → q.length = 3 → (∀ v, new v → ¬ SlotOf k v k' q l) →
    leafWord roots mem' k' q l = leafWord roots mem k' q l
  data : ∀ k' q l e, LowPath (q ++ [l]) → q.length = 3 → leafWord roots mem k' q l = some e →
    mem' (pteFrame e) = mem (pteFrame e)

/-- The pages of a segment, by address. -/
def Phdr.Page (ph : Phdr) (v : Word) : Prop := ∃ p < ph.numPages, v = pageOfRange ph.segStart p

/-- A segment lies below the end of the low half. -/
def Phdr.Low (ph : Phdr) : Prop := ph.segStart.toNat + ph.numPages * 4096 ≤ 2 ^ 47

variable [DecidableEq K]

theorem Sound.loadSegment (w : Sound scope roots s L) (root : roots k = some pml4) (inside : ph.Inside)
    (low : ph.Low)
    (unmapped : ∀ v, ph.Page v → leafWord roots s.mem k (tablePath v) (ptIdx v) = none)
    (ok : (loadSegment data pml4 ph s).2 = true)
    (fine : (loadSegment data pml4 ph s).1.pmm.exhausted = false) :
    (∃ L', Sound scope roots (loadSegment data pml4 ph s).1 L') ∧
      Placed roots k data (loadSegment data pml4 ph s).1.mem ph ∧
      Otherwise roots k ph.Page s.mem (loadSegment data pml4 ph s).1.mem := by
  unfold Isunux.loadSegment at ok fine ⊢
  dsimp only at ok fine ⊢
  by_cases failed : (pmmAllocPages s.pmm ph.numPages).2 = 0
  · rw [if_pos failed] at ok
    cases ok
  rw [if_neg failed] at fine ⊢
  obtain ⟨accounts, block⟩ := w.owned.accounts.lend failed
  have grown := pmmAllocPages_grown s.pmm ph.numPages
  have bytes := fun p o => @segment_bytes data ph ((pmmAllocPages s.pmm ph.numPages).2) s.mem p o
  generalize (pmmAllocPages s.pmm ph.numPages).2 = start at failed accounts block bytes fine ⊢
  generalize (pmmAllocPages s.pmm ph.numPages).1 = q at accounts block grown fine ⊢
  have off : ∀ f, ¬ (start ≤ f ∧ f < start + ph.numPages) → copySegment data ph start
      ((List.range ph.numPages).foldl (fun mem p => zeroFrame mem (start + p)) s.mem) f = s.mem f := by
    intro f out
    rw [copySegment_off inside _ out, zeroed_off _ out]
  generalize copySegment data ph start
    ((List.range ph.numPages).foldl (fun mem p => zeroFrame mem (start + p)) s.mem) = mem
    at off bytes fine ⊢
  -- no table and no page of the forest is in the block
  have apart : ∀ k' q' f, LowPath q' → at_ roots s.mem k' q' = some f → mem f = s.mem f := by
    intro k' q' f lowQ here
    refine off f fun range => ?_
    exact w.owned.not_at_of_free (block f range.1 range.2).2.1 lowQ here
  obtain ⟨forest, -, words⟩ := w.owned.forest.frame mem fun k' q' f lowQ _ here => apart k' q' f lowQ here
  have filled : Sound (fun f => scope f ∧ ¬ (start ≤ f ∧ f < start + ph.numPages)) roots
      { s with pmm := q, mem := mem } L := by
    refine ⟨⟨forest, accounts, subset_rfl⟩, ?_⟩
    intro k₁ q₁ l₁ e₁ k₂ q₂ l₂ e₂ low₁ len₁ low₂ len₂ h₁ h₂
    rw [words _ _ _ low₁] at h₁
    rw [words _ _ _ low₂] at h₂
    exact w.shared _ _ _ _ _ _ _ _ low₁ len₁ low₂ len₂ h₁ h₂
  have tracked : ∀ f, start ≤ f → f < start + ph.numPages → scope f ∧ f < q.totalPages ∧ f ≠ 0 := by
    intro f lo hi
    have inScope := (block f lo hi).1
    rw [grown.total]
    exact ⟨inScope, w.owned.accounts.tracked f inScope⟩
  obtain ⟨L', sound, mapped, -⟩ := Sound.mapPages
    (s := { s with pmm := q, mem := mem }) filled root
    ⟨tracked, fun f lo hi => (block f lo hi).2.2⟩ low
    (fun p hp => by
      rw [words _ _ _ (tablePath_low (lowHalf_idx (pageOfRange_low low hp)))]
      exact unmapped _ ⟨p, hp, rfl⟩) ph.kind_flags fine
  refine ⟨⟨L', sound⟩, fun p hp => ?_, ⟨fun k' q' l lowQ len out => ?_, fun k' q' l e lowQ len here => ?_⟩⟩
  · refine ⟨start + p, small_of_bound (tracked (start + p) (by omega) (by omega)).2.1, mapped.pages p hp,
      fun o ho => ?_⟩
    have kept := mapped.outside (start + p) fun inside => inside.2 ⟨by omega, by omega⟩
    exact (congrArg (fun t => byteAt t o) kept).trans (bytes p o hp ho)
  · exact (mapped.rest k' q' l lowQ len fun p hp => out _ ⟨p, hp, rfl⟩).trans (words k' q' l lowQ)
  · have here' : leafWord roots mem k' q' l = some e := by rw [words k' q' l lowQ, here]
    exact (mapped.data k' q' l e lowQ len here').trans (apart k' _ _ lowQ (at_leaf.mpr ⟨e, here, rfl⟩))

end Segment

/-- The page numbers a segment touches. -/
def Phdr.Touches (ph : Phdr) (x : Nat) : Prop :=
  ph.vaddr.toNat / 4096 ≤ x ∧ x ≤ (ph.vaddr.toNat + ph.memsz.toNat - 1) / 4096

/-- An ELF64 file for x86-64 whose loadable segments lie in the file and in the low half
and share no page. -/
structure ImageFile (data : ElfData) (size : Word) : Prop where
  accepted : elfAccepted data size = true
  sizes : ∀ i < ePhnum data, (phdr data i).Loaded → (phdr data i).filesz.toNat ≤ (phdr data i).memsz.toNat
  inFile : ∀ i < ePhnum data, (phdr data i).Loaded →
    (phdr data i).offset.toNat + (phdr data i).filesz.toNat ≤ size.toNat
  low : ∀ i < ePhnum data, (phdr data i).Loaded → (phdr data i).vaddr.toNat + (phdr data i).memsz.toNat ≤ 2 ^ 47
  apart : ∀ i < ePhnum data, ∀ j < ePhnum data, i ≠ j → (phdr data i).Loaded → (phdr data j).Loaded →
    ∀ x, (phdr data i).Touches x → ¬ (phdr data j).Touches x

section Geometry

variable {ph : Phdr}

theorem Phdr.segStart_toNat (ph : Phdr) : ph.segStart.toNat = ph.vaddr.toNat / 4096 * 4096 :=
  mask_page_toNat ph.vaddr

theorem Phdr.segEnd_toNat (low : ph.vaddr.toNat + ph.memsz.toNat ≤ 2 ^ 47) :
    ph.segEnd.toNat = (ph.vaddr.toNat + ph.memsz.toNat + 4095) / 4096 * 4096 := by
  rw [Phdr.segEnd, pageCeil, mask_page_toNat, BitVec.toNat_add, BitVec.toNat_add]
  have : (4095#64).toNat = 4095 := rfl
  omega

theorem Phdr.numPages_eq (low : ph.vaddr.toNat + ph.memsz.toNat ≤ 2 ^ 47) :
    ph.numPages = (ph.vaddr.toNat + ph.memsz.toNat + 4095) / 4096 - ph.vaddr.toNat / 4096 := by
  rw [Phdr.numPages, BitVec.toNat_sub, Phdr.segEnd_toNat low, ph.segStart_toNat]
  omega

theorem Phdr.Loaded.memsz_pos (loaded : ph.Loaded) : 0 < ph.memsz.toNat := by
  have := loaded.2
  rw [Ne, ← BitVec.toNat_inj] at this
  exact Nat.pos_of_ne_zero this

theorem Phdr.inside_of_low (low : ph.vaddr.toNat + ph.memsz.toNat ≤ 2 ^ 47)
    (sizes : ph.filesz.toNat ≤ ph.memsz.toNat) : ph.Inside := by
  rw [Phdr.Inside, ph.offsetInFirstPage_toNat, Phdr.numPages_eq low]
  omega

theorem Phdr.low_of_low (low : ph.vaddr.toNat + ph.memsz.toNat ≤ 2 ^ 47) : ph.Low := by
  rw [Phdr.Low, ph.segStart_toNat, Phdr.numPages_eq low]
  omega

theorem Phdr.touches_iff (low : ph.vaddr.toNat + ph.memsz.toNat ≤ 2 ^ 47) (loaded : ph.Loaded) (x : Nat) :
    ph.Touches x ↔ ∃ p < ph.numPages, x = ph.vaddr.toNat / 4096 + p := by
  have some := loaded.memsz_pos
  rw [Phdr.Touches, Phdr.numPages_eq low]
  constructor
  · intro touched
    exact ⟨x - ph.vaddr.toNat / 4096, by omega, by omega⟩
  · rintro ⟨p, hp, rfl⟩
    omega

theorem Phdr.page_vpn (low : ph.vaddr.toNat + ph.memsz.toNat ≤ 2 ^ 47) {p : Nat} (hp : p < ph.numPages) :
    vpn (pageOfRange ph.segStart p) = ph.vaddr.toNat / 4096 + p := by
  rw [Phdr.numPages_eq low] at hp
  rw [vpn, pageOfRange, BitVec.toNat_add, BitVec.toNat_ofNat, ph.segStart_toNat]
  omega

end Geometry

/-- The allocator has pages whenever the loader asks for some: for the segments among
`n` headers from `i` on and for their page tables. -/
def Supplied (data : ElfData) (pml4 : Nat) : Nat → Nat → Vm → Prop
  | 0, _, _ => True
  | n + 1, i, s =>
    if (phdr data i).Loaded then
      (pmmAllocPages s.pmm (phdr data i).numPages).2 ≠ 0 ∧
        (loadSegment data pml4 (phdr data i) s).1.pmm.exhausted = false ∧
        Supplied data pml4 n (i + 1) (loadSegment data pml4 (phdr data i) s).1
    else Supplied data pml4 n (i + 1) s

section Image

variable {K : Type*} {roots : K → Option Nat} {scope : Nat → Prop} {s : Vm} {L : Finset (Ref K × Nat)}
  {k : K} {pml4 i : Nat} {data : ElfData} {size : Word} {st : ElfProgress}

/-- The pages of the segments before header `i`. -/
def PageBefore (data : ElfData) (i : Nat) (v : Word) : Prop :=
  ∃ j < i, (phdr data j).Loaded ∧ (phdr data j).Page v

/-- The highest end of a segment before header `i`, as the loop keeps it. -/
structure HighestBefore (data : ElfData) (i : Nat) (x : Word) : Prop where
  above : ∀ j < i, (phdr data j).Loaded → (phdr data j).segEnd.toNat ≤ x.toNat
  reached : x = 0#64 ∨ ∃ j < i, (phdr data j).Loaded ∧ x = (phdr data j).segEnd

/-- The loader has dealt with the headers before `i`. -/
structure ImageBefore (scope : Nat → Prop) (roots : K → Option Nat) (k : K) (data : ElfData) (s : Vm)
    (i : Nat) (st : ElfProgress) : Prop where
  sound : ∃ L, Sound scope roots st.vm L
  placed : ∀ j < i, (phdr data j).Loaded → Placed roots k data st.vm.mem (phdr data j)
  other : Otherwise roots k (PageBefore data i) s.mem st.vm.mem
  highest : HighestBefore data i st.highestEnd

theorem ImageFile.page_touched (file : ImageFile data size) (bound : i < ePhnum data)
    (loaded : (phdr data i).Loaded) {v : Word} (page : (phdr data i).Page v) :
    lowHalf v = true ∧ (phdr data i).Touches (vpn v) := by
  have low := file.low i bound loaded
  obtain ⟨p, hp, rfl⟩ := page
  refine ⟨pageOfRange_low (Phdr.low_of_low low) hp, ?_⟩
  rw [Phdr.touches_iff low loaded, Phdr.page_vpn low hp]
  exact ⟨p, hp, rfl⟩

theorem ImageFile.slots_apart (file : ImageFile data size) {j : Nat} (bound : i < ePhnum data)
    (bound' : j < ePhnum data) (other : i ≠ j) (loaded : (phdr data i).Loaded)
    (loaded' : (phdr data j).Loaded) {v v' : Word} (page : (phdr data i).Page v)
    (page' : (phdr data j).Page v') : ¬ SlotOf k v k (tablePath v') (ptIdx v') := by
  intro slot
  obtain ⟨low, touched⟩ := file.page_touched bound loaded page
  obtain ⟨low', touched'⟩ := file.page_touched bound' loaded' page'
  have same := (same_slot_iff low' low).mp ⟨slot.2.1, slot.2.2⟩
  rw [same] at touched'
  exact file.apart i bound j bound' other loaded loaded' _ touched touched'

theorem HighestBefore.skip {x : Word} (h : HighestBefore data i x) (skipped : ¬ (phdr data i).Loaded) :
    HighestBefore data (i + 1) x := by
  refine ⟨fun j low loaded => ?_, h.reached.imp_right fun ⟨j, low, reached⟩ => ⟨j, by omega, reached⟩⟩
  rcases Nat.lt_succ_iff_lt_or_eq.mp low with low | rfl
  · exact h.above j low loaded
  · exact absurd loaded skipped

theorem HighestBefore.load {x : Word} (h : HighestBefore data i x) (loaded : (phdr data i).Loaded) :
    HighestBefore data (i + 1) (if x < (phdr data i).segEnd then (phdr data i).segEnd else x) := by
  constructor
  · intro j low loaded'
    have before : j < i → (phdr data j).segEnd.toNat ≤ x.toNat := fun low => h.above j low loaded'
    split
    · rename_i higher
      rw [BitVec.lt_def] at higher
      rcases Nat.lt_succ_iff_lt_or_eq.mp low with low | rfl
      · exact (before low).trans higher.le
      · exact le_rfl
    · rename_i lower
      rw [BitVec.lt_def] at lower
      rcases Nat.lt_succ_iff_lt_or_eq.mp low with low | rfl
      · exact before low
      · omega
  · split
    · exact .inr ⟨i, Nat.lt_succ_self i, loaded, rfl⟩
    · exact h.reached.imp_right fun ⟨j, low, reached⟩ => ⟨j, by omega, reached⟩

theorem ImageBefore.skip (h : ImageBefore scope roots k data s i st) (skipped : ¬ (phdr data i).Loaded) :
    ImageBefore scope roots k data s (i + 1) st := by
  refine ⟨h.sound, fun j low loaded => ?_, ⟨fun k' q l lowQ len out => ?_, h.other.data⟩,
    h.highest.skip skipped⟩
  · rcases Nat.lt_succ_iff_lt_or_eq.mp low with low | rfl
    · exact h.placed j low loaded
    · exact absurd loaded skipped
  · refine h.other.slots k' q l lowQ len fun v before => out v ?_
    obtain ⟨j, low, rest⟩ := before
    exact ⟨j, by omega, rest⟩

variable [DecidableEq K]

theorem ImageBefore.load (h : ImageBefore scope roots k data s i st) (file : ImageFile data size)
    (bound : i < ePhnum data) (loaded : (phdr data i).Loaded) (root : roots k = some pml4)
    (vacant : ∀ v, PageBefore data (ePhnum data) v →
      leafWord roots s.mem k (tablePath v) (ptIdx v) = none)
    (ok : (loadSegment data pml4 (phdr data i) st.vm).2 = true)
    (fine : (loadSegment data pml4 (phdr data i) st.vm).1.pmm.exhausted = false) :
    ImageBefore scope roots k data s (i + 1)
      (st.past data (phdr data i) (loadSegment data pml4 (phdr data i) st.vm).1) := by
  have low := file.low i bound loaded
  obtain ⟨L, sound⟩ := h.sound
  have unmapped : ∀ v, (phdr data i).Page v →
      leafWord roots st.vm.mem k (tablePath v) (ptIdx v) = none := by
    intro v page
    have lowV := (file.page_touched bound loaded page).1
    rw [h.other.slots k _ _ (tablePath_low (lowHalf_idx lowV)) rfl ?_, vacant v ⟨i, bound, loaded, page⟩]
    rintro v' ⟨j, before, loaded', page'⟩
    exact file.slots_apart (by omega) bound (by omega) loaded' loaded page' page
  obtain ⟨sound', placed, other⟩ := sound.loadSegment root
    (Phdr.inside_of_low low (file.sizes i bound loaded)) (Phdr.low_of_low low) unmapped ok fine
  refine ⟨sound', fun j before loaded' => ?_, ⟨fun k' q l lowQ len out => ?_, ?_⟩, h.highest.load loaded⟩
  · rcases Nat.lt_succ_iff_lt_or_eq.mp before with before | rfl
    · intro p hp
      obtain ⟨f, small, here, bytes⟩ := h.placed j before loaded' p hp
      have page : (phdr data j).Page (pageOfRange (phdr data j).segStart p) := ⟨p, hp, rfl⟩
      have lowV := (file.page_touched (by omega) loaded' page).1
      have lowLeaf := tablePath_low (lowHalf_idx lowV)
      refine ⟨f, small, ?_, fun o ho => ?_⟩
      · refine (other.slots k _ _ lowLeaf rfl fun v page' => ?_).trans here
        exact file.slots_apart bound (by omega) (by omega) loaded loaded' page' page
      · have kept := other.data k _ _ _ lowLeaf rfl here
        rw [leafEntry_frame small] at kept
        exact (congrArg (fun t => byteAt t o) kept).trans (bytes o ho)
    · exact placed
  · refine (other.slots k' q l lowQ len fun v page => ?_).trans
      (h.other.slots k' q l lowQ len fun v before => ?_)
    · exact out v ⟨i, Nat.lt_succ_self i, loaded, page⟩
    · obtain ⟨j, before, rest⟩ := before
      exact out v ⟨j, by omega, rest⟩
  · intro k' q l e lowQ len here
    have still : leafWord roots st.vm.mem k' q l = some e := by
      refine (h.other.slots k' q l lowQ len fun v before slot => ?_).trans here
      obtain ⟨j, low, rest⟩ := before
      obtain ⟨rfl, rfl, rfl⟩ := slot
      rw [vacant v ⟨j, by omega, rest⟩] at here
      cases here
    exact (other.data k' q l e lowQ len still).trans (h.other.data k' q l e lowQ len here)

theorem ImageBefore.loop {n : Nat} (h : ImageBefore scope roots k data s i st) (file : ImageFile data size)
    (rest : i + n = ePhnum data) (root : roots k = some pml4)
    (vacant : ∀ v, PageBefore data (ePhnum data) v →
      leafWord roots s.mem k (tablePath v) (ptIdx v) = none)
    (memory : Supplied data pml4 n i st.vm) :
    (loadSegments data pml4 n i st).2 = true ∧
      ImageBefore scope roots k data s (ePhnum data) (loadSegments data pml4 n i st).1 := by
  induction n generalizing i st with
  | zero =>
    rw [Nat.add_zero] at rest
    subst rest
    exact ⟨rfl, h⟩
  | succ n ih =>
    rw [Supplied] at memory
    by_cases loaded : (phdr data i).Loaded
    · rw [if_pos loaded] at memory
      obtain ⟨some, fine, later⟩ := memory
      have ok : (loadSegment data pml4 (phdr data i) st.vm).2 = true := by
        rw [loadSegment, if_neg some]
      rw [loadSegments_loaded loaded ok]
      exact ih (h.load file (by omega) loaded root vacant ok fine) (by omega) later
    · rw [if_neg loaded] at memory
      rw [loadSegments_skipped loaded]
      exact ih (h.skip loaded) (by omega) memory

omit [DecidableEq K] in
theorem Placed.reads (file : ImageFile data size) (sound : Sound scope roots s L) (root : roots k = some pml4)
    (bound : i < ePhnum data) (loaded : (phdr data i).Loaded)
    (placed : Placed roots k data s.mem (phdr data i)) {v : Word} (low : lowHalf v = true)
    (touched : (phdr data i).Touches (vpn v)) :
    ∃ e, userLeaf s.mem pml4 v = some e ∧
      (hasBits e pteWrite = true ↔ hasBits (phdr data i).flags pfW = true) ∧
      userRead s pml4 v = some (if (phdr data i).vaddr.toNat ≤ v.toNat ∧
          v.toNat < (phdr data i).vaddr.toNat + (phdr data i).filesz.toNat then
        data ((phdr data i).offset + BitVec.ofNat 64 (v.toNat - (phdr data i).vaddr.toNat)) else 0) := by
  have lowI := file.low i bound loaded
  obtain ⟨p, hp, page⟩ := (Phdr.touches_iff lowI loaded _).mp touched
  obtain ⟨f, small, here, bytes⟩ := placed p hp
  have lowP := pageOfRange_low (Phdr.low_of_low lowI) hp
  have slot := (same_slot_iff low lowP).mpr (by rw [page, Phdr.page_vpn lowI hp])
  rw [← slot.1, ← slot.2, ← sound.owned.userLeaf root low] at here
  refine ⟨_, here, ?_, ?_⟩
  · rw [leafEntry_write, decide_eq_true_eq, Phdr.kind]
    split
    · simp [*]
    · simp [*]
  · rw [userRead, here, Option.map_some, leafEntry_frame small, pageOffset,
      bytes _ (Nat.mod_lt _ (by decide)), Phdr.byte]
    rw [(phdr data i).offsetInFirstPage_toNat]
    have place : p * 4096 + v.toNat % 4096 + (phdr data i).vaddr.toNat / 4096 * 4096 = v.toNat := by
      rw [vpn] at page
      omega
    have file_byte : p * 4096 + v.toNat % 4096 - (phdr data i).vaddr.toNat % 4096 =
        v.toNat - (phdr data i).vaddr.toNat := by omega
    rw [file_byte]
    exact congrArg some (if_congr (by omega) rfl rfl)

end Image

section Flag

variable {s t : Vm} {data : ElfData} {pml4 : Nat}

theorem Agree.loadSegment (h : Agree s t) (data : ElfData) (pml4 : Nat) (ph : Phdr) :
    (loadSegment data pml4 ph s).2 = (loadSegment data pml4 ph t).2 ∧
      Agree (loadSegment data pml4 ph s).1 (loadSegment data pml4 ph t).1 := by
  obtain ⟨start, pmm⟩ := h.allocPages ph.numPages
  have same := agree_iff.mp h
  unfold Isunux.loadSegment
  dsimp only
  rw [start, same.2.1]
  split
  · exact ⟨rfl, agree_iff.mpr ⟨pmm, rfl, same.2.2⟩⟩
  · refine ⟨rfl, ?_⟩
    apply Agree.mapPages
    exact agree_iff.mpr ⟨pmm, rfl, same.2.2⟩

theorem Agree.loadSegments {n i : Nat} {st st' : ElfProgress} (h : Agree st.vm st'.vm)
    (highest : st.highestEnd = st'.highestEnd) :
    (loadSegments data pml4 n i st).2 = (loadSegments data pml4 n i st').2 ∧
      Agree (loadSegments data pml4 n i st).1.vm (loadSegments data pml4 n i st').1.vm ∧
      (loadSegments data pml4 n i st).1.highestEnd = (loadSegments data pml4 n i st').1.highestEnd := by
  induction n generalizing i st st' with
  | zero => exact ⟨rfl, h, highest⟩
  | succ n ih =>
    by_cases loaded : (phdr data i).Loaded
    · obtain ⟨same, h'⟩ := h.loadSegment data pml4 (phdr data i)
      cases ok : (Isunux.loadSegment data pml4 (phdr data i) st.vm).2 with
      | true =>
        rw [loadSegments_loaded loaded ok, loadSegments_loaded loaded (same ▸ ok)]
        exact ih h' (by simp only [ElfProgress.past, highest])
      | false =>
        rw [loadSegments_failed loaded ok, loadSegments_failed loaded (same ▸ ok)]
        exact ⟨rfl, h', highest⟩
    · rw [loadSegments_skipped loaded, loadSegments_skipped loaded]
      exact ih h highest

end Flag

section Memory

variable {s : Vm} {data : ElfData} {size : Word} {pml4 first i n : Nat}

theorem pagesBefore_mono {j : Nat} (before : i ≤ j) : pagesBefore data i ≤ pagesBefore data j := by
  induction before with
  | refl => exact le_rfl
  | step _ ih =>
    rw [pagesBefore]
    omega

theorem supplied_of_spoilt (sized : ∀ i < ePhnum data, (phdr data i).Loaded → 0 < (phdr data i).numPages)
    (rest : i + n = ePhnum data)
    (h : Spoilt first (pagesBefore data (ePhnum data)) (5 * pagesBefore data (ePhnum data) + 1)
      (5 * pagesBefore data i) s) : Supplied data pml4 n i s := by
  induction n generalizing i s with
  | zero => trivial
  | succ n ih =>
    rw [Supplied]
    by_cases loaded : (phdr data i).Loaded
    · rw [if_pos loaded]
      have positive := sized i (by omega) loaded
      have room := @pagesBefore_mono data _ _ (show i + 1 ≤ ePhnum data by omega)
      rw [pagesBefore_loaded loaded] at room
      generalize total : pagesBefore data (ePhnum data) = N at h ih room ⊢
      obtain ⟨fine, spoilt, few, w⟩ := h
      obtain ⟨ok, a, b, w'⟩ := w.allocPages positive (by omega) (by omega)
      have flag : (pmmAllocPages s.pmm (phdr data i).numPages).1.exhausted = false := by
        rcases pmmAllocPages_cases s.pmm (phdr data i).numPages with e | ⟨_, _, _, _, e⟩
        · rw [e]
          exact fine
        · rw [e]
          exact fine
      have card : (insert a (insert b spoilt)).card ≤ 5 * pagesBefore data i + 2 := by
        have outer := Finset.card_insert_le a (insert b spoilt)
        have inner := Finset.card_insert_le b spoilt
        omega
      have after : Spoilt first N (5 * N + 1) (5 * pagesBefore data (i + 1))
          (loadSegment data pml4 (phdr data i) s).1 := by
        rw [loadSegment, if_neg ok, pagesBefore_loaded loaded]
        exact (Spoilt.mapPages (s := { s with pmm := _, mem := _ }) ⟨flag, _, card, w'⟩ (by omega)
          (by omega) _ _ _ _).more (by omega)
      exact ⟨ok, after.1, ih (by omega) after⟩
    · rw [if_neg loaded]
      rw [← pagesBefore_skipped loaded] at h
      exact ih (by omega) h

end Memory

/-- The image of a file in an address space, told without the loader. -/
structure ImageIn (data : ElfData) (pml4 : Nat) (s t : Vm) (highest : Word) : Prop where
  bytes : ∀ i < ePhnum data, (phdr data i).Loaded → ∀ b < (phdr data i).memsz.toNat,
    userRead t pml4 ((phdr data i).vaddr + BitVec.ofNat 64 b) =
      some (if b < (phdr data i).filesz.toNat then data ((phdr data i).offset + BitVec.ofNat 64 b) else 0)
  access : ∀ i < ePhnum data, (phdr data i).Loaded → ∀ v, lowHalf v = true →
    (phdr data i).Touches (vpn v) → ∃ e, userLeaf t.mem pml4 v = some e ∧
      (hasBits e pteWrite = true ↔ hasBits (phdr data i).flags pfW = true)
  margin : ∀ i < ePhnum data, (phdr data i).Loaded → ∀ v, lowHalf v = true →
    (phdr data i).Touches (vpn v) →
    ¬ ((phdr data i).vaddr.toNat ≤ v.toNat ∧ v.toNat < (phdr data i).vaddr.toNat + (phdr data i).memsz.toNat) →
    userRead t pml4 v = some 0
  other : ∀ v, lowHalf v = true → (∀ i < ePhnum data, (phdr data i).Loaded → ¬ (phdr data i).Touches (vpn v)) →
    userLeaf t.mem pml4 v = userLeaf s.mem pml4 v
  highest : IsLeast {x | 4096 ∣ x ∧ ∀ i < ePhnum data, (phdr data i).Loaded →
    (phdr data i).vaddr.toNat + (phdr data i).memsz.toNat ≤ x} highest.toNat

theorem ImageIn.congr {data : ElfData} {pml4 : Nat} {s s' t t' : Vm} {highest : Word}
    (h : ImageIn data pml4 s t highest) (before : s'.mem = s.mem) (after : t'.mem = t.mem) :
    ImageIn data pml4 s' t' highest := by
  have read : ∀ v, userRead t' pml4 v = userRead t pml4 v := by
    intro v
    rw [userRead, userRead, after]
  refine ⟨fun i bound loaded b low => ?_, fun i bound loaded v low touched => ?_,
    fun i bound loaded v low touched out => ?_, fun v low out => ?_, h.highest⟩
  · rw [read]
    exact h.bytes i bound loaded b low
  · rw [after]
    exact h.access i bound loaded v low touched
  · rw [read]
    exact h.margin i bound loaded v low touched out
  · rw [before, after]
    exact h.other v low out

section Correct

variable {K : Type*} {roots : K → Option Nat} {scope : Nat → Prop} {s : Vm} {L : Finset (Ref K × Nat)}
  {k : K} {pml4 : Nat} {data : ElfData} {size : Word} {st : ElfProgress}

theorem HighestBefore.isLeast {x : Word} (file : ImageFile data size) (h : HighestBefore data (ePhnum data) x) :
    IsLeast {x | 4096 ∣ x ∧ ∀ i < ePhnum data, (phdr data i).Loaded →
      (phdr data i).vaddr.toNat + (phdr data i).memsz.toNat ≤ x} x.toNat := by
  constructor
  · constructor
    · rcases h.reached with rfl | ⟨j, bound, loaded, rfl⟩
      · exact ⟨0, rfl⟩
      · rw [Phdr.segEnd_toNat (file.low j bound loaded)]
        exact ⟨_, Nat.mul_comm _ _⟩
    · intro i bound loaded
      have above := h.above i bound loaded
      rw [Phdr.segEnd_toNat (file.low i bound loaded)] at above
      omega
  · rintro y ⟨⟨c, rfl⟩, above⟩
    rcases h.reached with rfl | ⟨j, bound, loaded, rfl⟩
    · exact Nat.zero_le _
    · have least := above j bound loaded
      rw [Phdr.segEnd_toNat (file.low j bound loaded)]
      omega

theorem ImageBefore.image (h : ImageBefore scope roots k data s (ePhnum data) st)
    (file : ImageFile data size) (sound : Sound scope roots s L) (root : roots k = some pml4) :
    ImageIn data pml4 s st.vm st.highestEnd := by
  obtain ⟨L', sound'⟩ := h.sound
  have reads := fun i bound loaded v => Placed.reads (i := i) (v := v) file sound' root bound loaded
    (h.placed i bound loaded)
  refine ⟨fun i bound loaded b low => ?_, fun i bound loaded v low touched => ?_,
    fun i bound loaded v low touched out => ?_, fun v low out => ?_, h.highest.isLeast file⟩
  · have lowI := file.low i bound loaded
    have place : ((phdr data i).vaddr + BitVec.ofNat 64 b).toNat = (phdr data i).vaddr.toNat + b := by
      rw [BitVec.toNat_add, BitVec.toNat_ofNat]
      omega
    obtain ⟨-, -, -, byte⟩ := reads i bound loaded ((phdr data i).vaddr + BitVec.ofNat 64 b)
      (by rw [lowHalf, decide_eq_true_eq, place]; omega)
      (by rw [Phdr.Touches, vpn, place]; omega)
    rw [byte, place, Nat.add_sub_cancel_left]
    exact congrArg some (if_congr (by omega) rfl rfl)
  · obtain ⟨e, here, write, -⟩ := reads i bound loaded v low touched
    exact ⟨e, here, write⟩
  · obtain ⟨-, -, -, byte⟩ := reads i bound loaded v low touched
    have sizes := file.sizes i bound loaded
    rw [byte, if_neg (by omega)]
  · rw [sound'.owned.userLeaf root low, sound.owned.userLeaf root low]
    refine h.other.slots k _ _ (tablePath_low (lowHalf_idx low)) rfl ?_
    rintro v' ⟨j, bound, loaded, page⟩ slot
    obtain ⟨low', touched⟩ := file.page_touched bound loaded page
    rw [← (same_slot_iff low low').mp ⟨slot.2.1, slot.2.2⟩] at touched
    exact out j bound loaded touched

variable [DecidableEq K]

/-- With enough memory `elf_load` puts the whole image of a file in place and nothing
else. Enough is what the loader asks for; a run of free pages is always enough when it
is `5 * n + 1` times as long as the `n` pages of the segments. -/
theorem elf_image_correct (sound : Sound scope roots s L) (root : roots k = some pml4)
    (file : ImageFile data size)
    (vacant : ∀ i < ePhnum data, (phdr data i).Loaded → ∀ v, lowHalf v = true →
      (phdr data i).Touches (vpn v) → userLeaf s.mem pml4 v = none) :
    (Supplied data pml4 (ePhnum data) 0 s.unflagged →
      ∃ image, (elfLoad s pml4 data size).2 = some image ∧
        ImageIn data pml4 s (elfLoad s pml4 data size).1 image.highestVaddr) ∧
    (FreeRun s.pmm ((5 * pagesBefore data (ePhnum data) + 1) * pagesBefore data (ePhnum data)) →
      Supplied data pml4 (ePhnum data) 0 s.unflagged) := by
  constructor
  · intro memory
    have start : ImageBefore scope roots k data s.unflagged 0 ⟨s.unflagged, 0#64, 0#64⟩ :=
      ⟨⟨L, sound.unflagged⟩, fun j low => absurd low (Nat.not_lt_zero j), ⟨fun _ _ _ _ _ _ => rfl,
        fun _ _ _ _ _ _ _ => rfl⟩, ⟨fun j low => absurd low (Nat.not_lt_zero j), .inl rfl⟩⟩
    obtain ⟨done, image⟩ := start.loop file (Nat.zero_add _) root (by
      rintro v ⟨i, bound, loaded, page⟩
      obtain ⟨low, touched⟩ := file.page_touched bound loaded page
      have none := vacant i bound loaded v low touched
      rwa [sound.owned.userLeaf root low] at none) memory
    have agree :=
      @Agree.loadSegments data pml4 (ePhnum data) 0 ⟨s, 0#64, 0#64⟩ ⟨s.unflagged, 0#64, 0#64⟩ (agree_unflagged s) rfl
    rw [elfLoad, if_pos file.accepted]
    dsimp only
    rw [agree.1, if_pos done]
    refine ⟨_, rfl, ?_⟩
    dsimp only
    rw [agree.2.2]
    exact (image.image file sound.unflagged root).congr rfl agree.2.1.mem
  · intro run
    obtain ⟨first, windows⟩ := run.cut
    refine supplied_of_spoilt (fun i bound loaded => ?_) (Nat.zero_add _)
      ⟨rfl, ∅, Nat.zero_le _, ⟨windows.zero, windows.inside, windows.used⟩⟩
    rw [Phdr.numPages_eq (file.low i bound loaded)]
    have := loaded.memsz_pos
    omega

end Correct

/-- One segment at 0x400000: the file itself, 120 bytes, and 80 bytes more. -/
def tinyElf : ElfData := fun i =>
  if i = 0#64 then 0x7f else if i = 1#64 then 0x45 else if i = 2#64 then 0x4c else if i = 3#64 then 0x46
  else if i = 4#64 then 2 else if i = 18#64 then 0x3e else if i = 26#64 then 0x40
  else if i = 32#64 then 64 else if i = 54#64 then 56 else if i = 56#64 then 1
  else if i = 64#64 then 1 else if i = 68#64 then 6 else if i = 82#64 then 0x40
  else if i = 96#64 then 120 else if i = 104#64 then 200 else 0

theorem tinyElf_file : ImageFile tinyElf 120#64 := by
  have one : ePhnum tinyElf = 1 := by decide +kernel
  refine ⟨by decide +kernel, ?_, ?_, ?_, ?_⟩ <;> rw [one]
  · intro i bound _
    obtain rfl : i = 0 := by omega
    decide +kernel
  · intro i bound _
    obtain rfl : i = 0 := by omega
    decide +kernel
  · intro i bound _
    obtain rfl : i = 0 := by omega
    decide +kernel
  · intro i bound j bound' other
    omega

/-- The second byte of the image is the file's. -/
theorem elf_image_correct_tinyElf :
    let r := elfLoad (vmmNewAddressSpace smallVm).1 1 tinyElf 120#64
    r.2.isSome = true ∧ userRead r.1 1 0x400001#64 = some 0x45 := by
  intro r
  have start := (noSpaces_sound (n := 1) smallVm).newSpace (k := 0) rfl (by decide +kernel)
  have first : (vmmNewAddressSpace smallVm).2 = 1 := by decide +kernel
  rw [first] at start
  obtain ⟨load, enough⟩ := elf_image_correct start.1 (Function.update_self _ _ _) tinyElf_file
    (by
      intro i _ _ v low _
      rw [start.1.owned.userLeaf (Function.update_self _ _ _) low]
      exact start.2.1 _ _ (tablePath_low (lowHalf_idx low)) rfl)
  obtain ⟨image, loaded, correct⟩ := load (enough ⟨by decide +kernel, 2, by decide +kernel, by
    have length : (5 * pagesBefore tinyElf (ePhnum tinyElf) + 1) * pagesBefore tinyElf (ePhnum tinyElf) = 6 := by
      decide +kernel
    rw [length]
    intro f lo hi
    interval_cases f <;> decide +kernel⟩)
  refine ⟨Option.isSome_of_eq_some loaded, ?_⟩
  have byte := correct.bytes 0 (by decide +kernel) (by decide +kernel) 1 (by decide +kernel)
  have place : (phdr tinyElf 0).vaddr + BitVec.ofNat 64 1 = 0x400001#64 := by decide +kernel
  rw [place] at byte
  rw [byte]
  decide +kernel

end Isunux
