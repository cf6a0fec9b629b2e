import Isunux.Exec
import Isunux.TmpfsBytes

/-! The buffer a program file is read into. It is a block of pages that were free, it
doubles until the file fits, and once it is given back the allocator has every page
it had before. Nothing in use is written meanwhile. -/
namespace Isunux

/-- `p'` is `p` with the pages from `lo` up to `hi` taken, each by one owner. -/
structure Lent (p p' : Pmm) (lo hi : Nat) : Prop where
  total : p'.totalPages = p.totalPages
  fresh : ∀ f, lo ≤ f → f < hi → f < p.totalPages ∧ p.bitmap f = false ∧ p'.bitmap f = true ∧ p'.refcount f = 1
  bitmap : ∀ f, ¬ (lo ≤ f ∧ f < hi) → p'.bitmap f = p.bitmap f
  refcount : ∀ f, p.bitmap f = true → p'.refcount f = p.refcount f

/-- The same pages are in use, by as many owners. -/
structure Restored (p p' : Pmm) : Prop where
  total : p'.totalPages = p.totalPages
  bitmap : ∀ f, p'.bitmap f = p.bitmap f
  refcount : ∀ f, p.bitmap f = true → p'.refcount f = p.refcount f

section Blocks

variable {p p' q : Pmm} {lo hi n : Nat}

theorem Restored.refl (p : Pmm) : Restored p p := ⟨rfl, fun _ => rfl, fun _ _ => rfl⟩

theorem Restored.freeFrames (h : Restored p p') : freeFrames p' = freeFrames p := by
  unfold Isunux.freeFrames
  rw [h.total]
  congr 1
  apply Finset.filter_congr
  intro f _
  rw [h.bitmap]

theorem pmmAllocPages_lent (ok : (pmmAllocPages p n).2 ≠ 0) :
    Lent p (pmmAllocPages p n).1 (pmmAllocPages p n).2 ((pmmAllocPages p n).2 + n) := by
  rcases pmmAllocPages_cases p n with e | ⟨start, -, bound, clear, e⟩
  · rw [e] at ok
    exact absurd rfl ok
  rw [e]
  refine ⟨rfl, fun f lo hi => ⟨by omega, clear f lo hi, if_pos ⟨lo, hi⟩, if_pos ⟨lo, hi⟩⟩,
    fun f off => if_neg off, fun f used => if_neg ?_⟩
  rintro ⟨lo, hi⟩
  rw [clear f lo hi] at used
  cases used

theorem pmmAllocPages_failed (zero : Held p 0) (failed : (pmmAllocPages p n).2 = 0) :
    (pmmAllocPages p n).1 = p := by
  rcases pmmAllocPages_cases p n with e | ⟨start, sized, bound, clear, e⟩
  · rw [e]
  · rw [e] at failed
    have first : start = 0 := failed
    subst first
    have used := zero (by omega)
    rw [clear 0 le_rfl (by omega)] at used
    cases used

theorem Lent.off (h : Lent p p' lo hi) {f : Nat} (held : Held p f) : ¬ (lo ≤ f ∧ f < hi) := by
  rintro ⟨lower, upper⟩
  obtain ⟨bound, clear, -⟩ := h.fresh f lower upper
  rw [held bound] at clear
  cases clear

theorem Lent.used (h : Lent p p' lo hi) {f : Nat} (used : p.bitmap f = true) : p'.bitmap f = true := by
  rw [h.bitmap f (h.off fun _ => used), used]

theorem Lent.grown (h : Lent p p' lo hi) : Grown p p' :=
  ⟨h.total, fun f used => ⟨h.used used, h.refcount f used⟩⟩

theorem Lent.free_later (h : Lent p p' lo (lo + n)) (grown : Grown p' q) {f : Nat} :
    (p.bitmap f = true → (pmmFreePages q lo n).bitmap f = true ∧ (pmmFreePages q lo n).refcount f = p.refcount f) ∧
      (p'.bitmap f = false → (pmmFreePages q lo n).bitmap f = q.bitmap f) ∧
      (lo ≤ f → f < lo + n → (pmmFreePages q lo n).bitmap f = false) := by
  refine ⟨fun used => ?_, fun clear => ?_, fun lower upper => ?_⟩
  · have off := h.off fun _ => used
    have later := grown.used f (h.used used)
    rw [(pmmFreePages_other q off).1, (pmmFreePages_other q off).2]
    exact ⟨later.1, later.2.trans (h.refcount f used)⟩
  · refine (pmmFreePages_other q fun inside => ?_).1
    rw [(h.fresh f inside.1 inside.2).2.2.1] at clear
    cases clear
  · obtain ⟨bound, -, used, sole⟩ := h.fresh f lower upper
    refine pmmFreePages_clear q lower upper ?_ ((grown.used f used).2.trans sole)
    rw [grown.total, h.total]
    exact bound

theorem Lent.free (h : Lent p p' lo (lo + n)) : Restored p (pmmFreePages p' lo n) := by
  have back := fun f => h.free_later (Grown.refl p') (f := f)
  refine ⟨(pmmFreePages_total _ _ _).trans h.total, fun f => ?_, fun f used => ((back f).1 used).2⟩
  by_cases inside : lo ≤ f ∧ f < lo + n
  · rw [(back f).2.2 inside.1 inside.2, (h.fresh f inside.1 inside.2).2.1]
  · rw [(pmmFreePages_other p' inside).1, h.bitmap f inside]

theorem Lent.move {first n' : Nat} (h : Lent p p' lo (lo + n)) (h' : Lent p' q first (first + n')) :
    Lent p (pmmFreePages q lo n) first (first + n') := by
  have back := fun f => h.free_later h'.grown (f := f)
  refine ⟨(pmmFreePages_total _ _ _).trans (h'.total.trans h.total), fun f lower upper => ?_, fun f off => ?_,
    fun f used => ((back f).1 used).2⟩
  · obtain ⟨bound, clear, used, sole⟩ := h'.fresh f lower upper
    -- the new block lies outside the old one, which was in use
    have out : ¬ (lo ≤ f ∧ f < lo + n) := by
      rintro ⟨lower', upper'⟩
      rw [(h.fresh f lower' upper').2.2.1] at clear
      cases clear
    rw [(pmmFreePages_other q out).1, (pmmFreePages_other q out).2, ← h.total, ← h.bitmap f out]
    exact ⟨bound, clear, used, sole⟩
  · by_cases inside : lo ≤ f ∧ f < lo + n
    · rw [(back f).2.2 inside.1 inside.2, (h.fresh f inside.1 inside.2).2.1]
    · rw [(pmmFreePages_other q inside).1, h'.bitmap f off, h.bitmap f inside]

end Blocks

section Reading

variable {s₀ s : Vm} {b : FileBuffer} {file : Vm → FileReader}

/-- A file is being read: the buffer is lent and nothing in use has been written. -/
structure Reading (s₀ s : Vm) (b : FileBuffer) : Prop where
  lent : Lent s₀.pmm s.pmm b.phys (b.phys + b.pages)
  nonzero : b.phys ≠ 0
  mem : ∀ f, Held s₀.pmm f → s.mem f = s₀.mem f
  kernel : s.kernelPml4 = s₀.kernelPml4
  room : b.total < b.pages * 4096

/-- How a read ends: without the file and with all pages back, or with the buffer. -/
def ReadTo (s₀ : Vm) (r : Vm × Option FileBuffer) : Prop :=
  match r.2 with
  | none => Restored s₀.pmm r.1.pmm ∧ (∀ f, Held s₀.pmm f → r.1.mem f = s₀.mem f) ∧
      r.1.kernelPml4 = s₀.kernelPml4
  | some b => Reading s₀ r.1 b

theorem Reading.small (h : Reading s₀ s b) : b.phys + b.pages ≤ s₀.pmm.totalPages := by
  have room := h.room
  have last := (h.lent.fresh (b.phys + b.pages - 1) (by omega) (by omega)).1
  omega

theorem Reading.fill (h : Reading s₀ s b) {bytes : List (BitVec 8)}
    (inside : b.total + bytes.length ≤ b.pages * 4096) {f : Nat} (held : Held s₀.pmm f) :
    fillBuffer s.mem b.phys b.total bytes f = s₀.mem f := by
  have small := h.small
  have most := s₀.pmm.total_le
  have plain : (BitVec.ofNat 64 b.total).toNat = b.total := by
    rw [BitVec.toNat_ofNat]
    have room := h.room
    simp only [maxPages] at most
    omega
  rw [fillBuffer, @storeBytes_frame s.mem _ b.pages _ _ _ _ (by rw [plain]; exact inside) (h.lent.off held)]
  exact h.mem f held

theorem Reading.filled (h : Reading s₀ s b) {bytes : List (BitVec 8)}
    (inside : b.total + bytes.length < b.pages * 4096) :
    Reading s₀ { s with mem := fillBuffer s.mem b.phys b.total bytes } { b with total := b.total + bytes.length } :=
  ⟨h.lent, h.nonzero, fun _ held => h.fill (Nat.le_of_lt inside) held, h.kernel, inside⟩

theorem Reading.doubled (h : Reading s₀ s b) {bytes : List (BitVec 8)}
    (full : b.total + bytes.length = b.pages * 4096) (ok : (pmmAllocPages s.pmm (b.pages * 2)).2 ≠ 0) :
    Reading s₀
      { s with
        pmm := pmmFreePages (pmmAllocPages s.pmm (b.pages * 2)).1 b.phys b.pages
        mem := copyBuffer (fillBuffer s.mem b.phys b.total bytes) (pmmAllocPages s.pmm (b.pages * 2)).2 b.phys
          (b.total + bytes.length) }
      ⟨(pmmAllocPages s.pmm (b.pages * 2)).2, b.pages * 2, b.total + bytes.length⟩ := by
  have room := h.room
  have larger := pmmAllocPages_lent ok
  have fits : b.total + bytes.length ≤ b.pages * 2 * 4096 := by omega
  refine ⟨h.lent.move larger, ok, fun f held => ?_, h.kernel, ?_⟩
  · exact (copyBuffer_frame _ _ fits (larger.off (h.lent.grown.held held))).trans (h.fill full.le held)
  · dsimp only
    omega

/-- The loop ends: every round but the last brings a byte, and the buffer is never
larger than memory. -/
theorem readFileLoop_reads (zero : Held s₀.pmm 0) {fuel : Nat} (h : Reading s₀ s b)
    (enough : s₀.pmm.totalPages * 4096 + 1 ≤ fuel + b.total) :
    ∃ r, readFileLoop file fuel s b = some r ∧ ReadTo s₀ r := by
  induction fuel generalizing s b with
  | zero =>
    have small := h.small
    have room := h.room
    omega
  | succ fuel ih =>
    cases answer : (file s).read (b.pages * 4096 - b.total) b.total with
    | error e =>
      rw [readFileLoop, answer]
      exact ⟨_, rfl, h.lent.free, h.mem, h.kernel⟩
    | ok bytes =>
      cases bytes with
      | nil =>
        rw [readFileLoop, answer]
        exact ⟨_, rfl, h⟩
      | cons byte rest =>
        have bounded := (file s).bounded _ _ _ answer
        have room := h.room
        have inside : b.total + (byte :: rest).length ≤ b.pages * 4096 := by omega
        have more : 0 < (byte :: rest).length := Nat.succ_pos _
        rw [readFileLoop, answer]
        dsimp only
        generalize byte :: rest = bytes at inside more ⊢
        by_cases full : b.total + bytes.length = b.pages * 4096
        · rw [if_pos full]
          by_cases failed : (pmmAllocPages s.pmm (b.pages * 2)).2 = 0
          · rw [if_pos failed, pmmAllocPages_failed (h.lent.grown.held zero) failed]
            exact ⟨_, rfl, h.lent.free, fun f held => h.fill inside held, h.kernel⟩
          · rw [if_neg failed]
            refine ih (h.doubled full failed) ?_
            dsimp only
            omega
        · rw [if_neg full]
          refine ih (h.filled (by omega)) ?_
          dsimp only
          omega

theorem Reading.first (ok : (pmmAllocPages s₀.pmm vfsReadInitialPages).2 ≠ 0) :
    Reading s₀ { s₀ with pmm := (pmmAllocPages s₀.pmm vfsReadInitialPages).1 }
      ⟨(pmmAllocPages s₀.pmm vfsReadInitialPages).2, vfsReadInitialPages, 0⟩ := by
  have room : 0 < vfsReadInitialPages * 4096 := by decide
  exact ⟨pmmAllocPages_lent ok, ok, fun _ _ => rfl, rfl, room⟩

theorem vfsReadFileAlloc_reads (file : Vm → FileReader) (zero : Held s₀.pmm 0) :
    ReadTo s₀ (vfsReadFileAlloc file s₀) := by
  unfold vfsReadFileAlloc
  dsimp only
  by_cases failed : (pmmAllocPages s₀.pmm vfsReadInitialPages).2 = 0
  · rw [if_pos failed, pmmAllocPages_failed zero failed]
    exact ⟨.refl _, fun _ _ => rfl, rfl⟩
  · rw [if_neg failed]
    have first := Reading.first failed
    obtain ⟨r, e, reads⟩ := @readFileLoop_reads _ _ _ file zero _ first (Nat.le_refl _)
    rw [e]
    exact reads

end Reading

end Isunux
