import Isunux.Cloning
import Isunux.Destroying
import Mathlib.Data.Set.Card

/-! The address spaces of a table of processes as one machine, its frame accounting
and its refinement of a machine that copies every page at a fork. -/
namespace Isunux

open Radix

/-- The paging state and the PML4 of each process slot in use. -/
structure Spaces (n : Nat) where
  vm : Vm
  roots : Fin n → Option Nat

/-- What processes and the kernel do to address spaces, in any order. -/
inductive SpaceOp (n : Nat) where
  | create (k : Fin n)
  | map (k : Fin n) (v : Word) (contents : Nat → Word) (writable : Bool)
  | fork (src dest : Fin n)
  | read (k : Fin n) (v : Word)
  | write (k : Fin n) (v : Word) (b : BitVec 8)
  | fault (k : Fin n) (v errCode : Word)
  | munmap (k : Fin n) (addr length : Word)
  | destroy (k : Fin n)

inductive SpaceAnswer where
  | done
  | loaded (b : Option (BitVec 8))
  | stored (ok : Bool)
  deriving DecidableEq

/-- Every page `process_munmap` looks at lies in the low half. -/
def lowRange (addr length : Word) : Bool :=
  (List.range (pagesOf length)).all fun i => lowHalf (addr + BitVec.ofNat 64 (i * 4096))

def mapFlags (writable : Bool) : Word := if writable then pteWrite ||| pteUser else pteUser

section Machine

variable {n : Nat}

/-- One operation. Those that do not apply, such as mapping over a mapped page,
change nothing. -/
def spaceStep (s : Spaces n) : SpaceOp n → Spaces n × SpaceAnswer
  | .create k =>
    match s.roots k with
    | some _ => (s, .done)
    | none =>
      let a := vmmNewAddressSpace s.vm
      (⟨a.1, Function.update s.roots k (some a.2)⟩, .done)
  | .map k v contents writable =>
    match s.roots k with
    | none => (s, .done)
    | some pml4 =>
      if lowHalf v && (vmmGetPte s.vm.mem pml4 v).isNone then
        (⟨mapFresh s.vm pml4 v contents (mapFlags writable), s.roots⟩, .done)
      else (s, .done)
  | .fork src dest =>
    match s.roots src, s.roots dest with
    | some pml4, none =>
      let a := vmmNewAddressSpace s.vm
      (⟨vmmCloneLowerHalf a.1 a.2 pml4, Function.update s.roots dest (some a.2)⟩, .done)
    | _, _ => (s, .done)
  | .read k v =>
    match s.roots k with
    | none => (s, .loaded none)
    | some pml4 => (s, .loaded (userRead s.vm pml4 v))
  | .write k v b =>
    match s.roots k with
    | none => (s, .stored false)
    | some pml4 =>
      let a := userWrite s.vm pml4 v b
      (⟨a.1, s.roots⟩, .stored a.2)
  | .fault k v errCode =>
    match s.roots k with
    | none => (s, .done)
    | some pml4 =>
      if lowHalf v then (⟨(tryHandleCowFault s.vm (some pml4) v errCode).1, s.roots⟩, .done)
      else (s, .done)
  | .munmap k addr length =>
    match s.roots k with
    | none => (s, .done)
    | some pml4 =>
      if lowRange addr length then (⟨processMunmap s.vm pml4 addr length, s.roots⟩, .done)
      else (s, .done)
  | .destroy k =>
    match s.roots k with
    | none => (s, .done)
    | some pml4 => (⟨vmmDestroyAddressSpace s.vm pml4, Function.update s.roots k none⟩, .done)

/-- The pages of each process, by page number, nothing shared. -/
abbrev RefSpaces (n : Nat) := Fin n → Option (Nat → Option Page)

/-- The reference: a fork copies every page, a store reaches one page only. -/
def refStep (t : RefSpaces n) : SpaceOp n → RefSpaces n × SpaceAnswer
  | .create k =>
    match t k with
    | some _ => (t, .done)
    | none => (Function.update t k (some fun _ => none), .done)
  | .map k v contents writable =>
    match t k with
    | none => (t, .done)
    | some m =>
      if lowHalf v && (m (vpn v)).isNone then
        (Function.update t k (some (Function.update m (vpn v) (some ⟨byteAt contents, writable⟩))),
          .done)
      else (t, .done)
  | .fork src dest =>
    match t src, t dest with
    | some m, none => (Function.update t dest (some m), .done)
    | _, _ => (t, .done)
  | .read k v =>
    match t k with
    | none => (t, .loaded none)
    | some m =>
      (t, .loaded (if lowHalf v then (m (vpn v)).map fun p => p.data (pageOffset v) else none))
  | .write k v b =>
    match t k with
    | none => (t, .stored false)
    | some m =>
      if lowHalf v then
        let a := storeView (m (vpn v)) (pageOffset v) b
        (Function.update t k (some (Function.update m (vpn v) a.1)), .stored a.2)
      else (t, .stored false)
  | .fault _ _ _ => (t, .done)
  | .munmap k addr length =>
    match t k with
    | none => (t, .done)
    | some m =>
      if lowRange addr length then
        (Function.update t k (some ((List.range (pagesOf length)).foldl
          (fun m i => Function.update m (vpn (addr + BitVec.ofNat 64 (i * 4096))) none) m)), .done)
      else (t, .done)
  | .destroy k => (Function.update t k none, .done)

def freeAtStart (p : Pmm) (f : Nat) : Prop := p.bitmap f = false ∧ f < p.totalPages ∧ f ≠ 0

/-- A start without address spaces, whatever memory holds. -/
def noSpaces (vm : Vm) : Spaces n := ⟨vm, fun _ => none⟩

theorem noSpaces_sound (vm : Vm) :
    Sound (freeAtStart vm.pmm) (noSpaces (n := n) vm).roots vm ∅ := by
  have nowhere : ∀ k q, at_ (noSpaces (n := n) vm).roots vm.mem k q = none := by
    intro k q
    simp [at_, node, noSpaces]
  refine ⟨⟨⟨?_, ?_, ?_⟩, ⟨⟨by simp, ?_, ?_, by simp⟩, fun f h => h.2, ?_⟩, subset_rfl⟩, ?_⟩
  · intro k q f
    simp [nowhere]
  · intro k q i f _ _ h
    rw [nowhere] at h
    cases h
  · intro k q l e _ _ h
    rw [leafWord, nowhere] at h
    cases h
  · intro f h
    simp [h.1, Ledger.held]
  · intro f h
    simp [Ledger.held] at h
  · intro f bound nonzero out
    by_contra h
    exact out ⟨by simpa using h, bound, nonzero⟩
  · intro k q l e k' q' l' e' _ _ _ _ h
    rw [leafWord, nowhere] at h
    cases h

/-- The implementation shows each process the pages it has in the reference. -/
structure Shows (scope : Nat → Prop) (s : Spaces n) (t : RefSpaces n) : Prop where
  sound : ∃ L, Sound scope s.roots s.vm L
  live : ∀ k, (s.roots k).isSome = (t k).isSome
  pages : ∀ k m, t k = some m → ∀ v, lowHalf v = true →
    view s.roots s.vm.mem k (tablePath v) (ptIdx v) = m (vpn v)

/-! An allocation failure stays visible. -/

theorem tryHandleCowFault_exhausted {vm : Vm} (proc : Option Nat) (v err : Word)
    (h : vm.pmm.exhausted = true) : (tryHandleCowFault vm proc v err).1.pmm.exhausted = true := by
  unfold tryHandleCowFault
  split
  · exact h
  split
  · exact h
  split
  · exact h
  split
  · exact h
  · simp only
    split
    · exact h
    · split
      · exact pmmAllocPage_exhausted _ h
      · simpa using pmmAllocPage_exhausted _ h

theorem userStore_pmm {vm vm' : Vm} {pml4 : Nat} {v : Word} {b : BitVec 8}
    (h : userStore vm pml4 v b = some vm') : vm'.pmm = vm.pmm := by
  obtain ⟨e, _, he⟩ := Option.bind_eq_some_iff.mp h
  split at he
  · cases he; rfl
  · cases he

theorem userWrite_exhausted {vm : Vm} {pml4 : Nat} {v : Word} {b : BitVec 8}
    (h : vm.pmm.exhausted = true) : (userWrite vm pml4 v b).1.pmm.exhausted = true := by
  unfold userWrite
  split
  · rename_i stored
    rw [userStore_pmm stored]; exact h
  · have hf := fun err => tryHandleCowFault_exhausted (some pml4) v err h
    simp only
    generalize (if (userLeaf vm.mem pml4 v).isSome then pfErrPresent else 0#64) ||| pfErrWrite ||| 4#64
      = err
    split
    · split
      · rename_i stored
        rw [userStore_pmm stored]; exact hf err
      · exact hf err
    · exact hf err

theorem munmapPage_exhausted (vm : Vm) (pml4 : Nat) (addr : Word) (i : Nat) :
    (munmapPage pml4 addr vm i).pmm.exhausted = vm.pmm.exhausted := by
  unfold munmapPage
  split
  · rfl
  · split <;> simp

theorem processMunmap_exhausted (vm : Vm) (pml4 : Nat) (addr length : Word) :
    (processMunmap vm pml4 addr length).pmm.exhausted = vm.pmm.exhausted := by
  unfold processMunmap
  split
  · rfl
  · exact Run.foldl_rule (fun t => t.pmm.exhausted = vm.pmm.exhausted) _ _ vm rfl
      fun i _ t ht => (munmapPage_exhausted t pml4 addr i).trans ht

theorem foldl_pmm_exhausted {body : Pmm → Nat → Pmm} {xs : List Nat} {p : Pmm}
    (keeps : ∀ p i, (body p i).exhausted = p.exhausted) : (xs.foldl body p).exhausted = p.exhausted :=
  Run.foldl_rule (fun q => q.exhausted = p.exhausted) body xs p rfl
    fun i _ q hq => (keeps q i).trans hq

theorem vmmDestroyAddressSpace_exhausted (vm : Vm) (pml4 : Nat) :
    (vmmDestroyAddressSpace vm pml4).pmm.exhausted = vm.pmm.exhausted := by
  have leaf : ∀ pt p, (destroyPt vm.mem pt p).exhausted = p.exhausted := by
    intro pt p
    refine foldl_pmm_exhausted fun q l => ?_
    split <;> simp
  have pd : ∀ f p, (destroyPd vm.mem f p).exhausted = p.exhausted := by
    intro f p
    refine foldl_pmm_exhausted fun q m => ?_
    split
    · split <;> simp [leaf]
    · rfl
  have pdpt : ∀ f p, (destroyPdpt vm.mem f p).exhausted = p.exhausted := by
    intro f p
    refine foldl_pmm_exhausted fun q j => ?_
    split <;> simp [pd]
  unfold vmmDestroyAddressSpace
  simp only [pmmFreePage_exhausted]
  refine foldl_pmm_exhausted fun q i => ?_
  split <;> simp [pdpt]

theorem spaceStep_exhausted (s : Spaces n) (op : SpaceOp n) (h : s.vm.pmm.exhausted = true) :
    (spaceStep s op).1.vm.pmm.exhausted = true := by
  have new : (vmmNewAddressSpace s.vm).1.pmm.exhausted = true := pmmAllocPage_exhausted _ h
  cases op with
  | create k => simp only [spaceStep]; split <;> assumption
  | map k v contents writable =>
    simp only [spaceStep]
    split
    · exact h
    · split
      · exact vmmMap4kIn_exhausted (pmmAllocPage_exhausted _ h)
      · exact h
  | fork src dest =>
    simp only [spaceStep]
    split
    · rename_i pml4 _ _
      exact vmmCloneLowerHalf_exhausted (s := (vmmNewAddressSpace s.vm).1)
        (d := (vmmNewAddressSpace s.vm).2) (r := pml4) new
    · exact h
  | read k v => simp only [spaceStep]; split <;> exact h
  | write k v b =>
    simp only [spaceStep]
    split
    · exact h
    · exact userWrite_exhausted h
  | fault k v err =>
    simp only [spaceStep]
    split
    · exact h
    · split
      · exact tryHandleCowFault_exhausted _ _ _ h
      · exact h
  | munmap k addr length =>
    simp only [spaceStep]
    split
    · exact h
    · split
      · simpa [processMunmap_exhausted] using h
      · exact h
  | destroy k =>
    simp only [spaceStep]
    split
    · exact h
    · simpa [vmmDestroyAddressSpace_exhausted] using h

/-! One step of both machines. -/

theorem slot_of_vpn {v w : Word} (hv : lowHalf v = true) (hw : lowHalf w = true) (h : vpn v = vpn w) :
    tablePath v = tablePath w ∧ ptIdx v = ptIdx w :=
  (same_slot_iff hv hw).mpr h

theorem Shows.update_page {scope : Nat → Prop} {s : Spaces n} {t : RefSpaces n}
    (c : Shows scope s t) {k : Fin n} {m : Nat → Option Page} (tk : t k = some m) {v : Word}
    (low : lowHalf v = true) {vm' : Vm} (sound : ∃ L, Sound scope s.roots vm' L) {x : Option Page}
    (now : view s.roots vm'.mem k (tablePath v) (ptIdx v) = x)
    (others : ∀ k' q' l', LowPath (q' ++ [l']) → q'.length = 3 →
      ¬ (k' = k ∧ q' = tablePath v ∧ l' = ptIdx v) →
      view s.roots vm'.mem k' q' l' = view s.roots s.vm.mem k' q' l') :
    Shows scope ⟨vm', s.roots⟩ (Function.update t k (some (Function.update m (vpn v) x))) := by
  refine ⟨sound, ?_, ?_⟩
  · intro k'
    by_cases hk : k' = k
    · subst hk
      simpa [tk] using c.live k'
    · simpa [hk] using c.live k'
  · intro k' m' hm' w hw
    have lowW := tablePath_low (lowHalf_idx hw)
    by_cases hk : k' = k
    · subst hk
      simp only [Function.update_self, Option.some.injEq] at hm'
      subst hm'
      by_cases hv : vpn w = vpn v
      · obtain ⟨hp, hl⟩ := slot_of_vpn hw low hv
        rw [hp, hl, hv, Function.update_self]
        exact now
      · rw [Function.update_of_ne hv, ← c.pages k' m tk w hw]
        refine others _ _ _ lowW rfl ?_
        rintro ⟨-, hp, hl⟩
        exact hv ((same_slot_iff hw low).mp ⟨hp, hl⟩)
    · rw [Function.update_of_ne hk] at hm'
      rw [← c.pages k' m' hm' w hw]
      exact others _ _ _ lowW rfl fun h => hk h.1

theorem Sound.munmapPage {K : Type*} [DecidableEq K] {roots : K → Option Nat} {scope : Nat → Prop}
    {vm : Vm} {L : Finset (Ref K × Nat)} (w : Sound scope roots vm L) {k : K} {pml4 i : Nat}
    {addr : Word} (root : roots k = some pml4)
    (low : lowHalf (addr + BitVec.ofNat 64 (i * 4096)) = true) :
    ∃ L', Sound scope roots (munmapPage pml4 addr vm i) L' ∧
      view roots (munmapPage pml4 addr vm i).mem k (tablePath (addr + BitVec.ofNat 64 (i * 4096)))
        (ptIdx (addr + BitVec.ofNat 64 (i * 4096))) = none ∧
      ∀ k' q' l', LowPath (q' ++ [l']) → q'.length = 3 →
        ¬ (k' = k ∧ q' = tablePath (addr + BitVec.ofNat 64 (i * 4096)) ∧
          l' = ptIdx (addr + BitVec.ofNat 64 (i * 4096))) →
        view roots (munmapPage pml4 addr vm i).mem k' q' l' = view roots vm.mem k' q' l' := by
  unfold Isunux.munmapPage
  set v := addr + BitVec.ofNat 64 (i * 4096)
  have lowLeaf := tablePath_low (lowHalf_idx low)
  have found := w.owned.getPte_isNone root (lowHalf_idx low)
  cases leaf : leafWord roots vm.mem k (tablePath v) (ptIdx v) with
  | none =>
    rw [leaf, Option.isNone_none, Option.isNone_iff_eq_none] at found
    rw [found]
    refine ⟨L, w, ?_, by simp⟩
    rw [view, leaf]
    rfl
  | some e =>
    rw [w.owned.getPte root (lowHalf_idx low)]
    obtain ⟨pt, table, word, present⟩ := leafWord_some.mp leaf
    rw [table]
    simp only [Option.bind_some, word, present, if_true]
    have h := w.unmap lowLeaf rfl table leaf
    exact ⟨_, h.1, h.2.1, h.2.2⟩

theorem Shows.munmap {scope : Nat → Prop} {s : Spaces n} {t : RefSpaces n} (c : Shows scope s t)
    {k : Fin n} {m : Nat → Option Page} {pml4 : Nat} {addr length : Word} (tk : t k = some m)
    (root : s.roots k = some pml4) (low : lowRange addr length = true) :
    Shows scope ⟨processMunmap s.vm pml4 addr length, s.roots⟩
      (Function.update t k (some ((List.range (pagesOf length)).foldl
        (fun m i => Function.update m (vpn (addr + BitVec.ofNat 64 (i * 4096))) none) m))) := by
  have low : ∀ i, i < pagesOf length → lowHalf (addr + BitVec.ofNat 64 (i * 4096)) = true := by
    simpa [lowRange] using low
  have pages : ∀ j, j ≤ pagesOf length →
      Shows scope ⟨(List.range j).foldl (munmapPage pml4 addr) s.vm, s.roots⟩
        (Function.update t k (some ((List.range j).foldl
          (fun m i => Function.update m (vpn (addr + BitVec.ofNat 64 (i * 4096))) none) m))) := by
    intro j
    induction j with
    | zero =>
      intro _
      rw [List.range_zero, List.foldl_nil, List.foldl_nil, ← tk, Function.update_eq_self]
      exact c
    | succ j ih =>
      intro hj
      have c' := ih (by omega)
      obtain ⟨L, w⟩ := c'.sound
      rw [List.range_succ, List.foldl_append, List.foldl_append]
      obtain ⟨L', w', now, others⟩ := w.munmapPage root (low j (by omega))
      have h := c'.update_page (Function.update_self k _ t) (low j (by omega)) ⟨L', w'⟩ now others
      rwa [Function.update_idem] at h
  unfold processMunmap
  split
  · rename_i zero
    have none : pagesOf length = 0 := by rw [zero]; rfl
    have h := pages 0 (by omega)
    rw [none]
    exact h
  · exact pages _ le_rfl

theorem Shows.fault {scope : Nat → Prop} {s : Spaces n} {t : RefSpaces n} (c : Shows scope s t)
    {k : Fin n} {pml4 : Nat} {v err : Word} (root : s.roots k = some pml4) (low : lowHalf v = true)
    (fine : (tryHandleCowFault s.vm (some pml4) v err).1.pmm.exhausted = false) :
    Shows scope ⟨(tryHandleCowFault s.vm (some pml4) v err).1, s.roots⟩ t := by
  obtain ⟨L, w⟩ := c.sound
  have lowIdx := lowHalf_idx low
  have idle : ∀ r, (tryHandleCowFault s.vm (some pml4) v err) = (s.vm, r) →
      Shows scope ⟨(tryHandleCowFault s.vm (some pml4) v err).1, s.roots⟩ t := by
    intro r h
    rw [h]
    exact c
  by_cases bits : hasBits err pfErrPresent = true ∧ hasBits err pfErrWrite = true
  · cases leaf : leafWord s.roots s.vm.mem k (tablePath v) (ptIdx v) with
    | some e =>
      obtain ⟨-, -, L', w', -, same⟩ := w.cowFault root lowIdx leaf bits.1 bits.2 fine
      refine ⟨⟨L', w'⟩, c.live, ?_⟩
      intro k' m' hm' u hu
      rw [same _ _ _ (tablePath_low (lowHalf_idx hu)) rfl]
      exact c.pages k' m' hm' u hu
    | none =>
      refine idle false ?_
      have none := w.owned.getPte_isNone root lowIdx
      rw [leaf, Option.isNone_none, Option.isNone_iff_eq_none] at none
      simp [tryHandleCowFault, bits.1, bits.2, none]
  · refine idle false ?_
    have : (!hasBits err pfErrPresent || !hasBits err pfErrWrite) = true := by
      by_contra h
      simp only [Bool.or_eq_true, Bool.not_eq_true', not_or, Bool.not_eq_false] at h
      exact bits h
    simp [tryHandleCowFault, this]

theorem Cloned.view {K : Type*} {scope : Nat → Prop} {roots : K → Option Nat} {src dest k k₀ : K}
    {vm₀ vm : Vm} (c : Cloned scope roots src dest vm₀ vm fun _ => True)
    {L : Finset (Ref K × Nat)} (w : Sound scope roots vm₀ L) {q : List Nat} {l : Nat}
    (low : LowPath (q ++ [l])) (len : q.length = 3) (away : k₀ ≠ dest)
    (case : (k = src ∧ k₀ = src) ∨ (k = dest ∧ k₀ = src) ∨ (k ≠ src ∧ k ≠ dest ∧ k₀ = k)) :
    view roots vm.mem k q l = view roots vm₀.mem k₀ q l := by
  have same : ∀ e, leafWord roots vm₀.mem k₀ q l = some e →
      vm.mem (pteFrame e) = vm₀.mem (pteFrame e) := fun e he => c.pages k₀ q l e away low len he
  have forked : leafWord roots vm.mem k q l = (leafWord roots vm₀.mem k₀ q l).map forkedWord ∨
      leafWord roots vm.mem k q l = leafWord roots vm₀.mem k₀ q l := by
    rcases case with ⟨rfl, rfl⟩ | ⟨rfl, rfl⟩ | ⟨hs, hd, rfl⟩
    · exact .inl (c.srcDone q l low len trivial)
    · exact .inl (c.destDone q l low len trivial)
    · exact .inr (c.others _ q l hs hd low len)
  unfold Isunux.view
  cases leaf : leafWord roots vm₀.mem k₀ q l with
  | none =>
    rw [leaf] at forked
    rcases forked with h | h <;> rw [h] <;> rfl
  | some e =>
    obtain ⟨g, kind, small, rfl⟩ := w.owned.forest.leaves _ _ _ _ low len leaf
    have page := same _ leaf
    rw [leafEntry_frame small] at page
    rw [leaf] at forked
    rcases forked with h | h
    · rw [h, Option.map_some, Option.map_some, Option.map_some, pageOf_forked small]
      simp only [pageOf, leafEntry_frame small, page]
    · rw [h]
      simp only [Option.map_some, pageOf, leafEntry_frame small, page]

theorem Shows.fork {scope : Nat → Prop} {s : Spaces n} {t : RefSpaces n} (few : n < 255)
    (c : Shows scope s t) {src dest : Fin n} {m : Nat → Option Page} {pml4 : Nat}
    (tsrc : t src = some m) (rootSrc : s.roots src = some pml4) (vacant : s.roots dest = none)
    (fine : (vmmCloneLowerHalf (vmmNewAddressSpace s.vm).1 (vmmNewAddressSpace s.vm).2
      pml4).pmm.exhausted = false) :
    Shows scope ⟨vmmCloneLowerHalf (vmmNewAddressSpace s.vm).1 (vmmNewAddressSpace s.vm).2 pml4,
      Function.update s.roots dest (some (vmmNewAddressSpace s.vm).2)⟩
      (Function.update t dest (some m)) := by
  obtain ⟨L, w⟩ := c.sound
  have apart : src ≠ dest := by
    rintro rfl
    rw [rootSrc] at vacant
    cases vacant
  have fineNew : (vmmNewAddressSpace s.vm).1.pmm.exhausted = false := by
    by_contra h
    have := vmmCloneLowerHalf_exhausted (d := (vmmNewAddressSpace s.vm).2) (r := pml4)
      (by simpa using h)
    rw [this] at fine
    cases fine
  obtain ⟨w₁, empty, words, -, pages⟩ := w.newSpace vacant fineNew
  have few' : Fintype.card (Fin n) < 255 := by simpa using few
  have done := w₁.clone few' apart (by simpa [apart] using rootSrc) (Function.update_self _ _ _) empty
    fine
  generalize vmmCloneLowerHalf (vmmNewAddressSpace s.vm).1 (vmmNewAddressSpace s.vm).2 pml4 = vm'
    at done ⊢
  -- before the clone the other spaces show what they showed at the start
  have before : ∀ k q l, k ≠ dest → LowPath (q ++ [l]) → q.length = 3 →
      view (Function.update s.roots dest (some (vmmNewAddressSpace s.vm).2))
        (vmmNewAddressSpace s.vm).1.mem k q l = view s.roots s.vm.mem k q l := by
    intro k q l hk low len
    exact view_congr (words k q l hk low) fun e he => pages _ _ _ (w.owned.leaf_mem low he)
  refine ⟨done.sound, ?_, ?_⟩
  · intro k
    by_cases hk : k = dest
    · subst hk; simp
    · simpa [hk] using c.live k
  · intro k m' hm' v hv
    have lowLeaf := tablePath_low (lowHalf_idx hv)
    by_cases hk : k = dest
    · subst hk
      simp only [Function.update_self, Option.some.injEq] at hm'
      subst hm'
      rw [done.view w₁ lowLeaf rfl apart (.inr (.inl ⟨rfl, rfl⟩)), before _ _ _ apart lowLeaf rfl]
      exact c.pages src m tsrc v hv
    · rw [Function.update_of_ne hk] at hm'
      have case : (k = src ∧ k = src) ∨ (k = dest ∧ k = src) ∨ (k ≠ src ∧ k ≠ dest ∧ k = k) := by
        by_cases hs : k = src
        · exact .inl ⟨hs, hs⟩
        · exact .inr (.inr ⟨hs, hk, rfl⟩)
      rw [done.view w₁ lowLeaf rfl hk case, before _ _ _ hk lowLeaf rfl]
      exact c.pages k m' hm' v hv

/-- One step of the implementation is one step of the reference, with the same
answer. -/
theorem spaceStep_shows {scope : Nat → Prop} (few : n < 255) (s : Spaces n) (t : RefSpaces n)
    (op : SpaceOp n) (c : Shows scope s t)
    (fine : ¬ (spaceStep s op).1.vm.pmm.exhausted = true) :
    Shows scope (spaceStep s op).1 (refStep t op).1 ∧ (spaceStep s op).2 = (refStep t op).2 := by
  rw [Bool.not_eq_true] at fine
  obtain ⟨L, w⟩ := c.sound
  have both : ∀ k, (s.roots k = none ∧ t k = none) ∨ ∃ r m, s.roots k = some r ∧ t k = some m := by
    intro k
    have h := c.live k
    cases hr : s.roots k with
    | none => left; simpa [hr] using h
    | some r =>
      rw [hr, Option.isSome_some] at h
      obtain ⟨m, hm⟩ := Option.isSome_iff_exists.mp h.symm
      exact .inr ⟨r, m, rfl, hm⟩
  cases op with
  | create k =>
    rcases both k with ⟨hr, ht⟩ | ⟨r, m, hr, ht⟩
    · simp only [spaceStep, refStep, hr, ht] at fine ⊢
      obtain ⟨w₁, empty, words, -, pages⟩ := w.newSpace hr fine
      refine ⟨⟨⟨_, w₁⟩, ?_, ?_⟩, trivial⟩
      · intro k'
        by_cases hk : k' = k
        · subst hk; simp
        · simpa [hk] using c.live k'
      · intro k' m' hm' v hv
        have lowLeaf := tablePath_low (lowHalf_idx hv)
        by_cases hk : k' = k
        · subst hk
          simp only [Function.update_self, Option.some.injEq] at hm'
          subst hm'
          rw [view, empty _ _ lowLeaf rfl]
          rfl
        · rw [Function.update_of_ne hk] at hm'
          rw [← c.pages k' m' hm' v hv]
          exact view_congr (words _ _ _ hk lowLeaf) fun e he =>
            pages _ _ _ (w.owned.leaf_mem lowLeaf he)
    · simp only [spaceStep, refStep, hr, ht]
      exact ⟨c, trivial⟩
  | map k v contents writable =>
    rcases both k with ⟨hr, ht⟩ | ⟨r, m, hr, ht⟩
    · simp only [spaceStep, refStep, hr, ht]
      exact ⟨c, trivial⟩
    · simp only [spaceStep, refStep, hr, ht] at fine ⊢
      by_cases low : lowHalf v = true
      · have guard : (vmmGetPte s.vm.mem r v).isNone = (m (vpn v)).isNone := by
          rw [w.owned.getPte_isNone hr (lowHalf_idx low), ← c.pages k m ht v low, view,
            Option.isNone_map]
        rw [guard] at fine ⊢
        by_cases absent : (m (vpn v)).isNone = true
        · simp only [low, absent, Bool.and_self, if_true] at fine ⊢
          have unmapped : leafWord s.roots s.vm.mem k (tablePath v) (ptIdx v) = none := by
            rw [← Option.isNone_iff_eq_none, ← w.owned.getPte_isNone hr (lowHalf_idx low), guard,
              absent]
          have format : mapFlags writable ||| ptePresent =
              (if writable then Kind.rw else Kind.ro).flags := by cases writable <;> decide
          obtain ⟨L', w', now, others⟩ := w.mapFresh (lowHalf_idx low) hr unmapped format fine
          have hw : decide ((if writable = true then Kind.rw else Kind.ro) ≠ .ro) = writable := by
            cases writable <;> decide
          rw [hw] at now
          exact ⟨c.update_page ht low ⟨L', w'⟩ now others, trivial⟩
        · simp only [low, absent, Bool.and_false, Bool.false_eq_true, if_false]
          exact ⟨c, trivial⟩
      · simp only [low, Bool.false_and, Bool.false_eq_true, if_false]
        exact ⟨c, trivial⟩
  | fork src dest =>
    rcases both src with ⟨hr, ht⟩ | ⟨r, m, hr, ht⟩
    · simp only [spaceStep, refStep, hr, ht]
      exact ⟨c, trivial⟩
    · rcases both dest with ⟨hd, td⟩ | ⟨r', m', hd, td⟩
      · simp only [spaceStep, refStep, hr, ht, hd, td] at fine ⊢
        exact ⟨c.fork few ht hr hd fine, trivial⟩
      · simp only [spaceStep, refStep, hr, ht, hd, td]
        exact ⟨c, trivial⟩
  | read k v =>
    rcases both k with ⟨hr, ht⟩ | ⟨r, m, hr, ht⟩
    · simp only [spaceStep, refStep, hr, ht]
      exact ⟨c, trivial⟩
    · simp only [spaceStep, refStep, hr, ht]
      refine ⟨c, ?_⟩
      by_cases low : lowHalf v = true
      · rw [userRead, w.owned.userLeaf hr low, ← c.pages k m ht v low, view]
        simp only [low, if_true, Option.map_map]
        rfl
      · simp [userRead, userLeaf, low]
  | write k v b =>
    rcases both k with ⟨hr, ht⟩ | ⟨r, m, hr, ht⟩
    · simp only [spaceStep, refStep, hr, ht]
      exact ⟨c, trivial⟩
    · simp only [spaceStep, refStep, hr, ht] at fine ⊢
      by_cases low : lowHalf v = true
      · obtain ⟨ok, L', w', now, others⟩ := w.userWrite b hr low fine
        rw [c.pages k m ht v low] at ok now
        simp only [low, if_true]
        exact ⟨c.update_page ht low ⟨L', w'⟩ now others, by rw [ok]⟩
      · rw [userWrite_unmapped b (by simp [userLeaf, low])]
        simp only [low, Bool.false_eq_true, if_false]
        exact ⟨c, trivial⟩
  | fault k v err =>
    rcases both k with ⟨hr, ht⟩ | ⟨r, m, hr, ht⟩
    · simp only [spaceStep, refStep, hr]
      exact ⟨c, trivial⟩
    · simp only [spaceStep, refStep, hr] at fine ⊢
      by_cases low : lowHalf v = true
      · simp only [low, if_true] at fine ⊢
        exact ⟨c.fault hr low fine, trivial⟩
      · simp only [low, Bool.false_eq_true, if_false]
        exact ⟨c, trivial⟩
  | munmap k addr length =>
    rcases both k with ⟨hr, ht⟩ | ⟨r, m, hr, ht⟩
    · simp only [spaceStep, refStep, hr, ht]
      exact ⟨c, trivial⟩
    · simp only [spaceStep, refStep, hr, ht] at fine ⊢
      by_cases low : lowRange addr length = true
      · simp only [low, if_true]
        exact ⟨c.munmap ht hr low, trivial⟩
      · simp only [low, Bool.false_eq_true, if_false]
        exact ⟨c, trivial⟩
  | destroy k =>
    rcases both k with ⟨hr, ht⟩ | ⟨r, m, hr, ht⟩
    · simp only [spaceStep, refStep, hr]
      rw [← ht, Function.update_eq_self]
      exact ⟨c, trivial⟩
    · simp only [spaceStep, refStep, hr]
      obtain ⟨same, L', w', gone, words⟩ := w.destroy hr
      refine ⟨⟨⟨L', w'⟩, ?_, ?_⟩, trivial⟩
      · intro k'
        by_cases hk : k' = k
        · subst hk; simp
        · simpa [hk] using c.live k'
      · intro k' m' hm' v hv
        have hk : k' ≠ k := by
          rintro rfl
          rw [Function.update_self] at hm'
          cases hm'
        rw [Function.update_of_ne hk] at hm'
        simp only [same]
        rw [← c.pages k' m' hm' v hv]
        exact view_congr (words _ _ _ hk) fun _ _ => rfl

theorem noSpaces_shows (vm : Vm) :
    Shows (freeAtStart vm.pmm) (noSpaces (n := n) vm) fun _ => none :=
  ⟨⟨∅, noSpaces_sound vm⟩, fun _ => rfl, fun _ _ h => by cases h⟩

/-- Copy-on-write fork refines eager copying: along every run in which no page
allocation fails, each load and store answers as in the reference. -/
theorem cow_fork_refines_eager_copy (few : n < 255) (vm : Vm) (ops : List (SpaceOp n))
    (fine : (Run.run spaceStep (noSpaces vm) ops).1.vm.pmm.exhausted = false) :
    (Run.run spaceStep (noSpaces vm) ops).2 = (Run.run refStep (fun _ => none) ops).2 :=
  (Run.run_simulation spaceStep refStep (fun s => s.vm.pmm.exhausted = true)
    (Shows (freeAtStart vm.pmm)) spaceStep_exhausted (spaceStep_shows few) (noSpaces vm)
    (fun _ => none) ops (noSpaces_shows vm) (by simp [fine])).2

/-- Everywhere a frame is referred to from the low half of a live space: the root
and the tables at paths of length up to three, leaf entries at length four. -/
def refsTo (s : Spaces n) (f : Nat) : Set (Fin n × List Nat) :=
  { r | LowPath r.2 ∧ at_ s.roots s.vm.mem r.1 r.2 = some f }

def FreeFrame (s : Spaces n) (f : Nat) : Prop := s.vm.pmm.bitmap f = false ∧ refsTo s f = ∅

def TableFrame (s : Spaces n) (f : Nat) : Prop :=
  s.vm.pmm.bitmap f = true ∧ s.vm.pmm.refcount f = 1 ∧
    ∃ k q, q.length ≤ 3 ∧ refsTo s f = {(k, q)}

/-- The frame is mapped, and its owner count is the number of leaf entries. -/
def DataFrame (s : Spaces n) (f : Nat) : Prop :=
  s.vm.pmm.bitmap f = true ∧ (refsTo s f).Nonempty ∧ (∀ r ∈ refsTo s f, r.2.length = 4) ∧
    (s.vm.pmm.refcount f).toNat = (refsTo s f).ncard

theorem Sound.refsTo_ncard {scope : Nat → Prop} {s : Spaces n} {L : Finset (Ref (Fin n) × Nat)}
    (w : Sound scope s.roots s.vm L) (f : Nat) : (refsTo s f).ncard = Ledger.held L f := by
  have h : refsTo s f = (L.filter fun e => e.2 = f).image Prod.fst := by
    ext ⟨k, q⟩
    simp only [refsTo, Set.mem_ofPred_eq, Finset.coe_image, Finset.coe_filter, Set.mem_image]
    rw [← w.owned.forest.nodes]
    constructor
    · exact fun h => ⟨((k, q), f), ⟨h, rfl⟩, rfl⟩
    · rintro ⟨⟨r, g⟩, ⟨h, rfl⟩, rfl⟩
      exact h
  rw [h, Set.ncard_coe_finset, Finset.card_image_of_injOn, Ledger.held]
  rintro ⟨r, g⟩ hr ⟨r', g'⟩ hr' heq
  simp only [Finset.coe_filter, Set.mem_ofPred_eq] at hr hr'
  simp only at heq
  rw [heq, hr.2, hr'.2]

theorem Sound.mem_refsTo {scope : Nat → Prop} {s : Spaces n} {L : Finset (Ref (Fin n) × Nat)}
    (w : Sound scope s.roots s.vm L) {r : Fin n × List Nat} {f : Nat} :
    r ∈ refsTo s f ↔ (r, f) ∈ L :=
  (w.owned.forest.nodes r.1 r.2 f).symm

theorem Sound.situation {scope : Nat → Prop} {s : Spaces n} {L : Finset (Ref (Fin n) × Nat)}
    (w : Sound scope s.roots s.vm L) {f : Nat} (inScope : scope f) :
    FreeFrame s f ∨ TableFrame s f ∨ DataFrame s f := by
  have used := w.owned.accounts.balanced.used_iff f inScope
  by_cases free : s.vm.pmm.bitmap f = false
  · left
    refine ⟨free, Set.eq_empty_iff_forall_notMem.mpr ?_⟩
    intro r hr
    exact w.owned.accounts.balanced.not_mem_of_unused free r (w.mem_refsTo.mp hr)
  · rw [Bool.not_eq_false] at free
    obtain ⟨⟨k, q⟩, here⟩ := Ledger.held_pos.mp (used.mp free)
    have count := w.owned.accounts.balanced.counted f (used.mp free)
    right
    by_cases table : ∃ r, (r, f) ∈ L ∧ Ref.table r
    · obtain ⟨r, hr, table⟩ := table
      left
      have one := w.owned.accounts.balanced.single _ hr table
      refine ⟨free, ?_, r.1, r.2, table, ?_⟩
      · rw [one] at count
        exact UInt8.toNat_inj.mp count
      · ext r'
        rw [w.mem_refsTo, Set.mem_singleton_iff]
        constructor
        · exact fun h => Ledger.eq_of_held_one one h hr
        · rintro rfl; exact hr
    · right
      refine ⟨free, ⟨(k, q), w.mem_refsTo.mpr here⟩, ?_, ?_⟩
      · intro r hr
        have long : ¬ Ref.table r := fun h => table ⟨r, w.mem_refsTo.mp hr, h⟩
        have low := hr.1.1
        simp only [Ref.table] at long
        omega
      · rw [w.refsTo_ncard]
        exact count

/-- Frame ownership is exact in every reachable state. -/
theorem frame_ownership_exact (few : n < 255) (vm : Vm) (ops : List (SpaceOp n))
    (fine : (Run.run spaceStep (noSpaces vm) ops).1.vm.pmm.exhausted = false) (f : Nat)
    (obtainable : freeAtStart vm.pmm f) :
    let s := (Run.run spaceStep (noSpaces vm) ops).1
    (FreeFrame s f ∧ ¬ TableFrame s f ∧ ¬ DataFrame s f) ∨
      (¬ FreeFrame s f ∧ TableFrame s f ∧ ¬ DataFrame s f) ∨
      (¬ FreeFrame s f ∧ ¬ TableFrame s f ∧ DataFrame s f) := by
  intro s
  have shows := (Run.run_simulation spaceStep refStep (fun s => s.vm.pmm.exhausted = true)
    (Shows (freeAtStart vm.pmm)) spaceStep_exhausted (spaceStep_shows few) (noSpaces vm)
    (fun _ => none) ops (noSpaces_shows vm) (by simp [fine])).1
  obtain ⟨L, w⟩ := shows.sound
  have apart : TableFrame s f → ¬ DataFrame s f := by
    rintro ⟨-, -, k, q, short, only⟩ ⟨-, -, long, -⟩
    have := long (k, q) (by rw [only]; rfl)
    simp only at this
    omega
  have used : FreeFrame s f → ¬ TableFrame s f ∧ ¬ DataFrame s f := by
    rintro ⟨free, -⟩
    exact ⟨fun h => by simp [h.1] at free, fun h => by simp [h.1] at free⟩
  rcases w.situation obtainable with free | table | data
  · exact .inl ⟨free, used free⟩
  · exact .inr (.inl ⟨fun h => (used h).1 table, table, apart table⟩)
  · exact .inr (.inr ⟨fun h => (used h).2 data, fun h => apart h data, data⟩)

end Machine

def smallVm : Vm :=
  { pmm := .small 32#6 (fun f => decide (f = 0)) (fun f => if f = 0 then 1 else 0) 31 1
    mem := fun _ _ => 0#64
    kernelPml4 := 0 }

def forkAndStore : List (SpaceOp 2) :=
  [.create 0, .map 0 0x400000#64 (fun _ => 7#64) true, .fork 0 1, .write 1 0x400000#64 9#8,
    .read 0 0x400000#64]

set_option maxRecDepth 10000 in
theorem cow_fork_refines_eager_copy_small :
    (Run.run spaceStep (noSpaces smallVm) forkAndStore).2 =
      (Run.run refStep (fun _ => none) forkAndStore).2 :=
  cow_fork_refines_eager_copy (by decide) smallVm forkAndStore (by decide +kernel)

set_option maxRecDepth 10000 in
theorem frame_ownership_exact_small :
    let s := (Run.run spaceStep (noSpaces smallVm) forkAndStore).1
    (FreeFrame s 3 ∧ ¬ TableFrame s 3 ∧ ¬ DataFrame s 3) ∨
      (¬ FreeFrame s 3 ∧ TableFrame s 3 ∧ ¬ DataFrame s 3) ∨
      (¬ FreeFrame s 3 ∧ ¬ TableFrame s 3 ∧ DataFrame s 3) :=
  frame_ownership_exact (by decide) smallVm forkAndStore (by decide +kernel) 3
    ⟨by decide, by decide, by decide⟩

end Isunux
