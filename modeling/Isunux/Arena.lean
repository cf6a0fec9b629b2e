import Isunux.Mmap

/-! Runs of `process_mmap` and `process_munmap`. What is handed out is the range between
the arena pointer and where it moves, so the ranges of a run lie one above the other. -/
namespace Isunux

open Radix

structure Arena where
  vm : Vm
  process : Process

inductive ArenaOp where
  | mmap (length prot flags : Word) (fd : Int)
  | munmap (addr length : Word)

def arenaStep (a : Arena) : ArenaOp → Arena × Word
  | .mmap length prot flags fd =>
    let r := processMmap a.vm a.process length prot flags fd
    (⟨r.1, r.2.1⟩, r.2.2)
  | .munmap addr length => (⟨processMunmap a.vm a.process.pml4 addr length, a.process⟩, 0#64)

def isError (ret : Word) : Bool := 0xFFFFFFFFFFFFF000#64 < ret

/-- What a call that is answered with an address owes. -/
def MmapMeets (a : Arena) : ArenaOp → Prop
  | .mmap length prot flags fd =>
    let r := processMmap a.vm a.process length prot flags fd
    isError r.2.2 = false → 4096 ∣ r.2.2.toNat ∧
      ∀ x, r.2.2.toNat ≤ x → x < r.2.2.toNat + length.toNat → ∃ e,
        userLeaf r.1.mem a.process.pml4 (BitVec.ofNat 64 x) = some e ∧ hasBits e pteWrite = hasBits prot protWrite ∧
          userRead r.1 a.process.pml4 (BitVec.ofNat 64 x) = some 0#8
  | .munmap _ _ => True

/-- The ranges handed out in a run: where each begins and its length. -/
def granted (a : Arena) : List ArenaOp → List (Nat × Nat)
  | [] => []
  | .mmap length prot flags fd :: rest =>
    let r := arenaStep a (.mmap length prot flags fd)
    if isError r.2 then granted r.1 rest else (r.2.toNat, length.toNat) :: granted r.1 rest
  | .munmap addr length :: rest => granted (arenaStep a (.munmap addr length)).1 rest

def DisjointRanges (r r' : Nat × Nat) : Prop := ∀ x, r.1 ≤ x → x < r.1 + r.2 → r'.1 ≤ x → ¬ x < r'.1 + r'.2

/-- The loop of `process_mmap` goes as far as page `j`, below 2^47, because there is memory for
all pages up to there and none for one more. -/
structure MmapStops (a : Arena) (n j : Nat) : Prop where
  paid : pagesNeeded a.vm.mem a.process.pml4 ((List.range j).map (pageOfRange a.process.mmapNext)) ≤
    freeFrames a.vm.pmm
  stop : j = n ∨ j < n ∧ freeFrames a.vm.pmm =
    pagesNeeded a.vm.mem a.process.pml4 ((List.range j).map (pageOfRange a.process.mmapNext))
  fits : a.process.mmapNext.toNat + j * 4096 ≤ 2 ^ 47

/-- A call that is not refused for its arguments asks for no more than 2^64 - 4096 bytes; it
and every `process_munmap` stay below 2^47, and memory does not run out in a table. -/
def ArenaServed (a : Arena) : ArenaOp → Prop
  | .mmap length _ flags fd => length ≠ 0#64 → hasBits flags mapAnonymous = true → fd = -1 →
    length.toNat ≤ 2 ^ 64 - 4096 ∧ ∃ j, MmapStops a (pagesOf length) j
  | .munmap addr length => lowRange addr length = true

section Runs

variable {K : Type*} [DecidableEq K] {roots : K → Option Nat} {scope : Nat → Prop} {s t : Vm} {a : Arena}
  {k : K} {pml4 : Nat} {length prot flags : Word} {fd : Int}

structure ArenaSound (scope : Nat → Prop) (roots : K → Option Nat) (k : K) (a : Arena) : Prop where
  owned : ∃ L M, Owned scope roots a.vm.mem a.vm.pmm L M
  zero : Held a.vm.pmm 0
  root : roots k = some a.process.pml4
  aligned : 4096 ∣ a.process.mmapNext.toNat

theorem Owned.unmapAll {vs : List Word} (o : ∃ L M, Owned scope roots s.mem s.pmm L M) (zero : Held s.pmm 0)
    (root : roots k = some pml4) (low : ∀ v ∈ vs, pml4Idx v < 256) :
    (∃ L M, Owned scope roots (vs.foldl (Isunux.unmapAt pml4) s).mem (vs.foldl (Isunux.unmapAt pml4) s).pmm L M) ∧
      Held (vs.foldl (Isunux.unmapAt pml4) s).pmm 0 := by
  refine Run.foldl_rule (fun u : Vm => (∃ L M, Owned scope roots u.mem u.pmm L M) ∧ Held u.pmm 0)
    (Isunux.unmapAt pml4) vs s ⟨o, zero⟩ fun v mem u inv => ?_
  obtain ⟨⟨L, M, owned⟩, held⟩ := inv
  obtain ⟨next, one⟩ := owned.unmapAt root (low v mem)
  refine ⟨next, ?_⟩
  rw [one.pages]
  cases leaf : leafWord roots u.mem k (tablePath v) (ptIdx v) with
  | none => exact held
  | some e =>
    -- page 0 is nobody's, so it is not the one given back
    have inside := owned.accounts.balanced.within _ (owned.sub (owned.leaf_mem (tablePath_low (low v mem)) leaf))
    have other : 0 ≠ pteFrame e := (owned.accounts.tracked _ inside).2.symm
    intro bound
    dsimp only at bound ⊢
    rw [pmmFreePage_total] at bound
    rw [(pmmFreePage_other u.pmm other).1]
    exact held bound

theorem ArenaSound.munmap (sound : ArenaSound scope roots k a) {addr length : Word}
    (low : lowRange addr length = true) :
    ArenaSound scope roots k ⟨processMunmap a.vm a.process.pml4 addr length, a.process⟩ := by
  unfold processMunmap
  split
  · exact sound
  · rw [munmapPages_at]
    have lowPages : ∀ v ∈ (List.range (pagesOf length)).map (pageOfRange addr), pml4Idx v < 256 := by
      intro v mem
      obtain ⟨i, hi, rfl⟩ := List.mem_map.mp mem
      exact lowHalf_idx (List.all_eq_true.mp low i hi)
    obtain ⟨owned, zero⟩ := Owned.unmapAll sound.owned sound.zero sound.root lowPages
    exact ⟨owned, zero, sound.root, sound.aligned⟩

theorem pagesOf_covers (small : length.toNat ≤ 2 ^ 64 - 4096) : length.toNat ≤ pagesOf length * 4096 := by
  have sum : (length + 4095#64).toNat = length.toNat + 4095 := by
    rw [BitVec.toNat_add]
    exact Nat.mod_eq_of_lt (by simp; omega)
  rw [pagesOf, sum]
  omega

/-- What one call does, and that the arena pointer moves past what it hands out. -/
structure Handed (scope : Nat → Prop) (roots : K → Option Nat) (k : K) (a : Arena) (length prot : Word)
    (b : Arena) (ret : Word) : Prop where
  sound : ArenaSound scope roots k b
  space : b.process.pml4 = a.process.pml4
  climbs : a.process.mmapNext.toNat ≤ b.process.mmapNext.toNat
  base : isError ret = false → ret = a.process.mmapNext ∧
    a.process.mmapNext.toNat + length.toNat ≤ b.process.mmapNext.toNat
  mapped : isError ret = false → ∀ x, ret.toNat ≤ x → x < ret.toNat + length.toNat → ∃ e,
    userLeaf b.vm.mem a.process.pml4 (BitVec.ofNat 64 x) = some e ∧ hasBits e pteWrite = hasBits prot protWrite ∧
      userRead b.vm a.process.pml4 (BitVec.ofNat 64 x) = some 0#8

omit [DecidableEq K] in
theorem Handed.refused (sound : ArenaSound scope roots k a) {ret : Word} (error : isError ret = true) :
    Handed scope roots k a length prot a ret := by
  refine ⟨sound, rfl, le_rfl, fun fine => ?_, fun fine => ?_⟩
  · rw [error] at fine
    cases fine
  · rw [error] at fine
    cases fine

theorem ArenaSound.mmap (sound : ArenaSound scope roots k a) (served : ArenaServed a (.mmap length prot flags fd)) :
    Handed scope roots k a length prot (arenaStep a (.mmap length prot flags fd)).1
      (arenaStep a (.mmap length prot flags fd)).2 := by
  change Handed scope roots k a length prot ⟨(processMmap a.vm a.process length prot flags fd).1,
    (processMmap a.vm a.process length prot flags fd).2.1⟩ (processMmap a.vm a.process length prot flags fd).2.2
  rw [processMmap]
  by_cases none : length = 0#64
  · rw [if_pos none]
    exact .refused sound rfl
  rw [if_neg none]
  by_cases file : (!hasBits flags mapAnonymous || decide (fd ≠ -1)) = true
  · rw [if_pos file]
    exact .refused sound rfl
  rw [if_neg file]
  have accepted : hasBits flags mapAnonymous = true ∧ fd = -1 := by simpa using file
  obtain ⟨small, j, stops⟩ := served none accepted.1 accepted.2
  have last : j ≤ pagesOf length := by
    rcases stops.stop with rfl | ⟨less, -⟩
    · exact le_rfl
    · exact less.le
  obtain ⟨L, M, owned⟩ := sound.owned
  obtain ⟨count, u, M', pages, zeroed, shape, agree⟩ := owned.mapZeroPages sound.zero sound.root
    (mmapFlags_kind prot) stops.fits last stops.paid (stops.stop.imp_right And.right)
  obtain ⟨L', owned'⟩ := zeroed.owned
  have here := owned'.of_agree agree
  have zero : Held (mapZeroPages a.process.pml4 a.process.mmapNext (mmapFlags prot) (pagesOf length) 0 a.vm).1.pmm 0 :=
    mapZeroPages_grown.held sound.zero
  dsimp only
  rw [← mmapFlags, count]
  by_cases short : j < pagesOf length
  · -- the pages mapped so far are taken back
    rw [if_pos short, munmapPages_at]
    obtain ⟨back, held⟩ := Owned.unmapAll ⟨L', M', here⟩ zero sound.root fun v mem =>
      pageOfRange_low_idx stops.fits mem
    exact ⟨⟨back, held, sound.root, sound.aligned⟩, rfl, le_rfl, fun same => (by cases same),
      fun same => by cases same⟩
  · rw [if_neg short]
    obtain rfl : j = pagesOf length := by omega
    have covers := pagesOf_covers small
    have fits := stops.fits
    have next : (a.process.mmapNext + BitVec.ofNat 64 (pagesOf length * 4096)).toNat =
        a.process.mmapNext.toNat + pagesOf length * 4096 := by
      rw [BitVec.toNat_add, BitVec.toNat_ofNat]
      omega
    refine ⟨⟨⟨L', M', here⟩, zero, sound.root, ?_⟩, rfl, ?_, fun _ => ⟨rfl, ?_⟩, fun _ x lower upper => ?_⟩
    · rw [next]
      exact (Nat.dvd_add_right sound.aligned).mpr ⟨_, Nat.mul_comm _ _⟩
    · rw [next]
      exact Nat.le_add_right _ _
    · rw [next]
      exact Nat.add_le_add_left covers _
    · obtain ⟨e, leaf, writable, blank⟩ := zeroed.range_leaf sound.root shape fits sound.aligned lower
        (upper.trans_le (Nat.add_le_add_left covers _))
      have mem := agree.mem
      refine ⟨e, by rw [mem]; exact leaf, ?_, ?_⟩
      · rw [writable, mmapKind]
        cases hasBits prot protWrite
        · decide
        · decide
      · rw [userRead, mem, leaf, Option.map_some, blank]
        simp [byteAt]

theorem ArenaSound.step (sound : ArenaSound scope roots k a) {op : ArenaOp} (served : ArenaServed a op) :
    ArenaSound scope roots k (arenaStep a op).1 ∧ MmapMeets a op := by
  cases op with
  | mmap length prot flags fd =>
    have handed := sound.mmap served
    refine ⟨handed.sound, fun fine => ⟨?_, handed.mapped fine⟩⟩
    have base := (handed.base fine).1
    rw [arenaStep] at base
    rw [base]
    exact sound.aligned
  | munmap addr length => exact ⟨sound.munmap served, trivial⟩

theorem granted_above (sound : ArenaSound scope roots k a) {ops : List ArenaOp}
    (served : Run.Along arenaStep ArenaServed a ops) : ∀ r ∈ granted a ops, a.process.mmapNext.toNat ≤ r.1 := by
  induction ops generalizing a with
  | nil => exact fun r mem => absurd mem List.not_mem_nil
  | cons op ops ih =>
    have later := ih (sound.step served.1).1 served.2
    cases op with
    | mmap length prot flags fd =>
      have handed := sound.mmap served.1
      intro r mem
      rw [granted] at mem
      by_cases error : isError (arenaStep a (.mmap length prot flags fd)).2 = true
      · rw [if_pos error] at mem
        exact handed.climbs.trans (later r mem)
      · rw [if_neg error] at mem
        rcases List.mem_cons.mp mem with rfl | mem
        · rw [(handed.base (eq_false_of_ne_true error)).1]
        · exact handed.climbs.trans (later r mem)
    | munmap addr length => exact later

theorem granted_disjoint (sound : ArenaSound scope roots k a) {ops : List ArenaOp}
    (served : Run.Along arenaStep ArenaServed a ops) : (granted a ops).Pairwise DisjointRanges := by
  induction ops generalizing a with
  | nil => exact .nil
  | cons op ops ih =>
    have later := ih (sound.step served.1).1 served.2
    cases op with
    | mmap length prot flags fd =>
      have handed := sound.mmap served.1
      rw [granted]
      by_cases error : isError (arenaStep a (.mmap length prot flags fd)).2 = true
      · rw [if_pos error]
        exact later
      · rw [if_neg error]
        refine List.pairwise_cons.mpr ⟨fun r mem x lower upper above => ?_, later⟩
        obtain ⟨base, ends⟩ := handed.base (eq_false_of_ne_true error)
        have start := granted_above handed.sound served.2 r mem
        rw [base] at upper
        dsimp only at upper
        omega
    | munmap addr length => exact later

/-- In a run of such calls, whatever is unmapped in between, every answered call has mapped its
whole range anew, and the ranges are disjoint. -/
theorem mmap_runs (sound : ArenaSound scope roots k a) {ops : List ArenaOp}
    (served : Run.Along arenaStep ArenaServed a ops) :
    Run.Along arenaStep MmapMeets a ops ∧ (granted a ops).Pairwise DisjointRanges :=
  ⟨served.gives (ArenaSound scope roots k) (fun _ _ inv ok => (inv.step ok).1) (fun _ _ inv ok => (inv.step ok).2) sound,
    granted_disjoint sound served⟩

end Runs

/-- A new program on the machine of six pages. -/
def sixArena : Arena := ⟨sixSpace, emptyHeap⟩

theorem sixArena_sound : ArenaSound (freeAtStart sixPages.pmm) (only 1) 0 sixArena := by
  have root : (vmmNewAddressSpace sixPages).2 = 1 := by decide +kernel
  have fine : (vmmNewAddressSpace sixPages).1.pmm.exhausted = false := by decide +kernel
  obtain ⟨L, sound⟩ := (newSpace_sound fine).1
  rw [root] at sound
  exact ⟨⟨L, L, sound.owned⟩, fun _ => by decide +kernel, rfl, by decide⟩

def twoPages : List ArenaOp :=
  [.mmap 100#64 protWrite mapAnonymous (-1), .munmap 0x40000000#64 100#64, .mmap 4096#64 protWrite mapAnonymous (-1)]

theorem mmap_runs_twoPages :
    Run.Along arenaStep MmapMeets sixArena twoPages ∧ (granted sixArena twoPages).Pairwise DisjointRanges := by
  have low : lowRange 0x40000000#64 100#64 = true := by decide
  refine mmap_runs sixArena_sound ⟨fun _ _ _ => ⟨by decide, 1, ?_⟩, low, fun _ _ _ => ⟨by decide, 1, ?_⟩, trivial⟩
  · exact ⟨by decide +kernel, by decide +kernel, by decide⟩
  · exact ⟨by decide +kernel, by decide +kernel, by decide +kernel⟩

/-- The rounding of a length near 2^64 wraps to no page at all, and the call is answered with an
address where nothing is mapped. -/
theorem wrapped_mmap_maps_nothing :
    ¬ Run.Along arenaStep MmapMeets sixArena [.mmap 0xFFFFFFFFFFFFFFFF#64 protWrite mapAnonymous (-1)] := by
  rintro ⟨meets, -⟩
  have fine : isError (processMmap sixSpace emptyHeap 0xFFFFFFFFFFFFFFFF#64 protWrite mapAnonymous (-1)).2.2 = false := by
    decide +kernel
  have run : processMmap sixArena.vm sixArena.process 0xFFFFFFFFFFFFFFFF#64 protWrite mapAnonymous (-1) =
      (sixSpace, emptyHeap, 0x40000000#64) := rfl
  have root : (vmmNewAddressSpace sixPages).2 = 1 := by decide +kernel
  have vacant := newSpace_vacant (s := sixPages) (by decide +kernel)
  obtain ⟨-, mapped⟩ := meets fine
  rw [run] at mapped
  obtain ⟨e, leaf, -⟩ := mapped 0x40000000 (by decide) (by decide)
  rw [root] at vacant
  have none : userLeaf sixSpace.mem emptyHeap.pml4 (BitVec.ofNat 64 0x40000000) = none := vacant _
  cases none.symm.trans leaf

end Isunux
