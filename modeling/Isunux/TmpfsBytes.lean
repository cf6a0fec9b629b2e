import Isunux.TmpfsRuns
import Isunux.Lib.Bytes

/-! tmpfs files as byte arrays. The buffer of a file may be larger than the file and is
not zeroed when it grows, so that reads stay inside what was written rests on
`offset ≤ size ≤ capacity` for every descriptor. -/
namespace Isunux

open Bytes

/-! Bytes of a buffer after the copying loops -/

theorem bufferByte_storeByte (mem : PhysMem) (f o : Nat) (b : BitVec 8) (o' : Nat) :
    bufferByte (storeByte mem (f + o / 4096) (o % 4096) b) f o' =
      if o' = o then b else bufferByte mem f o' := by
  unfold bufferByte
  by_cases page : o' / 4096 = o / 4096
  · rw [page, byteAt_storeByte]
    by_cases same : o' = o
    · rw [if_pos (by rw [same]), if_pos same]
    · rw [if_neg (by omega), if_neg same]
  · rw [storeByte_other _ _ _ (by omega), if_neg (by rintro rfl; exact page rfl)]

theorem storeIndex_eq {offset : Word} {j : Nat} (fits : offset.toNat + j < 2 ^ 64) :
    storeIndex offset j = offset.toNat + j := by
  rw [storeIndex, BitVec.toNat_add, BitVec.toNat_ofNat]
  omega

theorem storeIndex_le (offset : Word) (j : Nat) : storeIndex offset j ≤ offset.toNat + j := by
  rw [storeIndex, BitVec.toNat_add, BitVec.toNat_ofNat]
  omega

theorem storeBytes_byte (mem : PhysMem) (f : Nat) {offset : Word} (src : Nat → BitVec 8) {n : Nat}
    (fits : offset.toNat + n ≤ 2 ^ 64) (o : Nat) :
    bufferByte (storeBytes mem f offset src n) f o =
      if offset.toNat ≤ o ∧ o < offset.toNat + n then src (o - offset.toNat) else bufferByte mem f o := by
  refine Run.range_rule (fun n (m : PhysMem) => bufferByte m f o =
    if offset.toNat ≤ o ∧ o < offset.toNat + n then src (o - offset.toNat) else bufferByte mem f o)
    _ n mem (by rw [if_neg (by omega)]) fun j low m h => ?_
  rw [bufferByte_storeByte, h, storeIndex_eq (by omega)]
  by_cases here : o = offset.toNat + j
  · rw [if_pos here, if_pos (by omega), here, Nat.add_sub_cancel_left]
  · rw [if_neg here]
    by_cases before : offset.toNat ≤ o ∧ o < offset.toNat + j
    · rw [if_pos before, if_pos (by omega)]
    · rw [if_neg before, if_neg (by omega)]

theorem storeBytes_above (mem : PhysMem) (f : Nat) {offset : Word} (src : Nat → BitVec 8) {n o : Nat}
    (above : offset.toNat + n ≤ o) : bufferByte (storeBytes mem f offset src n) f o = bufferByte mem f o := by
  refine Run.foldl_rule (fun m : PhysMem => bufferByte m f o = bufferByte mem f o) _ _ mem rfl fun j hj m h => ?_
  have bound := List.mem_range.mp hj
  have below := storeIndex_le offset j
  rw [bufferByte_storeByte, if_neg (by omega), h]

theorem storeBytes_frame (mem : PhysMem) {f pages g : Nat} {offset : Word} (src : Nat → BitVec 8)
    {n : Nat} (inside : offset.toNat + n ≤ pages * 4096) (off : ¬ (f ≤ g ∧ g < f + pages)) :
    storeBytes mem f offset src n g = mem g := by
  refine Run.foldl_rule (fun m : PhysMem => m g = mem g) _ _ mem rfl fun j hj m h => ?_
  have bound := List.mem_range.mp hj
  have below := storeIndex_le offset j
  rw [storeByte_other _ _ _ (by omega), h]

theorem copyBuffer_frame (mem : PhysMem) {dst pages g : Nat} (src : Nat) {n : Nat}
    (inside : n ≤ pages * 4096) (off : ¬ (dst ≤ g ∧ g < dst + pages)) :
    copyBuffer mem dst src n g = mem g := by
  refine Run.foldl_rule (fun m : PhysMem => m g = mem g) _ _ mem rfl fun j hj m h => ?_
  have bound := List.mem_range.mp hj
  rw [storeByte_other _ _ _ (by omega), h]

theorem copyBuffer_byte (mem : PhysMem) {dst src n : Nat}
    (apart : ∀ i j, i < n → j < n → dst + i / 4096 ≠ src + j / 4096) {o : Nat} (low : o < n) :
    bufferByte (copyBuffer mem dst src n) dst o = bufferByte mem src o := by
  have loop := Run.range_rule
    (fun k (m : PhysMem) => (∀ j, j < n → bufferByte m src j = bufferByte mem src j) ∧
      ∀ j, j < k → bufferByte m dst j = bufferByte mem src j)
    (fun m j => storeByte m (dst + j / 4096) (j % 4096) (bufferByte m src j)) n mem
    ⟨fun _ _ => rfl, fun j h => absurd h (Nat.not_lt_zero j)⟩
    (by
      rintro k hk m ⟨source, copied⟩
      refine ⟨fun j hj => ?_, fun j hj => ?_⟩
      · rw [← source j hj]
        unfold bufferByte
        rw [storeByte_other _ _ _ (apart k j hk hj).symm]
      · rw [bufferByte_storeByte]
        by_cases here : j = k
        · rw [if_pos here, here, source k hk]
        · rw [if_neg here]
          exact copied j (by omega))
  exact loop.2 o low

/-! The size of a grown buffer -/

theorem growPages_some {needed : Word} (small : needed.toNat < 2 ^ 63) {fuel : Nat} {pages : Word}
    (some : 0 < pages.toNat) (room : pages.toNat * 4096 < 2 ^ 64)
    (enough : needed.toNat ≤ pages.toNat * 4096 * 2 ^ fuel) :
    ∃ r, growPages needed (fuel + 1) pages = Option.some r ∧ needed.toNat ≤ r.toNat * 4096 ∧
      r.toNat * 4096 < 2 ^ 64 := by
  induction fuel generalizing pages with
  | zero =>
    have bytes : (pages * 4096#64).toNat = pages.toNat * 4096 := by
      rw [BitVec.toNat_mul, BitVec.toNat_ofNat]
      omega
    rw [Nat.pow_zero, Nat.mul_one] at enough
    have fits : ¬ pages * 4096#64 < needed := by
      rw [BitVec.lt_def, bytes]
      omega
    exact ⟨pages, by rw [growPages, if_neg fits], enough, room⟩
  | succ fuel ih =>
    have bytes : (pages * 4096#64).toNat = pages.toNat * 4096 := by
      rw [BitVec.toNat_mul, BitVec.toNat_ofNat]
      omega
    rw [growPages]
    split
    · rename_i short
      rw [BitVec.lt_def, bytes] at short
      have doubled : (pages * 2#64).toNat = pages.toNat * 2 := by
        rw [BitVec.toNat_mul, BitVec.toNat_ofNat]
        omega
      have some' : 0 < (pages * 2#64).toNat := by
        rw [doubled]
        omega
      have room' : (pages * 2#64).toNat * 4096 < 2 ^ 64 := by
        rw [doubled]
        linarith
      refine ih some' room' ?_
      rw [doubled]
      calc needed.toNat ≤ pages.toNat * 4096 * 2 ^ (fuel + 1) := enough
        _ = pages.toNat * 2 * 4096 * 2 ^ fuel := by ring
    · rename_i fits
      rw [BitVec.lt_def, bytes] at fits
      exact ⟨pages, rfl, by omega, room⟩

/-! Files -/

section Files

variable {F : Type} {s : Files F} {kids : Nat → List Nat} {R : Nat → Prop} {lent : Nat → Bool}
  {i : Nat}

def contents (s : Files F) (i : Nat) : List (BitVec 8) :=
  table (s.tmp.nodes i).size.toNat (bufferByte s.mem ((s.tmp.nodes i).data.getD 0))

/-- The buffer is large enough for the file. -/
def TmpfsNode.Fits (n : TmpfsNode) : Prop := n.size.toNat ≤ n.capacity.toNat

theorem contents_congr {s' : Files F} (size : (s'.tmp.nodes i).size = (s.tmp.nodes i).size)
    (data : (s'.tmp.nodes i).data = (s.tmp.nodes i).data) (sized : (s.tmp.nodes i).Sized)
    (fits : (s.tmp.nodes i).Fits)
    (same : ∀ g, (s.tmp.nodes i).data.getD 0 ≤ g →
      g < (s.tmp.nodes i).data.getD 0 + (s.tmp.nodes i).pages → s'.mem g = s.mem g) :
    contents s' i = contents s i := by
  unfold contents
  rw [size, data]
  refine table_congr fun o low => ?_
  unfold bufferByte
  unfold TmpfsNode.Fits at fits
  rw [sized.whole] at fits
  rw [same _ (by omega) (by omega)]

theorem tmpfsFileRead_eq (count offset : Word) :
    tmpfsFileRead s i count offset = slice (contents s i) offset.toNat count.toNat := by
  unfold tmpfsFileRead contents
  rw [slice_table]
  dsimp only
  split
  · rename_i past
    rw [BitVec.le_def] at past
    rw [Nat.sub_eq_zero_of_le past, Nat.min_zero]
    rfl
  · rename_i inside
    rw [BitVec.le_def, Nat.not_le] at inside
    have avail : ((s.tmp.nodes i).size - offset).toNat = (s.tmp.nodes i).size.toNat - offset.toNat :=
      BitVec.toNat_sub_of_le (BitVec.le_def.mpr inside.le)
    have len : (if count < (s.tmp.nodes i).size - offset then count
        else (s.tmp.nodes i).size - offset).toNat =
        min count.toNat ((s.tmp.nodes i).size.toNat - offset.toNat) := by
      split
      · rename_i fewer
        rw [BitVec.lt_def, avail] at fewer
        omega
      · rename_i more
        rw [BitVec.lt_def, avail] at more
        rw [avail]
        omega
    rw [len]
    rfl

/-- What a write leaves, seen from one file. `m` bytes were placed. -/
structure Wrote (s s' : Files F) (i : Nat) (offset : Nat) (src : Nat → BitVec 8) (m : Nat) : Prop where
  bytes : contents s' i = splice (contents s i) offset (table m src)
  size : (s'.tmp.nodes i).size.toNat = max (s.tmp.nodes i).size.toNat (offset + m)
  fits : (s'.tmp.nodes i).Fits
  type : (s'.tmp.nodes i).type = (s.tmp.nodes i).type
  backed : (s.tmp.nodes i).data ≠ some 0 → (s'.tmp.nodes i).data ≠ some 0
  others : ∀ j, j ≠ i → s'.tmp.nodes j = s.tmp.nodes j
  count : s'.tmp.count = s.tmp.count
  mem : ∀ g, g ≠ 0 → ¬ (s.tmp.nodes i).Holds g → s.pmm.bitmap g = true → s'.mem g = s.mem g

theorem putBytes_mem (sized : (s.tmp.nodes i).Sized) (src : Nat → BitVec 8) {offset len : Word}
    (room : offset.toNat + len.toNat ≤ (s.tmp.nodes i).capacity.toNat) {g : Nat} (nonzero : g ≠ 0)
    (off : ¬ (s.tmp.nodes i).Holds g) : (putBytes s i offset src len).mem g = s.mem g := by
  obtain ⟨f, isSome⟩ := Option.isSome_iff_exists.mp sized.buffer
  simp only [putBytes, isSome, Option.getD_some]
  refine storeBytes_frame s.mem src (sized.whole ▸ room) fun range => ?_
  by_cases bare : f = 0
  · subst bare
    have one := sized.bare isSome
    omega
  · exact off ⟨f, isSome, bare, range.1, range.2⟩

theorem putBytes_wrote (sized : (s.tmp.nodes i).Sized) (src : Nat → BitVec 8) {offset len : Word}
    (fits : (s.tmp.nodes i).Fits) (inside : offset.toNat ≤ (s.tmp.nodes i).size.toNat)
    (room : offset.toNat + len.toNat ≤ (s.tmp.nodes i).capacity.toNat) :
    Wrote s (putBytes s i offset src len) i offset.toNat src len.toNat := by
  have sum : (offset + len).toNat = offset.toNat + len.toNat := by
    have := (s.tmp.nodes i).capacity.isLt
    rw [BitVec.toNat_add]
    omega
  have node : ∀ n, n = (putBytes s i offset src len).tmp.nodes i →
      n.size.toNat = max (s.tmp.nodes i).size.toNat (offset.toNat + len.toNat) ∧
      n.data = (s.tmp.nodes i).data ∧ n.capacity = (s.tmp.nodes i).capacity ∧
      n.type = (s.tmp.nodes i).type := by
    rintro n rfl
    simp only [putBytes, Tmpfs.set, Function.update_self]
    split
    · rename_i longer
      rw [BitVec.lt_def, sum] at longer
      exact ⟨by dsimp only; omega, rfl, rfl, rfl⟩
    · rename_i shorter
      rw [BitVec.lt_def, sum] at shorter
      exact ⟨by omega, rfl, rfl, rfl⟩
  obtain ⟨size, data, capacity, type⟩ := node _ rfl
  unfold TmpfsNode.Fits at fits
  refine ⟨?_, size, ?_, type, fun backed => data ▸ backed, fun j other => ?_, rfl, fun g nonzero off _ => ?_⟩
  · unfold contents
    rw [splice_table inside, size, data]
    refine table_congr fun o _ => ?_
    have bounded := (s.tmp.nodes i).capacity.isLt
    simp only [putBytes]
    rw [storeBytes_byte _ _ _ (by omega)]
  · unfold TmpfsNode.Fits
    rw [size, capacity]
    omega
  · simp only [putBytes, Tmpfs.set, Function.update_of_ne other]
  · exact putBytes_mem sized src room nonzero off

theorem growFile_moved (h : Stored s kids R lent) (live : Live s.tmp kids R i)
    (fits : (s.tmp.nodes i).Fits) {pages : Word} {s' : Files F} (grew : growFile s i pages = some s')
    (larger : (s.tmp.nodes i).size.toNat ≤ pages.toNat * 4096) :
    contents s' i = contents s i ∧ (s'.tmp.nodes i).size = (s.tmp.nodes i).size ∧
      (s'.tmp.nodes i).capacity.toNat = pages.toNat * 4096 ∧ (s'.tmp.nodes i).Sized ∧
      (s'.tmp.nodes i).type = (s.tmp.nodes i).type ∧ (s'.tmp.nodes i).data ≠ some 0 ∧
      (∀ j, j ≠ i → s'.tmp.nodes j = s.tmp.nodes j) ∧ s'.tmp.count = s.tmp.count ∧
      (∀ g, s.pmm.bitmap g = true → s'.mem g = s.mem g ∧ ¬ (s'.tmp.nodes i).Holds g) := by
  have stored := (h.growFile live grew).1
  obtain ⟨start, nonzero, some, inside, clear, -, rfl⟩ := growFile_some grew
  have sized := h.sized i live
  obtain ⟨f, data⟩ := Option.isSome_iff_exists.mp sized.buffer
  have few : pages.toNat ≤ maxPages := by
    have := s.pmm.total_le
    omega
  unfold TmpfsNode.Fits at fits
  rw [sized.whole] at fits
  -- old pages are in use and new ones were not
  have apart : ∀ j o, j < (s.tmp.nodes i).size.toNat → o < (s.tmp.nodes i).size.toNat →
      start + j / 4096 ≠ f + o / 4096 := by
    intro j o hj ho same
    by_cases bare : f = 0
    · subst bare
      have one := sized.bare data
      omega
    · have used := (h.used i live (f + o / 4096) ⟨f, data, bare, by omega, by omega⟩).used
      rw [clear _ (by omega) (by omega)] at used
      cases used
  have live' : Live (s.tmp.set i { s.tmp.nodes i with data := .some start, capacity := pages * 4096#64 })
      kids R i := by
    refine ⟨?_, live.2⟩
    simp only [Tmpfs.set, Function.update_self]
    exact live.1
  have sized' := stored.sized i live'
  dsimp only at sized' ⊢
  simp only [Tmpfs.set, Function.update_self] at sized' ⊢
  have count : TmpfsNode.pages { s.tmp.nodes i with data := .some start, capacity := pages * 4096#64 } =
      pages.toNat := by
    unfold TmpfsNode.pages
    dsimp only
    rw [pages_mul few]
    omega
  refine ⟨?_, trivial, pages_mul few, sized', trivial, fun bare => nonzero (Option.some.inj bare),
    fun j other => ?_, trivial, fun g used => ⟨?_, ?_⟩⟩
  · unfold contents
    simp only [Function.update_self, data, Option.getD_some]
    exact table_congr fun o low => copyBuffer_byte s.mem apart low
  · rw [Function.update_of_ne other]
  · refine copyBuffer_frame s.mem _ larger fun range => ?_
    rw [clear g range.1 range.2] at used
    cases used
  · rintro ⟨f', e, -, lo, hi⟩
    cases e
    rw [count] at hi
    rw [clear g lo hi] at used
    cases used

/-- How many pages a write that does not fit asks for. -/
def pagesWanted (n : TmpfsNode) (count offset : Word) : Option Word :=
  growPages (offset + count) 65 (if n.capacity / 4096#64 = 0#64 then 1#64 else n.capacity / 4096#64)

theorem pagesWanted_some {n : TmpfsNode} (sized : n.Sized) {count offset : Word}
    (small : offset.toNat + count.toNat < 2 ^ 63) :
    ∃ r, pagesWanted n count offset = some r ∧ offset.toNat + count.toNat ≤ r.toNat * 4096 ∧
      r.toNat * 4096 < 2 ^ 64 := by
  have sum : (offset + count).toNat = offset.toNat + count.toNat := by
    rw [BitVec.toNat_add]
    omega
  have start : (n.capacity / 4096#64).toNat = n.pages := by
    rw [BitVec.toNat_udiv]
    rfl
  have positive := sized.some
  have few := sized.few
  have notZero : ¬ n.capacity / 4096#64 = 0#64 := by
    intro zero
    rw [zero] at start
    simp only [BitVec.toNat_zero] at start
    omega
  unfold pagesWanted
  rw [if_neg notZero, ← sum]
  refine growPages_some (by rw [sum]; exact small) (by rw [start]; exact positive) ?_ ?_
  · rw [start]
    simp only [maxPages] at few
    omega
  · rw [sum, start]
    calc offset.toNat + count.toNat ≤ 1 * 4096 * 2 ^ 64 := by
          have : (2 : Nat) ^ 63 ≤ 1 * 4096 * 2 ^ 64 := by norm_num
          omega
      _ ≤ n.pages * 4096 * 2 ^ 64 := by gcongr; exact positive

/-- The write needs a larger buffer, and `pmm_alloc_pages` has none. -/
def refusesGrowth (s : Files F) (i : Nat) (count offset : Word) : Bool :=
  (s.tmp.nodes i).capacity < offset + count &&
    match pagesWanted (s.tmp.nodes i) count offset with
    | some pages => (pmmAllocPages s.pmm pages.toNat).2 == 0
    | none => false

/-- `tmpfs_file_write` returns, and places all bytes unless the allocator refuses. -/
theorem tmpfsFileWrite_wrote (h : Stored s kids R lent) (live : Live s.tmp kids R i)
    (fits : (s.tmp.nodes i).Fits) (src : Nat → BitVec 8) {count offset : Word}
    (inside : offset.toNat ≤ (s.tmp.nodes i).size.toNat)
    (small : offset.toNat + count.toNat < 2 ^ 63) :
    ∃ (s' : Files F) (m : Nat), tmpfsFileWrite s i src count offset = some (s', (m : Int)) ∧ m ≤ count.toNat ∧
      Wrote s s' i offset.toNat src m ∧
      (m = count.toNat ∨ refusesGrowth s i count offset = true) := by
  have sum : (offset + count).toNat = offset.toNat + count.toNat := by
    rw [BitVec.toNat_add]
    omega
  have sized := h.sized i live
  have positive : ∀ x : Word, x.toNat ≤ count.toNat → x.toInt = (x.toNat : Int) := by
    intro x hx
    rw [BitVec.toInt_eq_toNat_of_lt]
    omega
  unfold tmpfsFileWrite
  dsimp only
  split
  · rename_i short
    have needs := short
    rw [BitVec.lt_def, sum] at short
    obtain ⟨r, wanted, enough, -⟩ := pagesWanted_some sized small
    rw [show growPages (offset + count) 65 _ = some r from wanted, Option.map_some]
    cases grew : growFile s i r with
    | some grown =>
      unfold TmpfsNode.Fits at fits
      obtain ⟨same, size, capacity, sized', type, backed, others, slots, mem⟩ :=
        growFile_moved h live fits grew (by omega)
      have fits' : (grown.tmp.nodes i).Fits := by
        unfold TmpfsNode.Fits
        rw [size, capacity]
        omega
      have wrote : Wrote grown (putBytes grown i offset src count) i offset.toNat src count.toNat :=
        putBytes_wrote sized' src fits' (size ▸ inside) (capacity ▸ enough)
      refine ⟨_, count.toNat, by dsimp only; rw [positive count le_rfl], le_rfl, ⟨?_, ?_, wrote.fits,
        wrote.type.trans type, fun _ => wrote.backed backed,
        fun j other => (wrote.others j other).trans (others j other), wrote.count.trans slots,
        fun g nonzero off used => ?_⟩, .inl rfl⟩
      · rw [wrote.bytes, same]
      · rw [wrote.size, size]
      · rw [putBytes_mem sized' src (capacity ▸ enough) nonzero (mem g used).2, (mem g used).1]
    | none =>
      have refused : (pmmAllocPages s.pmm r.toNat).2 = 0 := by
        by_contra ok
        unfold growFile at grew
        simp only [if_neg ok] at grew
        cases grew
      unfold TmpfsNode.Fits at fits
      have space : ((s.tmp.nodes i).capacity - offset).toNat =
          (s.tmp.nodes i).capacity.toNat - offset.toNat :=
        BitVec.toNat_sub_of_le (BitVec.le_def.mpr (inside.trans fits))
      have within : ¬ (s.tmp.nodes i).capacity < offset := by
        rw [BitVec.lt_def]
        omega
      have len : ∀ x : Word, x = (if count < (s.tmp.nodes i).capacity - offset then count
          else (s.tmp.nodes i).capacity - offset) →
          x.toNat ≤ count.toNat ∧ offset.toNat + x.toNat ≤ (s.tmp.nodes i).capacity.toNat := by
        rintro x rfl
        split
        · rename_i fewer
          rw [BitVec.lt_def, space] at fewer
          omega
        · rename_i more
          rw [BitVec.lt_def, space] at more
          rw [space]
          omega
      obtain ⟨atMost, room⟩ := len _ rfl
      dsimp only
      rw [if_neg within]
      generalize (if count < (s.tmp.nodes i).capacity - offset then count
        else (s.tmp.nodes i).capacity - offset) = x at atMost room
      have wrote : Wrote { s with pmm := (pmmAllocPages s.pmm r.toNat).1 }
          (putBytes { s with pmm := (pmmAllocPages s.pmm r.toNat).1 } i offset src x) i offset.toNat src x.toNat :=
        putBytes_wrote (s := { s with pmm := (pmmAllocPages s.pmm r.toNat).1 }) sized src fits inside room
      refine ⟨_, x.toNat, by rw [positive x atMost], atMost, ⟨wrote.bytes, wrote.size, wrote.fits, wrote.type,
        wrote.backed, wrote.others, wrote.count, fun g nonzero off used => ?_⟩, .inr ?_⟩
      · exact wrote.mem g nonzero off ((pmmAllocPages_grown s.pmm r.toNat).used g used).1
      · simp [refusesGrowth, needs, wanted, refused]
  · rename_i room
    rw [BitVec.lt_def, sum, Nat.not_lt] at room
    exact ⟨_, count.toNat, by rw [positive count le_rfl], le_rfl, putBytes_wrote sized src fits inside room,
      .inl rfl⟩

end Files

end Isunux
