import Isunux.StackDecoding
import Isunux.Lib.Chain
import Isunux.Lib.Run
import Isunux.Lib.Tiling

/-! The allocator of the user programs, lib/mini_malloc.c, on the bytes of one address space. -/
namespace Isunux

section Code

/-- The `n` low bytes of a number, lowest first. -/
def storeField (mem : ElfData) (at_ : Word) (n : Nat) (v : Word) : ElfData := fun x =>
  if (x - at_).toNat < n then (v >>> (8 * (x - at_).toNat)).setWidth 8 else mem x

/-! `block_header_t` -/

def headerSize : Word := 24#64

def blockSize (mem : ElfData) (b : Word) : Word := field64 mem b
def blockFree (mem : ElfData) (b : Word) : Bool := field mem (b + 8#64) 4 ≠ 0
def blockNext (mem : ElfData) (b : Word) : Word := field64 mem (b + 16#64)

def setSize (mem : ElfData) (b size : Word) : ElfData := storeField mem b 8 size
def setFree (mem : ElfData) (b free : Word) : ElfData := storeField mem (b + 8#64) 4 free
def setNext (mem : ElfData) (b next : Word) : ElfData := storeField mem (b + 16#64) 8 next

/-- What a call of `sys_brk` meets: whether there are pages to grow by, and what
the program then finds above the old break. -/
structure BrkAnswer where
  grows : Bool
  above : ElfData

/-- The memory of a program, its break, and `heap_head` and `heap_tail`. -/
structure Heap where
  mem : ElfData
  brk : Word
  head : Word
  tail : Word

/-- `sys_brk`, as `process_brk` answers it. -/
def sysBrk (h : Heap) (answer : BrkAnswer) (newBrk : Word) : Heap × Word :=
  if newBrk = 0#64 then (h, h.brk)
  else if newBrk ≤ h.brk then (h, h.brk)
  else if answer.grows then
    ({ h with mem := fun x => if x < h.brk then h.mem x else answer.above x, brk := newBrk }, newBrk)
  else (h, h.brk)

/-- Whatever `process_brk` does to a break is one of these answers. -/
theorem processBrk_answers (s : Vm) (p : Process) (h : Heap) (newBrk : Word) (same : h.brk = p.heapEnd) :
    ∃ grows, ∀ above, (sysBrk h ⟨grows, above⟩ newBrk).2 = (processBrk s p newBrk).2.2 ∧
      (sysBrk h ⟨grows, above⟩ newBrk).1.brk = (processBrk s p newBrk).2.1.heapEnd := by
  unfold processBrk sysBrk
  rw [same]
  split
  · exact ⟨true, fun _ => ⟨rfl, same⟩⟩
  split
  · exact ⟨true, fun _ => ⟨rfl, same⟩⟩
  simp only
  split
  · exact ⟨false, fun _ => ⟨rfl, same⟩⟩
  · exact ⟨true, fun _ => ⟨rfl, rfl⟩⟩

def align8 (x : Word) : Word := (x + 7#64) &&& ~~~7#64

def requestBlock (h : Heap) (answer : BrkAnswer) (size : Word) : Heap × Word :=
  let currentBrk := (sysBrk h answer 0#64).2
  if currentBrk.msb then (h, 0#64)
  else
    let neededEnd := currentBrk + headerSize + size
    let r := sysBrk h answer neededEnd
    if r.2 < neededEnd then (r.1, 0#64)
    else
      let mem := setNext (setFree (setSize r.1.mem currentBrk size) currentBrk 0#64) currentBrk 0#64
      ({ r.1 with mem := mem }, currentBrk)

/-- A block that `malloc` takes for a size. -/
def Fits (mem : ElfData) (size b : Word) : Prop := blockFree mem b ∧ size ≤ blockSize mem b

instance (mem : ElfData) (size b : Word) : Decidable (Fits mem size b) :=
  inferInstanceAs (Decidable (_ ∧ _))

/-- The walk of `malloc` over the blocks. A walk of more steps than there are
addresses goes round for ever. -/
def firstFit (mem : ElfData) (size : Word) : Nat → Word → Option Word
  | 0, _ => none
  | fuel + 1, cur =>
    if cur = 0#64 then some 0#64
    else if Fits mem size cur then some cur
    else firstFit mem size fuel (blockNext mem cur)

def addresses : Nat := 2 ^ 64

/-- A new block goes behind `heap_tail`. -/
def appendBlock (h : Heap) (b : Word) : Heap :=
  if h.head = 0#64 then { h with head := b, tail := b }
  else { h with mem := setNext h.mem h.tail b, tail := b }

/-- `malloc`; `none` if it never returns. -/
def malloc (h : Heap) (answer : BrkAnswer) (n : Word) : Option (Heap × Word) :=
  if n = 0#64 then some (h, 0#64)
  else
    let size := align8 n
    (firstFit h.mem size addresses h.head).map fun found =>
      if found ≠ 0#64 then ({ h with mem := setFree h.mem found 0#64 }, found + headerSize)
      else
        let r := requestBlock h answer size
        if r.2 = 0#64 then r else (appendBlock r.1 r.2, r.2 + headerSize)

def freeBlock (h : Heap) (ptr : Word) : Heap :=
  if ptr = 0#64 then h else { h with mem := setFree h.mem (ptr - headerSize) 1#64 }

end Code

section Fields

variable {mem mem' : ElfData} {a b v : Word}

theorem field_congr {n : Nat} (same : ∀ j < n, mem' (a + BitVec.ofNat 64 j) = mem (a + BitVec.ofNat 64 j)) :
    field mem' a n = field mem a n := by
  induction n generalizing a with
  | zero => rfl
  | succ n ih =>
    have first := same 0 (Nat.succ_pos n)
    rw [BitVec.add_zero] at first
    have rest : field mem' (a + 1#64) n = field mem (a + 1#64) n := ih fun j low => by
      have next := same (j + 1) (Nat.succ_lt_succ low)
      rwa [Nat.add_comm, BitVec.ofNat_add, ← BitVec.add_assoc] at next
    rw [field, field, first, rest]

theorem storeField_offset (mem : ElfData) (b v : Word) {o n j : Nat} (small : o + n ≤ 32) (low : j < 32) :
    storeField mem (b + BitVec.ofNat 64 o) n v (b + BitVec.ofNat 64 j) =
      if o ≤ j ∧ j < o + n then (v >>> (8 * (j - o))).setWidth 8 else mem (b + BitVec.ofNat 64 j) := by
  have cancel : b + BitVec.ofNat 64 j - (b + BitVec.ofNat 64 o) = BitVec.ofNat 64 j - BitVec.ofNat 64 o := by
    bv_omega
  unfold storeField
  rw [cancel]
  by_cases inside : o ≤ j ∧ j < o + n
  · have distance : (BitVec.ofNat 64 j - BitVec.ofNat 64 o).toNat = j - o := by
      simp only [BitVec.toNat_sub, BitVec.toNat_ofNat]
      omega
    rw [distance, if_pos (by omega), if_pos inside]
  · have distance : ¬ (BitVec.ofNat 64 j - BitVec.ofNat 64 o).toNat < n := by
      simp only [BitVec.toNat_sub, BitVec.toNat_ofNat]
      omega
    rw [if_neg distance, if_neg inside]

theorem field_store_same (mem : ElfData) (b v : Word) (o n : Nat) (small : o + n ≤ 32) :
    field (storeField mem (b + BitVec.ofNat 64 o) n v) (b + BitVec.ofNat 64 o) n = v.toNat % 256 ^ n := by
  apply field_word
  intro j low
  rw [BitVec.add_assoc, ← BitVec.ofNat_add, storeField_offset mem b v small (by omega), if_pos (by omega),
    Nat.add_sub_cancel_left]

theorem field_store_beside (mem : ElfData) (b v : Word) (o n o' n' : Nat) (small : o + n ≤ 32)
    (small' : o' + n' ≤ 32) (beside : o' + n' ≤ o ∨ o + n ≤ o') :
    field (storeField mem (b + BitVec.ofNat 64 o) n v) (b + BitVec.ofNat 64 o') n' =
      field mem (b + BitVec.ofNat 64 o') n' := by
  apply field_congr
  intro j low
  rw [BitVec.add_assoc, ← BitVec.ofNat_add, storeField_offset mem b v small (by omega), if_neg (by omega)]

theorem store_elsewhere (mem : ElfData) (a v : Word) {n : Nat} (whole : a.toNat + n ≤ 2 ^ 64)
    {x : Word} (outside : x.toNat < a.toNat ∨ a.toNat + n ≤ x.toNat) : storeField mem a n v x = mem x := by
  unfold storeField
  rw [if_neg]
  simp only [BitVec.toNat_sub]
  have := x.isLt
  omega

end Fields

section Headers

variable {mem mem' : ElfData} {b c v : Word}

structure Header where
  size : Word
  free : Bool
  next : Word

def header (mem : ElfData) (b : Word) : Header := ⟨blockSize mem b, blockFree mem b, blockNext mem b⟩

theorem header_eq_iff {h : Header} :
    header mem b = h ↔ blockSize mem b = h.size ∧ blockFree mem b = h.free ∧ blockNext mem b = h.next := by
  cases h
  simp only [header, Header.mk.injEq]

theorem header_same (same : header mem' b = header mem c) :
    blockSize mem' b = blockSize mem c ∧ blockFree mem' b = blockFree mem c ∧ blockNext mem' b = blockNext mem c := by
  simpa only [header, Header.mk.injEq] using same

theorem header_congr (same : ∀ j < 24, mem' (b + BitVec.ofNat 64 j) = mem (b + BitVec.ofNat 64 j)) :
    header mem' b = header mem b := by
  have shifted : ∀ o n, o + n ≤ 24 →
      field mem' (b + BitVec.ofNat 64 o) n = field mem (b + BitVec.ofNat 64 o) n := by
    intro o n small
    apply field_congr
    intro j low
    rw [BitVec.add_assoc, ← BitVec.ofNat_add]
    exact same (o + j) (by omega)
  have size := shifted 0 8 (by decide)
  rw [BitVec.add_zero] at size
  unfold header blockSize blockFree blockNext field64
  rw [size, shifted 8 4 (by decide), shifted 16 8 (by decide)]

theorem header_of_range (room : b.toNat + 24 ≤ 2 ^ 64)
    (same : ∀ x : Word, b.toNat ≤ x.toNat → x.toNat < b.toNat + 24 → mem' x = mem x) :
    header mem' b = header mem b := by
  apply header_congr
  intro j low
  have place : (b + BitVec.ofNat 64 j).toNat = b.toNat + j := by
    simp only [BitVec.toNat_add, BitVec.toNat_ofNat]
    omega
  exact same _ (by omega) (by omega)

theorem header_setFree (mem : ElfData) (b : Word) {v : Word} (flag : v = 0#64 ∨ v = 1#64) :
    header (setFree mem b v) b = { header mem b with free := decide (v ≠ 0#64) } := by
  have size := field_store_beside mem b v 8 4 0 8 (by decide) (by decide) (by decide)
  rw [BitVec.add_zero] at size
  have free := field_store_same mem b v 8 4 (by decide)
  have next := field_store_beside mem b v 8 4 16 8 (by decide) (by decide) (by decide)
  unfold header blockSize blockFree blockNext field64 setFree
  rw [size, free, next]
  rcases flag with rfl | rfl <;> rfl

theorem header_setNext (mem : ElfData) (b v : Word) :
    header (setNext mem b v) b = { header mem b with next := v } := by
  have size := field_store_beside mem b v 16 8 0 8 (by decide) (by decide) (by decide)
  rw [BitVec.add_zero] at size
  have free := field_store_beside mem b v 16 8 8 4 (by decide) (by decide) (by decide)
  have next := field_store_same mem b v 16 8 (by decide)
  have whole : (256 : Nat) ^ 8 = 2 ^ 64 := rfl
  unfold header blockSize blockFree blockNext field64 setNext
  rw [size, free, next, whole, Nat.mod_eq_of_lt v.isLt, BitVec.ofNat_toNat, BitVec.setWidth_eq]

theorem setNext_fields (mem : ElfData) (b v : Word) :
    blockSize (setNext mem b v) b = blockSize mem b ∧ blockFree (setNext mem b v) b = blockFree mem b ∧
      blockNext (setNext mem b v) b = v := by
  have written := header_setNext mem b v
  simpa only [header, Header.mk.injEq] using written

theorem header_setSize (mem : ElfData) (b v : Word) :
    header (setSize mem b v) b = { header mem b with size := v } := by
  have size := field_store_same mem b v 0 8 (by decide)
  have free := field_store_beside mem b v 0 8 8 4 (by decide) (by decide) (by decide)
  have next := field_store_beside mem b v 0 8 16 8 (by decide) (by decide) (by decide)
  have whole : (256 : Nat) ^ 8 = 2 ^ 64 := rfl
  rw [BitVec.add_zero] at size free next
  unfold header blockSize blockFree blockNext field64 setSize
  rw [size, free, next, whole, Nat.mod_eq_of_lt v.isLt, BitVec.ofNat_toNat, BitVec.setWidth_eq]

theorem header_new (mem : ElfData) (b size : Word) :
    header (setNext (setFree (setSize mem b size) b 0#64) b 0#64) b = ⟨size, false, 0#64⟩ := by
  rw [header_setNext, header_setFree _ b (.inl rfl), header_setSize]
  rfl

theorem header_storeField (mem : ElfData) (v : Word) {o n : Nat} (field_of : o + n ≤ 24)
    (room : b.toNat + 24 ≤ 2 ^ 64) (room' : c.toNat + 24 ≤ 2 ^ 64)
    (apart : b.toNat + 24 ≤ c.toNat ∨ c.toNat + 24 ≤ b.toNat) :
    header (storeField mem (c + BitVec.ofNat 64 o) n v) b = header mem b := by
  apply header_of_range room
  intro x above below
  by_cases empty : n = 0
  · subst empty
    unfold storeField
    rw [if_neg (Nat.not_lt_zero _)]
  have place : (c + BitVec.ofNat 64 o).toNat = c.toNat + o := by
    simp only [BitVec.toNat_add, BitVec.toNat_ofNat]
    omega
  exact store_elsewhere mem _ v (by omega) (by omega)

end Headers

section Walk

variable {mem : ElfData} {size cur head : Word} {bs : List Word}

def pointer (w : Word) : Option Word := if w = 0#64 then none else some w

theorem pointer_some {w b : Word} (h : pointer w = some b) : w = b ∧ b ≠ 0#64 := by
  unfold pointer at h
  split at h
  · cases h
  · rename_i nonzero
    cases h
    exact ⟨rfl, nonzero⟩

theorem pointer_ne {w : Word} (nonzero : w ≠ 0#64) : pointer w = some w := if_neg nonzero

def BlockList (mem : ElfData) (head : Word) (bs : List Word) : Prop :=
  Chain.Spells (fun b => pointer (blockNext mem b)) (pointer head) bs

theorem BlockList.nonnull (list : BlockList mem head bs) : ∀ b ∈ bs, b ≠ 0#64 := by
  induction bs generalizing head with
  | nil => simp
  | cons c bs ih =>
    obtain ⟨first, rest⟩ := list
    intro b mem
    rcases List.mem_cons.mp mem with rfl | later
    · exact (pointer_some first).2
    · exact ih rest b later

theorem BlockList.length_lt (list : BlockList mem head bs) : bs.length < addresses := by
  have distinct : (bs.map BitVec.toNat).Nodup := list.nodup.map fun _ _ => BitVec.eq_of_toNat_eq
  have within : bs.map BitVec.toNat ⊆ List.range' 1 (2 ^ 64 - 1) := by
    intro n mem
    obtain ⟨b, here, rfl⟩ := List.mem_map.mp mem
    have nonzero : b.toNat ≠ 0 := fun zero => list.nonnull b here (BitVec.eq_of_toNat_eq zero)
    have bound := b.isLt
    rw [List.mem_range'_1]
    omega
  have count := (List.subperm_of_subset distinct within).length_le
  rw [List.length_map, List.length_range'] at count
  unfold addresses
  omega

theorem firstFit_list (list : BlockList mem cur bs) {fuel : Nat} (enough : bs.length < fuel) :
    firstFit mem size fuel cur = some ((bs.find? fun b => Fits mem size b).getD 0#64) := by
  induction bs generalizing cur fuel with
  | nil =>
    have null : cur = 0#64 := by
      by_contra nonzero
      have ended : pointer cur = none := list
      rw [pointer_ne nonzero] at ended
      cases ended
    cases fuel with
    | zero => nomatch enough
    | succ fuel => rw [firstFit, if_pos null]; rfl
  | cons b bs ih =>
    obtain ⟨first, rest⟩ := list
    obtain ⟨rfl, nonzero⟩ := pointer_some first
    cases fuel with
    | zero => nomatch enough
    | succ fuel =>
      have shorter : bs.length < fuel := Nat.lt_of_succ_lt_succ enough
      rw [firstFit, if_neg nonzero]
      by_cases fits : Fits mem size cur
      · rw [if_pos fits, List.find?_cons_of_pos (by simpa using fits)]
        rfl
      · rw [if_neg fits, List.find?_cons_of_neg (by simpa using fits)]
        exact ih rest shorter

theorem firstFit_none {fuel : Nat} (walked : firstFit mem size fuel cur = some 0#64) :
    ∃ bs, BlockList mem cur bs ∧ ∀ b ∈ bs, ¬ Fits mem size b := by
  induction fuel generalizing cur with
  | zero => cases walked
  | succ fuel ih =>
    rw [firstFit] at walked
    by_cases null : cur = 0#64
    · refine ⟨[], ?_, by simp⟩
      subst null
      rfl
    · rw [if_neg null] at walked
      split at walked
      · exact absurd (Option.some.inj walked) null
      · rename_i misfit
        obtain ⟨bs, list, others⟩ := ih walked
        refine ⟨cur :: bs, ⟨pointer_ne null, list⟩, ?_⟩
        intro b mem
        rcases List.mem_cons.mp mem with rfl | later
        · exact misfit
        · exact others b later

/-- A whole walk finds nothing exactly when the list ends without a block that fits. -/
theorem firstFit_zero_iff : firstFit mem size addresses head = some 0#64 ↔
    ∃ bs, BlockList mem head bs ∧ ∀ b ∈ bs, ¬ Fits mem size b := by
  constructor
  · exact firstFit_none
  · rintro ⟨bs, list, misfits⟩
    have nothing : bs.find? (fun b => Fits mem size b) = none :=
      List.find?_eq_none.mpr fun b mem => by simpa using misfits b mem
    rw [firstFit_list list list.length_lt, nothing]
    rfl

end Walk

section Rounding

/-- Rounding up to the next multiple of eight, without a bound. -/
def roundUp (n : Nat) : Nat := (n + 7) / 8 * 8

theorem mask_eight_toNat (x : Word) : (x &&& ~~~7#64).toNat = x.toNat / 8 * 8 := by
  have low_bits : ∀ i, (7#64).getLsbD i = decide (i < 3) := by
    intro i
    have h : (7#64).toNat = 2 ^ 3 - 1 := rfl
    rw [BitVec.getLsbD, h, Nat.testBit_two_pow_sub_one]
  have shifts : x &&& ~~~7#64 = (x >>> 3) <<< 3 := by
    apply BitVec.eq_of_getLsbD_eq
    intro i inside
    simp only [BitVec.getLsbD_and, BitVec.getLsbD_not, low_bits, BitVec.getLsbD_shiftLeft,
      BitVec.getLsbD_ushiftRight]
    by_cases low : i < 3
    · simp [low]
    · have back : 3 + (i - 3) = i := by omega
      simp [low, inside, back]
  rw [shifts, BitVec.toNat_shiftLeft, BitVec.toNat_ushiftRight, Nat.shiftRight_eq_div_pow, Nat.shiftLeft_eq]
  have := x.isLt
  omega

theorem align8_toNat (x : Word) : (align8 x).toNat = roundUp x.toNat % 2 ^ 64 := by
  rw [align8, mask_eight_toNat, BitVec.toNat_add]
  have seven : (7#64 : Word).toNat = 7 := rfl
  have := x.isLt
  unfold roundUp
  omega

end Rounding

section Request

variable {h : Heap} {answer : BrkAnswer} {size : Word}

/-- The wrapped end of the new block. -/
def neededEnd (h : Heap) (size : Word) : Word := h.brk + headerSize + size

/-- What `sys_brk` leaves when it is asked for more. -/
def grown (h : Heap) (answer : BrkAnswer) (newBrk : Word) : Heap :=
  { h with mem := fun x => if x < h.brk then h.mem x else answer.above x, brk := newBrk }

/-- The header that `request_block` writes. -/
def writeHeader (h : Heap) (b size : Word) : Heap :=
  { h with mem := setNext (setFree (setSize h.mem b size) b 0#64) b 0#64 }

theorem requestBlock_high (high : h.brk.msb = true) : requestBlock h answer size = (h, 0#64) := by
  have query : (sysBrk h answer 0#64).2 = h.brk := rfl
  simp only [requestBlock, query, high, if_true]

theorem requestBlock_refused (above : h.brk < neededEnd h size) (refused : answer.grows = false) :
    requestBlock h answer size = (h, 0#64) := by
  have query : (sysBrk h answer 0#64).2 = h.brk := rfl
  have nonzero : neededEnd h size ≠ 0#64 := by bv_omega
  have higher : ¬ neededEnd h size ≤ h.brk := by bv_omega
  have denied : sysBrk h answer (h.brk + headerSize + size) = (h, h.brk) := by
    change sysBrk h answer (neededEnd h size) = (h, h.brk)
    simp [sysBrk, nonzero, higher, refused]
  have short : h.brk < h.brk + headerSize + size := above
  unfold requestBlock
  simp only [query, denied, short, if_true]
  split <;> rfl

theorem requestBlock_grown (low : h.brk.msb = false) (above : h.brk < neededEnd h size)
    (grows : answer.grows = true) :
    requestBlock h answer size = (writeHeader (grown h answer (neededEnd h size)) h.brk size, h.brk) := by
  have query : (sysBrk h answer 0#64).2 = h.brk := rfl
  have nonzero : neededEnd h size ≠ 0#64 := by bv_omega
  have higher : ¬ neededEnd h size ≤ h.brk := by bv_omega
  have given : sysBrk h answer (h.brk + headerSize + size) =
      (grown h answer (neededEnd h size), neededEnd h size) := by
    change sysBrk h answer (neededEnd h size) = _
    simp [sysBrk, nonzero, higher, grows, grown]
  have enough : ¬ neededEnd h size < h.brk + headerSize + size := by
    unfold neededEnd
    bv_omega
  simp only [requestBlock, query, low, Bool.false_eq_true, if_false, given, enough]
  rfl

theorem requestBlock_wrapped (low : h.brk.msb = false) (below : neededEnd h size ≤ h.brk) :
    requestBlock h answer size = (writeHeader h h.brk size, h.brk) := by
  have query : (sysBrk h answer 0#64).2 = h.brk := rfl
  have given : sysBrk h answer (h.brk + headerSize + size) = (h, h.brk) := by
    change sysBrk h answer (neededEnd h size) = _
    simp [sysBrk, below]
  have enough : ¬ h.brk < h.brk + headerSize + size := by
    unfold neededEnd at below
    bv_omega
  simp only [requestBlock, query, low, Bool.false_eq_true, if_false, given, enough]
  rfl

end Request

/-- A program with the pointers it holds and the sizes it asked for, and every block
that was ever handed out, oldest first. -/
structure Program where
  heap : Heap
  live : List (Word × Word)
  created : List Word

inductive HeapOp where
  | malloc (n : Word) (answer : BrkAnswer)
  | free (ptr : Word)
  | store (a : Word) (b : BitVec 8)

def heapStep (p : Program) : HeapOp → Program × Option Word
  | .malloc n answer =>
    match malloc p.heap answer n with
    | none => (p, none)
    | some (h, ptr) =>
      if ptr = 0#64 then ({ p with heap := h }, some ptr)
      else
        let b := ptr - headerSize
        ({ heap := h, live := (ptr, n) :: p.live,
           created := if b ∈ p.created then p.created else p.created ++ [b] }, some ptr)
  | .free ptr =>
    ({ p with heap := freeBlock p.heap ptr, live := p.live.filter fun e => e.1 ≠ ptr }, none)
  | .store a b => ({ p with heap := { p.heap with mem := Function.update p.heap.mem a b } }, none)

end Isunux
