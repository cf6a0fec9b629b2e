import Isunux.Malloc

/-! The blocks that `malloc` hands out. They lie one behind the other up to the break, and
the list that runs through their headers visits each of them once. -/
namespace Isunux

def extent (mem : ElfData) (b : Word) : Nat := 24 + (blockSize mem b).toNat

/-- What holds between the calls of a program whose break started at some address. -/
structure HeapInv (start : Nat) (p : Program) : Prop where
  list : BlockList p.heap.mem p.heap.head p.created
  tiles : ∃ base, start ≤ base ∧ 8 ∣ base ∧
    Tiling.Tiles BitVec.toNat (extent p.heap.mem) base p.created p.heap.brk.toNat
  tail : ∀ b, p.created.getLast? = some b → p.heap.tail = b
  sizes : ∀ b ∈ p.created, 8 ∣ (blockSize p.heap.mem b).toNat
  live : ∀ e ∈ p.live, e.1 - headerSize ∈ p.created ∧ blockFree p.heap.mem (e.1 - headerSize) = false ∧
    e.2 ≤ blockSize p.heap.mem (e.1 - headerSize)
  held : (p.live.map Prod.fst).Nodup

/-- The calls and stores of a program that uses the allocator as it is meant to be used: it
stores into the bytes it asked for, or outside the heap. -/
def HeapPermitted (start : Nat) (p : Program) : HeapOp → Prop
  | .malloc n _ => n.toNat + 32 + p.heap.brk.toNat < 2 ^ 64
  | .free ptr => ptr = 0#64 ∨ ptr ∈ p.live.map Prod.fst
  | .store a _ =>
    (∃ e ∈ p.live, e.1.toNat ≤ a.toNat ∧ a.toNat < e.1.toNat + e.2.toNat) ∨
      a.toNat < start ∨ p.heap.brk.toNat ≤ a.toNat

/-- The bytes a program may use behind a pointer. -/
def usable (p : Program) (ptr : Word) : Nat := (blockSize p.heap.mem (ptr - headerSize)).toNat

/-- The blocks a program holds are what it asked for, inside the heap, and apart. -/
structure HandsOut (start : Nat) (p : Program) : Prop where
  aligned : ∀ e ∈ p.live, 8 ∣ e.1.toNat
  enough : ∀ e ∈ p.live, e.2.toNat ≤ usable p e.1
  inside : ∀ e ∈ p.live, start + 24 ≤ e.1.toNat ∧ e.1.toNat + usable p e.1 ≤ p.heap.brk.toNat
  apart : p.live.Pairwise fun e e' =>
    e.1.toNat + usable p e.1 ≤ e'.1.toNat ∨ e'.1.toNat + usable p e'.1 ≤ e.1.toNat
  headers : ∀ e ∈ p.live, ∀ b ∈ p.created,
    e.1.toNat + usable p e.1 ≤ b.toNat ∨ b.toNat + 24 ≤ e.1.toNat
  visits : BlockList p.heap.mem p.heap.head p.created ∧ p.created.Nodup

/-- What a step must do: `malloc` returns, and extends the break only if every free block is
too small. -/
def MallocMeets (start : Nat) (p : Program) (op : HeapOp) : Prop :=
  HandsOut start (heapStep p op).1 ∧
    match op with
    | .malloc n _ => (heapStep p op).2 ≠ none ∧ ((heapStep p op).1.heap.brk ≠ p.heap.brk →
        ∀ b ∈ p.created, blockFree p.heap.mem b = true → blockSize p.heap.mem b < n)
    | _ => True

section Invariant

variable {start : Nat} {p : Program}

theorem HeapInv.within (inv : HeapInv start p) {b : Word} (mem : b ∈ p.created) :
    start ≤ b.toNat ∧ b.toNat + extent p.heap.mem b ≤ p.heap.brk.toNat := by
  obtain ⟨base, above, -, tiles⟩ := inv.tiles
  have := tiles.within mem
  omega

theorem HeapInv.aligned (inv : HeapInv start p) :
    8 ∣ p.heap.brk.toNat ∧ ∀ b ∈ p.created, 8 ∣ b.toNat := by
  obtain ⟨base, -, first, tiles⟩ := inv.tiles
  apply tiles.dvd first
  intro b mem
  exact Nat.dvd_add (by decide) (inv.sizes b mem)

theorem HeapInv.apart (inv : HeapInv start p) {b c : Word} (hb : b ∈ p.created) (hc : c ∈ p.created)
    (distinct : b ≠ c) : b.toNat + extent p.heap.mem b ≤ c.toNat ∨ c.toNat + extent p.heap.mem c ≤ b.toNat := by
  obtain ⟨base, -, -, tiles⟩ := inv.tiles
  exact tiles.apart hb hc distinct

theorem HeapInv.room (inv : HeapInv start p) {b : Word} (mem : b ∈ p.created) : b.toNat + 24 ≤ 2 ^ 64 := by
  have inside := (inv.within mem).2
  have bound := p.heap.brk.isLt
  unfold extent at inside
  omega

theorem HeapInv.behind (inv : HeapInv start p) {e : Word × Word} (held : e ∈ p.live) :
    e.1.toNat = (e.1 - headerSize).toNat + 24 := by
  have inside := (inv.within (inv.live e held).1).2
  have header : headerSize.toNat = 24 := rfl
  have bound := p.heap.brk.isLt
  have bound' := e.1.isLt
  unfold extent at inside
  rw [BitVec.toNat_sub, header] at inside ⊢
  omega

/-- The invariant says what is asked for. -/
theorem HeapInv.handsOut (inv : HeapInv start p) : HandsOut start p := by
  have block : ∀ e ∈ p.live, e.1 - headerSize ∈ p.created := fun e held => (inv.live e held).1
  refine ⟨?_, ?_, ?_, ?_, ?_, inv.list, inv.list.nodup⟩
  · intro e held
    rw [inv.behind held]
    exact Nat.dvd_add (inv.aligned.2 _ (block e held)) (by decide)
  · intro e held
    exact BitVec.le_def.mp (inv.live e held).2.2
  · intro e held
    have inside := inv.within (block e held)
    rw [inv.behind held]
    unfold usable extent at *
    omega
  · have distinct : p.live.Pairwise fun e e' => e.1 ≠ e'.1 := List.pairwise_map.mp inv.held
    apply distinct.imp_of_mem
    intro e e' held held' different
    have blocks : e.1 - headerSize ≠ e'.1 - headerSize := by
      intro same
      apply different
      bv_omega
    have apart := inv.apart (block e held) (block e' held') blocks
    rw [inv.behind held, inv.behind held']
    unfold usable extent at *
    omega
  · intro e held b mem
    rw [inv.behind held]
    unfold usable
    by_cases own : e.1 - headerSize = b
    · subst own
      omega
    · have apart := inv.apart (block e held) mem own
      unfold extent at apart
      omega

end Invariant

section Updates

variable {start : Nat} {p : Program}

theorem HeapInv.update (inv : HeapInv start p) {mem : ElfData} {live : List (Word × Word)}
    (sizes : ∀ b ∈ p.created, blockSize mem b = blockSize p.heap.mem b)
    (links : ∀ b ∈ p.created, blockNext mem b = blockNext p.heap.mem b)
    (holds : ∀ e ∈ live, e.1 - headerSize ∈ p.created ∧ blockFree mem (e.1 - headerSize) = false ∧
      e.2 ≤ blockSize mem (e.1 - headerSize))
    (held : (live.map Prod.fst).Nodup) :
    HeapInv start { p with heap := { p.heap with mem := mem }, live := live } where
  list := inv.list.congr fun b mem => by rw [links b mem]
  tiles := by
    obtain ⟨base, above, first, tiles⟩ := inv.tiles
    refine ⟨base, above, first, tiles.congr (fun _ _ => rfl) fun b mem => ?_⟩
    rw [extent, extent, sizes b mem]
  tail := inv.tail
  sizes := fun b mem => by rw [sizes b mem]; exact inv.sizes b mem
  live := holds
  held := held

theorem HeapInv.header_other (inv : HeapInv start p) {b c : Word} (hb : b ∈ p.created) (hc : c ∈ p.created)
    (distinct : b ≠ c) (v : Word) {o n : Nat} (small : o + n ≤ 24) :
    header (storeField p.heap.mem (c + BitVec.ofNat 64 o) n v) b = header p.heap.mem b := by
  have apart := inv.apart hb hc distinct
  unfold extent at apart
  exact header_storeField _ v small (inv.room hb) (inv.room hc) (by omega)

theorem HeapInv.header_mark (inv : HeapInv start p) {b c : Word} (hb : b ∈ p.created) (hc : c ∈ p.created)
    {v : Word} (flag : v = 0#64 ∨ v = 1#64) :
    header (setFree p.heap.mem c v) b =
      if b = c then { header p.heap.mem c with free := decide (v ≠ 0#64) } else header p.heap.mem b := by
  by_cases same : b = c
  · subst same
    rw [if_pos rfl]
    exact header_setFree _ b flag
  · rw [if_neg same]
    exact inv.header_other hb hc same v (by decide)

theorem HeapInv.mark (inv : HeapInv start p) {c v : Word} (hc : c ∈ p.created) (flag : v = 0#64 ∨ v = 1#64)
    {live : List (Word × Word)} (held : (live.map Prod.fst).Nodup)
    (holds : ∀ e ∈ live, e.1 - headerSize ∈ p.created ∧ e.2 ≤ blockSize p.heap.mem (e.1 - headerSize) ∧
      (e.1 - headerSize = c → v = 0#64) ∧
      (e.1 - headerSize ≠ c → blockFree p.heap.mem (e.1 - headerSize) = false)) :
    HeapInv start { p with heap := { p.heap with mem := setFree p.heap.mem c v }, live := live } := by
  have marked : ∀ b ∈ p.created, blockSize (setFree p.heap.mem c v) b = blockSize p.heap.mem b ∧
      blockFree (setFree p.heap.mem c v) b = (if b = c then decide (v ≠ 0#64) else blockFree p.heap.mem b) ∧
      blockNext (setFree p.heap.mem c v) b = blockNext p.heap.mem b := by
    intro b hb
    have eq := header_eq_iff.mp (inv.header_mark hb hc flag)
    by_cases same : b = c
    · subst same
      rw [if_pos rfl] at eq ⊢
      exact eq
    · rw [if_neg same] at eq ⊢
      exact eq
  apply inv.update (fun b hb => (marked b hb).1) (fun b hb => (marked b hb).2.2) _ held
  intro e mem
  obtain ⟨block, enough, own, other⟩ := holds e mem
  obtain ⟨size, free, -⟩ := marked _ block
  refine ⟨block, ?_, by rw [size]; exact enough⟩
  rw [free]
  split
  · rename_i same
    rw [own same]
    rfl
  · rename_i different
    exact other different

theorem HeapInv.store (inv : HeapInv start p) {a : Word} (b : BitVec 8)
    (permitted : HeapPermitted start p (.store a b)) : HeapInv start (heapStep p (.store a b)).1 := by
  have outside : ∀ c ∈ p.created, a.toNat < c.toNat ∨ c.toNat + 24 ≤ a.toNat := by
    intro c mem
    have inside := inv.within mem
    unfold extent at inside
    rcases permitted with ⟨e, held, above, below⟩ | below | above
    · have hands := inv.handsOut
      have enough := hands.enough e held
      have apart := hands.headers e held c mem
      omega
    · omega
    · omega
  have same : ∀ c ∈ p.created, blockSize (Function.update p.heap.mem a b) c = blockSize p.heap.mem c ∧
      blockFree (Function.update p.heap.mem a b) c = blockFree p.heap.mem c ∧
      blockNext (Function.update p.heap.mem a b) c = blockNext p.heap.mem c := by
    intro c mem
    have unread : header (Function.update p.heap.mem a b) c = header p.heap.mem c := by
      apply header_of_range (inv.room mem)
      intro x above below
      apply Function.update_of_ne
      rintro rfl
      have := outside c mem
      omega
    exact header_same unread
  apply inv.update (fun c mem => (same c mem).1) (fun c mem => (same c mem).2.2) _ inv.held
  intro e held
  obtain ⟨block, taken, enough⟩ := inv.live e held
  obtain ⟨size, free, -⟩ := same _ block
  exact ⟨block, by rw [free]; exact taken, by rw [size]; exact enough⟩

theorem HeapInv.free (inv : HeapInv start p) {ptr : Word} (permitted : HeapPermitted start p (.free ptr)) :
    HeapInv start (heapStep p (.free ptr)).1 := by
  have fewer : ((p.live.filter fun e => e.1 ≠ ptr).map Prod.fst).Nodup :=
    inv.held.sublist (List.filter_sublist.map Prod.fst)
  by_cases null : ptr = 0#64
  · simp only [heapStep, freeBlock, null, if_true] at fewer ⊢
    apply inv.update (fun _ _ => rfl) (fun _ _ => rfl) _ fewer
    intro e mem
    exact inv.live e (List.mem_filter.mp mem).1
  · obtain ⟨e, held, rfl⟩ := List.mem_map.mp (permitted.resolve_left null)
    simp only [heapStep, freeBlock, null, if_false] at fewer ⊢
    apply inv.mark (inv.live e held).1 (.inr rfl) fewer
    intro e' mem
    obtain ⟨held', different⟩ := List.mem_filter.mp mem
    obtain ⟨block, taken, enough⟩ := inv.live e' held'
    refine ⟨block, enough, fun same => ?_, fun _ => taken⟩
    have equal : e'.1 = e.1 := by bv_omega
    simp [equal] at different

end Updates

section NewBlock

variable {start : Nat} {p : Program} {n size : Word}

theorem align8_small (small : n.toNat + 8 ≤ 2 ^ 64) :
    (align8 n).toNat = roundUp n.toNat ∧ n.toNat ≤ (align8 n).toNat ∧ 8 ∣ (align8 n).toNat := by
  have exact : roundUp n.toNat % 2 ^ 64 = roundUp n.toNat := by
    unfold roundUp
    omega
  rw [align8_toNat, exact]
  refine ⟨rfl, ?_, ⟨_, Nat.mul_comm _ 8⟩⟩
  unfold roundUp
  omega

theorem neededEnd_toNat {h : Heap} (room : h.brk.toNat + 24 + size.toNat < 2 ^ 64) :
    (neededEnd h size).toNat = h.brk.toNat + 24 + size.toNat := by
  have header : headerSize.toNat = 24 := rfl
  rw [neededEnd, BitVec.toNat_add, BitVec.toNat_add, header]
  omega

/-- The heap with a header behind the old break. -/
def newHeap (h : Heap) (answer : BrkAnswer) (size : Word) : Heap :=
  writeHeader (grown h answer (neededEnd h size)) h.brk size

theorem newHeap_self (h : Heap) (answer : BrkAnswer) (size : Word) :
    header (newHeap h answer size).mem h.brk = ⟨size, false, 0#64⟩ :=
  header_new _ h.brk size

theorem HeapInv.newHeap_other (inv : HeapInv start p) (answer : BrkAnswer)
    (room : p.heap.brk.toNat + 24 + size.toNat < 2 ^ 64) {b : Word} (hb : b ∈ p.created) :
    header (newHeap p.heap answer size).mem b = header p.heap.mem b := by
  have below := (inv.within hb).2
  unfold extent at below
  have fits := inv.room hb
  have kept : header (grown p.heap answer (neededEnd p.heap size)).mem b = header p.heap.mem b := by
    apply header_of_range fits
    intro x _ low
    exact if_pos (BitVec.lt_def.mpr (by omega))
  have field : ∀ (mem : ElfData) (v : Word) (o k : Nat), o + k ≤ 24 →
      header (storeField mem (p.heap.brk + BitVec.ofNat 64 o) k v) b = header mem b := by
    intro mem v o k small
    exact header_storeField mem v small fits (by omega) (by omega)
  have sized := fun mem => field mem size 0 8 (by decide)
  simp only [BitVec.add_zero] at sized
  have whole : header (newHeap p.heap answer size).mem b =
      header (grown p.heap answer (neededEnd p.heap size)).mem b :=
    (field _ 0#64 16 8 (by decide)).trans ((field _ 0#64 8 4 (by decide)).trans (sized _))
  exact whole.trans kept

theorem HeapInv.appended (inv : HeapInv start p) (answer : BrkAnswer) (placed : p.heap.brk ≠ 0#64)
    (room : p.heap.brk.toNat + 24 + size.toNat < 2 ^ 64) :
    let h := appendBlock (newHeap p.heap answer size) p.heap.brk
    BlockList h.mem h.head (p.created ++ [p.heap.brk]) ∧
      (∀ b ∈ p.created, blockSize h.mem b = blockSize p.heap.mem b ∧
        blockFree h.mem b = blockFree p.heap.mem b) ∧
      blockSize h.mem p.heap.brk = size ∧ blockFree h.mem p.heap.brk = false := by
  have self := header_eq_iff.mp (newHeap_self p.heap answer size)
  have list := inv.list
  rcases List.eq_nil_or_concat p.created with none | ⟨before, last, blocks⟩
  · -- the first block
    have null : p.heap.head = 0#64 := by
      by_contra nonzero
      rw [none] at list
      have ended : pointer p.heap.head = Option.none := list
      rw [pointer_ne nonzero] at ended
      cases ended
    have first : appendBlock (newHeap p.heap answer size) p.heap.brk =
        { newHeap p.heap answer size with head := p.heap.brk, tail := p.heap.brk } := if_pos null
    simp only [first, none, List.nil_append]
    refine ⟨⟨pointer_ne placed, ?_⟩, by simp, self.1, self.2.1⟩
    change pointer (blockNext (newHeap p.heap answer size).mem p.heap.brk) = Option.none
    rw [self.2.2]
    rfl
  · -- behind the last block
    rw [List.concat_eq_append] at blocks
    have mem : last ∈ p.created := by simp [blocks]
    have nonnull : p.heap.head ≠ 0#64 := by
      intro null
      rw [null, blocks] at list
      cases before with
      | nil => cases list.1
      | cons c before => cases list.1
    have tail : p.heap.tail = last := inv.tail last (by simp [blocks])
    have linked : appendBlock (newHeap p.heap answer size) p.heap.brk =
        { newHeap p.heap answer size with
          mem := setNext (newHeap p.heap answer size).mem last p.heap.brk, tail := p.heap.brk } := by
      rw [← tail]
      exact if_neg nonnull
    simp only [linked]
    have inside := (inv.within mem).2
    unfold extent at inside
    have own := setNext_fields (newHeap p.heap answer size).mem last p.heap.brk
    have beside : ∀ b : Word, b.toNat + 24 ≤ 2 ^ 64 →
        (b.toNat + 24 ≤ last.toNat ∨ last.toNat + 24 ≤ b.toNat) →
        header (setNext (newHeap p.heap answer size).mem last p.heap.brk) b =
          header (newHeap p.heap answer size).mem b := by
      intro b fits apart
      exact header_storeField _ p.heap.brk (by decide) fits (inv.room mem) apart
    have fresh := header_same (beside p.heap.brk (by omega) (by omega))
    have kept : ∀ b ∈ p.created, b ≠ last →
        header (setNext (newHeap p.heap answer size).mem last p.heap.brk) b = header p.heap.mem b := by
      intro b hb distinct
      have apart := inv.apart hb mem distinct
      unfold extent at apart
      exact (beside b (inv.room hb) (by omega)).trans (inv.newHeap_other answer room hb)
    refine ⟨?_, ?_, fresh.1.trans self.1, fresh.2.1.trans self.2.1⟩
    · have nodup := list.nodup
      rw [blocks] at list nodup ⊢
      rw [List.append_assoc]
      apply Chain.Spells.graft list
      · intro b hb
        have distinct : b ≠ last := by
          rintro rfl
          exact List.disjoint_of_nodup_append nodup hb List.mem_cons_self
        have next := (header_same (kept b (by simp [blocks, hb]) distinct)).2.2
        exact congrArg pointer next
      · refine ⟨?_, ?_⟩
        · rw [own.2.2]
          exact pointer_ne placed
        · change pointer (blockNext _ p.heap.brk) = Option.none
          rw [fresh.2.2]
          exact (congrArg pointer self.2.2).trans rfl
    · intro b hb
      by_cases same : b = last
      · subst same
        have old := header_same (inv.newHeap_other answer room hb)
        exact ⟨own.1.trans old.1, own.2.1.trans old.2.1⟩
      · have old := header_same (kept b hb same)
        exact ⟨old.1, old.2.1⟩

theorem appendBlock_brk (h : Heap) (b : Word) : (appendBlock h b).brk = h.brk ∧ (appendBlock h b).tail = b := by
  unfold appendBlock
  split <;> exact ⟨rfl, rfl⟩

theorem HeapInv.append (inv : HeapInv start p) (answer : BrkAnswer) (placed : p.heap.brk ≠ 0#64)
    (fits : n.toNat + 32 + p.heap.brk.toNat < 2 ^ 64) :
    HeapInv start ⟨appendBlock (newHeap p.heap answer (align8 n)) p.heap.brk,
      (p.heap.brk + headerSize, n) :: p.live, p.created ++ [p.heap.brk]⟩ := by
  obtain ⟨rounded, enough, unit⟩ := align8_small (n := n) (by omega)
  have room : p.heap.brk.toNat + 24 + (align8 n).toNat < 2 ^ 64 := by
    rw [rounded]
    unfold roundUp
    omega
  obtain ⟨list, old, size, taken⟩ := inv.appended answer placed room
  obtain ⟨brk, tail⟩ := appendBlock_brk (newHeap p.heap answer (align8 n)) p.heap.brk
  have back : p.heap.brk + headerSize - headerSize = p.heap.brk := by bv_omega
  refine ⟨list, ?_, ?_, ?_, ?_, ?_⟩
  · obtain ⟨base, above, first, tiles⟩ := inv.tiles
    refine ⟨base, above, first, ?_⟩
    have kept : Tiling.Tiles BitVec.toNat (extent (appendBlock (newHeap p.heap answer (align8 n)) p.heap.brk).mem)
        base p.created p.heap.brk.toNat := by
      apply tiles.congr (fun _ _ => rfl)
      intro b hb
      rw [extent, extent, (old b hb).1]
    have stretched := kept.snoc (b := p.heap.brk) rfl
    have finish : (neededEnd p.heap (align8 n)).toNat =
        p.heap.brk.toNat + extent (appendBlock (newHeap p.heap answer (align8 n)) p.heap.brk).mem p.heap.brk := by
      rw [neededEnd_toNat room, extent, size]
      omega
    rw [← finish] at stretched
    rw [brk]
    exact stretched
  · intro b last
    rw [tail]
    simpa using last
  · intro b mem
    rcases List.mem_append.mp mem with before | new
    · rw [(old b before).1]
      exact inv.sizes b before
    · rw [List.mem_singleton.mp new, size]
      exact unit
  · intro e mem
    rcases List.mem_cons.mp mem with rfl | before
    · simp only [back]
      exact ⟨by simp, taken, by rw [size]; exact BitVec.le_def.mpr enough⟩
    · obtain ⟨block, free, room⟩ := inv.live e before
      obtain ⟨sized, flagged⟩ := old _ block
      exact ⟨List.mem_append_left _ block, by rw [flagged]; exact free, by rw [sized]; exact room⟩
  · refine List.nodup_cons.mpr ⟨fun again => ?_, inv.held⟩
    obtain ⟨e, held, same⟩ := List.mem_map.mp again
    have block := (inv.live e held).1
    rw [same, back] at block
    have inside := (inv.within block).2
    unfold extent at inside
    omega

/-- What a call of `malloc` can do under the invariant. -/
theorem HeapInv.malloc_cases (inv : HeapInv start p) (answer : BrkAnswer)
    (fits : n.toNat + 32 + p.heap.brk.toNat < 2 ^ 64) :
    malloc p.heap answer n = some (p.heap, 0#64) ∨
    (∃ found ∈ p.created, Fits p.heap.mem (align8 n) found ∧ malloc p.heap answer n =
      some ({ p.heap with mem := setFree p.heap.mem found 0#64 }, found + headerSize)) ∨
    ((∀ b ∈ p.created, ¬ Fits p.heap.mem (align8 n) b) ∧ malloc p.heap answer n =
      some (if p.heap.brk = 0#64 then (newHeap p.heap answer (align8 n), 0#64)
        else (appendBlock (newHeap p.heap answer (align8 n)) p.heap.brk, p.heap.brk + headerSize))) := by
  by_cases zero : n = 0#64
  · exact .inl (by simp [malloc, zero])
  have walk : firstFit p.heap.mem (align8 n) addresses p.heap.head = _ := firstFit_list inv.list inv.list.length_lt
  cases search : p.created.find? fun b => Fits p.heap.mem (align8 n) b with
  | some found =>
    have mem := List.mem_of_find?_eq_some search
    have hit := inv.list.nonnull found mem
    refine .inr (.inl ⟨found, mem, by simpa using List.find?_some search, ?_⟩)
    rw [search, Option.getD_some] at walk
    simp only [malloc, zero, if_false, walk, Option.map_some, if_pos hit]
  | none =>
    have misfits : ∀ b ∈ p.created, ¬ Fits p.heap.mem (align8 n) b := by
      intro b mem
      simpa using List.find?_eq_none.mp search b mem
    rw [search, Option.getD_none] at walk
    obtain ⟨rounded, -, -⟩ := align8_small (n := n) (by omega)
    have above : p.heap.brk < neededEnd p.heap (align8 n) := by
      have room : p.heap.brk.toNat + 24 + (align8 n).toNat < 2 ^ 64 := by
        rw [rounded]
        unfold roundUp
        omega
      rw [BitVec.lt_def, neededEnd_toNat room]
      omega
    have called : malloc p.heap answer n =
        some (if (requestBlock p.heap answer (align8 n)).2 = 0#64 then requestBlock p.heap answer (align8 n)
          else (appendBlock (requestBlock p.heap answer (align8 n)).1 (requestBlock p.heap answer (align8 n)).2,
            (requestBlock p.heap answer (align8 n)).2 + headerSize)) := by
      simp only [malloc, zero, if_false, walk, Option.map_some, ne_eq, not_true_eq_false]
    cases high : p.heap.brk.msb with
    | true =>
      left
      rw [called, requestBlock_high high]
      rfl
    | false =>
      cases grows : answer.grows with
      | false =>
        left
        rw [called, requestBlock_refused above grows]
        rfl
      | true =>
        refine .inr (.inr ⟨misfits, ?_⟩)
        rw [called, requestBlock_grown high above grows]
        by_cases null : p.heap.brk = 0#64
        · simp only [null, if_true, newHeap]
        · simp only [null, if_false, newHeap]

end NewBlock

section Runs

variable {start : Nat} {p : Program}

theorem HeapInv.reuse (inv : HeapInv start p) {found n : Word} (mem : found ∈ p.created)
    (fits : Fits p.heap.mem (align8 n) found) (small : n.toNat + 8 ≤ 2 ^ 64) :
    HeapInv start ⟨{ p.heap with mem := setFree p.heap.mem found 0#64 }, (found + headerSize, n) :: p.live,
      p.created⟩ := by
  have back : found + headerSize - headerSize = found := by bv_omega
  have enough := (align8_small small).2.1
  have held : (((found + headerSize, n) :: p.live).map Prod.fst).Nodup := by
    refine List.nodup_cons.mpr ⟨fun again => ?_, inv.held⟩
    -- a block that is held is not marked free
    obtain ⟨e, held, same⟩ := List.mem_map.mp again
    have taken := (inv.live e held).2.1
    rw [same, back, fits.1] at taken
    cases taken
  apply inv.mark mem (.inl rfl) held
  intro e listed
  rcases List.mem_cons.mp listed with rfl | before
  · simp only [back]
    refine ⟨mem, ?_, by simp, by simp⟩
    exact BitVec.le_def.mpr (Nat.le_trans enough (BitVec.le_def.mp fits.2))
  · obtain ⟨block, taken, room⟩ := inv.live e before
    exact ⟨block, room, fun _ => rfl, fun _ => taken⟩

theorem HeapInv.lost (inv : HeapInv start p) (answer : BrkAnswer) {n : Word} (null : p.heap.brk = 0#64)
    (fits : n.toNat + 32 + p.heap.brk.toNat < 2 ^ 64) :
    HeapInv start { p with heap := newHeap p.heap answer (align8 n) } := by
  obtain ⟨rounded, -, unit⟩ := align8_small (n := n) (by omega)
  have room : p.heap.brk.toNat + 24 + (align8 n).toNat < 2 ^ 64 := by
    rw [rounded]
    unfold roundUp
    omega
  have none : p.created = [] := by
    apply List.eq_nil_iff_forall_not_mem.mpr
    intro b mem
    have inside := (inv.within mem).2
    have zero : p.heap.brk.toNat = 0 := by rw [null]; rfl
    unfold extent at inside
    omega
  have nothing : p.live = [] := by
    apply List.eq_nil_iff_forall_not_mem.mpr
    intro e held
    have block := (inv.live e held).1
    rw [none] at block
    cases block
  have list := inv.list
  obtain ⟨base, above, first, tiles⟩ := inv.tiles
  have brk := neededEnd_toNat room
  have even := inv.aligned.1
  rw [none] at list tiles
  have ended : pointer p.heap.head = Option.none := list
  refine ⟨by rw [none]; exact ended, ⟨(neededEnd p.heap (align8 n)).toNat, ?_, ?_, ?_⟩, ?_, ?_, ?_, inv.held⟩
  · have same : base = p.heap.brk.toNat := tiles
    omega
  · rw [brk]
    omega
  · rw [none]
    rfl
  · rw [none]
    simp
  · rw [none]
    simp
  · rw [nothing]
    simp

theorem HeapInv.malloc (inv : HeapInv start p) {n : Word} {answer : BrkAnswer}
    (permitted : HeapPermitted start p (.malloc n answer)) :
    HeapInv start (heapStep p (.malloc n answer)).1 ∧ (heapStep p (.malloc n answer)).2 ≠ none ∧
      ((heapStep p (.malloc n answer)).1.heap.brk ≠ p.heap.brk →
        ∀ b ∈ p.created, ¬ Fits p.heap.mem (align8 n) b) := by
  have fits : n.toNat + 32 + p.heap.brk.toNat < 2 ^ 64 := permitted
  rcases inv.malloc_cases answer fits with refused | ⟨found, mem, fit, reused⟩ | ⟨misfits, made⟩
  · simp only [heapStep, refused, if_true]
    exact ⟨inv, by simp, fun moved => absurd rfl moved⟩
  · have inside := (inv.within mem).2
    unfold extent at inside
    have header : headerSize.toNat = 24 := rfl
    have bound := p.heap.brk.isLt
    have nonnull : found + headerSize ≠ 0#64 := by
      intro null
      have := congrArg BitVec.toNat null
      rw [BitVec.toNat_add, header] at this
      change _ = 0 at this
      omega
    have back : found + headerSize - headerSize = found := by bv_omega
    simp only [heapStep, reused, nonnull, if_false, back, mem, if_true]
    exact ⟨inv.reuse mem fit (by omega), by simp, fun moved => absurd rfl moved⟩
  · by_cases null : p.heap.brk = 0#64
    · rw [if_pos null] at made
      simp only [heapStep, made, if_true]
      exact ⟨inv.lost answer null fits, by simp, fun _ => misfits⟩
    · rw [if_neg null] at made
      have nonnull : p.heap.brk + headerSize ≠ 0#64 := by
        have header : headerSize.toNat = 24 := rfl
        intro zero
        have := congrArg BitVec.toNat zero
        rw [BitVec.toNat_add, header] at this
        change _ = 0 at this
        omega
      have back : p.heap.brk + headerSize - headerSize = p.heap.brk := by bv_omega
      have unused : p.heap.brk ∉ p.created := by
        intro mem
        have inside := (inv.within mem).2
        unfold extent at inside
        omega
      simp only [heapStep, made, nonnull, if_false, back, unused]
      exact ⟨inv.append answer null fits, by simp, fun _ => misfits⟩

theorem HeapInv.step (inv : HeapInv start p) {op : HeapOp} (permitted : HeapPermitted start p op) :
    HeapInv start (heapStep p op).1 := by
  cases op with
  | malloc n answer => exact (inv.malloc permitted).1
  | free ptr => exact inv.free permitted
  | store a b => exact inv.store b permitted

theorem HeapInv.meets (inv : HeapInv start p) {op : HeapOp} (permitted : HeapPermitted start p op) :
    MallocMeets start p op := by
  refine ⟨(inv.step permitted).handsOut, ?_⟩
  cases op with
  | free ptr => exact trivial
  | store a b => exact trivial
  | malloc n answer =>
    obtain ⟨-, returns, extends_last⟩ := inv.malloc permitted
    refine ⟨returns, fun moved b mem free => ?_⟩
    have misfit := extends_last moved b mem
    have small : n.toNat + 32 + p.heap.brk.toNat < 2 ^ 64 := permitted
    obtain ⟨rounded, -, unit⟩ := align8_small (n := n) (by omega)
    have unit' := inv.sizes b mem
    have short : (blockSize p.heap.mem b).toNat < (align8 n).toNat := by
      by_contra enough
      exact misfit ⟨free, BitVec.le_def.mpr (Nat.le_of_not_lt enough)⟩
    rw [BitVec.lt_def]
    rw [rounded] at short unit
    unfold roundUp at short unit
    omega

theorem HeapInv.fresh (h : Heap) (page : 4096 ∣ h.brk.toNat) (empty : h.head = 0#64) :
    HeapInv h.brk.toNat ⟨h, [], []⟩ where
  list := by
    rw [empty]
    rfl
  tiles := ⟨h.brk.toNat, Nat.le_refl _, Nat.dvd_trans (by decide) page, rfl⟩
  tail := by simp
  sizes := by simp
  live := by simp
  held := List.nodup_nil

/-- Every run of `malloc`, `free` and stores from a page-aligned break hands out disjoint blocks. -/
theorem malloc_hands_out_disjoint_blocks (h : Heap) (page : 4096 ∣ h.brk.toNat) (empty : h.head = 0#64)
    (ops : List HeapOp) (permitted : Run.Along heapStep (HeapPermitted h.brk.toNat) ⟨h, [], []⟩ ops) :
    Run.Along heapStep (MallocMeets h.brk.toNat) ⟨h, [], []⟩ ops :=
  permitted.gives (HeapInv h.brk.toNat) (fun _ _ inv ok => inv.step ok) (fun _ _ inv ok => inv.meets ok)
    (HeapInv.fresh h page empty)

end Runs

instance decidableHeapPermitted (start : Nat) (p : Program) : (op : HeapOp) → Decidable (HeapPermitted start p op)
  | .malloc n _ => inferInstanceAs (Decidable (n.toNat + 32 + p.heap.brk.toNat < 2 ^ 64))
  | .free ptr => inferInstanceAs (Decidable (ptr = 0#64 ∨ ptr ∈ p.live.map Prod.fst))
  | .store a _ =>
    inferInstanceAs (Decidable ((∃ e ∈ p.live, e.1.toNat ≤ a.toNat ∧ a.toNat < e.1.toNat + e.2.toNat) ∨
      a.toNat < start ∨ p.heap.brk.toNat ≤ a.toNat))

def pageHeap : Heap := ⟨fun _ => 0#8, 0x402000#64, 0#64, 0#64⟩

def somePages : BrkAnswer := ⟨true, fun _ => 0#8⟩

/-- The heap test of `hello`: two blocks, the first is freed and a third takes its place. -/
def heapTest : List HeapOp :=
  [.malloc 64#64 somePages, .store 0x402018#64 98#8, .malloc 64#64 somePages, .free 0x402018#64,
    .malloc 64#64 somePages]

example : (Run.run heapStep ⟨pageHeap, [], []⟩ heapTest).2 =
    [some 0x402018#64, none, some 0x402070#64, none, some 0x402018#64] := by decide +kernel

theorem heapTest_disjoint : Run.Along heapStep (MallocMeets pageHeap.brk.toNat) ⟨pageHeap, [], []⟩ heapTest :=
  malloc_hands_out_disjoint_blocks pageHeap (by decide) rfl heapTest (by decide +kernel)

end Isunux
