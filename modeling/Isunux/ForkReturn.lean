import Isunux.ContextSwitches

/-! The child of `do_fork` on its way to ring 3. -/
namespace Isunux

/-- The processor's memory shows the physical pages from the HHDM offset on. -/
def Views (hhdm : Word) (phys : PhysMem) (mem : Word → Word) : Prop :=
  ∀ f i, f < maxPages → i < 512 → mem (Stack.slot (hhdm + pageAddr f) i) = phys f i

theorem storeAtEnd_words {hhdm : Word} {phys : PhysMem} {mem : Word → Word} {f : Nat} {words : List Word}
    (views : Views hhdm (storeAtEnd phys f words) mem) (inside : f < maxPages) (fits : words.length ≤ 512) :
    Stack.Holds mem (hhdm + pageAddr (f + 1) - BitVec.ofNat 64 (8 * words.length)) words := by
  have page : hhdm + pageAddr (f + 1) = Stack.slot (hhdm + pageAddr f) 512 := by
    rw [Stack.slot, BitVec.add_assoc, pageAddr, pageAddr, ← BitVec.ofNat_add]
    exact congrArg (fun n => hhdm + BitVec.ofNat 64 n) (by omega)
  have start : hhdm + pageAddr (f + 1) - BitVec.ofNat 64 (8 * words.length) =
      Stack.slot (hhdm + pageAddr f) (512 - words.length) := by
    rw [page]
    have whole : Stack.slot (hhdm + pageAddr f) 512 =
        Stack.slot (Stack.slot (hhdm + pageAddr f) (512 - words.length)) words.length := by
      rw [Stack.slot_slot, Nat.sub_add_cancel fits]
    rw [whole]
    exact BitVec.add_sub_cancel _ _
  rw [start]
  refine Stack.holds_of_at fun i low => ?_
  rw [Stack.slot_slot, views f _ inside (by omega)]
  unfold storeAtEnd
  rw [Function.update_self, if_pos (Nat.le_add_right _ _), Nat.add_sub_cancel_left, List.getElem?_eq_getElem low]
  rfl

/-- What a `do_fork` that does not fail has set up. -/
structure ForkedTask (k : Kernel) (child t : Nat) (point : Word) (frame : TrapFrame) : Prop where
  task : (k.procs child).task = some t
  proc : (k.tasks t).proc = some child
  state : (k.tasks t).state = .ready
  stack : ∃ (phys : PhysMem) (f : Nat), f < maxPages ∧ k.vm.mem = storeAtEnd phys f (childStack point frame) ∧
    (k.tasks t).rsp = k.hhdm + pageAddr (f + 1) - BitVec.ofNat 64 (8 * (childStack point frame).length)

theorem forkTask_forked {k : Kernel} {child : Nat} {point : Word} {frame : TrapFrame}
    (forked : 0 ≤ (forkTask k child point frame).2) :
    ∃ t, ForkedTask (forkTask k child point frame).1 child t point frame ∧
      (forkTask k child point frame).2 = ((forkTask k child point frame).1.procs child).pid := by
  unfold forkTask at forked ⊢
  split
  · rename_i full
    rw [full] at forked
    exact absurd (show 0 ≤ -eagain from forked) (by decide)
  · rename_i k' t some
    simp only [some] at forked
    rcases pmmAllocPages_cases k'.vm.pmm forkKstackPages with e | ⟨start, _, bound, _, e⟩
    · simp only [Kernel.setProc, Kernel.setTask, e, if_true] at forked
      exact absurd forked (by decide)
    · refine ⟨t, ?_⟩
      have inside : start + 4 ≤ maxPages := Nat.le_trans bound k'.vm.pmm.total_le
      by_cases zero : start = 0
      · simp only [Kernel.setProc, Kernel.setTask, e, if_pos zero] at forked
        exact absurd forked (by decide)
      · simp only [Kernel.setProc, Kernel.setTask, e, if_neg zero]
        refine ⟨⟨?_, ?_, ?_, k'.vm.mem, start + 3, by omega, rfl, ?_⟩, trivial⟩
        · simp only [Function.update_self]
        · simp only [Function.update_self]
        · simp only [Function.update_self]
        · simp only [Function.update_self]
          rfl

theorem doFork_forked {k : Kernel} {point : Word} {frame : TrapFrame} (forked : 0 ≤ (doFork k point frame).2) :
    ∃ child t, ForkedTask (doFork k point frame).1 child t point frame ∧
      (doFork k point frame).2 = ((doFork k point frame).1.procs child).pid := by
  unfold doFork at forked ⊢
  split
  · rename_i nobody
    rw [nobody] at forked
    exact absurd (show 0 ≤ -einval from forked) (by decide)
  · rename_i parent current
    simp only [current] at forked
    split
    · rename_i k' full
      rw [full] at forked
      exact absurd (show 0 ≤ -eagain from forked) (by decide)
    · rename_i k' child slot
      simp only [slot] at forked
      exact ⟨child, forkTask_forked forked⟩

/-- The first switch to the child of a `fork` ends in ring 3 right behind the parent's system
call: with the parent's registers, but zero in `rax`. -/
theorem forked_child_returns_zero (k : Kernel) (point : Word) (frame : TrapFrame)
    (forked : 0 ≤ (doFork k point frame).2) :
    ∃ child t f, (doFork k point frame).2 = ((doFork k point frame).1.procs child).pid ∧
      ((doFork k point frame).1.procs child).task = some t ∧ ((doFork k point frame).1.tasks t).state = .ready ∧
      f < maxPages ∧
      ((doFork k point frame).1.tasks t).rsp = (doFork k point frame).1.hhdm + pageAddr (f + 1) - 232#64 ∧
      ∀ (c : Core) (base back : Word) (i : Nat), Views (doFork k point frame).1.hhdm (doFork k point frame).1.vm.mem c.mem →
        c.regs .rsi = ((doFork k point frame).1.tasks t).rsp → c.sp = Stack.slot base (i + 7) → 8 * (i + 7) ≤ 2 ^ 64 →
        OffBlock base i 7 (c.regs .rdi) →
        (∀ j, j < 29 → Stack.slot (c.regs .rsi) j ≠ c.regs .rdi ∧ OffBlock base i 7 (Stack.slot (c.regs .rsi) j)) →
        (exec switchContext (c.call back)).rip = point ∧
          (exec syscallReturnPoint (exec switchContext (c.call back))).user =
            ({ frame with rax := 0#64 } : TrapFrame).user.afterSysret ∧
          (exec syscallReturnPoint (exec switchContext (c.call back))).cs = gdtUserCode := by
  obtain ⟨child, t, built, pid⟩ := doFork_forked forked
  obtain ⟨phys, f, inside, mem, rsp⟩ := built.stack
  refine ⟨child, t, f, pid, built.task, built.state, inside, rsp, ?_⟩
  intro c base back i views rsi here room cell apart
  rw [mem] at views
  have words := storeAtEnd_words views inside (by decide : 29 ≤ 512)
  rw [← rsp, ← rsi] at words
  have split : childStack point frame =
      (calleeSaved.reverse.map (fun _ => 0#64) ++ [point]) ++ { frame with rax := 0#64 }.words := rfl
  rw [split, Stack.holds_append] at words
  obtain ⟨saved, above⟩ := words
  have switched : Switched c (exec switchContext (c.call back)) base i back (fun _ => 0#64) point :=
    switchContext_switched here room cell saved fun j low => apart j (by omega)
  generalize exec switchContext (c.call back) = d at switched ⊢
  have frame' : Stack.Holds d.mem d.sp { frame with rax := 0#64 }.words := by
    rw [switched.sp]
    refine Stack.Holds.congr above fun j low => ?_
    rw [TrapFrame.words_length] at low
    show d.mem (Stack.slot (Stack.slot (c.regs .rsi) 7) j) = c.mem (Stack.slot (Stack.slot (c.regs .rsi) 7) j)
    rw [Stack.slot_slot]
    obtain ⟨other, off⟩ := apart (7 + j) (by omega)
    exact switched.mem _ other off
  obtain ⟨user, cs, _⟩ := syscallReturnPoint_user frame'
  exact ⟨switched.rip, user, cs⟩

/-- `main` and one program, which is running. -/
def lonelyParent : Kernel :=
  { fullHouse with
    tasks := fun i =>
      ⟨0#64, 0, 0, 0#64, 0#64, 0#64, if i = 1 then .running else .ready, none, if i = 1 then some 0 else none, 1 - i⟩
    taskCount := 2
    procs := fun i => if i = 0 then { Process.zero with pid := 1, task := some 1 } else Process.zero
    processCount := 1
    nextPid := 2 }

set_option maxRecDepth 20000 in
theorem lonelyParent_forks : (doFork lonelyParent 3#64 zeroFrameRegs).2 = 2 := by decide +kernel

theorem lonelyParent_hhdm : (doFork lonelyParent 3#64 zeroFrameRegs).1.hhdm = 0#64 := by decide +kernel

/-- All physical memory, from address 0 on. -/
def flatMem (phys : PhysMem) (a : Word) : Word := phys (a.toNat / 4096) (a.toNat % 4096 / 8)

theorem flatMem_views (phys : PhysMem) : Views 0#64 phys (flatMem phys) := by
  intro f i inside low
  have inside : f < 1048576 := inside
  have place : (Stack.slot (0#64 + pageAddr f) i).toNat = f * 4096 + 8 * i := by
    rw [BitVec.zero_add, Stack.slot, pageAddr, ← BitVec.ofNat_add, BitVec.toNat_ofNat, Nat.mod_eq_of_lt (by omega)]
  rw [flatMem, place]
  exact congrArg₂ phys (by omega) (by omega)

theorem forked_child_returns_zero_lonely :
    ∃ c : Core, Views 0#64 (doFork lonelyParent 3#64 zeroFrameRegs).1.vm.mem c.mem ∧
      (exec switchContext (c.call 9#64)).rip = 3#64 ∧
      (exec syscallReturnPoint (exec switchContext (c.call 9#64))).user = zeroFrameRegs.user.afterSysret := by
  obtain ⟨child, t, f, -, -, -, inside, rsp, returns⟩ :=
    forked_child_returns_zero lonelyParent 3#64 zeroFrameRegs (by rw [lonelyParent_forks]; decide)
  have inside : f < 1048576 := inside
  rw [lonelyParent_hhdm] at rsp returns
  have place : ∀ j, Stack.slot ((doFork lonelyParent 3#64 zeroFrameRegs).1.tasks t).rsp j =
      BitVec.ofNat 64 (f * 4096 + 3864 + 8 * j) := by
    intro j
    have page : pageAddr (f + 1) = BitVec.ofNat 64 (f * 4096 + 3864) + 232#64 := by
      rw [pageAddr, ← BitVec.ofNat_add]
      exact congrArg (BitVec.ofNat 64) (by omega)
    rw [rsp, BitVec.zero_add, page, BitVec.add_sub_cancel, Stack.slot, ← BitVec.ofNat_add]
  generalize ((doFork lonelyParent 3#64 zeroFrameRegs).1.tasks t).rsp = sp at *
  generalize (doFork lonelyParent 3#64 zeroFrameRegs).1.vm.mem = phys at *
  obtain ⟨c, eq⟩ : ∃ c : Core, c = ⟨⟨Function.update (Function.update (fun _ => 0#64) .rdi 0x2000000000#64) .rsi sp,
    0x1000000038#64, flatMem phys⟩, 0#64, 0#64, gdtKernelCode, 0#64⟩ := ⟨_, rfl⟩
  have rdi : c.regs .rdi = 0x2000000000#64 := by rw [eq]; rfl
  have rsi : c.regs .rsi = sp := by rw [eq]; rfl
  have here : c.sp = Stack.slot 0x1000000000#64 (0 + 7) := by rw [eq]; rfl
  have views : Views 0#64 phys c.mem := by
    rw [eq]
    exact flatMem_views phys
  have block : ∀ n, n < 2 ^ 36 → OffBlock 0x1000000000#64 0 7 (BitVec.ofNat 64 n) := by
    intro n low j _ high same
    rw [Stack.slot, ← BitVec.ofNat_add] at same
    have := ofNat_inj (by omega) (by omega) same
    omega
  have returned := returns c 0x1000000000#64 9#64 0 views rsi here (by decide) ?_ ?_
  · exact ⟨c, views, returned.1, returned.2.1⟩
  · rw [rdi]
    intro j _ high same
    rw [Stack.slot, ← BitVec.ofNat_add] at same
    have := ofNat_inj (by omega) (by omega) same
    omega
  · intro j low
    rw [rsi, place, rdi]
    refine ⟨fun same => ?_, block _ (by omega)⟩
    have := ofNat_inj (by omega) (by omega) same
    omega

end Isunux
