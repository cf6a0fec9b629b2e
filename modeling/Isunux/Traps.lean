import Isunux.Exec
import Isunux.Lib.Stack

/-! switch.asm, isr.asm and usermode.asm: the code that moves registers between the
processor and a kernel stack, instruction by instruction. -/
namespace Isunux

/-- The general registers but `rsp`. -/
inductive Reg where
  | rax | rbx | rcx | rdx | rsi | rdi | rbp | r8 | r9 | r10 | r11 | r12 | r13 | r14 | r15
  deriving DecidableEq, Repr

/-- The processor, with memory by words. -/
structure Core extends Stack.State Reg where
  rip : Word
  rflags : Word
  cs : Word
  ss : Word

/-- The instructions that the three files use on 64-bit operands. -/
inductive Instr where
  | push (r : Reg)
  | pushImm (w : Word)
  | pushCell (a : Word)
  | pushFlags
  | pop (r : Reg)
  | popSp
  | addSp (n : Nat)
  | movAx (w : Word)
  | orRax (w : Word)
  | movRdiSp
  | saveSp
  | loadSp
  | saveSpAt (a : Word)
  | loadSpAt (a : Word)
  | ret
  | iretq
  | sysret

def gdtKernelCode : Word := 0x08#64

/-- What `sysret` makes of `r11`. -/
def sysretFlags (w : Word) : Word := (w &&& 0x3C7FD7#64) ||| 2#64

def Core.stack (c : Core) (s : Stack.State Reg) : Core := { c with toState := s }

/-- One instruction. `sysret` takes its selectors from STAR, `iretq` from the stack. -/
def Instr.exec (c : Core) : Instr → Core
  | .push r => c.stack (c.push (c.regs r))
  | .pushImm w => c.stack (c.push w)
  | .pushCell a => c.stack (c.push (c.mem a))
  | .pushFlags => c.stack (c.push c.rflags)
  | .pop r => c.stack (c.popTo r)
  | .popSp => { c with sp := c.mem c.sp }
  | .addSp n => { c with sp := Stack.slot c.sp n }
  | .movAx w => { c with regs := Function.update c.regs .rax ((c.regs .rax &&& ~~~0xffff#64) ||| w) }
  | .orRax w => { c with regs := Function.update c.regs .rax (c.regs .rax ||| w) }
  | .movRdiSp => { c with regs := Function.update c.regs .rdi c.sp }
  | .saveSp => { c with mem := Function.update c.mem (c.regs .rdi) c.sp }
  | .loadSp => { c with sp := c.regs .rsi }
  | .saveSpAt a => { c with mem := Function.update c.mem a c.sp }
  | .loadSpAt a => { c with sp := c.mem a }
  | .ret => { c with rip := c.mem c.sp, sp := Stack.slot c.sp 1 }
  | .iretq =>
    { c with
      rip := c.mem c.sp
      cs := c.mem (Stack.slot c.sp 1)
      rflags := c.mem (Stack.slot c.sp 2)
      sp := c.mem (Stack.slot c.sp 3)
      ss := c.mem (Stack.slot c.sp 4) }
  | .sysret => { c with rip := c.regs .rcx, rflags := sysretFlags (c.regs .r11), cs := gdtUserCode, ss := gdtUserData }

def exec (code : List Instr) (c : Core) : Core := code.foldl Instr.exec c

/-! The code -/

/-- The registers that `switch_context` saves, in the order of its pushes. -/
def calleeSaved : List Reg := [.rbp, .rbx, .r12, .r13, .r14, .r15]

/-- The registers that every stub of isr.asm saves, in the order of its pushes. -/
def generalRegs : List Reg :=
  [.rax, .rbx, .rcx, .rdx, .rsi, .rdi, .rbp, .r8, .r9, .r10, .r11, .r12, .r13, .r14, .r15]

section

open Instr

def pushAll (rs : List Reg) : List Instr := rs.map push

def popAll (rs : List Reg) : List Instr := rs.map pop

def switchContext : List Instr := pushAll calleeSaved ++ ([saveSp, loadSp] ++ (popAll calleeSaved.reverse ++ [ret]))

/-- The vectors of `ISR_ERR`: the CPU has pushed an error code. -/
def isrErr : List Nat := [8, 10, 11, 12, 13, 14, 17, 21, 29, 30]

/-- `isrN` up to the call of the handler, for exceptions and for interrupts. -/
def isrStub (vector : Nat) : List Instr :=
  (if vector ∈ isrErr then [] else [pushImm 0#64]) ++
    ([pushImm (BitVec.ofNat 64 vector)] ++ (pushAll generalRegs ++ [movRdiSp]))

/-- `isr_common` and `irq_common` behind the call. -/
def isrReturn : List Instr := popAll generalRegs.reverse ++ [addSp 2, iretq]

/-- Where isr.asm keeps the user's stack pointer for a moment, and `kernel_tss.rsp0`. -/
structure Cells where
  scratch : Word
  rsp0 : Word

/-- `syscall_entry` up to the call of the handler. -/
def syscallEntry (x : Cells) : List Instr :=
  [saveSpAt x.scratch, loadSpAt x.rsp0, pushImm gdtUserData, pushCell x.scratch, push .r11, pushImm gdtUserCode,
    push .rcx, pushImm 0#64, pushImm 128#64] ++ (pushAll generalRegs ++ [movRdiSp])

def syscallReturnPoint : List Instr :=
  popAll generalRegs.reverse ++ [addSp 2, pop .rcx, addSp 1, pop .r11, popSp, sysret]

/-- `enter_userspace`. The data segment registers are not kept here. -/
def enterUserspace : List Instr :=
  [movAx 0x23#64, pushImm gdtUserData, push .rsi, pushFlags, pop .rax, orRax 0x200#64, push .rax, pushImm gdtUserCode,
    push .rdi, iretq]

end

/-! What the processor does by itself -/

def cpuPushesError (vector : Nat) : Bool := vector ∈ [8, 10, 11, 12, 13, 14, 17, 21, 29, 30]

/-- An interrupt gate taken in ring 3: the stack of `rsp0`, and the interrupted
context on it. The gate clears IF, TF, NT and RF. -/
def Core.deliver (c : Core) (x : Cells) (vector : Nat) (err : Word) : Core :=
  let saved := [c.ss, c.sp, c.rflags, c.cs, c.rip] ++ if cpuPushesError vector then [err] else []
  { c with
    toState := { c.toState with sp := c.mem x.rsp0 }.pushes saved
    rflags := c.rflags &&& ~~~0x14300#64
    cs := gdtKernelCode
    ss := 0#64 }

/-- The `syscall` instruction, with FMASK as `syscall_init` sets it. -/
def Core.syscall (c : Core) : Core :=
  { c with
    regs := Function.update (Function.update c.regs .rcx c.rip) .r11 c.rflags
    rflags := c.rflags &&& ~~~0x300#64
    cs := gdtKernelCode
    ss := 0x10#64 }

def Core.call (c : Core) (back : Word) : Core := c.stack (c.push back)

/-! Contexts -/

/-- What a program in ring 3 sees of the processor. -/
@[ext] structure User where
  regs : Reg → Word
  rip : Word
  rflags : Word
  rsp : Word

def Core.user (c : Core) : User := ⟨c.regs, c.rip, c.rflags, c.sp⟩

def TrapFrame.regs (f : TrapFrame) : Reg → Word
  | .rax => f.rax | .rbx => f.rbx | .rcx => f.rcx | .rdx => f.rdx | .rsi => f.rsi | .rdi => f.rdi | .rbp => f.rbp
  | .r8 => f.r8 | .r9 => f.r9 | .r10 => f.r10 | .r11 => f.r11 | .r12 => f.r12 | .r13 => f.r13 | .r14 => f.r14
  | .r15 => f.r15

def TrapFrame.user (f : TrapFrame) : User := ⟨f.regs, f.rip, f.rflags, f.rsp⟩

/-- Behind a `sysret`, `rcx` and `r11` tell where it went. -/
def User.afterSysret (u : User) : User :=
  { u with
    regs := Function.update (Function.update u.regs .rcx u.rip) .r11 u.rflags
    rflags := sysretFlags u.rflags }

/-- The frame that a stub builds for this context. -/
def User.frame (u : User) (intNo errCode cs ss : Word) : TrapFrame where
  r15 := u.regs .r15
  r14 := u.regs .r14
  r13 := u.regs .r13
  r12 := u.regs .r12
  r11 := u.regs .r11
  r10 := u.regs .r10
  r9 := u.regs .r9
  r8 := u.regs .r8
  rbp := u.regs .rbp
  rdi := u.regs .rdi
  rsi := u.regs .rsi
  rdx := u.regs .rdx
  rcx := u.regs .rcx
  rbx := u.regs .rbx
  rax := u.regs .rax
  intNo := intNo
  errCode := errCode
  rip := u.rip
  cs := cs
  rflags := u.rflags
  rsp := u.rsp
  ss := ss

@[simp] theorem User.frame_user (u : User) (intNo errCode cs ss : Word) : (u.frame intNo errCode cs ss).user = u := by
  refine User.ext (funext fun r => ?_) rfl rfl rfl
  cases r <;> rfl

@[simp] theorem TrapFrame.words_length (f : TrapFrame) : f.words.length = 22 := rfl

theorem TrapFrame.words_eq (f : TrapFrame) :
    f.words = generalRegs.reverse.map f.regs ++ [f.intNo, f.errCode, f.rip, f.cs, f.rflags, f.rsp, f.ss] := rfl

section Code

variable {c : Core} {x : Cells} {base : Word} {i : Nat}

@[simp] theorem exec_nil (c : Core) : exec [] c = c := rfl

@[simp] theorem exec_cons (ins : Instr) (code : List Instr) (c : Core) : exec (ins :: code) c = exec code (ins.exec c) := rfl

theorem exec_append (as bs : List Instr) (c : Core) : exec (as ++ bs) c = exec bs (exec as c) :=
  List.foldl_append

/-! Code that only pushes, behind some pushes -/

theorem exec_pushImm (w : Word) (code : List Instr) (s : Stack.State Reg) (ws : List Word) :
    exec (.pushImm w :: code) (c.stack (s.pushes ws)) = exec code (c.stack (s.pushes (ws ++ [w]))) := by
  rw [Stack.State.pushes, Stack.State.pushes, List.foldl_append]
  rfl

theorem exec_push (r : Reg) (code : List Instr) (s : Stack.State Reg) (ws : List Word) :
    exec (.push r :: code) (c.stack (s.pushes ws)) = exec code (c.stack (s.pushes (ws ++ [s.regs r]))) := by
  have regs := congrFun (Stack.State.pushes_regs s ws) r
  rw [exec_cons, Instr.exec]
  show exec code (c.stack ((s.pushes ws).push ((s.pushes ws).regs r))) = _
  rw [regs, Stack.State.pushes, Stack.State.pushes, List.foldl_append]
  rfl

theorem exec_pushes (rs : List Reg) (code : List Instr) (s : Stack.State Reg) (ws : List Word) :
    exec (pushAll rs ++ code) (c.stack (s.pushes ws)) = exec code (c.stack (s.pushes (ws ++ rs.map s.regs))) := by
  induction rs generalizing ws with
  | nil => rw [List.map_nil, List.append_nil]; rfl
  | cons r rs ih =>
    refine (exec_push r (pushAll rs ++ code) s ws).trans ?_
    rw [ih, List.append_assoc]
    rfl

theorem exec_pops (rs : List Reg) (c : Core) : exec (popAll rs) c = c.stack (c.pops rs) := by
  induction rs generalizing c with
  | nil => rfl
  | cons r rs ih => exact ih (c.stack (c.popTo r))

theorem pops_read {s : Stack.State Reg} {rs : List Reg} {f : Reg → Word} (h : Stack.Holds s.mem s.sp (rs.map f))
    (nodup : rs.Nodup) {r : Reg} (mem : r ∈ rs) : (s.pops rs).regs r = f r := by
  have same := h.pops (by rw [List.length_map]) nodup
  exact List.map_inj_left.mp same r mem

theorem mem_generalRegs (r : Reg) : r ∈ generalRegs := by cases r <;> decide

/-- The words of a block that starts at place `i`. -/
def OffBlock (base : Word) (i n : Nat) (b : Word) : Prop := ∀ j, i ≤ j → j < i + n → b ≠ Stack.slot base j

/-- What a stub leaves for its handler: the frame on the stack, and `rdi` at it. -/
structure Framed (c c' : Core) (base : Word) (i : Nat) (f : TrapFrame) : Prop where
  sp : c'.sp = Stack.slot base i
  frame : Stack.Holds c'.mem (Stack.slot base i) f.words
  rdi : c'.regs .rdi = Stack.slot base i
  mem : ∀ b, OffBlock base i 22 b → c'.mem b = c.mem b
  cs : c'.cs = gdtKernelCode

theorem framed_pushes {s : Stack.State Reg} {ws : List Word} {f : TrapFrame} (d : Core) (here : s.sp = Stack.slot base (i + 22))
    (room : 8 * (i + 22) ≤ 2 ^ 64) (words : ws.reverse = f.words) (mem : ∀ b, OffBlock base i 22 b → s.mem b = c.mem b)
    (cs : d.cs = gdtKernelCode) : Framed c (exec [.movRdiSp] (d.stack (s.pushes ws))) base i f := by
  obtain rfl : ws = f.words.reverse := by rw [← words, List.reverse_reverse]
  obtain ⟨sp, held, kept⟩ := Stack.State.pushes_reverse f.words here room
  generalize s.pushes f.words.reverse = v at sp held kept ⊢
  refine ⟨sp, held, ?_, fun b off => (kept b off).trans (mem b off), cs⟩
  exact (Function.update_self Reg.rdi v.sp v.regs).trans sp

/-- An exception or an interrupt in ring 3 puts the interrupted context on the kernel
stack; the dummy error code gives all vectors frames of one shape. -/
theorem isrStub_framed (vector : Nat) (err : Word) (top : c.mem x.rsp0 = Stack.slot base (i + 22))
    (room : 8 * (i + 22) ≤ 2 ^ 64) :
    Framed c (exec (isrStub vector) (c.deliver x vector err)) base i
      (c.user.frame (BitVec.ofNat 64 vector) (if cpuPushesError vector then err else 0#64) c.cs c.ss) := by
  have member : vector ∈ isrErr ↔ cpuPushesError vector = true := by
    rw [cpuPushesError, decide_eq_true_iff]
    exact Iff.rfl
  unfold isrStub Core.deliver
  dsimp only
  by_cases known : cpuPushesError vector = true
  · rw [if_pos (member.mpr known), if_pos known, if_pos known, List.nil_append]
    have code := exec_pushImm (c := { c with rflags := c.rflags &&& ~~~0x14300#64, cs := gdtKernelCode, ss := 0#64 })
      (BitVec.ofNat 64 vector) (pushAll generalRegs ++ [.movRdiSp]) { c.toState with sp := c.mem x.rsp0 }
      ([c.ss, c.sp, c.rflags, c.cs, c.rip] ++ [err])
    refine (congrArg (fun d => Framed c d base i _) (code.trans (exec_pushes _ _ _ _))).mpr ?_
    exact framed_pushes _ top room rfl (fun _ _ => rfl) rfl
  · rw [if_neg (mt member.mp known), if_neg known, if_neg known]
    have code := exec_pushImm (c := { c with rflags := c.rflags &&& ~~~0x14300#64, cs := gdtKernelCode, ss := 0#64 })
      0#64 (.pushImm (BitVec.ofNat 64 vector) :: (pushAll generalRegs ++ [.movRdiSp]))
      { c.toState with sp := c.mem x.rsp0 } ([c.ss, c.sp, c.rflags, c.cs, c.rip] ++ [])
    refine (congrArg (fun d => Framed c d base i _) (code.trans ((exec_pushImm _ _ _ _).trans (exec_pushes _ _ _ _)))).mpr ?_
    exact framed_pushes _ top room rfl (fun _ _ => rfl) rfl

theorem exec_switchStack (d : Core) (code : List Instr) (other : x.scratch ≠ x.rsp0) (off : x.scratch ≠ d.mem x.rsp0 - 8#64) :
    exec (.saveSpAt x.scratch :: .loadSpAt x.rsp0 :: .pushImm gdtUserData :: .pushCell x.scratch :: code) d =
      exec code (d.stack (Stack.State.pushes ⟨d.regs, d.mem x.rsp0, Function.update d.mem x.scratch d.sp⟩
        [gdtUserData, d.sp])) := by
  have rsp0 : Function.update d.mem x.scratch d.sp x.rsp0 = d.mem x.rsp0 := Function.update_of_ne other.symm _ _
  have loaded : Instr.exec (Instr.exec d (.saveSpAt x.scratch)) (.loadSpAt x.rsp0) =
      d.stack ⟨d.regs, d.mem x.rsp0, Function.update d.mem x.scratch d.sp⟩ := by
    simp only [Instr.exec, rsp0]
    rfl
  rw [exec_cons, exec_cons, loaded, exec_cons, exec_cons]
  -- the push of the data selector does not reach the cell
  have cell : (Stack.State.push ⟨d.regs, d.mem x.rsp0, Function.update d.mem x.scratch d.sp⟩ gdtUserData).mem x.scratch =
      d.sp := (Function.update_of_ne off _ _).trans (Function.update_self _ _ _)
  generalize (⟨d.regs, d.mem x.rsp0, Function.update d.mem x.scratch d.sp⟩ : Stack.State Reg) = s at cell ⊢
  have pushed : Instr.exec (Instr.exec (d.stack s) (.pushImm gdtUserData)) (.pushCell x.scratch) =
      d.stack ((s.push gdtUserData).push ((s.push gdtUserData).mem x.scratch)) := rfl
  rw [pushed, cell]
  rfl

theorem syscallEntry_framed (top : c.mem x.rsp0 = Stack.slot base (i + 22)) (room : 8 * (i + 22) ≤ 2 ^ 64)
    (cells : x.scratch ≠ x.rsp0) (off : OffBlock base i 22 x.scratch) :
    Framed { c with mem := Function.update c.mem x.scratch c.sp } (exec (syscallEntry x) c.syscall) base i
      ({ c.syscall.user with rip := c.rip, rflags := c.rflags }.frame 128#64 0#64 gdtUserCode gdtUserData) := by
  have rcx : c.syscall.regs .rcx = c.rip := by simp [Core.syscall]
  have r11 : c.syscall.regs .r11 = c.rflags := by simp [Core.syscall]
  have start : c.syscall.mem = c.mem ∧ c.syscall.sp = c.sp ∧ c.syscall.cs = gdtKernelCode := ⟨rfl, rfl, rfl⟩
  generalize c.syscall = d at rcx r11 start ⊢
  obtain ⟨mem, sp, cs⟩ := start
  rw [← mem] at top
  have above : x.scratch ≠ d.mem x.rsp0 - 8#64 := by
    rw [top, show i + 22 = i + 21 + 1 from rfl, Stack.slot_pred]
    exact off (i + 21) (by omega) (by omega)
  have code := exec_switchStack d (.push .r11 :: .pushImm gdtUserCode :: .push .rcx :: .pushImm 0#64 :: .pushImm 128#64 ::
    (pushAll generalRegs ++ [.movRdiSp])) cells above
  rw [exec_push, exec_pushImm, exec_push, exec_pushImm, exec_pushImm, exec_pushes] at code
  refine (congrArg (fun e => Framed _ e base i _) code).mpr ?_
  refine framed_pushes d top room ?_ (fun b _ => ?_) cs
  · rw [rcx, r11]
    rfl
  · show Function.update d.mem x.scratch d.sp b = Function.update c.mem x.scratch c.sp b
    rw [mem, sp]

theorem exec_iretq (t : Stack.State Reg) : exec [.addSp 2, .iretq] (c.stack t) =
    ⟨⟨t.regs, t.mem (Stack.slot t.sp 5), t.mem⟩, t.mem (Stack.slot t.sp 2), t.mem (Stack.slot t.sp 4),
      t.mem (Stack.slot t.sp 3), t.mem (Stack.slot t.sp 6)⟩ := by
  simp only [exec_cons, exec_nil, Instr.exec, Core.stack, Stack.slot_slot]

theorem frame_popped {f : TrapFrame} (frame : Stack.Holds c.mem c.sp f.words) :
    (c.pops generalRegs.reverse).regs = f.regs ∧ (c.pops generalRegs.reverse).mem = c.mem ∧
      Stack.Holds c.mem (c.pops generalRegs.reverse).sp [f.intNo, f.errCode, f.rip, f.cs, f.rflags, f.rsp, f.ss] := by
  rw [TrapFrame.words_eq, Stack.holds_append, List.length_map] at frame
  refine ⟨funext fun r => ?_, c.pops_mem _, ?_⟩
  · exact pops_read frame.1 (by decide) (List.mem_reverse.mpr (mem_generalRegs r))
  · rw [Stack.State.pops_sp]
    exact frame.2

theorem isrReturn_user {f : TrapFrame} (frame : Stack.Holds c.mem c.sp f.words) :
    (exec isrReturn c).user = f.user ∧ (exec isrReturn c).cs = f.cs ∧ (exec isrReturn c).ss = f.ss ∧
      (exec isrReturn c).mem = c.mem := by
  obtain ⟨regs, mem, rest⟩ := frame_popped frame
  unfold isrReturn
  rw [exec_append, exec_pops]
  generalize c.pops generalRegs.reverse = t at regs mem rest ⊢
  rw [exec_iretq, mem]
  have word : ∀ i (low : i < 7), c.mem (Stack.slot t.sp i) = [f.intNo, f.errCode, f.rip, f.cs, f.rflags, f.rsp, f.ss][i] :=
    fun i low => rest.at low
  exact ⟨User.ext regs (word 2 (by decide)) (word 4 (by decide)) (word 5 (by decide)), word 3 (by decide), word 6 (by decide),
    rfl⟩

theorem exec_sysret (t : Stack.State Reg) : exec [.addSp 2, .pop .rcx, .addSp 1, .pop .r11, .popSp, .sysret] (c.stack t) =
    ⟨⟨Function.update (Function.update t.regs .rcx (t.mem (Stack.slot t.sp 2))) .r11 (t.mem (Stack.slot t.sp 4)),
        t.mem (Stack.slot t.sp 5), t.mem⟩,
      t.mem (Stack.slot t.sp 2), sysretFlags (t.mem (Stack.slot t.sp 4)), gdtUserCode, gdtUserData⟩ := by
  have up : ∀ a : Word, a + 8#64 = Stack.slot a 1 := fun _ => rfl
  simp only [exec_cons, exec_nil, Instr.exec, Core.stack, Stack.State.popTo, up, Stack.slot_slot, Function.update_self,
    Function.update_of_ne (show Reg.rcx ≠ Reg.r11 by decide)]

theorem syscallReturnPoint_user {f : TrapFrame} (frame : Stack.Holds c.mem c.sp f.words) :
    (exec syscallReturnPoint c).user = f.user.afterSysret ∧ (exec syscallReturnPoint c).cs = gdtUserCode ∧
      (exec syscallReturnPoint c).ss = gdtUserData ∧ (exec syscallReturnPoint c).mem = c.mem := by
  obtain ⟨regs, mem, rest⟩ := frame_popped frame
  unfold syscallReturnPoint
  rw [exec_append, exec_pops]
  generalize c.pops generalRegs.reverse = t at regs mem rest ⊢
  rw [exec_sysret, mem, regs]
  have word : ∀ i (low : i < 7), c.mem (Stack.slot t.sp i) = [f.intNo, f.errCode, f.rip, f.cs, f.rflags, f.rsp, f.ss][i] :=
    fun i low => rest.at low
  have rip : c.mem (Stack.slot t.sp 2) = f.rip := word 2 (by decide)
  have rflags : c.mem (Stack.slot t.sp 4) = f.rflags := word 4 (by decide)
  have rsp : c.mem (Stack.slot t.sp 5) = f.rsp := word 5 (by decide)
  rw [rip, rflags, rsp]
  exact ⟨rfl, rfl, rfl, rfl⟩

/-- A call of `switch_context` and what it returns into, on the other stack. -/
structure Switched (c c' : Core) (base : Word) (i : Nat) (back : Word) (regs : Reg → Word) (next : Word) : Prop where
  saved : Stack.Holds c'.mem (Stack.slot base i) (calleeSaved.reverse.map c.regs ++ [back])
  cell : c'.mem (c.regs .rdi) = Stack.slot base i
  mem : ∀ b, b ≠ c.regs .rdi → OffBlock base i 7 b → c'.mem b = c.mem b
  sp : c'.sp = Stack.slot (c.regs .rsi) 7
  rip : c'.rip = next
  restored : ∀ r ∈ calleeSaved, c'.regs r = regs r
  cs : c'.cs = c.cs

theorem exec_switch (s : Stack.State Reg) (code : List Instr) : exec ([.saveSp, .loadSp] ++ code) (c.stack s) =
    exec code (c.stack ⟨s.regs, s.regs .rsi, Function.update s.mem (s.regs .rdi) s.sp⟩) := rfl

/-- The caller's registers and return address go onto its stack; those of the other task,
which it saved the same way, come back. -/
theorem switchContext_switched {back next : Word} {regs : Reg → Word} (here : c.sp = Stack.slot base (i + 7))
    (room : 8 * (i + 7) ≤ 2 ^ 64) (cell : OffBlock base i 7 (c.regs .rdi))
    (target : Stack.Holds c.mem (c.regs .rsi) (calleeSaved.reverse.map regs ++ [next]))
    (apart : ∀ j, j < 7 → Stack.slot (c.regs .rsi) j ≠ c.regs .rdi ∧ OffBlock base i 7 (Stack.slot (c.regs .rsi) j)) :
    Switched c (exec switchContext (c.call back)) base i back regs next := by
  have code := exec_pushes (c := c) calleeSaved ([.saveSp, .loadSp] ++ (popAll calleeSaved.reverse ++ [.ret])) c.toState [back]
  have eq : exec switchContext (c.call back) = _ := code
  rw [exec_switch, exec_append, exec_pops] at eq
  have sp := Stack.State.pushes_sp ([back] ++ calleeSaved.map c.regs) here
  have held := Stack.holds_pushes ([back] ++ calleeSaved.map c.regs) here room
  have mem := fun b => Stack.State.pushes_mem (b := b) ([back] ++ calleeSaved.map c.regs) here
  have regs' := Stack.State.pushes_regs c.toState ([back] ++ calleeSaved.map c.regs)
  rw [List.reverse_append, ← List.map_reverse, List.reverse_singleton, sp] at held
  generalize Stack.State.pushes c.toState ([back] ++ calleeSaved.map c.regs) = s at eq sp held mem regs'
  rw [regs', sp] at eq
  -- the saved words of both tasks are beside the cell
  have saved : Stack.Holds (Function.update s.mem (c.regs .rdi) (Stack.slot base i)) (Stack.slot base i)
      (calleeSaved.reverse.map c.regs ++ [back]) := by
    refine held.congr fun j low => Function.update_of_ne ?_ _ _
    rw [Stack.slot_slot]
    exact (cell (i + j) (by omega) (by simpa [calleeSaved] using low)).symm
  have loaded : Stack.Holds (Function.update s.mem (c.regs .rdi) (Stack.slot base i)) (c.regs .rsi)
      (calleeSaved.reverse.map regs ++ [next]) := by
    refine target.congr fun j low => ?_
    obtain ⟨other, off⟩ := apart j (by simpa [calleeSaved] using low)
    rw [Function.update_of_ne other]
    exact mem _ off
  have frame : ∀ b, b ≠ c.regs .rdi → OffBlock base i 7 b →
      Function.update s.mem (c.regs .rdi) (Stack.slot base i) b = c.mem b := by
    intro b other off
    rw [Function.update_of_ne other]
    exact mem b off
  have stored : Function.update s.mem (c.regs .rdi) (Stack.slot base i) (c.regs .rdi) = Stack.slot base i :=
    Function.update_self _ _ _
  generalize Function.update s.mem (c.regs .rdi) (Stack.slot base i) = m at eq saved loaded frame stored
  rw [Stack.holds_append] at loaded
  have popped := Stack.State.pops_mem ⟨c.regs, c.regs .rsi, m⟩ calleeSaved.reverse
  have top := Stack.State.pops_sp ⟨c.regs, c.regs .rsi, m⟩ calleeSaved.reverse
  have read : ∀ r ∈ calleeSaved, (Stack.State.pops ⟨c.regs, c.regs .rsi, m⟩ calleeSaved.reverse).regs r = regs r :=
    fun r mem => pops_read loaded.1 (by decide) (List.mem_reverse.mpr mem)
  have next' := loaded.2.1
  change exec switchContext (c.call back) =
    exec [.ret] (c.stack (Stack.State.pops ⟨c.regs, c.regs .rsi, m⟩ calleeSaved.reverse)) at eq
  generalize Stack.State.pops ⟨c.regs, c.regs .rsi, m⟩ calleeSaved.reverse = t at eq popped top read
  rw [eq]
  dsimp only at popped top
  refine ⟨?_, ?_, ?_, ?_, ?_, read, rfl⟩
  · exact popped ▸ saved
  · exact popped ▸ stored
  · exact popped ▸ frame
  · show Stack.slot t.sp 1 = _
    rw [top, Stack.slot_slot]
    rfl
  · show t.mem t.sp = next
    rw [popped, top]
    exact next'

theorem exec_flags (w : Word) (code : List Instr) (t : Stack.State Reg) :
    exec (.pushFlags :: .pop .rax :: .orRax w :: code) (c.stack t) = exec code (c.stack
      ⟨Function.update t.regs .rax (c.rflags ||| w), t.sp, Function.update t.mem (t.sp - 8#64) c.rflags⟩) := by
  rw [exec_cons, exec_cons, exec_cons]
  refine congrArg (exec code) ?_
  simp only [Instr.exec, Core.stack, Stack.State.push, Stack.State.popTo, Function.update_self, Function.update_idem,
    BitVec.sub_add_cancel]

/-- `enter_userspace` is left for ring 3 at `rdi`, on the stack at `rsi`, with interrupts on. -/
theorem enterUserspace_user (here : c.sp = Stack.slot base (i + 5)) (room : 8 * (i + 5) ≤ 2 ^ 64) :
    (exec enterUserspace c).user =
        ⟨Function.update c.regs .rax (c.rflags ||| 0x200#64), c.regs .rdi, c.rflags ||| 0x200#64, c.regs .rsi⟩ ∧
      (exec enterUserspace c).cs = gdtUserCode ∧ (exec enterUserspace c).ss = gdtUserData ∧
      ∀ b, OffBlock base i 5 b → (exec enterUserspace c).mem b = c.mem b := by
  obtain ⟨s, is⟩ : ∃ s : Stack.State Reg,
    s = ⟨Function.update c.regs .rax ((c.regs .rax &&& ~~~0xffff#64) ||| 0x23#64), c.sp, c.mem⟩ := ⟨_, rfl⟩
  obtain ⟨rsi, rdi⟩ : s.regs .rsi = c.regs .rsi ∧ s.regs .rdi = c.regs .rdi := by
    rw [is]
    exact ⟨rfl, rfl⟩
  have start : Instr.exec c (.movAx 0x23#64) = c.stack (s.pushes []) := by
    rw [is]
    rfl
  have code : exec enterUserspace c = _ := exec_cons (.movAx 0x23#64) [.pushImm gdtUserData, .push .rsi, .pushFlags, .pop .rax,
    .orRax 0x200#64, .push .rax, .pushImm gdtUserCode, .push .rdi, .iretq] c
  rw [start, exec_pushImm, exec_push, exec_flags, rsi, List.nil_append, List.singleton_append] at code
  -- two words, then RFLAGS through the next place
  have top : s.sp = Stack.slot base (i + 3 + [gdtUserData, c.regs .rsi].length) := by
    rw [is]
    exact here
  have sp := Stack.State.pushes_sp [gdtUserData, c.regs .rsi] top
  have two := Stack.holds_pushes [gdtUserData, c.regs .rsi] top (by simpa using room)
  have off₁ := fun b => Stack.State.pushes_mem (b := b) [gdtUserData, c.regs .rsi] top
  have regs := Stack.State.pushes_regs s [gdtUserData, c.regs .rsi]
  have mem : s.mem = c.mem := by rw [is]
  have base_regs : s.regs = Function.update c.regs .rax ((c.regs .rax &&& ~~~0xffff#64) ||| 0x23#64) := by rw [is]
  generalize s.pushes [gdtUserData, c.regs .rsi] = t at code sp two off₁ regs
  have below : t.sp - 8#64 = Stack.slot base (i + 2) := (congrArg (· - 8#64) sp).trans (Stack.slot_pred base (i + 2))
  rw [below, regs, base_regs, Function.update_idem] at code
  obtain ⟨u, eq⟩ : ∃ u : Stack.State Reg, u = ⟨Function.update c.regs .rax (c.rflags ||| 0x200#64), t.sp,
    Function.update t.mem (Stack.slot base (i + 2)) c.rflags⟩ := ⟨_, rfl⟩
  have stored : ∀ b, b ≠ Stack.slot base (i + 2) → u.mem b = t.mem b := by
    intro b other
    rw [eq]
    exact Function.update_of_ne other _ _
  obtain ⟨rax, rdi', usp⟩ : u.regs .rax = c.rflags ||| 0x200#64 ∧ u.regs .rdi = c.regs .rdi ∧ u.sp = Stack.slot base (i + 3) := by
    rw [eq]
    exact ⟨rfl, rfl, sp⟩
  have kept : Stack.Holds u.mem u.sp [c.regs .rsi, gdtUserData] := by
    rw [usp, ← sp]
    refine two.congr fun j low => stored _ ?_
    rw [sp, Stack.slot_slot]
    have low : j < 2 := low
    intro same
    have := Stack.slot_injective (by omega) (by omega) same
    omega
  rw [← eq] at code
  have last := code.trans (exec_push .rax [.pushImm gdtUserCode, .push .rdi, .iretq] u [])
  rw [exec_pushImm, exec_push, rax, rdi', List.nil_append, List.singleton_append] at last
  have three : u.sp = Stack.slot base (i + [c.rflags ||| 0x200#64, gdtUserCode, c.regs .rdi].length) := usp
  have held := kept.pushes three (by simpa using room)
  have off₂ := fun b => Stack.State.pushes_mem (b := b) [c.rflags ||| 0x200#64, gdtUserCode, c.regs .rdi] three
  have pushed := Stack.State.pushes_regs u [c.rflags ||| 0x200#64, gdtUserCode, c.regs .rdi]
  change exec enterUserspace c =
    exec [.iretq] (c.stack (u.pushes [c.rflags ||| 0x200#64, gdtUserCode, c.regs .rdi])) at last
  generalize u.pushes [c.rflags ||| 0x200#64, gdtUserCode, c.regs .rdi] = v at last held off₂ pushed
  have word : ∀ j (low : j < 5), v.mem (Stack.slot v.sp j) =
      [c.regs .rdi, gdtUserCode, c.rflags ||| 0x200#64, c.regs .rsi, gdtUserData][j] := fun j low => held.at low
  have rip : v.mem v.sp = c.regs .rdi := by
    have := word 0 (by decide)
    rwa [Stack.slot_zero] at this
  rw [last]
  refine ⟨User.ext ?_ rip (word 2 (by decide)) (word 3 (by decide)), word 1 (by decide), word 4 (by decide), fun b off => ?_⟩
  · refine pushed.trans ?_
    rw [eq]
  · refine (off₂ b fun j low high => off j low (by simp only [List.length_cons, List.length_nil] at high; omega)).trans ?_
    refine (stored b (off _ (by omega) (by omega))).trans ?_
    refine (off₁ b fun j low high => off j (by omega) (by simp only [List.length_cons, List.length_nil] at high; omega)).trans ?_
    rw [mem]

end Code

end Isunux
