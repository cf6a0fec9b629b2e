import Isunux.Lib.Run
import Isunux.Traps

/-! All kernel stacks of a running system: traps from ring 3, switches between tasks,
forks and new tasks in any order, against one register file per task. -/
namespace Isunux

/-- `TASK_STACK_PAGES`, `USER_KSTACK_PAGES` and `FORK_KSTACK_PAGES` are 4. -/
def kstackWords : Nat := 2048

/-- The place of the trap frame, and below it that of the handler's return address. -/
def framePlace : Nat := kstackWords - 22

abbrev TaskId := Fin maxTasks

/-- How a task came into the kernel. -/
inductive Way where
  | trap (vector : Nat)
  | syscall

/-- The addresses the linker has chosen: `tasks[t].rsp`, and in the code what stands
behind the calls of the three handlers, `user_task_entry_trampoline` and the handlers. -/
structure Board extends Cells where
  rspCell : TaskId → Word
  excBack : Word
  irqBack : Word
  syscallBack : Word
  userTrampoline : Word
  handler : Way → Word
  rsp_injective : Function.Injective rspCell
  rsp_apart : ∀ t, rspCell t ≠ scratch ∧ rspCell t ≠ rsp0
  cells_apart : scratch ≠ rsp0
  stubs_nodup : [excBack, irqBack, syscallBack, userTrampoline].Nodup
  handler_code : ∀ w, handler w ∉ [excBack, irqBack, syscallBack, userTrampoline]

/-- The places of the assembly code that a `ret` may lead to. -/
def Board.stubs (b : Board) : List Word := [b.excBack, b.irqBack, b.syscallBack, b.userTrampoline]

def Board.back (b : Board) : Way → Word
  | .trap vector => if vector < 32 then b.excBack else b.irqBack
  | .syscall => b.syscallBack

/-- The processor and the tasks' stacks: which tasks have one, its lowest word,
`kernel_stack_top`, `user_entry_rip` and `user_entry_rsp`. `floor` is the place from which on
the C code that runs on a stack has nothing of its own. -/
structure Stacks where
  core : Core
  current : TaskId
  alive : TaskId → Bool
  stack : TaskId → Word
  top : TaskId → Word
  entry : TaskId → Word × Word
  floor : TaskId → Nat

/-- A call of `switch_context` in the eyes of its caller. -/
structure SwitchCall where
  regs : Reg → Word
  sp : Word
  back : Word

inductive TrapEvent where
  /-- Ring 3 runs for a while. -/
  | user (u : User) (mem : Word → Word)
  | interrupt (vector : Nat) (err : Word)
  | syscall
  /-- C code of the kernel runs for a while. -/
  | code (c : Core)
  /-- A handler writes the frame of its trap. -/
  | frame (f : TrapFrame)
  /-- A handler returns. -/
  | leave
  /-- The stub behind it. -/
  | tail
  /-- `yield` from its choice of the next task on. -/
  | switch (next : TaskId) (call : SwitchCall)
  /-- `user_task_entry_trampoline`, which calls `enter_userspace` with whatever it has in
  the other registers. -/
  | launch (regs : Reg → Word) (rflags : Word) (place : Nat)
  | create (t : TaskId) (stack : Word) (rip rsp : Word)
  | createKernel (t : TaskId) (stack : Word) (trampoline : Word)
  | fork (t : TaskId) (stack : Word)
  /-- The stack of a task that has ended is given back. -/
  | drop (t : TaskId)

/-- What can be seen of a step: the registers in ring 3, and what a call of
`switch_context` returns with. -/
inductive Seen where
  | kernel
  | ring3 (u : User)
  | resumed (saved : List Word) (sp rip : Word)

def Core.seen (c : Core) : Seen := if c.cs = gdtUserCode then .ring3 c.user else .kernel

def TrapFrame.load (mem : Word → Word) (a : Word) : TrapFrame where
  r15 := mem a
  r14 := mem (Stack.slot a 1)
  r13 := mem (Stack.slot a 2)
  r12 := mem (Stack.slot a 3)
  r11 := mem (Stack.slot a 4)
  r10 := mem (Stack.slot a 5)
  r9 := mem (Stack.slot a 6)
  r8 := mem (Stack.slot a 7)
  rbp := mem (Stack.slot a 8)
  rdi := mem (Stack.slot a 9)
  rsi := mem (Stack.slot a 10)
  rdx := mem (Stack.slot a 11)
  rcx := mem (Stack.slot a 12)
  rbx := mem (Stack.slot a 13)
  rax := mem (Stack.slot a 14)
  intNo := mem (Stack.slot a 15)
  errCode := mem (Stack.slot a 16)
  rip := mem (Stack.slot a 17)
  cs := mem (Stack.slot a 18)
  rflags := mem (Stack.slot a 19)
  rsp := mem (Stack.slot a 20)
  ss := mem (Stack.slot a 21)

/-- The stub has called its handler. -/
def Stacks.entered (s : Stacks) (b : Board) (w : Way) (c : Core) : Stacks :=
  { s with
    core := { c.call (b.back w) with rip := b.handler w }
    floor := Function.update s.floor s.current (framePlace - 1) }

/-- What `yield` does before it calls `switch_context`. -/
def Stacks.switching (s : Stacks) (b : Board) (next : TaskId) : Core :=
  { s.core with
    regs := Function.update (Function.update s.core.regs .rdi (b.rspCell s.current)) .rsi (s.core.mem (b.rspCell next))
    mem := Function.update s.core.mem b.rsp0 (s.top next) }

/-- `*(--sp) = …` from the top of a new stack on, and where that leads. -/
def Stacks.build (s : Stacks) (b : Board) (t : TaskId) (stack : Word) (words : List Word) : Stacks :=
  let built := Stack.State.pushes ⟨s.core.regs, Stack.slot stack kstackWords, s.core.mem⟩ words.reverse
  { s with
    core := { s.core with mem := Function.update built.mem (b.rspCell t) built.sp }
    alive := Function.update s.alive t true
    stack := Function.update s.stack t stack
    top := Function.update s.top t (Stack.slot stack kstackWords)
    floor := Function.update s.floor t kstackWords }

/-- The stack of a new task: six registers, the trampoline and a word of padding. -/
def freshStack (trampoline : Word) : List Word := [0#64, 0#64, 0#64, 0#64, 0#64, 0#64, trampoline, 0#64]

def Stacks.launched (s : Stacks) (b : Board) (regs : Reg → Word) (rflags : Word) (place : Nat) : Core :=
  { s.core with
    regs := Function.update (Function.update regs .rdi (s.entry s.current).1) .rsi (s.entry s.current).2
    sp := Stack.slot (s.stack s.current) (place + 6)
    rflags := rflags }.call b.userTrampoline

local instance lawfulWords : LawfulBEq Word := inferInstance

def trapStep (b : Board) (s : Stacks) : TrapEvent → Stacks × Seen
  | .user u mem =>
    let c : Core := ⟨⟨u.regs, u.rsp, mem⟩, u.rip, u.rflags, s.core.cs, s.core.ss⟩
    ({ s with core := c }, c.seen)
  | .interrupt vector err =>
    (s.entered b (.trap vector) (exec (isrStub vector) (s.core.deliver b.toCells vector err)), .kernel)
  | .syscall => (s.entered b .syscall (exec (syscallEntry b.toCells) s.core.syscall), .kernel)
  | .code c => ({ s with core := c }, .kernel)
  | .frame f =>
    let written := Stack.State.pushes ⟨s.core.regs, Stack.slot (s.stack s.current) kstackWords, s.core.mem⟩ f.words.reverse
    ({ s with core := { s.core with mem := written.mem } }, .kernel)
  | .leave => ({ s with core := exec [.ret] s.core }, .kernel)
  | .tail =>
    let c := exec (if s.core.rip = b.syscallBack then syscallReturnPoint else isrReturn) s.core
    ({ s with core := c }, c.seen)
  | .switch next call =>
    let c := exec switchContext ((s.switching b next).call call.back)
    ({ s with core := c, current := next },
      if c.rip ∈ b.stubs then .kernel else .resumed (calleeSaved.map c.regs) c.sp c.rip)
  | .launch regs rflags place =>
    let c := exec enterUserspace (s.launched b regs rflags place)
    ({ s with core := c }, c.seen)
  | .create t stack rip rsp =>
    ({ s.build b t stack (freshStack b.userTrampoline) with entry := Function.update s.entry t (rip, rsp) }, .kernel)
  | .createKernel t stack trampoline => (s.build b t stack (freshStack trampoline), .kernel)
  | .fork t stack =>
    let f := TrapFrame.load s.core.mem (Stack.slot (s.stack s.current) framePlace)
    (s.build b t stack (childStack b.syscallBack f), .kernel)
  | .drop t => ({ s with alive := Function.update s.alive t false }, .kernel)

/-! What everybody keeps to -/

/-- Nothing is written that belongs to a task that does not run. -/
structure Keeps (b : Board) (s : Stacks) (mem : Word → Word) : Prop where
  rsp0 : mem b.rsp0 = s.core.mem b.rsp0
  cells : ∀ t, mem (b.rspCell t) = s.core.mem (b.rspCell t)
  others : ∀ t, s.alive t = true → t ≠ s.current → ∀ j, j < kstackWords →
    mem (Stack.slot (s.stack t) j) = s.core.mem (Stack.slot (s.stack t) j)

def Stacks.InCode (s : Stacks) (b : Board) : Prop := s.core.cs = gdtKernelCode ∧ s.core.rip ∉ b.stubs

instance inCodeDecidable (s : Stacks) (b : Board) : Decidable (s.InCode b) :=
  inferInstanceAs (Decidable (s.core.cs = gdtKernelCode ∧ s.core.rip ∉ b.stubs))

def Board.Cell (b : Board) (a : Word) : Prop := a = b.scratch ∨ a = b.rsp0 ∨ ∃ t, a = b.rspCell t

/-- The pages of a new stack are nobody's yet. -/
structure FreeStack (b : Board) (s : Stacks) (stack : Word) : Prop where
  others : ∀ t, s.alive t = true → ∀ i, i < kstackWords → ∀ j, j < kstackWords →
    Stack.slot (s.stack t) i ≠ Stack.slot stack j
  cells : ∀ j, j < kstackWords → ¬b.Cell (Stack.slot stack j)

/-- What each step may rely on. Ring 3 cannot write kernel memory, compiled code leaves the
stack above its own frames and the other stacks alone, new stacks come from the page
allocator, and the kernel puts no other selectors into a frame. -/
def Allowed (b : Board) (s : Stacks) : TrapEvent → Prop
  | .user _ mem => s.core.cs = gdtUserCode ∧ Keeps b s mem
  | .interrupt _ _ => s.core.cs = gdtUserCode
  | .syscall => s.core.cs = gdtUserCode
  | .code c =>
    s.InCode b ∧ c.cs = gdtKernelCode ∧ c.rip ∉ b.stubs ∧ Keeps b s c.mem ∧
      ∀ j, s.floor s.current ≤ j → j < kstackWords →
        c.mem (Stack.slot (s.stack s.current) j) = s.core.mem (Stack.slot (s.stack s.current) j)
  | .frame f => s.InCode b ∧ s.floor s.current = framePlace - 1 ∧ f.cs = gdtUserCode ∧ f.ss = gdtUserData
  | .leave =>
    s.InCode b ∧ s.floor s.current = framePlace - 1 ∧ s.core.sp = Stack.slot (s.stack s.current) (framePlace - 1)
  | .tail => s.core.cs = gdtKernelCode ∧ s.core.rip ∈ [b.excBack, b.irqBack, b.syscallBack]
  | .switch next call =>
    s.InCode b ∧ s.alive next = true ∧ next ≠ s.current ∧ (∀ r ∈ calleeSaved, call.regs r = s.core.regs r) ∧
      call.sp = s.core.sp ∧ call.back ∉ b.stubs ∧
      ∃ i, i + 7 ≤ s.floor s.current ∧ s.core.sp = Stack.slot (s.stack s.current) (i + 7)
  | .launch _ _ place => s.core.cs = gdtKernelCode ∧ s.core.rip = b.userTrampoline ∧ place + 6 ≤ kstackWords
  | .create t stack _ _ => s.InCode b ∧ s.alive t = false ∧ FreeStack b s stack
  | .createKernel t stack trampoline => s.InCode b ∧ s.alive t = false ∧ FreeStack b s stack ∧ trampoline ∉ b.stubs
  | .fork t stack => s.InCode b ∧ s.alive t = false ∧ FreeStack b s stack ∧ s.floor s.current = framePlace - 1
  | .drop t => s.InCode b ∧ t ≠ s.current

/-! One register file per task -/

/-- What stands at the top of a stack on which C code runs. -/
inductive Ground where
  | kernel
  | frame (w : Way) (f : TrapFrame)

inductive Ctx where
  | absent
  | user (u : User)
  | code (g : Ground)
  | leaving (w : Way) (f : TrapFrame)
  | starting (rip rsp : Word)
  | parked (g : Ground) (call : SwitchCall)
  | forked (f : TrapFrame)
  | created (rip rsp : Word)

structure Contexts where
  current : TaskId
  tasks : TaskId → Ctx

def Contexts.here (a : Contexts) : Ctx := a.tasks a.current

def Contexts.put (a : Contexts) (x : Ctx) : Contexts := { a with tasks := Function.update a.tasks a.current x }

/-- The registers in ring 3 behind a frame. -/
def Way.leads : Way → TrapFrame → User
  | .trap _, f => f.user
  | .syscall, f => f.user.afterSysret

def Ctx.resumed : Ctx → Ctx
  | .parked g _ => .code g
  | .forked f => .leaving .syscall f
  | .created rip rsp => .starting rip rsp
  | x => x

def Ctx.seen : Ctx → Seen
  | .parked _ call => .resumed (calleeSaved.map call.regs) call.sp call.back
  | _ => .kernel

/-- The frame of a system call: `syscall` has used up `rcx` and `r11`. -/
def User.called (u : User) : User := { u with regs := Function.update (Function.update u.regs .rcx u.rip) .r11 u.rflags }

def User.trapped (u : User) (vector : Nat) (err : Word) : TrapFrame :=
  u.frame (BitVec.ofNat 64 vector) (if cpuPushesError vector then err else 0#64) gdtUserCode gdtUserData

/-- The registers a new program starts with. -/
def startRegs (regs : Reg → Word) (rflags rip rsp : Word) : User where
  regs := Function.update (Function.update (Function.update regs .rdi rip) .rsi rsp) .rax (rflags ||| 0x200#64)
  rip := rip
  rflags := rflags ||| 0x200#64
  rsp := rsp

def ctxStep (a : Contexts) : TrapEvent → Contexts × Seen
  | .user u _ => (a.put (.user u), .ring3 u)
  | .interrupt vector err =>
    match a.here with
    | .user u => (a.put (.code (.frame (.trap vector) (u.trapped vector err))), .kernel)
    | _ => (a, .kernel)
  | .syscall =>
    match a.here with
    | .user u => (a.put (.code (.frame .syscall (u.called.frame 128#64 0#64 gdtUserCode gdtUserData))), .kernel)
    | _ => (a, .kernel)
  | .code _ => (a, .kernel)
  | .frame f =>
    match a.here with
    | .code (.frame w _) => (a.put (.code (.frame w f)), .kernel)
    | _ => (a, .kernel)
  | .leave =>
    match a.here with
    | .code (.frame w f) => (a.put (.leaving w f), .kernel)
    | _ => (a, .kernel)
  | .tail =>
    match a.here with
    | .leaving w f => (a.put (.user (w.leads f)), .ring3 (w.leads f))
    | _ => (a, .kernel)
  | .switch next call =>
    match a.here with
    | .code g =>
      ({ current := next
         tasks := Function.update (Function.update a.tasks a.current (.parked g call)) next (a.tasks next).resumed },
        (a.tasks next).seen)
    | _ => (a, .kernel)
  | .launch regs rflags _ =>
    match a.here with
    | .starting rip rsp => (a.put (.user (startRegs regs rflags rip rsp)), .ring3 (startRegs regs rflags rip rsp))
    | _ => (a, .kernel)
  | .create t _ rip rsp => ({ a with tasks := Function.update a.tasks t (.created rip rsp) }, .kernel)
  | .createKernel t stack trampoline =>
    ({ a with
       tasks := Function.update a.tasks t
        (.parked .kernel ⟨fun _ => 0#64, Stack.slot stack (kstackWords - 1), trampoline⟩) }, .kernel)
  | .fork t _ =>
    match a.here with
    | .code (.frame _ f) => ({ a with tasks := Function.update a.tasks t (.forked { f with rax := 0#64 }) }, .kernel)
    | _ => (a, .kernel)
  | .drop t => ({ a with tasks := Function.update a.tasks t .absent }, .kernel)

/-! The relation between the two -/

structure Selectors (f : TrapFrame) : Prop where
  cs : f.cs = gdtUserCode
  ss : f.ss = gdtUserData

structure FrameOn (s : Stacks) (t : TaskId) (f : TrapFrame) : Prop where
  words : Stack.Holds s.core.mem (Stack.slot (s.stack t) framePlace) f.words
  selectors : Selectors f
  top : s.top t = Stack.slot (s.stack t) kstackWords

def Ground.Stands (b : Board) (s : Stacks) (t : TaskId) : Ground → Prop
  | .kernel => s.floor t = kstackWords
  | .frame w f =>
    s.floor t = framePlace - 1 ∧ s.core.mem (Stack.slot (s.stack t) (framePlace - 1)) = b.back w ∧ FrameOn s t f

/-- `tasks[t].rsp` points at six saved registers and a return address. -/
structure Saved (b : Board) (s : Stacks) (t : TaskId) (i : Nat) (regs : Reg → Word) (next : Word) : Prop where
  cell : s.core.mem (b.rspCell t) = Stack.slot (s.stack t) i
  room : i + 7 ≤ kstackWords
  words : Stack.Holds s.core.mem (Stack.slot (s.stack t) i) (calleeSaved.reverse.map regs ++ [next])

/-- The task that has the processor. -/
def Runs (b : Board) (s : Stacks) : Ctx → Prop
  | .user u =>
    s.core.cs = gdtUserCode ∧ s.core.ss = gdtUserData ∧ s.core.user = u ∧
      s.top s.current = Stack.slot (s.stack s.current) kstackWords
  | .code g => s.InCode b ∧ g.Stands b s s.current
  | .leaving w f =>
    s.core.cs = gdtKernelCode ∧ s.core.rip = b.back w ∧ s.core.sp = Stack.slot (s.stack s.current) framePlace ∧
      FrameOn s s.current f
  | .starting rip rsp =>
    s.core.cs = gdtKernelCode ∧ s.core.rip = b.userTrampoline ∧ s.entry s.current = (rip, rsp) ∧
      s.top s.current = Stack.slot (s.stack s.current) kstackWords
  | _ => False

def Waiting (b : Board) (s : Stacks) (t : TaskId) : Ctx → Prop
  | .parked g call =>
    g.Stands b s t ∧ call.back ∉ b.stubs ∧
      ∃ i, i + 7 ≤ s.floor t ∧ call.sp = Stack.slot (s.stack t) (i + 7) ∧ Saved b s t i call.regs call.back
  | .forked f => FrameOn s t f ∧ Saved b s t (framePlace - 7) (fun _ => 0#64) b.syscallBack
  | .created rip rsp =>
    s.entry t = (rip, rsp) ∧ s.top t = Stack.slot (s.stack t) kstackWords ∧
      Saved b s t (kstackWords - 8) (fun _ => 0#64) b.userTrampoline
  | _ => False

structure Sim (b : Board) (s : Stacks) (a : Contexts) : Prop where
  current : a.current = s.current
  here : s.alive s.current = true
  rsp0 : s.core.mem b.rsp0 = s.top s.current
  apart : ∀ t u, s.alive t = true → s.alive u = true → t ≠ u → ∀ i, i < kstackWords → ∀ j, j < kstackWords →
    Stack.slot (s.stack t) i ≠ Stack.slot (s.stack u) j
  off : ∀ t, s.alive t = true → ∀ j, j < kstackWords → ¬b.Cell (Stack.slot (s.stack t) j)
  running : Runs b s (a.tasks s.current)
  waiting : ∀ t, s.alive t = true → t ≠ s.current → Waiting b s t (a.tasks t)

section Relation

variable {b : Board} {s s' : Stacks} {a : Contexts} {t : TaskId} {x : Ctx}

theorem Board.back_stub (b : Board) (w : Way) : b.back w ∈ [b.excBack, b.irqBack, b.syscallBack] := by
  cases w with
  | trap vector => by_cases low : vector < 32 <;> simp [Board.back, low]
  | syscall => simp [Board.back]

theorem Board.stubs_back {b : Board} {a : Word} (h : a ∈ [b.excBack, b.irqBack, b.syscallBack]) : a ∈ b.stubs := by
  rw [Board.stubs, show [b.excBack, b.irqBack, b.syscallBack, b.userTrampoline] =
    [b.excBack, b.irqBack, b.syscallBack] ++ [b.userTrampoline] from rfl]
  exact List.mem_append_left _ h

theorem Board.trampoline_stub (b : Board) : b.userTrampoline ∈ b.stubs := by simp [Board.stubs]

theorem Board.trampoline_back (b : Board) : b.userTrampoline ∉ [b.excBack, b.irqBack, b.syscallBack] := by
  have nodup := b.stubs_nodup
  simp only [List.nodup_cons, List.mem_cons, List.not_mem_nil, or_false, not_or] at nodup ⊢
  exact ⟨Ne.symm nodup.1.2.2, Ne.symm nodup.2.1.2, Ne.symm nodup.2.2.1⟩

theorem Board.back_trap (b : Board) (vector : Nat) : b.back (.trap vector) ≠ b.syscallBack := by
  have nodup := b.stubs_nodup
  simp only [List.nodup_cons, List.mem_cons, List.not_mem_nil, or_false, not_or] at nodup
  unfold Board.back
  dsimp only
  split
  · exact nodup.1.2.1
  · exact nodup.2.1.1

/-- Nothing of a task that waits is anywhere but on its stack and in its cell. -/
structure SameTask (b : Board) (s s' : Stacks) (t : TaskId) : Prop where
  stack : s'.stack t = s.stack t
  top : s'.top t = s.top t
  entry : s'.entry t = s.entry t
  floor : s'.floor t = s.floor t
  cell : s'.core.mem (b.rspCell t) = s.core.mem (b.rspCell t)
  words : ∀ j, j < kstackWords →
    s'.core.mem (Stack.slot (s.stack t) j) = s.core.mem (Stack.slot (s.stack t) j)

theorem SameTask.frame {f : TrapFrame} (same : SameTask b s s' t) (h : FrameOn s t f) : FrameOn s' t f := by
  refine ⟨?_, h.selectors, by rw [same.top, same.stack, h.top]⟩
  rw [same.stack]
  refine h.words.congr fun i low => ?_
  rw [Stack.slot_slot]
  refine same.words _ ?_
  rw [TrapFrame.words_length] at low
  simp only [framePlace, kstackWords]
  omega

theorem SameTask.stands {g : Ground} (same : SameTask b s s' t) (h : g.Stands b s t) : g.Stands b s' t := by
  cases g with
  | kernel => exact same.floor.trans h
  | frame w f =>
    obtain ⟨floor, back, frame⟩ := h
    refine ⟨same.floor.trans floor, ?_, same.frame frame⟩
    rw [same.stack, same.words _ (by decide), back]

theorem SameTask.saved {i : Nat} {regs : Reg → Word} {next : Word} (same : SameTask b s s' t) (h : Saved b s t i regs next) :
    Saved b s' t i regs next := by
  refine ⟨by rw [same.cell, same.stack, h.cell], h.room, ?_⟩
  rw [same.stack]
  refine h.words.congr fun j low => ?_
  rw [Stack.slot_slot]
  refine same.words _ ?_
  have := h.room
  simp only [calleeSaved, List.length_append, List.length_map, List.length_reverse, List.length_cons, List.length_nil] at low
  omega

theorem SameTask.waiting (same : SameTask b s s' t) (h : Waiting b s t x) : Waiting b s' t x := by
  cases x with
  | parked g call =>
    obtain ⟨stands, back, i, room, sp, saved⟩ := h
    exact ⟨same.stands stands, back, i, same.floor.symm ▸ room, same.stack.symm ▸ sp, same.saved saved⟩
  | forked f => exact ⟨same.frame h.1, same.saved h.2⟩
  | created rip rsp => exact ⟨same.entry.trans h.1, by rw [same.top, same.stack, h.2.1], same.saved h.2.2⟩
  | absent => exact h
  | user u => exact h
  | code g => exact h
  | leaving w f => exact h
  | starting rip rsp => exact h

theorem Sim.moves (sim : Sim b s a) {c : Core} {n : Nat} (keeps : Keeps b s c.mem)
    (runs : Runs b { s with core := c, floor := Function.update s.floor s.current n } x) :
    Sim b { s with core := c, floor := Function.update s.floor s.current n } (a.put x) where
  current := sim.current
  here := sim.here
  rsp0 := keeps.rsp0.trans sim.rsp0
  apart := sim.apart
  off := sim.off
  running := by
    simp only [Contexts.put, sim.current, Function.update_self]
    exact runs
  waiting := by
    intro t alive other
    simp only [Contexts.put, sim.current, Function.update_of_ne other]
    have same : SameTask b s { s with core := c, floor := Function.update s.floor s.current n } t :=
      ⟨rfl, rfl, rfl, Function.update_of_ne other _ _, keeps.cells t, keeps.others t alive other⟩
    exact same.waiting (sim.waiting t alive other)

theorem Sim.goes (sim : Sim b s a) {c : Core} (keeps : Keeps b s c.mem) (runs : Runs b { s with core := c } x) :
    Sim b { s with core := c } (a.put x) := by
  have moved := sim.moves (c := c) (n := s.floor s.current) (x := x) keeps
  rw [Function.update_eq_self] at moved
  exact moved runs

theorem Sim.at (sim : Sim b s a) : Runs b s a.here := by
  rw [Contexts.here, sim.current]
  exact sim.running

/-- The task on the processor is in ring 3, in C code, in a stub or in its trampoline. -/
theorem Sim.mode (sim : Sim b s a) :
    (∃ u, a.here = .user u ∧ Runs b s (.user u)) ∨ (∃ g, a.here = .code g ∧ Runs b s (.code g)) ∨
      (∃ w f, a.here = .leaving w f ∧ Runs b s (.leaving w f)) ∨
      ∃ p q, a.here = .starting p q ∧ Runs b s (.starting p q) := by
  have runs := sim.at
  cases here : a.here with
  | user u => exact .inl ⟨u, rfl, here ▸ runs⟩
  | code g => exact .inr (.inl ⟨g, rfl, here ▸ runs⟩)
  | leaving w f => exact .inr (.inr (.inl ⟨w, f, rfl, here ▸ runs⟩))
  | starting p q => exact .inr (.inr (.inr ⟨p, q, rfl, here ▸ runs⟩))
  | absent => rw [here] at runs; exact runs.elim
  | parked g call => rw [here] at runs; exact runs.elim
  | forked f => rw [here] at runs; exact runs.elim
  | created p q => rw [here] at runs; exact runs.elim

theorem ring_kernel : gdtKernelCode ≠ gdtUserCode := by decide

theorem Sim.inUser (sim : Sim b s a) (ring : s.core.cs = gdtUserCode) :
    ∃ u, a.here = .user u ∧ s.core.ss = gdtUserData ∧ s.core.user = u ∧
      s.top s.current = Stack.slot (s.stack s.current) kstackWords := by
  rcases sim.mode with ⟨u, here, runs⟩ | ⟨g, _, runs⟩ | ⟨w, f, _, runs⟩ | ⟨p, q, _, runs⟩
  · exact ⟨u, here, runs.2⟩
  · exact absurd (runs.1.1.symm.trans ring) ring_kernel
  · exact absurd (runs.1.symm.trans ring) ring_kernel
  · exact absurd (runs.1.symm.trans ring) ring_kernel

theorem Sim.inCode (sim : Sim b s a) (code : s.InCode b) : ∃ g, a.here = .code g ∧ g.Stands b s s.current := by
  rcases sim.mode with ⟨u, _, runs⟩ | ⟨g, here, runs⟩ | ⟨w, f, _, runs⟩ | ⟨p, q, _, runs⟩
  · exact absurd (code.1.symm.trans runs.1) ring_kernel
  · exact ⟨g, here, runs.2⟩
  · exact absurd (runs.2.1 ▸ Board.stubs_back (b.back_stub w)) code.2
  · exact absurd (runs.2.1 ▸ b.trampoline_stub) code.2

theorem Sim.atBack (sim : Sim b s a) (ring : s.core.cs = gdtKernelCode)
    (rip : s.core.rip ∈ [b.excBack, b.irqBack, b.syscallBack]) :
    ∃ w f, a.here = .leaving w f ∧ s.core.rip = b.back w ∧
      s.core.sp = Stack.slot (s.stack s.current) framePlace ∧ FrameOn s s.current f := by
  rcases sim.mode with ⟨u, _, runs⟩ | ⟨g, _, runs⟩ | ⟨w, f, here, runs⟩ | ⟨p, q, _, runs⟩
  · exact absurd (ring.symm.trans runs.1) ring_kernel
  · exact absurd (Board.stubs_back rip) runs.1.2
  · exact ⟨w, f, here, runs.2⟩
  · exact absurd (runs.2.1 ▸ rip) b.trampoline_back

theorem Sim.atTrampoline (sim : Sim b s a) (ring : s.core.cs = gdtKernelCode) (rip : s.core.rip = b.userTrampoline) :
    ∃ p q, a.here = .starting p q ∧ s.entry s.current = (p, q) ∧
      s.top s.current = Stack.slot (s.stack s.current) kstackWords := by
  rcases sim.mode with ⟨u, _, runs⟩ | ⟨g, _, runs⟩ | ⟨w, f, _, runs⟩ | ⟨p, q, here, runs⟩
  · exact absurd (ring.symm.trans runs.1) ring_kernel
  · exact absurd (rip ▸ b.trampoline_stub) runs.1.2
  · exact absurd (rip ▸ runs.2.1 ▸ b.back_stub w) b.trampoline_back
  · exact ⟨p, q, here, runs.2.2⟩

end Relation

end Isunux
