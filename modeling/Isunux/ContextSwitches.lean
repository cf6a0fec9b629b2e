import Isunux.UserContexts

/-! Whatever the order of traps, switches, forks and returns, every task finds its own
registers. -/
namespace Isunux

section Steps

variable {b : Board} {s s' : Stacks} {a : Contexts}

theorem Contexts.put_here (a : Contexts) : a.put a.here = a := by
  simp only [Contexts.put, Contexts.here, Function.update_eq_self]

theorem Keeps.refl (b : Board) (s : Stacks) : Keeps b s s.core.mem := ⟨rfl, fun _ => rfl, fun _ _ _ _ _ => rfl⟩

theorem Sim.keeps (sim : Sim b s a) {mem : Word → Word} {i n : Nat} (fits : i + n ≤ kstackWords)
    (same : ∀ x, x ≠ b.scratch → OffBlock (s.stack s.current) i n x → mem x = s.core.mem x) : Keeps b s mem := by
  have cell : ∀ x, b.Cell x → OffBlock (s.stack s.current) i n x := by
    intro x known j low high eq
    exact sim.off s.current sim.here j (by omega) (eq ▸ known)
  refine ⟨same _ b.cells_apart.symm (cell _ (.inr (.inl rfl))), fun t => ?_, fun t alive other j low => ?_⟩
  · exact same _ (b.rsp_apart t).1 (cell _ (.inr (.inr ⟨t, rfl⟩)))
  · refine same _ ?_ fun k from_ below => ?_
    · intro eq
      exact sim.off t alive j low (.inl eq)
    · exact sim.apart t s.current alive sim.here other j low k (by omega)

def Refines (b : Board) (s : Stacks) (a : Contexts) (e : TrapEvent) : Prop :=
  Sim b (trapStep b s e).1 (ctxStep a e).1 ∧ (trapStep b s e).2 = (ctxStep a e).2

theorem Sim.user (sim : Sim b s a) {u : User} {mem : Word → Word} (ok : Allowed b s (.user u mem)) :
    Refines b s a (.user u mem) := by
  obtain ⟨ring, keeps⟩ := ok
  obtain ⟨_, _, ss, _, top⟩ := sim.inUser ring
  have moved := sim.goes (c := ⟨⟨u.regs, u.rsp, mem⟩, u.rip, u.rflags, s.core.cs, s.core.ss⟩) (x := .user u) keeps
    ⟨ring, ss, rfl, top⟩
  exact ⟨moved, if_pos ring⟩

theorem Sim.entered (sim : Sim b s a) {c d : Core} {w : Way} {f : TrapFrame}
    (framed : Framed d c (s.stack s.current) framePlace f) (same : ∀ x, x ≠ b.scratch → d.mem x = s.core.mem x)
    (selectors : Selectors f) (top : s.top s.current = Stack.slot (s.stack s.current) kstackWords) :
    Sim b (s.entered b w c) (a.put (.code (.frame w f))) := by
  have below : c.sp - 8#64 = Stack.slot (s.stack s.current) (framePlace - 1) := by
    rw [framed.sp]
    exact Stack.slot_pred _ (framePlace - 1)
  have mem : (c.call (b.back w)).mem = Function.update c.mem (Stack.slot (s.stack s.current) (framePlace - 1)) (b.back w) :=
    congrArg (fun x => Function.update c.mem x (b.back w)) below
  have kept : ∀ x, x ≠ b.scratch → OffBlock (s.stack s.current) (framePlace - 1) 23 x →
      (c.call (b.back w)).mem x = s.core.mem x := by
    intro x other off
    rw [mem, Function.update_of_ne (off _ (Nat.le_refl _) (by decide))]
    exact (framed.mem x fun j low high => off j (by omega) (by simp only [framePlace, kstackWords] at *; omega)).trans
      (same x other)
  refine sim.moves (sim.keeps (by decide) kept) ⟨⟨framed.cs, b.handler_code w⟩, Function.update_self _ _ _, ?_, ?_⟩
  · show (c.call (b.back w)).mem _ = b.back w
    rw [mem, Function.update_self]
  · refine ⟨?_, selectors, top⟩
    show Stack.Holds (c.call (b.back w)).mem _ _
    rw [mem]
    refine framed.frame.congr fun i low => Function.update_of_ne ?_ _ _
    rw [Stack.slot_slot]
    intro eq
    rw [TrapFrame.words_length] at low
    have := Stack.slot_injective (by simp only [framePlace, kstackWords]; omega) (by decide) eq
    simp only [framePlace, kstackWords] at this
    omega

theorem Sim.interrupt (sim : Sim b s a) {vector : Nat} {err : Word} (ok : Allowed b s (.interrupt vector err)) :
    Refines b s a (.interrupt vector err) := by
  obtain ⟨u, here, ss, user, top⟩ := sim.inUser ok
  have framed : Framed s.core _ (s.stack s.current) framePlace _ :=
    isrStub_framed (x := b.toCells) vector err (sim.rsp0.trans top) (by decide)
  rw [user, show s.core.cs = gdtUserCode from ok, ss] at framed
  have entered := sim.entered (w := .trap vector) framed (fun _ _ => rfl) ⟨rfl, rfl⟩ top
  simp only [Refines, trapStep, ctxStep, here]
  exact ⟨entered, trivial⟩

theorem Sim.syscall (sim : Sim b s a) (ok : Allowed b s .syscall) : Refines b s a .syscall := by
  obtain ⟨u, here, _, user, top⟩ := sim.inUser ok
  have off : OffBlock (s.stack s.current) framePlace 22 b.scratch := by
    intro j _ high eq
    exact sim.off s.current sim.here j high (.inl eq.symm)
  have framed := syscallEntry_framed (c := s.core) (x := b.toCells) (i := framePlace) (sim.rsp0.trans top) (by decide)
    b.cells_apart off
  have called : ({ s.core.syscall.user with rip := s.core.rip, rflags := s.core.rflags } : User) = u.called := by
    rw [← user]
    rfl
  rw [called] at framed
  have entered := sim.entered (w := .syscall) framed (fun x other => Function.update_of_ne other _ _) ⟨rfl, rfl⟩ top
  simp only [Refines, trapStep, ctxStep, here]
  exact ⟨entered, trivial⟩

theorem Sim.code (sim : Sim b s a) {c : Core} (ok : Allowed b s (.code c)) : Refines b s a (.code c) := by
  obtain ⟨code, ring, rip, keeps, own⟩ := ok
  obtain ⟨g, here, stands⟩ := sim.inCode code
  have moved : Sim b { s with core := c } (a.put (.code g)) := by
    refine sim.goes keeps ⟨⟨ring, rip⟩, ?_⟩
    cases g with
    | kernel => exact stands
    | frame w f =>
      obtain ⟨floor, back, frame⟩ := stands
      refine ⟨floor, (own _ (Nat.le_of_eq floor) (by decide)).trans back, ?_, frame.selectors, frame.top⟩
      refine frame.words.congr fun i low => ?_
      rw [TrapFrame.words_length] at low
      rw [Stack.slot_slot]
      exact own _ (floor ▸ Nat.le_trans (Nat.sub_le _ _) (Nat.le_add_right _ _))
        (by simp only [framePlace, kstackWords]; omega)
  rw [← here, a.put_here] at moved
  exact ⟨moved, rfl⟩

theorem Sim.inFrame (sim : Sim b s a) (code : s.InCode b) (floor : s.floor s.current = framePlace - 1) :
    ∃ w f, a.here = .code (.frame w f) ∧
      s.core.mem (Stack.slot (s.stack s.current) (framePlace - 1)) = b.back w ∧ FrameOn s s.current f := by
  obtain ⟨g, here, stands⟩ := sim.inCode code
  cases g with
  | kernel =>
    have : s.floor s.current = kstackWords := stands
    rw [floor] at this
    exact absurd this (by decide)
  | frame w f => exact ⟨w, f, here, stands.2⟩

theorem Sim.frame (sim : Sim b s a) {f : TrapFrame} (ok : Allowed b s (.frame f)) : Refines b s a (.frame f) := by
  obtain ⟨code, floor, cs, ss⟩ := ok
  obtain ⟨w, g, here, back, frame⟩ := sim.inFrame code floor
  obtain ⟨_, held, mem⟩ := Stack.State.pushes_reverse (a := s.stack s.current) (i := framePlace)
    (s := ⟨s.core.regs, Stack.slot (s.stack s.current) kstackWords, s.core.mem⟩) f.words rfl
    (by rw [TrapFrame.words_length]; decide)
  rw [TrapFrame.words_length] at mem
  simp only [Refines, trapStep, ctxStep, here]
  generalize Stack.State.pushes ⟨s.core.regs, Stack.slot (s.stack s.current) kstackWords, s.core.mem⟩ f.words.reverse = v
    at held mem ⊢
  have keeps : Keeps b s v.mem := sim.keeps (i := framePlace) (n := 22) (by decide) fun x _ off => mem x off
  refine ⟨sim.goes (c := { s.core with mem := v.mem }) keeps ⟨code, floor, ?_, held, ⟨cs, ss⟩, frame.top⟩, trivial⟩
  refine (mem _ fun j low high eq => ?_).trans back
  have := Stack.slot_injective (by decide) (by simp only [framePlace, kstackWords] at high; omega) eq
  simp only [framePlace, kstackWords] at this low
  omega

theorem Sim.leave (sim : Sim b s a) (ok : Allowed b s .leave) : Refines b s a .leave := by
  obtain ⟨code, floor, sp⟩ := ok
  obtain ⟨w, f, here, back, frame⟩ := sim.inFrame code floor
  simp only [Refines, trapStep, ctxStep, here]
  refine ⟨sim.goes (c := exec [.ret] s.core) (Keeps.refl b s) ⟨code.1, ?_, ?_, frame.words, frame.selectors, frame.top⟩, trivial⟩
  · show s.core.mem s.core.sp = b.back w
    rw [sp, back]
  · show Stack.slot s.core.sp 1 = _
    rw [sp, Stack.slot_slot]
    rfl

theorem Sim.tail (sim : Sim b s a) (ok : Allowed b s .tail) : Refines b s a .tail := by
  obtain ⟨w, f, here, rip, sp, frame⟩ := sim.atBack ok.1 ok.2
  have words := frame.words
  rw [← sp] at words
  have left : ∀ c : Core, c.user = w.leads f → c.cs = gdtUserCode → c.ss = gdtUserData → c.mem = s.core.mem →
      Sim b { s with core := c } (a.put (.user (w.leads f))) ∧ c.seen = .ring3 (w.leads f) := by
    intro c user cs ss mem
    have keeps : Keeps b s c.mem := mem ▸ Keeps.refl b s
    refine ⟨sim.goes keeps ⟨cs, ss, user, frame.top⟩, ?_⟩
    rw [Core.seen, if_pos cs, user]
  simp only [Refines, trapStep, ctxStep, here]
  cases w with
  | trap vector =>
    rw [if_neg (rip ▸ b.back_trap vector)]
    obtain ⟨user, cs, ss, mem⟩ := isrReturn_user words
    exact left _ user (cs.trans frame.selectors.cs) (ss.trans frame.selectors.ss) mem
  | syscall =>
    rw [if_pos (show s.core.rip = b.syscallBack from rip)]
    obtain ⟨user, cs, ss, mem⟩ := syscallReturnPoint_user words
    exact left _ user cs ss mem

theorem Sim.launch (sim : Sim b s a) {regs : Reg → Word} {rflags : Word} {place : Nat}
    (ok : Allowed b s (.launch regs rflags place)) : Refines b s a (.launch regs rflags place) := by
  obtain ⟨ring, rip, room⟩ := ok
  obtain ⟨p, q, here, entry, top⟩ := sim.atTrampoline ring rip
  have sp : (s.launched b regs rflags place).sp = Stack.slot (s.stack s.current) (place + 5) :=
    Stack.slot_pred (s.stack s.current) (place + 5)
  have called : (s.launched b regs rflags place).mem =
      Function.update s.core.mem (Stack.slot (s.stack s.current) (place + 5)) b.userTrampoline :=
    congrArg (fun x => Function.update s.core.mem x b.userTrampoline) sp
  have loaded : (s.launched b regs rflags place).regs = Function.update (Function.update regs .rdi p) .rsi q := by
    simp only [Stacks.launched, Core.call, Core.stack, Stack.State.push, entry]
  have flags : (s.launched b regs rflags place).rflags = rflags := rfl
  obtain ⟨user, cs, ss, mem⟩ := enterUserspace_user sp (by simp only [kstackWords] at room; omega)
  rw [loaded, flags] at user
  simp only [Refines, trapStep, ctxStep, here]
  have keeps : Keeps b s (exec enterUserspace (s.launched b regs rflags place)).mem := by
    refine sim.keeps (i := place) (n := 6) room fun x _ off => ?_
    rw [mem x fun j low high => off j low (by omega), called]
    exact Function.update_of_ne (off _ (by omega) (by omega)) _ _
  generalize exec enterUserspace (s.launched b regs rflags place) = c at user cs ss keeps ⊢
  have start : c.user = startRegs regs rflags p q := user
  refine ⟨sim.goes keeps ⟨cs, ss, start, top⟩, ?_⟩
  rw [Core.seen, if_pos cs, start]

/-! New stacks -/

theorem SameTask.runs {x : Ctx} {mem : Word → Word} (same : SameTask b s s' s.current) (current : s'.current = s.current)
    (core : s'.core = { s.core with mem := mem }) (runs : Runs b s x) : Runs b s' x := by
  have flags : s'.core.cs = s.core.cs ∧ s'.core.ss = s.core.ss ∧ s'.core.user = s.core.user ∧
      s'.core.rip = s.core.rip ∧ s'.core.sp = s.core.sp := by
    rw [core]
    exact ⟨rfl, rfl, rfl, rfl, rfl⟩
  obtain ⟨cs, ss, user, rip, sp⟩ := flags
  cases x with
  | user u =>
    simp only [Runs, current, cs, ss, user, same.top, same.stack] at runs ⊢
    exact runs
  | code g =>
    obtain ⟨code, stands⟩ := runs
    exact ⟨⟨cs.trans code.1, rip ▸ code.2⟩, current ▸ same.stands stands⟩
  | leaving w f =>
    simp only [Runs, current, cs, rip, sp, same.stack] at runs ⊢
    exact ⟨runs.1, runs.2.1, runs.2.2.1, same.frame runs.2.2.2⟩
  | starting p q =>
    simp only [Runs, current, cs, rip, same.top, same.stack, same.entry] at runs ⊢
    exact runs
  | absent => exact runs.elim
  | parked g call => exact runs.elim
  | forked f => exact runs.elim
  | created p q => exact runs.elim

/-- What stands on a stack that has just been built, and what the rest of memory holds. -/
theorem build_words (s : Stacks) (b : Board) {t : TaskId} {stack : Word} {words : List Word} (fits : words.length ≤ kstackWords)
    (free : ∀ j, j < kstackWords → ¬b.Cell (Stack.slot stack j)) :
    (s.build b t stack words).core.mem (b.rspCell t) = Stack.slot stack (kstackWords - words.length) ∧
      Stack.Holds (s.build b t stack words).core.mem (Stack.slot stack (kstackWords - words.length)) words ∧
      ∀ x, x ≠ b.rspCell t → (∀ j, j < kstackWords → x ≠ Stack.slot stack j) →
        (s.build b t stack words).core.mem x = s.core.mem x := by
  have sum : kstackWords - words.length + words.length = kstackWords := Nat.sub_add_cancel fits
  obtain ⟨sp, held, mem⟩ := Stack.State.pushes_reverse (a := stack) (i := kstackWords - words.length)
    (s := ⟨s.core.regs, Stack.slot stack kstackWords, s.core.mem⟩) words (by rw [sum]) (by rw [sum]; decide)
  rw [sum] at mem
  simp only [Stacks.build]
  rw [sp]
  generalize Stack.State.pushes ⟨s.core.regs, Stack.slot stack kstackWords, s.core.mem⟩ words.reverse = v at held mem ⊢
  refine ⟨Function.update_self _ _ _, held.congr fun i low => Function.update_of_ne ?_ _ _, fun x other off => ?_⟩
  · rw [Stack.slot_slot]
    intro eq
    exact free _ (by omega) (.inr (.inr ⟨t, eq⟩))
  · rw [Function.update_of_ne other]
    exact mem x fun j _ high => off j high

theorem Sim.build (sim : Sim b s a) {t : TaskId} {stack : Word} {words : List Word} {x : Ctx} (e : Word × Word)
    (dead : s.alive t = false) (free : FreeStack b s stack) (fits : words.length ≤ kstackWords)
    (waits : Waiting b { s.build b t stack words with entry := Function.update s.entry t e } t x) :
    Sim b { s.build b t stack words with entry := Function.update s.entry t e }
      { a with tasks := Function.update a.tasks t x } := by
  obtain ⟨_, _, mem⟩ := build_words s b (t := t) fits free.cells
  have others : ∀ u, s.alive u = true → u ≠ t := by
    intro u alive eq
    rw [eq, dead] at alive
    cases alive
  have same : ∀ u, s.alive u = true →
      SameTask b s { s.build b t stack words with entry := Function.update s.entry t e } u := by
    intro u alive
    have other := others u alive
    refine ⟨Function.update_of_ne other _ _, Function.update_of_ne other _ _, Function.update_of_ne other _ _,
      Function.update_of_ne other _ _, mem _ (b.rsp_injective.ne other) fun j low eq => ?_, fun j low => mem _ ?_ ?_⟩
    · exact free.cells j low (.inr (.inr ⟨u, eq.symm⟩))
    · exact fun eq => sim.off u alive j low (.inr (.inr ⟨t, eq⟩))
    · exact fun k below => free.others u alive j low k below
  have revived : ∀ u, Function.update s.alive t true u = true → u = t ∨ s.alive u = true := by
    intro u alive
    by_cases eq : u = t
    · exact .inl eq
    · rw [Function.update_of_ne eq] at alive
      exact .inr alive
  have current := others s.current sim.here
  refine ⟨sim.current, (Function.update_of_ne current _ _).trans sim.here, ?_, ?_, ?_, ?_, ?_⟩
  · have rsp0 := mem b.rsp0 (b.rsp_apart t).2.symm fun j low eq => free.cells j low (.inr (.inl eq.symm))
    exact rsp0.trans (sim.rsp0.trans (same _ sim.here).top.symm)
  · intro u v alive alive' ne i low j below
    show Stack.slot (Function.update s.stack t stack u) i ≠ Stack.slot (Function.update s.stack t stack v) j
    rcases revived u alive with eq | old <;> rcases revived v alive' with eq' | old'
    · exact absurd (eq.trans eq'.symm) ne
    · rw [eq, Function.update_self, Function.update_of_ne (others v old')]
      exact (free.others v old' j below i low).symm
    · rw [eq', Function.update_self, Function.update_of_ne (others u old)]
      exact free.others u old i low j below
    · rw [Function.update_of_ne (others u old), Function.update_of_ne (others v old')]
      exact sim.apart u v old old' ne i low j below
  · intro u alive j low
    show ¬b.Cell (Stack.slot (Function.update s.stack t stack u) j)
    rcases revived u alive with eq | old
    · rw [eq, Function.update_self]
      exact free.cells j low
    · rw [Function.update_of_ne (others u old)]
      exact sim.off u old j low
  · show Runs b _ (Function.update a.tasks t x s.current)
    rw [Function.update_of_ne current]
    exact (same _ sim.here).runs rfl rfl sim.running
  · intro u alive other
    show Waiting b _ u (Function.update a.tasks t x u)
    rcases revived u alive with eq | old
    · rw [eq, Function.update_self]
      exact waits
    · rw [Function.update_of_ne (others u old)]
      exact (same u old).waiting (sim.waiting u old other)

theorem freshStack_fits (trampoline : Word) : (freshStack trampoline).length ≤ kstackWords :=
  (by decide : 8 ≤ kstackWords)

theorem freshStack_saved (s : Stacks) (b : Board) (t : TaskId) {stack : Word} (e : Word × Word) (trampoline : Word)
    (free : ∀ j, j < kstackWords → ¬b.Cell (Stack.slot stack j)) :
    Saved b { s.build b t stack (freshStack trampoline) with entry := Function.update s.entry t e } t (kstackWords - 8)
      (fun _ => 0#64) trampoline := by
  obtain ⟨cell, words, _⟩ := build_words s b (t := t) (freshStack_fits trampoline) free
  have split : freshStack trampoline = (calleeSaved.reverse.map (fun _ => 0#64) ++ [trampoline]) ++ [0#64] := rfl
  rw [split, Stack.holds_append, ← split] at words
  refine ⟨?_, by decide, ?_⟩
  · simp only [Stacks.build, Function.update_self] at cell ⊢
    exact cell
  · simp only [Stacks.build, Function.update_self] at words ⊢
    exact words.1

theorem Sim.create (sim : Sim b s a) {t : TaskId} {stack rip rsp : Word} (ok : Allowed b s (.create t stack rip rsp)) :
    Refines b s a (.create t stack rip rsp) := by
  obtain ⟨_, dead, free⟩ := ok
  refine ⟨sim.build (rip, rsp) dead free (freshStack_fits _) ⟨Function.update_self _ _ _, ?_, ?_⟩, rfl⟩
  · simp only [Stacks.build, Function.update_self]
  · exact freshStack_saved s b t (rip, rsp) b.userTrampoline free.cells

theorem Sim.createKernel (sim : Sim b s a) {t : TaskId} {stack trampoline : Word}
    (ok : Allowed b s (.createKernel t stack trampoline)) : Refines b s a (.createKernel t stack trampoline) := by
  obtain ⟨_, dead, free, code⟩ := ok
  have saved := freshStack_saved s b t (s.entry t) trampoline free.cells
  have built := sim.build (s.entry t) dead free (freshStack_fits trampoline)
    (x := .parked .kernel ⟨fun _ => 0#64, Stack.slot stack (kstackWords - 1), trampoline⟩)
  rw [Function.update_eq_self] at saved built
  refine ⟨built ⟨Function.update_self _ _ _, code, kstackWords - 8, ?_, ?_, saved⟩, rfl⟩
  · simp only [Stacks.build, Function.update_self]
    decide
  · simp only [Stacks.build, Function.update_self]
    rfl

theorem load_words {mem : Word → Word} {x : Word} {f : TrapFrame} (h : Stack.Holds mem x f.words) :
    TrapFrame.load mem x = f := by
  have word : ∀ i (low : i < 22), mem (Stack.slot x i) = f.words[i] := fun i low => h.at low
  have first := word 0 (by decide)
  rw [Stack.slot_zero] at first
  cases f
  simp only [TrapFrame.load, TrapFrame.mk.injEq]
  exact ⟨first, word 1 (by decide), word 2 (by decide), word 3 (by decide), word 4 (by decide), word 5 (by decide),
    word 6 (by decide), word 7 (by decide), word 8 (by decide), word 9 (by decide), word 10 (by decide),
    word 11 (by decide), word 12 (by decide), word 13 (by decide), word 14 (by decide), word 15 (by decide),
    word 16 (by decide), word 17 (by decide), word 18 (by decide), word 19 (by decide), word 20 (by decide),
    word 21 (by decide)⟩

theorem Sim.fork (sim : Sim b s a) {t : TaskId} {stack : Word} (ok : Allowed b s (.fork t stack)) :
    Refines b s a (.fork t stack) := by
  obtain ⟨code, dead, free, floor⟩ := ok
  obtain ⟨w, f, here, _, frame⟩ := sim.inFrame code floor
  have fits : (childStack b.syscallBack f).length ≤ kstackWords := (by decide : 29 ≤ kstackWords)
  have built := sim.build (s.entry t) dead free fits (x := .forked { f with rax := 0#64 })
  obtain ⟨cell, words, _⟩ := build_words s b (t := t) fits free.cells
  simp only [Refines, trapStep, ctxStep, here]
  rw [load_words frame.words]
  rw [Function.update_eq_self] at built
  have split : childStack b.syscallBack f =
      (calleeSaved.reverse.map (fun _ => 0#64) ++ [b.syscallBack]) ++ { f with rax := 0#64 }.words := rfl
  rw [split, Stack.holds_append, ← split, Stack.slot_slot] at words
  refine ⟨built ⟨⟨?_, ⟨frame.selectors.cs, frame.selectors.ss⟩, ?_⟩, ?_, by decide, ?_⟩, trivial⟩
  · simp only [Stacks.build, Function.update_self] at words ⊢
    exact words.2
  · simp only [Stacks.build, Function.update_self]
  · simp only [Stacks.build, Function.update_self] at cell ⊢
    exact cell
  · simp only [Stacks.build, Function.update_self] at words ⊢
    exact words.1

theorem Sim.drop (sim : Sim b s a) {t : TaskId} (ok : Allowed b s (.drop t)) : Refines b s a (.drop t) := by
  have left : ∀ u, Function.update s.alive t false u = true → u ≠ t ∧ s.alive u = true := by
    intro u alive
    by_cases eq : u = t
    · rw [eq, Function.update_self] at alive
      cases alive
    · rw [Function.update_of_ne eq] at alive
      exact ⟨eq, alive⟩
  have current : s.current ≠ t := Ne.symm ok.2
  refine ⟨⟨sim.current, (Function.update_of_ne current _ _).trans sim.here, sim.rsp0, ?_, ?_, ?_, ?_⟩, rfl⟩
  · exact fun u v alive alive' => sim.apart u v (left u alive).2 (left v alive').2
  · exact fun u alive => sim.off u (left u alive).2
  · show Runs b _ (Function.update a.tasks t .absent s.current)
    rw [Function.update_of_ne current]
    have same : SameTask b s { s with alive := Function.update s.alive t false } s.current :=
      ⟨rfl, rfl, rfl, rfl, rfl, fun _ _ => rfl⟩
    exact same.runs rfl rfl sim.running
  · intro u alive other
    obtain ⟨ne, old⟩ := left u alive
    show Waiting b _ u (Function.update a.tasks t .absent u)
    rw [Function.update_of_ne ne]
    have same : SameTask b s { s with alive := Function.update s.alive t false } u :=
      ⟨rfl, rfl, rfl, rfl, rfl, fun _ _ => rfl⟩
    exact same.waiting (sim.waiting u old other)

/-! `switch_context` -/

/-- The registers and the return address at the `rsp` of a task. -/
def Ctx.saves (b : Board) : Ctx → (Reg → Word) × Word
  | .parked _ call => (call.regs, call.back)
  | .forked _ => (fun _ => 0#64, b.syscallBack)
  | _ => (fun _ => 0#64, b.userTrampoline)

theorem Waiting.resumes {t : TaskId} {x : Ctx} (waits : Waiting b s t x) :
    ∃ i, Saved b s t i (x.saves b).1 (x.saves b).2 ∧
      ∀ s', SameTask b s s' t → s'.current = t → s'.core.cs = gdtKernelCode → s'.core.rip = (x.saves b).2 →
        s'.core.sp = Stack.slot (s.stack t) (i + 7) → (∀ r ∈ calleeSaved, s'.core.regs r = (x.saves b).1 r) →
        Runs b s' x.resumed ∧
          (if s'.core.rip ∈ b.stubs then Seen.kernel
            else .resumed (calleeSaved.map s'.core.regs) s'.core.sp s'.core.rip) = x.seen := by
  cases x with
  | parked g call =>
    obtain ⟨stands, back, i, _, sp, saved⟩ := waits
    refine ⟨i, saved, fun s' same current cs rip here regs => ?_⟩
    have rip : s'.core.rip = call.back := rip
    refine ⟨⟨⟨cs, rip ▸ back⟩, current ▸ same.stands stands⟩, ?_⟩
    rw [rip, if_neg back, List.map_congr_left regs, here, ← sp]
    rfl
  | forked f =>
    refine ⟨_, waits.2, fun s' same current cs rip here _ => ?_⟩
    have rip : s'.core.rip = b.syscallBack := rip
    refine ⟨⟨cs, rip, ?_, current ▸ same.frame waits.1⟩, if_pos ?_⟩
    · rw [here, current, same.stack]
      rfl
    · rw [rip]
      exact Board.stubs_back (b.back_stub .syscall)
  | created p q =>
    obtain ⟨entry, top, saved⟩ := waits
    refine ⟨_, saved, fun s' same current cs rip _ _ => ?_⟩
    have rip : s'.core.rip = b.userTrampoline := rip
    refine ⟨⟨cs, rip, ?_, ?_⟩, if_pos ?_⟩
    · rw [current, same.entry, entry]
    · rw [current, same.top, same.stack, top]
    · rw [rip]
      exact b.trampoline_stub
  | absent => exact waits.elim
  | user u => exact waits.elim
  | code g => exact waits.elim
  | leaving w f => exact waits.elim
  | starting p q => exact waits.elim

theorem Ground.Stands.floor_le {t : TaskId} {g : Ground} (stands : g.Stands b s t) : s.floor t ≤ kstackWords := by
  cases g with
  | kernel => exact Nat.le_of_eq stands
  | frame w f =>
    rw [stands.1]
    decide

theorem Ground.Stands.parked {t : TaskId} {g : Ground} {call : SwitchCall} {i : Nat} (stands : g.Stands b s t)
    (room : i + 7 ≤ s.floor t) (sp : call.sp = Stack.slot (s.stack t) (i + 7)) (back : call.back ∉ b.stubs)
    (same : s'.stack t = s.stack t ∧ s'.top t = s.top t ∧ s'.floor t = s.floor t)
    (cell : s'.core.mem (b.rspCell t) = Stack.slot (s.stack t) i)
    (saved : Stack.Holds s'.core.mem (Stack.slot (s.stack t) i) (calleeSaved.reverse.map call.regs ++ [call.back]))
    (above : ∀ j, i + 7 ≤ j → j < kstackWords →
      s'.core.mem (Stack.slot (s.stack t) j) = s.core.mem (Stack.slot (s.stack t) j)) :
    Waiting b s' t (.parked g call) := by
  obtain ⟨stack, top, floor⟩ := same
  have fits := Nat.le_trans room stands.floor_le
  refine ⟨?_, back, i, floor.symm ▸ room, stack.symm ▸ sp, by rw [stack, cell], fits, by rw [stack]; exact saved⟩
  cases g with
  | kernel => exact floor.trans stands
  | frame w f =>
    obtain ⟨place, ret, frame⟩ := stands
    rw [place] at room
    refine ⟨floor.trans place, ?_, ?_, frame.selectors, by rw [stack, top, frame.top]⟩
    · rw [stack, above _ room (by decide), ret]
    · rw [stack]
      refine frame.words.congr fun j low => ?_
      rw [TrapFrame.words_length] at low
      rw [Stack.slot_slot]
      refine above _ ?_ ?_
      · simp only [framePlace, kstackWords] at room ⊢
        omega
      · simp only [framePlace, kstackWords]
        omega

theorem Sim.switch (sim : Sim b s a) {next : TaskId} {call : SwitchCall} (ok : Allowed b s (.switch next call)) :
    Refines b s a (.switch next call) := by
  obtain ⟨code, alive, other, regs, sp, back, i, room, here⟩ := ok
  obtain ⟨g, running, stands⟩ := sim.inCode code
  obtain ⟨n, saved, resumes⟩ := (sim.waiting next alive other).resumes
  have fits := Nat.le_trans room stands.floor_le
  -- no word of a stack is a cell
  have cells : ∀ t, s.alive t = true → ∀ j, j < kstackWords → ∀ u, Stack.slot (s.stack t) j ≠ b.rspCell u :=
    fun t alive j low u eq => sim.off t alive j low (.inr (.inr ⟨u, eq⟩))
  have rsp0 : ∀ t, s.alive t = true → ∀ j, j < kstackWords → Stack.slot (s.stack t) j ≠ b.rsp0 :=
    fun t alive j low eq => sim.off t alive j low (.inr (.inl eq))
  have rdi : (s.switching b next).regs .rdi = b.rspCell s.current := rfl
  have rsi : (s.switching b next).regs .rsi = Stack.slot (s.stack next) n := saved.cell
  have top : (s.switching b next).mem b.rsp0 = s.top next := Function.update_self _ _ _
  have memory : ∀ x, x ≠ b.rsp0 → (s.switching b next).mem x = s.core.mem x := fun x off => Function.update_of_ne off _ _
  have kept : ∀ r ∈ calleeSaved, (s.switching b next).regs r = call.regs r := by
    intro r mem
    rw [regs r mem]
    have far : r ≠ .rsi ∧ r ≠ .rdi := by
      revert r
      decide
    exact (Function.update_of_ne far.1 _ _).trans (Function.update_of_ne far.2 _ _)
  have start : (s.switching b next).sp = Stack.slot (s.stack s.current) (i + 7) ∧ (s.switching b next).cs = gdtKernelCode :=
    ⟨here, code.1⟩
  simp only [Refines, trapStep, ctxStep, running, sim.current]
  generalize s.switching b next = d at rdi rsi top memory kept start ⊢
  have own : OffBlock (s.stack s.current) i 7 (d.regs .rdi) := by
    intro j _ high
    rw [rdi]
    exact (cells _ sim.here j (by omega) _).symm
  have target : Stack.Holds d.mem (d.regs .rsi)
      (calleeSaved.reverse.map ((a.tasks next).saves b).1 ++ [((a.tasks next).saves b).2]) := by
    rw [rsi]
    refine saved.words.congr fun j low => memory _ ?_
    rw [Stack.slot_slot]
    have low : j < 7 := low
    have := saved.room
    exact rsp0 next alive _ (by omega)
  have beside : ∀ j, j < 7 → Stack.slot (d.regs .rsi) j ≠ d.regs .rdi ∧
      OffBlock (s.stack s.current) i 7 (Stack.slot (d.regs .rsi) j) := by
    intro j low
    have := saved.room
    rw [rsi, rdi, Stack.slot_slot]
    refine ⟨cells next alive _ (by omega) _, fun k _ high => ?_⟩
    exact sim.apart next s.current alive sim.here other _ (by omega) k (by omega)
  have switched : Switched d _ (s.stack s.current) i call.back _ _ :=
    switchContext_switched start.1 (by simp only [kstackWords] at fits; omega) own target beside
  generalize exec switchContext (d.call call.back) = c at switched ⊢
  have outside : ∀ x, x ≠ b.rsp0 → x ≠ b.rspCell s.current → OffBlock (s.stack s.current) i 7 x → c.mem x = s.core.mem x :=
    fun x off off' block => (switched.mem x (rdi ▸ off') block).trans (memory x off)
  have aside : ∀ t, s.alive t = true → t ≠ s.current → SameTask b s { s with core := c, current := next } t := by
    intro t alive away
    refine ⟨rfl, rfl, rfl, rfl, ?_, fun j low => ?_⟩
    · refine outside _ (b.rsp_apart t).2 (b.rsp_injective.ne away) fun j _ high => ?_
      exact (cells _ sim.here j (by omega) t).symm
    · refine outside _ (rsp0 t alive j low) (cells t alive j low _) fun k _ high => ?_
      exact sim.apart t s.current alive sim.here away j low k (by omega)
  have resumed := resumes { s with core := c, current := next } (aside next alive other) rfl
    (switched.cs.trans start.2) switched.rip (by rw [switched.sp, rsi, Stack.slot_slot]) switched.restored
  refine ⟨⟨rfl, alive, ?_, sim.apart, sim.off, ?_, ?_⟩, resumed.2⟩
  · refine (switched.mem _ (rdi ▸ (b.rsp_apart _).2.symm) fun j _ high => ?_).trans top
    exact (rsp0 _ sim.here j (by omega)).symm
  · show Runs b _ (Function.update (Function.update a.tasks s.current (.parked g call)) next (a.tasks next).resumed next)
    rw [Function.update_self]
    exact resumed.1
  · intro t living away
    show Waiting b _ t (Function.update (Function.update a.tasks s.current (.parked g call)) next _ t)
    rw [Function.update_of_ne away]
    by_cases self : t = s.current
    · rw [self, Function.update_self]
      refine stands.parked room (sp.trans here) back ⟨rfl, rfl, rfl⟩ ?_ ?_ fun j above low => ?_
      · exact rdi ▸ switched.cell
      · rw [← List.map_congr_left fun r mem => kept r (List.mem_reverse.mp mem)]
        exact switched.saved
      · refine outside _ (rsp0 _ sim.here j low) (cells _ sim.here j low _) fun k _ high eq => ?_
        simp only [kstackWords] at low fits
        have := Stack.slot_injective (by omega) (by omega) eq
        omega
    · rw [Function.update_of_ne self]
      exact (aside t living self).waiting (sim.waiting t living self)

/-- Every step the system is allowed is one of the tasks' own registers. -/
theorem Sim.step (sim : Sim b s a) (e : TrapEvent) (ok : Allowed b s e) : Refines b s a e := by
  cases e with
  | user u mem => exact sim.user ok
  | interrupt vector err => exact sim.interrupt ok
  | syscall => exact sim.syscall ok
  | code c => exact sim.code ok
  | frame f => exact sim.frame ok
  | leave => exact sim.leave ok
  | tail => exact sim.tail ok
  | switch next call => exact sim.switch ok
  | launch regs rflags place => exact sim.launch ok
  | create t stack rip rsp => exact sim.create ok
  | createKernel t stack trampoline => exact sim.createKernel ok
  | fork t stack => exact sim.fork ok
  | drop t => exact sim.drop ok

end Steps

/-! Whole runs -/

/-- The kernel has set up its own task and nothing else. -/
structure BootStacks (b : Board) (s : Stacks) : Prop where
  code : s.InCode b
  alive : ∀ t, s.alive t = true ↔ t = s.current
  floor : s.floor s.current = kstackWords
  rsp0 : s.core.mem b.rsp0 = s.top s.current
  off : ∀ j, j < kstackWords → ¬b.Cell (Stack.slot (s.stack s.current) j)

def bootContexts (main : TaskId) : Contexts := ⟨main, Function.update (fun _ => .absent) main (.code .kernel)⟩

theorem BootStacks.sim {b : Board} {s : Stacks} (boot : BootStacks b s) : Sim b s (bootContexts s.current) where
  current := rfl
  here := (boot.alive _).mpr rfl
  rsp0 := boot.rsp0
  apart t u ht hu other := absurd (((boot.alive t).mp ht).trans ((boot.alive u).mp hu).symm) other
  off t ht := (boot.alive t).mp ht ▸ boot.off
  running := by
    simp only [bootContexts, Function.update_self]
    exact ⟨boot.code, boot.floor⟩
  waiting t ht other := absurd ((boot.alive t).mp ht) other

/-- A task neither runs in ring 3 nor calls the kernel, nobody writes its frame or ends it. -/
def Idle (t : TaskId) (s : Stacks) : TrapEvent → Prop
  | .user _ _ => s.current ≠ t
  | .syscall => s.current ≠ t
  | .frame _ => s.current ≠ t
  | .drop u => u ≠ t
  | _ => True

/-! `main` starts a program, and the timer interrupts it. -/

theorem maxTasks_pos : 0 < maxTasks := by decide

theorem one_lt_maxTasks : 1 < maxTasks := by decide

def mainTask : TaskId := ⟨0, maxTasks_pos⟩

def firstTask : TaskId := ⟨1, one_lt_maxTasks⟩

def sampleCell (t : TaskId) : Word := BitVec.ofNat 64 (0x2000 + 64 * t.val)

theorem ofNat_inj {m n : Nat} (hm : m < 2 ^ 64) (hn : n < 2 ^ 64) (same : BitVec.ofNat 64 m = BitVec.ofNat 64 n) : m = n := by
  have := congrArg BitVec.toNat same
  rwa [BitVec.toNat_ofNat, BitVec.toNat_ofNat, Nat.mod_eq_of_lt hm, Nat.mod_eq_of_lt hn] at this

theorem sampleCell_injective : Function.Injective sampleCell := by
  intro t u same
  have ht : t.val < 64 := Nat.lt_of_lt_of_le t.isLt (by decide)
  have hu : u.val < 64 := Nat.lt_of_lt_of_le u.isLt (by decide)
  have := ofNat_inj (by omega) (by omega) same
  exact Fin.ext (by omega)

theorem sampleCell_apart (t : TaskId) : sampleCell t ≠ 0x1000#64 ∧ sampleCell t ≠ 0x1008#64 := by
  have ht : t.val < 64 := Nat.lt_of_lt_of_le t.isLt (by decide)
  refine ⟨fun same => ?_, fun same => ?_⟩
  · have := ofNat_inj (by omega) (by decide) same
    omega
  · have := ofNat_inj (by omega) (by decide) same
    omega

theorem sampleCells_apart : 0x1000#64 ≠ 0x1008#64 := by decide

theorem sampleStubs_nodup : [1#64, 2#64, 3#64, 4#64].Nodup := by decide

theorem sampleHandler_code (_ : Way) : 5#64 ∉ [1#64, 2#64, 3#64, 4#64] := by decide

def sampleBoard : Board where
  scratch := 0x1000#64
  rsp0 := 0x1008#64
  rspCell := sampleCell
  excBack := 1#64
  irqBack := 2#64
  syscallBack := 3#64
  userTrampoline := 4#64
  handler _ := 5#64
  rsp_injective := sampleCell_injective
  rsp_apart := sampleCell_apart
  cells_apart := sampleCells_apart
  stubs_nodup := sampleStubs_nodup
  handler_code := sampleHandler_code

/-- `main` is about to call `switch_context`. -/
def sampleBoot : Stacks where
  core := ⟨⟨fun _ => 0#64, 0x100038#64, fun _ => 0#64⟩, 5#64, 2#64, gdtKernelCode, 0#64⟩
  current := mainTask
  alive t := decide (t = mainTask)
  stack _ := 0x100000#64
  top _ := 0#64
  entry _ := (0#64, 0#64)
  floor _ := kstackWords

def sampleStart : List TrapEvent :=
  [.create firstTask 0x200000#64 0x400000#64 0x7ff000#64, .switch firstTask ⟨fun _ => 0#64, 0x100038#64, 6#64⟩,
    .launch (fun _ => 7#64) 2#64 100]

theorem sampleStack_cells {p j : Nat} (above : 0x10000 ≤ p) (below : p < 0x1000000) (low : j < kstackWords) :
    ¬sampleBoard.Cell (Stack.slot (BitVec.ofNat 64 p) j) := by
  have low : j < 2048 := low
  rw [Stack.slot, ← BitVec.ofNat_add]
  rintro (same | same | ⟨t, same⟩)
  · have := ofNat_inj (by omega) (by decide) same
    omega
  · have := ofNat_inj (by omega) (by decide) same
    omega
  · have ht : t.val < 64 := Nat.lt_of_lt_of_le t.isLt (by decide)
    have := ofNat_inj (by omega) (by omega) same
    omega

theorem sampleBoot_booted : BootStacks sampleBoard sampleBoot where
  code := by decide
  alive _ := decide_eq_true_iff
  floor := rfl
  rsp0 := rfl
  off _ low := sampleStack_cells (by decide) (by decide) low

theorem sampleFree : FreeStack sampleBoard sampleBoot 0x200000#64 where
  others t _ i low j below := by
    have low : i < 2048 := low
    have below : j < 2048 := below
    show Stack.slot (BitVec.ofNat 64 0x100000) i ≠ Stack.slot (BitVec.ofNat 64 0x200000) j
    rw [Stack.slot, Stack.slot, ← BitVec.ofNat_add, ← BitVec.ofNat_add]
    intro same
    have := ofNat_inj (by omega) (by omega) same
    omega
  cells _ low := sampleStack_cells (by decide) (by decide) low

theorem sampleStart_allowed : Run.Along (trapStep sampleBoard) (Allowed sampleBoard) sampleBoot sampleStart := by
  refine ⟨⟨by decide, by decide, sampleFree⟩, ⟨by decide, by decide, by decide, fun _ _ => rfl, rfl, by decide, 0, ?_, rfl⟩,
    ⟨by decide +kernel, by decide +kernel, by decide⟩, trivial⟩
  decide +kernel

/-- The timer interrupts the program, `main` runs in between, and the program goes on. -/
def sampleTick : List TrapEvent :=
  [.interrupt 32 0#64, .switch mainTask ⟨fun _ => 7#64, Stack.slot 0x200000#64 (framePlace - 1), 8#64⟩,
    .switch firstTask ⟨fun _ => 0#64, 0x100038#64, 6#64⟩, .leave, .tail]

/-- The state in which the program has started. -/
def sampleRunning : Stacks := (Run.run (trapStep sampleBoard) sampleBoot sampleStart).1

set_option maxRecDepth 20000 in
theorem sampleTick_allowed : Run.Along (trapStep sampleBoard)
    (fun s e => Allowed sampleBoard s e ∧ Idle sampleRunning.current s e) sampleRunning sampleTick := by
  refine ⟨⟨(by decide +kernel : sampleRunning.core.cs = gdtUserCode), trivial⟩, ⟨⟨?_, ?_, ?_, ?_, ?_, ?_, framePlace - 8, ?_, ?_⟩, trivial⟩,
    ⟨⟨?_, ?_, ?_, ?_, ?_, ?_, 0, ?_, ?_⟩, trivial⟩, ⟨⟨?_, ?_, ?_⟩, trivial⟩, ⟨⟨?_, ?_⟩, trivial⟩, trivial⟩
  all_goals decide +kernel

/-- Whatever is done in which order: ring 3 always runs with the registers that the task on
the processor was left with or that its own trap frame was given, and a call of
`switch_context` returns with the registers it was made with. -/
theorem contexts_never_mix (b : Board) (s : Stacks) (es : List TrapEvent) (boot : BootStacks b s)
    (allowed : Run.Along (trapStep b) (Allowed b) s es) :
    (Run.run (trapStep b) s es).2 = (Run.run ctxStep (bootContexts s.current) es).2 :=
  (Run.run_simulation_along (trapStep b) ctxStep (Allowed b) (Sim b) (fun _ _ e sim ok => sim.step e ok) s _ es
    boot.sim allowed).2

theorem contexts_never_mix_tick :
    Run.Along (trapStep sampleBoard) (Allowed sampleBoard) sampleBoot (sampleStart ++ sampleTick) ∧
      (Run.run (trapStep sampleBoard) sampleBoot (sampleStart ++ sampleTick)).2 =
        (Run.run ctxStep (bootContexts mainTask) (sampleStart ++ sampleTick)).2 := by
  have allowed : Run.Along (trapStep sampleBoard) (Allowed sampleBoard) sampleBoot (sampleStart ++ sampleTick) := by
    rw [Run.along_append]
    exact ⟨sampleStart_allowed, sampleTick_allowed.gives (fun _ => True) (fun _ _ _ _ => trivial) (fun _ _ _ ok => ok.1) trivial⟩
  exact ⟨allowed, contexts_never_mix sampleBoard sampleBoot _ sampleBoot_booted allowed⟩

/-- The registers of an interrupted program, wherever they are. -/
def Ground.Holding (u : User) : Ground → Prop
  | .frame (.trap _) f => f.user = u
  | _ => False

def Ctx.Holding (u : User) : Ctx → Prop
  | .user v => v = u
  | .code g => g.Holding u
  | .leaving w f => (Ground.frame w f).Holding u
  | .parked g _ => g.Holding u
  | _ => False

theorem Ctx.Holding.resumed {u : User} {x : Ctx} (h : x.Holding u) : x.resumed.Holding u := by
  cases x with
  | forked f => exact h.elim
  | created p q => exact h.elim
  | absent => exact h
  | user v => exact h
  | code g => exact h
  | leaving w f => exact h
  | starting p q => exact h
  | parked g call => exact h

section Interrupted

variable {b : Board} {s : Stacks} {a : Contexts} {t : TaskId} {u : User}

theorem Contexts.put_holding (a : Contexts) {x : Ctx} (old : (a.tasks t).Holding u)
    (new : a.current = t → a.here.Holding u → x.Holding u) : ((a.put x).tasks t).Holding u := by
  by_cases self : a.current = t
  · have here := new self (by rw [Contexts.here, self]; exact old)
    simp only [Contexts.put, ← self, Function.update_self]
    exact here
  · simp only [Contexts.put, Function.update_of_ne (Ne.symm self)]
    exact old

theorem ctxStep_holding (sim : Sim b s a) (alive : s.alive t = true) (holding : (a.tasks t).Holding u) (e : TrapEvent)
    (ok : Allowed b s e) (idle : Idle t s e) :
    (trapStep b s e).1.alive t = true ∧ (((ctxStep a e).1).tasks t).Holding u := by
  have current := sim.current
  have born : ∀ (p : TaskId) (x : Ctx), s.alive p = false → Function.update s.alive p true t = true ∧
      (Function.update a.tasks p x t).Holding u := by
    intro p x dead
    have other : t ≠ p := by
      intro eq
      rw [eq, dead] at alive
      cases alive
    rw [Function.update_of_ne other, Function.update_of_ne other]
    exact ⟨alive, holding⟩
  cases e with
  | user v mem => exact ⟨alive, a.put_holding holding fun self _ => absurd (current.symm.trans self) idle⟩
  | interrupt vector err =>
    refine ⟨alive, ?_⟩
    rw [ctxStep]
    split
    · rename_i v here
      refine a.put_holding holding fun _ was => ?_
      rw [here] at was
      exact (User.frame_user _ _ _ _ _).trans was
    · exact holding
  | syscall =>
    refine ⟨alive, ?_⟩
    rw [ctxStep]
    split
    · exact a.put_holding holding fun self _ => absurd (current.symm.trans self) idle
    · exact holding
  | code c => exact ⟨alive, holding⟩
  | frame f =>
    refine ⟨alive, ?_⟩
    rw [ctxStep]
    split
    · exact a.put_holding holding fun self _ => absurd (current.symm.trans self) idle
    · exact holding
  | leave =>
    refine ⟨alive, ?_⟩
    rw [ctxStep]
    split
    · rename_i w f here
      refine a.put_holding holding fun _ was => ?_
      rw [here] at was
      exact was
    · exact holding
  | tail =>
    refine ⟨alive, ?_⟩
    rw [ctxStep]
    split
    · rename_i w f here
      refine a.put_holding holding fun _ was => ?_
      rw [here] at was
      cases w with
      | trap vector => exact was
      | syscall => exact was.elim
    · exact holding
  | switch next call =>
    refine ⟨alive, ?_⟩
    rw [ctxStep]
    split
    · rename_i g here
      show (Function.update (Function.update a.tasks a.current (.parked g call)) next (a.tasks next).resumed t).Holding u
      by_cases chosen : t = next
      · rw [← chosen, Function.update_self]
        exact holding.resumed
      · rw [Function.update_of_ne chosen]
        by_cases self : t = a.current
        · have here : a.tasks t = .code g := self ▸ here
          rw [here] at holding
          rw [self, Function.update_self]
          exact holding
        · rw [Function.update_of_ne self]
          exact holding
    · exact holding
  | launch regs rflags place =>
    refine ⟨alive, ?_⟩
    rw [ctxStep]
    split
    · rename_i p q here
      refine a.put_holding holding fun _ was => ?_
      rw [here] at was
      exact was.elim
    · exact holding
  | create p stack rip rsp => exact born p _ ok.2.1
  | createKernel p stack trampoline => exact born p _ ok.2.1
  | fork p stack =>
    rw [ctxStep]
    split
    · exact born p _ ok.2.1
    · exact ⟨(born p .absent ok.2.1).1, holding⟩
  | drop p =>
    have other : t ≠ p := Ne.symm idle
    simp only [trapStep, ctxStep, Function.update_of_ne other]
    exact ⟨alive, holding⟩

end Interrupted

/-- An interrupted program does not notice: whatever the other tasks and the kernel do in
between, when it runs again all its registers are what they were. -/
theorem interrupted_program_unaware (b : Board) (s : Stacks) (es es' : List TrapEvent) (boot : BootStacks b s)
    (allowed : Run.Along (trapStep b) (Allowed b) s es)
    (ring : (Run.run (trapStep b) s es).1.core.cs = gdtUserCode)
    (idle : Run.Along (trapStep b)
      (fun s' e => Allowed b s' e ∧ Idle (Run.run (trapStep b) s es).1.current s' e) (Run.run (trapStep b) s es).1 es')
    (back : (Run.run (trapStep b) (Run.run (trapStep b) s es).1 es').1.current = (Run.run (trapStep b) s es).1.current)
    (again : (Run.run (trapStep b) (Run.run (trapStep b) s es).1 es').1.core.cs = gdtUserCode) :
    (Run.run (trapStep b) (Run.run (trapStep b) s es).1 es').1.core.user = (Run.run (trapStep b) s es).1.core.user := by
  have sim := (Run.run_simulation_along (trapStep b) ctxStep (Allowed b) (Sim b) (fun _ _ e sim ok => sim.step e ok) s _ es
    boot.sim allowed).1
  generalize (Run.run (trapStep b) s es).1 = s₁ at *
  generalize (Run.run ctxStep (bootContexts s.current) es).1 = a₁ at sim
  obtain ⟨u, here, _, user, _⟩ := sim.inUser ring
  have start : (a₁.tasks s₁.current).Holding u := by
    rw [← sim.current]
    show a₁.here.Holding u
    rw [here]
    rfl
  have kept := (Run.run_simulation_along (trapStep b) ctxStep (fun s' e => Allowed b s' e ∧ Idle s₁.current s' e)
    (fun s' a' => Sim b s' a' ∧ s'.alive s₁.current = true ∧ (a'.tasks s₁.current).Holding u)
    (fun s' a' e h ok => ⟨⟨(h.1.step e ok.1).1, ctxStep_holding h.1 h.2.1 h.2.2 e ok.1 ok.2⟩, (h.1.step e ok.1).2⟩)
    s₁ a₁ es' ⟨sim, sim.here, start⟩ idle).1
  obtain ⟨sim', _, holding⟩ := kept
  generalize (Run.run (trapStep b) s₁ es').1 = s₂ at *
  obtain ⟨v, here', _, user', _⟩ := sim'.inUser again
  rw [← back, ← sim'.current] at holding
  change (Contexts.here _).Holding u at holding
  rw [here'] at holding
  exact user'.trans (holding.trans user.symm)

set_option maxRecDepth 20000 in
theorem interrupted_program_unaware_tick :
    Run.Along (trapStep sampleBoard) (fun s e => Allowed sampleBoard s e ∧ Idle sampleRunning.current s e) sampleRunning
        sampleTick ∧
      (Run.run (trapStep sampleBoard) sampleRunning sampleTick).1.core.user = sampleRunning.core.user :=
  ⟨sampleTick_allowed, interrupted_program_unaware sampleBoard sampleBoot sampleStart sampleTick sampleBoot_booted
    sampleStart_allowed (by decide +kernel) sampleTick_allowed (by decide +kernel) (by decide +kernel)⟩

end Isunux
