import Isunux.ExecCommit

/-! Arguments and environment across `do_exec`. The strings are staged in buffers of
fixed size on their way, and what does not fit is cut off in silence. -/
namespace Isunux

/-! What `crt0.asm` finds -/

/-- A word in the program's memory. -/
def WordAt (s : Vm) (pml4 : Nat) (v w : Word) : Prop :=
  ∀ j < 8, userRead s pml4 (v + BitVec.ofNat 64 j) = some ((w >>> (8 * j)).setWidth 8)

/-- A string in the program's memory, with its NUL. -/
def StringAt (s : Vm) (pml4 : Nat) (v : Word) (str : CString) : Prop :=
  ∀ j ≤ str.1.length, userRead s pml4 (v + BitVec.ofNat 64 j) = some (str.1.getD j 0)

/-- A NULL-terminated array of pointers to strings. -/
def ArrayAt (s : Vm) (pml4 : Nat) (v : Word) (strings : List CString) : Prop :=
  (∀ i str, strings[i]? = some str → ∃ ptr, ptr ≠ 0#64 ∧
    WordAt s pml4 (v + BitVec.ofNat 64 (8 * i)) ptr ∧ StringAt s pml4 ptr str) ∧
  WordAt s pml4 (v + BitVec.ofNat 64 (8 * strings.length)) 0#64

/-- `crt0` finds the number of arguments, the arguments behind it, and the environment
behind the NULL of the arguments. -/
structure SeesArgs (s : Vm) (pml4 : Nat) (rsp : Word) (argv envp : List CString) : Prop where
  argc : ∃ w, WordAt s pml4 rsp w ∧ w.toNat = argv.length
  args : ArrayAt s pml4 (rsp + 8#64) argv
  env : ArrayAt s pml4 (rsp + 8#64 + BitVec.ofNat 64 (8 * (argv.length + 1))) envp

def FitsStage (count maxlen : Nat) (strings : List CString) : Prop :=
  strings.length ≤ count ∧ ∀ str ∈ strings, str.1.length < maxlen

theorem WordAt.unique {s : Vm} {pml4 : Nat} {v w w' : Word} (h : WordAt s pml4 v w) (h' : WordAt s pml4 v w') :
    w = w' := by
  apply word_ext
  intro j low
  have both := (h j low).symm.trans (h' j low)
  exact Option.some.inj both

section Staging

variable {count maxlen : Nat} {strings : List CString}

theorem stage_get {i : Nat} {str : CString} (low : i < count) (here : strings[i]? = some str) :
    (stage count maxlen strings)[i]? = some (str.1.take (maxlen - 1)) := by
  rw [stage, List.getElem?_map, List.getElem?_take_of_lt low, here]
  rfl

/-- An array as the stack has it after the staging, and the pointers in it. -/
structure StagedArray (s : Vm) (pml4 : Nat) (v : Word) (strings : List (List (BitVec 8))) : Prop where
  entries : ∀ i t, strings[i]? = some t → ∃ ptr, ptr ≠ 0#64 ∧ WordAt s pml4 (v + BitVec.ofNat 64 (8 * i)) ptr ∧
    ∀ j ≤ t.length, userRead s pml4 (ptr + BitVec.ofNat 64 j) = some (t.getD j 0)
  ends : WordAt s pml4 (v + BitVec.ofNat 64 (8 * strings.length)) 0#64

/-- The array in memory is the caller's exactly when nothing was cut off. -/
theorem StagedArray.sees_iff {s : Vm} {pml4 : Nat} {v : Word} (positive : 0 < maxlen)
    (h : StagedArray s pml4 v (stage count maxlen strings)) :
    ArrayAt s pml4 v strings ↔ FitsStage count maxlen strings := by
  constructor
  · rintro ⟨entries, -⟩
    have few : strings.length ≤ count := by
      by_contra many
      -- behind the last staged string the array ends
      have ends := h.ends
      rw [stage_length, Nat.min_eq_left (by omega)] at ends
      obtain ⟨ptr, nonzero, word, -⟩ := entries count (strings[count]) (List.getElem?_eq_getElem (by omega))
      exact nonzero (word.unique ends)
    refine ⟨few, fun str mem => ?_⟩
    by_contra long
    obtain ⟨i, bound, rfl⟩ := List.getElem_of_mem mem
    have here : strings[i]? = some strings[i] := List.getElem?_eq_getElem bound
    obtain ⟨ptr, -, word, bytes⟩ := entries i _ here
    obtain ⟨ptr', -, word', bytes'⟩ := h.entries i _ (stage_get (by omega) here)
    rw [← word.unique word'] at bytes'
    -- a NUL stands where the string goes on
    have cut : (strings[i].1.take (maxlen - 1)).length = maxlen - 1 := by
      rw [List.length_take]
      omega
    have there := (bytes (maxlen - 1) (by omega)).symm.trans (bytes' (maxlen - 1) cut.ge)
    rw [List.getD_eq_getElem?_getD, List.getD_eq_getElem?_getD, List.getElem?_eq_none cut.le,
      List.getElem?_eq_getElem (show maxlen - 1 < strings[i].1.length by omega), Option.some.injEq] at there
    have nul : strings[i].1[maxlen - 1] = 0 := there
    exact strings[i].2 (nul ▸ List.getElem_mem _)
  · rintro ⟨few, short⟩
    refine ⟨fun i str here => ?_, ?_⟩
    · have bound : i < strings.length := (List.getElem?_eq_some_iff.mp here).1
      obtain ⟨ptr, nonzero, word, bytes⟩ := h.entries i _ (stage_get (by omega) here)
      have whole : str.1.take (maxlen - 1) = str.1 := by
        have := short str (List.mem_of_getElem? here)
        exact List.take_of_length_le (by omega)
      rw [whole] at bytes
      exact ⟨ptr, nonzero, word, bytes⟩
    · have ends := h.ends
      rwa [stage_length, Nat.min_eq_right few] at ends

end Staging

section Stack

variable {s : Vm} {pml4 phys start : Nat} {mem : PhysMem} {argv envp : List (List (BitVec 8))} {aux : AuxInfo}

theorem stackWords_get (argc : Nat) (as es : List Word) (aux : AuxInfo) (random : Word) :
    (stackWords argc as es aux random)[0]? = some (BitVec.ofNat 64 argc) ∧
      (∀ i a, as[i]? = some a → (stackWords argc as es aux random)[i + 1]? = some a) ∧
      (stackWords argc as es aux random)[as.length + 1]? = some 0#64 ∧
      (∀ i e, es[i]? = some e → (stackWords argc as es aux random)[as.length + 2 + i]? = some e) ∧
      (stackWords argc as es aux random)[as.length + 2 + es.length]? = some 0#64 := by
  have whole : stackWords argc as es aux random = BitVec.ofNat 64 argc :: (as ++ 0#64 :: (es ++ 0#64 ::
      [3#64, aux.phdrVaddr, 4#64, BitVec.ofNat 64 aux.phentsize, 5#64, BitVec.ofNat 64 aux.phnum,
        6#64, 4096#64, 9#64, aux.entry, 25#64, random, 0#64, 0#64])) := by
    simp [stackWords]
  rw [whole]
  refine ⟨rfl, fun i a here => ?_, ?_, fun i e here => ?_, ?_⟩
  · have low := (List.getElem?_eq_some_iff.mp here).1
    rw [List.getElem?_cons_succ, List.getElem?_append_left low]
    exact here
  · rw [List.getElem?_cons_succ, List.getElem?_append_right le_rfl, Nat.sub_self]
    rfl
  · have low := (List.getElem?_eq_some_iff.mp here).1
    rw [show as.length + 2 + i = as.length + (i + 1) + 1 by omega, List.getElem?_cons_succ,
      List.getElem?_append_right (Nat.le_add_right _ _), Nat.add_sub_cancel_left, List.getElem?_cons_succ,
      List.getElem?_append_left low]
    exact here
  · rw [show as.length + 2 + es.length = as.length + (es.length + 1) + 1 by omega, List.getElem?_cons_succ,
      List.getElem?_append_right (Nat.le_add_right _ _), Nat.add_sub_cancel_left, List.getElem?_cons_succ,
      List.getElem?_append_right le_rfl, Nat.sub_self]
    rfl

theorem stack_add (a b : Nat) :
    userStackBase + BitVec.ofNat 64 a + BitVec.ofNat 64 b = userStackBase + BitVec.ofNat 64 (a + b) := by
  rw [BitVec.add_assoc, ← BitVec.ofNat_add]

theorem forall₂_get {α β : Type*} {R : α → β → Prop} {xs : List α} {ys : List β} (h : List.Forall₂ R xs ys)
    {i : Nat} {x : α} (here : xs[i]? = some x) : ∃ y, ys[i]? = some y ∧ R x y := by
  obtain ⟨low, rfl⟩ := List.getElem?_eq_some_iff.mp here
  have low' : i < ys.length := h.length_eq ▸ low
  exact ⟨ys[i], List.getElem?_eq_getElem low', h.get low low'⟩

theorem StackLaid.arrays (h : StackLaid mem phys userStackBase (userStackPages * 4096) argv envp aux start)
    (reads : ∀ o < userStackPages * 4096,
      userRead s pml4 (userStackBase + BitVec.ofNat 64 o) = some (bufferByte mem phys o)) :
    let rsp := userStackBase + BitVec.ofNat 64 start
    WordAt s pml4 rsp (BitVec.ofNat 64 argv.length) ∧ StagedArray s pml4 (rsp + 8#64) argv ∧
      StagedArray s pml4 (rsp + 8#64 + BitVec.ofNat 64 (8 * (argv.length + 1))) envp := by
  obtain ⟨⟨as, es, random, placedA, placedE, words⟩, inside⟩ := h
  intro rsp
  have top : userStackPages * 4096 = 16384 := rfl
  have lenA : (as.map fun o => userStackBase + BitVec.ofNat 64 o).length = argv.length := by
    rw [List.length_map, placedA.length_eq]
  have lenE : (es.map fun o => userStackBase + BitVec.ofNat 64 o).length = envp.length := by
    rw [List.length_map, placedE.length_eq]
  obtain ⟨get₀, getA, endA, getE, endE⟩ := stackWords_get argv.length
    (as.map fun o => userStackBase + BitVec.ofNat 64 o) (es.map fun o => userStackBase + BitVec.ofNat 64 o)
    aux (userStackBase + BitVec.ofNat 64 random)
  -- word number `i`
  have word : ∀ i w, (stackWords argv.length (as.map fun o => userStackBase + BitVec.ofNat 64 o)
      (es.map fun o => userStackBase + BitVec.ofNat 64 o) aux
      (userStackBase + BitVec.ofNat 64 random))[i]? = some w →
      WordAt s pml4 (userStackBase + BitVec.ofNat 64 (start + 8 * i)) w := by
    intro i w here j low
    have bound := (List.getElem?_eq_some_iff.mp here).1
    rw [stackWords_length, lenA, lenE] at bound
    have byte := words (8 * i + j) (by rw [wordsBytes_length, stackWords_length, lenA, lenE]; omega)
    rw [stack_add, reads _ (by omega), show start + 8 * i + j = start + (8 * i + j) by omega, byte,
      wordsBytes_getD here low]
  -- the string behind pointer number `i`
  have string : ∀ (strings : List (List (BitVec 8))) (offsets : List Nat) (i : Nat)
      (t : List (BitVec 8)),
      List.Forall₂ (StringIn mem phys 0 (userStackPages * 4096)) strings offsets → strings[i]? = some t →
      ∃ o, offsets[i]? = some o ∧ userStackBase + BitVec.ofNat 64 o ≠ 0#64 ∧
        ∀ j ≤ t.length, userRead s pml4 (userStackBase + BitVec.ofNat 64 o + BitVec.ofNat 64 j) =
          some (t.getD j 0) := by
    intro strings offsets i t placed here
    obtain ⟨o, there, bytes, -, room⟩ := forall₂_get placed here
    refine ⟨o, there, fun zero => ?_, fun j low => ?_⟩
    · have place := congrArg BitVec.toNat zero
      rw [BitVec.toNat_add, BitVec.toNat_ofNat, show userStackBase.toNat = 6275072 from rfl] at place
      have none : (0#64).toNat = 0 := rfl
      omega
    · have byte := bytes j (by rw [List.length_append, List.length_singleton]; omega)
      rw [stack_add, reads _ (by omega), byte, List.getD_eq_getElem?_getD, List.getD_eq_getElem?_getD]
      rcases Nat.lt_or_eq_of_le low with before | rfl
      · rw [List.getElem?_append_left before]
      · rw [List.getElem?_append_right le_rfl, Nat.sub_self, List.getElem?_eq_none le_rfl]
        rfl
  have eight : ∀ n, rsp + 8#64 + BitVec.ofNat 64 n = userStackBase + BitVec.ofNat 64 (start + (8 + n)) := by
    intro n
    rw [show (8#64) = BitVec.ofNat 64 8 from rfl, stack_add, stack_add, Nat.add_assoc]
  have next : ∀ i, 8 + 8 * i = 8 * (i + 1) := fun i => (Nat.add_comm _ _).trans (Nat.mul_succ 8 i).symm
  have after : ∀ n i, start + (8 + 8 * (n + 1)) + 8 * i = start + 8 * (n + 2 + i) := fun n i => by omega
  refine ⟨?_, ⟨fun i t here => ?_, ?_⟩, ⟨fun i t here => ?_, ?_⟩⟩
  · exact word 0 _ get₀
  · obtain ⟨o, there, nonzero, bytes⟩ := string argv as i t placedA here
    refine ⟨_, nonzero, ?_, bytes⟩
    rw [eight, next]
    exact word (i + 1) _ (getA i _ (by rw [List.getElem?_map, there]; rfl))
  · rw [eight, next]
    rw [lenA] at endA
    exact word _ _ endA
  · obtain ⟨o, there, nonzero, bytes⟩ := string envp es i t placedE here
    refine ⟨_, nonzero, ?_, bytes⟩
    rw [eight, stack_add, after]
    have get := getE i _ (show (es.map fun o => userStackBase + BitVec.ofNat 64 o)[i]? = some _ by
      rw [List.getElem?_map, there]; rfl)
    rw [lenA] at get
    exact word _ _ get
  · rw [eight, stack_add, after]
    rw [lenA, lenE] at endE
    exact word _ _ endE

end Stack

section Exec

variable {F : Type} (fs : Foreign F) (elsewhere : F → Nat → FileReader)

theorem doExec_sees_iff {c : Caller} {files : Files F} {path : List Char} {argv envp : List CString}
    {seed : Word} {p : Nat} {s : Vm} {b : FileBuffer} (zero : Held c.kernel.vm.pmm 0)
    (program : execProgram fs elsewhere c files path = some (p, s, b)) (contained : Contained (execData s b))
    (done : (doExec fs elsewhere c files path argv envp seed).2 = 0) (backed : ExecBacked s b) :
    let c' := (doExec fs elsewhere c files path argv envp seed).1
    SeesArgs c'.kernel.vm (c'.kernel.procs p).pml4 c'.frame.rsp argv envp ↔
      FitsStage maxExecArgs execArgMaxlen argv ∧ FitsStage maxExecEnvs execEnvMaxlen envp := by
  intro c'
  obtain ⟨file, image, rfl, committed⟩ := doExec_committed program done
  have reading := (vfsReadFileAlloc_reads file zero).reading committed.read
  obtain ⟨start, rsp, laid, off⟩ := committed.stackLaid
  -- the stack is where the run without the allocator's flag has it
  have agree := (agree_unflagged (vfsReadFileAlloc file c.kernel.vm).1).execMapped b
  have spaces := (agree_unflagged (vfsReadFileAlloc file c.kernel.vm).1).execSpace b
  have block := spaces.1.allocPages userStackPages
  obtain ⟨scope, L, sound, stack⟩ := reading.unflagged.stackMapped (by rw [execData_unflagged]; exact contained)
    (by rw [← spaces.2.2, committed.loaded]; rfl) (by rw [← block.1]; exact committed.stack) backed
  rw [← agree.2] at sound stack
  have reads := fun o inside => sound.readStack stack (s := c'.kernel.vm)
    (fun f out => (off f out).trans (congrFun agree.1 f)) (o := o) inside
  rw [← committed.pml4] at reads
  obtain ⟨count, args, env⟩ := laid.arrays reads
  rw [← rsp] at count args env
  have argsIff := args.sees_iff (by decide)
  have staged : FitsStage maxExecArgs execArgMaxlen argv →
      (stage maxExecArgs execArgMaxlen argv).length = argv.length := by
    intro fits
    rw [stage_length, Nat.min_eq_right fits.1]
  constructor
  · intro sees
    have fits := argsIff.mp sees.args
    rw [staged fits] at env
    exact ⟨fits, (env.sees_iff (by decide)).mp sees.env⟩
  · rintro ⟨fits, fitsEnv⟩
    rw [staged fits] at count env
    refine ⟨⟨_, count, ?_⟩, argsIff.mpr fits, (env.sees_iff (by decide)).mpr fitsEnv⟩
    have few : argv.length ≤ 8 := fits.1
    rw [BitVec.toNat_ofNat]
    omega

/-- A program whose segments stay in their pages and whose tables fit into memory finds
the caller's strings exactly when they fit into the staging buffers. Four pages for each
page of the segments and seventeen more are always enough. -/
theorem exec_arguments_iff (c : Caller) (files : Files F) (path : List Char) (argv envp : List CString)
    (seed : Word) {p : Nat} {s : Vm} {b : FileBuffer} (zero : Held c.kernel.vm.pmm 0)
    (program : execProgram fs elsewhere c files path = some (p, s, b)) (contained : Contained (execData s b))
    (done : (doExec fs elsewhere c files path argv envp seed).2 = 0) :
    let c' := (doExec fs elsewhere c files path argv envp seed).1
    (ExecBacked s b →
      (SeesArgs c'.kernel.vm (c'.kernel.procs p).pml4 c'.frame.rsp argv envp ↔
        FitsStage maxExecArgs execArgMaxlen argv ∧ FitsStage maxExecEnvs execEnvMaxlen envp)) ∧
    (4 * pagesBefore (execData s b) (ePhnum (execData s b)) + 17 ≤ freeFrames s.pmm → ExecBacked s b) := by
  intro c'
  refine ⟨doExec_sees_iff fs elsewhere zero program contained done, fun enough => ?_⟩
  obtain ⟨file, image, rfl, committed⟩ := doExec_committed program done
  have reading := (vfsReadFileAlloc_reads file zero).reading committed.read
  exact execMapped_backed (reading.lent.grown.held zero) reading.nonzero enough

end Exec

theorem tinyElf_read :
    (vfsReadFileAlloc ((oneProgram 120#64).reader noReader (.tmp 1)) (programVm tinyElf)).2 = some ⟨4, 4, 120⟩ := by
  decide +kernel

theorem tinyElf_backed : ExecBacked (programRead tinyElf) ⟨4, 4, 120⟩ := by
  rw [ExecBacked]
  decide +kernel

theorem tinyElf_contained : Contained (execData (programRead tinyElf) ⟨4, 4, 120⟩) := by
  have one : ePhnum (execData (programRead tinyElf) ⟨4, 4, 120⟩) = 1 := by decide +kernel
  intro i bound _
  rw [one] at bound
  obtain rfl : i = 0 := by omega
  rw [Phdr.Inside, Phdr.Low]
  decide +kernel

theorem tinyElf_zero : Held (loneCaller (programVm tinyElf)).kernel.vm.pmm 0 := fun _ => rfl

/-- `/a` executed with some arguments and an empty environment. -/
def tinyExec (argv : List CString) : Caller × Int :=
  doExec consoleOnly noReader (loneCaller (programVm tinyElf)) (oneProgram 120#64) ['/', 'a'] argv [] 1#64

def twoArguments : List CString := [⟨[0x61], by decide⟩, ⟨[0x2d, 0x6c], by decide⟩]

theorem twoArguments_done : (tinyExec twoArguments).2 = 0 := by decide +kernel

theorem exec_arguments_two :
    SeesArgs (tinyExec twoArguments).1.kernel.vm ((tinyExec twoArguments).1.kernel.procs 0).pml4
      (tinyExec twoArguments).1.frame.rsp twoArguments [] := by
  have fits : FitsStage maxExecArgs execArgMaxlen twoArguments ∧ FitsStage maxExecEnvs execEnvMaxlen [] := by
    rw [FitsStage, FitsStage]
    decide
  have both := exec_arguments_iff consoleOnly noReader (loneCaller (programVm tinyElf)) (oneProgram 120#64)
    ['/', 'a'] twoArguments [] 1#64 tinyElf_zero (programVm_program tinyElf_read) tinyElf_contained twoArguments_done
  unfold tinyExec
  exact (both.1 tinyElf_backed).mpr fits

def nineArguments : List CString := List.replicate 9 ⟨[0x61], by decide⟩

theorem nineArguments_done : (tinyExec nineArguments).2 = 0 := by decide +kernel

/-- Of nine arguments the program is given eight. -/
theorem exec_drops_ninth_argument :
    (tinyExec nineArguments).2 = 0 ∧
      ¬ SeesArgs (tinyExec nineArguments).1.kernel.vm ((tinyExec nineArguments).1.kernel.procs 0).pml4
        (tinyExec nineArguments).1.frame.rsp nineArguments [] := by
  refine ⟨nineArguments_done, fun sees => ?_⟩
  have both := doExec_sees_iff consoleOnly noReader tinyElf_zero (programVm_program tinyElf_read)
    tinyElf_contained nineArguments_done tinyElf_backed
  unfold tinyExec at sees
  exact absurd (both.mp sees).1.1 (by decide)

end Isunux
