import Isunux.Vfs
import Isunux.Fork
import Isunux.UserMemory

/-! `do_exec`, exec.c, with the reader of whole files of vfs.c and userstack.c. The
caller is the current task; its argument strings are still there while they are
copied, and a string that ends at its NUL is the list of the bytes before it. -/
namespace Isunux

def enoexec : Int := 8

def maxExecArgs : Nat := 8
def execArgMaxlen : Nat := 64
def maxExecEnvs : Nat := 16
def execEnvMaxlen : Nat := 128

def userStackTop : Word := 0x600000#64
def userStackPages : Nat := 4
def userStackBase : Word := userStackTop - BitVec.ofNat 64 (userStackPages * 4096)

/-- A string in the caller's memory. -/
abbrev CString := { bytes : List (BitVec 8) // 0 ∉ bytes }

/-- The staging loops: at most `count` strings of at most `maxlen - 1` bytes. -/
def stage (count maxlen : Nat) (strings : List CString) : List (List (BitVec 8)) :=
  (strings.take count).map fun s => s.1.take (maxlen - 1)

/-! vfs.c -/

/-- What a file's `ops->read` answers: a negative errno, or bytes, never more of them than
it was asked for. -/
structure FileReader where
  read : (count offset : Nat) → Except Int (List (BitVec 8))
  bounded : ∀ count offset bytes, read count offset = .ok bytes → bytes.length ≤ count

/-- A buffer of `vfs_read_file_alloc`: its first frame, its pages, and how much is in it. -/
structure FileBuffer where
  phys : Nat
  pages : Nat
  total : Nat
  deriving DecidableEq

/-- Bytes stored at an offset of a block of pages. -/
def fillBuffer (mem : PhysMem) (phys at_ : Nat) (bytes : List (BitVec 8)) : PhysMem :=
  storeBytes mem phys (BitVec.ofNat 64 at_) (fun j => bytes.getD j 0) bytes.length

/-- The reading loop, or nothing when it does not end within so many rounds. -/
def readFileLoop (file : Vm → FileReader) : Nat → Vm → FileBuffer → Option (Vm × Option FileBuffer)
  | 0, _, _ => none
  | fuel + 1, s, b =>
    match (file s).read (b.pages * 4096 - b.total) b.total with
    | .error _ => some ({ s with pmm := pmmFreePages s.pmm b.phys b.pages }, none)
    | .ok [] => some (s, some b)
    | .ok bytes =>
      let s := { s with mem := fillBuffer s.mem b.phys b.total bytes }
      let total := b.total + bytes.length
      if total = b.pages * 4096 then
        let a := pmmAllocPages s.pmm (b.pages * 2)
        if a.2 = 0 then some ({ s with pmm := pmmFreePages a.1 b.phys b.pages }, none)
        else
          readFileLoop file fuel
            { s with
              pmm := pmmFreePages a.1 b.phys b.pages
              mem := copyBuffer s.mem a.2 b.phys total } ⟨a.2, b.pages * 2, total⟩
      else readFileLoop file fuel s { b with total := total }

def vfsReadInitialPages : Nat := 4

/-- `vfs_read_file_alloc`. The buffer never gets larger than memory, and every round but
the last brings a byte. -/
def vfsReadFileAlloc (file : Vm → FileReader) (s : Vm) : Vm × Option FileBuffer :=
  let a := pmmAllocPages s.pmm vfsReadInitialPages
  if a.2 = 0 then ({ s with pmm := a.1 }, none)
  else
    (readFileLoop file (s.pmm.totalPages * 4096 + 1) { s with pmm := a.1 } ⟨a.2, vfsReadInitialPages, 0⟩).getD
      ({ s with pmm := a.1 }, none)

def vfsReadFileFree (s : Vm) (b : FileBuffer) : Vm := { s with pmm := pmmFreePages s.pmm b.phys b.pages }

/-- The buffer and what lies around it, as `elf_load` sees it through its pointer. -/
def bufferData (mem : PhysMem) (b : FileBuffer) : ElfData := fun i =>
  let a := (b.phys * 4096 + i.toNat) % 2 ^ 64
  byteAt (mem (a / 4096)) (a % 4096)

/-! userstack.c. The stack's frames are contiguous and page aligned in the HHDM window
too, so places in it are offsets from its base. -/

def maxStackArgs : Nat := 8
def maxStackEnvs : Nat := 16
def auxvEntries : Nat := 6

def xorshift64 (x : Word) : Word :=
  let x := x ^^^ (x <<< 13)
  let x := x ^^^ (x >>> 7)
  x ^^^ (x <<< 17)

def wordBytes (w : Word) : List (BitVec 8) := (List.range 8).map fun j => (w >>> (8 * j)).setWidth 8

/-- The string loops: from the last string down, each with its NUL below what is there.
The result also has the offset of each string, first to last. -/
def placeStrings (phys : Nat) : List (List (BitVec 8)) → PhysMem → Nat → PhysMem × Nat × List Nat
  | [], mem, top => (mem, top, [])
  | s :: rest, mem, top =>
    let r := placeStrings phys rest mem top
    let o := r.2.1 - (s.length + 1)
    (fillBuffer r.1 phys o (s ++ [0]), o, o :: r.2.2)

/-- What `elf_load` and the random seed contribute to the auxiliary vector. -/
structure AuxInfo where
  entry : Word
  phdrVaddr : Word
  phentsize : Nat
  phnum : Nat
  seed : Word

/-- `argc`, the pointers with their NULLs, and the auxiliary vector. -/
def stackWords (argc : Nat) (argv envp : List Word) (aux : AuxInfo) (random : Word) : List Word :=
  [BitVec.ofNat 64 argc] ++ argv ++ [0#64] ++ envp ++ [0#64] ++
    [3#64, aux.phdrVaddr, 4#64, BitVec.ofNat 64 aux.phentsize, 5#64, BitVec.ofNat 64 aux.phnum,
      6#64, 4096#64, 9#64, aux.entry, 25#64, random, 0#64, 0#64]

/-- `build_initial_stack` on `size` bytes of stack, and the initial stack pointer. -/
def buildInitialStack (phys : Nat) (base : Word) (size : Nat) (argv envp : List (List (BitVec 8)))
    (aux : AuxInfo) (mem : PhysMem) : PhysMem × Word :=
  let argv := argv.take maxStackArgs
  let envp := envp.take maxStackEnvs
  let user := fun o : Nat => base + BitVec.ofNat 64 o
  let a := placeStrings phys argv mem size
  let e := placeStrings phys envp a.1 a.2.1
  let random := e.2.1 - 16
  let first := xorshift64 aux.seed
  let mem := fillBuffer e.1 phys random (wordBytes first ++ wordBytes (xorshift64 first))
  let words := stackWords argv.length (a.2.2.map user) (e.2.2.map user) aux (user random)
  let start := random / 8 * 8 - (1 + (argv.length + 1) + (envp.length + 1) + (auxvEntries + 1) * 2) * 8
  let start := if start % 16 ≠ 0 then start - 8 else start
  (fillBuffer mem phys start (words.flatMap wordBytes), user start)

/-! exec.c -/

/-- The registers `do_exec` loads. -/
structure Cpu where
  cr3 : Nat
  fsBase : Word

structure Caller where
  kernel : Kernel
  cpu : Cpu
  frame : TrapFrame

def Caller.setVm (c : Caller) (s : Vm) : Caller := { c with kernel := { c.kernel with vm := s } }

def gdtUserData : Word := 0x23#64
def gdtUserCode : Word := 0x2b#64

def TrapFrame.started (f : TrapFrame) (entry rsp : Word) : TrapFrame :=
  { f with
    rax := 0#64, rbx := 0#64, rcx := 0#64, rdx := 0#64, rsi := 0#64, rdi := 0#64, rbp := 0#64
    r8 := 0#64, r9 := 0#64, r10 := 0#64, r11 := 0#64, r12 := 0#64, r13 := 0#64, r14 := 0#64, r15 := 0#64
    rip := entry, rsp := rsp, cs := gdtUserCode, ss := gdtUserData, rflags := f.rflags ||| 0x200#64 }

/-- The four pages of the stack, mapped below `USER_STACK_TOP`. -/
def mapStack (s : Vm) (pml4 phys : Nat) : Vm :=
  (List.range userStackPages).foldl (fun s i =>
    vmmMap4kIn s pml4 (pageOfRange userStackBase i) (phys + i) (pteWrite ||| pteUser)) s

/-- From the loaded image on: the stack, and then nothing can fail any more. -/
def execCommit (c : Caller) (p pml4 : Nat) (image : ElfImage) (argv envp : List (List (BitVec 8)))
    (seed : Word) : Caller × Int :=
  let s := c.kernel.vm
  let a := pmmAllocPages s.pmm userStackPages
  if a.2 = 0 then (c.setVm { s with pmm := a.1 }, -enomem)
  else
    let s := mapStack { s with pmm := a.1 } pml4 a.2
    let r := buildInitialStack a.2 userStackBase (userStackPages * 4096) argv envp
      ⟨image.entry, image.phdrVaddr, image.phentsize, image.phnum, seed⟩ s.mem
    let s := { s with mem := r.1 }
    let old := (c.kernel.procs p).pml4
    let k := { c.kernel with vm := s }.setProc p fun x =>
      { x with pml4 := pml4, heapStart := image.highestVaddr, heapEnd := image.highestVaddr, fsBase := 0#64 }
    ({ kernel := { k with vm := vmmDestroyAddressSpace s old }
       cpu := ⟨pml4, 0#64⟩
       frame := c.frame.started image.entry r.2 }, 0)

/-- What follows `elf_load`. -/
def execLoaded (c : Caller) (p pml4 : Nat) (image : Option ElfImage) (argv envp : List (List (BitVec 8)))
    (seed : Word) : Caller × Int :=
  match image with
  | none => (c, -enoexec)
  | some image => execCommit c p pml4 image argv envp seed

/-- The new address space with the program in it, if it could be loaded, and the buffer
given back. -/
def execSpace (s : Vm) (b : FileBuffer) : Vm × Nat × Option ElfImage :=
  let n := vmmNewAddressSpace s
  let l := elfLoad n.1 n.2 (bufferData n.1.mem b) (BitVec.ofNat 64 b.total)
  (vfsReadFileFree l.1 b, n.2, l.2)

def execFile (c : Caller) (p : Nat) (file : Vm → FileReader) (argv envp : List (List (BitVec 8)))
    (seed : Word) : Caller × Int :=
  let r := vfsReadFileAlloc file c.kernel.vm
  match r.2 with
  | none => (c.setVm r.1, -enoexec)
  | some b =>
    if b.total = 0 then (c.setVm (vfsReadFileFree r.1 b), -enoexec)
    else
      let l := execSpace r.1 b
      execLoaded (c.setVm l.1) p l.2.1 l.2.2 argv envp seed

section Exec

variable {F : Type} (fs : Foreign F) (elsewhere : F → Nat → FileReader)

/-- Whether `ops->read` is there. -/
def Files.readable (files : Files F) : Place → Bool
  | .tmp i => (files.tmp.nodes i).ops == .tmpfsFile
  | .foreign j => fs.reads j

/-- `ops->read` of a node. The pages of a tmpfs file are in the memory of the machine. -/
def Files.reader (files : Files F) (node : Place) (s : Vm) : FileReader :=
  match node with
  | .tmp i =>
    { read := fun count offset =>
        .ok (tmpfsFileRead { files with mem := s.mem } i (BitVec.ofNat 64 count) (BitVec.ofNat 64 offset))
      bounded := by
        intro count offset bytes h
        cases h
        unfold tmpfsFileRead
        dsimp only
        split
        · exact Nat.zero_le _
        · rw [List.length_map, List.length_range]
          have most : (BitVec.ofNat 64 count).toNat ≤ count := by
            rw [BitVec.toNat_ofNat]
            exact Nat.mod_le _ _
          split
          · exact most
          · rename_i wide
            rw [BitVec.lt_def] at wide
            omega }
  | .foreign j => elsewhere files.other j

/-- `do_exec`. The seed of the random bytes comes from the time stamp counter. -/
def doExec (c : Caller) (files : Files F) (path : List Char) (argv envp : List CString) (seed : Word) :
    Caller × Int :=
  let argv := stage maxExecArgs execArgMaxlen argv
  let envp := stage maxExecEnvs execEnvMaxlen envp
  match (c.kernel.tasks c.kernel.current).proc with
  | none => (c, -einval)
  | some p =>
    let proc := c.kernel.procs p
    match vfsResolvePathCwd fs files proc.cwd path with
    | none => (c, -enoent)
    | some node =>
      if files.readable fs node = false then (c, -eacces)
      else if vfsCheckPerm (files.ownerOf fs node) proc.uid proc.gid 1#64 = false then (c, -eacces)
      else execFile c p (files.reader elsewhere node) argv envp seed

end Exec

end Isunux
