import Isunux.Kernel

/-! How a process gets memory: `process_brk` and `process_mmap` of process.c and
the loader, elf.c. `process_munmap` is with the page tables. -/
namespace Isunux

def enodev : Int := 19

/-- A negative errno value in a 64-bit register. -/
def negated (e : Int) : Word := BitVec.ofInt 64 (-e)

/-- `(a + PAGE_SIZE - 1) & ~(PAGE_SIZE - 1)`. -/
def pageCeil (a : Word) : Word := (a + 4095#64) &&& ~~~ 0xFFF#64

/-- One round of the loops of `process_brk` and `process_mmap`: a zeroed page at
`v`, unless memory is out. -/
def mapZeroPage (s : Vm) (pml4 : Nat) (v flags : Word) : Vm × Bool :=
  let a := pmmAllocPage s.pmm
  if a.2 = 0 then ({ s with pmm := a.1 }, false)
  else
    (vmmMap4kIn { s with pmm := a.1, mem := zeroFrame s.mem a.2 } pml4 v a.2 flags, true)

theorem mapZeroPage_refused {s : Vm} (out : (pmmAllocPage s.pmm).2 = 0) (pml4 : Nat) (v flags : Word) :
    mapZeroPage s pml4 v flags = ({ s with pmm := (pmmAllocPage s.pmm).1 }, false) := by
  rw [mapZeroPage, if_pos out]

theorem mapZeroPage_given {s : Vm} (ok : (pmmAllocPage s.pmm).2 ≠ 0) (pml4 : Nat) (v flags : Word) :
    mapZeroPage s pml4 v flags = (vmmMap4kIn { s with
      pmm := (pmmAllocPage s.pmm).1, mem := zeroFrame s.mem (pmmAllocPage s.pmm).2 } pml4 v (pmmAllocPage s.pmm).2
        flags, true) := by
  rw [mapZeroPage, if_neg ok]

/-- Page `i` of a range. -/
def pageOfRange (base : Word) (i : Nat) : Word := base + BitVec.ofNat 64 (i * 4096)

/-- The loops themselves, from page `i` on, with the number of pages mapped when
they stop. -/
def mapZeroPages (pml4 : Nat) (base flags : Word) : Nat → Nat → Vm → Vm × Nat
  | 0, i, s => (s, i)
  | n + 1, i, s =>
    let r := mapZeroPage s pml4 (pageOfRange base i) flags
    if r.2 then mapZeroPages pml4 base flags n (i + 1) r.1 else (r.1, i)

/-- How many pages `process_brk` adds: the rounds from `old_top` up to `new_top`. -/
def brkPages (heapEnd newBrk : Word) : Nat :=
  ((pageCeil newBrk).toNat - (pageCeil heapEnd).toNat) / 4096

def processBrk (s : Vm) (p : Process) (newBrk : Word) : Vm × Process × Word :=
  if newBrk = 0#64 then (s, p, p.heapEnd)
  else if newBrk ≤ p.heapEnd then (s, p, p.heapEnd)
  else
    let pages := brkPages p.heapEnd newBrk
    let r := mapZeroPages p.pml4 (pageCeil p.heapEnd) (pteWrite ||| pteUser) pages 0 s
    -- out of memory: what was mapped stays and the break does not move
    if r.2 < pages then (r.1, p, p.heapEnd)
    else (r.1, { p with heapEnd := newBrk }, newBrk)

def protWrite : Word := 2#64
def mapAnonymous : Word := 0x20#64

/-- The address hint and the offset are ignored by the source. -/
def processMmap (s : Vm) (p : Process) (length prot flags : Word) (fd : Int) :
    Vm × Process × Word :=
  if length = 0#64 then (s, p, negated einval)
  else if !hasBits flags mapAnonymous || fd ≠ -1 then (s, p, negated enodev)
  else
    let pages := pagesOf length
    let base := p.mmapNext
    let pteFlags := if hasBits prot protWrite then pteUser ||| pteWrite else pteUser
    let r := mapZeroPages p.pml4 base pteFlags pages 0 s
    -- ran out partway through: the pages mapped so far are taken back
    if r.2 < pages then
      ((List.range r.2).foldl (munmapPage p.pml4 base) r.1, p, negated enomem)
    else (r.1, { p with mmapNext := base + BitVec.ofNat 64 (pages * 4096) }, base)

/-! elf.c. A file is read through a pointer, so what lies around it is read too:
the data is a byte for each 64-bit offset, of which the first `size` are the file. -/

abbrev ElfData := Word → BitVec 8

/-- A little-endian field of `n` bytes. -/
def field (data : ElfData) (at_ : Word) : Nat → Nat
  | 0 => 0
  | n + 1 => (data at_).toNat + 256 * field data (at_ + 1#64) n

def field64 (data : ElfData) (at_ : Word) : Word := BitVec.ofNat 64 (field data at_ 8)

def ePhoff (data : ElfData) : Word := field64 data 32#64
def eEntry (data : ElfData) : Word := field64 data 24#64
def ePhentsize (data : ElfData) : Nat := field data 54#64 2
def ePhnum (data : ElfData) : Nat := field data 56#64 2

def ptLoad : Nat := 1
def pfW : Word := 2#64

/-- The fields of `elf64_phdr_t` that the loader reads. -/
structure Phdr where
  type : Nat
  flags : Word
  offset : Word
  vaddr : Word
  filesz : Word
  memsz : Word

/-- Program header `i`. -/
def phdr (data : ElfData) (i : Nat) : Phdr :=
  let ph := ePhoff data + BitVec.ofNat 64 (i * ePhentsize data)
  { type := field data ph 4
    flags := BitVec.ofNat 64 (field data (ph + 4#64) 4)
    offset := field64 data (ph + 8#64)
    vaddr := field64 data (ph + 16#64)
    filesz := field64 data (ph + 32#64)
    memsz := field64 data (ph + 40#64) }

def Phdr.segStart (ph : Phdr) : Word := ph.vaddr &&& ~~~ 0xFFF#64
def Phdr.segEnd (ph : Phdr) : Word := pageCeil (ph.vaddr + ph.memsz)
def Phdr.offsetInFirstPage (ph : Phdr) : Word := ph.vaddr - ph.segStart
def Phdr.numPages (ph : Phdr) : Nat := (ph.segEnd - ph.segStart).toNat / 4096

/-- The header checks of `elf_load`, each of which rejects the file. -/
def elfAccepted (data : ElfData) (size : Word) : Bool :=
  !decide (size < 64#64) &&
  (data 0#64 == 0x7f && data 1#64 == 0x45 && data 2#64 == 0x4c && data 3#64 == 0x46) &&
  data 4#64 == 2 &&
  field data 18#64 2 == 0x3e &&
  !decide (size < ePhoff data + BitVec.ofNat 64 (ePhnum data * ePhentsize data))

/-- The byte copy loop: `filesz` bytes from the file to the frames from `phys` on.
It is not held to the pages that were allocated. -/
def copySegment (data : ElfData) (ph : Phdr) (phys : Nat) (mem : PhysMem) : PhysMem :=
  (List.range ph.filesz.toNat).foldl (fun mem b =>
    let o := ph.offsetInFirstPage.toNat + b
    storeByte mem (phys + o / 4096) (o % 4096) (data (ph.offset + BitVec.ofNat 64 b))) mem

def mapSegment (pml4 : Nat) (ph : Phdr) (phys : Nat) (s : Vm) : Vm :=
  let flags := if hasBits ph.flags pfW then pteUser ||| pteWrite else pteUser
  (List.range ph.numPages).foldl (fun s p =>
    vmmMap4kIn s pml4 (pageOfRange ph.segStart p) (phys + p) flags) s

/-- The body of the segment loop for a loadable header. The flag is false when
memory is out. -/
def loadSegment (data : ElfData) (pml4 : Nat) (ph : Phdr) (s : Vm) : Vm × Bool :=
  let a := pmmAllocPages s.pmm ph.numPages
  if a.2 = 0 then ({ s with pmm := a.1 }, false)
  else
    let zeroed := (List.range ph.numPages).foldl (fun mem p => zeroFrame mem (a.2 + p)) s.mem
    (mapSegment pml4 ph a.2 { s with pmm := a.1, mem := copySegment data ph a.2 zeroed }, true)

/-- What the loop keeps from one header to the next. -/
structure ElfProgress where
  vm : Vm
  highestEnd : Word
  phdrVaddr : Word

/-- The segment loop over `n` headers from `i` on. The flag tells whether it ran to
its end. -/
def loadSegments (data : ElfData) (pml4 : Nat) : Nat → Nat → ElfProgress → ElfProgress × Bool
  | 0, _, st => (st, true)
  | n + 1, i, st =>
    let ph := phdr data i
    if ph.type ≠ ptLoad ∨ ph.memsz = 0#64 then loadSegments data pml4 n (i + 1) st
    else
      let phdrVaddr := if ph.offset = 0#64 then ph.vaddr + ePhoff data else st.phdrVaddr
      let r := loadSegment data pml4 ph st.vm
      if r.2 then
        let highestEnd := if st.highestEnd < ph.segEnd then ph.segEnd else st.highestEnd
        loadSegments data pml4 n (i + 1) ⟨r.1, highestEnd, phdrVaddr⟩
      else (⟨r.1, st.highestEnd, phdrVaddr⟩, false)

/-- What `elf_load` hands back through its out pointers. -/
structure ElfImage where
  entry : Word
  highestVaddr : Word
  phdrVaddr : Word
  phentsize : Nat
  phnum : Nat

def elfLoad (s : Vm) (pml4 : Nat) (data : ElfData) (size : Word) : Vm × Option ElfImage :=
  if elfAccepted data size then
    let r := loadSegments data pml4 (ePhnum data) 0 ⟨s, 0#64, 0#64⟩
    (r.1.vm, if r.2 then
      some ⟨eEntry data, r.1.highestEnd, r.1.phdrVaddr, ePhentsize data, ePhnum data⟩ else none)
  else (s, none)

end Isunux
