import Isunux.Pmm

/-! Four-level paging, vmm.c, with the copy-on-write fault path of exceptions.c
and `process_munmap`. The TLB is not modelled: every change to a live entry is
followed in the source by `invlpg` or a CR3 reload. The accessed and dirty bits,
which no code here reads, are left out. -/
namespace Isunux

structure Vm where
  pmm : Pmm
  mem : PhysMem
  kernelPml4 : Nat

def pml4Idx (v : Word) : Nat := ((v >>> 39) &&& 0x1FF#64).toNat
def pdptIdx (v : Word) : Nat := ((v >>> 30) &&& 0x1FF#64).toNat
def pdIdx (v : Word) : Nat := ((v >>> 21) &&& 0x1FF#64).toNat
def ptIdx (v : Word) : Nat := ((v >>> 12) &&& 0x1FF#64).toNat

/-- `(i << 39) | (j << 30) | (k << 21) | (l << 12)`. -/
def mkVaddr (i j k l : Nat) : Word :=
  (BitVec.ofNat 64 i <<< 39) ||| (BitVec.ofNat 64 j <<< 30) |||
    (BitVec.ofNat 64 k <<< 21) ||| (BitVec.ofNat 64 l <<< 12)

/-- What `get_or_create_table` stores for a new table. -/
def tableEntry (f : Nat) : Word := pageAddr f ||| (ptePresent ||| pteWrite ||| pteUser)

/-- `get_or_create_table` on slot `i` of table `f`. The failure value of the
allocator is not checked here, as in the source. -/
def getOrCreateTable (s : Vm) (f i : Nat) : Vm × Nat :=
  if hasBits (s.mem f i) ptePresent then (s, pteFrame (s.mem f i))
  else
    let a := pmmAllocPage s.pmm
    ({ s with pmm := a.1, mem := Radix.put (zeroFrame s.mem a.2) f i (tableEntry a.2) }, a.2)

def vmmMap4kIn (s : Vm) (pml4 : Nat) (vaddr : Word) (frame : Nat) (flags : Word) : Vm :=
  let a := getOrCreateTable s pml4 (pml4Idx vaddr)
  let b := getOrCreateTable a.1 a.2 (pdptIdx vaddr)
  let c := getOrCreateTable b.1 b.2 (pdIdx vaddr)
  { c.1 with mem := Radix.put c.1.mem c.2 (ptIdx vaddr) (pageAddr frame ||| (flags ||| ptePresent)) }

/-- A zeroed PML4 that shares the kernel's entries 256 to 511. -/
def vmmNewAddressSpace (s : Vm) : Vm × Nat :=
  let a := pmmAllocPage s.pmm
  let mem := zeroFrame s.mem a.2
  ({ s with
      pmm := a.1
      mem := Function.update mem a.2 fun i =>
        if 256 ≤ i ∧ i < 512 then mem s.kernelPml4 i else mem a.2 i }, a.2)

/-- The slot holding the leaf entry of `v`, if every level is present. -/
def vmmGetPte (mem : PhysMem) (pml4 : Nat) (v : Word) : Option (Nat × Nat) :=
  (pteChild (mem pml4 (pml4Idx v))).bind fun pdpt =>
  (pteChild (mem pdpt (pdptIdx v))).bind fun pd =>
  (pteChild (mem pd (pdIdx v))).bind fun pt =>
  if hasBits (mem pd (pdIdx v)) pteHuge then none
  else if hasBits (mem pt (ptIdx v)) ptePresent then some (pt, ptIdx v) else none

/-! `vmm_destroy_address_space`, one definition per loop, innermost first. -/

def destroyPt (mem : PhysMem) (pt : Nat) (p : Pmm) : Pmm :=
  (List.range 512).foldl (fun p l =>
    if hasBits (mem pt l) ptePresent then pmmFreePage p (pteFrame (mem pt l)) else p) p

def destroyPd (mem : PhysMem) (pd : Nat) (p : Pmm) : Pmm :=
  (List.range 512).foldl (fun p k =>
    if hasBits (mem pd k) ptePresent then
      if hasBits (mem pd k) pteHuge then p
      else pmmFreePage (destroyPt mem (pteFrame (mem pd k)) p) (pteFrame (mem pd k))
    else p) p

def destroyPdpt (mem : PhysMem) (pdpt : Nat) (p : Pmm) : Pmm :=
  (List.range 512).foldl (fun p j =>
    if hasBits (mem pdpt j) ptePresent then
      pmmFreePage (destroyPd mem (pteFrame (mem pdpt j)) p) (pteFrame (mem pdpt j))
    else p) p

def vmmDestroyAddressSpace (s : Vm) (pml4 : Nat) : Vm :=
  let p := (List.range 256).foldl (fun p i =>
    if hasBits (s.mem pml4 i) ptePresent then
      pmmFreePage (destroyPdpt s.mem (pteFrame (s.mem pml4 i)) p) (pteFrame (s.mem pml4 i))
    else p) s.pmm
  { s with pmm := pmmFreePage p pml4 }

/-! `vmm_clone_lower_half`, likewise. -/

/-- The body of the innermost loop. -/
def cloneLeaf (dest i j k pt : Nat) (s : Vm) (l : Nat) : Vm :=
  let e := s.mem pt l
  if hasBits e ptePresent then
    let srcPhys := pteFrame e
    let downgraded := (pteFlags e &&& ~~~ pteWrite) ||| pteCow
    let shared : Vm × Word :=
      if hasBits (pteFlags e) pteWrite then
        ({ s with mem := Radix.put s.mem pt l (pageAddr srcPhys ||| (downgraded ||| ptePresent)) },
          downgraded)
      else (s, pteFlags e)
    vmmMap4kIn { shared.1 with pmm := pmmPageRef shared.1.pmm srcPhys } dest (mkVaddr i j k l)
      srcPhys shared.2
  else s

def clonePd (dest i j pd : Nat) (s : Vm) (k : Nat) : Vm :=
  if hasBits (s.mem pd k) ptePresent then
    if hasBits (s.mem pd k) pteHuge then s
    else (List.range 512).foldl (cloneLeaf dest i j k (pteFrame (s.mem pd k))) s
  else s

def clonePdpt (dest i pdpt : Nat) (s : Vm) (j : Nat) : Vm :=
  if hasBits (s.mem pdpt j) ptePresent then
    (List.range 512).foldl (clonePd dest i j (pteFrame (s.mem pdpt j))) s
  else s

def clonePml4 (dest src : Nat) (s : Vm) (i : Nat) : Vm :=
  if hasBits (s.mem src i) ptePresent then
    (List.range 512).foldl (clonePdpt dest i (pteFrame (s.mem src i))) s
  else s

def vmmCloneLowerHalf (s : Vm) (dest src : Nat) : Vm :=
  (List.range 256).foldl (clonePml4 dest src) s

/-! exceptions.c -/

def pfErrPresent : Word := 1#64
def pfErrWrite : Word := 2#64

/-- `try_handle_cow_fault`. `proc` is the PML4 of the current process, if any. -/
def tryHandleCowFault (s : Vm) (proc : Option Nat) (cr2 errCode : Word) : Vm × Bool :=
  if !hasBits errCode pfErrPresent || !hasBits errCode pfErrWrite then (s, false)
  else
    match proc with
    | none => (s, false)
    | some pml4 =>
      match vmmGetPte s.mem pml4 cr2 with
      | none => (s, false)
      | some (pt, l) =>
        if !hasBits (s.mem pt l) pteCow then (s, false)
        else
          let phys := pteFrame (s.mem pt l)
          let writable := ptePresent ||| pteWrite ||| pteUser
          if pmmPageRefcount s.pmm phys ≤ 1 then
            ({ s with mem := Radix.put s.mem pt l (pageAddr phys ||| writable) }, true)
          else
            let a := pmmAllocPage s.pmm
            if a.2 = 0 then ({ s with pmm := a.1 }, false)
            else
              let mem := copyFrame s.mem a.2 phys
              ({ s with
                  pmm := pmmFreePage a.1 phys
                  mem := Radix.put mem pt l (pageAddr a.2 ||| writable) }, true)

/-! Ring-3 accesses: the hardware walk, which needs present and user bits at every
level. Addresses outside the low half are never user accessible. -/

def userChild (e : Word) : Option Nat :=
  if hasBits e ptePresent && hasBits e pteUser then some (pteFrame e) else none

def lowHalf (v : Word) : Bool := v.toNat < 2 ^ 47

/-- The leaf entry the processor finds for a ring-3 access. -/
def userLeaf (mem : PhysMem) (pml4 : Nat) (v : Word) : Option Word :=
  if lowHalf v then
    (userChild (mem pml4 (pml4Idx v))).bind fun pdpt =>
    (userChild (mem pdpt (pdptIdx v))).bind fun pd =>
    (userChild (mem pd (pdIdx v))).bind fun pt =>
    if hasBits (mem pd (pdIdx v)) pteHuge then none
    else (userChild (mem pt (ptIdx v))).map fun _ => mem pt (ptIdx v)
  else none

def pageOffset (v : Word) : Nat := v.toNat % 4096

/-- A byte load, or nothing on a fatal fault. -/
def userRead (s : Vm) (pml4 : Nat) (v : Word) : Option (BitVec 8) :=
  (userLeaf s.mem pml4 v).map fun e => byteAt (s.mem (pteFrame e)) (pageOffset v)

/-- A byte store that does not fault, or nothing. -/
def userStore (s : Vm) (pml4 : Nat) (v : Word) (b : BitVec 8) : Option Vm :=
  (userLeaf s.mem pml4 v).bind fun e =>
    if hasBits e pteWrite then
      some { s with mem := storeByte s.mem (pteFrame e) (pageOffset v) b }
    else none

/-- A byte store: on a fault `exception_handler` tries the copy-on-write path and
the instruction is retried if that succeeded. -/
def userWrite (s : Vm) (pml4 : Nat) (v : Word) (b : BitVec 8) : Vm × Bool :=
  match userStore s pml4 v b with
  | some t => (t, true)
  | none =>
    -- error code: page present or not, write access, ring 3
    let err := (if (userLeaf s.mem pml4 v).isSome then pfErrPresent else 0#64) ||| pfErrWrite ||| 4#64
    let fault := tryHandleCowFault s (some pml4) v err
    if fault.2 then
      match userStore fault.1 pml4 v b with
      | some t => (t, true)
      | none => (fault.1, false)
    else (fault.1, false)

/-- One round of the loop of `process_munmap`. -/
def munmapPage (pml4 : Nat) (addr : Word) (s : Vm) (i : Nat) : Vm :=
  match vmmGetPte s.mem pml4 (addr + BitVec.ofNat 64 (i * 4096)) with
  | none => s
  | some (pt, l) =>
    if hasBits (s.mem pt l) ptePresent then
      { s with
        pmm := pmmFreePage s.pmm (pteFrame (s.mem pt l))
        mem := Radix.put s.mem pt l 0#64 }
    else s

/-- `(length + PAGE_SIZE - 1) / PAGE_SIZE` in 64-bit arithmetic. -/
def pagesOf (length : Word) : Nat := (length + 4095#64).toNat / 4096

def processMunmap (s : Vm) (pml4 : Nat) (addr length : Word) : Vm :=
  if length = 0#64 then s else (List.range (pagesOf length)).foldl (munmapPage pml4 addr) s

end Isunux
