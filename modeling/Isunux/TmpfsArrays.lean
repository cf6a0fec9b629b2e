import Isunux.TmpfsBytes

/-! One tmpfs file over a whole run. The events of the file are what its readers and
writers see; the byte array they have to agree with starts out empty. -/
namespace Isunux

open Bytes

inductive FileEvent where
  | quiet
  | read (offset count : Nat) (got : List (BitVec 8)) (result : Int)
  | write (offset : Nat) (src : Nat → BitVec 8) (count : Nat) (refused : Bool) (result : Int)
  -- the call does not return
  | hung

/-- The events are those of a byte array that is `c` before and `c'` after them. -/
def Behaves : List (BitVec 8) → List FileEvent → List (BitVec 8) → Prop
  | c, [], c' => c' = c
  | c, .quiet :: rest, c' => Behaves c rest c'
  | c, .read offset count got result :: rest, c' =>
    offset ≤ c.length ∧ got = slice c offset count ∧ result = got.length ∧ Behaves c rest c'
  | c, .write offset src count refused result :: rest, c' =>
    offset ≤ c.length ∧ ∃ m, m ≤ count ∧ result = (m : Int) ∧ (m = count ∨ refused = true) ∧
      Behaves (splice c offset (table m src)) rest c'
  | _, .hung :: _, _ => False

theorem Behaves.cons {c c₁ c' : List (BitVec 8)} {e : FileEvent} {rest : List FileEvent}
    (first : Behaves c [e] c₁) (next : Behaves c₁ rest c') : Behaves c (e :: rest) c' := by
  cases e with
  | quiet =>
    obtain rfl : c₁ = c := first
    exact next
  | read offset count got result =>
    obtain ⟨inside, bytes, length, same⟩ := first
    obtain rfl : c₁ = c := same
    exact ⟨inside, bytes, length, next⟩
  | write offset src count refused result =>
    obtain ⟨inside, m, atMost, length, whole, same⟩ := first
    obtain rfl : c₁ = _ := same
    exact ⟨inside, m, atMost, length, whole, next⟩
  | hung => exact absurd first id

/-- The bytes that a read has handed out. -/
def FileEvent.fetched : FileEvent → List (BitVec 8)
  | .read _ _ got _ => got
  | _ => []

/-- The bytes that a write has placed. -/
def FileEvent.placed : FileEvent → List (BitVec 8)
  | .write _ src _ _ result => table result.toNat src
  | _ => []

theorem Behaves.source {c c' : List (BitVec 8)} {events : List FileEvent} (h : Behaves c events c')
    {b : BitVec 8} (here : b ∈ events.flatMap FileEvent.fetched) :
    b ∈ c ∨ b ∈ events.flatMap FileEvent.placed := by
  induction events generalizing c with
  | nil => cases here
  | cons e rest ih =>
    rw [List.flatMap_cons, List.mem_append] at here ⊢
    cases e with
    | quiet => exact (ih h (here.resolve_left List.not_mem_nil)).imp_right .inr
    | read offset count got result =>
      obtain ⟨-, bytes, -, next⟩ := h
      rcases here with now | later
      · rw [FileEvent.fetched, bytes] at now
        exact .inl (List.mem_of_mem_drop (List.mem_of_mem_take now))
      · exact (ih next later).imp_right .inr
    | write offset src count refused result =>
      obtain ⟨-, m, -, rfl, -, next⟩ := h
      rcases ih next (here.resolve_left List.not_mem_nil) with old | written
      · simp only [splice, List.mem_append] at old
        rcases old with (old | new) | old
        · exact .inl (List.mem_of_mem_take old)
        · exact .inr (.inl new)
        · exact .inl (List.mem_of_mem_drop old)
      · exact .inr (.inr written)
    | hung => exact absurd h id

section Events

variable {F : Type} (fs : Foreign F) (transferElsewhere : F → Vnode → Word → Word → F × Int)

/-- What one step does with the file in slot `i`. -/
def fileEvent (w : Store F) (i : Nat) (op : StoreOp F) : FileEvent :=
  match op with
  | .read p fd count =>
    match processRead (vfsTree fs) w.kernel w.files p fd with
    | .performs v offset =>
      if tmpfsFile v = some i then
        match (storeStep fs transferElsewhere w op).2 with
        | some (n, bytes) => .read offset.toNat count.toNat bytes n
        | none => .hung
      else .quiet
    | _ => .quiet
  | .write p fd src count =>
    match processWrite (vfsTree fs) w.kernel w.files p fd with
    | .performs v offset =>
      if tmpfsFile v = some i then
        match (storeStep fs transferElsewhere w op).2 with
        | some (n, _) => .write offset.toNat src count.toNat (refusesGrowth w.files i count offset) n
        | none => .hung
      else .quiet
    | _ => .quiet
  | .seedFile d name src count _ =>
    if w.files.tmp.isDir d then
      match tmpfsCreateFile w.files d name with
      | (s, some j) =>
        if j = i then
          match tmpfsFileWrite s i src count 0#64 with
          | some (_, n) => .write 0 src count.toNat (refusesGrowth s i count 0#64) n
          | none => .hung
        else .quiet
      | (_, none) => .quiet
    else .quiet
  | _ => .quiet

def fileEvents (i : Nat) : Store F → List (StoreOp F) → List FileEvent
  | _, [] => []
  | w, op :: rest => fileEvent fs transferElsewhere w i op :: fileEvents i (storeStep fs transferElsewhere w op).1 rest

/-- The bytes of the file in slot `i`, none before it is made. -/
def Store.bytes (w : Store F) (i : Nat) : List (BitVec 8) :=
  if i < w.files.tmp.count ∧ (w.files.tmp.nodes i).type = .file then contents w.files i else []

def Short (w : Store F) : StoreOp F → Prop
  | .write p fd _ count => ((w.kernel.procs p).fds fd).offset.toNat + count.toNat < 2 ^ 63
  | .seedFile _ _ _ count _ => count.toNat < 2 ^ 63
  | _ => True

/-- The state a step is in when it has made its file, if it makes one. -/
def onceMade (w : Store F) : StoreOp F → Store F
  | .seedFile d name _ _ _ =>
    if w.files.tmp.isDir d then w.setFiles (tmpfsCreateFile w.files d name).1 else w
  | op => (storeStep fs transferElsewhere w op).1

/-- If the file in slot `i` is new, it has got its first page. -/
def FirstPage (w w' : Store F) (i : Nat) : Prop :=
  w.files.tmp.count ≤ i → i < w'.files.tmp.count → (w'.files.tmp.nodes i).type = .file →
    (w'.files.tmp.nodes i).data ≠ some 0

/-- The file in slot `i` gets its first page and is neither unlinked nor truncated. -/
structure Kept (i : Nat) (w : Store F) (op : StoreOp F) : Prop where
  short : Short w op
  stays : ¬ Gone fs w op i
  page : FirstPage w (onceMade fs transferElsewhere w op) i

instance (w : Store F) (op : StoreOp F) : Decidable (Short w op) :=
  match op with
  | .write _ _ _ _ | .seedFile _ _ _ _ _ => inferInstanceAs (Decidable (_ < _))
  | .call _ | .read _ _ _ | .create _ _ | .mkdir _ _ | .unlink _ _ | .chdir _ _ | .seedDir _ _ | .install _ _
  | .takePage | .takePages _ | .sharePage _ | .givePage _ | .fillPage _ _ | .elsewhere _ => isTrue trivial

instance (w : Store F) (op : StoreOp F) (i : Nat) : Decidable (Gone fs w op i) :=
  match op with
  | .unlink _ _ => inferInstanceAs (Decidable (_ = _))
  | .call (.opens _ _ _) => inferInstanceAs (Decidable (_ ∧ _))
  | .call (.spawn _ _ _) | .call (.pipe _) | .call (.dup2 _ _ _) | .call (.close _ _) | .call (.fork _ _)
  | .call (.terminate _ _ _) | .call (.reap _) | .write _ _ _ _ | .seedFile _ _ _ _ _ | .read _ _ _
  | .create _ _ | .mkdir _ _ | .chdir _ _ | .seedDir _ _ | .install _ _ | .takePage | .takePages _
  | .sharePage _ | .givePage _ | .fillPage _ _ | .elsewhere _ => isFalse id

instance (w w' : Store F) (i : Nat) : Decidable (FirstPage w w' i) :=
  inferInstanceAs (Decidable (_ → _ → _ → _ ≠ _))

instance (i : Nat) (w : Store F) (op : StoreOp F) : Decidable (Kept fs transferElsewhere i w op) :=
  decidable_of_iff
    (Short w op ∧ ¬ Gone fs w op i ∧ FirstPage w (onceMade fs transferElsewhere w op) i)
    ⟨fun h => ⟨h.1, h.2.1, h.2.2⟩, fun h => ⟨h.short, h.stays, h.page⟩⟩

/-- Neither is any other file while a descriptor refers to it. -/
structure Gentle (i : Nat) (w : Store F) (op : StoreOp F) : Prop extends Kept fs transferElsewhere i w op where
  spares : Spares fs w op

/-- No descriptor is past the end of its file. -/
def WithinSize (s : Files F) (k : Kernel) : Prop :=
  ∀ p fd j, j < tmpfsMaxNodes → ((k.procs p).fds fd).used = true →
    ((k.procs p).fds fd).node = some (.node (fileId j)) →
    ((k.procs p).fds fd).offset.toNat ≤ (s.tmp.nodes j).size.toNat

structure ArrayInv (i : Nat) (w : Store F) (kids : Nat → List Nat) : Prop where
  stored : Stored w.files kids (Referenced w.kernel) w.lent
  fits : ∀ j, j < w.files.tmp.count → (w.files.tmp.nodes j).Fits
  within : WithinSize w.files w.kernel
  linked : i < w.files.tmp.count → (w.files.tmp.nodes i).type = .file →
    (∃ d, i ∈ kids d) ∧ (w.files.tmp.nodes i).data ≠ some 0

end Events

section Steps

variable {F : Type} {fs : Foreign F} {transferElsewhere : F → Vnode → Word → Word → F × Int}
  {i : Nat} {w w' : Store F} {kids kids' : Nat → List Nat} {gone : Nat → Prop}

theorem WithinSize.descends {s s' : Files F} {k k' : Kernel} (h : WithinSize s k) (descends : Descends k k')
    (sizes : ∀ j, Referenced k j → (s'.tmp.nodes j).size = (s.tmp.nodes j).size) : WithinSize s' k' := by
  intro p fd j low used node
  obtain ⟨p₀, fd₀, used₀, node₀, offset⟩ := descends p fd (fileId j) (by unfold fileId; omega) used node
  rw [sizes j ⟨low, p₀, fd₀, used₀, node₀⟩]
  rcases offset with same | zero
  · rw [same]
    exact h p₀ fd₀ j low used₀ node₀
  · rw [zero]
    exact Nat.zero_le _

theorem WithinSize.mono {s s' : Files F} {k : Kernel} (h : WithinSize s k)
    (larger : ∀ j, Referenced k j → (s.tmp.nodes j).size.toNat ≤ (s'.tmp.nodes j).size.toNat) :
    WithinSize s' k :=
  fun p fd j low used node => (h p fd j low used node).trans (larger j ⟨low, p, fd, used, node⟩)

theorem ArrayInv.live (inv : ArrayInv i w kids) (bound : i < w.files.tmp.count)
    (type : (w.files.tmp.nodes i).type = .file) : Live w.files.tmp kids (Referenced w.kernel) i :=
  ⟨type, .inl (inv.linked bound type).1⟩

theorem ArrayInv.carried (inv : ArrayInv i w kids)
    (stored : Stored w'.files kids' (Referenced w'.kernel) w'.lent)
    (carried : Carried gone w.files kids w'.files kids') (within : WithinSize w'.files w'.kernel)
    (stays : ¬ gone i) (page : FirstPage w w' i) :
    ArrayInv i w' kids' ∧ w'.bytes i = w.bytes i := by
  refine ⟨⟨stored, fun j bound => ?_, within, fun bound type => ?_⟩, ?_⟩
  · by_cases old : j < w.files.tmp.count
    · obtain ⟨-, -, size, capacity⟩ := carried.old j old
      unfold TmpfsNode.Fits
      rw [size, capacity]
      exact inv.fits j old
    · unfold TmpfsNode.Fits
      rw [(carried.new j (Nat.le_of_not_lt old) bound).1]
      exact Nat.zero_le _
  · by_cases old : i < w.files.tmp.count
    · obtain ⟨sameType, data, -, -⟩ := carried.old i old
      rw [sameType] at type
      obtain ⟨listed, backed⟩ := inv.linked old type
      exact ⟨carried.linked i listed stays, data ▸ backed⟩
    · have new := Nat.le_of_not_lt old
      exact ⟨(carried.new i new bound).2, page new bound type⟩
  · unfold Store.bytes
    by_cases old : i < w.files.tmp.count
    · obtain ⟨type, data, size, -⟩ := carried.old i old
      have bound := old.trans_le carried.count
      simp only [old, bound, type, true_and]
      unfold contents
      rw [size, data, carried.mem]
    · have none : ¬ (i < w.files.tmp.count ∧ (w.files.tmp.nodes i).type = .file) := fun both => old both.1
      rw [if_neg none]
      split
      · rename_i both
        unfold contents
        rw [(carried.new i (Nat.le_of_not_lt old) both.1).1]
        rfl
      · rfl

theorem sizes_carried (inv : ArrayInv i w kids) (carried : Carried gone w.files kids w'.files kids') (j : Nat)
    (ref : Referenced w.kernel j) : (w'.files.tmp.nodes j).size = (w.files.tmp.nodes j).size :=
  (carried.old j (inv.stored.refs j ref).1).2.2.1

theorem ArrayInv.plain (inv : ArrayInv i w kids)
    (stored : Stored w'.files kids' (Referenced w'.kernel) w'.lent)
    (carried : Carried gone w.files kids w'.files kids') (descends : Descends w.kernel w'.kernel)
    (stays : ¬ gone i) (page : FirstPage w w' i) :
    (∃ kids', ArrayInv i w' kids') ∧ w'.bytes i = w.bytes i := by
  have within : WithinSize w'.files w'.kernel :=
    inv.within.descends descends fun j ref => sizes_carried inv carried j ref
  obtain ⟨inv', same⟩ := inv.carried stored carried within stays page
  exact ⟨⟨kids', inv'⟩, same⟩

theorem processOpen_start (fs : Foreign F) (k : Kernel) (s : Files F) (p : Nat) (path : List Char) (flags : Nat) :
    (processOpen (vfsTree fs) k s p path flags).1 = k ∨
    ∃ id fd start, (processOpen (vfsTree fs) k s p path flags).1 =
        k.setFd p fd ⟨some (.node id), start, true, flags &&& oAccmode⟩ ∧
      ∀ j, j < tmpfsMaxNodes → id = fileId j →
        start.toNat ≤ ((locate (vfsTree fs) s (k.procs p) path flags).1.tmp.nodes j).size.toNat := by
  unfold processOpen
  split
  · exact .inl rfl
  · rename_i s' id found
    rw [found]
    simp only [installFd]
    split
    · exact .inl rfl
    split
    · exact .inl rfl
    split
    · exact .inl rfl
    · rename_i fd _
      refine .inr ⟨id, fd, _, rfl, ?_⟩
      rintro j low rfl
      have isFile : isFileId (fileId j) = true := by simp [isFileId, fileId]; omega
      have place : placeOf (fileId j) = .tmp j := by
        unfold placeOf fileId
        rw [if_pos (by omega), Nat.mul_div_cancel_left j Nat.two_pos]
      simp only [vfsTree, place, isFile, if_true, Option.getD_some]
      split
      · exact le_rfl
      · exact Nat.zero_le _

theorem opens_within (inv : ArrayInv i w kids) {p flags : Nat} {path : List Char}
    (carried : Carried gone w.files kids
      ({ w with fds := (fdStep (vfsTree fs) w.fds (.opens p path flags)).1 } : Store F).files kids') :
    WithinSize (fdStep (vfsTree fs) w.fds (.opens p path flags)).1.files
      (fdStep (vfsTree fs) w.fds (.opens p path flags)).1.kernel := by
  have files : (fdStep (vfsTree fs) w.fds (.opens p path flags)).1.files =
      (locate (vfsTree fs) w.files (w.kernel.procs p) path flags).1 := processOpen_files w.kernel w.files
  have old : WithinSize (fdStep (vfsTree fs) w.fds (.opens p path flags)).1.files w.kernel :=
    inv.within.descends (FewerFds.descends fun _ _ _ => rfl) fun j ref => sizes_carried inv carried j ref
  rcases processOpen_start fs w.kernel w.files p path flags with
    same | ⟨id, fd, start, kernel, inside⟩
  · rw [show (fdStep (vfsTree fs) w.fds (.opens p path flags)).1.kernel = w.kernel from same]
    exact old
  · rw [show (fdStep (vfsTree fs) w.fds (.opens p path flags)).1.kernel = _ from kernel]
    intro p' fd' j low used node
    rw [setFd_fds] at used node ⊢
    by_cases here : p' = p ∧ fd' = fd
    · rw [if_pos here] at node ⊢
      injection node with node
      injection node with node
      rw [files]
      exact inside j low node
    · rw [if_neg here] at used node ⊢
      exact old p' fd' j low used node

theorem contents_length (s : Files F) (i : Nat) : (contents s i).length = (s.tmp.nodes i).size.toNat :=
  table_length _ _

theorem ArrayInv.size_small (inv : ArrayInv i w kids) {j : Nat} (ref : Referenced w.kernel j) :
    (w.files.tmp.nodes j).size.toNat < 2 ^ 63 := by
  have sized := inv.stored.sized j (inv.stored.referenced ref)
  have fits := inv.fits j (inv.stored.refs j ref).1
  have few := sized.few
  unfold TmpfsNode.Fits at fits
  rw [sized.whole] at fits
  simp only [maxPages] at few
  omega

theorem advanceOffset_toNat {offset : Word} {m : Nat} (small : offset.toNat + m < 2 ^ 64) :
    (offset + BitVec.ofInt 64 (m : Int)).toNat = offset.toNat + m := by
  rw [BitVec.ofInt_natCast, BitVec.toNat_add, BitVec.toNat_ofNat]
  omega

theorem WithinSize.advance {s s' : Files F} {k : Kernel} (h : WithinSize s k) {p fd m j : Nat}
    (node : ((k.procs p).fds fd).node = some (.node (fileId j)))
    (small : (s'.tmp.nodes j).size.toNat < 2 ^ 64)
    (inside : ((k.procs p).fds fd).offset.toNat + m ≤ (s'.tmp.nodes j).size.toNat)
    (larger : ∀ j', Referenced k j' → (s.tmp.nodes j').size.toNat ≤ (s'.tmp.nodes j').size.toNat) :
    WithinSize s' (advanceOffset k p fd m) := by
  intro p' fd' j' low used node'
  obtain ⟨sameUsed, sameNode, offset⟩ := advanceOffset_fds k p fd m p' fd'
  rw [sameUsed] at used
  rw [sameNode] at node'
  rw [offset]
  split
  · rename_i here
    obtain ⟨rfl, rfl, -⟩ := here
    rw [node] at node'
    injection node' with same
    injection same with same
    have same : j' = j := by
      unfold fileId at same
      omega
    subst same
    rw [advanceOffset_toNat (by omega)]
    exact inside
  · exact (h p' fd' j' low used node').trans (larger j' ⟨low, p', fd', used, node'⟩)

theorem WithinSize.advance_elsewhere {s : Files F} {k : Kernel} (h : WithinSize s k) {p fd : Nat} {n : Int}
    {v : Vnode} (node : ((k.procs p).fds fd).node = some v) (elsewhere : tmpfsFile v = none) (other : F) :
    WithinSize { s with other := other } (advanceOffset k p fd n) := by
  intro p' fd' j low used node'
  obtain ⟨sameUsed, sameNode, offset⟩ := advanceOffset_fds k p fd n p' fd'
  rw [sameUsed] at used
  rw [sameNode] at node'
  rw [offset]
  split
  · rename_i here
    obtain ⟨rfl, rfl, -⟩ := here
    rw [node] at node'
    injection node' with same
    subst same
    have isFile : isFileId (fileId j) = true := by simp [isFileId, fileId]; omega
    simp [tmpfsFile, isFile] at elsewhere
  · exact h p' fd' j low used node'

theorem ArrayInv.fileRead (inv : ArrayInv i w kids) {p fd j : Nat} (ref : Referenced w.kernel j)
    (node : ((w.kernel.procs p).fds fd).node = some (.node (fileId j)))
    (used : ((w.kernel.procs p).fds fd).used = true) (count : Word) :
    ∃ m : Nat, (BitVec.ofNat 64 (tmpfsFileRead w.files j count ((w.kernel.procs p).fds fd).offset).length).toInt = m ∧
      m = (tmpfsFileRead w.files j count ((w.kernel.procs p).fds fd).offset).length ∧
      ((w.kernel.procs p).fds fd).offset.toNat + m ≤ (w.files.tmp.nodes j).size.toNat := by
  have small := inv.size_small ref
  have inside := inv.within p fd j ref.1 used node
  have length : (tmpfsFileRead w.files j count ((w.kernel.procs p).fds fd).offset).length =
      min count.toNat ((w.files.tmp.nodes j).size.toNat - ((w.kernel.procs p).fds fd).offset.toNat) := by
    rw [tmpfsFileRead_eq]
    unfold slice
    rw [List.length_take, List.length_drop, contents_length]
  refine ⟨_, ?_, rfl, by omega⟩
  rw [BitVec.toInt_eq_toNat_of_lt] <;> rw [BitVec.toNat_ofNat] <;> omega

theorem read_within (inv : ArrayInv i w kids) (p fd : Nat) (count : Word) :
    WithinSize (storeRead fs transferElsewhere w p fd count).1.files
      (storeRead fs transferElsewhere w p fd count).1.kernel := by
  unfold storeRead
  split
  · exact inv.within
  · exact inv.within
  · rename_i v offset performs
    obtain ⟨used, node, rfl⟩ := transfer_performs performs
    split
    · rename_i j isFile
      obtain ⟨low, rfl⟩ := tmpfsFile_some isFile
      have ref : Referenced w.kernel j := ⟨low, p, fd, used, node⟩
      obtain ⟨m, result, -, inside⟩ := inv.fileRead ref node used count
      dsimp only
      rw [result]
      exact inv.within.advance node (BitVec.isLt _) inside fun _ _ => le_rfl
    · rename_i elsewhere
      exact inv.within.advance_elsewhere node elsewhere _

theorem read_behaves (inv : ArrayInv i w kids) (p fd : Nat) (count : Word) :
    Behaves (w.bytes i) [fileEvent fs transferElsewhere w i (.read p fd count)] (w.bytes i) := by
  simp only [fileEvent, storeStep, storeRead]
  split
  · rename_i v offset performs
    obtain ⟨used, node, rfl⟩ := transfer_performs performs
    rw [performs]
    split
    · rename_i isFile
      obtain ⟨low, rfl⟩ := tmpfsFile_some isFile
      have ref : Referenced w.kernel i := ⟨low, p, fd, used, node⟩
      obtain ⟨m, result, length, inside⟩ := inv.fileRead ref node used count
      have bytes : w.bytes i = contents w.files i := if_pos (inv.stored.refs i ref)
      simp only [isFile]
      rw [bytes, tmpfsFileRead_eq] at *
      exact ⟨by rw [contents_length]; omega, rfl, by rw [result, length], rfl⟩
    · rfl
  · rfl

theorem Wrote.elsewhere {s s' : Files F} {R : Nat → Prop} {lent : Nat → Bool} {j offset m : Nat}
    {src : Nat → BitVec 8} (wrote : Wrote s s' j offset src m) (h : Stored s kids R lent)
    (live : Live s.tmp kids R i) (target : Live s.tmp kids R j) (other : i ≠ j)
    (fits : (s.tmp.nodes i).Fits) (backed : (s.tmp.nodes i).data ≠ some 0) :
    contents s' i = contents s i := by
  have same := wrote.others i other
  obtain ⟨f, data⟩ := Option.isSome_iff_exists.mp (h.sized i live).buffer
  refine contents_congr (by rw [same]) (by rw [same]) (h.sized i live) fits fun g lo hi => ?_
  rw [data, Option.getD_some] at lo hi
  have nonzero : f ≠ 0 := by
    rintro rfl
    exact backed data
  have held : (s.tmp.nodes i).Holds g := ⟨f, data, nonzero, lo, hi⟩
  refine wrote.mem g (by omega) (fun held' => ?_) (h.used i live g held).used
  exact other (h.apart i j live target g held held')

theorem ArrayInv.wrote (inv : ArrayInv i w kids) {j offset m : Nat} {src : Nat → BitVec 8} {s' : Files F}
    {k : Kernel} (target : Live w.files.tmp kids (Referenced w.kernel) j) (wrote : Wrote w.files s' j offset src m)
    (stored : Stored s' kids (Referenced k) w.lent) (within : WithinSize s' k) :
    ArrayInv i ((w.setKernel k).setFiles s') kids ∧
      ((w.setKernel k).setFiles s').bytes i =
        if j = i then splice (w.bytes i) offset (table m src) else w.bytes i := by
  have bound := inv.stored.bound target
  have file := target.1
  have count : s'.tmp.count = w.files.tmp.count := wrote.count
  refine ⟨⟨stored, fun j' bound' => ?_, within, fun bound' type => ?_⟩, ?_⟩
  · by_cases here : j' = j
    · subst here
      exact wrote.fits
    · change (s'.tmp.nodes j').Fits
      rw [wrote.others j' here]
      exact inv.fits j' (count ▸ bound')
  · by_cases here : i = j
    · subst here
      obtain ⟨listed, backed⟩ := inv.linked bound file
      exact ⟨listed, wrote.backed backed⟩
    · change (s'.tmp.nodes i).type = .file at type
      change _ ∧ (s'.tmp.nodes i).data ≠ some 0
      rw [wrote.others i here] at type ⊢
      exact inv.linked (count ▸ bound') type
  · change (if i < s'.tmp.count ∧ (s'.tmp.nodes i).type = .file then contents s' i else []) = _
    unfold Store.bytes
    by_cases here : j = i
    · subst here
      rw [if_pos ⟨count ▸ bound, wrote.type.trans file⟩, if_pos rfl, if_pos ⟨bound, file⟩, wrote.bytes]
    · rw [if_neg here, count, wrote.others i (Ne.symm here)]
      split
      · rename_i inPool
        have live := inv.live inPool.1 inPool.2
        exact wrote.elsewhere inv.stored live target (Ne.symm here) (inv.fits i inPool.1)
          (inv.linked inPool.1 inPool.2).2
      · rfl

theorem write_array (inv : ArrayInv i w kids) {p fd : Nat} {src : Nat → BitVec 8} {count : Word}
    (short : Short w (.write p fd src count)) :
    ArrayInv i (storeWrite fs transferElsewhere w p fd src count).1 kids ∧
      Behaves (w.bytes i) [fileEvent fs transferElsewhere w i (.write p fd src count)]
        ((storeWrite fs transferElsewhere w p fd src count).1.bytes i) := by
  have onward : Onward w kids True (fun _ kids' => kids' = kids)
      (storeWrite fs transferElsewhere w p fd src count).1 :=
    write_onward fs transferElsewhere inv.stored p fd src count
  obtain ⟨_, stored, -, rfl⟩ := onward
  revert stored
  simp only [fileEvent, storeStep, storeWrite]
  cases outcome : processWrite (vfsTree fs) w.kernel w.files p fd with
  | refused e => exact fun _ => ⟨inv, rfl⟩
  | crashes => exact fun _ => ⟨inv, rfl⟩
  | performs v offset =>
    obtain ⟨used, node, rfl⟩ := transfer_performs outcome
    dsimp only
    cases isFile : tmpfsFile v with
    | none =>
      intro stored
      simp only [reduceCtorEq, if_false]
      exact ⟨⟨stored, inv.fits, inv.within.advance_elsewhere node isFile _, inv.linked⟩, rfl⟩
    | some j =>
      obtain ⟨low, rfl⟩ := tmpfsFile_some isFile
      have ref : Referenced w.kernel j := ⟨low, p, fd, used, node⟩
      have inside := inv.within p fd j low used node
      obtain ⟨s', m, done, atMost, wrote, whole⟩ := tmpfsFileWrite_wrote inv.stored (inv.stored.referenced ref)
        (inv.fits j (inv.stored.refs j ref).1) src inside short
      dsimp only
      rw [done]
      dsimp only
      intro stored
      have within : WithinSize s' (advanceOffset w.kernel p fd m) := by
        refine inv.within.advance node (BitVec.isLt _) (by rw [wrote.size]; omega) fun j' _ => ?_
        by_cases here : j' = j
        · subst here
          rw [wrote.size]
          omega
        · rw [wrote.others j' here]
      have after : Stored s' _ (Referenced (advanceOffset w.kernel p fd m)) w.lent := stored
      obtain ⟨inv', bytes⟩ := inv.wrote (inv.stored.referenced ref) wrote after within
      refine ⟨inv', ?_⟩
      rw [bytes]
      by_cases here : j = i
      · subst here
        have length : (w.bytes j).length = (w.files.tmp.nodes j).size.toNat := by
          rw [show w.bytes j = contents w.files j from if_pos (inv.stored.refs j ref), contents_length]
        rw [if_pos rfl, if_pos rfl]
        exact ⟨by omega, m, atMost, rfl, whole, rfl⟩
      · rw [if_neg here, if_neg fun same => here (Option.some.inj same)]
        rfl

/-- Lent pages are no file's, so that what is put there is in no file. -/
theorem fillPage_array (inv : ArrayInv i w kids) {f : Nat} (lent : w.lent f = true) (page : Nat → Word) :
    ArrayInv i (w.setFiles { w.files with mem := Function.update w.files.mem f page }) kids ∧
      (w.setFiles { w.files with mem := Function.update w.files.mem f page }).bytes i = w.bytes i := by
  refine ⟨⟨inv.stored.remember _, inv.fits, inv.within, inv.linked⟩, ?_⟩
  change (if i < w.files.tmp.count ∧ (w.files.tmp.nodes i).type = .file then _ else []) = _
  unfold Store.bytes
  split
  · rename_i inPool
    have live := inv.live inPool.1 inPool.2
    have sized := inv.stored.sized i live
    refine contents_congr rfl rfl sized (inv.fits i inPool.1) fun g lo hi => ?_
    refine Function.update_of_ne ?_ _ _
    rintro rfl
    obtain ⟨f, data⟩ := Option.isSome_iff_exists.mp sized.buffer
    rw [data, Option.getD_some] at lo hi
    have nonzero : f ≠ 0 := by
      rintro rfl
      exact (inv.linked inPool.1 inPool.2).2 data
    exact (inv.stored.away g lent).2.2 i live ⟨f, data, nonzero, lo, hi⟩
  · rfl

theorem seedFile_array (inv : ArrayInv i w kids) {d : Nat} {name : List Char} {src : Nat → BitVec 8}
    {count mode : Word} (isDir : w.files.tmp.isDir d = true) (short : count.toNat < 2 ^ 63)
    (page : FirstPage w (w.setFiles (tmpfsCreateFile w.files d name).1) i) :
    (∃ kids', ArrayInv i (w.setFiles (seedFile w.files d name src count mode)) kids') ∧
      Behaves (w.bytes i) [fileEvent fs transferElsewhere w i (.seedFile d name src count mode)]
        ((w.setFiles (seedFile w.files d name src count mode)).bytes i) := by
  obtain ⟨kids', -, -, made⟩ := seedFile_onward inv.stored isDir name src count mode
  obtain ⟨stored, carried, live⟩ := made
  have within : WithinSize (tmpfsCreateFile w.files d name).1 w.kernel :=
    inv.within.descends (FewerFds.descends fun _ _ _ => rfl)
      fun j ref => (carried.old j (inv.stored.refs j ref).1).2.2.1
  have after : ArrayInv i (w.setFiles (tmpfsCreateFile w.files d name).1) kids' ∧
      (w.setFiles (tmpfsCreateFile w.files d name).1).bytes i = w.bytes i :=
    inv.carried stored carried within id page
  obtain ⟨inv₁, bytes₁⟩ := after
  simp only [fileEvent, isDir, if_true]
  have fresh : ∀ j, (tmpfsCreateFile w.files d name).2 = some j →
      ((tmpfsCreateFile w.files d name).1.tmp.nodes j).size = 0#64 := by
    intro j slot
    refine (carried.new j ?_ (stored.bound (live j slot))).1
    rw [tmpfsCreateFile_eq] at slot
    split at slot
    · cases slot
    · cases slot
      exact le_rfl
  unfold seedFile
  generalize tmpfsCreateFile w.files d name = r at *
  obtain ⟨s, slot⟩ := r
  cases slot with
  | none => exact ⟨⟨kids', inv₁⟩, bytes₁⟩
  | some j =>
    have target := live j rfl
    have empty := fresh j rfl
    dsimp only at *
    have atStart : (0#64).toNat ≤ (s.tmp.nodes j).size.toNat := Nat.zero_le _
    obtain ⟨s', m, done, atMost, wrote, whole⟩ := tmpfsFileWrite_wrote stored target
      (inv₁.fits j (stored.bound target)) src atStart (by simpa using short)
    have stored' := (stored.fileWrite target done).1
    have within' : WithinSize s' w.kernel := by
      refine within.mono fun j' _ => ?_
      by_cases here : j' = j
      · subst here
        rw [wrote.size]
        exact Nat.le_max_left _ _
      · rw [wrote.others j' here]
    obtain ⟨inv₂, bytes₂⟩ := inv₁.wrote target wrote stored' within'
    rw [done]
    dsimp only [Option.map_some, Option.getD_some]
    -- the mode is set last
    have tree : TreeOk (s'.tmp.set j { s'.tmp.nodes j with mode := mode }) kids' :=
      stored'.tree.set j rfl rfl rfl rfl Iff.rfl
    have restyled : ArrayInv i (w.setFiles { s' with tmp := s'.tmp.set j { s'.tmp.nodes j with mode := mode } })
        kids' ∧ (w.setFiles { s' with tmp := s'.tmp.set j { s'.tmp.nodes j with mode := mode } }).bytes i =
        (((w.setFiles s).setKernel w.kernel).setFiles s').bytes i := by
      have same : Carried (fun _ => False) s' kids'
          { s' with tmp := s'.tmp.set j { s'.tmp.nodes j with mode := mode } } kids' :=
        .set rfl rfl rfl rfl rfl rfl
      refine inv₂.carried (stored'.restyle j tree rfl rfl rfl).1 same ?_ id fun new below => ?_
      · refine within'.descends (FewerFds.descends fun _ _ _ => rfl) fun j' ref => ?_
        exact (same.old j' (stored'.refs j' ref).1).2.2.1
      · exact absurd below (Nat.not_lt_of_le new)
    refine ⟨⟨kids', restyled.1⟩, ?_⟩
    rw [restyled.2, bytes₂, bytes₁]
    by_cases here : j = i
    · subst here
      rw [if_pos rfl, if_pos rfl, done]
      exact ⟨Nat.zero_le _, m, atMost, rfl, whole, rfl⟩
    · rw [if_neg here, if_neg here]
      rfl

theorem storeStep_array (inv : ArrayInv i w kids) {op : StoreOp F} (gentle : Gentle fs transferElsewhere i w op) :
    (∃ kids', ArrayInv i (storeStep fs transferElsewhere w op).1 kids') ∧
      Behaves (w.bytes i) [fileEvent fs transferElsewhere w i op]
        ((storeStep fs transferElsewhere w op).1.bytes i) := by
  obtain ⟨kids', stored, -, effect⟩ := storeStep_onward fs transferElsewhere inv.stored op gentle.spares
  have still : Descends w.kernel w.kernel := FewerFds.descends fun _ _ _ => rfl
  cases op with
  | call op =>
    by_cases opens : ∃ p path flags, op = .opens p path flags
    · obtain ⟨p, path, flags, rfl⟩ := opens
      obtain ⟨inv', same⟩ := inv.carried stored effect (opens_within inv effect) gentle.stays gentle.page
      exact ⟨⟨kids', inv'⟩, same⟩
    · obtain ⟨-, descends⟩ := fdStep_descends w.fds fun p path flags eq => opens ⟨p, path, flags, eq⟩
      exact inv.plain stored effect descends gentle.stays gentle.page
  | read p fd count =>
    obtain ⟨inv', same⟩ := inv.carried stored effect (read_within inv p fd count) gentle.stays gentle.page
    refine ⟨⟨kids', inv'⟩, ?_⟩
    rw [same]
    exact read_behaves inv p fd count
  | write p fd src count =>
    obtain ⟨inv', behaves⟩ := write_array inv gentle.short
    exact ⟨⟨kids, inv'⟩, behaves⟩
  | create p path => exact inv.plain stored effect still gentle.stays gentle.page
  | mkdir p path => exact inv.plain stored effect still gentle.stays gentle.page
  | unlink p path => exact inv.plain stored effect still gentle.stays gentle.page
  | chdir p path =>
    refine inv.plain stored effect ?_ gentle.stays gentle.page
    simp only [storeStep]
    split
    · exact still
    · rename_i cwd _
      exact (setProc_fewer w.kernel p (fun x => { x with cwd := cwd }) fun _ _ _ => rfl).descends
  | seedFile d name src count mode =>
    by_cases isDir : w.files.tmp.isDir d = true
    · have page := gentle.page
      simp only [onceMade, isDir, if_true] at page
      simp only [storeStep, isDir, if_true]
      exact seedFile_array inv isDir gentle.short page
    · simp only [storeStep, fileEvent, isDir]
      exact ⟨⟨kids, inv⟩, rfl⟩
  | seedDir d name =>
    refine inv.plain stored effect ?_ gentle.stays gentle.page
    simp only [storeStep]
    split <;> exact still
  | install dev d =>
    refine inv.plain stored effect ?_ gentle.stays gentle.page
    simp only [storeStep]
    split <;> exact still
  | takePage => exact inv.plain stored effect still gentle.stays gentle.page
  | takePages count => exact inv.plain stored effect still gentle.stays gentle.page
  | sharePage f =>
    refine inv.plain stored effect ?_ gentle.stays gentle.page
    simp only [storeStep]
    split <;> exact still
  | givePage f =>
    refine inv.plain stored effect ?_ gentle.stays gentle.page
    simp only [storeStep]
    split <;> exact still
  | fillPage f page =>
    simp only [storeStep, fileEvent]
    split
    · rename_i lent
      obtain ⟨inv', same⟩ := fillPage_array inv lent page
      exact ⟨⟨kids, inv'⟩, same⟩
    · exact ⟨⟨kids, inv⟩, rfl⟩
  | elsewhere other => exact inv.plain stored effect still gentle.stays gentle.page

end Steps

section Arrays

variable {F : Type} (fs : Foreign F) (transferElsewhere : F → Vnode → Word → Word → F × Int)

theorem Booted.arrayInv {w : Store F} (boot : Booted w) (i : Nat) :
    ArrayInv i w (fun _ => []) ∧ w.bytes i = [] := by
  have root : ∀ j, j < w.files.tmp.count → w.files.tmp.nodes j = tmpfsInit.nodes 0 := by
    intro j bound
    rw [boot.tmp] at bound ⊢
    rw [show j = 0 from Nat.lt_one_iff.mp bound]
  have dir : ∀ j, j < w.files.tmp.count → (w.files.tmp.nodes j).type ≠ .file := by
    intro j bound file
    rw [root j bound] at file
    cases file
  refine ⟨⟨boot.stored.1, fun j bound => ?_, fun p fd j _ used => ?_, fun bound file => ?_⟩, ?_⟩
  · rw [root j bound]
    exact le_rfl
  · rw [boot.closed] at used
    cases used
  · exact absurd file (dir i bound)
  · exact if_neg fun both => dir i both.1 both.2

theorem run_array {i : Nat} {w : Store F} {kids : Nat → List Nat} (inv : ArrayInv i w kids)
    (ops : List (StoreOp F))
    (along : Run.Along (storeStep fs transferElsewhere) (Gentle fs transferElsewhere i) w ops) :
    (∃ kids', ArrayInv i (Run.run (storeStep fs transferElsewhere) w ops).1 kids') ∧
      Behaves (w.bytes i) (fileEvents fs transferElsewhere i w ops)
        ((Run.run (storeStep fs transferElsewhere) w ops).1.bytes i) := by
  induction ops generalizing w kids with
  | nil => exact ⟨⟨kids, inv⟩, rfl⟩
  | cons op rest ih =>
    obtain ⟨⟨kids', inv'⟩, first⟩ := storeStep_array inv along.1
    obtain ⟨last, next⟩ := ih inv' along.2
    exact ⟨last, first.cons next⟩

/-- In every run that unlinks and truncates only files no descriptor refers to, a file
that got its first page and stays in the tree is a byte array: reads and writes are
those of the array, no descriptor is past its end, and every byte read has been
written to this file. -/
theorem tmpfs_file_is_byte_array (start : Store F) (boot : Booted start) (i : Nat) (ops : List (StoreOp F))
    (along : Run.Along (storeStep fs transferElsewhere) (Gentle fs transferElsewhere i) start ops) :
    let w := (Run.run (storeStep fs transferElsewhere) start ops).1
    let events := fileEvents fs transferElsewhere i start ops
    Behaves [] events (w.bytes i) ∧
      (∀ p fd, i < tmpfsMaxNodes → ((w.kernel.procs p).fds fd).used = true →
        ((w.kernel.procs p).fds fd).node = some (.node (fileId i)) →
        (w.bytes i).length = (w.files.tmp.nodes i).size.toNat ∧
          ((w.kernel.procs p).fds fd).offset.toNat ≤ (w.files.tmp.nodes i).size.toNat) ∧
      ∀ b ∈ events.flatMap FileEvent.fetched, b ∈ events.flatMap FileEvent.placed := by
  intro w events
  obtain ⟨inv, empty⟩ := boot.arrayInv i
  obtain ⟨⟨kids, inv'⟩, behaves⟩ := run_array fs transferElsewhere inv ops along
  rw [empty] at behaves
  refine ⟨behaves, fun p fd low used node => ⟨?_, inv'.within p fd i low used node⟩, fun b here => ?_⟩
  · have ref := inv'.stored.refs i ⟨low, p, fd, used, node⟩
    rw [show w.bytes i = contents w.files i from if_pos ref, contents_length]
  · exact (behaves.source here).resolve_left List.not_mem_nil

end Arrays

def readOnly : Nat := 0
def truncRdwr : Nat := 0x202
def appendWronly : Nat := 0x401

/-- A file is grown to two pages, appended to through a second descriptor and read through a third. -/
def appendingRun : List (StoreOp Unit) :=
  [.call (.spawn 0 0 0#64), .call (.opens 0 ['/', 'a'] creatRdwr), .write 0 3 (fun j => BitVec.ofNat 8 j) 4100#64,
    .call (.opens 0 ['/', 'a'] appendWronly), .write 0 4 (fun _ => 9#8) 2#64,
    .call (.opens 0 ['/', 'a'] readOnly), .read 0 5 3#64]

theorem appendingRun_gentle :
    Run.Along (storeStep consoleOnly nothingElse) (Gentle consoleOnly nothingElse 1) smallStore appendingRun := by
  have kept : Run.Along (storeStep consoleOnly nothingElse) (Kept consoleOnly nothingElse 1) smallStore
      appendingRun := by decide +kernel
  obtain ⟨spawn, creates, write, appends, more, opens, read, -⟩ := kept
  have plain : ∀ s who path, ¬ Truncates consoleOnly s who path creatRdwr :=
    fun _ _ _ truncates => absurd truncates.2.2.1 (by decide)
  have plain' : ∀ s who path, ¬ Truncates consoleOnly s who path appendWronly :=
    fun _ _ _ truncates => absurd truncates.2.2.1 (by decide)
  have plain'' : ∀ s who path, ¬ Truncates consoleOnly s who path readOnly :=
    fun _ _ _ truncates => absurd truncates.2.2.1 (by decide)
  exact ⟨⟨spawn, trivial⟩, ⟨creates, fun truncates => absurd truncates (plain _ _ _)⟩, ⟨write, trivial⟩,
    ⟨appends, fun truncates => absurd truncates (plain' _ _ _)⟩, ⟨more, trivial⟩,
    ⟨opens, fun truncates => absurd truncates (plain'' _ _ _)⟩, ⟨read, trivial⟩, trivial⟩

theorem tmpfs_file_is_byte_array_appendingRun :
    let w := (Run.run (storeStep consoleOnly nothingElse) smallStore appendingRun).1
    let events := fileEvents consoleOnly nothingElse 1 smallStore appendingRun
    events.flatMap FileEvent.fetched = [0#8, 1#8, 2#8] ∧ (w.files.tmp.nodes 1).size = 4102#64 ∧
      Behaves [] events (w.bytes 1) := by
  intro w events
  have arrays := tmpfs_file_is_byte_array consoleOnly nothingElse smallStore smallStore_booted 1 appendingRun
    appendingRun_gentle
  exact ⟨by decide +kernel, by decide +kernel, arrays.1⟩

/-- The file `/b` is written and read back after `/a`, which is open all the time, was truncated. -/
def heldRun : List (StoreOp Unit) :=
  [.call (.spawn 0 0 0#64), .call (.opens 0 ['/', 'a'] creatRdwr), .call (.opens 0 ['/', 'a'] truncRdwr),
    .write 0 4 (fun _ => 7#8) 4097#64, .call (.opens 0 ['/', 'b'] creatRdwr), .write 0 5 (fun _ => 1#8) 1#64,
    .write 0 3 (fun _ => 2#8) 1#64, .call (.opens 0 ['/', 'b'] readOnly), .read 0 6 1#64]

/-- The descriptor of the old `/a` writes to a page that `/b` has got. -/
theorem truncated_file_writes_to_another :
    let events := fileEvents consoleOnly nothingElse 3 smallStore heldRun
    Run.Along (storeStep consoleOnly nothingElse) (Kept consoleOnly nothingElse 3) smallStore heldRun ∧
      2#8 ∈ events.flatMap FileEvent.fetched ∧ 2#8 ∉ events.flatMap FileEvent.placed := by
  intro events
  exact ⟨by decide +kernel, by decide +kernel, by decide +kernel⟩

end Isunux
