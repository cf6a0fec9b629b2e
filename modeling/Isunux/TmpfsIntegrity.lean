import Isunux.TmpfsShape

/-! The tree that `tmpfs_init` starts and the path calls change stays a tree. Nodes are
handed out in order and never again, so a child always has a higher number than its
directory, and a directory that was unlinked cannot be reached any more. -/
namespace Isunux

open Chain

/-- The root, or a node that some directory lists. -/
def Anchored (kids : Nat → List Nat) (i : Nat) : Prop := i = 0 ∨ ∃ e, i ∈ kids e

structure Whole (t : Tmpfs) (kids : Nat → List Nat) : Prop where
  kin : Kin t kids
  names : ∀ d, ((kids d).map fun i => (t.nodes i).name).Nodup
  short : ∀ d i, i ∈ kids d → (t.nodes i).name.length < vfsMaxName
  younger : ∀ d i, i ∈ kids d → d < i
  attached : ∀ d i, i ∈ kids d → Anchored kids d
  top : (t.nodes 0).parent = 0
  native : ∀ i, i < t.count → (t.nodes i).ops ≠ .foreign

theorem tmpfsInit_whole : Whole tmpfsInit fun _ => [] where
  kin := ⟨tmpfsInit_ok, fun d i mem => by cases mem⟩
  names _ := List.nodup_nil
  short d i mem := by cases mem
  younger d i mem := by cases mem
  attached d i mem := by cases mem
  top := rfl
  native i bound := by
    obtain rfl : i = 0 := Nat.lt_one_iff.mp bound
    decide

section Names

variable {t : Tmpfs} {kids : Nat → List Nat} {d i : Nat} {n : TmpfsNode}

theorem TreeOk.names_grow (ok : TreeOk t kids) (names : ∀ e, ((kids e).map fun j => (t.nodes j).name).Nodup)
    (bound : d < t.count) (fresh : tmpfsDirLookup t d n.name = none) (e : Nat) :
    ((withKid kids d t.count e).map fun j => ((t.grow d n).nodes j).name).Nodup := by
  have old : ∀ e, (kids e).map (fun j => ((t.grow d n).nodes j).name) = (kids e).map fun j => (t.nodes j).name :=
    fun e => List.map_congr_left fun j mem =>
      (TmpfsNode.label_eq (grow_label bound (Nat.ne_of_lt (ok.inside e j mem)))).name
  unfold withKid
  by_cases here : e = d
  · subst here
    rw [Function.update_self, List.map_cons, old, grow_newNode n bound]
    refine List.nodup_cons.mpr ⟨fun taken => ?_, names e⟩
    obtain ⟨j, mem, same⟩ := List.mem_map.mp taken
    unfold tmpfsDirLookup at fresh
    rw [ok.children, List.find?_eq_none] at fresh
    exact fresh j mem (by simpa using same)
  · rw [Function.update_of_ne here, old]
    exact names e

theorem names_unchain (names : ∀ e, ((kids e).map fun j => (t.nodes j).name).Nodup) (e : Nat) :
    ((withoutKid kids d i e).map fun j => ((t.unchain d i).nodes j).name).Nodup := by
  have fewer : List.Sublist (withoutKid kids d i e) (kids e) := by
    unfold withoutKid
    by_cases here : e = d
    · subst here
      rw [Function.update_self]
      exact List.erase_sublist
    · rw [Function.update_of_ne here]
  rw [List.map_congr_left fun j _ => (TmpfsNode.label_eq (unchain_label t d i j)).name]
  exact (names e).sublist (fewer.map _)

end Names

section Moves

variable {t t' : Tmpfs} {kids : Nat → List Nat} {W : Nat → Prop} {uid gid : Word} {d i : Nat} {n : TmpfsNode}

theorem Whole.bound (h : Whole t kids) (anchored : Anchored kids i) : i < t.count := by
  rcases anchored with rfl | ⟨e, mem⟩
  · exact h.kin.tree.root.2
  · exact h.kin.tree.inside e i mem

theorem Whole.barren (h : Whole t kids) (empty : (t.nodes i).type = .dir → (t.nodes i).firstChild = none) :
    kids i = [] := by
  by_contra some
  obtain ⟨j, mem⟩ := List.exists_mem_of_ne_nil _ some
  have chain := h.kin.tree.chain i
  rw [empty (h.kin.tree.above i j mem).1] at chain
  cases kids_eq : kids i with
  | nil => exact some kids_eq
  | cons a rest =>
    rw [kids_eq] at chain
    cases chain.1

theorem Whole.made (h : Whole t kids) (made : Makes W uid gid t t' d n) (anchored : Anchored kids d) :
    Whole t' (withKid kids d t.count) := by
  have kin := h.kin.made made
  have anchors : ∀ {e}, Anchored kids e → Anchored (withKid kids d t.count) e := by
    rintro e (top | ⟨f, mem⟩)
    · exact .inl top
    · refine .inr ⟨f, ?_⟩
      unfold withKid
      by_cases here : f = d
      · subst here
        rw [Function.update_self]
        exact List.mem_cons_of_mem _ mem
      · rwa [Function.update_of_ne here]
  have label : ∀ {e j}, j ∈ kids e → SameLabel (t'.nodes j) (t.nodes j) := by
    intro e j mem
    rw [made.after]
    exact TmpfsNode.label_eq (grow_label made.bound (Nat.ne_of_lt (h.kin.tree.inside e j mem)))
  have new : (t'.nodes t.count).name = n.name ∧ (t'.nodes t.count).ops = n.ops := by
    rw [made.after, grow_newNode n made.bound]
    exact ⟨rfl, rfl⟩
  refine ⟨kin, fun e => ?_, fun e j mem => ?_, fun e j mem => ?_, fun e j mem => ?_, ?_, fun j bound => ?_⟩
  · rw [made.after]
    exact h.kin.tree.names_grow h.names made.bound made.fresh e
  · rcases mem_withKid mem with old | ⟨rfl, rfl⟩
    · rw [(label old).name]
      exact h.short e j old
    · rw [new.1]
      exact made.short
  · rcases mem_withKid mem with old | ⟨rfl, rfl⟩
    · exact h.younger e j old
    · exact made.bound
  · rcases mem_withKid mem with old | ⟨rfl, rfl⟩
    · exact anchors (h.attached e j old)
    · exact anchors anchored
  · have root : (0 : Nat) ≠ t.count := Nat.ne_of_lt h.kin.tree.root.2
    rw [made.after, (TmpfsNode.label_eq (grow_label made.bound root)).parent]
    exact h.top
  · by_cases here : j = t.count
    · subst here
      rw [new.2]
      rcases made.kind with ⟨ops, -⟩ | ⟨ops, -⟩ <;> rw [ops] <;> decide
    · rw [made.after] at bound ⊢
      rw [(TmpfsNode.label_eq (grow_label made.bound here)).ops]
      have : (t.grow d n).count = t.count + 1 := rfl
      exact h.native j (by omega)

theorem Whole.removed (h : Whole t kids) (removed : Removes W t t' d i) :
    Whole t' (withoutKid kids d i) := by
  have nodup := h.kin.tree.nodup d
  have sub : ∀ {e j}, j ∈ withoutKid kids d i e → j ∈ kids e := fun mem => ((mem_withoutKid nodup).mp mem).1
  have label : ∀ j, SameLabel (t'.nodes j) (t.nodes j) := by
    intro j
    rw [removed.after]
    exact TmpfsNode.label_eq (unchain_label t d i j)
  refine ⟨h.kin.removed removed, fun e => ?_, fun e j mem => ?_, fun e j mem => h.younger e j (sub mem),
    fun e j mem => ?_, ?_, fun j bound => ?_⟩
  · rw [removed.after]
    exact names_unchain h.names e
  · rw [(label j).name]
    exact h.short e j (sub mem)
  · rcases h.attached e j (sub mem) with top | ⟨f, above⟩
    · exact .inl top
    · refine .inr ⟨f, (mem_withoutKid nodup).mpr ⟨above, ?_⟩⟩
      rintro ⟨-, rfl⟩
      have held := sub mem
      rw [h.barren removed.empty] at held
      cases held
  · rw [(label 0).parent]
    exact h.top
  · rw [(label j).ops]
    rw [removed.after, unchain_count] at bound
    exact h.native j bound

end Moves

section Paths

variable {F : Type} (fs : Foreign F) {s : Files F} {kids : Nat → List Nat} {who : Process} {path : List Char}

theorem Whole.parent_anchored (h : Whole s.tmp kids) {i : Nat} (anchored : Anchored kids i) :
    Anchored kids (s.tmp.nodes i).parent := by
  rcases anchored with rfl | ⟨e, mem⟩
  · rw [h.top]
    exact .inl rfl
  · rw [h.kin.parent e i mem]
    exact h.attached e i mem

theorem Whole.resolveLoop_anchored (h : Whole s.tmp kids) {fuel i : Nat} {p : List Char} {next : Place}
    (here : Anchored kids i) (found : resolveLoop fs s fuel (.tmp i) p = some next) :
    ∃ j, next = .tmp j ∧ Anchored kids j := by
  induction fuel generalizing i p with
  | zero =>
    cases found
    exact ⟨i, rfl, here⟩
  | succ fuel ih =>
    cases p with
    | nil =>
      cases found
      exact ⟨i, rfl, here⟩
    | cons c p =>
      rw [resolveLoop.eq_def] at found
      dsimp only at found
      split at found
      · exact ih here found
      · split at found
        · exact ih (h.parent_anchored here) found
        · split at found
          · cases found
          · rename_i hit
            unfold Files.lookup at hit
            dsimp only at hit
            split at hit
            · cases hit
            · obtain ⟨j, listed, rfl⟩ := Option.map_eq_some_iff.mp hit
              exact ih (.inr ⟨i, h.kin.tree.lookup_mem listed⟩) found
            · rename_i abroad
              exact absurd abroad (h.native i (h.bound here))

theorem Whole.parentDir (h : Whole s.tmp kids) {dir : Place} {name : List Char}
    (found : resolveParentDir fs s who path = .ok (dir, name)) :
    ∃ d, dir = .tmp d ∧ Anchored kids d ∧ d < s.tmp.count ∧ ¬ Abroad s dir := by
  obtain ⟨-, isDir, q, hit⟩ := resolveParentDir_ok fs found
  obtain ⟨d, rfl, anchored⟩ : ∃ d, dir = .tmp d ∧ Anchored kids d := by
    unfold vfsResolvePath at hit
    split at hit
    · exact h.resolveLoop_anchored fs (.inl rfl) hit
    · cases hit
  have bound := h.bound anchored
  refine ⟨d, rfl, anchored, bound, fun abroad => ?_⟩
  have type : (s.tmp.nodes d).type = .dir := isDir
  cases ops : (s.tmp.nodes d).ops with
  | tmpfsFile =>
    rw [(h.kin.tree.ops d bound).mp ops] at type
    cases type
  | tmpfsDir => exact abroad ops
  | foreign => exact h.native d bound ops

/-- One child more in one directory. -/
def Adds (t t' : Tmpfs) : Prop :=
  ∃ d i, (∀ e, i ∉ t.children e) ∧ t'.children d = i :: t.children d ∧
    ∀ e, e ≠ d → t'.children e = t.children e

/-- One child less in one directory. -/
def Drops (t t' : Tmpfs) : Prop :=
  ∃ d i, i ∈ t.children d ∧ t'.children d = (t.children d).erase i ∧
    ∀ e, e ≠ d → t'.children e = t.children e

theorem Whole.makes (h : Whole s.tmp kids) {r : Files F × Int}
    (cases : (r.1.tmp = s.tmp ∧ (r.2 < 0 ∨
        ∃ dir name, resolveParentDir fs s who path = .ok (dir, name) ∧ Abroad s dir)) ∨
      r.2 = 0 ∧ ∃ d n name, resolveParentDir fs s who path = .ok (.tmp d, name) ∧
        Makes (MayWrite s.tmp who.uid who.gid) who.uid who.gid s.tmp r.1.tmp d n) :
    (∃ kids', Whole r.1.tmp kids') ∧ (r.2 = 0 → Adds s.tmp r.1.tmp) ∧ (r.2 ≠ 0 → r.1.tmp = s.tmp) := by
  rcases cases with ⟨same, failed | ⟨dir, name, found, abroad⟩⟩ | ⟨zero, d, n, name, found, made⟩
  · rw [same]
    exact ⟨⟨kids, h⟩, fun zero => by omega, fun _ => rfl⟩
  · obtain ⟨-, -, -, -, home⟩ := h.parentDir fs found
    exact absurd abroad home
  · obtain ⟨d', eq, anchored, -⟩ := h.parentDir fs found
    cases eq
    have whole := h.made made anchored
    refine ⟨⟨_, whole⟩, fun _ => ⟨d, s.tmp.count, fun e mem => ?_, ?_, fun e other => ?_⟩,
      fun nonzero => absurd zero nonzero⟩
    · rw [h.kin.tree.children] at mem
      exact Nat.lt_irrefl _ (h.kin.tree.inside e _ mem)
    · rw [whole.kin.tree.children, h.kin.tree.children, withKid, Function.update_self]
    · rw [whole.kin.tree.children, h.kin.tree.children, withKid, Function.update_of_ne other]

theorem Whole.create (h : Whole s.tmp kids) (who : Process) (path : List Char) :
    let r := processCreate fs s who path
    (∃ kids', Whole r.1.tmp kids') ∧ (r.2 = 0 → Adds s.tmp r.1.tmp) ∧ (r.2 ≠ 0 → r.1.tmp = s.tmp) :=
  h.makes fs (processCreate_cases fs h.kin.tree fun d name found => by
    obtain ⟨d', eq, -, bound, -⟩ := h.parentDir fs found
    cases eq
    exact bound)

theorem Whole.mkdir (h : Whole s.tmp kids) (who : Process) (path : List Char) :
    let r := processMkdir fs s who path
    (∃ kids', Whole r.1.tmp kids') ∧ (r.2 = 0 → Adds s.tmp r.1.tmp) ∧ (r.2 ≠ 0 → r.1.tmp = s.tmp) :=
  h.makes fs (processMkdir_cases fs h.kin.tree fun d name found => by
    obtain ⟨d', eq, -, bound, -⟩ := h.parentDir fs found
    cases eq
    exact bound)

theorem Whole.unlink (h : Whole s.tmp kids) (who : Process) (path : List Char) :
    let r := processUnlink fs s who path
    (∃ kids', Whole r.1.tmp kids') ∧ (r.2 = 0 → Drops s.tmp r.1.tmp) ∧ (r.2 ≠ 0 → r.1.tmp = s.tmp) := by
  intro r
  rcases @processUnlink_cases F fs s who path with
    ⟨same, failed | ⟨dir, name, found, abroad⟩⟩ | ⟨zero, d, i, name, found, removed⟩
  · refine ⟨⟨kids, same ▸ h⟩, fun zero => ?_, fun _ => same⟩
    have : r.2 < 0 := failed
    omega
  · obtain ⟨-, -, -, -, home⟩ := h.parentDir fs found
    exact absurd abroad home
  · have whole := h.removed removed
    refine ⟨⟨_, whole⟩, fun _ => ⟨d, i, removed.listed, ?_, fun e other => ?_⟩, fun nonzero => absurd zero nonzero⟩
    · rw [whole.kin.tree.children, h.kin.tree.children, withoutKid, Function.update_self]
    · rw [whole.kin.tree.children, h.kin.tree.children, withoutKid, Function.update_of_ne other]

end Paths

/-- What is asked of the tree, in terms of its own pointers. -/
structure TreeIntact (t : Tmpfs) : Prop where
  lists : ∀ d, Spells t.next (t.nodes d).firstChild (t.children d) ∧ (t.children d).Nodup
  once : ∀ d d' i, i ∈ t.children d → i ∈ t.children d' → d = d'
  parent : ∀ d i, i ∈ t.children d → (t.nodes i).parent = d
  root : (t.nodes 0).parent = 0 ∧ ∀ d, 0 ∉ t.children d
  ends : ∀ d i, i ∈ t.children d → ∃ steps, (fun j => (t.nodes j).parent)^[steps] i = 0
  acyclic : ∀ d i, i ∈ t.children d → ∀ steps, 0 < steps → (fun j => (t.nodes j).parent)^[steps] i ≠ i
  names : ∀ d, ((t.children d).map fun i => (t.nodes i).name).Nodup
  readdir : ∀ d index size, vfsMaxName ≤ size →
    tmpfsDirReaddir t d index size = ((t.children d)[index]?).map fun i => (t.nodes i).name
  found : ∀ d i, i ∈ t.children d → tmpfsDirLookup t d (t.nodes i).name = some i

section Integrity

variable {t : Tmpfs} {kids : Nat → List Nat}

theorem Whole.climbs (h : Whole t kids) {i : Nat} (anchored : Anchored kids i) :
    ∃ steps, (fun j => (t.nodes j).parent)^[steps] i = 0 := by
  induction i using Nat.strong_induction_on with
  | _ i ih =>
    rcases anchored with rfl | ⟨d, mem⟩
    · exact ⟨0, rfl⟩
    · obtain ⟨steps, top⟩ := ih d (h.younger d i mem) (h.attached d i mem)
      refine ⟨steps + 1, ?_⟩
      rw [Function.iterate_succ_apply]
      rw [h.kin.parent d i mem]
      exact top

/-- Going up never leads to a higher number. -/
theorem Whole.descends (h : Whole t kids) {i : Nat} (anchored : Anchored kids i) (steps : Nat) :
    (fun j => (t.nodes j).parent)^[steps] i ≤ i := by
  induction steps generalizing i with
  | zero => exact le_rfl
  | succ steps ih =>
    rw [Function.iterate_succ_apply]
    rcases anchored with rfl | ⟨d, mem⟩
    · rw [h.top]
      exact ih (.inl rfl)
    · rw [h.kin.parent d i mem]
      exact (ih (h.attached d i mem)).trans (h.younger d i mem).le

theorem find_unique {name : Nat → List Char} {xs : List Nat} (nodup : (xs.map name).Nodup) {i : Nat}
    (mem : i ∈ xs) : xs.find? (fun j => name j = name i) = some i := by
  induction xs with
  | nil => cases mem
  | cons a xs ih =>
    rw [List.map_cons, List.nodup_cons] at nodup
    rcases List.mem_cons.mp mem with rfl | later
    · exact List.find?_cons_of_pos (by simp)
    · have other : name a ≠ name i := fun same => nodup.1 (same ▸ List.mem_map_of_mem later)
      rw [List.find?_cons_of_neg (by simpa using other)]
      exact ih nodup.2 later

theorem Whole.intact (h : Whole t kids) : TreeIntact t := by
  have children := h.kin.tree.children
  refine ⟨fun d => ?_, fun d d' i => ?_, fun d i => ?_, ⟨h.top, fun d => ?_⟩, fun d i => ?_, fun d i => ?_,
    fun d => ?_, fun d index size large => ?_, fun d i => ?_⟩ <;> rw [children]
  · exact ⟨h.kin.tree.chain d, h.kin.tree.nodup d⟩
  · rw [children]
    exact h.kin.tree.apart d d' i
  · exact h.kin.parent d i
  · exact fun mem => Nat.not_lt_zero _ (h.younger d 0 mem)
  · exact fun mem => h.climbs (.inr ⟨d, mem⟩)
  · intro mem steps positive same
    obtain ⟨steps, rfl⟩ : ∃ k, steps = k + 1 := ⟨steps - 1, by omega⟩
    rw [Function.iterate_succ_apply] at same
    rw [h.kin.parent d i mem] at same
    have up := h.descends (h.attached d i mem) steps
    have below := h.younger d i mem
    omega
  · exact h.names d
  · unfold tmpfsDirReaddir
    rw [children]
    cases here : (kids d)[index]? with
    | none => rfl
    | some i =>
      have mem := List.mem_of_getElem? here
      have short := h.short d i mem
      have positive : size ≠ 0 := by
        have : 0 < vfsMaxName := by decide
        omega
      rw [Option.map_some, Option.map_some, copyName, if_neg positive, List.take_of_length_le (by omega)]
  · intro mem
    unfold tmpfsDirLookup
    rw [children]
    exact find_unique (h.names d) mem

end Integrity

/-- The calls with a path, by any process of any kernel. -/
inductive TreeCall where
  | mkdir (who : Process) (path : List Char)
  | create (who : Process) (path : List Char)
  | unlink (who : Process) (path : List Char)
  | opens (k : Kernel) (p : Nat) (path : List Char) (flags : Nat)

section Runs

variable {F : Type} (fs : Foreign F)

def treeStep (s : Files F) : TreeCall → Files F × Int
  | .mkdir who path => processMkdir fs s who path
  | .create who path => processCreate fs s who path
  | .unlink who path => processUnlink fs s who path
  | .opens k p path flags =>
    let r := processOpen (vfsTree fs) k s p path flags
    (r.2.1, r.2.2)

theorem treeStep_whole {s : Files F} (h : ∃ kids, Whole s.tmp kids) (c : TreeCall) :
    ∃ kids, Whole (treeStep fs s c).1.tmp kids := by
  obtain ⟨kids, whole⟩ := h
  cases c with
  | mkdir who path => exact (whole.mkdir fs who path).1
  | create who path => exact (whole.create fs who path).1
  | unlink who path => exact (whole.unlink fs who path).1
  | opens k p path flags =>
    simp only [treeStep]
    rw [processOpen_files]
    refine locate_keeps fs (fun s => ∃ kids, Whole s.tmp kids) ?_ ?_ flags ⟨kids, whole⟩
    · rintro s ⟨kids, whole⟩
      exact (whole.create fs _ path).1
    · rintro s ⟨kids, whole⟩
      exact (whole.unlink fs _ path).1

/-- From the tree of `tmpfs_init` on, every sequence of path calls leaves a tree that is
intact. A successful create adds one child to one directory and a successful unlink
takes one away, and a call that fails changes nothing. -/
theorem tmpfs_tree_integrity (s : Files F) (start : s.tmp = tmpfsInit) (calls : List TreeCall) :
    let s' : Files F := (Run.run (treeStep fs) s calls).1
    TreeIntact s'.tmp ∧ ∀ who path,
      ((processCreate fs s' who path).2 = 0 → Adds s'.tmp (processCreate fs s' who path).1.tmp) ∧
      ((processMkdir fs s' who path).2 = 0 → Adds s'.tmp (processMkdir fs s' who path).1.tmp) ∧
      ((processUnlink fs s' who path).2 = 0 → Drops s'.tmp (processUnlink fs s' who path).1.tmp) ∧
      ((processCreate fs s' who path).2 ≠ 0 → (processCreate fs s' who path).1.tmp = s'.tmp) ∧
      ((processMkdir fs s' who path).2 ≠ 0 → (processMkdir fs s' who path).1.tmp = s'.tmp) ∧
      ((processUnlink fs s' who path).2 ≠ 0 → (processUnlink fs s' who path).1.tmp = s'.tmp) := by
  intro s'
  obtain ⟨kids, whole⟩ : ∃ kids, Whole s'.tmp kids := by
    refine Run.run_invariant (treeStep fs) (fun s => ∃ kids, Whole s.tmp kids)
      (fun s c h => treeStep_whole fs h c) s calls ⟨fun _ => [], ?_⟩
    rw [start]
    exact tmpfsInit_whole
  refine ⟨whole.intact, fun who path => ?_⟩
  obtain ⟨-, created, createFails⟩ := whole.create fs who path
  obtain ⟨-, made, mkdirFails⟩ := whole.mkdir fs who path
  obtain ⟨-, dropped, unlinkFails⟩ := whole.unlink fs who path
  exact ⟨created, made, dropped, createFails, mkdirFails, unlinkFails⟩

end Runs

def emptyFiles : Files Unit := ⟨tmpfsInit, eightPages, fun _ _ => 0#64, (), 0, 0⟩

def kidsRun : List TreeCall :=
  let root : Process := { Process.zero with cwd := ['/'] }
  [.mkdir root ['a'], .create root ['b'], .create root ['a', '/', 'c'], .unlink root ['b']]

/-- The file `b` is gone and `a/c` is found through its directory. -/
theorem tmpfs_tree_integrity_kidsRun :
    let t := (Run.run (treeStep consoleOnly) emptyFiles kidsRun).1.tmp
    t.children 0 = [1] ∧ t.children 1 = [3] ∧ TreeIntact t := by
  intro t
  exact ⟨by decide +kernel, by decide +kernel, (tmpfs_tree_integrity consoleOnly emptyFiles rfl kidsRun).1⟩

end Isunux
