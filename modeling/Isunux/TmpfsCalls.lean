import Isunux.TmpfsStore

/-! The path calls of process.c over tmpfs: where a path can lead, and that files keep
their pages through `process_create`, `process_mkdir` and `process_unlink`. -/
namespace Isunux

/-- A place a path can lead to: a directory, or a file that some directory lists. -/
def Settled (t : Tmpfs) (kids : Nat → List Nat) : Place → Prop
  | .tmp i => i < t.count ∧ ((t.nodes i).type = .dir ∨ ∃ d, i ∈ kids d)
  | .foreign _ => True

/-- The tree, and the directories that the other file systems were installed on. -/
structure Hosted {F : Type} (s : Files F) (kids : Nat → List Nat) : Prop where
  tree : TreeOk s.tmp kids
  dirs : ∀ d, d = s.devDir ∨ d = s.mntDir → d < s.tmp.count ∧ (s.tmp.nodes d).type = .dir

section Paths

variable {F : Type} (fs : Foreign F) {s : Files F} {kids : Nat → List Nat} {R : Nat → Prop}
  {lent : Nat → Bool} {place next : Place}

theorem Hosted.parentOf_settled (h : Hosted s kids) (here : Settled s.tmp kids place) :
    Settled s.tmp kids (s.parentOf fs place) := by
  have dir : ∀ d, d = s.devDir ∨ d = s.mntDir → Settled s.tmp kids (.tmp d) :=
    fun d hd => ⟨(h.dirs d hd).1, .inl (h.dirs d hd).2⟩
  cases place with
  | tmp i =>
    obtain ⟨up, below⟩ := h.tree.upward i here.1
    exact ⟨below, .inl up⟩
  | foreign j =>
    unfold Files.parentOf
    dsimp only
    cases fs.parent s.other j with
    | node j' => exact trivial
    | dev => exact dir _ (.inl rfl)
    | mnt => exact dir _ (.inr rfl)

theorem Hosted.lookup_settled (h : Hosted s kids) {name : List Char}
    (found : s.lookup fs place name = some next) : Settled s.tmp kids next := by
  unfold Files.lookup at found
  split at found
  · split at found
    · cases found
    · rename_i i _ _
      rw [Option.map_eq_some_iff] at found
      obtain ⟨j, hit, rfl⟩ := found
      have mem := h.tree.lookup_mem hit
      exact ⟨h.tree.inside i j mem, .inr ⟨i, mem⟩⟩
    · rw [Option.map_eq_some_iff] at found
      obtain ⟨j, -, rfl⟩ := found
      exact trivial
  · rw [Option.map_eq_some_iff] at found
    obtain ⟨j, -, rfl⟩ := found
    exact trivial

theorem Hosted.resolveLoop_settled (h : Hosted s kids) {fuel : Nat} {p : List Char}
    (here : Settled s.tmp kids place) (found : resolveLoop fs s fuel place p = some next) :
    Settled s.tmp kids next := by
  induction fuel generalizing place p with
  | zero =>
    cases found
    exact here
  | succ fuel ih =>
    cases p with
    | nil =>
      cases found
      exact here
    | cons c p =>
      rw [resolveLoop.eq_def] at found
      dsimp only at found
      split at found
      · exact ih here found
      · split at found
        · exact ih (h.parentOf_settled fs here) found
        · split at found
          · cases found
          · rename_i hit
            exact ih (h.lookup_settled fs hit) found

theorem Hosted.resolve_settled (h : Hosted s kids) {path : List Char}
    (found : vfsResolvePath fs s path = some next) : Settled s.tmp kids next := by
  unfold vfsResolvePath at found
  split at found
  · have root : Settled s.tmp kids (.tmp 0) := ⟨h.tree.root.2, .inl h.tree.root.1⟩
    exact h.resolveLoop_settled fs root found
  · cases found

theorem Hosted.parentDir (h : Hosted s kids) {who : Process} {path name : List Char} {d : Nat}
    (found : resolveParentDir fs s who path = .ok (.tmp d, name)) :
    d < s.tmp.count ∧ (s.tmp.nodes d).type = .dir := by
  unfold resolveParentDir at found
  dsimp only at found
  split at found
  · cases found
  · split at found
    · cases found
    · rename_i dir hit
      split at found
      · rename_i isDir
        cases found
        exact ⟨(h.resolve_settled fs hit).1, isDir⟩
      · cases found

theorem Stored.hosted (h : Stored s kids R lent) : Hosted s kids := ⟨h.tree, h.dirs⟩

/-- What is kept by a call that may link files or unlink those in `gone`. `fund` is what
the new files need. -/
def Continues (s : Files F) (kids : Nat → List Nat) (R : Nat → Prop) (lent : Nat → Bool) (fund : Prop)
    (gone : Nat → Prop) (s' : Files F) : Prop :=
  ∃ kids', Stored s' kids' R lent ∧ (Furnished s kids R → fund → Furnished s' kids' R) ∧
    Carried gone s kids s' kids'

theorem Continues.refl (h : Stored s kids R lent) {fund : Prop} {gone : Nat → Prop} :
    Continues s kids R lent fund gone s :=
  ⟨kids, h, fun furnished _ => furnished, .refl⟩

theorem Stored.other (h : Stored s kids R lent) (other : F) :
    Stored { s with other := other } kids R lent ∧
      (Furnished s kids R → Furnished { s with other := other } kids R) ∧
      Carried (fun _ => False) s kids { s with other := other } kids :=
  ⟨h.keep h.tree h.dirs h.refs (fun _ live => live) (fun _ _ => ⟨rfl, rfl⟩) rfl
    (fun _ used _ => ⟨used, rfl⟩), id,
    ⟨fun _ listed _ => listed, le_rfl, fun _ _ => ⟨rfl, rfl, rfl, rfl⟩, fun i lo hi => by
      dsimp only at hi; omega, rfl⟩⟩

theorem Stored.chown (h : Stored s kids R lent) (uid gid : Word) (place : Place) :
    Stored (s.chown fs uid gid place) kids R lent ∧
      (Furnished s kids R → Furnished (s.chown fs uid gid place) kids R) ∧
      Carried (fun _ => False) s kids (s.chown fs uid gid place) kids := by
  cases place with
  | tmp i =>
    have tree : TreeOk (s.tmp.set i { s.tmp.nodes i with uid := uid, gid := gid }) kids :=
      h.tree.set i rfl rfl rfl rfl Iff.rfl
    obtain ⟨stored, furnished⟩ := h.restyle i tree rfl rfl rfl
    exact ⟨stored, furnished, .set rfl rfl rfl rfl rfl rfl⟩
  | foreign j => exact h.other _

theorem parentCall_continues (h : Stored s kids R lent) {op : Place → List Char → Files F × Int}
    {owned : Bool} {who : Process} {path : List Char} {fund : Prop} {gone : Nat → Prop}
    (keeps : ∀ dir name, resolveParentDir fs s who path = .ok (dir, name) →
      Continues s kids R lent fund gone (op dir name).1) :
    Continues s kids R lent fund gone (parentCall fs s op owned who path).1 := by
  unfold parentCall
  split
  · exact .refl h
  · rename_i dir name found
    split
    · exact .refl h
    split
    · exact .refl h
    have after := keeps dir name found
    dsimp only
    split
    · split
      · exact after
      · rename_i created _
        obtain ⟨kids', stored, furnished, carried⟩ := after
        obtain ⟨stored', furnished', carried'⟩ := stored.chown fs who.uid who.gid created
        exact ⟨kids', stored', fun start funds => furnished' (furnished start funds), carried.trans carried'⟩
    · exact after

theorem dirOp_continues (h : Stored s kids R lent) {tmpfs : Files F → Nat → List Char → Files F × Int}
    {foreign : F → Place → List Char → F × Int} {dir : Place} {name : List Char} {fund : Prop}
    {gone : Nat → Prop}
    (keeps : ∀ d, dir = .tmp d → (s.tmp.nodes d).ops = .tmpfsDir →
      Continues s kids R lent fund gone (tmpfs s d name).1) :
    Continues s kids R lent fund gone (dirOp s tmpfs foreign dir name).1 := by
  have elsewhere : ∀ other, Continues s kids R lent fund gone { s with other := other } :=
    fun other => ⟨kids, (h.other other).1, fun furnished _ => (h.other other).2.1 furnished,
      Carried.refl.trans (h.other other).2.2⟩
  unfold dirOp
  dsimp only
  split
  · rename_i d
    split
    · rename_i tmpfsOps
      exact keeps d rfl tmpfsOps
    · exact elsewhere _
  · exact elsewhere _

theorem processCreate_continues (h : Stored s kids R lent) (who : Process) (path : List Char) :
    Continues s kids R lent (s.tmp.count < tmpfsMaxNodes → 0 < freeFrames s.pmm) (fun _ => False)
      (processCreate fs s who path).1 := by
  refine parentCall_continues fs h fun dir name found => dirOp_continues h fun d isTmp _ => ?_
  subst isTmp
  obtain ⟨bound, isDir⟩ := h.hosted.parentDir fs found
  unfold tmpfsDirCreate
  split
  · exact .refl h
  · obtain ⟨kids', stored, furnished, carried, -⟩ := h.createFile bound isDir name
    exact ⟨kids', stored, furnished, carried⟩

theorem processMkdir_continues (h : Stored s kids R lent) (who : Process) (path : List Char) :
    Continues s kids R lent True (fun _ => False) (processMkdir fs s who path).1 := by
  refine parentCall_continues fs h fun dir name found => dirOp_continues h fun d isTmp _ => ?_
  subst isTmp
  obtain ⟨bound, isDir⟩ := h.hosted.parentDir fs found
  unfold tmpfsDirMkdir
  split
  · exact .refl h
  · obtain ⟨kids', stored, furnished, carried⟩ := h.createDir bound isDir name
    exact ⟨kids', stored, fun start _ => furnished start, carried⟩

/-- The tmpfs node that `process_unlink` would take out. -/
def unlinkTarget (s : Files F) (who : Process) (path : List Char) : Option Nat :=
  match resolveParentDir fs s who path with
  | .ok (.tmp d, name) =>
    if (s.tmp.nodes d).ops = .tmpfsDir then tmpfsDirLookup s.tmp d name else none
  | _ => none

theorem processUnlink_continues (h : Stored s kids R lent) (who : Process) (path : List Char)
    (unreferenced : ∀ i, unlinkTarget fs s who path = some i → (s.tmp.nodes i).type = .file → ¬ R i) :
    Continues s kids R lent True (fun i => unlinkTarget fs s who path = some i)
      (processUnlink fs s who path).1 := by
  refine parentCall_continues fs h fun dir name found => dirOp_continues h fun d isTmp tmpfsOps => ?_
  subst isTmp
  have target : unlinkTarget fs s who path = tmpfsDirLookup s.tmp d name := by
    unfold unlinkTarget
    rw [found]
    dsimp only
    rw [if_pos tmpfsOps]
  rw [target] at unreferenced ⊢
  obtain ⟨kids', stored, furnished, carried⟩ := h.unlink name unreferenced
  exact ⟨kids', stored, fun start _ => furnished start, carried⟩

/-- A new file would find a page, or no node. -/
def Room (s : Files F) : Prop := s.tmp.count < tmpfsMaxNodes → 0 < freeFrames s.pmm

theorem Room.freed {s' : Files F} (room : Room s) (count : s'.tmp.count = s.tmp.count)
    (total : s'.pmm.totalPages = s.pmm.totalPages)
    (clear : ∀ g, s.pmm.bitmap g = false → s'.pmm.bitmap g = false) : Room s' := by
  intro below
  obtain ⟨g, hg⟩ := Finset.card_pos.mp (room (count ▸ below))
  rw [Finset.mem_filter, Finset.mem_range] at hg
  exact Finset.card_pos.mpr ⟨g, Finset.mem_filter.mpr
    ⟨Finset.mem_range.mpr (total ▸ hg.1), clear g hg.2⟩⟩

theorem tmpfsDirUnlink_room (room : Room s) (d : Nat) (name : List Char) :
    Room (tmpfsDirUnlink s d name).1 := by
  rcases tmpfsDirUnlink_cases s d name with same | ⟨i, p, -, after, freed⟩
  · rw [same]
    exact room
  · rw [after]
    refine room.freed (unchain_count s.tmp d i) ?_ fun g clear => ?_
    · rcases freed with ⟨rfl, -⟩ | ⟨f, -, -, rfl⟩
      · rfl
      · exact pmmFreePages_total _ _ _
    · rcases freed with ⟨rfl, -⟩ | ⟨f, -, -, rfl⟩
      · exact clear
      · exact pmmFreePages_keeps_clear _ _ _ clear

/-- After a successful unlink there is room if there was room before, or if a file is
gone. -/
theorem processUnlink_room (h : Stored s kids R lent) (furnished : Furnished s kids R) {who : Process}
    {path : List Char} (ok : ¬ (processUnlink fs s who path).2 < 0)
    (funds : Room s ∨ ∃ i, unlinkTarget fs s who path = some i ∧ (s.tmp.nodes i).type = .file) :
    Room (processUnlink fs s who path).1 := by
  unfold processUnlink parentCall at ok ⊢
  unfold unlinkTarget at funds
  cases found : resolveParentDir fs s who path with
  | error e =>
    rw [found] at ok funds
    dsimp only at ok funds ⊢
    rcases funds with room | ⟨i, none, -⟩
    · exact room
    · cases none
  | ok target =>
    obtain ⟨dir, name⟩ := target
    rw [found] at ok funds
    dsimp only at ok funds ⊢
    split
    · rename_i readOnly
      rw [if_pos readOnly] at ok
      exact absurd (show -erofs < 0 by decide) ok
    rename_i writable
    rw [if_neg writable] at ok
    split
    · rename_i denied
      rw [if_pos denied] at ok
      exact absurd (show -eacces < 0 by decide) ok
    rw [if_neg (fun owned => by cases owned.1)]
    unfold dirOp
    dsimp only
    have elsewhere : ∀ other : F, (Room s ∨ False) → Room { s with other := other } :=
      fun _ room => room.elim id False.elim
    cases dir with
    | foreign j =>
      refine elsewhere _ (funds.imp id ?_)
      rintro ⟨i, none, -⟩
      cases none
    | tmp d =>
      dsimp only at funds ⊢
      split
      · rename_i tmpfsOps
        rw [if_pos tmpfsOps] at funds
        rcases funds with room | ⟨i, hit, file⟩
        · exact tmpfsDirUnlink_room room d name
        · exact fun _ => h.unlink_frees furnished hit file
      · rename_i tmpfsOps
        rw [if_neg tmpfsOps] at funds
        refine elsewhere _ (funds.imp id ?_)
        rintro ⟨i, none, -⟩
        cases none

theorem Stored.resolved_live (h : Stored s kids R lent) {path : List Char} {i : Nat}
    (low : i < tmpfsMaxNodes) (found : (vfsResolvePath fs s path).map s.idOf = some (fileId i)) :
    Live s.tmp kids R i := by
  rw [Option.map_eq_some_iff] at found
  obtain ⟨place, hit, id⟩ := found
  have settled := h.hosted.resolve_settled fs hit
  cases place with
  | foreign j =>
    simp only [Files.idOf, foreignId, fileId] at id
    omega
  | tmp j =>
    unfold Files.idOf at id
    dsimp only at id
    split at id
    · rename_i file
      have same : j = i := by
        unfold fileId at id
        omega
      subst same
      refine ⟨file, .inl (settled.2.resolve_left fun dir => ?_)⟩
      rw [file] at dir
      cases dir
    · simp only [dirId, fileId] at id
      omega

theorem createAndResolve_continues (h : Stored s kids R lent) (who : Process) (path : List Char) :
    ∃ kids', Stored (createAndResolve (vfsTree fs) s who path).1 kids' R lent ∧
      (Furnished s kids R → Room s → Furnished (createAndResolve (vfsTree fs) s who path).1 kids' R) ∧
      Carried (fun _ => False) s kids (createAndResolve (vfsTree fs) s who path).1 kids' ∧
      ∀ i, i < tmpfsMaxNodes → (createAndResolve (vfsTree fs) s who path).2 = .ok (fileId i) →
        Live (createAndResolve (vfsTree fs) s who path).1.tmp kids' R i := by
  obtain ⟨kids', stored, furnished, carried⟩ := processCreate_continues fs h who path
  refine ⟨kids', ?_⟩
  unfold createAndResolve
  rw [show (vfsTree fs).create s who path = processCreate fs s who path from rfl]
  dsimp only
  by_cases failed : (processCreate fs s who path).2 < 0
  · rw [if_pos failed]
    exact ⟨stored, furnished, carried, fun i _ ok => by cases ok⟩
  · rw [if_neg failed]
    cases found : (vfsTree fs).resolve (processCreate fs s who path).1 who.cwd path with
    | none => exact ⟨stored, furnished, carried, fun i _ ok => by cases ok⟩
    | some node =>
      refine ⟨stored, furnished, carried, fun i low ok => ?_⟩
      cases ok
      exact stored.resolved_live fs low found

/-- `process_open` will unlink and create again what is at the path. -/
def Truncates (s : Files F) (who : Process) (path : List Char) (flags : Nat) : Prop :=
  (vfsResolvePathCwd fs s who.cwd path).isSome = true ∧
    ¬ (flags &&& oCreat ≠ 0 ∧ flags &&& oExcl ≠ 0) ∧ flags &&& oTrunc ≠ 0 ∧
    flags &&& oAccmode ≠ oRdonly

instance (s : Files F) (who : Process) (path : List Char) (flags : Nat) :
    Decidable (Truncates fs s who path flags) :=
  inferInstanceAs (Decidable (_ ∧ _))

/-- `process_open` will create the file. -/
def CreatesNew (s : Files F) (who : Process) (path : List Char) (flags : Nat) : Prop :=
  vfsResolvePathCwd fs s who.cwd path = none ∧ flags &&& oCreat ≠ 0

/-- What an open may need: a page for a new file, or the pages of the old one. -/
def Affordable (s : Files F) (who : Process) (path : List Char) (flags : Nat) : Prop :=
  (CreatesNew fs s who path flags → Room s) ∧
    (Truncates fs s who path flags →
      Room s ∨ ∃ i, unlinkTarget fs s who path = some i ∧ (s.tmp.nodes i).type = .file)

theorem locate_continues (h : Stored s kids R lent) (who : Process) (path : List Char) (flags : Nat)
    (spares : Truncates fs s who path flags →
      ∀ i, unlinkTarget fs s who path = some i → (s.tmp.nodes i).type = .file → ¬ R i) :
    ∃ kids', Stored (locate (vfsTree fs) s who path flags).1 kids' R lent ∧
      (Furnished s kids R → Affordable fs s who path flags →
        Furnished (locate (vfsTree fs) s who path flags).1 kids' R) ∧
      Carried (fun i => Truncates fs s who path flags ∧ unlinkTarget fs s who path = some i) s kids
        (locate (vfsTree fs) s who path flags).1 kids' ∧
      ∀ i, i < tmpfsMaxNodes → (locate (vfsTree fs) s who path flags).2 = .ok (fileId i) →
        Live (locate (vfsTree fs) s who path flags).1.tmp kids' R i := by
  unfold locate
  cases found : (vfsTree fs).resolve s who.cwd path with
  | none =>
    have absent : vfsResolvePathCwd fs s who.cwd path = none := by
      simpa [vfsTree] using found
    dsimp only
    split
    · exact ⟨kids, h, fun furnished _ => furnished, .refl, fun i _ failed => by cases failed⟩
    · rename_i creates
      obtain ⟨kids', stored, furnished, carried, live⟩ := createAndResolve_continues fs h who path
      exact ⟨kids', stored, fun start funds => furnished start (funds.1 ⟨absent, creates⟩),
        Carried.refl.trans carried, live⟩
  | some node =>
    have present : (vfsResolvePathCwd fs s who.cwd path).isSome = true := by
      simp only [vfsTree, Option.map_eq_some_iff] at found
      obtain ⟨place, hit, -⟩ := found
      rw [hit]
      rfl
    dsimp only
    split
    · exact ⟨kids, h, fun furnished _ => furnished, .refl, fun i _ failed => by cases failed⟩
    rename_i notExclusive
    split
    · rename_i truncating
      have truncates : Truncates fs s who path flags := ⟨present, notExclusive, truncating⟩
      obtain ⟨kids₁, stored₁, furnished₁, carried₁⟩ :=
        processUnlink_continues fs h who path (spares truncates)
      have dropped : Carried (fun i => Truncates fs s who path flags ∧ unlinkTarget fs s who path = some i)
          s kids (processUnlink fs s who path).1 kids₁ :=
        ⟨fun i listed stays => carried₁.linked i listed fun target => stays ⟨truncates, target⟩,
          carried₁.count, carried₁.old, carried₁.new, carried₁.mem⟩
      have unlink : (vfsTree fs).unlink s who path = processUnlink fs s who path := rfl
      rw [unlink]
      split
      · exact ⟨kids₁, stored₁, fun start _ => furnished₁ start trivial, dropped,
          fun i _ failed => by cases failed⟩
      · rename_i ok
        obtain ⟨kids₂, stored₂, furnished₂, carried₂, live⟩ := createAndResolve_continues fs stored₁ who path
        refine ⟨kids₂, stored₂, fun start funds => furnished₂ (furnished₁ start trivial) ?_,
          dropped.trans carried₂, live⟩
        exact processUnlink_room fs h start ok (funds.2 truncates)
    · refine ⟨kids, h, fun furnished _ => furnished, .refl, fun i low ok => ?_⟩
      cases ok
      exact h.resolved_live fs low found

end Paths

end Isunux
