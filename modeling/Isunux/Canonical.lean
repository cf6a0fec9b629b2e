import Isunux.Endings

/-! The working directory. `vfs_canonical_path` prints the names it meets on the way up to the
root, and `vfs_resolve_path` reads them on the way down. -/
namespace Isunux

open Route (Move walk Lineal)

/-- The path that spells a position. -/
def spell (names : List (List Char)) : List Char := '/' :: ['/'].intercalate names.reverse

/-- A name that `resolve_parent_dir` can hand to a directory, if it is not `.` or `..`. -/
def CleanName (c : List Char) : Prop := PlainName c ∧ '/' ∉ c

/-- The root itself, or names separated by single slashes. -/
def Canonical (cwd : List Char) : Prop :=
  cwd = ['/'] ∨ ∃ rest, cwd = '/' :: rest ∧ rest.getLast? ≠ some '/' ∧
    ∀ c ∈ rest.splitOn '/', c ≠ [] ∧ c ≠ ['.'] ∧ c ≠ ['.', '.']

section Spelling

variable {names : List (List Char)}

theorem route_intercalate (clean : ∀ c ∈ names, CleanName c) :
    route (['/'].intercalate names) = names.map .down := by
  induction names with
  | nil => rfl
  | cons a names ih =>
    have first := clean a List.mem_cons_self
    have down := route_plain first.1 first.2
    cases names with
    | nil =>
      rw [List.intercalate_singleton, down]
      rfl
    | cons b names =>
      have rest := ih fun c mem => clean c (List.mem_cons_of_mem a mem)
      rw [List.intercalate_cons_cons, List.append_assoc, List.singleton_append, route_slash, rest, down]
      rfl

theorem intercalate_length (long : ∀ c ∈ names, c ≠ []) : names.length ≤ (['/'].intercalate names).length := by
  induction names with
  | nil => exact Nat.zero_le _
  | cons a names ih =>
    have first := List.length_pos_of_ne_nil (long a List.mem_cons_self)
    cases names with
    | nil =>
      rw [List.intercalate_singleton]
      exact first
    | cons b names =>
      have rest := ih fun c mem => long c (List.mem_cons_of_mem a mem)
      rw [List.intercalate_cons_cons, List.length_append, List.length_append]
      simp only [List.length_cons, List.length_nil] at rest ⊢
      omega

theorem spell_canonical (clean : ∀ c ∈ names, CleanName c) : Canonical (spell names) := by
  by_cases none : names = []
  · subst none
    exact .inl rfl
  have clean' : ∀ c ∈ names.reverse, CleanName c := fun c mem => clean c (List.mem_reverse.mp mem)
  have some : names.reverse ≠ [] := fun no => none (List.reverse_eq_nil_iff.mp no)
  have split : (['/'].intercalate names.reverse).splitOn '/' = names.reverse :=
    List.splitOn_intercalate '/' (fun c mem => (clean' c mem).2) some
  refine .inr ⟨_, rfl, fun slash => ?_, fun c mem => ?_⟩
  · obtain ⟨front, eq⟩ := List.getLast?_eq_some_iff.mp slash
    -- behind a last slash there would be one more name, and it would be empty
    have empty : [] ∈ (['/'].intercalate names.reverse).splitOn '/' := by
      rw [eq, List.splitOn_append_cons_self]
      exact List.mem_append_right _ (by decide)
    rw [split] at empty
    exact (clean' [] empty).1.1 rfl
  · rw [split] at mem
    obtain ⟨⟨named, -, dot, dots⟩, -⟩ := clean' c mem
    exact ⟨named, dot, dots⟩

end Spelling

section Trees

variable {F : Type} (fs : Foreign F) {s : Files F} {kids : Nat → List Nat} {names : List (List Char)} {node : Place}

/-- A tree in which every node is listed by its parent under its name, a clean one. What other
file systems hand out keeps the same rules. -/
structure CleanTree (s : Files F) (kids : Nat → List Nat) : Prop where
  kin : Kin s.tmp kids
  root : (s.tmp.nodes 0).parent = 0
  top : ∀ d, 0 ∉ kids d
  clean : ∀ d i, i ∈ kids d → CleanName (s.tmp.nodes i).name
  abroad : ∀ p a j, s.lookup fs p a = some (.foreign j) →
    s.parentOf fs (.foreign j) = p ∧ fs.name s.other j = a ∧ CleanName a

theorem CleanTree.step (c : CleanTree fs s kids) {p x : Place} {a : List Char} (hit : s.lookup fs p a = some x) :
    s.parentOf fs x = p ∧ s.nameOf fs x = a ∧ CleanName a ∧ x ≠ .tmp 0 := by
  cases x with
  | foreign j =>
    obtain ⟨parent, name, clean⟩ := c.abroad p a j hit
    exact ⟨parent, name, clean, nofun⟩
  | tmp i =>
    obtain ⟨e, rfl, -, found⟩ := lookup_tmp fs hit
    have mem := c.kin.tree.lookup_mem found
    have name : (s.tmp.nodes i).name = a :=
      of_decide_eq_true (List.find?_some (p := fun i => decide ((s.tmp.nodes i).name = a)) found)
    refine ⟨congrArg Place.tmp (c.kin.parent e i mem), name, name ▸ c.clean e i mem, ?_⟩
    rintro same
    cases same
    exact c.top e mem

theorem CleanTree.family (c : CleanTree fs s kids) : FamilyTree fs s :=
  ⟨congrArg Place.tmp c.root, fun _ _ _ hit => (c.step fs hit).1⟩

theorem CleanTree.climb (c : CleanTree fs s kids) (here : s.reached fs names = some node) {fuel : Nat}
    (enough : names.length ≤ fuel) :
    (ancestors fs s fuel node).map (s.nameOf fs) = names ∧ ∀ a ∈ names, CleanName a := by
  have up := c.family fs
  induction names generalizing node fuel with
  | nil =>
    cases here
    refine ⟨?_, fun a mem => absurd mem List.not_mem_nil⟩
    cases fuel with
    | zero => rfl
    | succ fuel =>
      rw [ancestors, if_pos up.top]
      rfl
  | cons a names ih =>
    obtain ⟨p, above, hit⟩ := Option.bind_eq_some_iff.mp here
    obtain ⟨parent, name, clean, -⟩ := c.step fs hit
    have other : node ≠ p := Lineal.child_ne up (fun p a hit => (c.step fs hit).2.2.2 rfl) above hit
    cases fuel with
    | zero => exact absurd enough (Nat.not_succ_le_zero _)
    | succ fuel =>
      obtain ⟨rest, cleans⟩ := ih above (Nat.le_of_succ_le_succ enough)
      rw [ancestors, parent, if_neg other.symm, List.map_cons, rest, name]
      refine ⟨rfl, fun b mem => ?_⟩
      rcases List.mem_cons.mp mem with rfl | mem
      · exact clean
      · exact cleans b mem

theorem CleanTree.printed (c : CleanTree fs s kids) (here : s.reached fs names = some node)
    (short : (spell names).length < vfsMaxPath) : vfsCanonicalPath fs s node = spell names := by
  have cleans := (c.climb fs here le_rfl).2
  have few : names.length ≤ vfsMaxPath := by
    have long := intercalate_length fun a mem => (cleans a (List.mem_reverse.mp mem)).1.1
    rw [List.length_reverse] at long
    simp only [spell, List.length_cons] at short
    omega
  unfold vfsCanonicalPath
  rw [List.map_reverse, (c.climb fs here few).1]
  exact List.take_of_length_le (Nat.le_sub_one_of_lt short)

theorem CleanTree.read_back (c : CleanTree fs s kids) (here : s.reached fs names = some node) :
    vfsResolvePath fs s (spell names) = some node := by
  have cleans := (c.climb fs here le_rfl).2
  rw [spell, vfsResolvePath_route, route_intercalate fun a mem => cleans a (List.mem_reverse.mp mem), Route.walk_downs]
  exact here

theorem CleanTree.resolved (c : CleanTree fs s kids) {q : List Char} (found : vfsResolvePath fs s q = some node) :
    ∃ names, s.reached fs names = some node := by
  unfold vfsResolvePath at found
  split at found
  · rename_i p
    exact ⟨_, ((c.family fs).arrives (h := []) rfl ((vfsResolvePath_route fs s p).symm.trans found)).2⟩
  · cases found

end Trees

section Calls

variable {F : Type} (fs : Foreign F) (transferElsewhere : F → Vnode → Word → Word → F × Int)
  {kids : Nat → List Nat} {w : Store F}

/-- What `process_chdir` owes. It fails and keeps the working directory, or the path leads to a
directory, and if the path of that fits, it is canonical and leads there too. -/
def ChdirMeets (w : Store F) : StoreOp F → Prop
  | .chdir p path =>
    let r := storeStep fs transferElsewhere w (.chdir p path)
    let cwd := (w.kernel.procs p).cwd
    let cwd' := (r.1.kernel.procs p).cwd
    (∃ e, r.2 = some (e, []) ∧ e < 0 ∧ cwd' = cwd) ∨
      (r.2 = some (0, []) ∧ ∃ node names, vfsResolvePathCwd fs w.files cwd path = some node ∧
        w.files.typeOf fs node = .dir ∧ w.files.reached fs names = some node ∧
          ((spell names).length < vfsMaxPath →
            cwd' = spell names ∧ Canonical cwd' ∧ vfsResolvePath fs r.1.files cwd' = some node))
  | _ => True

theorem CleanTree.chdir (c : CleanTree fs w.files kids) (p : Nat) (path : List Char) :
    ChdirMeets fs transferElsewhere w (.chdir p path) := by
  unfold ChdirMeets storeStep
  dsimp only
  cases outcome : processChdir fs w.files (w.kernel.procs p) path with
  | error e =>
    refine .inl ⟨e, rfl, ?_, rfl⟩
    unfold processChdir at outcome
    split at outcome
    · cases outcome
      decide
    split at outcome
    · cases outcome
      decide
    split at outcome
    · cases outcome
      decide
    · cases outcome
  | ok cwd =>
    unfold processChdir at outcome
    split at outcome
    · cases outcome
    rename_i node found
    split at outcome
    · cases outcome
    rename_i isDir
    split at outcome
    · cases outcome
    cases outcome
    obtain ⟨names, here⟩ := c.resolved fs found
    refine .inr ⟨rfl, node, names, found, not_not.mp isDir, here, fun short => ?_⟩
    have cwd' : ((w.kernel.setProc p fun x => { x with cwd := vfsCanonicalPath fs w.files node }).procs p).cwd =
        spell names := by
      unfold Kernel.setProc
      dsimp only
      rw [Function.update_self]
      exact c.printed fs here short
    have same : ((w.setKernel (w.kernel.setProc p fun x => { x with cwd := vfsCanonicalPath fs w.files node })).kernel.procs
        p).cwd = spell names := cwd'
    rw [same]
    exact ⟨rfl, spell_canonical (c.climb fs here le_rfl).2, c.read_back fs here⟩

/-- In every run of `process_chdir` calls, the working directory is canonical after every success
and leads to where the path led. -/
theorem chdir_canonical (w : Store F) (kids : Nat → List Nat) (c : CleanTree fs w.files kids)
    (calls : List (Nat × List Char)) :
    Run.Along (storeStep fs transferElsewhere) (ChdirMeets fs transferElsewhere) w
      (calls.map fun call => .chdir call.1 call.2) := by
  induction calls generalizing w with
  | nil => exact trivial
  | cons call calls ih =>
    refine ⟨c.chdir fs transferElsewhere call.1 call.2, ih _ ?_⟩
    have files : (storeStep fs transferElsewhere w (.chdir call.1 call.2)).1.files = w.files := by
      unfold storeStep
      dsimp only
      split <;> rfl
    rw [files]
    exact c

end Calls

/-- The root with one directory in it. -/
def oneDirStore : Store Unit :=
  smallStore.setFiles { smallStore.files with tmp := tmpfsInit.grow 0 (dirNode 0 ['a']) }

theorem oneDirStore_clean : CleanTree consoleOnly oneDirStore.files (withKid (fun _ => []) 0 1) := by
  have only : ∀ d i, i ∈ withKid (fun _ => []) 0 1 d → d = 0 ∧ i = 1 := by
    intro d i mem
    rcases mem_withKid mem with old | new
    · cases old
    · exact new
  refine ⟨⟨tmpfsInit_ok.grow Nat.one_pos rfl (by decide) rfl rfl (by decide), ?_⟩, rfl, ?_, ?_, ?_⟩
  · intro d i mem
    obtain ⟨rfl, rfl⟩ := only d i mem
    rfl
  · intro d mem
    cases (only d 0 mem).2
  · intro d i mem
    obtain ⟨rfl, rfl⟩ := only d i mem
    exact ⟨by decide, by decide⟩
  · intro p a j hit
    exact absurd hit consoleOnly_lookup

theorem chdir_canonical_oneDir :
    Run.Along (storeStep consoleOnly nothingElse) (ChdirMeets consoleOnly nothingElse) oneDirStore
      [.chdir 0 ['/', 'a'], .chdir 0 ['.', '.', '/', '/', 'a', '/']] :=
  chdir_canonical consoleOnly nothingElse oneDirStore _ oneDirStore_clean
    [(0, ['/', 'a']), (0, ['.', '.', '/', '/', 'a', '/'])]

end Isunux
