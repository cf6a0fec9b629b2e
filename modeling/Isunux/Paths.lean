import Isunux.TmpfsRuns
import Isunux.Lib.Route

/-! What a path denotes. The string is the one the caller means, of any length; the walk
takes its components whole. `vfs_resolve_path_cwd` reads the string through a buffer of
128 bytes and its components through one of 64. -/
namespace Isunux

open Route (Move walk Lineal SameRoute stops)

def moveOf (component : List Char) : Option (Move (List Char)) :=
  if component = [] ∨ component = ['.'] then none
  else if component = ['.', '.'] then some .up
  else some (.down component)

def moves (components : List (List Char)) : List (Move (List Char)) := components.filterMap moveOf

def spelled (cwd path : List Char) : List Char :=
  if path.head? = some '/' then path else cwd ++ '/' :: path

/-- The components as `vfs_resolve_path` cuts them. -/
def pieces : Nat → List Char → List (List Char)
  | 0, _ => []
  | _ + 1, [] => []
  | fuel + 1, p =>
    let r := takeComponent (vfsMaxName - 1) p
    r.1 :: pieces fuel (if r.2.head? = some '/' then r.2.tail else r.2)

/-- What `vfs_resolve_path_cwd` makes of a path. -/
def piecesRead (cwd path : List Char) : List (List Char) :=
  let p := (vfsCombinePath cwd path).tail
  pieces p.length p

def ReadAsSpelled (cwd path : List Char) : Prop :=
  SameRoute (moves (piecesRead cwd path)) (moves ((spelled cwd path).splitOn '/'))

section Denotation

variable {F : Type} (fs : Foreign F) (s : Files F)

def Files.denoted (components : List (List Char)) : Option Place :=
  walk (s.parentOf fs) (s.lookup fs) (.tmp 0) (moves components)

/-- The path resolves to nothing or to what it spells. -/
def Denotes (cwd path : List Char) : Prop :=
  vfsResolvePathCwd fs s cwd path = none ∨
    vfsResolvePathCwd fs s cwd path = s.denoted fs ((spelled cwd path).splitOn '/')

/-- The root is its own parent, and a node that a lookup hands out has the directory of
the lookup for its parent. -/
def FamilyTree : Prop := Lineal (s.parentOf fs) (s.lookup fs) (.tmp 0)

theorem moves_cons (w : List Char) (ws : List (List Char)) :
    moves (w :: ws) = (moveOf w).toList ++ moves ws := by
  unfold moves
  rw [List.filterMap_cons]
  cases moveOf w <;> rfl

theorem resolveLoop_eq (fuel : Nat) (current : Place) (p : List Char) :
    resolveLoop fs s fuel current p =
      walk (s.parentOf fs) (s.lookup fs) current (moves (pieces fuel p)) := by
  induction fuel generalizing current p with
  | zero => rfl
  | succ fuel ih =>
    cases p with
    | nil => rfl
    | cons c p =>
      simp only [resolveLoop, pieces, moves_cons]
      generalize takeComponent (vfsMaxName - 1) (c :: p) = r
      unfold moveOf
      by_cases stay : r.1 = [] ∨ r.1 = ['.']
      · simp only [if_pos stay]
        exact ih _ _
      · by_cases up : r.1 = ['.', '.']
        · simp only [if_neg stay, if_pos up]
          exact ih _ _
        · simp only [if_neg stay, if_neg up, Option.toList_some, List.singleton_append, walk]
          cases s.lookup fs current r.1 with
          | none => rfl
          | some next => exact ih _ _

theorem combined_absolute {cwd : List Char} (absolute : cwd.head? = some '/') (path : List Char) :
    (vfsCombinePath cwd path).head? = some '/' := by
  obtain ⟨rest, rfl⟩ : ∃ rest, cwd = '/' :: rest := by
    cases cwd with
    | nil => cases absolute
    | cons c rest =>
      cases absolute
      exact ⟨rest, rfl⟩
  unfold vfsCombinePath
  split
  · rename_i slash
    cases path with
    | nil => cases slash
    | cons c path => exact slash
  · dsimp only
    split <;> rfl

theorem resolve_eq {cwd path : List Char} (absolute : cwd.head? = some '/') :
    vfsResolvePathCwd fs s cwd path = s.denoted fs (piecesRead cwd path) := by
  have head := combined_absolute absolute path
  unfold vfsResolvePathCwd Files.denoted piecesRead
  generalize vfsCombinePath cwd path = q at head ⊢
  cases q with
  | nil => cases head
  | cons c q =>
    cases head
    exact resolveLoop_eq fs s _ _ _

end Denotation

section Fitting

theorem takeComponent_whole {w rest : List Char} {room : Nat} (noSlash : '/' ∉ w) (short : w.length ≤ room)
    (stop : rest = [] ∨ rest.head? = some '/') : takeComponent room (w ++ rest) = (w, rest) := by
  induction w generalizing room with
  | nil =>
    cases room with
    | zero => rfl
    | succ room =>
      cases rest with
      | nil => rfl
      | cons c rest =>
        obtain rfl : c = '/' := by simpa using stop
        rfl
  | cons c w ih =>
    obtain ⟨other, noSlash⟩ : c ≠ '/' ∧ '/' ∉ w := by
      rw [List.mem_cons, not_or] at noSlash
      exact ⟨Ne.symm noSlash.1, noSlash.2⟩
    cases room with
    | zero => cases short
    | succ room =>
      rw [List.cons_append, takeComponent, if_neg other, ih noSlash (Nat.le_of_succ_le_succ short)]

theorem moves_append (xs ys : List (List Char)) : moves (xs ++ ys) = moves xs ++ moves ys :=
  List.filterMap_append

theorem splitOn_slash (p : List Char) : ('/' :: p).splitOn '/' = [] :: p.splitOn '/' :=
  List.splitOn_append_cons_self_of_not_mem List.not_mem_nil p

theorem moves_pieces {fuel : Nat} {p : List Char} (enough : p.length ≤ fuel)
    (short : ∀ w ∈ p.splitOn '/', w.length < vfsMaxName) :
    moves (pieces fuel p) = moves (p.splitOn '/') := by
  induction fuel generalizing p with
  | zero =>
    obtain rfl := List.length_eq_zero_iff.mp (Nat.le_zero.mp enough)
    rfl
  | succ fuel ih =>
    cases p with
    | nil => rfl
    | cons c p =>
      simp only [pieces]
      by_cases slash : '/' ∈ c :: p
      · obtain ⟨w, q, eq, noSlash⟩ := List.eq_append_cons_of_mem slash
        rw [eq] at enough short ⊢
        rw [List.splitOn_append_cons_self_of_not_mem noSlash] at short ⊢
        have fits : w.length ≤ vfsMaxName - 1 := Nat.le_sub_one_of_lt (short w List.mem_cons_self)
        rw [takeComponent_whole noSlash fits (.inr rfl)]
        simp only [List.head?_cons, List.tail_cons, if_true]
        rw [moves_cons, moves_cons, ih _ fun v mem => short v (List.mem_cons_of_mem _ mem)]
        simp only [List.length_append, List.length_cons] at enough
        omega
      · rw [List.splitOn_eq_singleton slash] at short ⊢
        have fits : (c :: p).length ≤ vfsMaxName - 1 := Nat.le_sub_one_of_lt (short _ List.mem_cons_self)
        have whole := takeComponent_whole slash fits (.inl rfl)
        rw [List.append_nil] at whole
        rw [whole, moves_cons, moves_cons]
        cases fuel <;> rfl

theorem readAsSpelled_of_fits {cwd path : List Char} (absolute : cwd.head? = some '/')
    (total : (spelled cwd path).length < vfsMaxPath)
    (short : ∀ w ∈ (spelled cwd path).splitOn '/', w.length < vfsMaxName) : ReadAsSpelled cwd path := by
  obtain ⟨same, sub⟩ :
      moves ((vfsCombinePath cwd path).splitOn '/') = moves ((spelled cwd path).splitOn '/') ∧
        ∀ w ∈ (vfsCombinePath cwd path).splitOn '/', w ∈ (spelled cwd path).splitOn '/' := by
    unfold spelled vfsCombinePath at *
    split at total
    · rename_i slash
      rw [if_pos slash, if_pos slash, List.take_of_length_le (by omega)]
      exact ⟨rfl, fun w mem => mem⟩
    · rename_i slash
      rw [if_neg slash, if_neg slash]
      simp only [List.length_append, List.length_cons] at total
      have cwdFits : cwd.take (vfsMaxPath - 2) = cwd := List.take_of_length_le (by omega)
      simp only [cwdFits]
      split
      · rename_i last
        obtain ⟨b, rfl⟩ := List.getLast?_eq_some_iff.mp last
        rw [List.take_of_length_le (by omega), List.append_assoc, List.append_assoc, List.singleton_append,
          List.singleton_append, List.splitOn_append_cons_self, List.splitOn_append_cons_self, splitOn_slash]
        refine ⟨?_, fun w mem => ?_⟩
        · rw [moves_append, moves_append]
          rfl
        · rcases List.mem_append.mp mem with inCwd | inPath
          · exact List.mem_append_left _ inCwd
          · exact List.mem_append_right _ (List.mem_cons_of_mem _ inPath)
      · rw [List.take_of_length_le (by rw [List.length_append, List.length_singleton]; omega),
          List.append_assoc, List.singleton_append]
        exact ⟨rfl, fun w mem => mem⟩
  have head := combined_absolute absolute path
  unfold ReadAsSpelled piecesRead
  generalize vfsCombinePath cwd path = q at head same sub ⊢
  cases q with
  | nil => cases head
  | cons c q =>
    cases head
    rw [splitOn_slash] at same sub
    dsimp only [List.tail_cons]
    rw [moves_pieces le_rfl fun w mem => short w (sub w (List.mem_cons_of_mem _ mem)), ← same]
    exact .refl _

end Fitting

/-! A tree for a list of moves: it has the positions that the moves pass and no others. -/

section Trie

variable (ms : List (Move (List Char)))

def trie : List (List (List Char)) := ((stops [] ms).filter (· ≠ [])).dedup

/-- The position of a node of the tree. -/
def positionOf : Place → Option (List (List Char))
  | .tmp 0 => some []
  | .tmp (_ + 1) => none
  | .foreign j => (trie ms)[j]?

def trieFs : Foreign Unit where
  __ := consoleOnly
  lookup := fun _ place a =>
    (positionOf ms place).bind fun h =>
      if a :: h ∈ trie ms then some ((trie ms).idxOf (a :: h)) else none
  parent := fun _ j =>
    match (trie ms)[j]? with
    | some (_ :: b :: h) => .node ((trie ms).idxOf (b :: h))
    | _ => .mnt

/-- The root is served by another file system. -/
def trieFiles : Files Unit :=
  ⟨tmpfsInit.set 0 { tmpfsInit.nodes 0 with ops := .foreign }, eightPages, fun _ _ => 0#64, (), 0, 0⟩

def placeAt (h : List (List Char)) : Place :=
  if h = [] then .tmp 0 else .foreign ((trie ms).idxOf h)

variable {ms}

theorem mem_trie {p : List (List Char)} : p ∈ trie ms ↔ p ∈ stops [] ms ∧ p ≠ [] := by
  simp [trie]

theorem trie_lookup (place : Place) (a : List Char) :
    trieFiles.lookup (trieFs ms) place a = (positionOf ms place).bind fun h =>
      if a :: h ∈ trie ms then some (placeAt ms (a :: h)) else none := by
  have found : ((trieFs ms).lookup () place a).map Place.foreign = (positionOf ms place).bind fun h =>
      if a :: h ∈ trie ms then some (placeAt ms (a :: h)) else none := by
    change ((positionOf ms place).bind _).map Place.foreign = _
    cases positionOf ms place with
    | none => rfl
    | some h =>
      simp only [Option.bind_some, placeAt, List.cons_ne_nil, if_false]
      split <;> rfl
  cases place with
  | tmp i =>
    cases i with
    | zero => exact found
    | succ i => rfl
  | foreign j => exact found

theorem positionOf_placeAt {h : List (List Char)} (mem : h = [] ∨ h ∈ trie ms) :
    positionOf ms (placeAt ms h) = some h := by
  unfold placeAt
  rcases mem with rfl | mem
  · rfl
  · rw [if_neg (mem_trie.mp mem).2]
    exact List.getElem?_idxOf mem

theorem trie_tail {a : List Char} {h : List (List Char)} (mem : a :: h ∈ trie ms) : h = [] ∨ h ∈ trie ms := by
  by_cases top : h = []
  · exact .inl top
  · rcases Route.tail_mem_stops (mem_trie.mp mem).1 with above | met
    · exact absurd (List.suffix_nil.mp above) top
    · exact .inr (mem_trie.mpr ⟨met, top⟩)

theorem trie_locate (h : List (List Char)) :
    Route.locate (trieFiles.lookup (trieFs ms)) (.tmp 0) h =
      if h = [] ∨ h ∈ trie ms then some (placeAt ms h) else none := by
  induction h with
  | nil => rfl
  | cons a h ih =>
    rw [Route.locate, ih]
    by_cases mem : a :: h ∈ trie ms
    · rw [if_pos (trie_tail mem), if_pos (.inr mem), Option.bind_some, trie_lookup,
        positionOf_placeAt (trie_tail mem), Option.bind_some, if_pos mem]
    · rw [if_neg (show ¬ (a :: h = [] ∨ a :: h ∈ trie ms) by simpa using mem)]
      split
      · rename_i here
        rw [Option.bind_some, trie_lookup, positionOf_placeAt here, Option.bind_some, if_neg mem]
      · rfl

theorem eq_placeAt {place : Place} {h : List (List Char)} (here : positionOf ms place = some h) :
    place = placeAt ms h := by
  cases place with
  | tmp i =>
    cases i with
    | zero =>
      cases here
      rfl
    | succ i => cases here
  | foreign j =>
    obtain ⟨bound, rfl⟩ := List.getElem?_eq_some_iff.mp here
    have nodup : (trie ms).Nodup := List.nodup_dedup _
    rw [placeAt, if_neg (mem_trie.mp (List.getElem_mem bound)).2, nodup.idxOf_getElem j bound]

theorem trie_familyTree : FamilyTree (trieFs ms) trieFiles := by
  refine ⟨rfl, fun place a next found => ?_⟩
  rw [trie_lookup] at found
  obtain ⟨h, here, step⟩ := Option.bind_eq_some_iff.mp found
  split at step
  · rename_i mem
    cases step
    rw [eq_placeAt here]
    have index := List.getElem?_idxOf mem
    simp only [placeAt, List.cons_ne_nil, if_false, Files.parentOf, trieFs, index]
    cases h <;> rfl
  · cases step

theorem trie_distinguishes {ns : List (Move (List Char))}
    (agree : walk (trieFiles.parentOf (trieFs ms)) (trieFiles.lookup (trieFs ms)) (.tmp 0) ms = none ∨
      walk (trieFiles.parentOf (trieFs ms)) (trieFiles.lookup (trieFs ms)) (.tmp 0) ms =
        walk (trieFiles.parentOf (trieFs ms)) (trieFiles.lookup (trieFs ms)) (.tmp 0) ns) :
    SameRoute ms ns := by
  have present : ∀ p, (Route.locate (trieFiles.lookup (trieFs ms)) (.tmp 0) p).isSome →
      p = [] ∨ p ∈ trie ms := by
    intro p some
    rw [trie_locate] at some
    by_contra absent
    rw [if_neg absent] at some
    cases some
  refine .of_walk trie_familyTree (fun p mem => ?_) (fun p some => ?_) (fun p q some same => ?_) agree
  · rw [trie_locate, if_pos (or_iff_not_imp_left.mpr fun top => mem_trie.mpr ⟨mem, top⟩)]
    rfl
  · exact (present p some).imp_right fun mem => (mem_trie.mp mem).1
  · have hp := present p some
    have hq := present q (same ▸ some)
    rw [trie_locate, trie_locate, if_pos hp, if_pos hq] at same
    have position := congrArg (positionOf ms) (Option.some.inj same)
    rw [positionOf_placeAt hp, positionOf_placeAt hq] at position
    exact Option.some.inj position

end Trie

/-- Over all file trees, a path resolves to nothing or to what it spells exactly if the
pieces that `vfs_resolve_path_cwd` reads lead where the components lead, by no other way. -/
theorem path_denotes_iff {cwd : List Char} (path : List Char) (absolute : cwd.head? = some '/') :
    (∀ (F : Type) (fs : Foreign F) (s : Files F), FamilyTree fs s → Denotes fs s cwd path) ↔
      ReadAsSpelled cwd path := by
  constructor
  · intro denotes
    have agree := denotes Unit (trieFs (moves (piecesRead cwd path))) trieFiles trie_familyTree
    unfold Denotes at agree
    rw [resolve_eq _ _ absolute] at agree
    exact trie_distinguishes agree
  · intro same F fs s family
    unfold Denotes
    rw [resolve_eq fs s absolute]
    exact same.walk_eq family

/-- `/a/../a` in a tree with the one entry `a`. -/
theorem path_denotes_iff_dotdot :
    Denotes (trieFs [.down ['a']]) trieFiles ['/'] ['a', '/', '.', '.', '/', 'a'] ∧
      vfsResolvePathCwd (trieFs [.down ['a']]) trieFiles ['/'] ['a', '/', '.', '.', '/', 'a'] =
        some (.foreign 0) := by
  have same : ReadAsSpelled ['/'] ['a', '/', '.', '.', '/', 'a'] := by
    unfold ReadAsSpelled
    decide +kernel
  exact ⟨(path_denotes_iff _ rfl).mpr same Unit _ _ trie_familyTree, by decide +kernel⟩

/-- A directory whose name has 63 characters, with a file `b` in it. -/
def deepTree : Files Unit :=
  let empty : Files Unit := ⟨tmpfsInit, eightPages, fun _ _ => 0#64, (), 0, 0⟩
  (tmpfsCreateFile (tmpfsCreateDir empty 0 (List.replicate 63 'a')).1 1 ['b']).1

/-- A name of 64 characters that no entry has resolves to the file `b`. -/
theorem long_name_resolves_to_split :
    vfsResolvePathCwd consoleOnly deepTree ['/'] ('/' :: (List.replicate 63 'a' ++ ['b'])) = some (.tmp 2) ∧
      (deepTree.tmp.nodes 2).name = ['b'] ∧
      ¬ Denotes consoleOnly deepTree ['/'] ('/' :: (List.replicate 63 'a' ++ ['b'])) := by
  unfold Denotes Files.denoted
  decide +kernel

end Isunux
