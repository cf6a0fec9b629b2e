import Isunux.Paths
import Isunux.TmpfsIntegrity

/-! The last component of a path. Creation takes it off the string, cut to 63 characters, and
looks up the rest; resolution reads the string from the front. Both meet at the directory. -/
namespace Isunux

open Route (Move walk)

section Cutting

theorem takeComponent_append (room : Nat) (p c : List Char) :
    takeComponent room (p ++ '/' :: c) = ((takeComponent room p).1, (takeComponent room p).2 ++ '/' :: c) := by
  induction p generalizing room with
  | nil =>
    cases room with
    | zero => rfl
    | succ room => rfl
  | cons a p ih =>
    cases room with
    | zero => rfl
    | succ room =>
      rw [List.cons_append, takeComponent, takeComponent]
      by_cases slash : a = '/'
      · rw [if_pos slash, if_pos slash]
        rfl
      · rw [if_neg slash, if_neg slash, ih]

/-- What is left to read behind a component. -/
def afterComponent (p : List Char) : List Char :=
  let r := takeComponent (vfsMaxName - 1) p
  if r.2.head? = some '/' then r.2.tail else r.2

theorem takeComponent_length (room : Nat) (p : List Char) :
    (takeComponent room p).1.length + (takeComponent room p).2.length = p.length := by
  induction p generalizing room with
  | nil => cases room <;> rfl
  | cons a p ih =>
    cases room with
    | zero => exact Nat.zero_add _
    | succ room =>
      rw [takeComponent]
      by_cases slash : a = '/'
      · rw [if_pos slash]
        exact Nat.zero_add _
      · rw [if_neg slash]
        have rest := ih room
        simp only [List.length_cons]
        omega

theorem afterComponent_shorter {p : List Char} (some : p ≠ []) : (afterComponent p).length < p.length := by
  obtain ⟨a, p, rfl⟩ := List.exists_cons_of_ne_nil some
  have total := takeComponent_length (vfsMaxName - 1) (a :: p)
  unfold afterComponent
  dsimp only
  by_cases slash : a = '/'
  · subst slash
    have here : takeComponent (vfsMaxName - 1) ('/' :: p) = ([], '/' :: p) := rfl
    rw [here]
    exact Nat.lt_succ_self _
  · have first : 0 < (takeComponent (vfsMaxName - 1) (a :: p)).1.length := by
      have here : takeComponent (vfsMaxName - 1) (a :: p) =
          (a :: (takeComponent (vfsMaxName - 2) p).1, (takeComponent (vfsMaxName - 2) p).2) := if_neg slash
      rw [here]
      exact Nat.succ_pos _
    split
    · rw [List.length_tail]
      omega
    · omega

theorem pieces_cons (fuel : Nat) {p : List Char} (some : p ≠ []) :
    pieces (fuel + 1) p = (takeComponent (vfsMaxName - 1) p).1 :: pieces fuel (afterComponent p) := by
  obtain ⟨a, p, rfl⟩ := List.exists_cons_of_ne_nil some
  rfl

theorem pieces_enough {fuel fuel' : Nat} {p : List Char} (enough : p.length ≤ fuel) (enough' : p.length ≤ fuel') :
    pieces fuel p = pieces fuel' p := by
  induction fuel generalizing fuel' p with
  | zero =>
    obtain rfl := List.length_eq_zero_iff.mp (Nat.le_zero.mp enough)
    cases fuel' <;> rfl
  | succ fuel ih =>
    by_cases none : p = []
    · subst none
      cases fuel' <;> rfl
    · have shorter := afterComponent_shorter none
      cases fuel' with
      | zero => exact absurd (List.length_eq_zero_iff.mp (Nat.le_zero.mp enough')) none
      | succ fuel' =>
        rw [pieces_cons fuel none, pieces_cons fuel' none]
        congr 1
        exact ih (by omega) (by omega)

/-- The moves that a whole string asks for. -/
def route (p : List Char) : List (Move (List Char)) := moves (pieces p.length p)

theorem route_step {p : List Char} (some : p ≠ []) :
    route p = (moveOf (takeComponent (vfsMaxName - 1) p).1).toList ++ route (afterComponent p) := by
  have shorter := afterComponent_shorter some
  obtain ⟨n, length⟩ : ∃ n, p.length = n + 1 := ⟨p.length - 1, by omega⟩
  rw [route, length, pieces_cons n some, moves_cons, route, pieces_enough (by omega) le_rfl]

theorem route_slash (p c : List Char) : route (p ++ '/' :: c) = route p ++ route c := by
  induction hn : p.length using Nat.strong_induction_on generalizing p with
  | _ n ih =>
    rw [route_step (List.append_ne_nil_of_right_ne_nil p (List.cons_ne_nil _ _))]
    by_cases none : p = []
    · subst none
      rfl
    · rw [route_step none, takeComponent_append]
      have shorter := afterComponent_shorter none
      have rest : afterComponent (p ++ '/' :: c) = afterComponent p ++ '/' :: c ∨
          afterComponent p = [] ∧ afterComponent (p ++ '/' :: c) = c := by
        unfold afterComponent
        dsimp only
        rw [takeComponent_append]
        cases left : (takeComponent (vfsMaxName - 1) p).2 with
        | nil => exact .inr ⟨rfl, rfl⟩
        | cons a q =>
          refine .inl ?_
          by_cases slash : some a = some '/'
          · rw [List.cons_append, List.head?_cons, if_pos slash, List.head?_cons, if_pos slash]
            rfl
          · rw [List.cons_append, List.head?_cons, if_neg slash, List.head?_cons, if_neg slash]
            rfl
      rw [List.append_assoc]
      congr 1
      rcases rest with longer | ⟨done, last⟩
      · rw [longer]
        exact ih _ (by omega) _ rfl
      · rw [last, done]
        rfl

theorem takeComponent_plain {p : List Char} (noSlash : '/' ∉ p) (room : Nat) :
    takeComponent room p = (p.take room, p.drop room) := by
  induction p generalizing room with
  | nil => cases room <;> rfl
  | cons a p ih =>
    cases room with
    | zero => rfl
    | succ room =>
      obtain ⟨other, noSlash⟩ : a ≠ '/' ∧ '/' ∉ p := by
        rw [List.mem_cons, not_or] at noSlash
        exact ⟨Ne.symm noSlash.1, noSlash.2⟩
      rw [takeComponent, if_neg other, ih noSlash]
      rfl

theorem afterComponent_plain {p : List Char} (noSlash : '/' ∉ p) : afterComponent p = p.drop (vfsMaxName - 1) := by
  unfold afterComponent
  rw [takeComponent_plain noSlash]
  have other : (p.drop (vfsMaxName - 1)).head? ≠ some '/' := by
    intro slash
    exact noSlash (List.mem_of_mem_drop (List.mem_of_mem_head? slash))
  exact if_neg other

/-- Where a name in a directory leads, read by `vfs_resolve_path`: to the entry of its first 63
characters, and on by what is left of it. -/
theorem route_name {c : List Char} (some : c ≠ []) (noSlash : '/' ∉ c) (short : c.length < vfsMaxPath - 1) :
    route c = (moveOf (c.take (vfsMaxName - 1))).toList ++ (moveOf (c.drop (vfsMaxName - 1))).toList := by
  rw [route_step some, takeComponent_plain noSlash, afterComponent_plain noSlash]
  congr 1
  have noSlash' : '/' ∉ c.drop (vfsMaxName - 1) := fun mem => noSlash (List.mem_of_mem_drop mem)
  have small : (c.drop (vfsMaxName - 1)).length ≤ vfsMaxName - 1 := by
    rw [List.length_drop]
    simp only [vfsMaxPath, vfsMaxName] at short ⊢
    omega
  by_cases none : c.drop (vfsMaxName - 1) = []
  · rw [none]
    rfl
  · rw [route_step none, takeComponent_plain noSlash', afterComponent_plain noSlash', List.take_of_length_le small,
      List.drop_eq_nil_of_le small]
    exact List.append_nil _

end Cutting

section Splitting

variable {F : Type} (fs : Foreign F) (s : Files F)

/-- The node that a list of names leads to from the root, the last name first. -/
def Files.reached (names : List (List Char)) : Option Place := Route.locate (s.lookup fs) (.tmp 0) names

theorem lookup_native {s : Files F} {d : Nat} (native : (s.tmp.nodes d).ops = .tmpfsDir) (a : List Char) :
    s.lookup fs (.tmp d) a = (tmpfsDirLookup s.tmp d a).map .tmp := by
  unfold Files.lookup
  dsimp only
  rw [native]

theorem lookup_tmp {s : Files F} {p : Place} {a : List Char} {i : Nat} (hit : s.lookup fs p a = some (.tmp i)) :
    ∃ e, p = .tmp e ∧ (s.tmp.nodes e).ops = .tmpfsDir ∧ tmpfsDirLookup s.tmp e a = some i := by
  unfold Files.lookup at hit
  split at hit
  · split at hit
    · cases hit
    · rename_i e a native
      obtain ⟨j, found, same⟩ := Option.map_eq_some_iff.mp hit
      cases same
      exact ⟨e, rfl, native, found⟩
    · obtain ⟨j, -, same⟩ := Option.map_eq_some_iff.mp hit
      cases same
  · obtain ⟨j, -, same⟩ := Option.map_eq_some_iff.mp hit
    cases same

theorem consoleOnly_lookup {s : Files Unit} {p : Place} {a : List Char} {j : Nat} :
    s.lookup consoleOnly p a ≠ some (.foreign j) := by
  intro hit
  unfold Files.lookup at hit
  split at hit
  · split at hit
    · cases hit
    · obtain ⟨i, -, same⟩ := Option.map_eq_some_iff.mp hit
      cases same
    · cases hit
  · cases hit

theorem lastSlash_append (q : List Char) {c : List Char} (noSlash : '/' ∉ c) :
    lastSlash (q ++ '/' :: c) = some q.length := by
  unfold lastSlash
  have length : (q ++ '/' :: c).length = q.length + 1 + c.length := by simp; omega
  rw [length, List.range_eq_range', ← List.range'_append_1, List.reverse_append, List.find?_append]
  have behind : (List.range' (0 + (q.length + 1)) c.length).reverse.find?
      (fun i => (q ++ '/' :: c)[i]? = some '/') = none := by
    rw [List.find?_eq_none]
    intro i mem
    rw [List.mem_reverse, List.mem_range'_1] at mem
    rw [List.getElem?_append_right (by omega), List.getElem?_cons, if_neg (by omega), decide_eq_true_eq]
    exact fun slash => noSlash (List.mem_of_getElem? slash)
  rw [behind, Option.none_or, List.range'_concat, List.reverse_append, List.find?_append]
  simp

theorem exists_lastSlash {q : List Char} (slash : '/' ∈ q) : ∃ a c, q = a ++ '/' :: c ∧ '/' ∉ c := by
  obtain ⟨w, v, eq, noSlash⟩ := List.eq_append_cons_of_mem (List.mem_reverse.mpr slash)
  refine ⟨v.reverse, w.reverse, ?_, fun mem => noSlash (List.mem_reverse.mp mem)⟩
  have back := congrArg List.reverse eq
  simpa using back

theorem vfsResolvePath_route (p : List Char) :
    vfsResolvePath fs s ('/' :: p) = walk (s.parentOf fs) (s.lookup fs) (.tmp 0) (route p) :=
  resolveLoop_eq fs s p.length (.tmp 0) p

/-- What stands behind the last slash. -/
def lastName (path : List Char) : List Char :=
  match lastSlash path with
  | none => path
  | some n => path.drop (n + 1)

theorem lastName_append (q : List Char) {c : List Char} (noSlash : '/' ∉ c) : lastName (q ++ '/' :: c) = c := by
  rw [lastName, lastSlash_append q noSlash]
  simp

/-- The way to the directory: what stands before the last slash. -/
def wayTo (path : List Char) : List (Move (List Char)) :=
  match lastSlash path with
  | none => []
  | some n => route (path.take n).tail

theorem wayTo_append (q : List Char) {c : List Char} (noSlash : '/' ∉ c) : wayTo (q ++ '/' :: c) = route q.tail := by
  rw [wayTo, lastSlash_append q noSlash]
  dsimp only
  rw [List.take_left]

theorem combined_length (cwd path : List Char) : (vfsCombinePath cwd path).length < vfsMaxPath := by
  unfold vfsCombinePath
  split
  · exact Nat.lt_of_le_of_lt (List.length_take_le _ _) (by decide)
  · have cut := List.length_take_le (vfsMaxPath - 2) cwd
    have out : ∀ w : List Char, w.length ≤ vfsMaxPath - 1 →
        (w ++ path.take (vfsMaxPath - 1 - w.length)).length < vfsMaxPath := by
      intro w small
      have rest := List.length_take_le (vfsMaxPath - 1 - w.length) path
      rw [List.length_append]
      simp only [vfsMaxPath] at small rest ⊢
      omega
    dsimp only
    split
    · exact out _ (cut.trans (by decide))
    · refine out _ ?_
      rw [List.length_append, List.length_singleton]
      simp only [vfsMaxPath] at cut ⊢
      omega

theorem vfsSplitPath_append {a c : List Char} (noSlash : '/' ∉ c) (short : a.length < vfsMaxPath) :
    vfsSplitPath (a ++ '/' :: c) = (if a = [] then ['/'] else a, c.take (vfsMaxName - 1)) := by
  rw [vfsSplitPath, lastSlash_append a noSlash]
  cases a with
  | nil => rfl
  | cons b a =>
    have fits : (b :: a).length ≤ vfsMaxPath - 1 := Nat.le_sub_one_of_lt short
    have drop : (b :: a ++ '/' :: c).drop ((b :: a).length + 1) = c := by simp
    have take : (b :: a ++ '/' :: c).take (min (b :: a).length (vfsMaxPath - 1)) = b :: a := by
      rw [Nat.min_eq_left fits, List.take_left]
    rw [if_neg (List.cons_ne_nil b a)]
    exact Prod.ext take (congrArg (List.take (vfsMaxName - 1)) drop)

theorem absolute_append {q : List Char} (absolute : q.head? = some '/') :
    ∃ a c, q = a ++ '/' :: c ∧ '/' ∉ c ∧ (a = [] ∨ a.head? = some '/') := by
  obtain ⟨a, c, rfl, noSlash⟩ := exists_lastSlash (List.mem_of_mem_head? absolute)
  refine ⟨a, c, rfl, noSlash, ?_⟩
  cases a with
  | nil => exact .inl rfl
  | cons b a => exact .inr absolute

theorem vfsResolvePath_way {q : List Char} (absolute : q.head? = some '/') :
    vfsResolvePath fs s q = walk (s.parentOf fs) (s.lookup fs) (.tmp 0) (wayTo q ++ route (lastName q)) := by
  obtain ⟨a, c, rfl, noSlash, start⟩ := absolute_append absolute
  rw [lastName_append a noSlash, wayTo_append a noSlash]
  rcases start with rfl | slash
  · exact vfsResolvePath_route fs s c
  · obtain ⟨b, rfl⟩ := List.head?_eq_some_iff.mp slash
    rw [List.tail_cons, ← route_slash]
    exact vfsResolvePath_route fs s (b ++ '/' :: c)

theorem splitDir_way {q : List Char} (absolute : q.head? = some '/') (short : q.length < vfsMaxPath) :
    vfsResolvePath fs s (vfsSplitPath q).1 = walk (s.parentOf fs) (s.lookup fs) (.tmp 0) (wayTo q) := by
  obtain ⟨a, c, rfl, noSlash, start⟩ := absolute_append absolute
  rw [List.length_append, List.length_cons] at short
  rw [wayTo_append a noSlash, vfsSplitPath_append noSlash (by omega)]
  rcases start with rfl | slash
  · rfl
  · obtain ⟨b, rfl⟩ := List.head?_eq_some_iff.mp slash
    rw [if_neg (List.cons_ne_nil _ _), List.tail_cons]
    exact vfsResolvePath_route fs s b

theorem splitName {q : List Char} (absolute : q.head? = some '/') (short : q.length < vfsMaxPath) :
    (vfsSplitPath q).2 = (lastName q).take (vfsMaxName - 1) := by
  obtain ⟨a, c, rfl, noSlash, -⟩ := absolute_append absolute
  rw [List.length_append, List.length_cons] at short
  rw [vfsSplitPath_append noSlash (by omega), lastName_append a noSlash]

theorem lastName_short {q : List Char} (absolute : q.head? = some '/') (short : q.length < vfsMaxPath) :
    (lastName q).length < vfsMaxPath - 1 := by
  obtain ⟨a, c, rfl, noSlash, -⟩ := absolute_append absolute
  rw [List.length_append, List.length_cons] at short
  rw [lastName_append a noSlash]
  omega

theorem lastName_plain {q : List Char} (absolute : q.head? = some '/') : '/' ∉ lastName q := by
  obtain ⟨a, c, rfl, noSlash, -⟩ := absolute_append absolute
  rwa [lastName_append a noSlash]

theorem absolute_of_split {q : List Char} (short : q.length < vfsMaxPath) (absolute : (vfsSplitPath q).1.head? = some '/') :
    q.head? = some '/' := by
  by_cases slash : '/' ∈ q
  · obtain ⟨a, c, rfl, noSlash⟩ := exists_lastSlash slash
    rw [List.length_append, List.length_cons] at short
    rw [vfsSplitPath_append noSlash (by omega)] at absolute
    cases a with
    | nil => rfl
    | cons b a =>
      rw [if_neg (List.cons_ne_nil b a)] at absolute
      exact absolute
  · have none : lastSlash q = none := by
      unfold lastSlash
      rw [List.find?_eq_none]
      intro i _
      rw [decide_eq_true_eq]
      exact fun here => slash (List.mem_of_getElem? here)
    rw [vfsSplitPath, none] at absolute
    cases absolute

theorem absolute_of_splitDir {q : List Char} (short : q.length < vfsMaxPath) {dir : Place}
    (hit : vfsResolvePath fs s (vfsSplitPath q).1 = some dir) : q.head? = some '/' := by
  refine absolute_of_split short ?_
  unfold vfsResolvePath at hit
  split at hit
  · rename_i same
    rw [same]
    rfl
  · cases hit

/-- The directory and the name of a path lie on the way that resolving it takes. -/
structure Splits (s : Files F) (q : List Char) (dir : Place) : Prop where
  named : lastName q ≠ []
  plain : '/' ∉ lastName q
  short : (lastName q).length < vfsMaxPath - 1
  here : walk (s.parentOf fs) (s.lookup fs) (.tmp 0) (wayTo q) = some dir
  on : ∀ s' : Files F,
    vfsResolvePath fs s' q = walk (s'.parentOf fs) (s'.lookup fs) (.tmp 0) (wayTo q ++ route (lastName q))

variable {who : Process} {path name : List Char} {dir : Place}

theorem resolveParentDir_again (found : resolveParentDir fs s who path = .ok (dir, name)) :
    let q := vfsCombinePath who.cwd path
    q.head? = some '/' ∧ name = (lastName q).take (vfsMaxName - 1) ∧ name ≠ [] ∧
      walk (s.parentOf fs) (s.lookup fs) (.tmp 0) (wayTo q) = some dir ∧ s.typeOf fs dir = .dir ∧
      ∀ s' : Files F, resolveParentDir fs s' who path =
        match walk (s'.parentOf fs) (s'.lookup fs) (.tmp 0) (wayTo q) with
        | none => .error (-enoent)
        | some dir' => if s'.typeOf fs dir' = .dir then .ok (dir', name) else .error (-enotdir) := by
  have short := combined_length who.cwd path
  unfold resolveParentDir at found ⊢
  dsimp only at found ⊢
  generalize vfsCombinePath who.cwd path = q at found short ⊢
  split at found
  · cases found
  rename_i named
  split at found
  · cases found
  rename_i hit
  split at found
  swap
  · cases found
  rename_i isDir
  cases found
  have absolute := absolute_of_splitDir fs s short hit
  rw [splitDir_way fs s absolute short] at hit
  refine ⟨absolute, splitName absolute short, named, hit, isDir, fun s' => ?_⟩
  have onto := splitDir_way fs s' absolute short
  rw [if_neg named]
  generalize vfsResolvePath fs s' (vfsSplitPath q).1 = r at onto ⊢
  subst onto
  rfl

theorem resolveParentDir_splits (found : resolveParentDir fs s who path = .ok (dir, name)) :
    name = (lastName (vfsCombinePath who.cwd path)).take (vfsMaxName - 1) ∧
      Splits fs s (vfsCombinePath who.cwd path) dir := by
  obtain ⟨absolute, cut, named, here, -, -⟩ := resolveParentDir_again fs s found
  refine ⟨cut, fun none => named ?_, lastName_plain absolute, lastName_short absolute (combined_length _ _), here,
    fun s' => vfsResolvePath_way fs s' absolute⟩
  rw [cut, none]
  rfl

/-- A name of 1 to 63 characters, neither `.` nor `..`. -/
def PlainName (c : List Char) : Prop :=
  c ≠ [] ∧ c.length < vfsMaxName ∧ c ≠ ['.'] ∧ c ≠ ['.', '.']

instance (c : List Char) : Decidable (PlainName c) := inferInstanceAs (Decidable (_ ∧ _))

theorem route_plain {c : List Char} (plain : PlainName c) (noSlash : '/' ∉ c) : route c = [.down c] := by
  obtain ⟨named, short, dot, dots⟩ := plain
  have whole : c.take (vfsMaxName - 1) = c := List.take_of_length_le (Nat.le_sub_one_of_lt short)
  have rest : c.drop (vfsMaxName - 1) = [] := List.drop_eq_nil_of_le (Nat.le_sub_one_of_lt short)
  rw [route_name named noSlash (Nat.lt_trans short (by decide)), whole, rest]
  unfold moveOf
  rw [if_neg (by rw [not_or]; exact ⟨named, dot⟩), if_neg dots, if_pos (.inl rfl)]
  rfl

/-- Resolving a path is looking its last name up in the directory that is split off. -/
theorem resolve_split {q : List Char} (absolute : q.head? = some '/') (short : q.length < vfsMaxPath)
    (plain : PlainName (lastName q)) :
    vfsResolvePath fs s q =
      (vfsResolvePath fs s (vfsSplitPath q).1).bind fun dir => s.lookup fs dir (vfsSplitPath q).2 := by
  have whole : (lastName q).take (vfsMaxName - 1) = lastName q := List.take_of_length_le (Nat.le_sub_one_of_lt plain.2.1)
  rw [vfsResolvePath_way fs s absolute, splitDir_way fs s absolute short, splitName absolute short, whole,
    route_plain plain (lastName_plain absolute), Route.walk_append]
  congr 1
  funext dir
  rw [walk]
  cases s.lookup fs dir (lastName q) <;> rfl

/-- Splitting a path agrees with resolving it. So what `process_unlink` looks up in the directory,
and takes out if it is a node of tmpfs, is what `process_open` resolves the path to. -/
theorem split_agrees {q : List Char} (absolute : q.head? = some '/') (short : q.length < vfsMaxPath)
    (plain : PlainName (lastName q)) :
    vfsResolvePath fs s q =
        ((vfsResolvePath fs s (vfsSplitPath q).1).bind fun dir => s.lookup fs dir (vfsSplitPath q).2) ∧
      ∀ (who : Process) (path : List Char), vfsCombinePath who.cwd path = q →
        (∀ dir name, resolveParentDir fs s who path = .ok (dir, name) →
          vfsResolvePathCwd fs s who.cwd path = s.lookup fs dir name) ∧
        (∀ i, unlinkTarget fs s who path = some i → vfsResolvePathCwd fs s who.cwd path = some (.tmp i)) := by
  have agrees := resolve_split fs s absolute short plain
  refine ⟨agrees, fun who path combined => ?_⟩
  have parent : ∀ dir name, resolveParentDir fs s who path = .ok (dir, name) →
      vfsResolvePathCwd fs s who.cwd path = s.lookup fs dir name := by
    intro dir name found
    unfold resolveParentDir at found
    dsimp only at found
    rw [combined] at found
    unfold vfsResolvePathCwd
    rw [combined, agrees]
    split at found
    · cases found
    split at found
    · cases found
    rename_i hit
    split at found
    · cases found
      rw [hit, Option.bind_some]
    · cases found
  refine ⟨parent, fun i target => ?_⟩
  unfold unlinkTarget at target
  split at target
  · rename_i d name found
    split at target
    · rename_i native
      rw [parent _ _ found, lookup_native fs native, target]
      rfl
    · cases target
  · cases target

/-- `/a` in a tree without it. -/
theorem split_agrees_root :
    vfsResolvePath consoleOnly emptyFiles ['/', 'a'] = emptyFiles.lookup consoleOnly (.tmp 0) ['a'] :=
  (split_agrees consoleOnly emptyFiles (q := ['/', 'a']) rfl (by decide) (by decide)).1

end Splitting

end Isunux
