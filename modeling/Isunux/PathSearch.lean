import Isunux.ShellEnv
import Mathlib.Data.List.TakeWhile

/-! `resolve_command` against the entries of `PATH`: what it fills its two arrays with, and the
file it settles on. -/
namespace Isunux

/-- The entries of a value of `PATH`. -/
def pathEntries (value : List (BitVec 8)) : List (List (BitVec 8)) := value.splitOnP fun c => c = colonByte

/-- The entries less an empty one at the end. -/
def triedEntries (value : List (BitVec 8)) : List (List (BitVec 8)) :=
  if (pathEntries value).getLast? = some [] then (pathEntries value).dropLast else pathEntries value

/-- The path of a command in a directory. -/
def joinPath (dir cmd : List (BitVec 8)) : List (BitVec 8) :=
  if dir = [] ∨ dir.getLast? ≠ some slashByte then dir ++ slashByte :: cmd else dir ++ cmd

section Candidate

variable {dir cmd : List (BitVec 8)}

theorem pathCandidate_length (fits : dir.length < maxPath) :
    (pathCandidate dir cmd).length < maxPath ↔ ¬ (dir.length = maxPath - 1 ∧ dir.getLast? ≠ some slashByte) := by
  have size : maxPath = 128 := rfl
  unfold pathCandidate
  dsimp only
  rw [List.take_of_length_le (Nat.le_sub_one_of_lt fits)]
  by_cases slash : dir = [] ∨ dir.getLast? ≠ some slashByte
  · rw [if_pos slash, List.length_append, List.length_append, List.length_take, List.length_singleton]
    rcases slash with rfl | last
    · simp [size]
      omega
    · constructor
      · rintro inside ⟨whole, -⟩
        omega
      · intro other
        have shorter : dir.length ≠ maxPath - 1 := fun whole => other ⟨whole, last⟩
        omega
  · rw [if_neg slash, List.length_append, List.length_take]
    push Not at slash
    exact ⟨fun _ both => both.2 slash.2, fun _ => by omega⟩

theorem pathCandidate_join (short : dir.length + 1 + cmd.length < maxPath) : pathCandidate dir cmd = joinPath dir cmd := by
  unfold pathCandidate joinPath
  dsimp only
  rw [List.take_of_length_le (by omega)]
  by_cases slash : dir = [] ∨ dir.getLast? ≠ some slashByte
  · rw [if_pos slash, if_pos slash, List.take_of_length_le (by rw [List.length_append, List.length_singleton]; omega),
      List.append_assoc]
    rfl
  · rw [if_neg slash, if_neg slash, List.take_of_length_le (by omega)]

theorem joinPath_ne_nil : joinPath dir cmd ≠ [] := by
  unfold joinPath
  by_cases slash : dir = [] ∨ dir.getLast? ≠ some slashByte
  · rw [if_pos slash]
    simp
  · rw [if_neg slash]
    push Not at slash
    simp [slash.1]

end Candidate

/-! The loop over the entries -/

section Loop

variable (isFile : List (BitVec 8) → Bool) (cmd : List (BitVec 8)) (outSize : Nat)

def searchDirs : List (List (BitVec 8)) → Resolution
  | [] => ⟨-1, none, []⟩
  | dir :: rest =>
    if isFile (pathCandidate dir cmd) then ⟨0, some (copyBounded outSize (pathCandidate dir cmd)), [dir]⟩
    else { searchDirs rest with tried := dir :: (searchDirs rest).tried }

variable {value : List (BitVec 8)}

theorem notColon {dir : List (BitVec 8)} (plain : colonByte ∉ dir) : ∀ c ∈ dir, decide (c = colonByte) = false := by
  intro c mem
  refine decide_eq_false ?_
  rintro rfl
  exact plain mem

theorem pathEntries_single (plain : colonByte ∉ value) : pathEntries value = [value] :=
  List.splitOnP_eq_singleton (notColon plain)

theorem pathEntries_cons {dir : List (BitVec 8)} (plain : colonByte ∉ dir) (rest : List (BitVec 8)) :
    pathEntries (dir ++ colonByte :: rest) = dir :: pathEntries rest :=
  List.splitOnP_append_cons_of_forall_mem (notColon plain) _ (decide_eq_true rfl) rest

theorem triedEntries_cons {dir : List (BitVec 8)} (plain : colonByte ∉ dir) (rest : List (BitVec 8)) :
    triedEntries (dir ++ colonByte :: rest) = dir :: triedEntries rest := by
  have some : pathEntries rest ≠ [] := List.splitOnP_ne_nil _ _
  unfold triedEntries
  rw [pathEntries_cons plain, List.getLast?_cons_of_ne_nil some, List.dropLast_cons_of_ne_nil some]
  split <;> rfl

theorem value_cases (value : List (BitVec 8)) :
    colonByte ∉ value ∨ ∃ dir rest, value = dir ++ colonByte :: rest ∧ colonByte ∉ dir := by
  by_cases mem : colonByte ∈ value
  · obtain ⟨dir, rest, split, first⟩ := List.eq_append_cons_of_mem mem
    exact .inr ⟨dir, rest, split, first⟩
  · exact .inl mem

theorem takeWhile_plain {dir : List (BitVec 8)} (plain : colonByte ∉ dir) (rest : List (BitVec 8)) :
    (dir ++ rest).takeWhile (· ≠ colonByte) = dir ++ rest.takeWhile (· ≠ colonByte) :=
  List.takeWhile_append_of_pos fun c mem => decide_eq_true (of_decide_eq_false (notColon plain c mem))

theorem searchPath_unfold (nonempty : value ≠ []) :
    searchPath isFile cmd outSize value =
      let dir := (value.takeWhile (· ≠ colonByte)).take (maxPath - 1)
      let behind := value.drop dir.length
      if isFile (pathCandidate dir cmd) then ⟨0, some (copyBounded outSize (pathCandidate dir cmd)), [dir]⟩
      else
        let r := searchPath isFile cmd outSize (if behind.head? = some colonByte then behind.tail else behind)
        { r with tried := dir :: r.tried } := by
  cases value with
  | nil => exact absurd rfl nonempty
  | cons c path => rw [searchPath]

theorem searchPath_dirs (fits : value.length < maxPath) :
    searchPath isFile cmd outSize value = searchDirs isFile cmd outSize (triedEntries value) := by
  induction h : value.length using Nat.strong_induction_on generalizing value with
  | _ n ih =>
    by_cases empty : value = []
    · subst empty
      have none : triedEntries [] = [] := by
        unfold triedEntries
        rw [pathEntries_single List.not_mem_nil]
        rfl
      rw [none, searchPath]
      rfl
    rw [searchPath_unfold isFile cmd outSize empty]
    rcases value_cases value with plain | ⟨dir, rest, rfl, plain⟩
    · have whole : value.takeWhile (· ≠ colonByte) = value := by
        have front := takeWhile_plain plain []
        rwa [List.append_nil, List.takeWhile_nil, List.append_nil] at front
      have last : triedEntries value = [value] := by
        unfold triedEntries
        rw [pathEntries_single plain]
        exact if_neg fun same => empty (Option.some.inj same)
      rw [whole, List.take_of_length_le (Nat.le_sub_one_of_lt fits), last]
      dsimp only
      rw [List.drop_length, searchDirs, searchDirs]
      simp [searchPath]
    · have front : (dir ++ colonByte :: rest).takeWhile (· ≠ colonByte) = dir := by
        rw [takeWhile_plain plain]
        exact List.append_nil dir
      rw [List.length_append, List.length_cons] at fits h
      rw [front, List.take_of_length_le (by omega), triedEntries_cons plain]
      dsimp only
      rw [List.drop_left, searchDirs, List.head?_cons, if_pos rfl, List.tail_cons,
        ih rest.length (by omega) (by omega) rfl]

theorem searchDirs_result (dirs : List (List (BitVec 8))) :
    (searchDirs isFile cmd outSize dirs).ret = (if (dirs.find? fun d => isFile (pathCandidate d cmd)).isSome then 0 else -1) ∧
      (searchDirs isFile cmd outSize dirs).outPath =
        (dirs.find? fun d => isFile (pathCandidate d cmd)).map fun d => copyBounded outSize (pathCandidate d cmd) := by
  induction dirs with
  | nil => exact ⟨rfl, rfl⟩
  | cons dir rest ih =>
    rw [searchDirs, List.find?_cons]
    cases file : isFile (pathCandidate dir cmd) with
    | true => exact ⟨rfl, rfl⟩
    | false => exact ih

theorem searchDirs_tried {dirs : List (List (BitVec 8))} {dir : List (BitVec 8)}
    (mem : dir ∈ (searchDirs isFile cmd outSize dirs).tried) : dir ∈ dirs := by
  induction dirs with
  | nil => nomatch mem
  | cons first rest ih =>
    rw [searchDirs] at mem
    cases file : isFile (pathCandidate first cmd) with
    | true =>
      rw [file, if_pos rfl, List.mem_singleton] at mem
      exact mem ▸ List.mem_cons_self
    | false =>
      rw [file, if_neg nofun] at mem
      rcases List.mem_cons.mp mem with rfl | mem
      · exact List.mem_cons_self
      · exact List.mem_cons_of_mem _ (ih mem)

theorem searchDirs_first (dir : List (BitVec 8)) (rest : List (List (BitVec 8))) :
    dir ∈ (searchDirs isFile cmd outSize (dir :: rest)).tried := by
  rw [searchDirs]
  split <;> exact List.mem_cons_self

end Loop

/-! The right file -/

/-- What `resolve_command` should do with a value of `PATH`. -/
structure SearchedRight (isFile : List (BitVec 8) → Bool) (cmd value : List (BitVec 8)) (r : Resolution) : Prop where
  dirs : ∀ dir ∈ r.tried, dir.length < maxPath
  candidates : ∀ dir ∈ r.tried, (pathCandidate dir cmd).length < maxPath
  found : (∀ e ∈ pathEntries value, e.length + 1 + cmd.length < maxPath) →
    (r.ret, r.outPath) =
      match (pathEntries value).find? fun e => isFile (joinPath e cmd) with
      | some e => (0, some (joinPath e cmd))
      | none => (-1, none)

/-- One long entry that leaves no room for a slash. -/
def NoRoomForSlash (value : List (BitVec 8)) : Prop :=
  value.length = maxPath - 1 ∧ colonByte ∉ value ∧ value.getLast? ≠ some slashByte

/-- The first entry that has the file is tried, and its path fits. -/
def FirstFileFits (isFile : List (BitVec 8) → Bool) (cmd value : List (BitVec 8)) (outSize : Nat) : Prop :=
  ∀ e, ((pathEntries value).find? fun e => isFile (joinPath e cmd)) = some e →
    (joinPath e cmd).length < outSize ∧ ∃ d ∈ triedEntries value, isFile (joinPath d cmd) = true

section Right

variable {isFile : List (BitVec 8) → Bool} {cmd value : List (BitVec 8)} {outSize : Nat}

theorem triedEntries_append (value : List (BitVec 8)) : ∃ rest, pathEntries value = triedEntries value ++ rest := by
  unfold triedEntries
  by_cases last : (pathEntries value).getLast? = some []
  · rw [if_pos last]
    exact ⟨[[]], (List.dropLast_append_getLast? _ last).symm⟩
  · rw [if_neg last]
    exact ⟨[], (List.append_nil _).symm⟩

theorem pathEntries_short {e : List (BitVec 8)} (mem : e ∈ pathEntries value) :
    e = value ∧ colonByte ∉ value ∨ e.length < value.length := by
  induction h : value.length using Nat.strong_induction_on generalizing value with
  | _ n ih =>
    rcases value_cases value with plain | ⟨dir, rest, rfl, plain⟩
    · rw [pathEntries_single plain, List.mem_singleton] at mem
      exact .inl ⟨mem, plain⟩
    · rw [List.length_append, List.length_cons] at h
      rw [pathEntries_cons plain] at mem
      rcases List.mem_cons.mp mem with rfl | mem
      · exact .inr (by omega)
      · rcases ih rest.length (by omega) mem rfl with ⟨rfl, -⟩ | shorter
        · exact .inr (by omega)
        · exact .inr (by omega)

theorem candidates_iff (fits : value.length < maxPath) :
    (∀ dir ∈ (searchDirs isFile cmd outSize (triedEntries value)).tried, (pathCandidate dir cmd).length < maxPath) ↔
      ¬ NoRoomForSlash value := by
  have size : maxPath = 128 := rfl
  constructor
  · rintro inside ⟨whole, plain, slash⟩
    have nonempty : value ≠ [] := by
      rintro rfl
      exact absurd whole (by decide)
    have single : triedEntries value = [value] := by
      unfold triedEntries
      rw [pathEntries_single plain]
      exact if_neg fun same => nonempty (Option.some.inj same)
    have first := inside value (by rw [single]; exact searchDirs_first isFile cmd outSize value [])
    exact (pathCandidate_length fits).mp first ⟨whole, slash⟩
  · intro roomy dir mem
    obtain ⟨rest, split⟩ := triedEntries_append value
    have entry : dir ∈ pathEntries value := by
      rw [split]
      exact List.mem_append_left _ (searchDirs_tried isFile cmd outSize mem)
    rcases pathEntries_short entry with ⟨rfl, plain⟩ | shorter
    · exact (pathCandidate_length fits).mpr fun both => roomy ⟨both.1, plain, both.2⟩
    · exact (pathCandidate_length (by omega)).mpr fun both => by omega

theorem copyBounded_join (dir : List (BitVec 8)) :
    copyBounded outSize (joinPath dir cmd) = joinPath dir cmd ↔ (joinPath dir cmd).length < outSize := by
  have some := List.length_pos_of_ne_nil (@joinPath_ne_nil dir cmd)
  unfold copyBounded
  rw [List.take_eq_self_iff]
  omega

theorem found_iff (short : ∀ e ∈ pathEntries value, e.length + 1 + cmd.length < maxPath) :
    (((searchDirs isFile cmd outSize (triedEntries value)).ret,
        (searchDirs isFile cmd outSize (triedEntries value)).outPath) =
      match (pathEntries value).find? fun e => isFile (joinPath e cmd) with
      | some e => (0, some (joinPath e cmd))
      | none => (-1, none)) ↔ FirstFileFits isFile cmd value outSize := by
  obtain ⟨rest, split⟩ := triedEntries_append value
  obtain ⟨ret, out⟩ := searchDirs_result isFile cmd outSize (triedEntries value)
  have join : ∀ d ∈ triedEntries value, pathCandidate d cmd = joinPath d cmd := fun d mem =>
    pathCandidate_join (short d (by rw [split]; exact List.mem_append_left _ mem))
  have same : (triedEntries value).find? (fun d => isFile (pathCandidate d cmd)) =
      (triedEntries value).find? fun d => isFile (joinPath d cmd) :=
    List.find?_congr fun d mem => by rw [join d mem]
  have either : (pathEntries value).find? (fun e => isFile (joinPath e cmd)) =
      ((triedEntries value).find? fun e => isFile (joinPath e cmd)).or (rest.find? fun e => isFile (joinPath e cmd)) := by
    rw [split, List.find?_append]
  rw [ret, out, same]
  unfold FirstFileFits
  rw [either]
  cases first : (triedEntries value).find? fun e => isFile (joinPath e cmd) with
  | some e =>
    have mem := List.mem_of_find?_eq_some first
    have file := List.find?_some first
    rw [Option.some_or, Option.map_some, join e mem]
    constructor
    · intro equal d here
      cases here
      exact ⟨(copyBounded_join e).mp (Option.some.inj (Prod.mk.inj equal).2), e, mem, file⟩
    · intro fits
      rw [(copyBounded_join e).mpr (fits e rfl).1]
      rfl
  | none =>
    have untried : ¬ ∃ d ∈ triedEntries value, isFile (joinPath d cmd) = true := by
      rintro ⟨d, mem, file⟩
      exact List.find?_eq_none.mp first d mem file
    rw [Option.none_or]
    cases rest.find? fun e => isFile (joinPath e cmd) with
    | none => exact ⟨fun _ => nofun, fun _ => rfl⟩
    | some e =>
      refine ⟨fun equal => ?_, fun fits => absurd (fits e rfl).2 untried⟩
      nomatch (Prod.mk.inj equal).2

theorem searchedRight_iff (fits : value.length < maxPath) :
    SearchedRight isFile cmd value (searchPath isFile cmd outSize value) ↔
      ¬ NoRoomForSlash value ∧
        ((∀ e ∈ pathEntries value, e.length + 1 + cmd.length < maxPath) → FirstFileFits isFile cmd value outSize) := by
  rw [searchPath_dirs isFile cmd outSize fits]
  have dirs : ∀ dir ∈ (searchDirs isFile cmd outSize (triedEntries value)).tried, dir.length < maxPath := by
    intro dir mem
    obtain ⟨rest, split⟩ := triedEntries_append value
    have entry : dir ∈ pathEntries value := by
      rw [split]
      exact List.mem_append_left _ (searchDirs_tried isFile cmd outSize mem)
    rcases pathEntries_short entry with ⟨rfl, -⟩ | shorter
    · exact fits
    · omega
  constructor
  · intro h
    exact ⟨(candidates_iff fits).mp h.candidates, fun short => (found_iff short).mp (h.found short)⟩
  · rintro ⟨roomy, file⟩
    exact ⟨dirs, (candidates_iff fits).mpr roomy, fun short => (found_iff short).mpr (file short)⟩

theorem pathValue_short {env : List EnvVar} (reachable : EnvReachable (fun _ _ => True) env) :
    ((envGet env pathName).getD defaultPath).length < maxPath := by
  unfold envGet
  cases found : env.find? fun v => v.used && v.name == pathName with
  | none => decide
  | some v => exact reachable.short v (List.mem_of_find?_eq_some found)

end Right

/-- Whatever is in the table: the search stays in its arrays unless `PATH` is one entry of 127
bytes without a slash at its end, and finds the first file unless that is in an empty entry at
the end of `PATH` or its path does not fit. -/
theorem path_searched_right_iff (env : List EnvVar) (reachable : EnvReachable (fun _ _ => True) env)
    (isFile : List (BitVec 8) → Bool) (cmd : List (BitVec 8)) (bare : slashByte ∉ cmd) (outSize : Nat) :
    SearchedRight isFile cmd ((envGet env pathName).getD defaultPath) (resolveCommand env isFile cmd outSize) ↔
      ¬ NoRoomForSlash ((envGet env pathName).getD defaultPath) ∧
        ((∀ e ∈ pathEntries ((envGet env pathName).getD defaultPath), e.length + 1 + cmd.length < maxPath) →
          FirstFileFits isFile cmd ((envGet env pathName).getD defaultPath) outSize) := by
  unfold resolveCommand
  rw [if_neg bare]
  exact searchedRight_iff (pathValue_short reachable)

/-- `PATH` set to 127 times `x`. -/
def longPathEnv : List EnvVar := envSet initialEnv pathName (List.replicate 127 0x78#8)

/-- The terminator is stored behind `candidate`. -/
theorem candidate_overflows :
    EnvReachable (fun _ _ => True) longPathEnv ∧
      ¬ SearchedRight (fun _ => false) [0x61#8] ((envGet longPathEnv pathName).getD defaultPath)
        (resolveCommand longPathEnv (fun _ => false) [0x61#8] maxPath) := by
  refine ⟨.set .initial trivial, fun right => ?_⟩
  have tried : List.replicate 127 0x78#8 ∈ (resolveCommand longPathEnv (fun _ => false) [0x61#8] maxPath).tried := by
    decide +kernel
  exact absurd (right.candidates _ tried) (by decide +kernel)

/-- `ls` in `/bin`. -/
theorem default_path_searched :
    SearchedRight (fun p => p = asciiBytes "/bin/ls") (asciiBytes "ls") ((envGet initialEnv pathName).getD defaultPath)
      (resolveCommand initialEnv (fun p => p = asciiBytes "/bin/ls") (asciiBytes "ls") maxPath) := by
  refine (path_searched_right_iff initialEnv .initial _ _ (by decide) maxPath).mpr ⟨fun long => ?_, fun _ e found => ?_⟩
  · exact absurd long.1 (by decide +kernel)
  · have value : (envGet initialEnv pathName).getD defaultPath = asciiBytes "/bin" := by decide +kernel
    rw [value] at found ⊢
    have entry : e = asciiBytes "/bin" := by
      have mem := List.mem_of_find?_eq_some found
      rw [pathEntries_single (by decide)] at mem
      exact List.mem_singleton.mp mem
    exact ⟨by rw [entry]; decide, asciiBytes "/bin", by decide +kernel, by decide⟩

end Isunux
