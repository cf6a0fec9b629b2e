import Isunux.KeyboardLines

/-! Whether the keyboard queue holds whole lines. It does as long as every line that Enter
commits finds room for all of its characters, or for none. -/
namespace Isunux

/-- The unread characters are what is left of a committed line and whole committed lines behind
it, in the order in which they were committed. -/
def WholeLines (committed : List (List (BitVec 8))) (unread : List (BitVec 8)) : Prop :=
  ∃ rest lines, unread = rest ++ lines.flatten ∧
    ((rest = [] ∧ lines.Sublist committed) ∨ ∃ line, rest <:+ line ∧ (line :: lines).Sublist committed)

def Terminated (line : List (BitVec 8)) : Prop := ∃ body, line = body ++ [newline] ∧ newline ∉ body

section Lines

variable {committed : List (List (BitVec 8))} {unread tail got rest line : List (BitVec 8)}

theorem Terminated.suffix (ended : Terminated line) (suffix : rest <:+ line) : rest = [] ∨ Terminated rest := by
  obtain ⟨body, rfl, inside⟩ := ended
  rcases List.suffix_concat_iff.mp suffix with rfl | ⟨left, rfl, shorter⟩
  · exact .inl rfl
  · exact .inr ⟨left, rfl, fun mem => inside (shorter.subset mem)⟩

theorem Terminated.stops (ended : Terminated rest) (whole : newline ∉ got.dropLast)
    (eq : rest ++ unread = got ++ tail) : ∃ left, rest = got ++ left ∧ tail = left ++ unread := by
  rcases List.append_eq_append_iff.mp eq with ⟨more, longer, behind⟩ | ⟨left, shorter, behind⟩
  · cases more with
    | nil => exact ⟨[], by rw [longer, List.append_nil, List.append_nil], by rw [behind]; rfl⟩
    | cons a more =>
      obtain ⟨body, rfl, -⟩ := ended
      refine absurd ?_ whole
      rw [longer, List.dropLast_append_of_ne_nil (List.cons_ne_nil a more)]
      exact List.mem_append_left _ (List.mem_append_right _ (List.mem_singleton_self _))
  · exact ⟨left, shorter, behind⟩

theorem WholeLines.read (whole : WholeLines committed unread) (ended : ∀ line ∈ committed, Terminated line)
    (inside : newline ∉ got.dropLast) (eq : unread = got ++ tail) : WholeLines committed tail := by
  have from_line : ∀ (rest line : List (BitVec 8)) (lines : List (List (BitVec 8))), rest <:+ line → (line :: lines).Sublist committed → Terminated rest →
      rest ++ lines.flatten = got ++ tail → WholeLines committed tail := by
    intro rest line lines suffix listed ended eq
    obtain ⟨left, split, behind⟩ := ended.stops inside eq
    exact ⟨left, lines, behind, .inr ⟨line, (List.suffix_append got left).trans (split ▸ suffix), listed⟩⟩
  have from_lines : ∀ lines : List (List (BitVec 8)), lines.Sublist committed → lines.flatten = got ++ tail → WholeLines committed tail := by
    intro lines listed eq
    cases lines with
    | nil =>
      obtain ⟨-, rfl⟩ := List.append_eq_nil_iff.mp eq.symm
      exact ⟨[], [], rfl, .inl ⟨rfl, List.nil_sublist _⟩⟩
    | cons line lines =>
      exact from_line line line lines List.suffix_rfl listed (ended line (listed.subset List.mem_cons_self)) eq
  obtain ⟨rest, lines, split, ⟨rfl, listed⟩ | ⟨line, suffix, listed⟩⟩ := whole
  · exact from_lines lines listed (split.symm.trans eq)
  · rcases (ended line (listed.subset List.mem_cons_self)).suffix suffix with rfl | terminated
    · exact from_lines lines ((List.sublist_cons_self line lines).trans listed) (split.symm.trans eq)
    · exact from_line rest line lines suffix listed terminated (split.symm.trans eq)

theorem WholeLines.commit (whole : WholeLines committed unread) (line : List (BitVec 8)) :
    WholeLines (committed ++ [line]) (unread ++ line) := by
  obtain ⟨rest, lines, rfl, place⟩ := whole
  refine ⟨rest, lines ++ [line], ?_, place.imp (fun front => ⟨front.1, ?_⟩) fun ⟨first, suffix, listed⟩ => ?_⟩
  · rw [List.flatten_append, List.flatten_singleton, List.append_assoc]
  · exact List.Sublist.append front.2 (List.Sublist.refl _)
  · exact ⟨first, suffix, List.Sublist.append listed (List.Sublist.refl _)⟩

theorem WholeLines.more (whole : WholeLines committed unread) (line : List (BitVec 8)) :
    WholeLines (committed ++ [line]) unread := by
  obtain ⟨rest, lines, eq, place⟩ := whole
  have longer := List.sublist_append_left committed [line]
  exact ⟨rest, lines, eq, place.imp (fun front => ⟨front.1, front.2.trans longer⟩) fun ⟨first, suffix, listed⟩ =>
    ⟨first, suffix, listed.trans longer⟩⟩

theorem WholeLines.last (whole : WholeLines committed unread) (ended : ∀ line ∈ committed, Terminated line) :
    unread = [] ∨ unread.getLast? = some newline := by
  have last : ∀ line, Terminated line → ∀ front : List (BitVec 8), (front ++ line).getLast? = some newline := by
    rintro line ⟨body, rfl, -⟩ front
    rw [← List.append_assoc, List.getLast?_concat]
  obtain ⟨rest, lines, rfl, place⟩ := whole
  have all : lines.Sublist committed := by
    rcases place with ⟨-, listed⟩ | ⟨line, -, listed⟩
    · exact listed
    · exact (List.sublist_cons_self line lines).trans listed
  rcases List.eq_nil_or_concat lines with rfl | ⟨front, line, rfl⟩
  · rw [List.flatten_nil, List.append_nil]
    rcases place with ⟨rfl, -⟩ | ⟨line, suffix, listed⟩
    · exact .inl rfl
    · exact ((ended line (listed.subset List.mem_cons_self)).suffix suffix).imp_right fun terminated =>
        last rest terminated []
  · rw [List.concat_eq_append] at all ⊢
    rw [List.flatten_append, List.flatten_singleton, ← List.append_assoc]
    exact .inr (last line (ended line (all.subset (List.mem_append_right _ (List.mem_singleton_self line)))) _)

end Lines

section Runs

/-- The driver, together with what has been typed. -/
def typedStep (s : Keyboard × Typing) (op : KbdOp) : (Keyboard × Typing) × KbdAnswer :=
  let r := kbdStep s.1 op
  ((r.1, s.2.take r.2), r.2)

/-- After the call the queue holds whole lines. -/
def QueueMeets (s : Keyboard × Typing) (op : KbdOp) : Prop :=
  WholeLines (typedStep s op).1.2.lines (typedStep s op).1.1.unread

/-- A line that is committed here finds room, or the queue is full and takes nothing of it. -/
def LineFits (s : Keyboard × Typing) (op : KbdOp) : Prop :=
  (kbdStep s.1 op).2.fed = some newline →
    s.1.unread.length + s.1.editLine.length + 1 < kbdQueueSize ∨ s.1.unread.length = kbdQueueSize - 1

instance (s : Keyboard × Typing) (op : KbdOp) : Decidable (LineFits s op) := inferInstanceAs (Decidable (_ → _))

/-- The queue holds whole lines, and no newline is being typed. -/
structure Lined (s : Keyboard × Typing) : Prop where
  session : Session s.1 s.2
  whole : WholeLines s.2.lines s.1.unread
  plain : newline ∉ s.2.kept
  ended : ∀ line ∈ s.2.lines, Terminated line

variable {s : Keyboard × Typing} {op : KbdOp}

theorem Typing.key_ended {t : Typing} (plain : newline ∉ t.kept) (ended : ∀ line ∈ t.lines, Terminated line)
    (c : BitVec 8) : newline ∉ (t.key c).kept ∧ ∀ line ∈ (t.key c).lines, Terminated line := by
  unfold Typing.key
  split
  · exact ⟨fun mem => plain (List.dropLast_subset _ mem), ended⟩
  rename_i other
  split
  · refine ⟨List.not_mem_nil, fun line mem => ?_⟩
    rcases List.mem_append.mp mem with old | new
    · exact ended line old
    · exact ⟨t.kept, List.mem_singleton.mp new, plain⟩
  rename_i letter
  split
  · refine ⟨fun mem => ?_, ended⟩
    rcases List.mem_append.mp mem with old | new
    · exact plain old
    · exact letter (List.mem_singleton.mp new).symm
  · exact ⟨plain, ended⟩

theorem Typing.take_ended {t : Typing} (plain : newline ∉ t.kept) (ended : ∀ line ∈ t.lines, Terminated line)
    (a : KbdAnswer) : newline ∉ (t.take a).kept ∧ ∀ line ∈ (t.take a).lines, Terminated line := by
  unfold Typing.take
  cases a.fed with
  | none => exact ⟨plain, ended⟩
  | some c => exact Typing.key_ended plain ended c

/-- The queue holds whole lines after a call exactly if the call meets the condition. -/
theorem Lined.meets_iff (h : Lined s) : QueueMeets s op ↔ LineFits s op := by
  obtain ⟨-, moves⟩ := h.session.step op
  have few := s.1.queued_lt
  rw [← s.1.unread_length] at few
  unfold QueueMeets LineFits typedStep
  dsimp only
  rcases moves with ⟨fed, -, unread⟩ | ⟨other, unread, inside⟩
  · have lines : (s.2.take (kbdStep s.1 op).2).lines = s.2.lines ++ [s.1.editLine ++ [newline]] := by
      rw [Typing.take, fed, Option.elim_some, Typing.key_lines, if_pos rfl, h.session.line]
    rw [lines, unread, imp_iff_right fed]
    by_cases fits : s.1.unread.length + s.1.editLine.length + 1 < kbdQueueSize
    · rw [List.take_of_length_le]
      · exact iff_of_true (h.whole.commit _) (.inl fits)
      · simp only [List.length_append, List.length_singleton, kbdQueueSize] at fits ⊢
        omega
    by_cases full : s.1.unread.length = kbdQueueSize - 1
    · rw [List.take_append_of_le_length full.ge, List.take_of_length_le full.le]
      exact iff_of_true (h.whole.more _) (.inr full)
    -- some characters of the line go in, and its newline does not
    refine iff_of_false (fun whole => ?_) fun served => served.elim fits full
    have ended : ∀ line ∈ s.2.lines ++ [s.1.editLine ++ [newline]], Terminated line := by
      intro line mem
      rcases List.mem_append.mp mem with old | new
      · exact h.ended line old
      · exact ⟨s.1.editLine, List.mem_singleton.mp new, h.session.line ▸ h.plain⟩
    obtain ⟨n, room⟩ : ∃ n, kbdQueueSize - 1 - s.1.unread.length = n + 1 :=
      ⟨kbdQueueSize - 1 - s.1.unread.length - 1, by omega⟩
    have short : n < s.1.editLine.length := by
      simp only [kbdQueueSize] at *
      omega
    have taken : (s.1.unread ++ (s.1.editLine ++ [newline])).take (kbdQueueSize - 1) =
        (s.1.unread ++ s.1.editLine.take n) ++ [s.1.editLine[n]] := by
      rw [List.take_append, List.take_of_length_le (by omega), room, List.take_append_of_le_length (by omega),
        List.append_assoc, List.take_append_getElem]
    rw [taken] at whole
    rcases whole.last ended with none | last
    · exact absurd none (List.append_ne_nil_of_right_ne_nil _ (List.cons_ne_nil _ _))
    · rw [List.getLast?_concat, Option.some_inj] at last
      refine h.plain ?_
      rw [h.session.line, ← last]
      exact List.getElem_mem short
  · rw [Typing.take_lines other]
    exact iff_of_true (h.whole.read h.ended inside unread) fun fed => absurd fed other

theorem Lined.step (h : Lined s) (fits : LineFits s op) : Lined (typedStep s op).1 := by
  obtain ⟨plain, ended⟩ := Typing.take_ended h.plain h.ended (kbdStep s.1 op).2
  exact ⟨(h.session.step op).1, h.meets_iff.mpr fits, plain, ended⟩

/-- In every run, the queue holds whole lines at all times exactly if every line that is committed
finds room for all of its characters or for none. -/
theorem lines_whole_iff (s : Keyboard × Typing) (start : Lined s) (ops : List KbdOp) :
    Run.Along typedStep QueueMeets s ops ↔ Run.Along typedStep LineFits s ops :=
  Run.along_iff Lined (fun _ _ lined fits => lined.step fits) (fun _ _ lined => lined.meets_iff) start ops

/-- The driver at boot, before anything is typed. -/
def freshKeyboard : Keyboard × Typing := (Keyboard.initial, ⟨[], []⟩)

theorem freshKeyboard_lined : Lined freshKeyboard :=
  ⟨⟨⟨by decide, by decide⟩, rfl, rfl⟩, ⟨[], [], rfl, .inl ⟨rfl, List.Sublist.refl _⟩⟩, List.not_mem_nil,
    fun _ mem => absurd mem List.not_mem_nil⟩

/-- Two lines, the first read in two parts. -/
theorem lines_whole_example :
    Run.Along typedStep QueueMeets freshKeyboard
      [.char 97#8, .char newline, .read 1, .char 98#8, .char newline, .read 5, .read 5] :=
  (lines_whole_iff freshKeyboard freshKeyboard_lined _).mpr (by decide +kernel)

theorem enters_unread {s : Keyboard × Typing} (session : Session s.1 s.2) (empty : s.1.editLine = []) (n : Nat)
    (room : s.1.unread.length + n < kbdQueueSize) :
    let s' := (Run.run typedStep s (List.replicate n (.char newline))).1
    Session s'.1 s'.2 ∧ s'.1.editLine = [] ∧ s'.1.unread.length = s.1.unread.length + n := by
  induction n generalizing s with
  | zero => exact ⟨session, empty, rfl⟩
  | succ n ih =>
    obtain ⟨sane, canonical, line, unread⟩ := commitChar_commits session.sane session.canonical session.line newline
    have session' : Session (typedStep s (.char newline)).1.1 (typedStep s (.char newline)).1.2 :=
      (session.step (.char newline)).1
    have line' : (typedStep s (.char newline)).1.1.editLine = [] := line
    have length : (typedStep s (.char newline)).1.1.unread.length = s.1.unread.length + 1 := by
      have here : (typedStep s (.char newline)).1.1.unread = s.1.unread ++ [newline] := by
        refine unread.trans ?_
        rw [if_pos rfl, empty, List.nil_append, List.take_of_length_le]
        simp only [List.length_append, List.length_singleton, kbdQueueSize] at room ⊢
        omega
      rw [here, List.length_append, List.length_singleton]
    obtain ⟨later, none, total⟩ := ih session' line' (by omega)
    rw [List.replicate_succ, Run.run_cons]
    exact ⟨later, none, by rw [total, length]; omega⟩

/-- After 1022 empty lines that nobody reads, the line `a` goes in without its newline. -/
theorem line_cut_short :
    ¬ Run.Along typedStep QueueMeets freshKeyboard
      (List.replicate 1022 (.char newline) ++ [.char 97#8, .char newline]) := by
  intro meets
  have fits := ((lines_whole_iff freshKeyboard freshKeyboard_lined _).mp meets)
  rw [Run.along_append] at fits
  obtain ⟨session, empty, length⟩ := enters_unread freshKeyboard_lined.session rfl 1022 (by decide +kernel)
  generalize (Run.run typedStep freshKeyboard (List.replicate 1022 (.char newline))).1 = s at fits session empty length
  have count : s.1.unread.length = 1022 := length.trans (by decide +kernel)
  obtain ⟨-, -, line, unread⟩ := commitChar_commits session.sane session.canonical session.line 97#8
  rw [if_neg (by decide)] at unread
  have typed : (typedStep s (.char 97#8)).1.1.editLine = [97#8] := by
    refine line.trans ?_
    unfold Typing.key
    rw [if_neg (by decide), if_neg (by decide), session.line, empty]
    rfl
  have same : (typedStep s (.char 97#8)).1.1.unread = s.1.unread := unread
  have last := fits.2.2.1 rfl
  rw [same, typed, count] at last
  exact absurd last (by decide)

end Runs

end Isunux
