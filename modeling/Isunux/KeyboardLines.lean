import Isunux.Keyboard
import Isunux.Lib.Ring
import Isunux.Lib.Run

/-! The keyboard queue as the list of its unread characters, and what has been typed as a list
of lines. In canonical mode the one is made of the other as long as there is room. -/
namespace Isunux

section Queue

variable {kb : Keyboard} {c : BitVec 8}

def Keyboard.queued (kb : Keyboard) : Nat := (kb.head + kbdQueueSize - kb.tail) % kbdQueueSize

/-- The characters that `keyboard_read` will hand out, oldest first. -/
def Keyboard.unread (kb : Keyboard) : List (BitVec 8) := Ring.contents kbdQueueSize kb.queue kb.tail kb.queued

structure Keyboard.Sane (kb : Keyboard) : Prop where
  head : kb.head < kbdQueueSize
  tail : kb.tail < kbdQueueSize

theorem Keyboard.unread_length (kb : Keyboard) : kb.unread.length = kb.queued := Ring.length_contents _ _ _

theorem Keyboard.queued_lt (kb : Keyboard) : kb.queued < kbdQueueSize := Nat.mod_lt _ (by decide)

theorem kbdQueuePush_unread (sane : kb.Sane) (c : BitVec 8) :
    (kbdQueuePush kb c).unread = (kb.unread ++ [c]).take (kbdQueueSize - 1) ∧ (kbdQueuePush kb c).Sane := by
  obtain ⟨head, tail⟩ := sane
  have length := kb.unread_length
  have few := kb.queued_lt
  have queued : kb.queued = (kb.head + kbdQueueSize - kb.tail) % kbdQueueSize := rfl
  simp only [kbdQueueSize] at *
  unfold kbdQueuePush
  dsimp only [kbdQueueSize]
  by_cases full : (kb.head + 1) % 1024 = kb.tail
  · rw [if_pos full, List.take_append_of_le_length (by omega), List.take_of_length_le (by omega)]
    exact ⟨rfl, head, tail⟩
  · rw [if_neg full]
    have room : kb.queued < 1023 := by omega
    have slot : (kb.tail + kb.queued) % 1024 = kb.head := by omega
    refine ⟨?_, Nat.mod_lt _ (by decide), tail⟩
    rw [List.take_of_length_le (by rw [List.length_append, List.length_singleton]; omega)]
    have more : ((kb.head + 1) % 1024 + 1024 - kb.tail) % 1024 = kb.queued + 1 := by omega
    have stored := Ring.contents_push kb.queue kb.tail (by omega : kb.queued < 1024) c
    rw [slot, ← more] at stored
    exact stored

theorem take_append_take {α : Type} (n : Nat) (xs ys : List α) : (xs.take n ++ ys).take n = (xs ++ ys).take n := by
  rcases Nat.le_total n xs.length with long | short
  · rw [List.take_append_of_le_length long, List.take_append_of_le_length (by rw [List.length_take]; omega),
      List.take_take, Nat.min_self]
  · rw [List.take_of_length_le short]

theorem push_all_unread (sane : kb.Sane) (cs : List (BitVec 8)) :
    (cs.foldl kbdQueuePush kb).unread = (kb.unread ++ cs).take (kbdQueueSize - 1) ∧
      (cs.foldl kbdQueuePush kb).Sane := by
  induction cs generalizing kb with
  | nil =>
    have few : kb.unread.length ≤ kbdQueueSize - 1 := by
      rw [kb.unread_length]
      exact Nat.le_sub_one_of_lt kb.queued_lt
    rw [List.append_nil, List.take_of_length_le few]
    exact ⟨rfl, sane⟩
  | cons c cs ih =>
    obtain ⟨once, sane'⟩ := kbdQueuePush_unread sane c
    obtain ⟨rest, done⟩ := ih sane'
    refine ⟨?_, done⟩
    rw [List.foldl_cons, rest, once, take_append_take, List.append_assoc]
    rfl

theorem kbdQueuePop_unread (sane : kb.Sane) :
    (kbdQueuePop kb = none ∧ kb.unread = []) ∨
      ∃ c kb', kbdQueuePop kb = some (c, kb') ∧ kb.unread = c :: kb'.unread ∧ kb'.Sane := by
  obtain ⟨head, tail⟩ := sane
  have queued : kb.queued = (kb.head + kbdQueueSize - kb.tail) % kbdQueueSize := rfl
  unfold kbdQueuePop
  by_cases empty : kb.tail = kb.head
  · rw [if_pos empty]
    refine .inl ⟨rfl, List.eq_nil_of_length_eq_zero ?_⟩
    rw [kb.unread_length, queued, empty, Nat.add_sub_cancel_left, Nat.mod_self]
  · rw [if_neg empty]
    refine .inr ⟨_, _, rfl, ?_, head, Nat.mod_lt _ (by decide)⟩
    have fewer : ((kb.head + kbdQueueSize - (kb.tail + 1) % kbdQueueSize) % kbdQueueSize) + 1 = kb.queued := by
      simp only [kbdQueueSize] at *
      omega
    unfold Keyboard.unread
    rw [← fewer]
    exact Ring.contents_pop kb.queue tail _

theorem kbdDrain_unread (sane : kb.Sane) (left : Nat) (c : BitVec 8) :
    kb.unread = (kbdDrain left c kb).2 ++ (kbdDrain left c kb).1.unread ∧ (kbdDrain left c kb).1.Sane ∧
      newline ∉ (c :: (kbdDrain left c kb).2).dropLast := by
  induction left generalizing kb c with
  | zero => exact ⟨rfl, sane, List.not_mem_nil⟩
  | succ left ih =>
    unfold kbdDrain
    by_cases ends : c = newline
    · rw [if_pos ends]
      exact ⟨rfl, sane, List.not_mem_nil⟩
    · rw [if_neg ends]
      rcases kbdQueuePop_unread sane with ⟨none, -⟩ | ⟨d, kb', popped, front, sane'⟩
      · rw [none]
        exact ⟨rfl, sane, List.not_mem_nil⟩
      · rw [popped]
        obtain ⟨rest, done, inside⟩ := ih sane' d
        refine ⟨?_, done, ?_⟩
        · rw [front, rest]
          rfl
        · rw [List.dropLast_cons_of_ne_nil (List.cons_ne_nil _ _), List.mem_cons, not_or]
          exact ⟨Ne.symm ends, inside⟩

theorem keyboardRead_unread (sane : kb.Sane) (count : Nat) :
    kb.unread = (keyboardRead kb count).2.getD [] ++ (keyboardRead kb count).1.unread ∧
      (keyboardRead kb count).1.Sane ∧ newline ∉ ((keyboardRead kb count).2.getD []).dropLast := by
  unfold keyboardRead
  rcases kbdQueuePop_unread sane with ⟨none, -⟩ | ⟨c, kb', popped, front, sane'⟩
  · rw [none]
    exact ⟨rfl, sane, List.not_mem_nil⟩
  · rw [popped]
    obtain ⟨rest, done, inside⟩ := kbdDrain_unread sane' (count - 1) c
    refine ⟨?_, done, inside⟩
    rw [front, rest]
    rfl

end Queue

/-! The line being typed -/

/-- What has been typed: the characters kept of the present line, and the lines committed with
Enter. -/
structure Typing where
  kept : List (BitVec 8)
  lines : List (List (BitVec 8))

def Typing.key (t : Typing) (c : BitVec 8) : Typing :=
  if c = backspace then { t with kept := t.kept.dropLast }
  else if c = newline then ⟨[], t.lines ++ [t.kept ++ [newline]]⟩
  else if t.kept.length < editLineMax - 1 then { t with kept := t.kept ++ [c] }
  else t

/-- The calls of the driver in canonical mode. Characters come from scancodes or directly. -/
inductive KbdOp where
  | char (c : BitVec 8)
  | scancode (sc : BitVec 8)
  | read (count : Nat)
  | setEcho (on : Bool)
  deriving DecidableEq

/-- The character that `commit_char` was called with, and the bytes that a read returned. -/
structure KbdAnswer where
  fed : Option (BitVec 8)
  got : Option (List (BitVec 8))
  deriving DecidableEq

/-- The character that a scancode stands for. -/
def keyChar (kb : Keyboard) (sc : BitVec 8) : Option (BitVec 8) :=
  let released := decide (sc &&& 0x80#8 ≠ 0#8)
  let code := (sc &&& 0x7F#8).toNat
  if code = scLshift ∨ code = scRshift then none
  else if code = scLctrl then none
  else if released then none
  else if kb.ctrlHeld then none
  else
    let c := if kb.shiftHeld then upperTable code else lowerTable code
    if c = 0#8 then none else some c

def kbdStep (kb : Keyboard) : KbdOp → Keyboard × KbdAnswer
  | .char c => ((commitChar kb c).1, ⟨some c, none⟩)
  | .scancode sc => ((keyboardHandleScancode kb sc).1, ⟨keyChar kb sc, none⟩)
  | .read count => ((keyboardRead kb count).1, ⟨none, (keyboardRead kb count).2⟩)
  | .setEcho on => (ttySetEcho kb on, ⟨none, none⟩)

section Typed

variable {kb kb' : Keyboard} {c : BitVec 8}

/-- Nothing happened to the queue and the line. -/
structure Undisturbed (kb kb' : Keyboard) : Prop where
  queue : kb'.queue = kb.queue
  head : kb'.head = kb.head
  tail : kb'.tail = kb.tail
  editLine : kb'.editLine = kb.editLine
  rawMode : kb'.rawMode = kb.rawMode

theorem Undisturbed.refl : Undisturbed kb kb := ⟨rfl, rfl, rfl, rfl, rfl⟩

theorem Undisturbed.echo (text : List (BitVec 8)) : Undisturbed kb (kb.echo text) := by
  unfold Keyboard.echo
  split <;> exact ⟨rfl, rfl, rfl, rfl, rfl⟩

theorem Undisturbed.unread (h : Undisturbed kb kb') : kb'.unread = kb.unread := by
  unfold Keyboard.unread Keyboard.queued
  rw [h.queue, h.head, h.tail]

theorem Undisturbed.sane (h : Undisturbed kb kb') (sane : kb.Sane) : kb'.Sane :=
  ⟨h.head ▸ sane.head, h.tail ▸ sane.tail⟩

/-- In canonical mode a scancode is a character for `commit_char`, or nothing to the queue. -/
theorem scancode_cases (canonical : kb.rawMode = false) (sc : BitVec 8) :
    (∃ c, keyChar kb sc = some c ∧ (keyboardHandleScancode kb sc).1 = (commitChar kb c).1) ∨
      (keyChar kb sc = none ∧ Undisturbed kb (keyboardHandleScancode kb sc).1) := by
  unfold keyChar keyboardHandleScancode
  dsimp only
  by_cases shift : (sc &&& 0x7F#8).toNat = scLshift ∨ (sc &&& 0x7F#8).toNat = scRshift
  · rw [if_pos shift, if_pos shift]
    exact .inr ⟨rfl, rfl, rfl, rfl, rfl, rfl⟩
  rw [if_neg shift, if_neg shift]
  by_cases ctrl : (sc &&& 0x7F#8).toNat = scLctrl
  · rw [if_pos ctrl, if_pos ctrl]
    exact .inr ⟨rfl, rfl, rfl, rfl, rfl, rfl⟩
  rw [if_neg ctrl, if_neg ctrl]
  by_cases released : decide (sc &&& 0x80#8 ≠ 0#8) = true
  · rw [if_pos released, if_pos released]
    exact .inr ⟨rfl, .refl⟩
  rw [if_neg released, if_neg released]
  by_cases held : kb.ctrlHeld = true
  · rw [if_pos held, if_pos held]
    refine .inr ⟨rfl, ?_⟩
    split
    · exact ⟨rfl, rfl, rfl, rfl, rfl⟩
    · split <;> exact ⟨rfl, rfl, rfl, rfl, rfl⟩
  rw [if_neg held, if_neg held]
  generalize (if kb.shiftHeld = true then upperTable (sc &&& 0x7F#8).toNat else lowerTable (sc &&& 0x7F#8).toNat) = c
  unfold typeChar
  by_cases unmapped : c = 0#8
  · rw [if_pos unmapped, if_pos unmapped]
    exact .inr ⟨rfl, .refl⟩
  · rw [if_neg unmapped, if_neg unmapped, if_neg (by rw [canonical]; decide)]
    exact .inl ⟨c, rfl, rfl⟩

/-- What `commit_char` does to the queue and to the line. -/
structure Commits (kb : Keyboard) (t : Typing) (c : BitVec 8) (kb' : Keyboard) : Prop where
  sane : kb'.Sane
  canonical : kb'.rawMode = false
  line : kb'.editLine = (t.key c).kept
  unread : kb'.unread =
    if c = newline then (kb.unread ++ (kb.editLine ++ [newline])).take (kbdQueueSize - 1) else kb.unread

theorem push_rest (kb : Keyboard) (c : BitVec 8) :
    (kbdQueuePush kb c).rawMode = kb.rawMode ∧ (kbdQueuePush kb c).editLine = kb.editLine := by
  unfold kbdQueuePush
  dsimp only
  split <;> exact ⟨rfl, rfl⟩

theorem push_all_rest (kb : Keyboard) (cs : List (BitVec 8)) :
    (cs.foldl kbdQueuePush kb).rawMode = kb.rawMode ∧ (cs.foldl kbdQueuePush kb).editLine = kb.editLine := by
  induction cs generalizing kb with
  | nil => exact ⟨rfl, rfl⟩
  | cons c cs ih => exact ⟨(ih _).1.trans (push_rest kb c).1, (ih _).2.trans (push_rest kb c).2⟩

theorem commitChar_commits (sane : kb.Sane) (canonical : kb.rawMode = false) {t : Typing} (kept : t.kept = kb.editLine)
    (c : BitVec 8) : Commits kb t c (commitChar kb c).1 := by
  unfold commitChar
  by_cases back : c = backspace
  · have other : c ≠ newline := by rw [back]; decide
    have line : (t.key c).kept = kb.editLine.dropLast := by rw [Typing.key, if_pos back, kept]
    rw [if_pos back]
    split
    · have quiet : Undisturbed { kb with editLine := kb.editLine.dropLast }
          ({ kb with editLine := kb.editLine.dropLast }.echo [backspace, 32#8, backspace]) := .echo _
      exact ⟨quiet.sane ⟨sane.head, sane.tail⟩, quiet.rawMode.trans canonical, quiet.editLine.trans line.symm,
        by rw [if_neg other]; exact quiet.unread⟩
    · rename_i none
      have empty : kb.editLine = [] := List.eq_nil_of_length_eq_zero (Nat.eq_zero_of_not_pos none)
      exact ⟨sane, canonical, by rw [line, empty]; rfl, by rw [if_neg other]⟩
  rw [if_neg back]
  by_cases enter : c = newline
  · rw [if_pos enter]
    have quiet : Undisturbed kb (kb.echo [newline]) := .echo _
    obtain ⟨pushed, sane'⟩ := push_all_unread (quiet.sane sane) (kb.echo [newline]).editLine
    obtain ⟨ended, sane''⟩ := kbdQueuePush_unread sane' newline
    obtain ⟨raw, -⟩ := push_all_rest (kb.echo [newline]) (kb.echo [newline]).editLine
    refine ⟨⟨sane''.head, sane''.tail⟩, ?_, ?_, ?_⟩
    · exact ((push_rest _ _).1.trans raw).trans (quiet.rawMode.trans canonical)
    · rw [Typing.key, if_neg back, if_pos enter]
    · rw [if_pos enter, ← List.append_assoc, ← take_append_take, ← quiet.unread, ← quiet.editLine, ← pushed]
      exact ended
  rw [if_neg enter]
  by_cases room : kb.editLine.length < editLineMax - 1
  · rw [if_pos room]
    have quiet : Undisturbed { kb with editLine := kb.editLine ++ [c] } ({ kb with editLine := kb.editLine ++ [c] }.echo [c]) :=
      .echo _
    refine ⟨quiet.sane ⟨sane.head, sane.tail⟩, quiet.rawMode.trans canonical, quiet.editLine.trans ?_,
      by rw [if_neg enter]; exact quiet.unread⟩
    rw [Typing.key, if_neg back, if_neg enter, kept, if_pos room]
  · rw [if_neg room]
    refine ⟨sane, canonical, ?_, by rw [if_neg enter]⟩
    rw [Typing.key, if_neg back, if_neg enter, kept, if_neg room, kept]

theorem kbdQueuePop_rest {d : BitVec 8} (popped : kbdQueuePop kb = some (d, kb')) :
    kb'.rawMode = kb.rawMode ∧ kb'.editLine = kb.editLine := by
  unfold kbdQueuePop at popped
  split at popped
  · cases popped
  · cases popped
    exact ⟨rfl, rfl⟩

theorem kbdDrain_rest (left : Nat) (c : BitVec 8) (kb : Keyboard) :
    (kbdDrain left c kb).1.rawMode = kb.rawMode ∧ (kbdDrain left c kb).1.editLine = kb.editLine := by
  induction left generalizing c kb with
  | zero => exact ⟨rfl, rfl⟩
  | succ left ih =>
    unfold kbdDrain
    split
    · exact ⟨rfl, rfl⟩
    · split
      · exact ⟨rfl, rfl⟩
      · rename_i d kb' popped
        obtain ⟨raw, line⟩ := kbdQueuePop_rest popped
        exact ⟨(ih d kb').1.trans raw, (ih d kb').2.trans line⟩

theorem keyboardRead_rest (kb : Keyboard) (count : Nat) :
    (keyboardRead kb count).1.rawMode = kb.rawMode ∧ (keyboardRead kb count).1.editLine = kb.editLine := by
  unfold keyboardRead
  split
  · exact ⟨rfl, rfl⟩
  · rename_i d kb' popped
    obtain ⟨raw, line⟩ := kbdQueuePop_rest popped
    exact ⟨(kbdDrain_rest _ _ _).1.trans raw, (kbdDrain_rest _ _ _).2.trans line⟩

theorem Typing.key_lines (t : Typing) (c : BitVec 8) :
    (t.key c).lines = if c = newline then t.lines ++ [t.kept ++ [newline]] else t.lines := by
  unfold Typing.key
  by_cases back : c = backspace
  · have other : c ≠ newline := by rw [back]; decide
    rw [if_pos back, if_neg other]
  · rw [if_neg back]
    split
    · rfl
    · split <;> rfl

def Typing.take (t : Typing) (a : KbdAnswer) : Typing := a.fed.elim t t.key

theorem Typing.take_lines {t : Typing} {a : KbdAnswer} (other : a.fed ≠ some newline) : (t.take a).lines = t.lines := by
  unfold Typing.take
  cases fed : a.fed with
  | none => rfl
  | some c =>
    rw [Option.elim_some, Typing.key_lines, if_neg]
    rintro rfl
    exact other fed

/-- The driver and what has been typed so far. -/
structure Session (kb : Keyboard) (t : Typing) : Prop where
  sane : kb.Sane
  canonical : kb.rawMode = false
  line : t.kept = kb.editLine

inductive QueueMoves (kb : Keyboard) (kb' : Keyboard) (a : KbdAnswer) : Prop
  | commits (fed : a.fed = some newline) (silent : a.got = none)
      (unread : kb'.unread = (kb.unread ++ (kb.editLine ++ [newline])).take (kbdQueueSize - 1))
  | reads (fed : a.fed ≠ some newline) (unread : kb.unread = a.got.getD [] ++ kb'.unread)
      (whole : newline ∉ (a.got.getD []).dropLast)

theorem Session.step {t : Typing} (h : Session kb t) (op : KbdOp) :
    Session (kbdStep kb op).1 (t.take (kbdStep kb op).2) ∧ QueueMoves kb (kbdStep kb op).1 (kbdStep kb op).2 := by
  have committed : ∀ c, Session (commitChar kb c).1 (t.take ⟨some c, none⟩) ∧
      QueueMoves kb (commitChar kb c).1 ⟨some c, none⟩ := by
    intro c
    obtain ⟨sane, canonical, line, unread⟩ := commitChar_commits h.sane h.canonical h.line c
    refine ⟨⟨sane, canonical, line.symm⟩, ?_⟩
    by_cases enter : c = newline
    · rw [if_pos enter] at unread
      exact .commits (congrArg some enter) rfl unread
    · rw [if_neg enter] at unread
      exact .reads (fun same => enter (Option.some.inj same)) unread.symm List.not_mem_nil
  cases op with
  | char c => exact committed c
  | scancode sc =>
    unfold kbdStep
    dsimp only
    rcases scancode_cases h.canonical sc with ⟨c, fed, after⟩ | ⟨none, quiet⟩
    · rw [fed, after]
      exact committed c
    · rw [none]
      exact ⟨⟨quiet.sane h.sane, quiet.rawMode.trans h.canonical, h.line.trans quiet.editLine.symm⟩,
        .reads nofun quiet.unread.symm List.not_mem_nil⟩
  | read count =>
    obtain ⟨unread, sane, whole⟩ := keyboardRead_unread h.sane count
    obtain ⟨raw, line⟩ := keyboardRead_rest kb count
    exact ⟨⟨sane, raw.trans h.canonical, h.line.trans line.symm⟩, .reads nofun unread whole⟩
  | setEcho on => exact ⟨⟨⟨h.sane.head, h.sane.tail⟩, h.canonical, h.line⟩, .reads nofun rfl List.not_mem_nil⟩

end Typed

/-! Echo changes the screen only -/

section Muted

def Keyboard.muted (kb : Keyboard) : Keyboard := { kb with echoEnabled := false, screen := [] }

variable (kb : Keyboard)

theorem echo_muted (text : List (BitVec 8)) : (kb.echo text).muted = kb.muted := by
  unfold Keyboard.echo
  split <;> rfl

theorem kbdQueuePush_muted (c : BitVec 8) : (kbdQueuePush kb c).muted = kbdQueuePush kb.muted c := by
  unfold kbdQueuePush
  dsimp only
  by_cases full : (kb.head + 1) % kbdQueueSize = kb.tail
  · rw [if_pos full]
    exact (if_pos full).symm
  · rw [if_neg full]
    exact (if_neg full).symm

theorem push_all_muted (cs : List (BitVec 8)) : (cs.foldl kbdQueuePush kb).muted = cs.foldl kbdQueuePush kb.muted := by
  induction cs generalizing kb with
  | nil => rfl
  | cons c cs ih => rw [List.foldl_cons, List.foldl_cons, ih, kbdQueuePush_muted]

theorem commitChar_muted (c : BitVec 8) : (commitChar kb c).1.muted = (commitChar kb.muted c).1 := by
  have line : kb.muted.editLine = kb.editLine := rfl
  unfold commitChar
  rw [line]
  split
  · split
    · exact echo_muted _ _
    · rfl
  split
  · have echoed : (kb.echo [newline]).editLine = kb.editLine := (Undisturbed.echo _).editLine
    have pushed : (kbdQueuePush ((kb.echo [newline]).editLine.foldl kbdQueuePush (kb.echo [newline])) newline).muted =
        kbdQueuePush (kb.editLine.foldl kbdQueuePush kb.muted) newline := by
      rw [kbdQueuePush_muted, push_all_muted, echo_muted, echoed]
    exact congrArg (fun kb : Keyboard => { kb with editLine := [] }) pushed
  · split
    · exact echo_muted _ _
    · rfl

theorem kbdQueuePop_muted :
    kbdQueuePop kb.muted = (kbdQueuePop kb).map fun r => (r.1, r.2.muted) := by
  unfold kbdQueuePop
  by_cases empty : kb.tail = kb.head
  · rw [if_pos empty]
    exact if_pos empty
  · rw [if_neg empty]
    exact if_neg empty

theorem kbdDrain_muted (left : Nat) (c : BitVec 8) :
    kbdDrain left c kb.muted = ((kbdDrain left c kb).1.muted, (kbdDrain left c kb).2) := by
  induction left generalizing c kb with
  | zero => rfl
  | succ left ih =>
    unfold kbdDrain
    split
    · rfl
    · rw [kbdQueuePop_muted]
      cases kbdQueuePop kb with
      | none => rfl
      | some r =>
        dsimp only [Option.map_some]
        rw [ih]

theorem keyboardRead_muted (count : Nat) :
    keyboardRead kb.muted count = ((keyboardRead kb count).1.muted, (keyboardRead kb count).2) := by
  unfold keyboardRead
  rw [kbdQueuePop_muted]
  cases kbdQueuePop kb with
  | none => rfl
  | some r =>
    dsimp only [Option.map_some]
    rw [kbdDrain_muted]

theorem scancode_muted (canonical : kb.rawMode = false) (sc : BitVec 8) :
    (keyboardHandleScancode kb sc).1.muted = (keyboardHandleScancode kb.muted sc).1.muted := by
  have typed : ∀ c, (typeChar kb c).1.muted = (typeChar kb.muted c).1.muted := by
    intro c
    have raw : ¬ kb.rawMode = true := by
      rw [canonical]
      decide
    have raw' : ¬ kb.muted.rawMode = true := raw
    unfold typeChar
    by_cases unmapped : c = 0#8
    · rw [if_pos unmapped, if_pos unmapped]
      rfl
    · rw [if_neg unmapped, if_neg unmapped, if_neg raw, if_neg raw']
      exact (commitChar_muted kb c).trans (commitChar_muted kb.muted c).symm
  have flags : kb.muted.ctrlHeld = kb.ctrlHeld ∧ kb.muted.shiftHeld = kb.shiftHeld := ⟨rfl, rfl⟩
  unfold keyboardHandleScancode
  dsimp only
  rw [flags.1, flags.2]
  split
  · rfl
  split
  · rfl
  split
  · rfl
  split
  · split
    · rfl
    · split <;> rfl
  · exact typed _

/-- Two drivers that differ in the echo setting and the screen give the same answers. -/
theorem kbdStep_muted (canonical : kb.rawMode = false) (op : KbdOp) :
    (kbdStep kb op).1.muted = (kbdStep kb.muted op).1.muted ∧ (kbdStep kb op).2 = (kbdStep kb.muted op).2 := by
  cases op with
  | char c => exact ⟨(commitChar_muted kb c).trans (commitChar_muted kb.muted c).symm, rfl⟩
  | scancode sc => exact ⟨scancode_muted kb canonical sc, rfl⟩
  | read count =>
    unfold kbdStep
    dsimp only
    rw [keyboardRead_muted]
    exact ⟨rfl, rfl⟩
  | setEcho on => exact ⟨rfl, rfl⟩

end Muted

section Runs

/-- The bytes that the reads of a run returned, one list for each read. -/
def gots (answers : List KbdAnswer) : List (List (BitVec 8)) := answers.filterMap KbdAnswer.got

/-- The characters that were fed to `commit_char`. -/
def feds (answers : List KbdAnswer) : List (BitVec 8) := answers.filterMap KbdAnswer.fed

def KbdOp.setsEcho : KbdOp → Bool
  | .setEcho _ => true
  | _ => false

/-- A line that is committed here finds room in the queue. -/
def RoomFor (kb : Keyboard) (op : KbdOp) : Prop :=
  (kbdStep kb op).2.fed = some newline → kb.unread.length + kb.editLine.length + 1 < kbdQueueSize

instance (kb : Keyboard) (op : KbdOp) : Decidable (RoomFor kb op) := inferInstanceAs (Decidable (_ → _))

variable {kb kb' : Keyboard} {t : Typing}

theorem Session.lines (h : Session kb t) {op : KbdOp} (room : RoomFor kb op) :
    ∃ new, (t.take (kbdStep kb op).2).lines = t.lines ++ new ∧
      kb.unread ++ new.flatten = (kbdStep kb op).2.got.getD [] ++ (kbdStep kb op).1.unread := by
  obtain ⟨-, moves⟩ := h.step op
  rcases moves with ⟨fed, silent, unread⟩ | ⟨other, unread, -⟩
  · refine ⟨[t.kept ++ [newline]], ?_, ?_⟩
    · rw [Typing.take, fed, Option.elim_some, Typing.key_lines, if_pos rfl]
    · have fits := room fed
      rw [silent, unread, h.line, List.flatten_singleton, List.take_of_length_le]
      · rfl
      · simp only [List.length_append, List.length_singleton, kbdQueueSize] at fits ⊢
        omega
  · exact ⟨[], by rw [Typing.take_lines other, List.append_nil], by rw [List.flatten_nil, List.append_nil, unread]⟩

theorem gots_cons (a : KbdAnswer) (answers : List KbdAnswer) :
    (gots (a :: answers)).flatten = a.got.getD [] ++ (gots answers).flatten := by
  unfold gots
  cases got : a.got with
  | none => rw [List.filterMap_cons_none got, Option.getD_none, List.nil_append]
  | some bytes => rw [List.filterMap_cons_some got, List.flatten_cons, Option.getD_some]

theorem feds_cons (a : KbdAnswer) (answers : List KbdAnswer) :
    (feds (a :: answers)).foldl Typing.key t = (feds answers).foldl Typing.key (t.take a) := by
  unfold feds Typing.take
  cases fed : a.fed with
  | none => rw [List.filterMap_cons_none fed, Option.elim_none]
  | some c => rw [List.filterMap_cons_some fed, List.foldl_cons, Option.elim_some]

/-- In a run in which every line finds room, the bytes read and the bytes left are the bytes there
were and the lines committed. -/
theorem Session.run (h : Session kb t) {ops : List KbdOp} (room : Run.Along kbdStep RoomFor kb ops) :
    let r := Run.run kbdStep kb ops
    ∃ new, ((feds r.2).foldl Typing.key t).lines = t.lines ++ new ∧
      kb.unread ++ new.flatten = (gots r.2).flatten ++ r.1.unread := by
  induction ops generalizing kb t with
  | nil => exact ⟨[], (List.append_nil _).symm, List.append_nil _⟩
  | cons op ops ih =>
    obtain ⟨first, lines, moved⟩ := h.lines room.1
    obtain ⟨rest, later, left⟩ := ih (h.step op).1 room.2
    refine ⟨first ++ rest, ?_, ?_⟩
    · rw [Run.run_cons, feds_cons, later, lines, List.append_assoc]
    · rw [Run.run_cons, gots_cons, List.flatten_append, ← List.append_assoc, moved, List.append_assoc, left,
        List.append_assoc]

theorem Session.whole (h : Session kb t) (ops : List KbdOp) :
    ∀ bytes ∈ gots (Run.run kbdStep kb ops).2, newline ∉ bytes.dropLast := by
  induction ops generalizing kb t with
  | nil => exact fun bytes mem => absurd mem List.not_mem_nil
  | cons op ops ih =>
    intro bytes mem
    obtain ⟨session, moves⟩ := h.step op
    have later := ih session bytes
    rw [Run.run_cons] at mem
    unfold gots at mem later
    cases got : (kbdStep kb op).2.got with
    | none =>
      rw [List.filterMap_cons_none got] at mem
      exact later mem
    | some first =>
      rw [List.filterMap_cons_some got] at mem
      rcases List.mem_cons.mp mem with rfl | mem
      · rcases moves with ⟨-, silent, -⟩ | ⟨-, -, whole⟩
        · rw [got] at silent
          cases silent
        · rwa [got] at whole
      · exact later mem

theorem Session.mute (h : Session kb t) (same : kb'.muted = kb.muted) (ops : List KbdOp) :
    gots (Run.run kbdStep kb' (ops.filter fun op => !op.setsEcho)).2 = gots (Run.run kbdStep kb ops).2 := by
  induction ops generalizing kb kb' t with
  | nil => rfl
  | cons op ops ih =>
    have session := (h.step op).1
    have canonical' : kb'.rawMode = false := (congrArg Keyboard.rawMode same).trans h.canonical
    obtain ⟨state, answer⟩ := kbdStep_muted kb h.canonical op
    obtain ⟨state', answer'⟩ := kbdStep_muted kb' canonical' op
    cases echo : op.setsEcho with
    | false =>
      have same' : (kbdStep kb' op).1.muted = (kbdStep kb op).1.muted := by rw [state', state, same]
      have answers : (kbdStep kb' op).2 = (kbdStep kb op).2 := by rw [answer', answer, same]
      have rest := ih session same'
      unfold gots at rest ⊢
      rw [List.filter_cons_of_pos (by rw [echo]; rfl), Run.run_cons, Run.run_cons, answers, List.filterMap_cons,
        List.filterMap_cons, rest]
    | true =>
      cases op with
      | setEcho on =>
        have same' : kb'.muted = (kbdStep kb (.setEcho on)).1.muted := same
        have rest := ih session same'
        unfold gots at rest ⊢
        rw [List.filter_cons_of_neg (by rw [echo]; decide), rest, Run.run_cons]
        exact (List.filterMap_cons_none rfl).symm
      | _ => cases echo

/-- Line editing is faithful. What the reads return and what the queue still holds are, in order,
what it held and the lines that the characters spell; no read goes on behind a newline; and the
echo setting does not matter. -/
theorem line_editing_faithful (kb : Keyboard) (sane : kb.Sane) (canonical : kb.rawMode = false) (ops : List KbdOp)
    (room : Run.Along kbdStep RoomFor kb ops) :
    let r := Run.run kbdStep kb ops
    (gots r.2).flatten ++ r.1.unread =
        kb.unread ++ ((feds r.2).foldl Typing.key ⟨kb.editLine, []⟩).lines.flatten ∧
      (∀ bytes ∈ gots r.2, newline ∉ bytes.dropLast) ∧
      ∀ on, gots (Run.run kbdStep (ttySetEcho kb on) (ops.filter fun op => !op.setsEcho)).2 = gots r.2 := by
  have session : Session kb ⟨kb.editLine, []⟩ := ⟨sane, canonical, rfl⟩
  obtain ⟨new, lines, left⟩ := session.run room
  intro r
  have same : ∀ on, (ttySetEcho kb on).muted = kb.muted := fun _ => rfl
  refine ⟨?_, session.whole ops, fun on => session.mute (same on) ops⟩
  rw [lines, List.nil_append]
  exact left.symm

/-- `a`, backspace, `b`, Enter, and two reads. -/
theorem line_editing_faithful_example :
    let ops : List KbdOp := [.char 97#8, .char backspace, .char 98#8, .char newline, .read 1, .setEcho false, .read 9]
    let r := Run.run kbdStep Keyboard.initial ops
    (gots r.2).flatten ++ r.1.unread = [98#8, newline] ∧ gots r.2 = [[98#8], [newline]] := by
  intro ops r
  have faithful := line_editing_faithful Keyboard.initial ⟨by decide, by decide⟩ rfl ops (by decide +kernel)
  exact ⟨faithful.1.trans (by decide +kernel), by decide +kernel⟩

end Runs

end Isunux
