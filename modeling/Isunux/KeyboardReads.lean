import Isunux.KeyboardLines

/-! What one call of `keyboard_read` returns: the queue up to the count and up to a newline,
whatever the mode, and at least one byte. -/
namespace Isunux

def throughNewline : List (BitVec 8) → List (BitVec 8)
  | [] => []
  | c :: rest => c :: if c = newline then [] else throughNewline rest

section Newlines

theorem throughNewline_begins (bytes : List (BitVec 8)) : throughNewline bytes <+: bytes := by
  induction bytes with
  | nil => exact List.prefix_rfl
  | cons c rest ih =>
    rw [throughNewline]
    split
    · exact ⟨rest, rfl⟩
    · exact List.prefix_cons_inj c |>.mpr ih

/-- Nothing is left behind exactly when no newline stands before the end. -/
theorem throughNewline_length_iff (bytes : List (BitVec 8)) :
    (throughNewline bytes).length = bytes.length ↔ newline ∉ bytes.dropLast := by
  induction bytes with
  | nil => exact ⟨fun _ => List.not_mem_nil, fun _ => rfl⟩
  | cons c rest ih =>
    rw [throughNewline]
    cases rest with
    | nil => exact ⟨fun _ => List.not_mem_nil, fun _ => by split <;> rfl⟩
    | cons d tail =>
      rw [List.dropLast_cons_of_ne_nil (List.cons_ne_nil d tail), List.mem_cons, not_or]
      by_cases ends : c = newline
      · rw [if_pos ends]
        refine ⟨fun same => ?_, fun ⟨other, _⟩ => absurd ends.symm other⟩
        have longer : 1 = tail.length + 2 := same
        omega
      · rw [if_neg ends, List.length_cons, List.length_cons, Nat.add_right_cancel_iff, ih]
        exact ⟨fun inside => ⟨Ne.symm ends, inside⟩, And.right⟩

end Newlines

/-! One call -/

section Call

variable {kb : Keyboard}

theorem kbdDrain_returns (sane : kb.Sane) (left : Nat) (c : BitVec 8) :
    c :: (kbdDrain left c kb).2 = throughNewline (c :: kb.unread.take left) := by
  induction left generalizing kb c with
  | zero =>
    rw [kbdDrain, List.take_zero, throughNewline]
    split <;> rfl
  | succ left ih =>
    rw [kbdDrain, throughNewline]
    by_cases ends : c = newline
    · rw [if_pos ends, if_pos ends]
    · rw [if_neg ends, if_neg ends]
      rcases kbdQueuePop_unread sane with ⟨none, empty⟩ | ⟨d, kb', popped, front, sane'⟩
      · rw [none, empty]
        rfl
      · rw [popped, front, List.take_succ_cons]
        exact congrArg (c :: ·) (ih sane' d)

theorem keyboardRead_returns (sane : kb.Sane) (waiting : kb.unread ≠ []) (count : Nat) :
    (keyboardRead kb count).2 = some (throughNewline (kb.unread.take (max count 1))) := by
  rcases kbdQueuePop_unread sane with ⟨-, empty⟩ | ⟨c, kb', popped, front, sane'⟩
  · exact absurd empty waiting
  · have count' : max count 1 = count - 1 + 1 := by omega
    rw [keyboardRead, popped, front, count', List.take_succ_cons, ← kbdDrain_returns sane']

theorem keyboardRead_waits (sane : kb.Sane) (empty : kb.unread = []) (count : Nat) : (keyboardRead kb count).2 = none := by
  rcases kbdQueuePop_unread sane with ⟨none, -⟩ | ⟨c, kb', popped, front, -⟩
  · rw [keyboardRead, none]
  · rw [front] at empty
    exact absurd empty (List.cons_ne_nil _ _)

/-- The call returned `bytes` as it was asked to. -/
structure ReadsAsAsked (kb : Keyboard) (count : Nat) (bytes : List (BitVec 8)) : Prop where
  fits : bytes.length ≤ count
  front : kb.unread = bytes ++ (keyboardRead kb count).1.unread
  raw : kb.rawMode = true → bytes.length = min count kb.unread.length
  canonical : kb.rawMode = false → bytes = throughNewline (kb.unread.take count)

theorem reads_as_asked_iff (sane : kb.Sane) (waiting : kb.unread ≠ []) (count : Nat) :
    ReadsAsAsked kb count (throughNewline (kb.unread.take (max count 1))) ↔
      0 < count ∧ (kb.rawMode = true → newline ∉ (kb.unread.take count).dropLast) := by
  constructor
  · intro h
    have some : 0 < count := by
      refine Nat.pos_of_ne_zero fun zero => ?_
      cases unread : kb.unread with
      | nil => exact absurd unread waiting
      | cons c rest =>
        have fits := h.fits
        rw [unread, zero, Nat.max_eq_right (Nat.zero_le 1), List.take_succ_cons, throughNewline] at fits
        exact Nat.not_succ_le_zero _ fits
    refine ⟨some, fun raw => ?_⟩
    have length := h.raw raw
    rw [Nat.max_eq_left some, ← List.length_take] at length
    exact (throughNewline_length_iff _).mp length
  · rintro ⟨some, inside⟩
    have front := (keyboardRead_unread sane count).1
    rw [keyboardRead_returns sane waiting, Option.getD_some] at front
    rw [Nat.max_eq_left some] at front ⊢
    refine ⟨?_, front, fun raw => ?_, fun _ => rfl⟩
    · exact (throughNewline_begins _).length_le.trans (List.length_take_le _ _)
    · exact ((throughNewline_length_iff _).mpr (inside raw)).trans List.length_take

end Call

/-- A read of no bytes stores one, and in raw mode too a read ends at a newline. Otherwise a
read returns what its count and its mode ask for. -/
theorem keyboard_read_as_asked_iff (kb : Keyboard) (sane : kb.Sane) (count : Nat) :
    ((keyboardRead kb count).2 = none ↔ kb.unread = []) ∧
      ((∀ bytes, (keyboardRead kb count).2 = some bytes → ReadsAsAsked kb count bytes) ↔
        kb.unread = [] ∨ 0 < count ∧ (kb.rawMode = true → newline ∉ (kb.unread.take count).dropLast)) := by
  by_cases empty : kb.unread = []
  · have none := keyboardRead_waits sane empty count
    exact ⟨⟨fun _ => empty, fun _ => none⟩, fun _ => .inl empty, fun _ bytes some => by rw [none] at some; cases some⟩
  · have returned := keyboardRead_returns sane empty count
    rw [returned]
    refine ⟨⟨nofun, fun absent => absurd absent empty⟩, fun all => .inr ?_, fun condition bytes same => ?_⟩
    · exact (reads_as_asked_iff sane empty count).mp (all _ rfl)
    · cases same
      exact (reads_as_asked_iff sane empty count).mpr (condition.resolve_left empty)

/-- Raw mode, with `a`, Enter and `b` in the queue. -/
def rawKeyboard : Keyboard :=
  [97#8, newline, 98#8].foldl kbdQueuePush (ttySetRaw Keyboard.initial true)

/-- Enter in raw mode ends a read of three bytes after two of them. -/
theorem raw_read_stops :
    rawKeyboard.rawMode = true ∧ rawKeyboard.unread = [97#8, newline, 98#8] ∧
      ¬ ∀ bytes, (keyboardRead rawKeyboard 3).2 = some bytes → ReadsAsAsked rawKeyboard 3 bytes := by
  have raw : rawKeyboard.rawMode = true := by decide +kernel
  have unread : rawKeyboard.unread = [97#8, newline, 98#8] := by decide +kernel
  refine ⟨raw, unread, fun all => ?_⟩
  have returned : (keyboardRead rawKeyboard 3).2 = some [97#8, newline] := by decide +kernel
  have length := (all _ returned).raw raw
  rw [unread] at length
  exact absurd length (by decide)

/-- The same queue read in two goes. -/
theorem raw_reads_as_asked :
    ((keyboardRead rawKeyboard 2).2 = none ↔ rawKeyboard.unread = []) ∧
      ∀ bytes, (keyboardRead rawKeyboard 2).2 = some bytes → ReadsAsAsked rawKeyboard 2 bytes := by
  have sane : rawKeyboard.Sane := ⟨by decide +kernel, by decide +kernel⟩
  obtain ⟨waits, asked⟩ := keyboard_read_as_asked_iff rawKeyboard sane 2
  exact ⟨waits, asked.mpr (.inr ⟨by decide, fun _ => by decide +kernel⟩)⟩

end Isunux
