import Isunux.Kernel

/-! The keyboard driver, keyboard.c: scancodes, the line being edited, and the
queue of characters that `keyboard_read` drains. -/
namespace Isunux

def kbdQueueSize : Nat := 1024
def editLineMax : Nat := 256

/-- The static variables of keyboard.c, and what was echoed to the terminal. -/
structure Keyboard where
  shiftHeld : Bool
  ctrlHeld : Bool
  rawMode : Bool
  echoEnabled : Bool
  editLine : List (BitVec 8)
  queue : Nat → BitVec 8
  head : Nat
  tail : Nat
  screen : List (BitVec 8)

def Keyboard.initial : Keyboard :=
  ⟨false, false, false, true, [], fun _ => 0#8, 0, 0, []⟩

/-- A key press as a row of the scancode tables: the first code of the row and
the characters from there on, 0 for keys that are not translated. -/
def tableRow (first : Nat) (chars : List Nat) (code : Nat) : Nat :=
  if first ≤ code then (chars[code - first]?).getD 0 else 0

def lowerTable (code : Nat) : BitVec 8 :=
  BitVec.ofNat 8 <|
    tableRow 0x01 [27, 49, 50, 51, 52, 53, 54, 55, 56, 57, 48, 45, 61, 8, 9] code +
    tableRow 0x10 [113, 119, 101, 114, 116, 121, 117, 105, 111, 112, 91, 93, 10] code +
    tableRow 0x1E [97, 115, 100, 102, 103, 104, 106, 107, 108, 59, 39, 96] code +
    tableRow 0x2B [92, 122, 120, 99, 118, 98, 110, 109, 44, 46, 47] code +
    tableRow 0x39 [32] code

def upperTable (code : Nat) : BitVec 8 :=
  BitVec.ofNat 8 <|
    tableRow 0x02 [33, 64, 35, 36, 37, 94, 38, 42, 40, 41, 95, 43, 8, 9] code +
    tableRow 0x10 [81, 87, 69, 82, 84, 89, 85, 73, 79, 80, 123, 125, 10] code +
    tableRow 0x1E [65, 83, 68, 70, 71, 72, 74, 75, 76, 58, 34, 126] code +
    tableRow 0x2B [124, 90, 88, 67, 86, 66, 78, 77, 60, 62, 63] code +
    tableRow 0x39 [32] code

def newline : BitVec 8 := 10#8
def backspace : BitVec 8 := 8#8

def Keyboard.print (kb : Keyboard) (text : List (BitVec 8)) : Keyboard :=
  { kb with screen := kb.screen ++ text }

/-- Terminal output that the echo setting gates. -/
def Keyboard.echo (kb : Keyboard) (text : List (BitVec 8)) : Keyboard :=
  if kb.echoEnabled then kb.print text else kb

/-- `kbd_queue_push`: a character that finds the queue full is dropped. -/
def kbdQueuePush (kb : Keyboard) (c : BitVec 8) : Keyboard :=
  let next := (kb.head + 1) % kbdQueueSize
  if next = kb.tail then kb
  else { kb with queue := Function.update kb.queue kb.head c, head := next }

def kbdQueuePop (kb : Keyboard) : Option (BitVec 8 × Keyboard) :=
  if kb.tail = kb.head then none
  else some (kb.queue kb.tail, { kb with tail := (kb.tail + 1) % kbdQueueSize })

/-- `commit_char`, with whether it called `task_wake`. -/
def commitChar (kb : Keyboard) (c : BitVec 8) : Keyboard × Bool :=
  if c = backspace then
    if 0 < kb.editLine.length then
      ({ kb with editLine := kb.editLine.dropLast }.echo [backspace, 32#8, backspace], false)
    else (kb, false)
  else if c = newline then
    let kb := kb.echo [newline]
    let kb := kbdQueuePush (kb.editLine.foldl kbdQueuePush kb) newline
    ({ kb with editLine := [] }, true)
  else if kb.editLine.length < editLineMax - 1 then
    ({ kb with editLine := kb.editLine ++ [c] }.echo [c], false)
  else (kb, false)

/-- What a scancode asks of the rest of the kernel. -/
inductive KeyAction where
  | nothing
  | wake
  | signal (sig : Nat)
  deriving DecidableEq

def scLshift : Nat := 0x2A
def scRshift : Nat := 0x36
def scLctrl : Nat := 0x1D

/-- The end of `keyboard_handle_scancode`, for a translated key. -/
def typeChar (kb : Keyboard) (c : BitVec 8) : Keyboard × KeyAction :=
  if c = 0#8 then (kb, .nothing)
  else if kb.rawMode then ((kbdQueuePush kb c).echo [c], .wake)
  else
    let r := commitChar kb c
    (r.1, if r.2 then .wake else .nothing)

/-- `keyboard_handle_scancode` up to its calls of `task_wake` and
`process_signal_foreground`. -/
def keyboardHandleScancode (kb : Keyboard) (sc : BitVec 8) : Keyboard × KeyAction :=
  let released := decide (sc &&& 0x80#8 ≠ 0#8)
  let code := (sc &&& 0x7F#8).toNat
  if code = scLshift ∨ code = scRshift then ({ kb with shiftHeld := !released }, .nothing)
  else if code = scLctrl then ({ kb with ctrlHeld := !released }, .nothing)
  else if released then (kb, .nothing)
  else if kb.ctrlHeld then
    if code = 0x2E then (kb.print [94#8, 67#8, newline], .signal sigint)
    else if code = 0x2C then (kb.print [94#8, 90#8, newline], .signal sigtstp)
    else (kb, .nothing)
  else typeChar kb (if kb.shiftHeld then upperTable code else lowerTable code)

def ttySetRaw (kb : Keyboard) (enable : Bool) : Keyboard :=
  { kb with rawMode := enable, editLine := [] }

def ttySetEcho (kb : Keyboard) (enable : Bool) : Keyboard := { kb with echoEnabled := enable }

/-- The second loop of `keyboard_read`, after the character `c`; the number counts
down `count - n`. -/
def kbdDrain : Nat → BitVec 8 → Keyboard → Keyboard × List (BitVec 8)
  | 0, _, kb => (kb, [])
  | left + 1, c, kb =>
    if c = newline then (kb, [])
    else
      match kbdQueuePop kb with
      | none => (kb, [])
      | some (c, kb) =>
        let r := kbdDrain left c kb
        (r.1, c :: r.2)

/-- A segment of `keyboard_read`: the characters it returns, or none when it goes
to sleep. The first character is stored whatever the count. -/
def keyboardRead (kb : Keyboard) (count : Nat) : Keyboard × Option (List (BitVec 8)) :=
  match kbdQueuePop kb with
  | none => (kb, none)
  | some (c, kb) =>
    let r := kbdDrain (count - 1) c kb
    (r.1, some (c :: r.2))

def Keyboard.Empty (kb : Keyboard) : Prop := kb.tail = kb.head

@[simp] theorem Keyboard.echo_head (kb : Keyboard) (text : List (BitVec 8)) :
    (kb.echo text).head = kb.head := by
  unfold Keyboard.echo
  split <;> rfl

@[simp] theorem Keyboard.echo_tail (kb : Keyboard) (text : List (BitVec 8)) :
    (kb.echo text).tail = kb.tail := by
  unfold Keyboard.echo
  split <;> rfl

theorem commitChar_quiet {kb : Keyboard} {c : BitVec 8} (quiet : (commitChar kb c).2 = false)
    (empty : kb.Empty) : (commitChar kb c).1.Empty := by
  unfold commitChar at quiet ⊢
  split
  · split
    · simpa [Keyboard.Empty] using empty
    · exact empty
  · rename_i other
    rw [if_neg other] at quiet
    split
    · rename_i enter
      rw [if_pos enter] at quiet
      cases quiet
    · split
      · simpa [Keyboard.Empty] using empty
      · exact empty

theorem keyboardHandleScancode_quiet {kb : Keyboard} {sc : BitVec 8}
    (quiet : (keyboardHandleScancode kb sc).2 ≠ .wake) (empty : kb.Empty) :
    (keyboardHandleScancode kb sc).1.Empty := by
  have typed : ∀ c, (typeChar kb c).2 ≠ .wake → (typeChar kb c).1.Empty := by
    intro c quiet
    unfold typeChar at quiet ⊢
    split
    · exact empty
    · rename_i known
      rw [if_neg known] at quiet
      split
      · rename_i raw
        rw [if_pos raw] at quiet
        exact False.elim (quiet rfl)
      · rename_i cooked
        simp only [cooked] at quiet
        refine commitChar_quiet ?_ empty
        cases woke : (commitChar kb c).2 with
        | false => rfl
        | true => simp [woke] at quiet
  unfold keyboardHandleScancode at quiet ⊢
  simp only at quiet ⊢
  split
  · exact empty
  rename_i notShift
  rw [if_neg notShift] at quiet
  split
  · exact empty
  rename_i notCtrl
  rw [if_neg notCtrl] at quiet
  split
  · exact empty
  rename_i pressed
  rw [if_neg pressed] at quiet
  split
  · split
    · exact empty
    · split <;> exact empty
  · rename_i plain
    rw [if_neg plain] at quiet
    exact typed _ quiet

theorem keyboardRead_sleeps {kb : Keyboard} {count : Nat} (asleep : (keyboardRead kb count).2 = none) :
    (keyboardRead kb count).1 = kb ∧ kb.Empty := by
  unfold keyboardRead kbdQueuePop at asleep ⊢
  by_cases h : kb.tail = kb.head
  · simp only [h, if_true]
    exact ⟨trivial, h⟩
  · simp only [h, if_false] at asleep
    cases asleep

end Isunux
