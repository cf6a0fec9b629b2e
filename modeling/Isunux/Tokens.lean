import Isunux.ShellEnv

/-! `tokenize` reads a line as words and operators and lays the words out in the arena. The
words of a line are said here without an arena, by the rules of quoting alone. -/
namespace Isunux

/-! The words of a line -/

/-- Where a character of a word stands. -/
inductive Quoting where
  | bare
  | single
  | double
  deriving DecidableEq

inductive CharRole where
  | ends
  | turns (next : Quoting)
  | expands
  | stands
  deriving DecidableEq

def endsWord (c : BitVec 8) : Bool := isSpace c || (operatorOf c).isSome

def Quoting.reads (c : BitVec 8) : Quoting → CharRole
  | .bare =>
    if endsWord c then .ends
    else if c = singleQuote then .turns .single
    else if c = doubleQuote then .turns .double
    else if c = dollarByte then .expands
    else .stands
  | .single => if c = singleQuote then .turns .bare else .stands
  | .double => if c = doubleQuote then .turns .bare else if c = dollarByte then .expands else .stands

/-- A word without its quotes and with its variables expanded, and what follows it. -/
def readWord (env : List EnvVar) (q : Quoting) : List (BitVec 8) → List (BitVec 8) × List (BitVec 8)
  | [] => ([], [])
  | c :: rest =>
    match q.reads c with
    | .ends => ([], c :: rest)
    | .turns next => readWord env next rest
    | .expands =>
      let r := readWord env q (rest.drop (varName rest).length)
      ((envGet env (varName rest)).getD [] ++ r.1, r.2)
    | .stands =>
      let r := readWord env q rest
      (c :: r.1, r.2)
termination_by line => line.length
decreasing_by all_goals simp

inductive Lexeme where
  | word (text : List (BitVec 8))
  | operator (type : TokType)
  deriving DecidableEq

/-- The first words and operators of a line. -/
def lexLine (env : List EnvVar) : Nat → List (BitVec 8) → List Lexeme
  | left, line =>
    match left, line.dropWhile isSpace with
    | _, [] => []
    | 0, _ => []
    | left + 1, c :: rest =>
      match operatorOf c with
      | some type => .operator type :: lexLine env left rest
      | none => .word (readWord env .bare (c :: rest)).1 :: lexLine env left (readWord env .bare (c :: rest)).2

/-! Laid out in the arena -/

def TokenArena.store (a : TokenArena) (text : List (BitVec 8)) : TokenArena := (text.foldl TokenArena.push a).close

def layOut : TokenArena → List Lexeme → TokenArena × List Token
  | a, [] => (a, [])
  | a, .operator type :: rest => ((layOut a rest).1, ⟨type, none⟩ :: (layOut a rest).2)
  | a, .word text :: rest => ((layOut (a.store text) rest).1, ⟨.word, some a.pos⟩ :: (layOut (a.store text) rest).2)

section Factors

variable (env : List EnvVar)

/-- A character in the scanner does what it does in the word: its two flags say where it stands. -/
theorem scanWord_cons (q : Quoting) (c : BitVec 8) (rest : List (BitVec 8)) (a : TokenArena) :
    scanWord env (q = .single) (q = .double) (c :: rest) a =
      match q.reads c with
      | .ends => (a, c :: rest)
      | .turns next => scanWord env (next = .single) (next = .double) rest a
      | .expands =>
        scanWord env (q = .single) (q = .double) (rest.drop (varName rest).length)
          (((envGet env (varName rest)).getD []).foldl TokenArena.push a)
      | .stands => scanWord env (q = .single) (q = .double) rest (a.push c) := by
  rw [scanWord]
  cases q with
  | bare =>
    by_cases ends : endsWord c = true
    · have reads : Quoting.bare.reads c = .ends := by rw [Quoting.reads, if_pos ends]
      rw [reads, if_pos (by simpa [endsWord] using ends)]
    rw [if_neg (by simpa [endsWord] using ends)]
    by_cases single : c = singleQuote
    · have reads : Quoting.bare.reads c = .turns .single := by rw [Quoting.reads, if_neg ends, if_pos single]
      rw [reads, if_pos (by simpa using single)]
      rfl
    rw [if_neg (by simpa using single)]
    by_cases double : c = doubleQuote
    · have reads : Quoting.bare.reads c = .turns .double := by
        rw [Quoting.reads, if_neg ends, if_neg single, if_pos double]
      rw [reads, if_pos (by simpa using double)]
      rfl
    rw [if_neg (by simpa using double)]
    by_cases dollar : c = dollarByte
    · have reads : Quoting.bare.reads c = .expands := by
        rw [Quoting.reads, if_neg ends, if_neg single, if_neg double, if_pos dollar]
      rw [reads, if_pos (by simpa using dollar)]
    · have reads : Quoting.bare.reads c = .stands := by
        rw [Quoting.reads, if_neg ends, if_neg single, if_neg double, if_neg dollar]
      rw [reads, if_neg (by simpa using dollar)]
  | single =>
    by_cases single : c = singleQuote <;> simp [Quoting.reads, single]
  | double =>
    by_cases double : c = doubleQuote
    · simp [Quoting.reads, double]
    by_cases dollar : c = dollarByte
    · have other : dollarByte ≠ doubleQuote := by decide
      simp [Quoting.reads, dollar, other]
    · simp [Quoting.reads, double, dollar]

theorem scanWord_reads (q : Quoting) (line : List (BitVec 8)) (a : TokenArena) :
    scanWord env (q = .single) (q = .double) line a =
      ((readWord env q line).1.foldl TokenArena.push a, (readWord env q line).2) := by
  induction q, line using readWord.induct env generalizing a with
  | case1 q =>
    rw [scanWord, readWord]
    rfl
  | case2 q c rest ends => rw [scanWord_cons, readWord, ends]; rfl
  | case3 q c rest next turns ih =>
    rw [scanWord_cons, readWord, turns]
    exact ih a
  | case4 q c rest expands ih =>
    rw [scanWord_cons, readWord, expands]
    dsimp only
    rw [List.foldl_append]
    exact ih _
  | case5 q c rest stands ih =>
    rw [scanWord_cons, readWord, stands]
    exact ih _

theorem tokenizeLoop_lays (left : Nat) (line : List (BitVec 8)) (a : TokenArena) :
    tokenizeLoop env left line a = layOut a (lexLine env left line) := by
  induction left generalizing line a with
  | zero =>
    unfold tokenizeLoop lexLine
    cases line.dropWhile isSpace with
    | nil => rfl
    | cons c rest => rfl
  | succ left ih =>
    unfold tokenizeLoop lexLine
    cases line.dropWhile isSpace with
    | nil => rfl
    | cons c rest =>
      dsimp only
      cases operatorOf c with
      | some type =>
        dsimp only
        rw [ih]
        rfl
      | none =>
        have read : scanWord env false false (c :: rest) a = _ := scanWord_reads env .bare (c :: rest) a
        dsimp only
        rw [read, ih]
        rfl

end Factors

/-! Strings in the arena -/

section

local instance lawfulBytes : LawfulBEq (BitVec 8) := inferInstance

/-- The string at a place, when its terminator is in the arena. -/
def arenaString (bytes : Nat → BitVec 8) (o : Nat) : Option (List (BitVec 8)) :=
  let tail := (List.range' o (tokenArenaSize - o)).map bytes
  if 0#8 ∈ tail then some (tail.takeWhile (· ≠ 0#8)) else none

end

structure TextAt (bytes : Nat → BitVec 8) (o : Nat) (text : List (BitVec 8)) : Prop where
  inside : o + text.length < tokenArenaSize
  chars : ∀ i (_ : i < text.length), bytes (o + i) = text[i]
  ends : bytes (o + text.length) = 0#8
  plain : 0#8 ∉ text

section Strings

variable {bytes bytes' : Nat → BitVec 8} {o : Nat} {text : List (BitVec 8)}

theorem TextAt.read (h : TextAt bytes o text) : arenaString bytes o = some text := by
  have front : (List.range' o text.length).map bytes = text := by
    apply List.ext_getElem (by simp)
    intro i low _
    rw [List.getElem_map, List.getElem_range', Nat.one_mul]
    exact h.chars i (by simpa using low)
  have inside := h.inside
  have split : (List.range' o (tokenArenaSize - o)).map bytes =
      text ++ 0#8 :: (List.range' (o + text.length + 1) (tokenArenaSize - o - text.length - 1)).map bytes := by
    have count : tokenArenaSize - o = text.length + (tokenArenaSize - o - text.length - 1 + 1) := by omega
    rw [count, ← List.range'_append_1, List.map_append, front, List.range'_succ, List.map_cons, h.ends]
    congr 4
    omega
  have stays : ∀ c ∈ text, decide (c ≠ 0#8) = true := fun c mem => decide_eq_true fun same => h.plain (same ▸ mem)
  unfold arenaString
  dsimp only
  rw [split, if_pos (List.mem_append_right _ List.mem_cons_self), List.takeWhile_append_of_pos stays]
  exact congrArg some (List.append_nil text)

theorem TextAt.congr (h : TextAt bytes o text) (same : ∀ i, i ≤ o + text.length → bytes' i = bytes i) :
    TextAt bytes' o text :=
  ⟨h.inside, fun i low => (same _ (by omega)).trans (h.chars i low), (same _ le_rfl).trans h.ends, h.plain⟩

theorem arenaString_outside (outside : tokenArenaSize ≤ o) : arenaString bytes o = none := by
  unfold arenaString
  rw [Nat.sub_eq_zero_of_le outside]
  rfl

end Strings

/-! One word stored -/

section Store

variable {a : TokenArena}

theorem push_all_bytes (text : List (BitVec 8)) (room : a.pos ≤ tokenArenaSize - 1) :
    (text.foldl TokenArena.push a).pos = min (a.pos + text.length) (tokenArenaSize - 1) ∧
      (∀ i, i < a.pos → (text.foldl TokenArena.push a).bytes i = a.bytes i) ∧
      ∀ i (_ : i < text.length), a.pos + i < tokenArenaSize - 1 →
        (text.foldl TokenArena.push a).bytes (a.pos + i) = text[i] := by
  induction text generalizing a with
  | nil => exact ⟨(Nat.min_eq_left room).symm, fun _ _ => rfl, nofun⟩
  | cons c rest ih =>
    rw [List.foldl_cons]
    by_cases fits : a.pos < tokenArenaSize - 1
    · have pushed : a.push c = ⟨Function.update a.bytes a.pos c, a.pos + 1⟩ := if_pos fits
      obtain ⟨pos, below, chars⟩ := @ih (a.push c) (by rw [pushed]; exact fits)
      rw [pushed] at pos below chars ⊢
      dsimp only at pos below chars
      refine ⟨?_, fun i low => ?_, fun i low inside => ?_⟩
      · rw [pos, List.length_cons]
        omega
      · rw [below i (by omega)]
        exact Function.update_of_ne (Nat.ne_of_lt low) _ _
      · cases i with
        | zero =>
          exact (below a.pos (Nat.lt_succ_self _)).trans (Function.update_self _ _ _)
        | succ i =>
          have char := chars i (Nat.lt_of_succ_lt_succ low) (by omega)
          rw [show a.pos + (i + 1) = a.pos + 1 + i by omega]
          exact char
    · have full : a.push c = a := if_neg fits
      obtain ⟨pos, below, -⟩ := ih room
      rw [full]
      refine ⟨?_, below, fun i _ inside => ?_⟩
      · rw [pos, List.length_cons]
        omega
      · omega

/-- A word that starts in the arena is stored as far as a terminator still has room. -/
theorem store_bytes {text : List (BitVec 8)} (plain : 0#8 ∉ text) (room : a.pos < tokenArenaSize) :
    (a.store text).pos = min (a.pos + text.length + 1) tokenArenaSize ∧
      (∀ i, i < a.pos → (a.store text).bytes i = a.bytes i) ∧
      TextAt (a.store text).bytes a.pos (text.take (tokenArenaSize - 1 - a.pos)) := by
  obtain ⟨pos, below, chars⟩ := push_all_bytes text (Nat.le_sub_one_of_lt room)
  have size : tokenArenaSize = 512 := rfl
  unfold TokenArena.store TokenArena.close
  generalize text.foldl TokenArena.push a = b at pos below chars ⊢
  have ends : b.pos = a.pos + (text.take (tokenArenaSize - 1 - a.pos)).length := by
    rw [pos, List.length_take]
    omega
  rw [if_pos (by omega)]
  refine ⟨by dsimp only; omega, fun i low => ?_, by omega, fun i low => ?_, ?_, fun mem => plain (List.mem_of_mem_take mem)⟩
  · dsimp only
    rw [Function.update_of_ne (by omega), below i low]
  · dsimp only
    rw [List.length_take] at low
    rw [Function.update_of_ne (by rw [ends, List.length_take]; omega), chars i (by omega) (by omega), List.getElem_take]
  · rw [← ends]
    exact Function.update_self _ _ _

theorem store_full (text : List (BitVec 8)) (full : tokenArenaSize ≤ a.pos) : a.store text = a := by
  have kept : text.foldl TokenArena.push a = a := by
    induction text with
    | nil => rfl
    | cons c rest ih =>
      have same : a.push c = a := if_neg (by omega)
      rw [List.foldl_cons, same, ih]
  unfold TokenArena.store TokenArena.close
  rw [kept, if_neg (by omega)]

end Store

/-! All words stored -/

def readToken (bytes : Nat → BitVec 8) (t : Token) : Option Lexeme :=
  if t.type = .word then (t.text.bind (arenaString bytes)).map .word else some (.operator t.type)

def wordSizes (lexemes : List Lexeme) : List Nat :=
  lexemes.filterMap fun
    | .word text => some (text.length + 1)
    | .operator _ => none

/-- The tokens hold strings of their own in the arena, and all of the words if they fit. -/
structure ValidTokens (lexemes : List Lexeme) (bytes : Nat → BitVec 8) (toks : List Token) : Prop where
  strings : ∀ t ∈ toks, t.type = .word → ∃ o s, t.text = some o ∧ arenaString bytes o = some s
  disjoint : toks.Pairwise fun t u => ∀ o s o' s', t.text = some o → arenaString bytes o = some s →
    u.text = some o' → arenaString bytes o' = some s' → o + s.length < o' ∨ o' + s'.length < o
  full : (wordSizes lexemes).sum ≤ tokenArenaSize → toks.map (readToken bytes) = lexemes.map some

def Lexeme.Plain : Lexeme → Prop
  | .word text => 0#8 ∉ text
  | .operator type => type ≠ .word

/-- Every word starts in the arena when the first one starts at `pos`. -/
def StartInside : Nat → List Lexeme → Prop
  | _, [] => True
  | pos, .operator _ :: rest => StartInside pos rest
  | pos, .word text :: rest => pos < tokenArenaSize ∧ StartInside (min (pos + text.length + 1) tokenArenaSize) rest

theorem startInside_iff (lexemes : List Lexeme) (pos : Nat) :
    StartInside pos lexemes ↔ wordSizes lexemes = [] ∨ pos + (wordSizes lexemes).dropLast.sum < tokenArenaSize := by
  induction lexemes generalizing pos with
  | nil => exact ⟨fun _ => .inl rfl, fun _ => trivial⟩
  | cons lexeme rest ih =>
    cases lexeme with
    | operator type => exact ih pos
    | word text =>
      have sizes : wordSizes (.word text :: rest) = (text.length + 1) :: wordSizes rest := rfl
      rw [StartInside, ih, sizes]
      cases wordSizes rest with
      | nil => simp
      | cons x xs =>
        rw [List.dropLast_cons_of_ne_nil (List.cons_ne_nil x xs), List.sum_cons]
        simp only [reduceCtorEq, false_or]
        omega

/-- What is known of the tokens of the words from `pos` on. -/
structure LaidOut (pos : Nat) (lexemes : List Lexeme) (bytes : Nat → BitVec 8) (toks : List Token) : Prop where
  strings : ∀ t ∈ toks, t.type = .word → ∃ o s, t.text = some o ∧ arenaString bytes o = some s
  disjoint : toks.Pairwise fun t u => ∀ o s o' s', t.text = some o → arenaString bytes o = some s →
    u.text = some o' → arenaString bytes o' = some s' → o + s.length < o' ∨ o' + s'.length < o
  full : pos + (wordSizes lexemes).sum ≤ tokenArenaSize → toks.map (readToken bytes) = lexemes.map some
  above : ∀ t ∈ toks, ∀ o, t.text = some o → pos ≤ o

section LayOut

variable {a : TokenArena} {lexemes : List Lexeme}

theorem store_below (text : List (BitVec 8)) (plain : 0#8 ∉ text) {i : Nat} (low : i < a.pos) :
    (a.store text).bytes i = a.bytes i ∧ i < (a.store text).pos := by
  by_cases room : a.pos < tokenArenaSize
  · obtain ⟨pos, below, -⟩ := store_bytes plain room
    exact ⟨below i low, by omega⟩
  · rw [store_full text (by omega)]
    exact ⟨rfl, low⟩

theorem layOut_below (plain : ∀ l ∈ lexemes, l.Plain) {i : Nat} (low : i < a.pos) :
    (layOut a lexemes).1.bytes i = a.bytes i := by
  induction lexemes generalizing a with
  | nil => rfl
  | cons lexeme rest ih =>
    have plainRest := fun l mem => plain l (List.mem_cons_of_mem _ mem)
    cases lexeme with
    | operator type => exact ih plainRest low
    | word text =>
      obtain ⟨same, low'⟩ := store_below text (plain _ List.mem_cons_self) low
      exact (ih plainRest low').trans same

/-- The arena fills up word by word: behind one that starts inside it, the others come after its
terminator. -/
theorem layOut_laid (plain : ∀ l ∈ lexemes, l.Plain) (starts : StartInside a.pos lexemes) :
    LaidOut a.pos lexemes (layOut a lexemes).1.bytes (layOut a lexemes).2 := by
  induction lexemes generalizing a with
  | nil => exact ⟨nofun, .nil, fun _ => rfl, nofun⟩
  | cons lexeme rest ih =>
    have plainRest := fun l mem => plain l (List.mem_cons_of_mem _ mem)
    cases lexeme with
    | operator type =>
      have h := ih plainRest starts
      have other : type ≠ .word := plain _ List.mem_cons_self
      refine ⟨?_, ?_, fun fits => ?_, ?_⟩
      · rintro t (_ | ⟨_, mem⟩) isWord
        · exact absurd isWord other
        · exact h.strings t mem isWord
      · exact List.pairwise_cons.mpr ⟨nofun, h.disjoint⟩
      · have first : readToken (layOut a rest).1.bytes ⟨type, none⟩ = some (.operator type) := if_neg other
        rw [layOut, List.map_cons, List.map_cons, first]
        exact congrArg _ (h.full fits)
      · rintro t (_ | ⟨_, mem⟩) o here
        · nomatch here
        · exact h.above t mem o here
    | word text =>
      obtain ⟨room, starts⟩ := starts
      have clean : 0#8 ∉ text := plain _ List.mem_cons_self
      obtain ⟨pos, -, stored⟩ := store_bytes clean room
      rw [← pos] at starts
      have h := ih plainRest starts
      have size : tokenArenaSize = 512 := rfl
      have kept : (text.take (tokenArenaSize - 1 - a.pos)).length = min (tokenArenaSize - 1 - a.pos) text.length :=
        List.length_take
      have last : TextAt (layOut (a.store text) rest).1.bytes a.pos (text.take (tokenArenaSize - 1 - a.pos)) :=
        stored.congr fun i low => layOut_below plainRest (by omega)
      refine ⟨?_, ?_, fun fits => ?_, ?_⟩
      · rintro t (_ | ⟨_, mem⟩) isWord
        · exact ⟨a.pos, _, rfl, last.read⟩
        · exact h.strings t mem isWord
      · refine List.pairwise_cons.mpr ⟨fun u mem o s o' s' here string there _ => .inl ?_, h.disjoint⟩
        cases here
        have same := string.symm.trans last.read
        cases same
        have behind := h.above u mem o' there
        omega
      · have sum : (wordSizes (.word text :: rest)).sum = text.length + 1 + (wordSizes rest).sum := List.sum_cons
        rw [sum] at fits
        have whole : text.take (tokenArenaSize - 1 - a.pos) = text := List.take_of_length_le (by omega)
        rw [whole] at last
        have first : readToken (layOut (a.store text) rest).1.bytes ⟨.word, some a.pos⟩ = some (.word text) := by
          unfold readToken
          rw [if_pos rfl]
          exact congrArg (Option.map Lexeme.word) last.read
        rw [layOut, List.map_cons, List.map_cons, first]
        exact congrArg _ (h.full (by omega))
      · rintro t (_ | ⟨_, mem⟩) o here
        · cases here
          exact le_rfl
        · have behind := h.above t mem o here
          omega

theorem layOut_outside (plain : ∀ l ∈ lexemes, l.Plain) (bound : a.pos ≤ tokenArenaSize)
    (late : ¬ StartInside a.pos lexemes) :
    ∃ t ∈ (layOut a lexemes).2, t.type = .word ∧ ∃ o, t.text = some o ∧ tokenArenaSize ≤ o := by
  induction lexemes generalizing a with
  | nil => exact absurd trivial late
  | cons lexeme rest ih =>
    have plainRest := fun l mem => plain l (List.mem_cons_of_mem _ mem)
    cases lexeme with
    | operator type =>
      obtain ⟨t, mem, outside⟩ := ih plainRest bound late
      exact ⟨t, List.mem_cons_of_mem _ mem, outside⟩
    | word text =>
      by_cases room : a.pos < tokenArenaSize
      · obtain ⟨pos, -, -⟩ := store_bytes (plain _ List.mem_cons_self : 0#8 ∉ text) room
        have late' : ¬ StartInside (a.store text).pos rest := fun starts => late ⟨room, pos ▸ starts⟩
        obtain ⟨t, mem, outside⟩ := ih plainRest (by omega) late'
        exact ⟨t, List.mem_cons_of_mem _ mem, outside⟩
      · exact ⟨_, List.mem_cons_self, rfl, a.pos, rfl, Nat.le_of_not_lt room⟩

theorem layOut_valid_iff (bytes : Nat → BitVec 8) (plain : ∀ l ∈ lexemes, l.Plain) :
    ValidTokens lexemes (layOut ⟨bytes, 0⟩ lexemes).1.bytes (layOut ⟨bytes, 0⟩ lexemes).2 ↔
      (wordSizes lexemes).dropLast.sum < tokenArenaSize := by
  have starts : StartInside 0 lexemes ↔ (wordSizes lexemes).dropLast.sum < tokenArenaSize := by
    rw [startInside_iff, Nat.zero_add]
    refine ⟨fun either => either.elim (fun none => ?_) id, .inr⟩
    rw [none]
    decide
  rw [← starts]
  constructor
  · intro h
    by_contra late
    obtain ⟨t, mem, isWord, o, here, outside⟩ := @layOut_outside ⟨bytes, 0⟩ lexemes plain (Nat.zero_le _) late
    obtain ⟨o', s, there, string⟩ := h.strings t mem isWord
    cases here.symm.trans there
    rw [arenaString_outside outside] at string
    nomatch string
  · intro starts
    have h := @layOut_laid ⟨bytes, 0⟩ lexemes plain starts
    exact ⟨h.strings, h.disjoint, fun fits => h.full (by rw [Nat.zero_add]; exact fits)⟩

end LayOut

/-! Lines and tables without NUL -/

section Plain

variable {env : List EnvVar}

def CStrings (name value : List (BitVec 8)) : Prop := 0#8 ∉ name ∧ 0#8 ∉ value

theorem EnvReachable.plain (h : EnvReachable CStrings env) : ∀ v ∈ env, 0#8 ∉ v.value := by
  induction h with
  | initial => decide +kernel
  | set before may ih => exact envSet_values (P := fun value => 0#8 ∉ value) ih fun mem => may.2 (List.mem_of_mem_take mem)

theorem envGet_plain (plain : ∀ v ∈ env, 0#8 ∉ v.value) (name : List (BitVec 8)) : 0#8 ∉ (envGet env name).getD [] := by
  unfold envGet
  cases found : env.find? fun v => v.used && v.name == name with
  | none => exact List.not_mem_nil
  | some v => exact plain v (List.mem_of_find?_eq_some found)

theorem readWord_plain (plain : ∀ v ∈ env, 0#8 ∉ v.value) (q : Quoting) {line : List (BitVec 8)} (clean : 0#8 ∉ line) :
    0#8 ∉ (readWord env q line).1 ∧ 0#8 ∉ (readWord env q line).2 := by
  induction q, line using readWord.induct env with
  | case1 q =>
    rw [readWord]
    exact ⟨List.not_mem_nil, List.not_mem_nil⟩
  | case2 q c rest ends =>
    rw [readWord, ends]
    exact ⟨List.not_mem_nil, clean⟩
  | case3 q c rest next turns ih =>
    rw [readWord, turns]
    exact ih fun mem => clean (List.mem_cons_of_mem c mem)
  | case4 q c rest expands ih =>
    obtain ⟨text, behind⟩ := ih fun mem => clean (List.mem_cons_of_mem c (List.mem_of_mem_drop mem))
    rw [readWord, expands]
    exact ⟨fun mem => (List.mem_append.mp mem).elim (envGet_plain plain _) text, behind⟩
  | case5 q c rest stands ih =>
    obtain ⟨text, behind⟩ := ih fun mem => clean (List.mem_cons_of_mem c mem)
    rw [readWord, stands]
    exact ⟨fun mem => (List.mem_cons.mp mem).elim (fun same => clean (same ▸ List.mem_cons_self)) text, behind⟩

theorem operatorOf_ne_word {c : BitVec 8} {type : TokType} (found : operatorOf c = some type) : type ≠ .word := by
  unfold operatorOf at found
  rintro rfl
  repeat' split at found
  all_goals cases found

theorem lexLine_plain (plain : ∀ v ∈ env, 0#8 ∉ v.value) (left : Nat) {line : List (BitVec 8)} (clean : 0#8 ∉ line) :
    ∀ l ∈ lexLine env left line, l.Plain := by
  induction left generalizing line with
  | zero =>
    unfold lexLine
    cases line.dropWhile isSpace with
    | nil => exact nofun
    | cons c rest => exact nofun
  | succ left ih =>
    have cleanRest : 0#8 ∉ line.dropWhile isSpace := fun mem => clean ((List.dropWhile_suffix _).subset mem)
    unfold lexLine
    cases behind : line.dropWhile isSpace with
    | nil => exact nofun
    | cons c rest =>
      rw [behind] at cleanRest
      dsimp only
      cases operator : operatorOf c with
      | some type =>
        rintro l (_ | ⟨_, mem⟩)
        · exact operatorOf_ne_word operator
        · exact ih (fun mem => cleanRest (List.mem_cons_of_mem c mem)) l mem
      | none =>
        obtain ⟨text, after⟩ := readWord_plain plain .bare cleanRest
        rintro l (_ | ⟨_, mem⟩)
        · exact text
        · exact ih after l mem

end Plain

/-- The tokens of a line are strings in the arena of their own, unless the words before the last
one, with their terminators, take all of it. -/
theorem valid_tokens_iff (env : List EnvVar) (reachable : EnvReachable CStrings env) (line : List (BitVec 8))
    (clean : 0#8 ∉ line) (arena : Nat → BitVec 8) :
    ValidTokens (lexLine env maxTokens line) (tokenize env line arena maxTokens).1.bytes
        (tokenize env line arena maxTokens).2 ↔
      (wordSizes (lexLine env maxTokens line)).dropLast.sum < tokenArenaSize := by
  unfold tokenize
  rw [tokenizeLoop_lays]
  exact layOut_valid_iff arena (lexLine_plain reachable.plain maxTokens clean)

/-- `A` set to 127 times `x`. -/
def wideEnv : List EnvVar := envSet initialEnv [0x41#8] (List.replicate 127 0x78#8)

theorem wideEnv_reachable : EnvReachable CStrings wideEnv :=
  .set .initial ⟨by decide, by decide +kernel⟩

/-- After `$A` four times, the fifth word starts behind the arena. -/
theorem fifth_word_outside :
    EnvReachable CStrings wideEnv ∧ 0#8 ∉ asciiBytes "$A $A $A $A $A" ∧
      ¬ ValidTokens (lexLine wideEnv maxTokens (asciiBytes "$A $A $A $A $A"))
        (tokenize wideEnv (asciiBytes "$A $A $A $A $A") (fun _ => 0#8) maxTokens).1.bytes
        (tokenize wideEnv (asciiBytes "$A $A $A $A $A") (fun _ => 0#8) maxTokens).2 := by
  have clean : 0#8 ∉ asciiBytes "$A $A $A $A $A" := by decide +kernel
  have plain := lexLine_plain wideEnv_reachable.plain maxTokens clean
  refine ⟨wideEnv_reachable, clean, fun valid => ?_⟩
  unfold tokenize at valid
  rw [tokenizeLoop_lays, layOut_valid_iff _ plain] at valid
  exact absurd valid (by decide +kernel)

/-- A line with a variable, an operator and quotes. -/
theorem quoted_line_valid :
    ValidTokens (lexLine wideEnv maxTokens (asciiBytes "$A|'a b'"))
      (tokenize wideEnv (asciiBytes "$A|'a b'") (fun _ => 0#8) maxTokens).1.bytes
      (tokenize wideEnv (asciiBytes "$A|'a b'") (fun _ => 0#8) maxTokens).2 :=
  (valid_tokens_iff wideEnv wideEnv_reachable (asciiBytes "$A|'a b'") (by decide +kernel) fun _ => 0#8).mpr
    (by decide +kernel)

end Isunux
