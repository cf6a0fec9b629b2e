import Isunux.Tokens
import Mathlib.Data.List.TakeWhile

/-! A line of quoted words is read back as these words. -/
namespace Isunux

def spaceByte : BitVec 8 := 0x20#8

/-- The words, each between two quotes, with one space between them. -/
def quoteLine (quote : BitVec 8) : List (List (BitVec 8)) → List (BitVec 8)
  | [] => []
  | [word] => quote :: (word ++ [quote])
  | word :: rest => quote :: (word ++ quote :: spaceByte :: quoteLine quote rest)

structure QuotedBy (quote : BitVec 8) (q : Quoting) (word : List (BitVec 8)) : Prop where
  opens : Quoting.bare.reads quote = .turns q
  closes : q.reads quote = .turns .bare
  operator : operatorOf quote = none
  space : isSpace quote = false
  stands : ∀ c ∈ word, q.reads c = .stands

section Quoted

variable (env : List EnvVar) {quote : BitVec 8} {q : Quoting} {word : List (BitVec 8)}

theorem readWord_stands (stands : ∀ c ∈ word, q.reads c = .stands) (rest : List (BitVec 8)) :
    readWord env q (word ++ rest) = (word ++ (readWord env q rest).1, (readWord env q rest).2) := by
  induction word with
  | nil => rfl
  | cons c word ih =>
    rw [List.cons_append, readWord, stands c List.mem_cons_self, ih fun d mem => stands d (List.mem_cons_of_mem c mem)]
    rfl

theorem readWord_quoted (h : QuotedBy quote q word) {rest : List (BitVec 8)} (ends : rest = [] ∨ rest.head? = some spaceByte) :
    readWord env .bare (quote :: (word ++ quote :: rest)) = (word, rest) := by
  have past : readWord env .bare rest = ([], rest) := by
    cases rest with
    | nil => rw [readWord]
    | cons c rest =>
      rcases ends with none | space
      · cases none
      · cases space
        rw [readWord]
        rfl
  rw [readWord, h.opens]
  dsimp only
  rw [readWord_stands env h.stands, readWord, h.closes]
  dsimp only
  rw [past, List.append_nil]

theorem lexLine_quoted {words : List (List (BitVec 8))} (quoted : ∀ word ∈ words, QuotedBy quote q word) {left : Nat}
    (few : words.length ≤ left) {lead : List (BitVec 8)} (blank : ∀ c ∈ lead, isSpace c = true) :
    lexLine env left (lead ++ quoteLine quote words) = words.map .word := by
  induction words generalizing left lead with
  | nil =>
    have gone : (lead ++ quoteLine quote []).dropWhile isSpace = [] := by
      rw [quoteLine, List.append_nil]
      exact List.dropWhile_eq_nil_iff.mpr blank
    unfold lexLine
    rw [gone]
    rfl
  | cons word rest ih =>
    obtain ⟨left, rfl⟩ : ∃ k, left = k + 1 := ⟨left - 1, by rw [List.length_cons] at few; omega⟩
    have h := quoted word List.mem_cons_self
    have ih := @ih (fun w mem => quoted w (List.mem_cons_of_mem word mem)) left (Nat.le_of_succ_le_succ few)
    have first : ∀ tail, (lead ++ quote :: tail).dropWhile isSpace = quote :: tail := by
      intro tail
      rw [List.dropWhile_append_of_pos blank, List.dropWhile_cons_of_neg (by rw [h.space]; decide)]
    unfold lexLine
    cases rest with
    | nil =>
      have last := @ih [] fun c mem => absurd mem List.not_mem_nil
      rw [quoteLine, first]
      dsimp only
      rw [h.operator, readWord_quoted env h (.inl rfl)]
      exact congrArg _ last
    | cons next rest =>
      have more := @ih [spaceByte] (by decide)
      rw [quoteLine, first]
      · dsimp only
        rw [h.operator, readWord_quoted env h (.inr rfl)]
        exact congrArg _ more
      · exact List.cons_ne_nil next rest

theorem tokenize_quoted {words : List (List (BitVec 8))} (quoted : ∀ word ∈ words, QuotedBy quote q word)
    (clean : ∀ word ∈ words, 0#8 ∉ word) (few : words.length ≤ maxTokens)
    (room : (words.map fun word => word.length + 1).sum < tokenArenaSize) (arena : Nat → BitVec 8) :
    (tokenize env (quoteLine quote words) arena maxTokens).2.map
        (readToken (tokenize env (quoteLine quote words) arena maxTokens).1.bytes) =
      words.map fun word => some (.word word) := by
  have sizes : wordSizes (words.map Lexeme.word) = words.map fun word => word.length + 1 := by
    unfold wordSizes
    rw [List.filterMap_map]
    change (words.filterMap fun word => some (word.length + 1)) = _
    exact congrFun (@List.filterMap_eq_map' _ _ fun word => word.length + 1) words
  have plain : ∀ l ∈ words.map Lexeme.word, l.Plain := by
    intro l mem
    obtain ⟨word, here, rfl⟩ := List.mem_map.mp mem
    exact clean word here
  have lexed : lexLine env maxTokens ([] ++ quoteLine quote words) = _ := lexLine_quoted env quoted few nofun
  have starts : StartInside 0 (words.map Lexeme.word) := by
    rw [startInside_iff, sizes]
    refine .inr (lt_of_le_of_lt ?_ room)
    rw [Nat.zero_add]
    exact (List.dropLast_sublist _).sum_le_sum fun _ _ => Nat.zero_le _
  unfold tokenize
  rw [tokenizeLoop_lays, show lexLine env maxTokens (quoteLine quote words) = _ from lexed]
  have laid := @layOut_laid ⟨arena, 0⟩ _ plain starts
  rw [laid.full (by rw [sizes, Nat.zero_add]; exact room.le), List.map_map]
  rfl

theorem quotedBy_single (word : List (BitVec 8)) (plain : singleQuote ∉ word) : QuotedBy singleQuote .single word := by
  refine ⟨by decide, by decide, by decide, by decide, fun c mem => ?_⟩
  have other : c ≠ singleQuote := fun same => plain (same ▸ mem)
  exact if_neg other

theorem quotedBy_double (word : List (BitVec 8)) (plain : doubleQuote ∉ word) (still : dollarByte ∉ word) :
    QuotedBy doubleQuote .double word := by
  refine ⟨by decide, by decide, by decide, by decide, fun c mem => ?_⟩
  have other : c ≠ doubleQuote := fun same => plain (same ▸ mem)
  have fixed : c ≠ dollarByte := fun same => still (same ▸ mem)
  rw [Quoting.reads, if_neg other, if_neg fixed]

end Quoted

/-- Words that fit in the arena come back out of single quotes, whatever else they hold, and out
of double quotes when they hold no dollar sign either. -/
theorem quoted_words_round_trip (env : List EnvVar) (words : List (List (BitVec 8))) (few : words.length ≤ maxTokens)
    (clean : ∀ word ∈ words, 0#8 ∉ word) (room : (words.map fun word => word.length + 1).sum < tokenArenaSize)
    (arena : Nat → BitVec 8) :
    ((∀ word ∈ words, singleQuote ∉ word) →
      (tokenize env (quoteLine singleQuote words) arena maxTokens).2.map
          (readToken (tokenize env (quoteLine singleQuote words) arena maxTokens).1.bytes) =
        words.map fun word => some (.word word)) ∧
    ((∀ word ∈ words, doubleQuote ∉ word ∧ dollarByte ∉ word) →
      (tokenize env (quoteLine doubleQuote words) arena maxTokens).2.map
          (readToken (tokenize env (quoteLine doubleQuote words) arena maxTokens).1.bytes) =
        words.map fun word => some (.word word)) := by
  constructor
  · intro plain
    exact tokenize_quoted env (fun word mem => quotedBy_single word (plain word mem)) clean few room arena
  · intro plain
    exact tokenize_quoted env (fun word mem => quotedBy_double word (plain word mem).1 (plain word mem).2) clean few room
      arena

/-- `'a|' ''` and `"a|" ""`. -/
theorem quoted_words_round_trip_example :
    (tokenize initialEnv (quoteLine singleQuote [[0x61#8, 0x7C#8], []]) (fun _ => 0#8) maxTokens).2.map (readToken
        (tokenize initialEnv (quoteLine singleQuote [[0x61#8, 0x7C#8], []]) (fun _ => 0#8) maxTokens).1.bytes) =
      [some (.word [0x61#8, 0x7C#8]), some (.word [])] ∧
    (tokenize initialEnv (quoteLine doubleQuote [[0x61#8, 0x7C#8], []]) (fun _ => 0#8) maxTokens).2.map (readToken
        (tokenize initialEnv (quoteLine doubleQuote [[0x61#8, 0x7C#8], []]) (fun _ => 0#8) maxTokens).1.bytes) =
      [some (.word [0x61#8, 0x7C#8]), some (.word [])] := by
  have trips := quoted_words_round_trip initialEnv [[0x61#8, 0x7C#8], []] (by decide) (by decide) (by decide) fun _ => 0#8
  exact ⟨trips.1 (by decide), trips.2 (by decide)⟩

end Isunux
