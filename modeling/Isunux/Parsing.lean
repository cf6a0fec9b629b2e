import Isunux.Tokens
import Mathlib.Data.List.TakeWhile

/-! `parse_pipeline` against the stages of a line: the tokens between two pipes, of which a word
right behind a redirect is its target and every other word is an argument. -/
namespace Isunux

/-! The stages of a line -/

def Token.redirects (t : Token) : Bool := t.type = .redirOut ∨ t.type = .redirIn

def stagesOf (toks : List Token) : List (List Token) := toks.splitOnP fun t => t.type = .pipe

/-- The words that do not stand behind a redirect; the flag is whether the first token does. -/
def argTexts : Bool → List Token → List Nat
  | _, [] => []
  | behind, t :: rest => (if t.type = .word ∧ behind = false then t.text.toList else []) ++ argTexts t.redirects rest

/-- The words that stand behind a redirect of this kind. -/
def targets (op : TokType) : Bool → List Token → List Nat
  | _, [] => []
  | behind, t :: rest => (if t.type = .word ∧ behind = true then t.text.toList else []) ++ targets op (t.type = op) rest

/-- Some redirect has no word behind it. -/
def dangling : List Token → Bool
  | [] => false
  | t :: rest => (t.redirects && rest.head?.map Token.type != some .word) || dangling rest

def trailingPipe (toks : List Token) : Bool := toks.getLast?.map Token.type = some .pipe

/-- An operator out of place, when an `&` at the end has been taken off. -/
def Misplaced (toks : List Token) : Prop :=
  (∃ t ∈ toks, t.type = .amp) ∨ dangling toks = true ∨ trailingPipe toks = true

structure StageHolds (seg : List Token) (s : Stage) : Prop where
  nonnull : ∀ i < s.argc, s.argv i ≠ none
  ends : s.argv s.argc = none
  words : (List.range s.argc).map s.argv = (argTexts false seg).map some
  redirectOut : s.redirectOut = (targets .redirOut false seg).getLast?
  redirectIn : s.redirectIn = (targets .redirIn false seg).getLast?

/-- What `parse_pipeline` returns is refused, or as the tokens ask for it with none out of place. -/
def WellParsed (toks : List Token) : Except ParseError (List Stage) → Prop
  | .error _ => True
  | .ok stages => ¬ Misplaced toks ∧ (stages ≠ [] → List.Forall₂ StageHolds (stagesOf toks) stages)

def Token.Lexed (t : Token) : Prop := t.type = .word ↔ t.text.isSome = true

/-! One stage -/

section OneStage

variable {seg rest : List Token}

/-- The tokens of a stage that the parser appends to `argv`. -/
def argEntries : Bool → List Token → List (Option Nat)
  | _, [] => []
  | behind, t :: rest => (if t.redirects = true ∨ behind = true then [] else [t.text]) ++ argEntries t.redirects rest

/-- What the inner loop does with the tokens up to the next pipe. -/
structure StageRead (seg : List Token) (s r : Stage) : Prop where
  count : r.argc = min (s.argc + (argEntries false seg).length) (maxArgs - 1)
  kept : ∀ i < s.argc, r.argv i = s.argv i
  added : ∀ i text, (argEntries false seg)[i]? = some text → s.argc + i < maxArgs - 1 → r.argv (s.argc + i) = text
  redirectOut : r.redirectOut = (targets .redirOut false seg).getLast?.or s.redirectOut
  redirectIn : r.redirectIn = (targets .redirIn false seg).getLast?.or s.redirectIn

theorem getLast?_cons_or (n : Nat) (ns : List Nat) (old : Option Nat) :
    (n :: ns).getLast?.or old = ns.getLast?.or (some n) := by
  rw [List.getLast?_cons]
  cases ns.getLast? <;> rfl

theorem StageRead.argument {t : Token} {s r : Stage} (room : s.argc ≤ maxArgs - 1) (plain : t.redirects = false)
    (h : StageRead rest (s.pushArg t.text) r) : StageRead (t :: rest) s r := by
  have entries : argEntries false (t :: rest) = t.text :: argEntries false rest := by
    rw [argEntries, plain]
    rfl
  have other : ∀ op, op = .redirOut ∨ op = .redirIn → targets op false (t :: rest) = targets op false rest := by
    intro op redirect
    have differs : decide (t.type = op) = false := by
      refine decide_eq_false fun same => ?_
      have yes : t.redirects = true := decide_eq_true (same ▸ redirect)
      rw [plain] at yes
      nomatch yes
    rw [targets, differs, if_neg fun both => nomatch both.2]
    rfl
  obtain ⟨count, kept, added, redirectOut, redirectIn⟩ := h
  unfold Stage.pushArg at count kept added redirectOut redirectIn
  by_cases more : s.argc < maxArgs - 1
  · rw [if_pos more] at count kept added redirectOut redirectIn
    dsimp only at count kept added redirectOut redirectIn
    refine ⟨?_, fun i low => ?_, fun i text here inside => ?_, ?_, ?_⟩
    · rw [entries, List.length_cons, count]
      omega
    · rw [kept i (by omega)]
      exact Function.update_of_ne (Nat.ne_of_lt low) _ _
    · rw [entries] at here
      cases i with
      | zero =>
        rw [List.getElem?_cons_zero] at here
        exact (kept s.argc (Nat.lt_succ_self _)).trans ((Function.update_self _ _ _).trans (Option.some.inj here))
      | succ i =>
        rw [List.getElem?_cons_succ] at here
        rw [show s.argc + (i + 1) = s.argc + 1 + i by omega]
        exact added i text here (by omega)
    · rw [other _ (.inl rfl), redirectOut]
    · rw [other _ (.inr rfl), redirectIn]
  · rw [if_neg more] at count kept added redirectOut redirectIn
    refine ⟨?_, kept, fun i text here inside => by omega, ?_, ?_⟩
    · rw [entries, List.length_cons, count]
      omega
    · rw [other _ (.inl rfl), redirectOut]
    · rw [other _ (.inr rfl), redirectIn]

theorem parseStage_cons (t : Token) (rest : List Token) (s : Stage) :
    parseStage (t :: rest) s =
      if t.type = .pipe then .ok (s, t :: rest)
      else if t.type = .redirOut ∨ t.type = .redirIn then
        match rest with
        | [] => .error (.nearRedirect t.type)
        | u :: rest =>
          if u.type ≠ .word then .error (.nearRedirect t.type)
          else parseStage rest (if t.type = .redirOut then { s with redirectOut := u.text } else { s with redirectIn := u.text })
      else parseStage rest (s.pushArg t.text) := by
  rw [parseStage.eq_def]
  by_cases isOut : t.type = .redirOut
  · cases rest <;> simp only [isOut, if_true]
  · cases rest <;> simp only [isOut, if_false]

theorem targets_target {op : TokType} {t u : Token} {n : Nat} (word : u.type = .word) (text : u.text = some n)
    (redirect : op ≠ .word) :
    targets op false (t :: u :: rest) = if t.type = op then n :: targets op false rest else targets op false rest := by
  have next : decide (u.type = op) = false := by
    rw [word]
    exact decide_eq_false (Ne.symm redirect)
  rw [targets, targets, next, if_neg (fun both => nomatch both.2), List.nil_append]
  by_cases same : t.type = op
  · rw [if_pos ⟨word, decide_eq_true same⟩, if_pos same, text]
    rfl
  · rw [if_neg fun both => same (of_decide_eq_true both.2), if_neg same]
    rfl

theorem argEntries_target {t u : Token} (redirect : t.redirects = true) (word : u.type = .word) :
    argEntries false (t :: u :: rest) = argEntries false rest := by
  have plain : u.redirects = false := by
    unfold Token.redirects
    rw [word]
    decide
  rw [argEntries, if_pos (.inl redirect), argEntries, if_pos (.inr redirect), plain]
  rfl

theorem StageRead.target {t u : Token} {s r : Stage} {n : Nat} (word : u.type = .word) (text : u.text = some n)
    (redirect : t.redirects = true)
    (h : StageRead rest
      (if t.type = .redirOut then { s with redirectOut := u.text } else { s with redirectIn := u.text }) r) :
    StageRead (t :: u :: rest) s r := by
  have entries := @argEntries_target rest t u redirect word
  have out := @targets_target rest .redirOut t u n word text (by decide)
  have inn := @targets_target rest .redirIn t u n word text (by decide)
  obtain ⟨count, kept, added, redirectOut, redirectIn⟩ := h
  by_cases isOut : t.type = .redirOut
  · have notIn : t.type ≠ .redirIn := by rw [isOut]; decide
    rw [if_pos isOut] at count kept added redirectOut redirectIn out
    rw [if_neg notIn] at inn
    refine ⟨by rw [entries]; exact count, kept, by rw [entries]; exact added, ?_, by rw [inn]; exact redirectIn⟩
    rw [out, getLast?_cons_or, ← text]
    exact redirectOut
  · have isIn : t.type = .redirIn := (of_decide_eq_true redirect).resolve_left isOut
    rw [if_neg isOut] at count kept added redirectOut redirectIn out
    rw [if_pos isIn] at inn
    refine ⟨by rw [entries]; exact count, kept, by rw [entries]; exact added, by rw [out]; exact redirectOut, ?_⟩
    rw [inn, getLast?_cons_or, ← text]
    exact redirectIn

theorem pushArg_room {s : Stage} (room : s.argc ≤ maxArgs - 1) (text : Option Nat) :
    (s.pushArg text).argc ≤ maxArgs - 1 := by
  unfold Stage.pushArg
  by_cases more : s.argc < maxArgs - 1
  · rw [if_pos more]
    exact more
  · rw [if_neg more]
    exact room

theorem parseStage_reads {behind : List Token} (ends : ∀ t, behind.head? = some t → t.type = .pipe) (n : Nat) :
    ∀ {seg : List Token} {s : Stage}, seg.length ≤ n → (∀ t ∈ seg, t.type ≠ .pipe) → (∀ t ∈ seg, t.Lexed) →
      s.argc ≤ maxArgs - 1 →
      (dangling seg = true ∧ ∃ e, parseStage (seg ++ behind) s = .error e) ∨
        dangling seg = false ∧ ∃ r, parseStage (seg ++ behind) s = .ok (r, behind) ∧ StageRead seg s r := by
  induction n with
  | zero =>
    intro seg s short
    obtain rfl := List.eq_nil_of_length_eq_zero (Nat.le_zero.mp short)
    intro _ _ room
    refine .inr ⟨rfl, s, ?_, ⟨(Nat.min_eq_left room).symm, fun _ _ => rfl, nofun, rfl, rfl⟩⟩
    cases behind with
    | nil => rfl
    | cons t rest =>
      rw [List.nil_append, parseStage_cons, if_pos (ends t rfl)]
  | succ n ih =>
    intro seg s short inner lexed room
    cases seg with
    | nil => exact ih (Nat.zero_le n) inner lexed room
    | cons t rest =>
      have notPipe : t.type ≠ .pipe := inner t List.mem_cons_self
      rw [List.cons_append, parseStage_cons, if_neg notPipe, dangling]
      by_cases redirect : t.type = .redirOut ∨ t.type = .redirIn
      · have redirects : t.redirects = true := decide_eq_true redirect
        rw [if_pos redirect, redirects, Bool.true_and]
        cases rest with
        | nil =>
          refine .inl ⟨rfl, .nearRedirect t.type, ?_⟩
          cases behind with
          | nil => rfl
          | cons u more =>
            have other : u.type ≠ .word := by rw [ends u rfl]; decide
            rw [List.nil_append]
            exact if_pos other
        | cons u rest =>
          rw [List.cons_append]
          by_cases word : u.type = .word
          · obtain ⟨text, here⟩ := Option.isSome_iff_exists.mp ((lexed u (by simp)).mp word)
            have plain : u.redirects = false := by
              unfold Token.redirects
              rw [word]
              decide
            have same : dangling (u :: rest) = dangling rest := by rw [dangling, plain]; rfl
            have first : ((u :: rest).head?.map Token.type != some .word) = false := by simp [word]
            rw [first, Bool.false_or, same]
            have inner' : ∀ t ∈ rest, t.type ≠ .pipe := fun v mem => inner v (by simp [mem])
            have lexed' : ∀ t ∈ rest, t.Lexed := fun v mem => lexed v (by simp [mem])
            have short' : rest.length ≤ n := by simp at short; omega
            have next := @ih rest (if t.type = .redirOut then { s with redirectOut := u.text }
              else { s with redirectIn := u.text }) short' inner' lexed' (by split <;> exact room)
            dsimp only
            rw [if_neg (not_not.mpr word)]
            exact next.imp_right fun ⟨closed, r, ok, read⟩ => ⟨closed, r, ok, read.target word here redirects⟩
          · have first : ((u :: rest).head?.map Token.type != some .word) = true := by simp [word]
            rw [first]
            exact .inl ⟨rfl, _, if_pos word⟩
      · have plain : t.redirects = false := decide_eq_false redirect
        rw [if_neg redirect, plain, Bool.false_and, Bool.false_or]
        have inner' : ∀ t ∈ rest, t.type ≠ .pipe := fun v mem => inner v (List.mem_cons_of_mem t mem)
        have lexed' : ∀ t ∈ rest, t.Lexed := fun v mem => lexed v (List.mem_cons_of_mem t mem)
        have next := @ih rest (s.pushArg t.text) (Nat.le_of_succ_le_succ short) inner' lexed' (pushArg_room room _)
        exact next.imp_right fun ⟨closed, r, ok, read⟩ => ⟨closed, r, ok, read.argument room plain⟩

end OneStage

/-! All stages -/

/-- `parse_pipeline` refuses the tokens. -/
def Refused (left : Nat) (toks : List Token) : Prop :=
  dangling toks = true ∨ trailingPipe toks = true ∨ left < (stagesOf toks).length

/-- A stage that was read, with the NULL behind its arguments. -/
def StageParsed (seg : List Token) (s : Stage) : Prop :=
  ∃ argv r, StageRead seg ⟨argv, 0, none, none⟩ r ∧ s = { r with argv := Function.update r.argv r.argc none }

section Stages

variable {toks seg rest : List Token}

theorem stagesOf_last (inner : ∀ t ∈ seg, t.type ≠ .pipe) : stagesOf seg = [seg] :=
  List.splitOnP_eq_singleton fun t mem => decide_eq_false (inner t mem)

theorem stagesOf_cons (inner : ∀ t ∈ seg, t.type ≠ .pipe) {p : Token} (pipe : p.type = .pipe) :
    stagesOf (seg ++ p :: rest) = seg :: stagesOf rest :=
  List.splitOnP_append_cons_of_forall_mem (fun t mem => decide_eq_false (inner t mem)) p (decide_eq_true pipe) rest

theorem dangling_append (inner : ∀ t ∈ seg, t.type ≠ .pipe) {p : Token} (pipe : p.type = .pipe) :
    dangling (seg ++ p :: rest) = (dangling seg || dangling rest) := by
  induction seg with
  | nil =>
    have plain : p.redirects = false := by
      unfold Token.redirects
      rw [pipe]
      decide
    have stays : dangling (p :: rest) = dangling rest := by rw [dangling, plain]; rfl
    exact stays
  | cons t seg ih =>
    have head : ((seg ++ p :: rest).head?.map Token.type != some .word) = (seg.head?.map Token.type != some .word) := by
      cases seg with
      | nil =>
        rw [List.nil_append, List.head?_cons, Option.map_some, pipe]
        rfl
      | cons u seg => rfl
    rw [List.cons_append, dangling, dangling, ih fun u mem => inner u (List.mem_cons_of_mem t mem), head, Bool.or_assoc]

theorem trailingPipe_append {p : Token} (more : rest ≠ []) : trailingPipe (seg ++ p :: rest) = trailingPipe rest := by
  unfold trailingPipe
  rw [List.getLast?_append_of_ne_nil _ (List.cons_ne_nil p rest), List.getLast?_cons_of_ne_nil more]

theorem firstStage (toks : List Token) :
    ∃ seg behind, toks = seg ++ behind ∧ (∀ t ∈ seg, t.type ≠ .pipe) ∧ ∀ t, behind.head? = some t → t.type = .pipe := by
  refine ⟨toks.takeWhile fun t => t.type ≠ .pipe, toks.dropWhile fun t => t.type ≠ .pipe,
    List.takeWhile_append_dropWhile.symm, fun t mem => ?_, fun t head => ?_⟩
  · simpa using List.mem_takeWhile_imp mem
  have stops := List.head?_dropWhile_not (fun t : Token => decide (t.type ≠ .pipe)) toks
  rw [head] at stops
  simpa using stops

theorem parseStages_parsed (left : Nat) :
    ∀ {toks : List Token} (argvs : Nat → Nat → Option Nat), toks ≠ [] → (∀ t ∈ toks, t.Lexed) →
      (Refused left toks ∧ ∃ e, parseStages left argvs toks = .error e) ∨
        ¬ Refused left toks ∧ ∃ stages, parseStages left argvs toks = .ok stages ∧
          List.Forall₂ StageParsed (stagesOf toks) stages := by
  induction left with
  | zero =>
    intro toks argvs some lexed
    cases toks with
    | nil => exact absurd rfl some
    | cons t rest =>
      exact .inl ⟨.inr (.inr (List.length_pos_of_ne_nil (List.splitOnP_ne_nil _ _))), _, rfl⟩
  | succ left ih =>
    intro toks argvs nonempty lexed
    obtain ⟨seg, behind, rfl, inner, ends⟩ := firstStage toks
    have lexedSeg : ∀ t ∈ seg, t.Lexed := fun t mem => lexed t (List.mem_append_left _ mem)
    have read := @parseStage_reads behind ends seg.length seg ⟨argvs 0, 0, none, none⟩ le_rfl inner lexedSeg (Nat.zero_le _)
    obtain ⟨t, rest, whole⟩ := List.exists_cons_of_ne_nil nonempty
    rw [whole, parseStages, ← whole]
    rcases read with ⟨loose, e, refused⟩ | ⟨closed, r, ok, read⟩
    · refine .inl ⟨.inl ?_, e, by rw [refused]⟩
      cases behind with
      | nil => rw [List.append_nil, loose]
      | cons p rest => rw [dangling_append inner (ends p rfl), loose, Bool.true_or]
    rw [ok]
    have parsed : StageParsed seg { r with argv := Function.update r.argv r.argc none } := ⟨_, r, read, rfl⟩
    cases behind with
    | nil =>
      have noPipe : trailingPipe seg = false := by
        unfold trailingPipe
        refine decide_eq_false fun last => ?_
        obtain ⟨t, here, pipe⟩ := Option.map_eq_some_iff.mp last
        exact inner t (List.mem_of_getLast? here) pipe
      rw [List.append_nil]
      refine .inr ⟨?_, _, rfl, by rw [stagesOf_last inner]; exact .cons parsed .nil⟩
      unfold Refused
      rw [closed, noPipe, stagesOf_last inner]
      simp
    | cons p rest =>
      have pipe := ends p rfl
      cases rest with
      | nil =>
        refine .inl ⟨.inr (.inl ?_), _, rfl⟩
        unfold trailingPipe
        rw [List.getLast?_append_of_ne_nil _ (List.cons_ne_nil p [])]
        simpa using pipe
      | cons u more =>
        have lexedRest : ∀ t ∈ u :: more, t.Lexed := fun t mem => lexed t (by simp at mem ⊢; tauto)
        have same : Refused (left + 1) (seg ++ p :: u :: more) ↔ Refused left (u :: more) := by
          unfold Refused
          rw [dangling_append inner pipe, closed, Bool.false_or, trailingPipe_append (List.cons_ne_nil u more),
            stagesOf_cons inner pipe, List.length_cons, Nat.add_lt_add_iff_right]
        rw [same, stagesOf_cons inner pipe]
        dsimp only
        rcases ih (fun i => argvs (i + 1)) (List.cons_ne_nil u more) lexedRest with
          ⟨refused, e, failed⟩ | ⟨accepted, stages, done, all⟩
        · exact .inl ⟨refused, e, by rw [failed]; rfl⟩
        · exact .inr ⟨accepted, _, by rw [done]; rfl, .cons parsed all⟩

/-! Against the tokens -/

/-- Without an `&`, the parser appends the words that are arguments and nothing else. -/
theorem argEntries_plain (behind : Bool) (inner : ∀ t ∈ seg, t.type ≠ .pipe) (plain : ∀ t ∈ seg, t.type ≠ .amp)
    (lexed : ∀ t ∈ seg, t.Lexed) : argEntries behind seg = (argTexts behind seg).map some := by
  induction seg generalizing behind with
  | nil => rfl
  | cons t rest ih =>
    have ih := ih t.redirects (fun u mem => inner u (List.mem_cons_of_mem t mem))
      (fun u mem => plain u (List.mem_cons_of_mem t mem)) fun u mem => lexed u (List.mem_cons_of_mem t mem)
    have notPipe := inner t List.mem_cons_self
    have notAmp := plain t List.mem_cons_self
    rw [argEntries, argTexts, List.map_append, ih]
    refine congrArg (· ++ _) ?_
    by_cases word : t.type = .word
    · obtain ⟨text, here⟩ := Option.isSome_iff_exists.mp ((lexed t List.mem_cons_self).mp word)
      have no : t.redirects = false := by
        unfold Token.redirects
        rw [word]
        decide
      rw [no, here]
      cases behind with
      | false => simp [word]
      | true => simp
    · have yes : t.redirects = true := by
        unfold Token.redirects
        cases type : t.type <;> simp_all
      rw [yes, if_pos (.inl rfl), if_neg fun both => word both.1]
      rfl

theorem StageParsed.holds_iff {s : Stage} (h : StageParsed seg s) (entries : argEntries false seg = (argTexts false seg).map some) :
    StageHolds seg s ↔ (argTexts false seg).length < maxArgs := by
  obtain ⟨argv, r, read, rfl⟩ := h
  have count := read.count
  have args : maxArgs = 16 := rfl
  rw [entries, List.length_map] at count
  dsimp only at count
  have stored : ∀ i < r.argc, Function.update r.argv r.argc none i = ((argTexts false seg)[i]?) := by
    intro i low
    have here : i < (argTexts false seg).length := by omega
    rw [Function.update_of_ne (Nat.ne_of_lt low)]
    have added := read.added i (some (argTexts false seg)[i]) (by rw [entries]; simp [here])
    rw [Nat.zero_add] at added
    rw [added (by omega), List.getElem?_eq_getElem here]
  constructor
  · intro holds
    have length := congrArg List.length holds.words
    rw [List.length_map, List.length_map, List.length_range] at length
    dsimp only at length
    omega
  · intro fits
    have whole : r.argc = (argTexts false seg).length := by omega
    refine ⟨fun i low => ?_, Function.update_self _ _ _, ?_, ?_, ?_⟩
    · dsimp only at low ⊢
      rw [stored i low, List.getElem?_eq_getElem (whole ▸ low)]
      nofun
    · dsimp only
      apply List.ext_getElem (by simp [whole])
      intro i low _
      rw [List.length_map, List.length_range] at low
      rw [List.getElem_map, List.getElem_range, stored i low, List.getElem_map, List.getElem?_eq_getElem]
    · exact read.redirectOut.trans (Option.or_none)
    · exact read.redirectIn.trans (Option.or_none)

theorem parsed_holds_iff {segs : List (List Token)} {stages : List Stage} (parsed : List.Forall₂ StageParsed segs stages)
    (entries : ∀ seg ∈ segs, argEntries false seg = (argTexts false seg).map some) :
    List.Forall₂ StageHolds segs stages ↔ ∀ seg ∈ segs, (argTexts false seg).length < maxArgs := by
  induction parsed with
  | nil => exact ⟨fun _ => nofun, fun _ => .nil⟩
  | cons first _ ih =>
    rw [List.forall₂_cons, first.holds_iff (entries _ List.mem_cons_self),
      ih fun seg mem => entries seg (List.mem_cons_of_mem _ mem), List.forall_mem_cons]

theorem mem_stagesOf {seg toks : List Token} (mem : seg ∈ stagesOf toks) : ∀ t ∈ seg, t ∈ toks ∧ t.type ≠ .pipe := by
  induction h : toks.length using Nat.strong_induction_on generalizing toks with
  | _ n ih =>
    obtain ⟨first, behind, rfl, inner, ends⟩ := firstStage toks
    cases behind with
    | nil =>
      rw [List.append_nil, stagesOf_last inner, List.mem_singleton] at mem
      intro t here
      rw [mem] at here
      exact ⟨List.mem_append_left _ here, inner t here⟩
    | cons p rest =>
      rw [stagesOf_cons inner (ends p rfl)] at mem
      rcases List.mem_cons.mp mem with rfl | mem
      · exact fun t here => ⟨List.mem_append_left _ here, inner t here⟩
      · intro t here
        obtain ⟨inRest, notPipe⟩ := ih rest.length (by rw [← h]; simp; omega) mem rfl t here
        exact ⟨List.mem_append_right _ (List.mem_cons_of_mem p inRest), notPipe⟩

theorem wellParsed_iff (argvs : Nat → Nat → Option Nat) (lexed : ∀ t ∈ toks, t.Lexed) :
    WellParsed toks (parsePipeline argvs toks) ↔
      Refused maxStages toks ∨
        (∀ t ∈ toks, t.type ≠ .amp) ∧ ∀ seg ∈ stagesOf toks, (argTexts false seg).length < maxArgs := by
  by_cases empty : toks = []
  · subst empty
    have none : ¬ Misplaced [] := by
      unfold Misplaced
      simp [dangling, trailingPipe]
    have single : stagesOf [] = [[]] := stagesOf_last nofun
    refine ⟨fun _ => .inr ⟨nofun, ?_⟩, fun _ => ⟨none, fun some => absurd rfl some⟩⟩
    rw [single]
    decide
  unfold parsePipeline
  rcases parseStages_parsed maxStages argvs empty lexed with ⟨refused, e, failed⟩ | ⟨accepted, stages, done, parsed⟩
  · rw [failed]
    exact ⟨fun _ => .inl refused, fun _ => trivial⟩
  have outOfPlace : Misplaced toks ↔ ∃ t ∈ toks, t.type = .amp := by
    refine ⟨fun misplaced => misplaced.resolve_right fun other => accepted ?_, .inl⟩
    exact other.elim .inl fun last => .inr (.inl last)
  rw [done, WellParsed, outOfPlace]
  by_cases amp : ∃ t ∈ toks, t.type = .amp
  · obtain ⟨t, mem, isAmp⟩ := amp
    exact ⟨fun both => absurd ⟨t, mem, isAmp⟩ both.1, fun either => either.elim (absurd · accepted)
      fun both => absurd isAmp (both.1 t mem)⟩
  have plain : ∀ t ∈ toks, t.type ≠ .amp := fun t mem isAmp => amp ⟨t, mem, isAmp⟩
  have entries : ∀ seg ∈ stagesOf toks, argEntries false seg = (argTexts false seg).map some := fun seg mem =>
    argEntries_plain false (fun t here => (mem_stagesOf mem t here).2) (fun t here => plain t (mem_stagesOf mem t here).1)
      fun t here => lexed t (mem_stagesOf mem t here).1
  have nonempty : stages ≠ [] := by
    rintro rfl
    exact List.splitOnP_ne_nil _ toks (List.forall₂_nil_right_iff.mp parsed)
  rw [parsed_holds_iff parsed entries]
  exact ⟨fun both => .inr ⟨plain, both.2 nonempty⟩, fun either => ⟨amp, fun _ => (either.resolve_left accepted).2⟩⟩

/-! The tokens of a line -/

theorem layOut_lexed {lexemes : List Lexeme} (operators : ∀ type, Lexeme.operator type ∈ lexemes → type ≠ .word)
    (a : TokenArena) : ∀ t ∈ (layOut a lexemes).2, t.Lexed := by
  induction lexemes generalizing a with
  | nil => nofun
  | cons lexeme rest ih =>
    have later := ih fun type mem => operators type (List.mem_cons_of_mem _ mem)
    cases lexeme with
    | operator type =>
      rintro t (_ | ⟨_, mem⟩)
      · exact ⟨fun word => absurd word (operators type List.mem_cons_self), nofun⟩
      · exact later a t mem
    | word text =>
      rintro t (_ | ⟨_, mem⟩)
      · exact ⟨fun _ => rfl, fun _ => rfl⟩
      · exact later _ t mem

theorem lexLine_operators (env : List EnvVar) (left : Nat) (line : List (BitVec 8)) :
    ∀ type, Lexeme.operator type ∈ lexLine env left line → type ≠ .word := by
  induction left generalizing line with
  | zero =>
    unfold lexLine
    cases line.dropWhile isSpace <;> exact fun _ mem => by cases mem
  | succ left ih =>
    unfold lexLine
    cases line.dropWhile isSpace with
    | nil => exact fun _ mem => by cases mem
    | cons c rest =>
      dsimp only
      cases operator : operatorOf c with
      | some type =>
        rintro other (_ | ⟨_, mem⟩)
        · exact operatorOf_ne_word operator
        · exact ih _ other mem
      | none =>
        rintro other (_ | ⟨_, mem⟩)
        exact ih _ other mem

end Stages

/-- The tokens that `main` gives to `parse_pipeline`. -/
def lineTokens (env : List EnvVar) (line : List (BitVec 8)) (arena : Nat → BitVec 8) : List Token :=
  (stripAmp (tokenize env line arena maxTokens).2).1

theorem lineTokens_lexed (env : List EnvVar) (line : List (BitVec 8)) (arena : Nat → BitVec 8) :
    ∀ t ∈ lineTokens env line arena, t.Lexed := by
  have all : ∀ t ∈ (tokenize env line arena maxTokens).2, t.Lexed := by
    unfold tokenize
    rw [tokenizeLoop_lays]
    exact layOut_lexed (lexLine_operators env maxTokens line) _
  unfold lineTokens stripAmp
  split
  · exact fun t mem => all t (List.dropLast_subset _ mem)
  · exact all

/-- The parser returns well-formed stages, or refuses, unless an `&` is left in the line or a stage
has more than 15 arguments. -/
theorem pipeline_well_parsed_iff (env : List EnvVar) (line : List (BitVec 8)) (arena : Nat → BitVec 8)
    (argvs : Nat → Nat → Option Nat) :
    WellParsed (lineTokens env line arena) (parsePipeline argvs (lineTokens env line arena)) ↔
      Refused maxStages (lineTokens env line arena) ∨
        (∀ t ∈ lineTokens env line arena, t.type ≠ .amp) ∧
          ∀ seg ∈ stagesOf (lineTokens env line arena), (argTexts false seg).length < maxArgs :=
  wellParsed_iff argvs (lineTokens_lexed env line arena)

/-- `a & b` becomes one stage whose second argument is NULL. -/
theorem amp_in_argv :
    (∃ s, parsePipeline (fun _ _ => none) (lineTokens initialEnv (asciiBytes "a & b") fun _ => 0#8) = .ok [s] ∧
      s.argc = 3 ∧ s.argv 1 = none) ∧
    ¬ WellParsed (lineTokens initialEnv (asciiBytes "a & b") fun _ => 0#8)
      (parsePipeline (fun _ _ => none) (lineTokens initialEnv (asciiBytes "a & b") fun _ => 0#8)) := by
  have tokens : lineTokens initialEnv (asciiBytes "a & b") (fun _ => 0#8) =
      [⟨.word, some 0⟩, ⟨.amp, none⟩, ⟨.word, some 2⟩] := by decide +kernel
  rw [tokens]
  refine ⟨⟨_, rfl, rfl, rfl⟩, fun parsed => parsed.1 (.inl ⟨⟨.amp, none⟩, by decide, rfl⟩)⟩

end Isunux
