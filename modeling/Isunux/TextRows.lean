import Isunux.Scrolling

/-! What plain text looks like on the screen: its lines, broken at the width of the screen,
and of these the last ones. -/
namespace Isunux

/-- A line of text takes one row more than it fills. -/
def wrapLine (cols : Nat) (line : List (BitVec 8)) : List (List (BitVec 8)) :=
  (List.range (line.length / cols + 1)).map fun i => (line.drop (i * cols)).take cols

def textRows (cols : Nat) (text : List (BitVec 8)) : List (List (BitVec 8)) :=
  (text.splitOn newline).flatMap (wrapLine cols)

/-- A sheet with these rows, seen through a window that ends with the last one. -/
def Sheet.ofRows (rows : Nat) (all : List (List (BitVec 8))) : Sheet where
  cell r s := all[r]?.bind fun row => row[s]?
  row := all.length - 1
  col := (all.getLast?.getD []).length
  top := all.length - rows

section Rows

variable {cols rows : Nat} {line full rest cur text : List (BitVec 8)} {done : List (List (BitVec 8))} {c : BitVec 8}

theorem wrapLine_short (short : line.length < cols) : wrapLine cols line = [line] := by
  rw [wrapLine, Nat.div_eq_of_lt short, Nat.zero_add, List.range_one, List.map_singleton, Nat.zero_mul, List.drop_zero,
    List.take_of_length_le (Nat.le_of_lt short)]

theorem wrapLine_full (pos : 0 < cols) (size : full.length = cols) :
    wrapLine cols (full ++ rest) = full :: wrapLine cols rest := by
  have more : (full ++ rest).length / cols = rest.length / cols + 1 := by
    rw [List.length_append, size, Nat.add_comm, Nat.add_div_right _ pos]
  rw [wrapLine, more, List.range_succ_eq_map, List.map_cons, List.map_map, Nat.zero_mul, List.drop_zero,
    List.take_left' size]
  refine congrArg (full :: ·) (List.map_congr_left fun i _ => ?_)
  have skip : (i + 1) * cols = full.length + i * cols := by
    rw [size, Nat.succ_mul, Nat.add_comm]
  rw [Function.comp, Nat.succ_eq_add_one, skip, List.drop_append, List.drop_eq_nil_of_le (Nat.le_add_right _ _),
    List.nil_append, Nat.add_sub_cancel_left]

theorem splitOn_prefix (full rest : List (BitVec 8)) (within : newline ∉ full) :
    (full ++ rest).splitOn newline = (rest.splitOn newline).modifyHead (full ++ ·) := by
  induction full with
  | nil =>
    rw [List.nil_append]
    cases rest.splitOn newline <;> rfl
  | cons c full ih =>
    rw [List.mem_cons, not_or] at within
    have other : (c == newline) = false := beq_eq_false_iff_ne.mpr (Ne.symm within.1)
    rw [List.cons_append, List.splitOn_cons_eq_if_modifyHead, other, ih within.2]
    cases rest.splitOn newline <;> rfl

theorem textRows_short (short : line.length < cols) (within : newline ∉ line) : textRows cols line = [line] := by
  rw [textRows, List.splitOn_eq_singleton within, List.flatMap_singleton, wrapLine_short short]

theorem textRows_newline (short : line.length < cols) (within : newline ∉ line) :
    textRows cols (line ++ newline :: rest) = line :: textRows cols rest := by
  rw [textRows, List.splitOn_append_cons_self_of_not_mem within, List.flatMap_cons, wrapLine_short short]
  rfl

theorem textRows_full (pos : 0 < cols) (size : full.length = cols) (within : newline ∉ full) :
    textRows cols (full ++ rest) = full :: textRows cols rest := by
  rw [textRows, textRows, splitOn_prefix full rest within]
  obtain ⟨first, others, eq⟩ := List.exists_cons_of_ne_nil (List.splitOn_ne_nil newline rest)
  rw [eq, List.modifyHead_cons, List.flatMap_cons, wrapLine_full pos size]
  rfl

theorem ofRows_cell (done : List (List (BitVec 8))) (cur : List (BitVec 8)) (r s : Nat) :
    ((done ++ [cur])[r]?.bind fun row => row[s]?) =
      if r < done.length then done[r]?.bind (fun row => row[s]?) else if r = done.length then cur[s]? else none := by
  by_cases low : r < done.length
  · rw [if_pos low, List.getElem?_append_left low]
  · rw [if_neg low, List.getElem?_append_right (Nat.le_of_not_lt low)]
    by_cases here : r = done.length
    · rw [if_pos here, here, Nat.sub_self]
      rfl
    · rw [if_neg here, List.getElem?_eq_none (by rw [List.length_singleton]; omega)]
      rfl

theorem ofRows_snoc (done : List (List (BitVec 8))) (cur : List (BitVec 8)) :
    Sheet.ofRows rows (done ++ [cur]) =
      ⟨fun r s => (done ++ [cur])[r]?.bind fun row => row[s]?, done.length, cur.length, done.length + 1 - rows⟩ := by
  simp only [Sheet.ofRows, List.length_append, List.length_singleton, Nat.add_sub_cancel, List.getLast?_concat, Option.getD_some]

theorem ofRows_newline (_ : 0 < rows) (done : List (List (BitVec 8))) (cur : List (BitVec 8)) :
    (Sheet.ofRows rows (done ++ [cur])).newline rows = Sheet.ofRows rows (done ++ [cur] ++ [[]]) := by
  rw [ofRows_snoc, ofRows_snoc, Sheet.newline]
  simp only [List.length_append, List.length_singleton, List.length_nil, Sheet.mk.injEq, true_and]
  refine ⟨funext fun r => funext fun s => ?_, ?_⟩
  · rw [ofRows_cell (done ++ [cur]) [], List.length_append, List.length_singleton, List.getElem?_nil]
    by_cases low : r < done.length + 1
    · rw [if_pos low]
    · rw [if_neg low, ite_self, List.getElem?_eq_none (by rw [List.length_append, List.length_singleton]; omega)]
      rfl
  · by_cases room : done.length + 1 < done.length + 1 - rows + rows
    · rw [if_pos room]
      omega
    · rw [if_neg room]
      omega

theorem ofRows_write (done : List (List (BitVec 8))) (cur : List (BitVec 8)) (c : BitVec 8) :
    (Sheet.ofRows rows (done ++ [cur])).write c =
      ⟨fun r s => (done ++ [cur ++ [c]])[r]?.bind fun row => row[s]?, done.length, cur.length, done.length + 1 - rows⟩ := by
  rw [ofRows_snoc, Sheet.write]
  simp only [Sheet.mk.injEq, and_true]
  refine funext fun r => funext fun s => ?_
  rw [ofRows_cell, ofRows_cell]
  by_cases low : r < done.length
  · rw [if_pos low, if_pos low, if_neg (by omega)]
  · rw [if_neg low, if_neg low]
    by_cases here : r = done.length
    · rw [if_pos here, if_pos here]
      by_cases last : s = cur.length
      · rw [if_pos ⟨here, last⟩, last, List.getElem?_concat_length]
      · rw [if_neg fun both => last both.2]
        by_cases inside : s < cur.length
        · rw [List.getElem?_append_left inside]
        · rw [List.getElem?_eq_none (by omega), List.getElem?_eq_none (by rw [List.length_append, List.length_singleton]; omega)]
    · rw [if_neg here, if_neg here, if_neg fun both => here both.1]

/-- Characters that only add to the text. -/
def Plain (c : BitVec 8) : Prop := c ≠ backspace ∧ c ≠ carriageReturn ∧ c ≠ formFeed

theorem ofRows_print (pos : 0 < cols) (pos' : 0 < rows) (plain : ∀ c ∈ text, Plain c) (short : cur.length < cols)
    (within : newline ∉ cur) : (Sheet.ofRows rows (done ++ [cur])).print cols rows text =
      Sheet.ofRows rows (done ++ textRows cols (cur ++ text)) := by
  induction text generalizing done cur with
  | nil =>
    rw [List.append_nil, textRows_short short within]
    rfl
  | cons c text ih =>
    obtain ⟨⟨back, home, clear⟩, plain⟩ := List.forall_mem_cons.mp plain
    show ((Sheet.ofRows rows (done ++ [cur])).putc cols rows c).print cols rows text = _
    rw [Sheet.putc, if_neg clear]
    by_cases line : c = newline
    · have rest : (Sheet.ofRows rows (done ++ [cur] ++ [[]])).print cols rows text =
          Sheet.ofRows rows (done ++ [cur] ++ textRows cols ([] ++ text)) := ih plain pos List.not_mem_nil
      rw [if_pos line, ofRows_newline pos', rest, line, textRows_newline short within, List.nil_append, List.append_assoc]
      rfl
    · rw [if_neg line, if_neg home, if_neg back, ofRows_write]
      have within' : newline ∉ cur ++ [c] := by
        rw [List.mem_append, List.mem_singleton, not_or]
        exact ⟨within, Ne.symm line⟩
      have text' : cur ++ c :: text = cur ++ [c] ++ text := (List.append_cons cur c text)
      rw [text']
      have length : (cur ++ [c]).length = cur.length + 1 := by rw [List.length_append, List.length_singleton]
      by_cases full : cols ≤ cur.length + 1
      · have size : (cur ++ [c]).length = cols := by omega
        have next := ofRows_newline pos' done (cur ++ [c])
        rw [ofRows_snoc] at next
        have rest : (Sheet.ofRows rows (done ++ [cur ++ [c]] ++ [[]])).print cols rows text =
            Sheet.ofRows rows (done ++ [cur ++ [c]] ++ textRows cols ([] ++ text)) := ih plain pos List.not_mem_nil
        rw [List.nil_append, List.append_assoc done [cur ++ [c]] (textRows cols text)] at rest
        simp only [if_pos full]
        rw [textRows_full pos size within']
        refine Eq.trans ?_ rest
        rw [← next]
        rfl
      · have room : (cur ++ [c]).length < cols := by omega
        simp only [if_neg full]
        rw [← ih plain room within', ofRows_snoc, length]

theorem print_textRows (pos : 0 < cols) (pos' : 0 < rows) (plain : ∀ c ∈ text, Plain c) :
    Sheet.empty.print cols rows text = Sheet.ofRows rows (textRows cols text) := by
  have start : Sheet.empty = Sheet.ofRows rows ([] ++ [[]]) := by
    rw [ofRows_snoc, Sheet.empty]
    simp only [List.length_nil, Sheet.mk.injEq, true_and]
    refine ⟨funext fun r => funext fun s => ?_, by omega⟩
    rw [ofRows_cell, List.getElem?_nil, List.getElem?_nil, ite_self]
    exact (ite_self _).symm
  have short : ([] : List (BitVec 8)).length < cols := pos
  have printed : (Sheet.ofRows rows ([] ++ [[]])).print cols rows text = Sheet.ofRows rows ([] ++ textRows cols ([] ++ text)) :=
    ofRows_print pos pos' plain short List.not_mem_nil
  rw [start, printed, List.nil_append, List.nil_append]

end Rows

/-- After plain text, the screen shows the last rows of its lines, each broken at the width of
the screen; a line that ends with a full row is followed by an empty one. -/
theorem screen_shows_last_rows (b : Framebuffer) (font : Font) (start : Nat → BitVec 8) (text : List (BitVec 8)) (x y : Nat)
    (plain : ∀ c ∈ text, Plain c) (wide : x < b.width) (tall : y < b.height) :
    Raster.Shows b.layout (termPrint b font (fbInit b start) text).mem x y
      (colorByte ((Sheet.ofRows (b.height / glyphH) (textRows (b.width / glyphW) text)).pixel b font
        (packColor b 0xAA#8 0xAA#8 0xAA#8) (packColor b 0x00#8 0x00#8 0x00#8) x y)) := by
  rw [← print_textRows b.cols_pos b.rows_pos plain]
  obtain ⟨inked, _, fg, bg⟩ := (shown_init b font start).print text
  have pixels := inked.pixels
  rw [fg, bg] at pixels
  exact pixels x y wide tall

theorem sampleLine_fits : 20 * (32 / 8) ≤ 96 := by decide

theorem sampleScreen_wide : glyphW ≤ 20 := by decide

theorem sampleScreen_tall : glyphH ≤ 40 := by decide

/-- Two columns and two rows, with margins. -/
def sampleScreen : Framebuffer where
  width := 20
  height := 40
  pitch := 96
  bpp := 32
  redMaskSize := 8
  redMaskShift := 16
  greenMaskSize := 8
  greenMaskShift := 8
  blueMaskSize := 8
  blueMaskShift := 0
  line_fits := sampleLine_fits
  wide := sampleScreen_wide
  tall := sampleScreen_tall
  width_lt := by decide
  height_lt := by decide
  pitch_lt := by decide

theorem screen_shows_last_rows_abc :
    textRows 2 [97#8, 98#8, newline, 99#8] = [[97#8, 98#8], [], [99#8]] ∧
      Raster.Shows sampleScreen.layout
        (termPrint sampleScreen ⟨32, 126, fun _ _ => 0xff#8⟩ (fbInit sampleScreen fun _ => 7#8)
          [97#8, 98#8, newline, 99#8]).mem 3 20
        (colorByte ((Sheet.ofRows 2 (textRows 2 [97#8, 98#8, newline, 99#8])).pixel sampleScreen ⟨32, 126, fun _ _ => 0xff#8⟩
          (packColor sampleScreen 0xAA#8 0xAA#8 0xAA#8) (packColor sampleScreen 0x00#8 0x00#8 0x00#8) 3 20)) :=
  ⟨by decide +kernel, screen_shows_last_rows sampleScreen _ _ [97#8, 98#8, newline, 99#8] 3 20
    (by simp only [Plain]; decide) (by decide) (by decide)⟩

end Isunux
