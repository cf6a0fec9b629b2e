import Isunux.Framebuffer

/-! The pixels on the screen are a window into what has been written. -/
namespace Isunux

def Framebuffer.layout (b : Framebuffer) : Raster.Layout := ⟨b.width, b.height, b.pitch, b.bpp / 8, b.line_fits⟩

section Painting

variable {b : Framebuffer} {font : Font} {mem : Nat → BitVec 8} {x y : Nat}

theorem fbPutpixel_painted (hx : x < b.width) (color : BitVec 32) (ink : Nat → Nat → BitVec 32) (same : ink x y = color) :
    Raster.Painted b.layout mem (fbPutpixel b mem x y color) (fun x' y' => x' = x ∧ y' = y) fun x' y' => colorByte (ink x' y') := by
  have rounds := Run.range_rule
    (fun i m => (∀ j, j < i → m (b.layout.place x y j) = colorByte color j) ∧
      ∀ a, (∀ j, j < i → a ≠ b.layout.place x y j) → m a = mem a)
    (fun mem i => Function.update mem (y * b.pitch + x * (b.bpp / 8) + i) (colorByte color i)) (b.bpp / 8) mem
    ⟨fun j low => absurd low (Nat.not_lt_zero j), fun _ _ => rfl⟩ ?_
  · refine ⟨?_, ?_, fun a off => rounds.2 a fun j low => off x y j ⟨rfl, rfl⟩ low⟩
    · rintro x' y' ⟨rfl, -⟩
      exact hx
    · rintro x' y' ⟨rfl, rfl⟩ i low
      rw [same]
      exact rounds.1 i low
  · intro i low m ⟨inside, outside⟩
    have place : y * b.pitch + x * (b.bpp / 8) + i = b.layout.place x y i := Nat.add_assoc _ _ _
    rw [place]
    refine ⟨fun j below => ?_, fun a off => ?_⟩
    · by_cases last : j = i
      · rw [last, Function.update_self]
      · have other : b.layout.place x y j ≠ b.layout.place x y i := by
          intro eq
          exact last (Raster.Layout.place_inj hx (by omega : j < b.bpp / 8) hx low eq).2.2
        rw [Function.update_of_ne other]
        exact inside j (by omega)
    · rw [Function.update_of_ne (off i (Nat.lt_succ_self i))]
      exact outside a fun j below => off j (by omega)

theorem fbFillRows_painted (b : Framebuffer) (mem : Nat → BitVec 8) (y₀ y₁ : Nat) (color : BitVec 32) :
    Raster.Painted b.layout mem (fbFillRows b mem y₀ y₁ color) (fun x y => x < b.width ∧ y₀ ≤ y ∧ y < y₁)
      fun _ _ => colorByte color := by
  have line : ∀ (y : Nat) (m : Nat → BitVec 8), Raster.Painted b.layout m
      ((List.range b.width).foldl (fun mem x => fbPutpixel b mem x y color) m)
      (fun x' y' => ∃ x ∈ List.range b.width, x' = x ∧ y' = y) fun _ _ => colorByte color := fun y m =>
    Raster.Painted.foldl _ (fun x hx m => fbPutpixel_painted (List.mem_range.mp hx) color (fun _ _ => color) rfl) m
  refine (Raster.Painted.foldl _ (fun y _ m => line y m) mem).congr fun x y => ?_
  simp only [List.mem_range'_1, List.mem_range]
  constructor
  · rintro ⟨y', low, x', wide, rfl, rfl⟩
    exact ⟨wide, low.1, by omega⟩
  · rintro ⟨wide, low, high⟩
    exact ⟨y, ⟨low, by omega⟩, x, wide, rfl, rfl⟩

theorem fbDrawGlyph_painted (b : Framebuffer) (font : Font) (k : Console) (px py : Nat) (c : BitVec 8)
    (room : px + glyphW ≤ b.width) :
    Raster.Painted b.layout k.mem (fbDrawGlyph b font k px py c).mem
      (fun x y => (px ≤ x ∧ x < px + glyphW) ∧ py ≤ y ∧ y < py + glyphH)
      fun x y => colorByte (if (font.glyph c (y - py)).getLsbD (7 - (x - px)) then k.fgColor else k.bgColor) := by
  have dot : ∀ (row col : Nat) (_ : col ∈ List.range glyphW) (m : Nat → BitVec 8), Raster.Painted b.layout m
      (fbPutpixel b m (px + col) (py + row) (if (font.glyph c row).getLsbD (7 - col) then k.fgColor else k.bgColor))
      (fun x y => x = px + col ∧ y = py + row)
      fun x y => colorByte (if (font.glyph c (y - py)).getLsbD (7 - (x - px)) then k.fgColor else k.bgColor) := by
    intro row col low m
    rw [List.mem_range] at low
    refine fbPutpixel_painted (by omega) _
      (fun x y => if (font.glyph c (y - py)).getLsbD (7 - (x - px)) then k.fgColor else k.bgColor) ?_
    simp only [Nat.add_sub_cancel_left]
  refine (Raster.Painted.foldl _ (fun row _ m => Raster.Painted.foldl _ (fun col low m => dot row col low m) m) k.mem).congr
    fun x y => ?_
  simp only [List.mem_range]
  constructor
  · rintro ⟨row, tall, col, wide, rfl, rfl⟩
    omega
  · rintro ⟨⟨left, right⟩, up, down⟩
    exact ⟨y - py, by omega, x - px, by omega, by omega, by omega⟩

theorem memcpyWithin_down (mem : Nat → BitVec 8) {dst src : Nat} (down : dst ≤ src) (n a : Nat) :
    memcpyWithin mem dst src n a = if dst ≤ a ∧ a < dst + n then mem (src + (a - dst)) else mem a := by
  have rounds := Run.range_rule (fun i m => ∀ a, m a = if dst ≤ a ∧ a < dst + i then mem (src + (a - dst)) else mem a)
    (fun mem i => Function.update mem (dst + i) (mem (src + i))) n mem (fun a => by rw [if_neg (by omega)]) ?_
  · exact rounds a
  · intro i _ m copied a
    have next : m (src + i) = mem (src + i) := by rw [copied, if_neg (by omega)]
    by_cases here : a = dst + i
    · rw [here, Function.update_self, next, if_pos (by omega), Nat.add_sub_cancel_left]
    · rw [Function.update_of_ne here, copied]
      by_cases low : dst ≤ a ∧ a < dst + i
      · rw [if_pos low, if_pos (by omega)]
      · rw [if_neg low, if_neg (by omega)]

end Painting

/-! The window -/

/-- All pixels are those of the sheet at its window, and memory behind the screen is untouched. -/
structure Inked (b : Framebuffer) (font : Font) (start : Nat → BitVec 8) (k : Console) (p : Sheet) : Prop where
  pixels : ∀ x y, x < b.width → y < b.height →
    Raster.Shows b.layout k.mem x y (colorByte (p.pixel b font k.fgColor k.bgColor x y))
  beyond : ∀ a, b.height * b.pitch ≤ a → k.mem a = start a

/-- The console writes at the same place as the sheet, and below the window the sheet is blank. -/
structure AtCursor (b : Framebuffer) (k : Console) (p : Sheet) : Prop where
  cols : k.cols = b.width / glyphW
  rows : k.rows = b.height / glyphH
  col : k.cursorCol = p.col
  col_lt : p.col < k.cols
  row : k.cursorRow + p.top = p.row
  row_lt : k.cursorRow < k.rows
  blank : ∀ r s, p.top + k.rows ≤ r → p.cell r s = none

section Window

variable {b : Framebuffer} {font : Font} {start : Nat → BitVec 8} {k : Console} {p : Sheet}

theorem Framebuffer.cols_pos (b : Framebuffer) : 0 < b.width / glyphW := Nat.div_pos b.wide (by decide)

theorem Framebuffer.rows_pos (b : Framebuffer) : 0 < b.height / glyphH := Nat.div_pos b.tall (by decide)

theorem Sheet.pixel_congr {p' : Sheet} (fg bg : BitVec 32) {x y y' : Nat}
    (same : x / glyphW < b.width / glyphW → y / glyphH < b.height / glyphH →
      p'.cell (p'.top + y / glyphH) (x / glyphW) = if y' / glyphH < b.height / glyphH then
        p.cell (p.top + y' / glyphH) (x / glyphW) else none)
    (line : y % glyphH = y' % glyphH) (rows : y' / glyphH < b.height / glyphH → y / glyphH < b.height / glyphH) :
    p'.pixel b font fg bg x y = p.pixel b font fg bg x y' := by
  unfold Sheet.pixel
  by_cases wide : x / glyphW < b.width / glyphW
  · by_cases tall : y / glyphH < b.height / glyphH
    · rw [if_pos ⟨wide, tall⟩, same wide tall, line]
      by_cases tall' : y' / glyphH < b.height / glyphH
      · rw [if_pos tall', if_pos ⟨wide, tall'⟩]
      · rw [if_neg tall', if_neg fun h => tall' h.2]
    · rw [if_neg fun h => tall h.2, if_neg fun h => tall (rows h.2)]
  · rw [if_neg fun h => wide h.1, if_neg fun h => wide h.1]

theorem Inked.draw (inked : Inked b font start k p) (placed : AtCursor b k p) (c : BitVec 8) :
    Inked b font start (fbDrawGlyph b font k (k.cursorCol * glyphW) (k.cursorRow * glyphH) c) (p.write c) := by
  have col := placed.col_lt
  have row := placed.row_lt
  rw [placed.cols, ← placed.col] at col
  rw [placed.rows] at row
  have painted := fbDrawGlyph_painted b font k (k.cursorCol * glyphW) (k.cursorRow * glyphH) c
    (by simp only [glyphW] at col ⊢; omega)
  refine ⟨fun x y wide tall => ?_, fun a high => ?_⟩
  · by_cases here : x / glyphW = k.cursorCol ∧ y / glyphH = k.cursorRow
    · have shown := painted.inside x y (by simp only [glyphW, glyphH] at here ⊢; omega)
      have across : x - k.cursorCol * glyphW = x % glyphW := by simp only [glyphW] at here ⊢; omega
      have down : y - k.cursorRow * glyphH = y % glyphH := by simp only [glyphH] at here ⊢; omega
      rw [across, down] at shown
      have written : (p.write c).pixel b font k.fgColor k.bgColor x y =
          if (font.glyph c (y % glyphH)).getLsbD (7 - x % glyphW) then k.fgColor else k.bgColor := by
        unfold Sheet.pixel
        rw [if_pos ⟨here.1 ▸ col, here.2 ▸ row⟩]
        have cell : (p.write c).cell ((p.write c).top + y / glyphH) (x / glyphW) = some c := by
          refine if_pos ⟨?_, here.1.trans placed.col⟩
          rw [here.2, ← placed.row, Nat.add_comm]
          rfl
        rw [cell]
      exact written.symm ▸ shown
    · have kept := painted.keeps wide (fun area => here (by simp only [glyphW, glyphH] at area ⊢; omega))
        (inked.pixels x y wide tall)
      have same : (p.write c).pixel b font k.fgColor k.bgColor x y = p.pixel b font k.fgColor k.bgColor x y := by
        refine Sheet.pixel_congr _ _ (fun _ low => ?_) rfl id
        rw [if_pos low]
        refine if_neg fun at_ => here ⟨at_.2.trans placed.col.symm, ?_⟩
        have := placed.row
        have : p.top + y / glyphH = p.row := at_.1
        omega
      exact same.symm ▸ kept
  · refine (painted.beyond (fun x y area => ?_) high).trans (inked.beyond a high)
    show y < b.height
    simp only [glyphH] at area row
    omega

theorem Inked.scroll (inked : Inked b font start k p) (blank : ∀ s, p.cell (p.top + b.height / glyphH) s = none) :
    Inked b font start (fbScrollOneLine b k) { p with top := p.top + 1 } := by
  have tall := b.tall
  have painted := fbFillRows_painted b
    (memcpyWithin k.mem 0 (b.pitch * glyphH) (b.pitch * b.height - b.pitch * glyphH)) (b.height - glyphH) b.height k.bgColor
  have size : b.pitch * b.height - b.pitch * glyphH = (b.height - glyphH) * b.pitch := by
    rw [← Nat.mul_sub, Nat.mul_comm]
  have copied := memcpyWithin_down k.mem (Nat.zero_le (b.pitch * glyphH)) (b.pitch * b.height - b.pitch * glyphH)
  rw [size] at painted copied
  have moved : (fbScrollOneLine b k).mem = fbFillRows b
      (memcpyWithin k.mem 0 (b.pitch * glyphH) ((b.height - glyphH) * b.pitch)) (b.height - glyphH) b.height k.bgColor := by
    rw [← size]
    rfl
  refine ⟨fun x y wide low => ?_, fun a high => ?_⟩
  · rw [moved]
    by_cases last : b.height - glyphH ≤ y
    · have shown := painted.inside x y ⟨wide, last, low⟩
      have plain : ({ p with top := p.top + 1 } : Sheet).pixel b font k.fgColor k.bgColor x y = k.bgColor := by
        unfold Sheet.pixel
        split
        · rename_i window
          have bottom : p.top + 1 + y / glyphH = p.top + b.height / glyphH := by
            simp only [glyphH] at last window tall ⊢
            omega
          rw [bottom, blank]
        · rfl
      exact plain.symm ▸ shown
    · have above : y + glyphH < b.height := by omega
      have pixel : ({ p with top := p.top + 1 } : Sheet).pixel b font k.fgColor k.bgColor x y =
          p.pixel b font k.fgColor k.bgColor x (y + glyphH) := by
        refine Sheet.pixel_congr _ _ (fun _ window => ?_) (Nat.add_mod_right y glyphH).symm fun window => ?_
        · have next : (y + glyphH) / glyphH = y / glyphH + 1 := Nat.add_div_right y (by decide)
          rw [next]
          have row : p.top + 1 + y / glyphH = p.top + (y / glyphH + 1) := by omega
          show p.cell (p.top + 1 + y / glyphH) _ = _
          rw [row]
          by_cases margin : y / glyphH + 1 < b.height / glyphH
          · rw [if_pos margin]
          · rw [if_neg margin, show y / glyphH + 1 = b.height / glyphH by omega, blank]
        · simp only [glyphH] at window ⊢
          omega
      refine pixel.symm ▸ painted.keeps wide (fun area => last area.2.1) fun i byte => ?_
      have place : b.layout.place x y i < (b.height - glyphH) * b.pitch :=
        Raster.Layout.place_lt (g := ⟨b.width, b.height - glyphH, b.pitch, b.bpp / 8, b.line_fits⟩) wide (by
          show y < b.height - glyphH
          omega) byte
      rw [copied, if_pos ⟨Nat.zero_le _, by omega⟩, Nat.sub_zero, Nat.mul_comm]
      have shifted := Raster.Layout.place_down (g := b.layout) (x := x) (y := y) (i := i) glyphH
      exact (congrArg k.mem shifted.symm).trans (inked.pixels x (y + glyphH) wide above i byte)
  · rw [moved]
    refine (painted.beyond (fun x y area => area.2.2) high).trans ?_
    have less : (b.height - glyphH) * b.pitch ≤ b.height * b.pitch := Nat.mul_le_mul_right _ (Nat.sub_le _ _)
    rw [copied, if_neg (by omega)]
    exact inked.beyond a high

theorem Inked.fill (mem : Nat → BitVec 8) (same : ∀ a, b.height * b.pitch ≤ a → mem a = start a)
    (filled : k.mem = fbFillRows b mem 0 b.height k.bgColor) : Inked b font start k Sheet.empty := by
  have painted := fbFillRows_painted b mem 0 b.height k.bgColor
  rw [← filled] at painted
  refine ⟨fun x y wide tall => ?_, fun a high => ?_⟩
  · have plain : Sheet.empty.pixel b font k.fgColor k.bgColor x y = k.bgColor := by
      unfold Sheet.pixel
      split <;> rfl
    exact plain.symm ▸ painted.inside x y ⟨wide, Nat.zero_le y, tall⟩
  · exact (painted.beyond (fun x y area => area.2.2) high).trans (same a high)

/-- The console and the sheet agree. -/
structure Shown (b : Framebuffer) (font : Font) (start : Nat → BitVec 8) (fg bg : BitVec 32) (k : Console) (p : Sheet) :
    Prop where
  inked : Inked b font start k p
  placed : AtCursor b k p
  fg : k.fgColor = fg
  bg : k.bgColor = bg

variable {fg bg : BitVec 32}

theorem Shown.newline (s : Shown b font start fg bg k p) :
    Shown b font start fg bg (fbNewline b k) (p.newline (b.height / glyphH)) := by
  obtain ⟨inked, placed, fg, bg⟩ := s
  have rows := placed.rows
  have row := placed.row
  have row_lt := placed.row_lt
  have cols := b.cols_pos
  unfold fbNewline Sheet.newline
  rw [rows] at row_lt
  by_cases last : k.rows ≤ k.cursorRow + 1
  · rw [if_pos last, if_neg (by omega)]
    have blank : ∀ s, p.cell (p.top + b.height / glyphH) s = none := fun s => placed.blank _ s (by rw [rows])
    have scrolled := inked.scroll blank
    refine ⟨⟨scrolled.pixels, scrolled.beyond⟩, ⟨placed.cols, rows, rfl, ?_, ?_, ?_, fun r s low => ?_⟩, fg, bg⟩
    · show 0 < k.cols
      rw [placed.cols]
      exact cols
    · show k.cursorRow + (p.top + 1) = p.row + 1
      omega
    · exact placed.row_lt
    · refine placed.blank r s ?_
      have : p.top + 1 + k.rows ≤ r := low
      omega
  · rw [if_neg last, if_pos (by omega)]
    refine ⟨⟨inked.pixels, inked.beyond⟩, ⟨placed.cols, rows, rfl, ?_, ?_, ?_, placed.blank⟩, fg, bg⟩
    · show 0 < k.cols
      rw [placed.cols]
      exact cols
    · show k.cursorRow + 1 + p.top = p.row + 1
      omega
    · show k.cursorRow + 1 < k.rows
      rw [rows]
      omega

theorem Shown.write (s : Shown b font start fg bg k p) (c : BitVec 8) :
    Shown b font start fg bg (fbDrawGlyph b font k (k.cursorCol * glyphW) (k.cursorRow * glyphH) c) (p.write c) := by
  obtain ⟨inked, placed, fg, bg⟩ := s
  refine ⟨inked.draw placed c, ⟨placed.cols, placed.rows, placed.col, placed.col_lt, placed.row, placed.row_lt, ?_⟩, fg, bg⟩
  intro r s low
  have row := placed.row
  have row_lt := placed.row_lt
  refine (if_neg fun here => ?_).trans (placed.blank r s low)
  have here : r = p.row := here.1
  have low : p.top + k.rows ≤ r := low
  omega

theorem Shown.back (s : Shown b font start fg bg k p) : Shown b font start fg bg
    (if 0 < k.cursorCol then { k with cursorCol := k.cursorCol - 1 }
      else if 0 < k.cursorRow then { k with cursorRow := k.cursorRow - 1, cursorCol := k.cols - 1 }
      else k) (p.back (b.width / glyphW)) := by
  obtain ⟨inked, placed, fg, bg⟩ := s
  have row := placed.row
  have row_lt := placed.row_lt
  have col_lt := placed.col_lt
  have cols := b.cols_pos
  unfold Sheet.back
  rw [placed.col]
  by_cases right : 0 < p.col
  · rw [if_pos right, if_pos right]
    refine ⟨⟨inked.pixels, inked.beyond⟩, ⟨placed.cols, placed.rows, rfl, ?_, row, row_lt, placed.blank⟩, fg, bg⟩
    show p.col - 1 < k.cols
    omega
  · rw [if_neg right, if_neg right]
    by_cases down : 0 < k.cursorRow
    · rw [if_pos down, if_pos (by omega)]
      refine ⟨⟨inked.pixels, inked.beyond⟩, ⟨placed.cols, placed.rows, ?_, ?_, ?_, ?_, placed.blank⟩, fg, bg⟩
      · show k.cols - 1 = b.width / glyphW - 1
        rw [placed.cols]
      · show b.width / glyphW - 1 < k.cols
        rw [placed.cols]
        omega
      · show k.cursorRow - 1 + p.top = p.row - 1
        omega
      · show k.cursorRow - 1 < k.rows
        omega
    · rw [if_neg down, if_neg (by omega)]
      exact ⟨inked, placed, fg, bg⟩

theorem AtCursor.empty (k : Console) (cols : k.cols = b.width / glyphW) (rows : k.rows = b.height / glyphH)
    (home : k.cursorCol = 0 ∧ k.cursorRow = 0) : AtCursor b k Sheet.empty where
  cols := cols
  rows := rows
  col := home.1
  col_lt := cols ▸ b.cols_pos
  row := home.2
  row_lt := by
    rw [home.2, rows]
    exact b.rows_pos
  blank _ _ _ := rfl

theorem Shown.putc (s : Shown b font start fg bg k p) (c : BitVec 8) : Shown b font start fg bg (termPutc b font k c)
    (p.putc (b.width / glyphW) (b.height / glyphH) c) := by
  unfold termPutc fbPutc Sheet.putc
  by_cases clear : c = formFeed
  · rw [if_pos clear, if_pos clear]
    exact ⟨Inked.fill k.mem s.inked.beyond rfl, AtCursor.empty _ s.placed.cols s.placed.rows ⟨rfl, rfl⟩, s.fg, s.bg⟩
  rw [if_neg clear, if_neg clear]
  by_cases line : c = Isunux.newline
  · rw [if_pos line, if_pos line]
    exact s.newline
  rw [if_neg line, if_neg line]
  by_cases home : c = carriageReturn
  · rw [if_pos home, if_pos home]
    obtain ⟨inked, placed, fg, bg⟩ := s
    have first : 0 < k.cols := Nat.lt_of_le_of_lt (Nat.zero_le _) placed.col_lt
    exact ⟨⟨inked.pixels, inked.beyond⟩, ⟨placed.cols, placed.rows, rfl, first, placed.row, placed.row_lt, placed.blank⟩,
      fg, bg⟩
  rw [if_neg home, if_neg home]
  by_cases erase : c = backspace
  · rw [if_pos erase, if_pos erase]
    exact s.back.write blankChar
  rw [if_neg erase, if_neg erase]
  have drawn := s.write c
  dsimp only
  generalize fbDrawGlyph b font k (k.cursorCol * glyphW) (k.cursorRow * glyphH) c = d at drawn ⊢
  have place := drawn.placed.col
  by_cases full : d.cols ≤ d.cursorCol + 1
  · have full' : b.width / glyphW ≤ (p.write c).col + 1 := by
      rw [← place, ← drawn.placed.cols]
      exact full
    rw [if_pos full, if_pos full']
    exact drawn.newline
  · have room : ¬b.width / glyphW ≤ (p.write c).col + 1 := by
      rw [← place, ← drawn.placed.cols]
      exact full
    rw [if_neg full, if_neg room]
    obtain ⟨inked, placed, fg, bg⟩ := drawn
    refine ⟨⟨inked.pixels, inked.beyond⟩, ⟨placed.cols, placed.rows, congrArg (· + 1) place, ?_, placed.row, placed.row_lt,
      placed.blank⟩, fg, bg⟩
    show (p.write c).col + 1 < d.cols
    rw [placed.cols]
    omega

theorem Shown.print (s : Shown b font start fg bg k p) (text : List (BitVec 8)) : Shown b font start fg bg
    (termPrint b font k text) (p.print (b.width / glyphW) (b.height / glyphH) text) := by
  induction text generalizing k p with
  | nil => exact s
  | cons c text ih => exact ih (s.putc c)

theorem shown_init (b : Framebuffer) (font : Font) (start : Nat → BitVec 8) :
    Shown b font start (packColor b 0xAA#8 0xAA#8 0xAA#8) (packColor b 0x00#8 0x00#8 0x00#8) (fbInit b start) Sheet.empty :=
  ⟨Inked.fill start (fun _ _ => rfl) rfl, AtCursor.empty _ rfl rfl ⟨rfl, rfl⟩, rfl, rfl⟩

end Window

/-- Whatever is printed, control characters and all, every pixel of the screen, margins
included, has its colour from the window into the sheet, and no byte behind the screen is
written. -/
theorem screen_is_window (b : Framebuffer) (font : Font) (start : Nat → BitVec 8) (text : List (BitVec 8)) :
    (∀ x y, x < b.width → y < b.height → Raster.Shows b.layout (termPrint b font (fbInit b start) text).mem x y
      (colorByte ((Sheet.empty.print (b.width / glyphW) (b.height / glyphH) text).pixel b font
        (packColor b 0xAA#8 0xAA#8 0xAA#8) (packColor b 0x00#8 0x00#8 0x00#8) x y))) ∧
      ∀ a, b.height * b.pitch ≤ a → (termPrint b font (fbInit b start) text).mem a = start a := by
  obtain ⟨inked, _, fg, bg⟩ := (shown_init b font start).print text
  have pixels := inked.pixels
  rw [fg, bg] at pixels
  exact ⟨pixels, inked.beyond⟩

end Isunux
