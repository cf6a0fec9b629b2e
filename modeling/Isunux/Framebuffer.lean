import Isunux.Keyboard
import Isunux.Lib.Raster
import Isunux.Lib.Run

/-! The console on the framebuffer, fb.c and term.c: glyphs, control characters,
wrapping and scrolling. -/
namespace Isunux

def glyphW : Nat := 8
def glyphH : Nat := 16

/-- What `limine_framebuffer` says of a screen. The boot loader promises a line that holds its
pixels, and a mode in which the console has room for one glyph and that 32 bits count. -/
structure Framebuffer where
  width : Nat
  height : Nat
  pitch : Nat
  bpp : Nat
  redMaskSize : Nat
  redMaskShift : Nat
  greenMaskSize : Nat
  greenMaskShift : Nat
  blueMaskSize : Nat
  blueMaskShift : Nat
  line_fits : width * (bpp / 8) ≤ pitch
  wide : glyphW ≤ width
  tall : glyphH ≤ height
  width_lt : width < 2 ^ 32
  height_lt : height < 2 ^ 32
  pitch_lt : pitch < 2 ^ 32

/-- `FONT8X16_FIRST`, `FONT8X16_LAST` and the table of scanlines. -/
structure Font where
  first : Nat
  last : Nat
  rows : Nat → Nat → BitVec 8

/-- The static variables of fb.c behind `inited`, and the bytes from `fb->address` on. -/
structure Console where
  mem : Nat → BitVec 8
  cols : Nat
  rows : Nat
  cursorCol : Nat
  cursorRow : Nat
  fgColor : BitVec 32
  bgColor : BitVec 32

section

variable (b : Framebuffer) (font : Font)

def packChannel (val8 : BitVec 8) (maskSize shift : Nat) : BitVec 32 :=
  if maskSize = 0 then 0#32
  else (if 8 ≤ maskSize then val8.setWidth 32 else (val8 >>> (8 - maskSize)).setWidth 32) <<< shift

def packColor (red green blue : BitVec 8) : BitVec 32 :=
  packChannel red b.redMaskSize b.redMaskShift ||| packChannel green b.greenMaskSize b.greenMaskShift |||
    packChannel blue b.blueMaskSize b.blueMaskShift

/-- Byte `i` of a pixel. -/
def colorByte (color : BitVec 32) (i : Nat) : BitVec 8 := (color >>> (8 * i)).setWidth 8

def fbPutpixel (mem : Nat → BitVec 8) (x y : Nat) (color : BitVec 32) : Nat → BitVec 8 :=
  (List.range (b.bpp / 8)).foldl
    (fun mem i => Function.update mem (y * b.pitch + x * (b.bpp / 8) + i) (colorByte color i)) mem

def fbFillRows (mem : Nat → BitVec 8) (yStart yEnd : Nat) (color : BitVec 32) : Nat → BitVec 8 :=
  (List.range' yStart (yEnd - yStart)).foldl
    (fun mem y => (List.range b.width).foldl (fun mem x => fbPutpixel b mem x y color) mem) mem

/-- A scanline of the glyph of a character; what the font lacks is blank. -/
def Font.glyph (c : BitVec 8) (row : Nat) : BitVec 8 :=
  if font.first ≤ c.toNat ∧ c.toNat ≤ font.last then font.rows (c.toNat - font.first) row else 0#8

def fbDrawGlyph (k : Console) (px py : Nat) (c : BitVec 8) : Console :=
  { k with
    mem := (List.range glyphH).foldl
      (fun mem row => (List.range glyphW).foldl
        (fun mem col =>
          fbPutpixel b mem (px + col) (py + row) (if (font.glyph c row).getLsbD (7 - col) then k.fgColor else k.bgColor))
        mem)
      k.mem }

/-- `k_memcpy` within one array, byte after byte. -/
def memcpyWithin (mem : Nat → BitVec 8) (dst src n : Nat) : Nat → BitVec 8 :=
  (List.range n).foldl (fun mem i => Function.update mem (dst + i) (mem (src + i))) mem

def fbScrollOneLine (k : Console) : Console :=
  let rowBytes := b.pitch * glyphH
  let totalBytes := b.pitch * b.height
  { k with
    mem := fbFillRows b (memcpyWithin k.mem 0 rowBytes (totalBytes - rowBytes)) (b.height - glyphH) b.height k.bgColor }

/-- `fb_init` with a framebuffer. -/
def fbInit (mem : Nat → BitVec 8) : Console where
  mem := fbFillRows b mem 0 b.height (packColor b 0x00#8 0x00#8 0x00#8)
  cols := b.width / glyphW
  rows := b.height / glyphH
  cursorCol := 0
  cursorRow := 0
  fgColor := packColor b 0xAA#8 0xAA#8 0xAA#8
  bgColor := packColor b 0x00#8 0x00#8 0x00#8

def fbClear (k : Console) : Console :=
  { k with mem := fbFillRows b k.mem 0 b.height k.bgColor, cursorCol := 0, cursorRow := 0 }

def fbNewline (k : Console) : Console :=
  if k.rows ≤ k.cursorRow + 1 then fbScrollOneLine b { k with cursorCol := 0 }
  else { k with cursorCol := 0, cursorRow := k.cursorRow + 1 }

def carriageReturn : BitVec 8 := 13#8
def formFeed : BitVec 8 := 12#8
def blankChar : BitVec 8 := 32#8

def fbPutc (k : Console) (c : BitVec 8) : Console :=
  if c = newline then fbNewline b k
  else if c = carriageReturn then { k with cursorCol := 0 }
  else if c = backspace then
    let k :=
      if 0 < k.cursorCol then { k with cursorCol := k.cursorCol - 1 }
      else if 0 < k.cursorRow then { k with cursorRow := k.cursorRow - 1, cursorCol := k.cols - 1 }
      else k
    fbDrawGlyph b font k (k.cursorCol * glyphW) (k.cursorRow * glyphH) blankChar
  else
    let k := fbDrawGlyph b font k (k.cursorCol * glyphW) (k.cursorRow * glyphH) c
    let k := { k with cursorCol := k.cursorCol + 1 }
    if k.cols ≤ k.cursorCol then fbNewline b k else k

/-- `term_putc`, without its copy on the serial line. -/
def termPutc (k : Console) (c : BitVec 8) : Console := if c = formFeed then fbClear b k else fbPutc b font k c

/-- `term_print` of a text without its final zero. -/
def termPrint (k : Console) (text : List (BitVec 8)) : Console := text.foldl (termPutc b font) k

end

/-! A sheet without an end -/

/-- What is written to a console is written on a sheet; the screen shows its rows from
`top` on. -/
structure Sheet where
  cell : Nat → Nat → Option (BitVec 8)
  row : Nat
  col : Nat
  top : Nat

def Sheet.empty : Sheet := ⟨fun _ _ => none, 0, 0, 0⟩

/-- On to the next row, which moves the window if it was the last one in it. -/
def Sheet.newline (rows : Nat) (p : Sheet) : Sheet :=
  { p with row := p.row + 1, col := 0, top := if p.row + 1 < p.top + rows then p.top else p.top + 1 }

def Sheet.write (p : Sheet) (c : BitVec 8) : Sheet :=
  { p with cell := fun r s => if r = p.row ∧ s = p.col then some c else p.cell r s }

/-- One place back, but not above the window. -/
def Sheet.back (cols : Nat) (p : Sheet) : Sheet :=
  if 0 < p.col then { p with col := p.col - 1 }
  else if p.top < p.row then { p with row := p.row - 1, col := cols - 1 }
  else p

def Sheet.putc (cols rows : Nat) (p : Sheet) (c : BitVec 8) : Sheet :=
  if c = formFeed then Sheet.empty
  else if c = Isunux.newline then p.newline rows
  else if c = carriageReturn then { p with col := 0 }
  else if c = backspace then (p.back cols).write blankChar
  else
    let p := p.write c
    if cols ≤ p.col + 1 then p.newline rows else { p with col := p.col + 1 }

def Sheet.print (cols rows : Nat) (p : Sheet) (text : List (BitVec 8)) : Sheet := text.foldl (Sheet.putc cols rows) p

/-- The colour of a pixel when the window stands at `top`. -/
def Sheet.pixel (b : Framebuffer) (font : Font) (fg bg : BitVec 32) (p : Sheet) (x y : Nat) : BitVec 32 :=
  if x / glyphW < b.width / glyphW ∧ y / glyphH < b.height / glyphH then
    match p.cell (p.top + y / glyphH) (x / glyphW) with
    | some c => if (font.glyph c (y % glyphH)).getLsbD (7 - x % glyphW) then fg else bg
    | none => bg
  else bg

end Isunux
