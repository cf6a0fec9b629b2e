import Isunux.Lib.Radix
import Mathlib.Tactic

/-! Physical memory as the kernel sees it through the HHDM window: frames of 512
words. A page-aligned physical address is named by its frame number, so address
zero, the failure value of the allocators, is frame zero. -/
namespace Isunux

abbrev Word := BitVec 64
abbrev PhysMem := Nat → Nat → Word

def ptePresent : Word := 1#64
def pteWrite : Word := 2#64
def pteUser : Word := 4#64
def pteHuge : Word := 0x80#64
def pteCow : Word := 0x200#64

/-- A test `entry & bits`, as the C code uses it for truth. -/
def hasBits (e bits : Word) : Bool := e &&& bits != 0#64

/-- The physical address of a frame. -/
def pageAddr (f : Nat) : Word := BitVec.ofNat 64 (f * 4096)

/-- `entry & ~0xFFF`, as a frame number. -/
def pteFrame (e : Word) : Nat := (e &&& ~~~ 0xFFF#64).toNat / 4096

/-- `entry & 0xFFF`. -/
def pteFlags (e : Word) : Word := e &&& 0xFFF#64

/-- The next table down, or the mapped page, of a present entry. -/
def pteChild (e : Word) : Option Nat :=
  if hasBits e ptePresent then some (pteFrame e) else none

/-- `k_memset(page, 0, PAGE_SIZE)`. -/
def zeroFrame (mem : PhysMem) (f : Nat) : PhysMem := Function.update mem f fun _ => 0#64

/-- `k_memcpy(dst, src, PAGE_SIZE)` of whole pages. -/
def copyFrame (mem : PhysMem) (dst src : Nat) : PhysMem := Function.update mem dst (mem src)

/-- Byte `o` of a page, little endian inside each word. -/
def byteAt (w : Nat → Word) (o : Nat) : BitVec 8 := (w (o / 8) >>> (8 * (o % 8))).setWidth 8

def putByte (w : Word) (o : Nat) (b : BitVec 8) : Word :=
  (w &&& ~~~ (0xFF#64 <<< (8 * o))) ||| (b.setWidth 64 <<< (8 * o))

def storeByte (mem : PhysMem) (f o : Nat) (b : BitVec 8) : PhysMem :=
  Radix.put mem f (o / 8) (putByte (mem f (o / 8)) (o % 8) b)

theorem low_mask_bit (i : Nat) : (0xFFF#64).getLsbD i = decide (i < 12) := by
  have h : (0xFFF#64).toNat = 2 ^ 12 - 1 := rfl
  rw [BitVec.getLsbD, h, Nat.testBit_two_pow_sub_one]

theorem byte_mask_bit (i : Nat) : (0xFF#64).getLsbD i = decide (i < 8) := by
  have h : (0xFF#64).toNat = 2 ^ 8 - 1 := rfl
  rw [BitVec.getLsbD, h, Nat.testBit_two_pow_sub_one]

theorem mask_page (e : Word) : e &&& ~~~ 0xFFF#64 = (e >>> 12) <<< 12 := by
  apply BitVec.eq_of_getLsbD_eq
  intro i hi
  simp only [BitVec.getLsbD_and, BitVec.getLsbD_not, low_mask_bit, BitVec.getLsbD_shiftLeft,
    BitVec.getLsbD_ushiftRight]
  by_cases h : i < 12
  · simp [h]
  · have hs : 12 + (i - 12) = i := by omega
    simp [h, hi, hs]

theorem mask_page_toNat (e : Word) : (e &&& ~~~ 0xFFF#64).toNat = e.toNat / 4096 * 4096 := by
  rw [mask_page, BitVec.toNat_shiftLeft, BitVec.toNat_ushiftRight, Nat.shiftRight_eq_div_pow,
    Nat.shiftLeft_eq]
  have := e.isLt
  omega

theorem pteFrame_eq (e : Word) : pteFrame e = e.toNat / 4096 := by
  rw [pteFrame, mask_page_toNat]
  omega

theorem pageAddr_toNat {f : Nat} (small : f < 2 ^ 52) : (pageAddr f).toNat = f * 4096 := by
  simp only [pageAddr, BitVec.toNat_ofNat]
  omega

theorem pageAddr_or_toNat {f : Nat} {bits : Word} (small : f < 2 ^ 52)
    (low : bits.toNat < 4096) : (pageAddr f ||| bits).toNat = f * 4096 + bits.toNat := by
  have h := Nat.two_pow_add_eq_or_of_lt (i := 12) (b := bits.toNat) (by omega) f
  rw [BitVec.toNat_or, pageAddr_toNat small, Nat.mul_comm f 4096]
  exact h.symm

theorem pteFrame_pageAddr_or {f : Nat} {bits : Word} (small : f < 2 ^ 52)
    (low : bits.toNat < 4096) : pteFrame (pageAddr f ||| bits) = f := by
  rw [pteFrame_eq, pageAddr_or_toNat small low]
  omega

theorem pageAddr_and {f : Nat} {bits : Word} (low : bits.toNat < 4096) :
    pageAddr f &&& bits = 0#64 := by
  apply BitVec.eq_of_getLsbD_eq
  intro i hi
  rw [BitVec.getLsbD_and, BitVec.getLsbD_zero]
  by_cases h : i < 12
  · have hz : (pageAddr f).getLsbD i = false := by
      rw [pageAddr, BitVec.getLsbD_ofNat, show f * 4096 = 2 ^ 12 * f by omega,
        Nat.testBit_two_pow_mul]
      simp [h]
    rw [hz, Bool.false_and]
  · have hz : bits.getLsbD i = false := by
      apply Nat.testBit_lt_two_pow
      have hp : 2 ^ 12 ≤ 2 ^ i := Nat.pow_le_pow_right (by omega) (by omega)
      omega
    rw [hz, Bool.and_false]

theorem hasBits_pageAddr_or {f : Nat} {bits b : Word} (low : b.toNat < 4096) :
    hasBits (pageAddr f ||| bits) b = hasBits bits b := by
  unfold hasBits
  rw [BitVec.and_comm, BitVec.and_or_distrib_left, BitVec.and_comm b, pageAddr_and low,
    BitVec.zero_or, BitVec.and_comm]

theorem pteFlags_pageAddr_or {f : Nat} {bits : Word} (small : f < 2 ^ 52)
    (low : bits.toNat < 4096) : pteFlags (pageAddr f ||| bits) = bits := by
  apply BitVec.eq_of_toNat_eq
  have h : (pteFlags (pageAddr f ||| bits)).toNat = (pageAddr f ||| bits).toNat % 4096 := by
    rw [pteFlags, BitVec.toNat_and]
    exact Nat.and_two_pow_sub_one_eq_mod _ 12
  rw [h, pageAddr_or_toNat small low]
  omega

theorem pteChild_absent : pteChild 0#64 = none := rfl

theorem byte_putByte (w : Word) {o o' : Nat} (b : BitVec 8) (ho : o < 8) (ho' : o' < 8) :
    (putByte w o b >>> (8 * o')).setWidth 8 = if o' = o then b else (w >>> (8 * o')).setWidth 8 := by
  apply BitVec.eq_of_getLsbD_eq
  intro i hi
  by_cases h : o' = o
  · subst h
    have h64 : 8 * o' + i < 64 := by omega
    have hi64 : i < 64 := by omega
    simp [putByte, byte_mask_bit, hi, h64, hi64]
  · simp only [putByte, h, if_false, BitVec.getLsbD_setWidth, BitVec.getLsbD_ushiftRight,
      BitVec.getLsbD_or, BitVec.getLsbD_and, BitVec.getLsbD_not, BitVec.getLsbD_shiftLeft,
      byte_mask_bit]
    have h64 : 8 * o' + i < 64 := by omega
    rcases Nat.lt_or_ge o' o with lt | ge
    · have h1 : 8 * o' + i < 8 * o := by omega
      simp [h1, h64]
    · have h1 : ¬ 8 * o' + i < 8 * o := by omega
      have h2 : ¬ 8 * o' + i - 8 * o < 8 := by omega
      simp [h1, h2, h64, BitVec.getLsbD_of_ge b (8 * o' + i - 8 * o) (by omega)]

/-- A byte store changes exactly its byte. -/
theorem byteAt_storeByte (mem : PhysMem) (f : Nat) (o o' : Nat) (b : BitVec 8) :
    byteAt (storeByte mem f o b f) o' = if o' = o then b else byteAt (mem f) o' := by
  unfold byteAt storeByte
  by_cases hw : o' / 8 = o / 8
  · rw [hw, Radix.put_same, byte_putByte _ b (Nat.mod_lt _ (by omega)) (Nat.mod_lt _ (by omega))]
    by_cases ho : o' = o
    · simp [ho]
    · have hm : o' % 8 ≠ o % 8 := by omega
      simp [ho, hm]
  · have ho : o' ≠ o := by
      rintro rfl
      exact hw rfl
    rw [Radix.put_other _ _ (fun h => hw h.2), if_neg ho]

theorem storeByte_other (mem : PhysMem) {f g : Nat} (o : Nat) (b : BitVec 8) (h : g ≠ f) :
    storeByte mem f o b g = mem g :=
  Radix.put_table mem _ _ h

end Isunux
