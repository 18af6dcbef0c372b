import CrustyOs.Kernel.Boot
import CrustyOs.Lib.Bytes

/-! The framebuffer console of `src/writers/framebuffer.rs`. -/
namespace CrustyOs.Writers
open Lib

/-- Why a console operation does not return: arithmetic that leaves its word, a shift by the
whole word, a copy between ranges that overlap, or a pointer that is null or not aligned for
the access, with the memory as it then stands. -/
inductive Fault where
  | addOverflow
  | subtractOverflow
  | mulOverflow
  | shlOverflow
  | overlap
  | pointer (m : Bytes)

def add32 (a b : Nat) : Except Fault Nat := if a + b < 2 ^ 32 then .ok (a + b) else .error .addOverflow
def mul32 (a b : Nat) : Except Fault Nat := if a * b < 2 ^ 32 then .ok (a * b) else .error .mulOverflow
def sub32 (a b : Nat) : Except Fault Nat := if b ≤ a then .ok (a - b) else .error .subtractOverflow
def add64 (a b : Nat) : Except Fault Nat := if a + b < 2 ^ 64 then .ok (a + b) else .error .addOverflow

section Checked
variable {a b : Nat}

theorem add32_ok (h : a + b < 2 ^ 32) : add32 a b = .ok (a + b) := if_pos h
theorem mul32_ok (h : a * b < 2 ^ 32) : mul32 a b = .ok (a * b) := if_pos h
theorem sub32_ok (h : b ≤ a) : sub32 a b = .ok (a - b) := if_pos h
theorem add64_ok (h : a + b < 2 ^ 64) : add64 a b = .ok (a + b) := if_pos h

end Checked

def shl32 (v : UInt32) (k : UInt8) : Except Fault UInt32 :=
  if k < 32 then .ok (v <<< k.toUInt32) else .error .shlOverflow

/-! Accesses through raw pointers, with the checks of a build with debug assertions. -/

def writeVolatile (m : Bytes) (dst : Nat) (v : UInt32) : Except Fault Bytes :=
  if dst ≠ 0 ∧ 4 ∣ dst then .ok (m.store32 dst v) else .error (.pointer m)

def writeBytes (m : Bytes) (dst : Nat) (v : UInt8) (n : Nat) : Except Fault Bytes :=
  if dst ≠ 0 ∨ n = 0 then .ok (m.fill dst v n) else .error (.pointer m)

def copyNonoverlapping (m : Bytes) (src dst n : Nat) : Except Fault Bytes :=
  if (src ≠ 0 ∧ dst ≠ 0) ∨ n = 0 then
    if src + n ≤ dst ∨ dst + n ≤ src then .ok (m.copy src dst n) else .error .overlap
  else .error (.pointer m)

/-- The IBM PC font, eight rows a character, the leftmost pixel in the lowest bit. -/
def font8x8 : Vector (Vector UInt8 8) 128 := #v[
  #v[0x00, 0x00, 0x00, 0x00, 0x00, 0x00, 0x00, 0x00],
  #v[0x00, 0x00, 0x00, 0x00, 0x00, 0x00, 0x00, 0x00],
  #v[0x00, 0x00, 0x00, 0x00, 0x00, 0x00, 0x00, 0x00],
  #v[0x00, 0x00, 0x00, 0x00, 0x00, 0x00, 0x00, 0x00],
  #v[0x00, 0x00, 0x00, 0x00, 0x00, 0x00, 0x00, 0x00],
  #v[0x00, 0x00, 0x00, 0x00, 0x00, 0x00, 0x00, 0x00],
  #v[0x00, 0x00, 0x00, 0x00, 0x00, 0x00, 0x00, 0x00],
  #v[0x00, 0x00, 0x00, 0x00, 0x00, 0x00, 0x00, 0x00],
  #v[0x00, 0x00, 0x00, 0x00, 0x00, 0x00, 0x00, 0x00],
  #v[0x00, 0x00, 0x00, 0x00, 0x00, 0x00, 0x00, 0x00],
  #v[0x00, 0x00, 0x00, 0x00, 0x00, 0x00, 0x00, 0x00],
  #v[0x00, 0x00, 0x00, 0x00, 0x00, 0x00, 0x00, 0x00],
  #v[0x00, 0x00, 0x00, 0x00, 0x00, 0x00, 0x00, 0x00],
  #v[0x00, 0x00, 0x00, 0x00, 0x00, 0x00, 0x00, 0x00],
  #v[0x00, 0x00, 0x00, 0x00, 0x00, 0x00, 0x00, 0x00],
  #v[0x00, 0x00, 0x00, 0x00, 0x00, 0x00, 0x00, 0x00],
  #v[0x00, 0x00, 0x00, 0x00, 0x00, 0x00, 0x00, 0x00],
  #v[0x00, 0x00, 0x00, 0x00, 0x00, 0x00, 0x00, 0x00],
  #v[0x00, 0x00, 0x00, 0x00, 0x00, 0x00, 0x00, 0x00],
  #v[0x00, 0x00, 0x00, 0x00, 0x00, 0x00, 0x00, 0x00],
  #v[0x00, 0x00, 0x00, 0x00, 0x00, 0x00, 0x00, 0x00],
  #v[0x00, 0x00, 0x00, 0x00, 0x00, 0x00, 0x00, 0x00],
  #v[0x00, 0x00, 0x00, 0x00, 0x00, 0x00, 0x00, 0x00],
  #v[0x00, 0x00, 0x00, 0x00, 0x00, 0x00, 0x00, 0x00],
  #v[0x00, 0x00, 0x00, 0x00, 0x00, 0x00, 0x00, 0x00],
  #v[0x00, 0x00, 0x00, 0x00, 0x00, 0x00, 0x00, 0x00],
  #v[0x00, 0x00, 0x00, 0x00, 0x00, 0x00, 0x00, 0x00],
  #v[0x00, 0x00, 0x00, 0x00, 0x00, 0x00, 0x00, 0x00],
  #v[0x00, 0x00, 0x00, 0x00, 0x00, 0x00, 0x00, 0x00],
  #v[0x00, 0x00, 0x00, 0x00, 0x00, 0x00, 0x00, 0x00],
  #v[0x00, 0x00, 0x00, 0x00, 0x00, 0x00, 0x00, 0x00],
  #v[0x00, 0x00, 0x00, 0x00, 0x00, 0x00, 0x00, 0x00],
  -- from 0x20 on
  #v[0x00, 0x00, 0x00, 0x00, 0x00, 0x00, 0x00, 0x00],
  #v[0x18, 0x3C, 0x3C, 0x18, 0x18, 0x00, 0x18, 0x00],
  #v[0x36, 0x36, 0x00, 0x00, 0x00, 0x00, 0x00, 0x00],
  #v[0x36, 0x36, 0x7F, 0x36, 0x7F, 0x36, 0x36, 0x00],
  #v[0x0C, 0x3E, 0x03, 0x1E, 0x30, 0x1F, 0x0C, 0x00],
  #v[0x00, 0x63, 0x33, 0x18, 0x0C, 0x66, 0x63, 0x00],
  #v[0x1C, 0x36, 0x1C, 0x6E, 0x3B, 0x33, 0x6E, 0x00],
  #v[0x06, 0x06, 0x03, 0x00, 0x00, 0x00, 0x00, 0x00],
  #v[0x18, 0x0C, 0x06, 0x06, 0x06, 0x0C, 0x18, 0x00],
  #v[0x06, 0x0C, 0x18, 0x18, 0x18, 0x0C, 0x06, 0x00],
  #v[0x00, 0x66, 0x3C, 0xFF, 0x3C, 0x66, 0x00, 0x00],
  #v[0x00, 0x0C, 0x0C, 0x3F, 0x0C, 0x0C, 0x00, 0x00],
  #v[0x00, 0x00, 0x00, 0x00, 0x00, 0x0C, 0x0C, 0x06],
  #v[0x00, 0x00, 0x00, 0x3F, 0x00, 0x00, 0x00, 0x00],
  #v[0x00, 0x00, 0x00, 0x00, 0x00, 0x0C, 0x0C, 0x00],
  #v[0x60, 0x30, 0x18, 0x0C, 0x06, 0x03, 0x01, 0x00],
  -- from 0x30 on
  #v[0x3E, 0x63, 0x73, 0x7B, 0x6F, 0x67, 0x3E, 0x00],
  #v[0x0C, 0x0E, 0x0C, 0x0C, 0x0C, 0x0C, 0x3F, 0x00],
  #v[0x1E, 0x33, 0x30, 0x1C, 0x06, 0x33, 0x3F, 0x00],
  #v[0x1E, 0x33, 0x30, 0x1C, 0x30, 0x33, 0x1E, 0x00],
  #v[0x38, 0x3C, 0x36, 0x33, 0x7F, 0x30, 0x78, 0x00],
  #v[0x3F, 0x03, 0x1F, 0x30, 0x30, 0x33, 0x1E, 0x00],
  #v[0x1C, 0x06, 0x03, 0x1F, 0x33, 0x33, 0x1E, 0x00],
  #v[0x3F, 0x33, 0x30, 0x18, 0x0C, 0x0C, 0x0C, 0x00],
  #v[0x1E, 0x33, 0x33, 0x1E, 0x33, 0x33, 0x1E, 0x00],
  #v[0x1E, 0x33, 0x33, 0x3E, 0x30, 0x18, 0x0E, 0x00],
  #v[0x00, 0x0C, 0x0C, 0x00, 0x00, 0x0C, 0x0C, 0x00],
  #v[0x00, 0x0C, 0x0C, 0x00, 0x00, 0x0C, 0x0C, 0x06],
  #v[0x18, 0x0C, 0x06, 0x03, 0x06, 0x0C, 0x18, 0x00],
  #v[0x00, 0x00, 0x3F, 0x00, 0x00, 0x3F, 0x00, 0x00],
  #v[0x06, 0x0C, 0x18, 0x30, 0x18, 0x0C, 0x06, 0x00],
  #v[0x1E, 0x33, 0x30, 0x18, 0x0C, 0x00, 0x0C, 0x00],
  -- from 0x40 on
  #v[0x3E, 0x63, 0x7B, 0x7B, 0x7B, 0x03, 0x1E, 0x00],
  #v[0x0C, 0x1E, 0x33, 0x33, 0x3F, 0x33, 0x33, 0x00],
  #v[0x3F, 0x66, 0x66, 0x3E, 0x66, 0x66, 0x3F, 0x00],
  #v[0x3C, 0x66, 0x03, 0x03, 0x03, 0x66, 0x3C, 0x00],
  #v[0x1F, 0x36, 0x66, 0x66, 0x66, 0x36, 0x1F, 0x00],
  #v[0x7F, 0x46, 0x16, 0x1E, 0x16, 0x46, 0x7F, 0x00],
  #v[0x7F, 0x46, 0x16, 0x1E, 0x16, 0x06, 0x0F, 0x00],
  #v[0x3C, 0x66, 0x03, 0x03, 0x73, 0x66, 0x7C, 0x00],
  #v[0x33, 0x33, 0x33, 0x3F, 0x33, 0x33, 0x33, 0x00],
  #v[0x1E, 0x0C, 0x0C, 0x0C, 0x0C, 0x0C, 0x1E, 0x00],
  #v[0x78, 0x30, 0x30, 0x30, 0x33, 0x33, 0x1E, 0x00],
  #v[0x67, 0x66, 0x36, 0x1E, 0x36, 0x66, 0x67, 0x00],
  #v[0x0F, 0x06, 0x06, 0x06, 0x46, 0x66, 0x7F, 0x00],
  #v[0x63, 0x77, 0x7F, 0x7F, 0x6B, 0x63, 0x63, 0x00],
  #v[0x63, 0x67, 0x6F, 0x7B, 0x73, 0x63, 0x63, 0x00],
  #v[0x1C, 0x36, 0x63, 0x63, 0x63, 0x36, 0x1C, 0x00],
  -- from 0x50 on
  #v[0x3F, 0x66, 0x66, 0x3E, 0x06, 0x06, 0x0F, 0x00],
  #v[0x1E, 0x33, 0x33, 0x33, 0x3B, 0x1E, 0x38, 0x00],
  #v[0x3F, 0x66, 0x66, 0x3E, 0x36, 0x66, 0x67, 0x00],
  #v[0x1E, 0x33, 0x07, 0x0E, 0x38, 0x33, 0x1E, 0x00],
  #v[0x3F, 0x2D, 0x0C, 0x0C, 0x0C, 0x0C, 0x1E, 0x00],
  #v[0x33, 0x33, 0x33, 0x33, 0x33, 0x33, 0x3F, 0x00],
  #v[0x33, 0x33, 0x33, 0x33, 0x33, 0x1E, 0x0C, 0x00],
  #v[0x63, 0x63, 0x63, 0x6B, 0x7F, 0x77, 0x63, 0x00],
  #v[0x63, 0x63, 0x36, 0x1C, 0x1C, 0x36, 0x63, 0x00],
  #v[0x33, 0x33, 0x33, 0x1E, 0x0C, 0x0C, 0x1E, 0x00],
  #v[0x7F, 0x63, 0x31, 0x18, 0x4C, 0x66, 0x7F, 0x00],
  #v[0x1E, 0x06, 0x06, 0x06, 0x06, 0x06, 0x1E, 0x00],
  #v[0x03, 0x06, 0x0C, 0x18, 0x30, 0x60, 0x40, 0x00],
  #v[0x1E, 0x18, 0x18, 0x18, 0x18, 0x18, 0x1E, 0x00],
  #v[0x08, 0x1C, 0x36, 0x63, 0x00, 0x00, 0x00, 0x00],
  #v[0x00, 0x00, 0x00, 0x00, 0x00, 0x00, 0x00, 0xFF],
  -- from 0x60 on
  #v[0x0C, 0x0C, 0x18, 0x00, 0x00, 0x00, 0x00, 0x00],
  #v[0x00, 0x00, 0x1E, 0x30, 0x3E, 0x33, 0x6E, 0x00],
  #v[0x07, 0x06, 0x06, 0x3E, 0x66, 0x66, 0x3B, 0x00],
  #v[0x00, 0x00, 0x1E, 0x33, 0x03, 0x33, 0x1E, 0x00],
  #v[0x38, 0x30, 0x30, 0x3E, 0x33, 0x33, 0x6E, 0x00],
  #v[0x00, 0x00, 0x1E, 0x33, 0x3F, 0x03, 0x1E, 0x00],
  #v[0x1C, 0x36, 0x06, 0x0F, 0x06, 0x06, 0x0F, 0x00],
  #v[0x00, 0x00, 0x6E, 0x33, 0x33, 0x3E, 0x30, 0x1F],
  #v[0x07, 0x06, 0x36, 0x6E, 0x66, 0x66, 0x67, 0x00],
  #v[0x0C, 0x00, 0x0E, 0x0C, 0x0C, 0x0C, 0x1E, 0x00],
  #v[0x30, 0x00, 0x30, 0x30, 0x30, 0x33, 0x33, 0x1E],
  #v[0x07, 0x06, 0x66, 0x36, 0x1E, 0x36, 0x67, 0x00],
  #v[0x0E, 0x0C, 0x0C, 0x0C, 0x0C, 0x0C, 0x1E, 0x00],
  #v[0x00, 0x00, 0x33, 0x7F, 0x7F, 0x6B, 0x63, 0x00],
  #v[0x00, 0x00, 0x1F, 0x33, 0x33, 0x33, 0x33, 0x00],
  #v[0x00, 0x00, 0x1E, 0x33, 0x33, 0x33, 0x1E, 0x00],
  -- from 0x70 on
  #v[0x00, 0x00, 0x3B, 0x66, 0x66, 0x3E, 0x06, 0x0F],
  #v[0x00, 0x00, 0x6E, 0x33, 0x33, 0x3E, 0x30, 0x78],
  #v[0x00, 0x00, 0x3B, 0x6E, 0x66, 0x06, 0x0F, 0x00],
  #v[0x00, 0x00, 0x3E, 0x03, 0x1E, 0x30, 0x1F, 0x00],
  #v[0x08, 0x0C, 0x3E, 0x0C, 0x0C, 0x2C, 0x18, 0x00],
  #v[0x00, 0x00, 0x33, 0x33, 0x33, 0x33, 0x6E, 0x00],
  #v[0x00, 0x00, 0x33, 0x33, 0x33, 0x1E, 0x0C, 0x00],
  #v[0x00, 0x00, 0x63, 0x6B, 0x7F, 0x7F, 0x36, 0x00],
  #v[0x00, 0x00, 0x63, 0x36, 0x1C, 0x36, 0x63, 0x00],
  #v[0x00, 0x00, 0x33, 0x33, 0x33, 0x3E, 0x30, 0x1F],
  #v[0x00, 0x00, 0x3F, 0x19, 0x0C, 0x26, 0x3F, 0x00],
  #v[0x38, 0x0C, 0x0C, 0x07, 0x0C, 0x0C, 0x38, 0x00],
  #v[0x18, 0x18, 0x18, 0x00, 0x18, 0x18, 0x18, 0x00],
  #v[0x07, 0x0C, 0x0C, 0x38, 0x0C, 0x0C, 0x07, 0x00],
  #v[0x6E, 0x3B, 0x00, 0x00, 0x00, 0x00, 0x00, 0x00],
  #v[0x00, 0x00, 0x00, 0x00, 0x00, 0x00, 0x00, 0x00]
]

def charW : Nat := 8
def charH : Nat := 16

/-- The geometry that the console reads, beside the window that the boot maps. -/
structure FramebufferInfo extends Kernel.FramebufferInfo where
  width : Nat
  height : Nat
  pitch : Nat
  bitsPerPixel : Nat

structure FbWriter where
  addr : Nat
  width : Nat
  height : Nat
  pitch : Nat
  bpp : Nat
  rShl : UInt8
  gShl : UInt8
  bShl : UInt8
  col : Nat
  row : Nat
  cols : Nat
  rows : Nat
  deriving DecidableEq, Repr

namespace FbWriter

def glyph (c : UInt8) : Vector UInt8 8 :=
  have low : (c &&& 0x7F).toNat < 128 := by
    have le : (c &&& 0x7F).toNat ≤ 127 := by
      rw [UInt8.toNat_and]
      exact Nat.and_le_right
    omega
  font8x8[(c &&& 0x7F).toNat]

variable (w : FbWriter)

def makePixel (r g b : UInt8) : Except Fault UInt32 := do
  let r ← shl32 r.toUInt32 w.rShl
  let g ← shl32 g.toUInt32 w.gShl
  let b ← shl32 b.toUInt32 w.bShl
  return r ||| g ||| b

def putPixel (m : Bytes) (x y : Nat) (color : UInt32) : Except Fault Bytes := do
  let down ← mul32 y w.pitch
  let right ← mul32 x w.bpp
  let offset ← add32 down right
  let target ← add64 w.addr offset
  writeVolatile m target color

def drawDot (fg bg : UInt32) (byte : UInt8) (x0 py gx : Nat) (m : Bytes) : Except Fault Bytes := do
  let color := if (byte >>> UInt8.ofNat gx) &&& 1 ≠ 0 then fg else bg
  let px ← add32 x0 gx
  let m ← w.putPixel m px py color
  let py ← add32 py 1
  w.putPixel m px py color

def drawFontRow (fg bg : UInt32) (rows : Vector UInt8 8) (x0 y0 gy : Nat) (m : Bytes) :
    Except Fault Bytes := do
  let double ← mul32 gy 2
  let py ← add32 y0 double
  forRange (w.drawDot fg bg (rows[gy]?.getD 0) x0 py) 8 m

def drawChar (m : Bytes) (c : UInt8) (col row : Nat) : Except Fault Bytes := do
  let x0 ← mul32 col charW
  let y0 ← mul32 row charH
  let fg ← w.makePixel 255 255 0
  let bg ← w.makePixel 0 0 0
  forRange (w.drawFontRow fg bg (glyph c) x0 y0) 8 m

def clearRow (m : Bytes) (row : Nat) : Except Fault Bytes := do
  let y0 ← mul32 row charH
  let offset ← mul32 y0 w.pitch
  let target ← add64 w.addr offset
  let size ← mul32 charH w.pitch
  writeBytes m target 0 size

def moveRow (i : Nat) (m : Bytes) : Except Fault Bytes := do
  let row := i + 1
  let down ← mul32 row charH
  let offset ← mul32 down w.pitch
  let src ← add64 w.addr offset
  let above ← sub32 row 1
  let down ← mul32 above charH
  let offset ← mul32 down w.pitch
  let dst ← add64 w.addr offset
  let size ← mul32 charH w.pitch
  copyNonoverlapping m src dst size

def scrollUp (m : Bytes) : Except Fault Bytes := do
  let m ← forRange w.moveRow (w.rows - 1) m
  let last ← sub32 w.rows 1
  w.clearRow m last

def newline (m : Bytes) : Except Fault (FbWriter × Bytes) := do
  let row ← add32 w.row 1
  if row ≥ w.rows then
    let m ← w.scrollUp m
    let row ← sub32 w.rows 1
    return ({ w with col := 0, row }, m)
  else return ({ w with col := 0, row }, m)

/-- The deferred wrap calls `write_byte` again, on a line feed. -/
def writeByte (m : Bytes) (byte : UInt8) : Except Fault (FbWriter × Bytes) :=
  if byte = 0x0A then w.newline m
  else do
    let (w, m) ← if w.col ≥ w.cols then w.newline m else .ok (w, m)
    let m ← w.drawChar m byte w.col w.row
    let col ← add32 w.col 1
    return ({ w with col }, m)

def writeStr (w : FbWriter) (m : Bytes) : List UInt8 → Except Fault (FbWriter × Bytes)
  | [] => .ok (w, m)
  | b :: s => do
    let (w, m) ← w.writeByte m (if 0x20 ≤ b ∧ b ≤ 0x7E ∨ b = 0x0A then b else 0x3F)
    writeStr w m s

def writeAll (w : FbWriter) (m : Bytes) : List (List UInt8) → Except Fault (FbWriter × Bytes)
  | [] => .ok (w, m)
  | s :: rest => do
    let (w, m) ← w.writeStr m s
    writeAll w m rest

end FbWriter

def initFromInfo (info : FramebufferInfo) (writer : Option FbWriter) (m : Bytes) :
    Except Fault (Option FbWriter × Bytes) :=
  if info.bitsPerPixel ≠ 32 then .ok (writer, m)
  else do
    let size ← mul32 info.height info.pitch
    let m ← writeBytes m info.virtAddr 0 size
    return (some {
      addr := info.virtAddr
      width := info.width
      height := info.height
      pitch := info.pitch
      bpp := 4
      rShl := 16
      gShl := 8
      bShl := 0
      col := 0
      row := 0
      cols := info.width / charW
      rows := info.height / charH }, m)

end CrustyOs.Writers
