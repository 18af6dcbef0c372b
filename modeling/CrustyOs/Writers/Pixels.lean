import CrustyOs.Writers.Framebuffer

/-! What the drawing operations of the console do to its pixels. -/
namespace CrustyOs.Writers.FbWriter
open Lib

variable {w : FbWriter} {m m₁ m₂ : Bytes} {x y x' y' i row col : Nat} {color : UInt32}

/-- A 32-bit framebuffer below 4 GiB with room for a character, mapped at an address where
the sums stay in the word, and not at null. -/
structure Fits (w : FbWriter) : Prop where
  bpp : w.bpp = 4
  shifts : w.rShl = 16 ∧ w.gShl = 8 ∧ w.bShl = 0
  cells : w.cols * 8 ≤ w.width ∧ w.rows * 16 ≤ w.height
  some : 0 < w.cols ∧ 0 < w.rows
  pitch : 4 * w.width ≤ w.pitch
  area : w.height * w.pitch < 2 ^ 32
  window : w.addr + w.height * w.pitch ≤ 2 ^ 64
  mapped : w.addr ≠ 0

def pixelAt (w : FbWriter) (x y : Nat) : Nat := w.addr + (y * w.pitch + x * 4)

def pixel (w : FbWriter) (m : Bytes) (x y : Nat) : UInt32 := m.load32 (w.pixelAt x y)

def Within (w : FbWriter) (m m' : Bytes) : Prop :=
  Bytes.Confined w.addr (w.addr + w.height * w.pitch) m m'

def Aligned (w : FbWriter) : Prop := 4 ∣ w.addr ∧ 4 ∣ w.pitch

def Stops (w : FbWriter) (m : Bytes) (e : Fault) : Prop :=
  ∃ m', e = .pointer m' ∧ Within w m m' ∧ ¬ Aligned w

theorem Stops.earlier {e : Fault} (within : Within w m m₁) (stops : Stops w m₁ e) : Stops w m e := by
  obtain ⟨m', rfl, later, crooked⟩ := stops
  exact ⟨m', rfl, within.trans later, crooked⟩

/-! The layout of the pixels. -/

theorem line_below (w : FbWriter) (above : y < y') : y * w.pitch + w.pitch ≤ y' * w.pitch := by
  have step := Nat.mul_le_mul_right w.pitch above
  rwa [Nat.succ_mul] at step

theorem Fits.sizes (fits : Fits w) : 32 ≤ w.pitch ∧ w.width < 2 ^ 32 ∧ w.height < 2 ^ 32 := by
  obtain ⟨wide, tall⟩ := fits.cells
  obtain ⟨cols, rows⟩ := fits.some
  have pitch := fits.pitch
  have area := fits.area
  have line := line_below w (show 0 < w.height by omega)
  have lines : w.height * 1 ≤ w.height * w.pitch := Nat.mul_le_mul_left _ (by omega)
  omega

theorem pixelAt_apart (fits : Fits w) (hx : x < w.width) (hx' : x' < w.width) (ne : ¬ (x' = x ∧ y' = y)) :
    w.pixelAt x y + 4 ≤ w.pixelAt x' y' ∨ w.pixelAt x' y' + 4 ≤ w.pixelAt x y := by
  have pitch := fits.pitch
  unfold pixelAt
  cases Nat.lt_trichotomy y y' with
  | inl above =>
    have line := line_below w above
    omega
  | inr rest =>
    cases rest with
    | inl same =>
      rw [same]
      omega
    | inr below =>
      have line := line_below w below
      omega

theorem pixel_store (fits : Fits w) (hx : x < w.width) (hx' : x' < w.width) :
    w.pixel (m.store32 (w.pixelAt x y) color) x' y' =
      if x' = x ∧ y' = y then color else w.pixel m x' y' := by
  split
  · next same =>
    rw [same.1, same.2]
    exact Bytes.load32_store32_same ..
  · next ne => exact Bytes.load32_store32_apart m color (pixelAt_apart fits hx hx' ne)

/-! Painting. -/

/-- The pixels of `P` become those of the picture `f`; the others stay. -/
structure Paints (w : FbWriter) (f : Nat → Nat → UInt32) (P : Nat → Nat → Prop) (m m' : Bytes) : Prop where
  within : Within w m m'
  inside : ∀ x y, x < w.width → P x y → w.pixel m' x y = f x y
  outside : ∀ x y, x < w.width → ¬ P x y → w.pixel m' x y = w.pixel m x y

namespace Paints

variable {f : Nat → Nat → UInt32} {P Q : Nat → Nat → Prop}

theorem trans (first : Paints w f P m m₁) (second : Paints w f Q m₁ m₂) :
    Paints w f (fun x y => P x y ∨ Q x y) m m₂ where
  within := first.within.trans second.within
  inside x y hx painted := by
    by_cases late : Q x y
    · exact second.inside x y hx late
    · rw [second.outside x y hx late]
      exact first.inside x y hx (painted.resolve_right late)
  outside x y hx blank := by
    rw [second.outside x y hx fun late => blank (.inr late)]
    exact first.outside x y hx fun early => blank (.inl early)

theorem mono (paints : Paints w f P m m₁) (same : ∀ x y, Q x y ↔ P x y) : Paints w f Q m m₁ where
  within := paints.within
  inside x y hx painted := paints.inside x y hx ((same x y).mp painted)
  outside x y hx blank := paints.outside x y hx fun painted => blank ((same x y).mpr painted)

theorem forRange {body : Nat → Bytes → Except Fault Bytes} {Q : Nat → Nat → Nat → Prop} (n : Nat) (m : Bytes)
    (round : ∀ i < n, ∀ m, Ends (body i m) (Stops w m) (Paints w f (Q i) m)) :
    Ends (forRange body n m) (Stops w m) (Paints w f (fun x y => ∃ i < n, Q i x y) m) := by
  refine forRange_spec (I := fun n m' => Paints w f (fun x y => ∃ i < n, Q i x y) m m') n ?_ ?_
  · exact ⟨Bytes.Confined.refl .., fun _ _ _ ⟨i, below, _⟩ => absurd below (Nat.not_lt_zero i), fun _ _ _ _ => rfl⟩
  · intro i hi m₁ sofar
    refine (round i hi m₁).mono (fun e => Stops.earlier sofar.within) fun m₂ paints => ?_
    refine (sofar.trans paints).mono fun x y => ?_
    constructor
    · rintro ⟨j, hj, painted⟩
      cases Nat.lt_succ_iff_lt_or_eq.mp hj with
      | inl earlier => exact .inl ⟨j, earlier, painted⟩
      | inr now => exact .inr (now ▸ painted)
    · rintro (⟨j, hj, painted⟩ | painted)
      · exact ⟨j, Nat.lt_succ_of_lt hj, painted⟩
      · exact ⟨i, Nat.lt_succ_self i, painted⟩

end Paints

theorem pixelAt_aligned (aligned : Aligned w) : 4 ∣ w.pixelAt x y := by
  obtain ⟨addr, pitch⟩ := aligned
  exact Nat.dvd_add addr (Nat.dvd_add (Dvd.dvd.mul_left pitch y) (Nat.dvd_mul_left 4 x))

theorem putPixel_spec {f : Nat → Nat → UInt32} (fits : Fits w) (m : Bytes) (hx : x < w.width)
    (hy : y < w.height) (shade : f x y = color) : Ends (w.putPixel m x y color) (Stops w m)
      (Paints w f (fun x' y' => x' = x ∧ y' = y) m) := by
  have pitch := fits.pitch
  have area := fits.area
  have window := fits.window
  have mapped := fits.mapped
  have line := line_below w hy
  have target : w.putPixel m x y color = writeVolatile m (w.pixelAt x y) color := by
    unfold putPixel
    rw [fits.bpp, bind_of_ok (mul32_ok (by omega)), bind_of_ok (mul32_ok (by omega)),
      bind_of_ok (add32_ok (by omega)), bind_of_ok (add64_ok (by omega))]
    rfl
  rw [target]
  by_cases aligned : 4 ∣ w.pixelAt x y
  · have there : w.pixelAt x y ≠ 0 := by
      unfold pixelAt
      omega
    refine .returns (if_pos ⟨there, aligned⟩) ⟨?_, fun x' y' hx' here => ?_, fun x' y' hx' other => ?_⟩
    · exact Bytes.Confined.store32 m color (by unfold pixelAt; omega)
    · rw [pixel_store fits hx hx', if_pos here, here.1, here.2, shade]
    · rw [pixel_store fits hx hx', if_neg other]
  · have refused : ¬ (w.pixelAt x y ≠ 0 ∧ 4 ∣ w.pixelAt x y) := fun accepted => aligned accepted.2
    exact .inl ⟨_, if_neg refused, m, rfl, Bytes.Confined.refl .., fun whole => aligned (pixelAt_aligned whole)⟩

/-! Characters. -/

def lit (c : UInt8) (gx gy : Nat) : Bool := ((glyph c)[gy]?.getD 0).toNat.testBit gx

/-- A pixel of a character cell: yellow on black, and a blank cell all black. -/
def cellPixel (c : Option UInt8) (gx gy : Nat) : UInt32 :=
  match c with
  | none => 0
  | some c => if lit c gx (gy / 2) then 0xFFFF00 else 0

theorem bit_set_iff {byte : UInt8} {gx : Nat} (low : gx < 8) :
    (byte >>> UInt8.ofNat gx) &&& 1 ≠ 0 ↔ byte.toNat.testBit gx = true := by
  have shift : (UInt8.ofNat gx).toNat % 8 = gx := by
    rw [UInt8.toNat_ofNat']
    omega
  rw [Ne, ← UInt8.toNat_inj, UInt8.toNat_and, UInt8.toNat_shiftRight, shift, Nat.and_comm]
  simp [Nat.testBit]

def charAt (c : UInt8) (x0 y0 x y : Nat) : UInt32 := cellPixel (some c) (x - x0) (y - y0)

theorem makePixel_spec (fits : Fits w) :
    w.makePixel 255 255 0 = .ok 0xFFFF00 ∧ w.makePixel 0 0 0 = .ok 0 := by
  obtain ⟨r, g, b⟩ := fits.shifts
  unfold makePixel
  rw [r, g, b]
  exact ⟨rfl, rfl⟩

theorem drawDot_spec {c : UInt8} {x0 y0 gx gy : Nat} (fits : Fits w) (low : gx < 8) (m : Bytes)
    (hx : x0 + 8 ≤ w.width) (hy : y0 + gy * 2 + 1 < w.height) :
    Ends (w.drawDot 0xFFFF00 0 ((glyph c)[gy]?.getD 0) x0 (y0 + gy * 2) gx m) (Stops w m)
      (Paints w (charAt c x0 y0) (fun x y => x = x0 + gx ∧ (y - y0) / 2 = gy ∧ y0 ≤ y) m) := by
  have sizes := fits.sizes
  have shade : ∀ y, (y - y0) / 2 = gy → charAt c x0 y0 (x0 + gx) y =
      if ((glyph c)[gy]?.getD 0 >>> UInt8.ofNat gx) &&& 1 ≠ 0 then 0xFFFF00 else 0 := by
    rintro y rfl
    have column : x0 + gx - x0 = gx := by omega
    unfold charAt cellPixel lit
    rw [column]
    exact if_congr (bit_set_iff low).symm rfl rfl
  unfold drawDot
  rw [bind_of_ok (add32_ok (by omega))]
  refine (putPixel_spec fits m (by omega) (by omega) (shade _ (by omega))).bind fun m₁ upper => ?_
  rw [bind_of_ok (add32_ok (by omega))]
  have second := putPixel_spec fits m₁ (x := x0 + gx) (y := y0 + gy * 2 + 1) (by omega) hy (shade _ (by omega))
  exact second.mono (fun e => Stops.earlier upper.within) fun m₂ lower =>
    (upper.trans lower).mono fun x y => by omega

theorem drawFontRow_spec {c : UInt8} {x0 y0 gy : Nat} (fits : Fits w) (m : Bytes) (hx : x0 + 8 ≤ w.width)
    (hy : y0 + gy * 2 + 1 < w.height) : Ends (w.drawFontRow 0xFFFF00 0 (glyph c) x0 y0 gy m) (Stops w m)
      (Paints w (charAt c x0 y0) (fun x y => (x0 ≤ x ∧ x < x0 + 8) ∧ (y - y0) / 2 = gy ∧ y0 ≤ y) m) := by
  have sizes := fits.sizes
  have dots := Paints.forRange 8 m fun _ low m => drawDot_spec (c := c) fits low m hx hy
  unfold drawFontRow
  rw [bind_of_ok (mul32_ok (by omega)), bind_of_ok (add32_ok (by omega))]
  refine dots.mono (fun e stops => stops) fun m' paints => paints.mono fun x y => ?_
  constructor
  · rintro ⟨⟨left, right⟩, here⟩
    exact ⟨x - x0, by omega, by omega, here⟩
  · rintro ⟨gx, low, column, here⟩
    exact ⟨by omega, here⟩

theorem drawChar_spec {c : UInt8} (fits : Fits w) (m : Bytes) (hcol : col < w.cols) (hrow : row < w.rows) :
    Ends (w.drawChar m c col row) (Stops w m)
      (Paints w (charAt c (col * 8) (row * 16)) (fun x y => x / 8 = col ∧ y / 16 = row) m) := by
  have sizes := fits.sizes
  obtain ⟨wide, tall⟩ := fits.cells
  obtain ⟨fg, bg⟩ := makePixel_spec fits
  have round : ∀ gy < 8, ∀ m, Ends (w.drawFontRow 0xFFFF00 0 (glyph c) (col * 8) (row * 16) gy m) (Stops w m)
      (Paints w (charAt c (col * 8) (row * 16)) (fun x y =>
        (col * 8 ≤ x ∧ x < col * 8 + 8) ∧ (y - row * 16) / 2 = gy ∧ row * 16 ≤ y) m) :=
    fun gy low m => drawFontRow_spec fits m (by omega) (by omega)
  unfold drawChar charW charH
  rw [bind_of_ok (mul32_ok (by omega)), bind_of_ok (mul32_ok (by omega)), bind_of_ok fg, bind_of_ok bg]
  refine (Paints.forRange 8 m round).mono (fun e stops => stops) fun m' paints => paints.mono fun x y => ?_
  constructor
  · rintro ⟨rfl, rfl⟩
    exact ⟨(y - y / 16 * 16) / 2, by omega, by omega, rfl, by omega⟩
  · rintro ⟨gy, low, column, here, below⟩
    omega

/-! Rows of text. -/

theorem Fits.textRow (fits : Fits w) (hrow : row < w.rows) :
    row * 16 * w.pitch + 16 * w.pitch ≤ w.height * w.pitch := by
  have tall := fits.cells.2
  rw [← Nat.add_mul]
  exact Nat.mul_le_mul_right _ (by omega)

theorem pixelAt_textRow (fits : Fits w) (hx : x < w.width) :
    (y / 16 = row → w.addr + row * 16 * w.pitch ≤ w.pixelAt x y ∧
      w.pixelAt x y + 4 ≤ w.addr + row * 16 * w.pitch + 16 * w.pitch) ∧
    (y / 16 ≠ row → w.addr + row * 16 * w.pitch + 16 * w.pitch ≤ w.pixelAt x y ∨
      w.pixelAt x y + 4 ≤ w.addr + row * 16 * w.pitch) := by
  have pitch := fits.pitch
  have stop : row * 16 * w.pitch + 16 * w.pitch = (row * 16 + 16) * w.pitch := (Nat.add_mul ..).symm
  have line : ∀ k, y < k → y * w.pitch + w.pitch ≤ k * w.pitch := fun k => line_below w
  have start : ∀ k, k ≤ y → k * w.pitch ≤ y * w.pitch := fun k => Nat.mul_le_mul_right w.pitch
  unfold pixelAt
  constructor
  · intro here
    have first := start (row * 16) (by omega)
    have last := line (row * 16 + 16) (by omega)
    omega
  · intro other
    cases Nat.lt_or_ge y (row * 16) with
    | inl above =>
      have last := line (row * 16) above
      omega
    | inr below =>
      have first := start (row * 16 + 16) (by omega)
      omega

theorem clearRow_spec (fits : Fits w) (m : Bytes) (hrow : row < w.rows) :
    ∃ m', w.clearRow m row = .ok m' ∧ Paints w (fun _ _ => 0) (fun _ y => y / 16 = row) m m' := by
  have sizes := fits.sizes
  have area := fits.area
  have window := fits.window
  have mapped := fits.mapped
  have tall := fits.cells.2
  have inside := fits.textRow hrow
  refine ⟨m.fill (w.addr + row * 16 * w.pitch) 0 (16 * w.pitch), ?_, ?_, fun x y hx here => ?_,
    fun x y hx other => ?_⟩
  · unfold clearRow charH
    rw [bind_of_ok (mul32_ok (by omega)), bind_of_ok (mul32_ok (by omega)), bind_of_ok (add64_ok (by omega)),
      bind_of_ok (mul32_ok (by omega))]
    exact if_pos (.inl (by omega))
  · exact Bytes.Confined.fill m 0 (by omega)
  · exact Bytes.load32_fill_zero m ((pixelAt_textRow fits hx).1 here)
  · exact Bytes.load32_fill_apart m 0 ((pixelAt_textRow fits hx).2 other)

theorem moveRow_spec (fits : Fits w) (m : Bytes) (hi : i + 1 < w.rows) : ∃ m', w.moveRow i m = .ok m' ∧
    Paints w (fun x y => w.pixel m x (y + 16)) (fun _ y => y / 16 = i) m m' := by
  have sizes := fits.sizes
  have area := fits.area
  have window := fits.window
  have mapped := fits.mapped
  have tall := fits.cells.2
  have source := fits.textRow hi
  have target := fits.textRow (show i < w.rows by omega)
  have next : (i + 1) * 16 * w.pitch = i * 16 * w.pitch + 16 * w.pitch := by
    rw [Nat.add_mul, Nat.add_mul, Nat.one_mul]
  refine ⟨m.copy (w.addr + (i + 1) * 16 * w.pitch) (w.addr + i * 16 * w.pitch) (16 * w.pitch), ?_, ?_,
    fun x y hx here => ?_, fun x y hx other => ?_⟩
  · unfold moveRow charH
    have apart : w.addr + (i + 1) * 16 * w.pitch + 16 * w.pitch ≤ w.addr + i * 16 * w.pitch ∨
        w.addr + i * 16 * w.pitch + 16 * w.pitch ≤ w.addr + (i + 1) * 16 * w.pitch := by omega
    rw [bind_of_ok (mul32_ok (by omega)), bind_of_ok (mul32_ok (by omega)), bind_of_ok (add64_ok (by omega)),
      bind_of_ok (sub32_ok (by omega)), Nat.add_sub_cancel, bind_of_ok (mul32_ok (by omega)),
      bind_of_ok (mul32_ok (by omega)), bind_of_ok (add64_ok (by omega)), bind_of_ok (mul32_ok (by omega))]
    exact (if_pos (.inl (by omega))).trans (if_pos apart)
  · exact Bytes.Confined.copy m (by omega) (by omega)
  · have within := (pixelAt_textRow fits hx).1 here
    have moved : w.addr + (i + 1) * 16 * w.pitch + (w.pixelAt x y - (w.addr + i * 16 * w.pitch)) =
        w.pixelAt x (y + 16) := by
      unfold pixelAt at within ⊢
      rw [Nat.add_mul y]
      omega
    exact (Bytes.load32_copy m within).trans (congrArg m.load32 moved)
  · exact Bytes.load32_copy_apart m ((pixelAt_textRow fits hx).2 other)

theorem scrollUp_spec (fits : Fits w) (m : Bytes) : ∃ m', w.scrollUp m = .ok m' ∧ Within w m m' ∧
    ∀ x y, x < w.width → y < w.rows * 16 → w.pixel m' x y =
      if y / 16 + 1 < w.rows then w.pixel m x (y + 16) else 0 := by
  have rows := fits.some.2
  have moving : ∃ m₁, forRange w.moveRow (w.rows - 1) m = .ok m₁ ∧ Within w m m₁ ∧
      ∀ x y, x < w.width → w.pixel m₁ x y =
        if y / 16 < w.rows - 1 then w.pixel m x (y + 16) else w.pixel m x y := by
    refine forRange_ok (I := fun n m' => Within w m m' ∧ ∀ x y, x < w.width → w.pixel m' x y =
      if y / 16 < n then w.pixel m x (y + 16) else w.pixel m x y) _ ?_ ?_
    · exact ⟨Bytes.Confined.refl .., fun _ _ _ => rfl⟩
    · rintro i hi m₁ ⟨within, sofar⟩
      obtain ⟨m₂, run, moved⟩ := moveRow_spec fits m₁ (by omega : i + 1 < w.rows)
      refine ⟨m₂, run, within.trans moved.within, fun x y hx => ?_⟩
      by_cases here : y / 16 = i
      · rw [moved.inside x y hx here, sofar x _ hx, if_neg (by omega), if_pos (by omega)]
      · rw [moved.outside x y hx here, sofar x y hx]
        exact if_congr (by omega) rfl rfl
  obtain ⟨m₁, run, within, moved⟩ := moving
  obtain ⟨m₂, cleared, clear⟩ := clearRow_spec fits m₁ (by omega : w.rows - 1 < w.rows)
  refine ⟨m₂, ?_, within.trans clear.within, fun x y hx hy => ?_⟩
  · unfold scrollUp
    rw [bind_of_ok run, bind_of_ok (sub32_ok rows)]
    exact cleared
  · by_cases last : y / 16 = w.rows - 1
    · rw [clear.inside x y hx last, if_neg (by omega)]
    · rw [clear.outside x y hx last, moved x y hx, if_pos (by omega), if_pos (by omega)]

end CrustyOs.Writers.FbWriter
