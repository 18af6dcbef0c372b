import CrustyOs.Lib.Wrapped
import CrustyOs.Writers.Pixels

/-! The screen of the console is a window on the end of a wrapped text. -/
namespace CrustyOs.Writers
open Lib

def shown (b : UInt8) : UInt8 := if 0x20 ≤ b ∧ b ≤ 0x7E then b else 0x3F

def push (cols : Nat) (t : Wrapped UInt8) (b : UInt8) : Wrapped UInt8 :=
  if b = 0x0A then t.newline else t.put cols (shown b)

def reference (cols : Nat) (bytes : List UInt8) : Wrapped UInt8 := bytes.foldl (push cols) .empty

theorem push_fits {cols : Nat} {t : Wrapped UInt8} {b : UInt8} (pos : 0 < cols) :
    (push cols t b).line.length ≤ cols := by
  unfold push
  split
  · exact Nat.zero_le _
  · exact Wrapped.put_fits pos

theorem shown_ne (b : UInt8) : shown b ≠ 0x0A := by
  unfold shown
  split
  · next visible =>
    rintro rfl
    exact absurd visible.1 (by decide)
  · decide

namespace FbWriter

variable {w : FbWriter} {m : Bytes} {t : Wrapped UInt8} {b c : UInt8}

def following (w : FbWriter) (t : Wrapped UInt8) : FbWriter :=
  { w with col := t.line.length, row := t.cursor w.rows }

/-- The character grid shows the last lines of a text. -/
def Shows (w : FbWriter) (m : Bytes) (t : Wrapped UInt8) : Prop :=
  ∀ x y, x < w.cols * 8 → y < w.rows * 16 →
    w.pixel m x y = cellPixel (t.cell w.rows (y / 16) (x / 8)) (x % 8) (y % 16)

/-- The cursor stands at the end of a text that the grid shows, and since `m` only bytes of the
framebuffer were touched. -/
structure Writes (w : FbWriter) (m : Bytes) (t : Wrapped UInt8) (s : FbWriter × Bytes) : Prop where
  cursor : s.1 = w.following t
  within : Within w m s.2
  shows : Shows w s.2 t

@[simp] theorem following_row : (w.following t).row = t.cursor w.rows := rfl
@[simp] theorem following_col : (w.following t).col = t.line.length := rfl
@[simp] theorem following_rows : (w.following t).rows = w.rows := rfl
@[simp] theorem following_cols : (w.following t).cols = w.cols := rfl
@[simp] theorem following_scrollUp : (w.following t).scrollUp = w.scrollUp := rfl
@[simp] theorem following_drawChar : (w.following t).drawChar = w.drawChar := rfl

theorem newline_spec (fits : Fits w) (shows : Shows w m t) :
    ∃ m', (w.following t).newline m = .ok (w.following t.newline, m') ∧ Within w m m' ∧
      Shows w m' t.newline := by
  have sizes := fits.sizes
  have tall := fits.cells.2
  have rows := fits.some.2
  have cursor := t.cursor_lt rows
  unfold newline
  rw [following_row, following_rows, following_scrollUp, bind_of_ok (add32_ok (by omega))]
  cases Nat.lt_or_ge (t.above.length + 1) w.rows with
  | inl room =>
    have here : t.cursor w.rows = t.above.length := Nat.min_eq_left (by omega)
    have below : t.newline.cursor w.rows = t.above.length + 1 := Nat.min_eq_left (by
      simp only [Wrapped.newline, List.length_cons]
      omega)
    refine ⟨m, ?_, Bytes.Confined.refl .., fun x y hx hy => ?_⟩
    · rw [if_neg (by omega), here]
      unfold following
      rw [below]
      rfl
    · rw [Wrapped.cell_newline_below room]
      exact shows x y hx hy
  | inr full =>
    have here : t.cursor w.rows = w.rows - 1 := Nat.min_eq_right (by omega)
    have last : t.newline.cursor w.rows = w.rows - 1 := Nat.min_eq_right (by
      simp only [Wrapped.newline, List.length_cons]
      omega)
    obtain ⟨m', run, within, moved⟩ := scrollUp_spec fits m
    refine ⟨m', ?_, within, fun x y hx hy => ?_⟩
    · rw [if_pos (by omega), bind_of_ok run, bind_of_ok (sub32_ok rows)]
      unfold following
      rw [last]
      rfl
    · have wide := fits.cells.1
      rw [Wrapped.cell_newline_scroll full rows (by omega), moved x y (by omega) hy]
      split
      · next inside =>
        have above := shows x (y + 16) hx (by omega)
        rw [show (y + 16) / 16 = y / 16 + 1 by omega, Nat.add_mod_right] at above
        exact above
      · rfl

theorem drawChar_shows (fits : Fits w) (shows : Shows w m t) (room : t.line.length < w.cols) (c : UInt8) :
    Ends (w.drawChar m c t.line.length (t.cursor w.rows)) (Stops w m) (fun m' => Within w m m' ∧
      Shows w m' ⟨t.line ++ [c], t.above⟩) := by
  have rows := fits.some.2
  have wide := fits.cells.1
  refine (drawChar_spec (c := c) fits m room (t.cursor_lt rows)).mono (fun e stops => stops) fun m' paints => ?_
  refine ⟨paints.within, fun x y hx hy => ?_⟩
  rw [Wrapped.cell_append rows]
  split
  · next here =>
    have column : x - t.line.length * 8 = x % 8 := by omega
    have line : y - t.cursor w.rows * 16 = y % 16 := by omega
    rw [paints.inside x y (by omega) ⟨here.2, here.1⟩]
    unfold charAt
    rw [column, line]
  · next other =>
    rw [paints.outside x y (by omega) fun here => other ⟨here.2, here.1⟩]
    exact shows x y hx hy

theorem drawNext_spec (fits : Fits w) (shows : Shows w m t) (room : t.line.length < w.cols) (c : UInt8) :
    Ends (do
      let m ← (w.following t).drawChar m c (w.following t).col (w.following t).row
      let col ← add32 (w.following t).col 1
      return ({ w.following t with col }, m)) (Stops w m) (Writes w m ⟨t.line ++ [c], t.above⟩) := by
  have sizes := fits.sizes
  have wide := fits.cells.1
  have next : add32 (w.following t).col 1 = .ok (t.line.length + 1) := add32_ok (by simp only [following_col]; omega)
  refine (drawChar_shows fits shows room c).bind fun m' ⟨within, shows'⟩ => ?_
  refine .returns (bind_of_ok next _) ⟨?_, within, shows'⟩
  unfold following
  rw [List.length_append]
  rfl

theorem writeByte_spec (fits : Fits w) (shows : Shows w m t) (plain : c ≠ 0x0A) :
    Ends ((w.following t).writeByte m c) (Stops w m) (Writes w m (t.put w.cols c)) := by
  unfold writeByte
  rw [if_neg plain]
  cases Nat.lt_or_ge t.line.length w.cols with
  | inl room =>
    have put : t.put w.cols c = ⟨t.line ++ [c], t.above⟩ := if_pos room
    have stay : ¬ (w.following t).col ≥ (w.following t).cols := Nat.not_le_of_lt room
    rw [put, if_neg stay]
    exact drawNext_spec fits shows room c
  | inr full =>
    have put : t.put w.cols c = ⟨t.newline.line ++ [c], t.newline.above⟩ := if_neg (by omega)
    have wrap : (w.following t).col ≥ (w.following t).cols := full
    obtain ⟨m₁, wrapped, within₁, shows₁⟩ := newline_spec fits shows
    rw [put, if_pos wrap, bind_of_ok wrapped]
    refine (drawNext_spec fits shows₁ fits.some.1 c).mono (fun e => Stops.earlier within₁) fun s written => ?_
    exact ⟨written.cursor, within₁.trans written.within, written.shows⟩

def writeNext (s : FbWriter × Bytes) (b : UInt8) : Except Fault (FbWriter × Bytes) :=
  s.1.writeByte s.2 (if 0x20 ≤ b ∧ b ≤ 0x7E ∨ b = 0x0A then b else 0x3F)

theorem writeNext_spec (fits : Fits w) {s : FbWriter × Bytes} (sofar : Writes w m t s) (b : UInt8) :
    Ends (writeNext s b) (Stops w m) (Writes w m (push w.cols t b)) := by
  obtain ⟨w₁, m₁⟩ := s
  obtain ⟨at_end, within, shows⟩ := sofar
  simp only at at_end within shows
  subst at_end
  have written : Ends (writeNext (w.following t, m₁) b) (Stops w m₁) (Writes w m₁ (push w.cols t b)) := by
    unfold push writeNext
    by_cases feed : b = 0x0A
    · obtain ⟨m', run, touched, shows'⟩ := newline_spec fits shows
      rw [if_pos feed, if_pos (Or.inr feed), feed]
      exact .returns run ⟨rfl, touched, shows'⟩
    · have same : (if 0x20 ≤ b ∧ b ≤ 0x7E ∨ b = 0x0A then b else 0x3F) = shown b :=
        if_congr (or_iff_left feed) rfl rfl
      rw [if_neg feed, same]
      exact writeByte_spec fits shows (shown_ne b)
  exact written.mono (fun e => Stops.earlier within) fun s after =>
    ⟨after.cursor, within.trans after.within, after.shows⟩

theorem writeStr_spec (fits : Fits w) (str : List UInt8) : ∀ {t : Wrapped UInt8} {s : FbWriter × Bytes},
    Writes w m t s → Ends (s.1.writeStr s.2 str) (Stops w m) (Writes w m (str.foldl (push w.cols) t)) := by
  induction str with
  | nil => exact fun sofar => .returns rfl sofar
  | cons b str ih => exact fun sofar => (writeNext_spec fits sofar b).bind fun s after => ih after

theorem writeAll_spec (fits : Fits w) (strs : List (List UInt8)) : ∀ {t : Wrapped UInt8} {s : FbWriter × Bytes},
    Writes w m t s →
      Ends (s.1.writeAll s.2 strs) (Stops w m) (Writes w m (strs.flatten.foldl (push w.cols) t)) := by
  induction strs with
  | nil => exact fun sofar => .returns rfl sofar
  | cons str strs ih =>
    intro t s sofar
    rw [List.flatten_cons, List.foldl_append]
    exact (writeStr_spec fits str sofar).bind fun s after => ih after

/-! Byte by byte. -/

def Bytewise (w : FbWriter) (m : Bytes) : FbWriter × Bytes → Prop :=
  Reach writeNext (fun _ _ => True) (w, m)

theorem writeStr_bytewise (str : List UInt8) : ∀ {w₀ w : FbWriter} {m₀ m : Bytes} {s : FbWriter × Bytes},
    Bytewise w₀ m₀ (w, m) → w.writeStr m str = .ok s → Bytewise w₀ m₀ s := by
  induction str with
  | nil =>
    intro w₀ w m₀ m s run done
    obtain rfl := Except.ok.inj done
    exact run
  | cons b str ih =>
    intro w₀ w m₀ m s run done
    obtain ⟨s₁, first, rest⟩ := ok_of_bind done
    exact ih (run.step trivial first) rest

theorem writeAll_bytewise (strs : List (List UInt8)) : ∀ {w₀ w : FbWriter} {m₀ m : Bytes}
    {s : FbWriter × Bytes}, Bytewise w₀ m₀ (w, m) → w.writeAll m strs = .ok s → Bytewise w₀ m₀ s := by
  induction strs with
  | nil =>
    intro w₀ w m₀ m s run done
    obtain rfl := Except.ok.inj done
    exact run
  | cons str strs ih =>
    intro w₀ w m₀ m s run done
    obtain ⟨s₁, first, rest⟩ := ok_of_bind done
    exact ih (writeStr_bytewise str run first) rest

/-- What every byte keeps: the cursor at the end of a text whose line fits the screen, and
nothing touched beside the framebuffer. -/
def Contained (w : FbWriter) (m : Bytes) (s : FbWriter × Bytes) : Prop :=
  ∃ t : Wrapped UInt8, Writes w m t s ∧ t.line.length ≤ w.cols

namespace Contained

variable {s s' : FbWriter × Bytes}

theorem cursor (fits : Fits w) (inside : Contained w m s) : s.1.row < s.1.rows ∧ s.1.col ≤ s.1.cols := by
  obtain ⟨t, written, short⟩ := inside
  rw [written.cursor]
  exact ⟨t.cursor_lt fits.some.2, short⟩

theorem within (inside : Contained w m s) : Within w m s.2 := by
  obtain ⟨t, written, _⟩ := inside
  exact written.within

theorem next (fits : Fits w) (inside : Contained w m s) (b : UInt8) :
    Ends (writeNext s b) (Stops w m) (Contained w m) := by
  obtain ⟨t, written, _⟩ := inside
  exact (writeNext_spec fits written b).mono (fun e stops => stops) fun s' after =>
    ⟨_, after, push_fits fits.some.1⟩

theorem run (fits : Fits w) (start : Contained w m s) (reached : Bytewise s.1 s.2 s') : Contained w m s' := by
  refine Reach.invariant reached start fun s₁ b s₂ inside _ done => ?_
  rcases inside.next fits b with ⟨e, stopped, _⟩ | ⟨s₃, returned, after⟩
  · cases done.symm.trans stopped
  · obtain rfl := Except.ok.inj (done.symm.trans returned)
    exact after

end Contained
end FbWriter

/-! From `init_from_info` on. -/

/-- A 32-bit framebuffer below 4 GiB with room for a character, mapped as the caller of
`init_from_info` has to: its bytes have addresses. -/
structure FramebufferInfo.Supported (info : FramebufferInfo) : Prop where
  bits : info.bitsPerPixel = 32
  room : 8 ≤ info.width ∧ 16 ≤ info.height
  pitch : 4 * info.width ≤ info.pitch
  area : info.height * info.pitch < 2 ^ 32
  window : info.virtAddr + info.height * info.pitch ≤ 2 ^ 64

variable {info : FramebufferInfo}

theorem initFromInfo_null (supported : info.Supported) (writer : Option FbWriter) (m : Bytes)
    (null : info.virtAddr = 0) : initFromInfo info writer m = .error (.pointer m) := by
  obtain ⟨wide, tall⟩ := supported.room
  have pitch := supported.pitch
  have lines := Nat.mul_le_mul tall (show 1 ≤ info.pitch by omega)
  have refused : ¬ (info.virtAddr ≠ 0 ∨ info.height * info.pitch = 0) := by omega
  have stopped : writeBytes m info.virtAddr 0 (info.height * info.pitch) = .error (.pointer m) := if_neg refused
  unfold initFromInfo
  rw [if_neg (not_not.mpr supported.bits), bind_of_ok (mul32_ok supported.area), bind_of_error stopped]

theorem initFromInfo_spec (supported : info.Supported) (mapped : info.virtAddr ≠ 0) (writer : Option FbWriter)
    (m : Bytes) : ∃ w m', initFromInfo info writer m = .ok (some w, m') ∧ w.Fits ∧
      w.cols = info.width / 8 ∧ w.rows = info.height / 16 ∧ w.Writes m .empty (w, m') := by
  obtain ⟨wide, tall⟩ := supported.room
  have pitch := supported.pitch
  have cleared : writeBytes m info.virtAddr 0 (info.height * info.pitch) =
      .ok (m.fill info.virtAddr 0 (info.height * info.pitch)) := if_pos (.inl mapped)
  have run : initFromInfo info writer m = .ok (some {
      addr := info.virtAddr, width := info.width, height := info.height, pitch := info.pitch, bpp := 4
      rShl := 16, gShl := 8, bShl := 0, col := 0, row := 0
      cols := info.width / 8, rows := info.height / 16 },
      m.fill info.virtAddr 0 (info.height * info.pitch)) := by
    unfold initFromInfo
    rw [if_neg (not_not.mpr supported.bits), bind_of_ok (mul32_ok supported.area), bind_of_ok cleared]
    rfl
  refine ⟨_, _, run, ⟨rfl, ⟨rfl, rfl, rfl⟩, ?_, ?_, supported.pitch, supported.area, supported.window, mapped⟩,
    rfl, rfl, ?_, Bytes.Confined.fill m 0 ⟨Nat.le_refl _, Nat.le_refl _⟩, fun x y hx hy => ?_⟩
  · simp only
    omega
  · simp only
    omega
  · simp [FbWriter.following, Wrapped.empty, Wrapped.cursor]
  · simp only at hx hy
    rw [Wrapped.cell_empty]
    have line := Nat.mul_le_mul_right info.pitch (by omega : y + 1 ≤ info.height)
    rw [Nat.succ_mul] at line
    refine Bytes.load32_fill_zero m ?_
    simp only [FbWriter.pixelAt]
    omega

theorem initFromInfo_window {writer : Option FbWriter} {w : FbWriter} {m m' : Bytes}
    (supported : info.Supported) (made : initFromInfo info writer m = .ok (some w, m')) :
    w.addr = info.virtAddr ∧ w.height = info.height ∧ w.pitch = info.pitch := by
  unfold initFromInfo at made
  rw [if_neg (not_not.mpr supported.bits), bind_of_ok (mul32_ok supported.area)] at made
  obtain ⟨m₁, _, made⟩ := ok_of_bind made
  obtain rfl := Option.some.inj (Prod.mk.inj (Except.ok.inj made)).1
  exact ⟨rfl, rfl, rfl⟩

/-- Every pixel is a whole word in memory: the address and the distance of the lines are
multiples of four bytes. -/
def FramebufferInfo.Aligned (info : FramebufferInfo) : Prop := 4 ∣ info.virtAddr ∧ 4 ∣ info.pitch

instance (info : FramebufferInfo) : Decidable info.Aligned := inferInstanceAs (Decidable (_ ∧ _))

/-- After any `write_str` calls the pixels of the character grid render the last `rows`
lines of the text written so far. -/
theorem console_shows_tail (supported : info.Supported) (mapped : info.virtAddr ≠ 0) (aligned : info.Aligned)
    (writer : Option FbWriter) (m : Bytes) :
    ∃ w m₀, initFromInfo info writer m = .ok (some w, m₀) ∧
      w.cols = info.width / 8 ∧ w.rows = info.height / 16 ∧
      ∀ strs : List (List UInt8), ∃ w' m', w.writeAll m₀ strs = .ok (w', m') ∧
        ∀ x y, x < w.cols * 8 → y < w.rows * 16 → w.pixel m' x y =
          FbWriter.cellPixel ((reference w.cols strs.flatten).cell w.rows (y / 16) (x / 8))
            (x % 8) (y % 16) := by
  obtain ⟨w, m₀, made, fits, cols, rows, blank⟩ := initFromInfo_spec supported mapped writer m
  obtain ⟨addr, _, pitch⟩ := initFromInfo_window supported made
  have whole : w.Aligned := ⟨addr ▸ aligned.1, pitch ▸ aligned.2⟩
  refine ⟨w, m₀, made, cols, rows, fun strs => ?_⟩
  have written := FbWriter.writeAll_spec fits strs blank
  obtain ⟨⟨w', m'⟩, run, after⟩ := written.ok fun e ⟨_, _, _, crooked⟩ => crooked whole
  exact ⟨w', m', run, after.shows⟩

/-- Two cells wide and two high, the lines a little longer than the pixels need. -/
def smallInfo : FramebufferInfo where
  virtAddr := 0xFFFF8000FD000000
  physAddr := 0xFD000000
  byteSize := 3200
  width := 17
  height := 40
  pitch := 80
  bitsPerPixel := 32

theorem smallInfo_supported : smallInfo.Supported := by
  constructor <;> decide

theorem console_shows_tail_small : ∃ w m₀, initFromInfo smallInfo none Bytes.blank = .ok (some w, m₀) ∧
    w.cols = smallInfo.width / 8 ∧ w.rows = smallInfo.height / 16 ∧
    ∀ strs : List (List UInt8), ∃ w' m', w.writeAll m₀ strs = .ok (w', m') ∧
      ∀ x y, x < w.cols * 8 → y < w.rows * 16 → w.pixel m' x y =
        FbWriter.cellPixel ((reference w.cols strs.flatten).cell w.rows (y / 16) (x / 8))
          (x % 8) (y % 16) :=
  console_shows_tail smallInfo_supported (by decide) (by decide) none Bytes.blank

/-- One cell, its lines one byte longer than the pixels need. -/
def crookedInfo : FramebufferInfo where
  virtAddr := 0xFFFF8000FD000000
  physAddr := 0xFD000000
  byteSize := 528
  width := 8
  height := 16
  pitch := 33
  bitsPerPixel := 32

theorem crookedInfo_supported : crookedInfo.Supported := by
  constructor <;> decide

theorem nullInfo_supported : { smallInfo with virtAddr := 0 }.Supported := by
  constructor <;> decide

/-- The second line of pixels starts at an odd address; and a framebuffer at null is not cleared. -/
theorem crooked_console_stops :
    (¬ ∀ (info : FramebufferInfo) (writer : Option FbWriter) (m : Bytes), info.Supported →
      info.virtAddr ≠ 0 → ∃ w m₀, initFromInfo info writer m = .ok (some w, m₀) ∧
        w.cols = info.width / 8 ∧ w.rows = info.height / 16 ∧
        ∀ strs : List (List UInt8), ∃ w' m', w.writeAll m₀ strs = .ok (w', m') ∧
          ∀ x y, x < w.cols * 8 → y < w.rows * 16 → w.pixel m' x y =
            FbWriter.cellPixel ((reference w.cols strs.flatten).cell w.rows (y / 16) (x / 8))
              (x % 8) (y % 16)) ∧
    ∃ info : FramebufferInfo, info.Supported ∧ info.Aligned ∧
      ∀ writer m, initFromInfo info writer m = .error (.pointer m) := by
  constructor
  · intro claim
    obtain ⟨w, m₀, made, _, _, writes⟩ :=
      claim crookedInfo none Bytes.blank crookedInfo_supported (by decide)
    obtain ⟨w', m', run, _⟩ := writes [[0x41]]
    have stops : (initFromInfo crookedInfo none Bytes.blank).toOption.bind (fun r => r.1.bind fun w =>
        (w.writeAll r.2 [[0x41]]).toOption.map fun _ => ()) = none := by decide
    simp [made, run, Except.toOption] at stops
  · exact ⟨_, nullInfo_supported, by decide, fun writer m => initFromInfo_null nullInfo_supported writer m rfl⟩

def FramebufferInfo.StopsAtPixel (info : FramebufferInfo) (m : Bytes) (e : Fault) : Prop :=
  ∃ m', e = .pointer m' ∧
    Bytes.Confined info.virtAddr (info.virtAddr + info.height * info.pitch) m m' ∧ ¬ info.Aligned

/-- Null is refused at once. At any other address the cursor stands in the grid after every byte,
only bytes of the framebuffer have been touched, and no arithmetic of the next byte leaves its
word: it is written, or a pixel that is no whole word in memory stops it. -/
theorem console_stays_inside (supported : info.Supported) (writer : Option FbWriter) (m : Bytes) :
    (info.virtAddr = 0 ∧ initFromInfo info writer m = .error (.pointer m)) ∨
    ∃ w m₀, initFromInfo info writer m = .ok (some w, m₀) ∧
      (∀ s, w.Bytewise m₀ s → s.1.row < s.1.rows ∧ s.1.col ≤ s.1.cols ∧
        Bytes.Confined info.virtAddr (info.virtAddr + info.height * info.pitch) m s.2 ∧
        ∀ b, Ends (FbWriter.writeNext s b) (info.StopsAtPixel m) fun _ => True) ∧
      ∀ strs, Ends (w.writeAll m₀ strs) (info.StopsAtPixel m) (w.Bytewise m₀) := by
  by_cases null : info.virtAddr = 0
  · exact .inl ⟨null, initFromInfo_null supported writer m null⟩
  · right
    obtain ⟨w, m₀, made, fits, _, _, blank⟩ := initFromInfo_spec supported null writer m
    obtain ⟨addr, height, pitch⟩ := initFromInfo_window supported made
    have begun : FbWriter.Contained w m (w, m₀) := ⟨.empty, blank, Nat.zero_le _⟩
    have window : ∀ m', w.Within m m' →
        Bytes.Confined info.virtAddr (info.virtAddr + info.height * info.pitch) m m' := by
      intro m' within
      rwa [FbWriter.Within, addr, height, pitch] at within
    have stops : ∀ e, w.Stops m e → info.StopsAtPixel m e := by
      rintro e ⟨m', pointer, within, crooked⟩
      refine ⟨m', pointer, window m' within, fun aligned => crooked ⟨addr ▸ aligned.1, pitch ▸ aligned.2⟩⟩
    refine ⟨w, m₀, made, fun s reached => ?_, fun strs => ?_⟩
    · have inside := begun.run fits reached
      obtain ⟨row, col⟩ := inside.cursor fits
      refine ⟨row, col, window _ inside.within, fun b => ?_⟩
      exact (inside.next fits b).mono stops fun _ _ => trivial
    · rcases FbWriter.writeAll_spec fits strs blank with ⟨e, stopped, stop⟩ | ⟨s, run, _⟩
      · exact .inl ⟨e, stopped, stops e stop⟩
      · exact .returns run (FbWriter.writeAll_bytewise strs .start run)

theorem console_stays_inside_small :
    (smallInfo.virtAddr = 0 ∧ initFromInfo smallInfo none Bytes.blank = .error (.pointer Bytes.blank)) ∨
    ∃ w m₀, initFromInfo smallInfo none Bytes.blank = .ok (some w, m₀) ∧
      (∀ s, w.Bytewise m₀ s → s.1.row < s.1.rows ∧ s.1.col ≤ s.1.cols ∧
        Bytes.Confined smallInfo.virtAddr (smallInfo.virtAddr + smallInfo.height * smallInfo.pitch)
          Bytes.blank s.2 ∧
        ∀ b, Ends (FbWriter.writeNext s b) (smallInfo.StopsAtPixel Bytes.blank) fun _ => True) ∧
      ∀ strs, Ends (w.writeAll m₀ strs) (smallInfo.StopsAtPixel Bytes.blank) (w.Bytewise m₀) :=
  console_stays_inside smallInfo_supported none Bytes.blank

end CrustyOs.Writers
