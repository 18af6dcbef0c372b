import CrustyOs.Abalone.TlsfHeader
import CrustyOs.Abalone.TlsfMapping
import CrustyOs.Lib.Intrusive
import CrustyOs.Lib.TwoLevel

/-! The class lists: filing a block and taking one out. -/
namespace CrustyOs.Abalone.TlsfInner
open Lib Tlsf

variable {S : Nat → Prop} {t t' : TlsfInner} {m m' : Memory} {lists : Nat × Nat → List Nat}
  {block head a q size : Nat} {c : Nat × Nat}

/-- Every list holds blocks of its own class, and the bitmaps mark the non-empty lists. -/
structure ClassLists (S : Nat → Prop) (t : TlsfInner) (m : Memory) (lists : Nat × Nat → List Nat) :
    Prop where
  linked : ∀ c, Linked (nextFree m) (prevFree m) (t.freeLists c.1 c.2) (lists c)
  classed : ∀ c, ∀ a ∈ lists c, S a ∧ 32 ≤ blockSize m a ∧ blockSize m a < 2 ^ 30 ∧
    classOf (blockSize m a) = c
  marks : Marks t.flBitmap t.slBitmap fun c => lists c ≠ []

namespace ClassLists

theorem headers (h : ClassLists S t m lists) (ha : a ∈ lists c) : S a := (h.classed c a ha).1

theorem range (h : ClassLists S t m lists) (some : lists c ≠ []) :
    c.1 < flIndexCount ∧ c.2 < slCount := by
  obtain ⟨a, ha⟩ := List.exists_mem_of_ne_nil _ some
  obtain ⟨_, low, small, rfl⟩ := h.classed c a ha
  exact classOf_range low small

theorem narrow (h : ClassLists S t m lists) : t.flBitmap < 2 ^ 32 ∧ ∀ i, t.slBitmap i < 2 ^ 32 := by
  apply h.marks.narrow
  intro c some
  obtain ⟨row, column⟩ := h.range some
  have rows : flIndexCount = 30 := rfl
  have columns : slCount = 32 := rfl
  omega

theorem own_class (h : ClassLists S t m lists) (ha : a ∈ lists c) : c = classOf (blockSize m a) :=
  (h.classed c a ha).2.2.2.symm

theorem head_cases (h : ClassLists S t m lists) (c : Nat × Nat) :
    t.freeLists c.1 c.2 = 0 ∨ t.freeLists c.1 c.2 ∈ lists c := by
  have he := (h.linked c).head_eq
  cases e : lists c with
  | nil => rw [e] at he; exact Or.inl he
  | cons x rest => rw [e] at he; rw [he]; exact Or.inr (List.mem_cons_self ..)

theorem head_header (h : ClassLists S t m lists) (c : Nat × Nat) :
    t.freeLists c.1 c.2 = 0 ∨ S (t.freeLists c.1 c.2) :=
  (h.head_cases c).imp_right h.headers

theorem link_headers (h : ClassLists S t m lists) (hb : block ∈ lists c) :
    (prevFree m block = 0 ∨ S (prevFree m block)) ∧ (nextFree m block = 0 ∨ S (nextFree m block)) := by
  have keep : ∀ {a}, a ∈ (lists c).erase block → S a := fun ha => h.headers (List.mem_of_mem_erase ha)
  obtain ⟨hprev, hnext⟩ := (h.linked c).neighbours hb
  exact ⟨hprev.imp_right keep, hnext.imp_right keep⟩

theorem congr {S' : Nat → Prop} (h : ClassLists S t m lists)
    (inside : ∀ c, ∀ a ∈ lists c, S' a)
    (same : ∀ c, ∀ a ∈ lists c, blockSize m' a = blockSize m a ∧ nextFree m' a = nextFree m a ∧
      prevFree m' a = prevFree m a) : ClassLists S' t m' lists := by
  refine ⟨fun c => ?_, fun c a ha => ?_, h.marks⟩
  · exact (h.linked c).congr (fun a ha => (same c a ha).2.1) (fun a ha => (same c a ha).2.2)
  · rw [(same c a ha).1]
    exact ⟨inside c a ha, (h.classed c a ha).2⟩

end ClassLists

theorem setSlBits_rows (t : TlsfInner) (fl bits : Nat) :
    (t.setSlBits fl bits).slBitmap = Function.update t.slBitmap fl bits := by
  funext i
  simp [setSlBits, Function.update_apply]

theorem setHead_lists (t : TlsfInner) (c d : Nat × Nat) (block : Nat) :
    (t.setHead c.1 c.2 block).freeLists d.1 d.2 =
      if d = c then block else t.freeLists d.1 d.2 := by
  simp [setHead, Prod.ext_iff]

theorem head_eq (range : c.1 < flIndexCount ∧ c.2 < slCount) :
    t.head c.1 c.2 = .ok (t.freeLists c.1 c.2) := if_pos range

/-! `insert_free`. -/

def linkFront (m : Memory) (block head : Nat) : Memory :=
  let m := (m.write (block + 16) head).write (block + 24) 0
  if head ≠ 0 then m.write (head + 24) block else m

theorem linkFront_reads (sp : Spaced S) (hb : S block) (hh : head = 0 ∨ S head) (hq : S q) :
    sizeWord (linkFront m block head) q = sizeWord m q ∧
      prevPhys (linkFront m block head) q = prevPhys m q ∧
      nextFree (linkFront m block head) q = (if q = block then head else nextFree m q) ∧
      prevFree (linkFront m block head) q =
        if head ≠ 0 ∧ q = head then block else if q = block then 0 else prevFree m q := by
  have link (m : Memory) (v : Nat) := sp.field_store (m := m) (i := 16) (v := v) (by decide)
    (by decide) hb hq
  have back (m : Memory) (v : Nat) := sp.field_store (m := m) (i := 24) (v := v) (by decide)
    (by decide) hb hq
  unfold linkFront
  by_cases zero : head = 0
  · simp [zero, link, back]
  · have entry (m : Memory) (v : Nat) := sp.field_store (m := m) (i := 24) (v := v) (by decide)
      (by decide) (hh.resolve_left zero) hq
    simp [zero, link, back, entry]

theorem linkFront_stores (hb : S block) (hh : head = 0 ∨ S head) :
    Memory.StoresIn (HeaderOf S) m (linkFront m block head) := by
  have first : Memory.StoresIn (HeaderOf S) m ((m.write (block + 16) head).write (block + 24) 0) :=
    ((Memory.StoresIn.refl _ m).write _ (headerOf_field hb (by decide))).write _
      (headerOf_field hb (by decide))
  unfold linkFront
  split
  · rename_i nonzero
    exact first.write _ (headerOf_field (hh.resolve_left nonzero) (by decide))
  · exact first

def file (t : TlsfInner) (c : Nat × Nat) (block : Nat) : TlsfInner :=
  ({ t.setHead c.1 c.2 block with flBitmap := t.flBitmap ||| (1 <<< c.1) } : TlsfInner).setSlBits c.1
    (t.slBitmap c.1 ||| (1 <<< c.2))

theorem file_words (t : TlsfInner) (c : Nat × Nat) (block : Nat) :
    (t.file c block).slBitmap = Function.update t.slBitmap c.1 (t.slBitmap c.1 ||| 2 ^ c.2) ∧
      (t.file c block).flBitmap = t.flBitmap ||| 2 ^ c.1 := by
  constructor
  · rw [file, setSlBits_rows, ← Nat.one_shiftLeft]
    rfl
  · rw [← Nat.one_shiftLeft]
    rfl

theorem insertFree_eq (low : 32 ≤ blockSize m block) (small : blockSize m block < 2 ^ 30) :
    t.insertFree m block = .ok (t.file (classOf (blockSize m block)) block,
      setFree (linkFront m block (t.freeLists (classOf (blockSize m block)).1
        (classOf (blockSize m block)).2)) block true) := by
  simp only [insertFree, mapping_eq low, bind, Except.bind, head_eq (classOf_range low small)]
  rfl

theorem insertFree_lt {r : TlsfInner × Memory} (low : 32 ≤ blockSize m block)
    (done : t.insertFree m block = .ok r) : blockSize m block < 2 ^ 30 := by
  by_contra large
  have row : ¬ (classOf (blockSize m block)).1 < flIndexCount := fun lt => large ((Nat.log2_lt (by omega)).mp lt)
  have stop : t.head (classOf (blockSize m block)).1 (classOf (blockSize m block)).2 = .error .indexOutOfBounds :=
    if_neg fun both => row both.1
  simp [insertFree, mapping_eq low, stop, bind, Except.bind] at done

/-- What `insert_free` and `remove_free` leave of the headers: the flag and the links aside,
everything. -/
structure HeadersKept (S : Nat → Prop) (m : Memory) (block : Nat) (f : Bool) (m' : Memory) : Prop where
  size : ∀ q, S q → sizeWord m' q = sizeWord (setFree m block f) q
  prevPhys : ∀ q, S q → prevPhys m' q = prevPhys m q
  stores : Memory.StoresIn (HeaderOf S) m m'

theorem setFree_reads (sp : Spaced S) (hb : S block) (hq : S q) (f : Bool) :
    (q ≠ block → sizeWord (setFree m block f) q = sizeWord m q) ∧
      prevPhys (setFree m block f) q = prevPhys m q ∧
      nextFree (setFree m block f) q = nextFree m q ∧
      prevFree (setFree m block f) q = prevFree m q := by
  obtain ⟨size, rest⟩ := sp.size_store (m := m) (a := block) (b := q) (v := if f then
    sizeWord m block ||| freeBit else sizeWord m block &&& wordNot 64 freeBit) hb hq
  exact ⟨fun ne => size.trans (if_neg ne), rest⟩

theorem blockSize_setFree (sp : Spaced S) (hb : S block) (hq : S q) (f : Bool) :
    blockSize (setFree m block f) q = blockSize m q := by
  by_cases e : q = block
  · subst e
    exact (setFree_readings m q f).1
  · exact (readings ((setFree_reads sp hb hq f).1 e)).1

theorem setFree_congr (sp : Spaced S) (hb : S block) (hq : S q) (f : Bool)
    (same : ∀ q, S q → sizeWord m' q = sizeWord m q) :
    sizeWord (setFree m' block f) q = sizeWord (setFree m block f) q := by
  by_cases e : q = block
  · subst e
    simp only [sizeWord, setFree, Memory.read_write_same]
    have word : m'.read q = m.read q := same q hq
    rw [word]
  · rw [(setFree_reads sp hb hq f).1 e, (setFree_reads sp hb hq f).1 e, same q hq]

theorem linked_filed (sp : Spaced S) (h : ClassLists S t m lists) (hb : S block) (nonnull : block ≠ 0)
    (fresh : ∀ c, block ∉ lists c) (c d : Nat × Nat) (f : Bool) :
    Linked (nextFree (setFree (linkFront m block (t.freeLists c.1 c.2)) block f))
      (prevFree (setFree (linkFront m block (t.freeLists c.1 c.2)) block f))
      ((t.file c block).freeLists d.1 d.2) (Function.update lists c (block :: lists c) d) := by
  have head_in := h.head_header c
  have reads : ∀ q, S q → _ := fun q hq => linkFront_reads (m := m) sp hb head_in hq
  have flag : ∀ q, S q → _ := fun q hq =>
    setFree_reads (m := linkFront m block (t.freeLists c.1 c.2)) sp hb hq f
  have next : ∀ q, S q → _ := fun q hq => (flag q hq).2.2.1.trans (reads q hq).2.2.1
  have prev : ∀ q, S q → _ := fun q hq => (flag q hq).2.2.2.trans (reads q hq).2.2.2
  have heads : (t.file c block).freeLists d.1 d.2 =
      if d = c then block else t.freeLists d.1 d.2 := setHead_lists t c d block
  have other : ∀ a ∈ lists d, a ≠ block := fun a ha e => fresh d (e ▸ ha)
  rw [heads]
  by_cases e : d = c
  · subst e
    rw [if_pos rfl, Function.update_self]
    apply (h.linked d).push nonnull (fresh d)
    · rw [next block hb, if_pos rfl]
    · rw [prev block hb, if_neg, if_pos rfl]
      rintro ⟨nonzero, hit⟩
      exact other _ ((h.head_cases d).resolve_left nonzero) hit.symm
    · intro a ha
      rw [next a (h.headers ha), if_neg (other a ha)]
    · intro a ha off
      rw [prev a (h.headers ha), if_neg (fun hit => off hit.2), if_neg (other a ha)]
    · intro nonzero
      rw [prev _ (head_in.resolve_left nonzero), if_pos ⟨nonzero, rfl⟩]
  · rw [if_neg e, Function.update_of_ne e]
    apply (h.linked d).congr
    · intro a ha
      rw [next a (h.headers ha), if_neg (other a ha)]
    · intro a ha
      rw [prev a (h.headers ha), if_neg, if_neg (other a ha)]
      rintro ⟨nonzero, hit⟩
      have here := (h.head_cases c).resolve_left nonzero
      rw [← hit] at here
      exact e ((h.own_class ha).trans (h.own_class here).symm)

theorem file_marks (h : ClassLists S t m lists) (c : Nat × Nat) (block : Nat) :
    Marks (t.file c block).flBitmap (t.file c block).slBitmap
      fun d => Function.update lists c (block :: lists c) d ≠ [] := by
  rw [(file_words t c block).1, (file_words t c block).2]
  apply (h.marks.set c.1 c.2).congr
  intro d
  by_cases e : d = c
  · subst e
    simp
  · simp [e]

theorem insertFree_spec (sp : Spaced S) (h : ClassLists S t m lists) (hb : S block)
    (nonnull : block ≠ 0) (fresh : ∀ c, block ∉ lists c) (low : 32 ≤ blockSize m block)
    (small : blockSize m block < 2 ^ 30) (hc : c = classOf (blockSize m block)) :
    ∃ t' m', t.insertFree m block = .ok (t', m') ∧
      ClassLists S t' m' (Function.update lists c (block :: lists c)) ∧
      HeadersKept S m block true m' := by
  set front := linkFront m block (t.freeLists c.1 c.2) with front_def
  have head_in := h.head_header c
  have reads : ∀ q, S q → _ := fun q hq => linkFront_reads (m := m) sp hb head_in hq
  have keep : ∀ q, S q → blockSize (setFree front block true) q = blockSize m q := fun q hq =>
    (blockSize_setFree sp hb hq true).trans (readings (reads q hq).1).1
  refine ⟨t.file c block, setFree front block true, ?_,
    ⟨fun d => linked_filed sp h hb nonnull fresh c d true, fun d a ha => ?_, file_marks h c block⟩,
    ⟨fun q hq => ?_, fun q hq => ?_, ?_⟩⟩
  · rw [insertFree_eq low small, ← hc]
  · by_cases e : d = c
    · subst e
      rw [Function.update_self] at ha
      cases List.mem_cons.mp ha with
      | inl here =>
        rw [here, keep block hb]
        exact ⟨hb, low, small, hc.symm⟩
      | inr ha =>
        rw [keep a (h.headers ha)]
        exact h.classed d a ha
    · rw [Function.update_of_ne e] at ha
      rw [keep a (h.headers ha)]
      exact h.classed d a ha
  · exact setFree_congr sp hb hq true fun q hq => (reads q hq).1
  · exact (setFree_reads sp hb hq true).2.1.trans (reads q hq).2.1
  · exact (linkFront_stores hb head_in).write _ ⟨block, hb, Nat.le_refl _, by omega⟩

/-! `remove_free`. -/

def unlink (m : Memory) (block : Nat) : Memory :=
  let m₁ := if prevFree m block ≠ 0 then m.write (prevFree m block + 16) (nextFree m block) else m
  if nextFree m block ≠ 0 then m₁.write (nextFree m block + 24) (prevFree m block) else m₁

theorem unlink_reads (sp : Spaced S) (hp : prevFree m block = 0 ∨ S (prevFree m block))
    (hn : nextFree m block = 0 ∨ S (nextFree m block)) (hq : S q) :
    sizeWord (unlink m block) q = sizeWord m q ∧ prevPhys (unlink m block) q = prevPhys m q ∧
      nextFree (unlink m block) q = (if prevFree m block ≠ 0 ∧ q = prevFree m block then
        nextFree m block else nextFree m q) ∧
      prevFree (unlink m block) q = (if nextFree m block ≠ 0 ∧ q = nextFree m block then
        prevFree m block else prevFree m q) := by
  have before (nonzero : prevFree m block ≠ 0) (m : Memory) (v : Nat) (hp : S v) (w : Nat) :=
    sp.field_store (m := m) (i := 16) (v := w) (by decide) (by decide) hp hq
  have after (m : Memory) (v : Nat) (hn : S v) (w : Nat) :=
    sp.field_store (m := m) (i := 24) (v := w) (by decide) (by decide) hn hq
  unfold unlink
  by_cases first : prevFree m block = 0 <;> by_cases last : nextFree m block = 0
  · simp [first, last]
  · simp [first, last, after _ _ (hn.resolve_left last)]
  · simp [first, last, before first _ _ (hp.resolve_left first)]
  · simp [first, last, before first _ _ (hp.resolve_left first), after _ _ (hn.resolve_left last)]

theorem unlink_stores (hp : prevFree m block = 0 ∨ S (prevFree m block))
    (hn : nextFree m block = 0 ∨ S (nextFree m block)) :
    Memory.StoresIn (HeaderOf S) m (unlink m block) := by
  have first : Memory.StoresIn (HeaderOf S) m
      (if prevFree m block ≠ 0 then m.write (prevFree m block + 16) (nextFree m block) else m) := by
    split
    · rename_i nonzero
      exact (Memory.StoresIn.refl _ m).write _ (headerOf_field (hp.resolve_left nonzero) (by decide))
    · exact .refl _ m
  unfold unlink
  by_cases last : nextFree m block = 0
  · simpa [last] using first
  · simp only [ne_eq, last, not_false_eq_true, if_true]
    exact first.write _ (headerOf_field (hn.resolve_left last) (by decide))

theorem clearBits_parts (t : TlsfInner) (c : Nat × Nat) :
    (t.clearBits c.1 c.2).freeLists = t.freeLists ∧
      (t.clearBits c.1 c.2).slBitmap =
        Function.update t.slBitmap c.1 (t.slBitmap c.1 &&& wordNot 32 (2 ^ c.2)) ∧
      (t.clearBits c.1 c.2).flBitmap = if t.slBitmap c.1 &&& wordNot 32 (2 ^ c.2) = 0 then
        t.flBitmap &&& wordNot 32 (2 ^ c.1) else t.flBitmap := by
  have row : (t.setSlBits c.1 (t.slBitmap c.1 &&& wordNot 32 (2 ^ c.2))).slBitmap c.1 =
      t.slBitmap c.1 &&& wordNot 32 (2 ^ c.2) := if_pos rfl
  simp only [clearBits, Nat.one_shiftLeft, row]
  split
  · exact ⟨rfl, setSlBits_rows _ _ _, rfl⟩
  · exact ⟨rfl, setSlBits_rows _ _ _, rfl⟩

def relink (t : TlsfInner) (m : Memory) (c : Nat × Nat) (block : Nat) : TlsfInner :=
  if prevFree m block ≠ 0 then t else t.setHead c.1 c.2 (nextFree m block)

theorem relink_heads (t : TlsfInner) (m : Memory) (c d : Nat × Nat) (block : Nat) :
    (t.relink m c block).freeLists d.1 d.2 =
      if d = c ∧ prevFree m block = 0 then nextFree m block else t.freeLists d.1 d.2 := by
  by_cases first : prevFree m block = 0
  · simp [relink, first, setHead_lists]
  · simp [relink, first]

theorem relink_words (t : TlsfInner) (m : Memory) (c : Nat × Nat) (block : Nat) :
    (t.relink m c block).slBitmap = t.slBitmap ∧ (t.relink m c block).flBitmap = t.flBitmap := by
  unfold relink
  split <;> exact ⟨rfl, rfl⟩

def unfile (t : TlsfInner) (m : Memory) (c : Nat × Nat) (block : Nat) : TlsfInner :=
  if (t.relink m c block).freeLists c.1 c.2 = 0 then (t.relink m c block).clearBits c.1 c.2
  else t.relink m c block

theorem removeFree_eq (low : 32 ≤ blockSize m block) (small : blockSize m block < 2 ^ 30)
    (hc : c = classOf (blockSize m block)) :
    t.removeFree m block = .ok (t.unfile m c block, setFree (unlink m block) block false) := by
  subst hc
  simp only [removeFree, mapping_eq low, bind, Except.bind, head_eq (classOf_range low small)]
  unfold unfile
  by_cases first : prevFree m block = 0
  · simp [first, unlink, relink, setHead_lists]
    rfl
  · simp [first, unlink, relink]
    rfl

theorem unfile_heads (t : TlsfInner) (m : Memory) (c d : Nat × Nat) (block : Nat) :
    (t.unfile m c block).freeLists d.1 d.2 =
      if d = c ∧ prevFree m block = 0 then nextFree m block else t.freeLists d.1 d.2 := by
  have lists : (t.unfile m c block).freeLists = (t.relink m c block).freeLists := by
    unfold unfile
    split
    · exact (clearBits_parts _ c).1
    · rfl
  rw [lists, relink_heads]

theorem unlinked (sp : Spaced S) (h : ClassLists S t m lists) (hb : block ∈ lists c)
    (d : Nat × Nat) (f : Bool) :
    Linked (nextFree (setFree (unlink m block) block f)) (prevFree (setFree (unlink m block) block f))
      ((t.unfile m c block).freeLists d.1 d.2)
      (Function.update lists c ((lists c).erase block) d) := by
  have inside := h.headers hb
  obtain ⟨hprev, hnext⟩ := (h.linked c).neighbours hb
  obtain ⟨before, after⟩ := h.link_headers hb
  have reads : ∀ q, S q → _ := fun q hq => unlink_reads sp before after hq
  have flag : ∀ q, S q → _ := fun q hq => setFree_reads (m := unlink m block) sp inside hq f
  have next : ∀ q, S q → _ := fun q hq => (flag q hq).2.2.1.trans (reads q hq).2.2.1
  have prev : ∀ q, S q → _ := fun q hq => (flag q hq).2.2.2.trans (reads q hq).2.2.2
  have nonnull : ∀ {a d}, a ∈ lists d → a ≠ 0 := fun ha e => (h.linked _).nonnull (e ▸ ha)
  rw [unfile_heads]
  by_cases e : d = c
  · subst e
    rw [Function.update_self]
    simp only [true_and]
    apply (h.linked d).unlink hb
    · intro a ha _
      rw [next a (h.headers ha)]
      by_cases hit : a = prevFree m block
      · rw [if_pos ⟨hit ▸ nonnull ha, hit⟩, if_pos hit]
      · rw [if_neg (fun both => hit both.2), if_neg hit]
    · intro a ha _
      rw [prev a (h.headers ha)]
      by_cases hit : a = nextFree m block
      · rw [if_pos ⟨hit ▸ nonnull ha, hit⟩, if_pos hit]
      · rw [if_neg (fun both => hit both.2), if_neg hit]
  · rw [Function.update_of_ne e, if_neg (fun both => e both.1)]
    -- the neighbours are on list `c`, so list `d` is not written
    have off : ∀ a ∈ lists d, ∀ x ∈ (lists c).erase block, a ≠ x := by
      intro a ha x hx same
      have hx := List.mem_of_mem_erase hx
      rw [← same] at hx
      exact e ((h.own_class ha).trans (h.own_class hx).symm)
    apply (h.linked d).congr
    · intro a ha
      rw [next a (h.headers ha), if_neg]
      rintro ⟨nonzero, hit⟩
      exact off a ha _ (hprev.resolve_left nonzero) hit
    · intro a ha
      rw [prev a (h.headers ha), if_neg]
      rintro ⟨nonzero, hit⟩
      exact off a ha _ (hnext.resolve_left nonzero) hit

theorem unfile_marks (sp : Spaced S) (h : ClassLists S t m lists) (hb : block ∈ lists c) :
    Marks (t.unfile m c block).flBitmap (t.unfile m c block).slBitmap
      fun d => Function.update lists c ((lists c).erase block) d ≠ [] := by
  have head := (unlinked sp h hb c false).head_zero_iff
  rw [Function.update_self, unfile_heads] at head
  simp only [true_and] at head
  have some : lists c ≠ [] := List.ne_nil_of_mem hb
  have words := relink_words t m c block
  unfold unfile
  rw [relink_heads]
  simp only [true_and]
  by_cases emptied : (lists c).erase block = []
  · rw [if_pos (head.mpr emptied), (clearBits_parts _ c).2.1, (clearBits_parts _ c).2.2, words.1,
      words.2]
    have small : ∀ d, lists d ≠ [] → d.1 < 32 ∧ d.2 < 32 := by
      intro d nonempty
      obtain ⟨row, column⟩ := h.range nonempty
      have rows : flIndexCount = 30 := rfl
      have columns : slCount = 32 := rfl
      omega
    apply (h.marks.clear small c.1 c.2).congr
    intro d
    by_cases e : d = c
    · subst e
      simp [emptied]
    · simp [e]
  · rw [if_neg (fun zero => emptied (head.mp zero)), words.1, words.2]
    apply h.marks.congr
    intro d
    by_cases e : d = c
    · subst e
      simp [emptied, some]
    · simp [e]

theorem removeFree_spec (sp : Spaced S) (h : ClassLists S t m lists) (hb : block ∈ lists c) :
    ∃ t' m', t.removeFree m block = .ok (t', m') ∧
      ClassLists S t' m' (Function.update lists c ((lists c).erase block)) ∧
      HeadersKept S m block false m' := by
  obtain ⟨inside, low, small, hc⟩ := h.classed c block hb
  obtain ⟨before, after⟩ := h.link_headers hb
  have reads : ∀ q, S q → _ := fun q hq => unlink_reads sp before after hq
  refine ⟨_, _, removeFree_eq low small hc.symm, ⟨fun d => unlinked sp h hb d false, fun d a ha => ?_,
    unfile_marks sp h hb⟩, ⟨fun q hq => ?_, fun q hq => ?_, ?_⟩⟩
  · have old : a ∈ lists d := by
      by_cases e : d = c
      · subst e
        rw [Function.update_self] at ha
        exact List.mem_of_mem_erase ha
      · rwa [Function.update_of_ne e] at ha
    have size : blockSize (setFree (unlink m block) block false) a = blockSize m a :=
      (blockSize_setFree sp inside (h.headers old) false).trans
        (readings (reads a (h.headers old)).1).1
    rw [size]
    exact h.classed d a old
  · exact setFree_congr sp inside hq false fun q hq => (reads q hq).1
  · exact (setFree_reads sp inside hq false).2.1.trans (reads q hq).2.1
  · exact (unlink_stores before after).write _
      ⟨block, inside, Nat.le_refl _, by omega⟩

end CrustyOs.Abalone.TlsfInner
