import CrustyOs.Abalone.StackSafety

/-! Where a run of the allocators stores: in registered pages, and outside the blocks that the
callers leave alone, which stay out. -/
namespace CrustyOs.Abalone.AllocatorStack
open Lib BuddyAllocator

def Op.Spares (kept : List Allocation) : Op → Prop
  | .pages (.deallocPages ptr order) => (⟨ptr, order⟩ : Allocation) ∉ kept
  | .pages (.store addr _) => OffBlocks kept addr
  | _ => True

def Sparing (kept : List Allocation) (s : AllocatorStack) (op : Op) : Prop := Valid s op ∧ op.Spares kept

variable {s s' : AllocatorStack} {c : Cache} {kept : List Allocation} {op : Op}

theorem exec_pages {op : BuddyAllocator.Op} (done : exec s (.pages op) = .ok s') :
    ∃ r, BuddyAllocator.exec s.pageClient op = .ok r ∧
      s' = { s with buddy := r.buddy, mem := r.mem, pages := r.pages, blocks := r.live } := by
  obtain ⟨r, ran, rest⟩ := ok_of_bind done
  exact ⟨r, ran, (Except.ok.inj rest).symm⟩

theorem exec_heap {op : TlsfInner.Op} (done : exec s (.heap op) = .ok s') :
    ∃ r, TlsfInner.exec s.heapClient op = .ok r ∧ s' = { s with heap := r.tlsf, mem := r.mem, objects := r.live } := by
  obtain ⟨r, ran, rest⟩ := ok_of_bind done
  exact ⟨r, ran, (Except.ok.inj rest).symm⟩

theorem exec_cache {i : Nat} {op : Slab.Op} (hi : s.caches[i]? = some c) (done : exec s (.cache i op) = .ok s') :
    ∃ r c', Slab.exec c.element Slab.buddySource (c.client s) op = .ok r ∧
      s' = { s with buddy := r.cache.pages, mem := r.cache.mem, caches := s.caches.set i c' } := by
  simp only [exec, hi] at done
  obtain ⟨r, ran, rest⟩ := ok_of_bind done
  exact ⟨r, _, ran, (Except.ok.inj rest).symm⟩

theorem exec_newCache {t : Slab.ElementLayout} {order : Nat} (done : exec s (.newCache t order) = .ok s') :
    ∃ c, s' = { s with caches := s.caches ++ [c] } := by
  obtain ⟨inner, _, rest⟩ := ok_of_bind done
  exact ⟨_, (Except.ok.inj rest).symm⟩

/-! Registered pages. -/

def Op.registers (s : AllocatorStack) : Op → Finset Nat
  | .pages op => op.registers s.pageClient
  | _ => ∅

theorem Sound.stores_on_pages (h : Sound s) (valid : Valid s op) (done : exec s op = .ok s') :
    s'.buddy.base = s.buddy.base ∧ s'.pages = s.pages ∪ op.registers s ∧
      Memory.StoresIn (OnPage s.buddy.base s'.pages) s.mem s'.mem := by
  obtain ⟨lists, blocks, whole⟩ := h.whole
  cases op with
  | pages op =>
    obtain ⟨r, ran, rfl⟩ := exec_pages done
    obtain ⟨w, _, _, run, _, effect⟩ := whole.returns h.roomy valid.1.beside fun x hx => (valid.2 x hx).1
    have stores := whole.stores_on_pages valid.1.beside run
    obtain ⟨r', ran', rfl⟩ := exec_beside valid.1 run
    obtain rfl := Except.ok.inj (ran'.symm.trans ran)
    exact ⟨effect.base, effect.pages, stores⟩
  | heap op =>
    obtain ⟨files, cs, sound⟩ := h.heap
    obtain ⟨r, ran, rfl⟩ := exec_heap done
    refine ⟨rfl, (Finset.union_empty _).symm, (TlsfInner.stores_in_pool sound valid.1 valid.2 ran).mono ?_⟩
    intro a inside
    have pool : s.pool ∈ s.allocations := by simp [allocations]
    exact whole.on_page pool inside.1 (by omega)
  | newCache t order =>
    obtain ⟨c, rfl⟩ := exec_newCache done
    exact ⟨rfl, (Finset.union_empty _).symm, .refl _ _⟩
  | cache i op =>
    obtain ⟨c, hi, valid⟩ := valid
    obtain ⟨r, c', ran, rfl⟩ := exec_cache hi done
    rcases h.cache_runs hi valid with stop | ⟨r', _, run, ⟨_, _, inv⟩, _⟩
    · cases stop.symm.trans ran
    · obtain rfl := Except.ok.inj (run.symm.trans ran)
      obtain ⟨_, base, away⟩ := inv.ready
      exact ⟨base, (Finset.union_empty _).symm, away.mono fun a out => out.2⟩

theorem Sound.run_base {s₀ : AllocatorStack} (h : Sound s₀) (run : Reach exec Valid s₀ s) :
    s.buddy.base = s₀.buddy.base := by
  induction run with
  | start => rfl
  | step run valid done ih => exact ((h.run run).stores_on_pages valid done).1.trans ih

def Settled (s : AllocatorStack) (op : Op) : Prop := Valid s op ∧ op.registers s = ∅

theorem Sound.run_settled {s₀ : AllocatorStack} (h : Sound s₀) (run : Reach exec Settled s₀ s) :
    Sound s ∧ s.buddy.base = s₀.buddy.base ∧ s.pages = s₀.pages ∧
      Memory.StoresIn (OnPage s₀.buddy.base s₀.pages) s₀.mem s.mem := by
  induction run with
  | start => exact ⟨h, rfl, rfl, .refl _ _⟩
  | step run settled done ih =>
    obtain ⟨sound, base, pages, stores⟩ := ih
    obtain ⟨same, grown, step⟩ := sound.stores_on_pages settled.1 done
    rw [settled.2, Finset.union_empty] at grown
    rw [base, grown, pages] at step
    exact ⟨sound.run (Reach.start.step settled.1 done), same.trans base, grown.trans pages, stores.trans step⟩

/-! Spared blocks. -/

theorem blocks_spared (held : ∀ b ∈ kept, b ∈ s.blocks) (spares : op.Spares kept) (valid : Valid s op)
    (done : exec s op = .ok s') : ∀ b ∈ kept, b ∈ s'.blocks := by
  intro b hb
  have here := held b hb
  cases op with
  | pages op =>
    obtain ⟨r, ran, rfl⟩ := exec_pages done
    cases op with
    | addRegion virtBase n =>
      obtain ⟨⟨buddy, m⟩, _, rest⟩ := ok_of_bind ran
      obtain rfl := Except.ok.inj rest
      exact here
    | allocPages k =>
      obtain ⟨found, buddy, m, _, rfl⟩ := exec_alloc ran
      exact List.mem_append_right _ here
    | deallocPages ptr k =>
      obtain ⟨buddy, m, _, rfl⟩ := exec_dealloc ran
      have ne : b ≠ ⟨ptr, k⟩ := fun e => spares (e ▸ hb)
      exact (List.mem_erase_of_ne ne).mpr here
    | store addr value =>
      obtain rfl := Except.ok.inj ran
      exact here
  | heap op =>
    obtain ⟨r, _, rfl⟩ := exec_heap done
    exact here
  | newCache t order =>
    obtain ⟨c, rfl⟩ := exec_newCache done
    exact here
  | cache i op =>
    obtain ⟨c, hi, _⟩ := valid
    obtain ⟨r, c', _, rfl⟩ := exec_cache hi done
    exact here

theorem Sound.store_spared (h : Sound s) (held : ∀ b ∈ kept, b ∈ s.blocks) (spares : op.Spares kept)
    (valid : Valid s op) (store : op.IsStore) (done : exec s op = .ok s') :
    Memory.StoresIn (OffBlocks kept) s.mem s'.mem := by
  cases op with
  | pages op =>
    obtain ⟨addr, value, rfl⟩ := store
    obtain ⟨r, ran, rfl⟩ := exec_pages done
    obtain rfl := Except.ok.inj ran
    exact (Memory.StoresIn.refl _ _).write value spares
  | heap op =>
    obtain ⟨lists, cs, sound⟩ := h.heap
    obtain ⟨r, ran, rfl⟩ := exec_heap done
    apply (TlsfInner.stores_in_pool sound valid.1 valid.2 ran).mono
    intro a inside b hb
    exact (h.pool_apart (List.mem_append_left _ (held b hb))).off inside.1 inside.2
  | newCache t order => exact absurd store id
  | cache i op =>
    obtain ⟨addr, value, rfl⟩ := store
    obtain ⟨c, hi, p, hp, low, high⟩ := valid
    obtain ⟨r, c', ran, rfl⟩ := exec_cache hi done
    obtain rfl := Except.ok.inj ran
    have member : c ∈ s.caches := List.mem_of_getElem? hi
    obtain ⟨q, hq, inner⟩ := slot_within (h.caches c member) hp
    have apart := h.held_apart
    rw [holds_eq, allocations, List.map_append, List.pairwise_append] at apart
    refine (Memory.StoresIn.refl _ _).write value fun b hb => ?_
    have slab : q ∈ s.pool :: s.caches.flatMap Cache.slabs :=
      List.mem_cons_of_mem _ (List.mem_flatMap.mpr ⟨c, member, hq⟩)
    have far := apart.2.2 _ (List.mem_map_of_mem (held b hb)) _ (List.mem_map_of_mem slab)
    unfold ByteRange.Within at inner
    dsimp only at inner
    exact far.symm.off (Nat.le_trans inner.1 low) (Nat.le_trans high inner.2)

theorem Sound.step_spares (h : Sound s) (held : ∀ b ∈ kept, b ∈ s.blocks) (sparing : Sparing kept s op)
    (done : exec s op = .ok s') :
    (∀ b ∈ kept, b ∈ s'.blocks) ∧ Memory.StoresIn (OffBlocks kept) s.mem s'.mem := by
  obtain ⟨valid, spares⟩ := sparing
  have held' := blocks_spared held spares valid done
  refine ⟨held', ?_⟩
  by_cases store : op.IsStore
  · exact h.store_spared held spares valid store done
  · cases h.step valid with
    | inl stop => cases stop.symm.trans done
    | inr returned =>
      obtain ⟨s₁, ran, _, stores⟩ := returned
      obtain rfl := Except.ok.inj (ran.symm.trans done)
      exact (stores store).mono fun a out b hb => out.blocks b (held b hb) (held' b hb)

theorem Sound.run_spares {s₀ : AllocatorStack} (h : Sound s₀) (held : ∀ b ∈ kept, b ∈ s₀.blocks)
    (run : Reach exec (Sparing kept) s₀ s) :
    (∀ b ∈ kept, b ∈ s.blocks) ∧ Memory.StoresIn (OffBlocks kept) s₀.mem s.mem := by
  induction run with
  | start => exact ⟨held, .refl _ _⟩
  | step run sparing done ih =>
    have sound := h.run (run.mono fun _ _ both => both.1)
    obtain ⟨held', stores⟩ := sound.step_spares ih.1 sparing done
    exact ⟨held', ih.2.trans stores⟩

end CrustyOs.Abalone.AllocatorStack
