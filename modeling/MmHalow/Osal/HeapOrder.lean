import MmHalow.Osal.HeapLife

/-!
# First fit is complete, and the order of frees does not matter

Both are read off the block list in memory (`blocks`), in every state of the driver's life.

* `Inv.firstFit`: `mm_halow_osal_malloc` answers `NULL` exactly where no free block is large
  enough, and otherwise the payload of the lowest one that is.
* `Rep.freeEach`: what remains after a number of frees, in terms of the used blocks only. Since the
  coalesced list is determined by its used blocks (`FirstFit.eq_of_used`), two orders of the same
  frees leave the same list, and freeing everything leaves the list of `mm_halow_osal_init`.
* `heap_order`: both together.
-/

namespace MmHalow.Osal

open MmHalow.Lib MmHalow.Lib.Bytes MmHalow.Lib.FirstFit

/-- The block list, followed from the head. -/
def blocks (abi : Abi) (heapSize : Nat) (h : Heap) : Option (List Block) :=
  blockList abi h.mem (heapSize + 1) h.head

/-- `mm_halow_osal_free` of each pointer in turn. -/
def freeEach (abi : Abi) (heapSize : Nat) (ps : List Nat) (h : Heap) : Option Heap :=
  ps.foldlM (fun h p => osalFree abi heapSize p h) h

/-- **Complete first fit**: the answer `r` to a request of `size` bytes on the block list `bl`. -/
structure FirstFitOn (abi : Abi) (heapSize : Nat) (h : Heap) (bl : List Block) (size r : Nat) :
    Prop where
  /-- `NULL` exactly for a bad size, without a pool, or where no free block is large enough. -/
  null_iff : r = 0 ↔ size = 0 ∨ heapSize < size ∨ h.head = 0 ∨
    ∀ b ∈ bl, b.used = false → b.size < rounded size
  /-- Otherwise the payload of the free block of lowest address that is large enough. -/
  lowest : r ≠ 0 → ∃ b ∈ bl, r = blockData abi b.addr ∧ b.used = false ∧ rounded size ≤ b.size ∧
    ∀ c ∈ bl, c.used = false → rounded size ≤ c.size → b.addr ≤ c.addr

variable {P : Pool} {h : Heap} {l l' : List Seg} {live : List Alloc} {s : HeapState}

/-! ## The block list of a represented heap -/

/-- A placed segment as its header says it is. -/
def blockOf (e : Nat × Seg) : Block := ⟨e.1, e.2.size, e.2.used⟩

theorem Rep.blocks (hr : Rep P h l) :
    blocks P.abi P.heapSize h = some ((place (blockHdr P.abi) P.base l).map blockOf) := by
  have hlist := hr.chain.blockList_eq hr.length_lt P.base_pos
  rw [startOf_of_ne_nil hr.ne_nil] at hlist
  rw [Osal.blocks, hr.head_eq]
  exact hlist

theorem Rep.head_pos (hr : Rep P h l) : h.head ≠ 0 := by
  rw [hr.head_eq]
  exact Nat.ne_of_gt P.base_pos

/-! ## Allocation -/

/-- **First fit on a represented heap.** -/
theorem Rep.firstFit (hr : Rep P h l) (size : Nat) :
    ∃ r h', osalMalloc P.abi P.heapSize size h = some (r, h') ∧
      FirstFitOn P.abi P.heapSize h ((place (blockHdr P.abi) P.base l).map blockOf) size r := by
  have hhead := hr.head_pos
  have hnone : (∀ b ∈ (place (blockHdr P.abi) P.base l).map blockOf, b.used = false →
      b.size < rounded size) ↔ alloc (blockHdr P.abi) blockAlign (rounded size) P.base l = none := by
    rw [alloc_none_iff_place, List.forall_mem_map]
    rfl
  rcases hr.malloc size with ⟨hm, hwhy⟩ | ⟨p, l', h', hm, h0, hle, ha, -, -⟩
  · refine ⟨0, h, hm, ⟨⟨fun _ => ?_, fun _ => rfl⟩, fun h => absurd rfl h⟩⟩
    rw [hnone]
    exact hwhy.imp id fun hw => hw.imp id Or.inr
  · refine ⟨_, h', hm, ⟨⟨fun hz => absurd hz (blockData_ne_zero P p), fun hwhy => ?_⟩, fun _ => ?_⟩⟩
    · rw [hnone, ha] at hwhy
      rcases hwhy with hw | hw | hw | hw
      · omega
      · omega
      · exact absurd hw hhead
      · exact nomatch hw
    · obtain ⟨t, ht, hfree, hfit, hlow⟩ := alloc_lowest ha
      refine ⟨blockOf (p, t), List.mem_map_of_mem ht, rfl, hfree, hfit, ?_⟩
      rw [List.forall_mem_map]
      exact hlow

/-! ## Release -/

/-- What frees of used blocks leave: the tiling whose used segments are the others. -/
theorem Rep.freeEach {ps : List Nat} (hr : Rep P h l) (hnd : ps.Nodup)
    (hps : ∀ p ∈ ps, ∃ b t, (b, t) ∈ place (blockHdr P.abi) P.base l ∧ t.used = true ∧
      p = blockData P.abi b) :
    ∃ h' l', freeEach P.abi P.heapSize ps h = some h' ∧ Rep P h' l' ∧
      ∀ q t, t.used = true → ((q, t) ∈ place (blockHdr P.abi) P.base l' ↔
        (q, t) ∈ place (blockHdr P.abi) P.base l ∧ blockData P.abi q ∉ ps) := by
  have hpos := blockHdr_pos P.abi
  induction ps generalizing h l with
  | nil => exact ⟨h, l, rfl, hr, fun q t _ => by simp⟩
  | cons p ps ih =>
    obtain ⟨hp, hnd'⟩ := List.nodup_cons.mp hnd
    obtain ⟨b, t, hb, hu, rfl⟩ := hps p List.mem_cons_self
    obtain ⟨h₁, hf, hr₁, -⟩ := hr.free hb
    -- the other blocks are still used
    have hps' : ∀ q ∈ ps, ∃ c u, (c, u) ∈ place (blockHdr P.abi) P.base
        (coalesce (blockHdr P.abi) (mark (blockHdr P.abi) b P.base l)) ∧ u.used = true ∧
          q = blockData P.abi c := by
      intro q hq
      obtain ⟨c, u, hc, hcu, rfl⟩ := hps q (List.mem_cons_of_mem _ hq)
      refine ⟨c, u, (used_release hpos hb hcu).mpr ⟨hc, ?_⟩, hcu, rfl⟩
      rintro rfl
      exact hp hq
    obtain ⟨h', l', hfs, hr', hused⟩ := ih hr₁ hnd' hps'
    refine ⟨h', l', ?_, hr', fun q t ht => ?_⟩
    · unfold Osal.freeEach at hfs ⊢
      rw [List.foldlM_cons, hf]
      exact hfs
    · have hne : q ≠ b ↔ blockData P.abi q ≠ blockData P.abi b := by
        unfold blockData
        omega
      rw [hused q t ht, used_release hpos hb ht, List.mem_cons, not_or, hne, and_assoc]

/-- Two represented heaps with the same used segments have the same segments. -/
theorem Rep.eq_of_used {h' : Heap} (hr : Rep P h l) (hr' : Rep P h' l')
    (hused : ∀ q t, t.used = true → ((q, t) ∈ place (blockHdr P.abi) P.base l ↔
      (q, t) ∈ place (blockHdr P.abi) P.base l')) : l = l' :=
  FirstFit.eq_of_used (blockHdr_pos P.abi) (hr.tiled.span_eq.trans hr'.tiled.span_eq.symm)
    hr.tiled.apart hr'.tiled.apart hused

/-- **Two orders of the same frees** leave the same segments. -/
theorem Rep.freeEach_perm {ps qs : List Nat} (hr : Rep P h l) (hh : Holds P l live)
    (hnd : ps.Nodup) (hps : ∀ p ∈ ps, ∃ q ∈ live, q.ptr = p) (hperm : ps.Perm qs) :
    ∃ h₁ h₂ l', Osal.freeEach P.abi P.heapSize ps h = some h₁ ∧
      Osal.freeEach P.abi P.heapSize qs h = some h₂ ∧ Rep P h₁ l' ∧ Rep P h₂ l' := by
  obtain ⟨h₁, l₁, hf₁, hr₁, hu₁⟩ := hr.freeEach hnd fun p hp => hh.of_ptr (hps p hp)
  obtain ⟨h₂, l₂, hf₂, hr₂, hu₂⟩ := hr.freeEach (hperm.nodup_iff.mp hnd)
    fun p hp => hh.of_ptr (hps p (hperm.mem_iff.mpr hp))
  have heq : l₁ = l₂ := by
    refine hr₁.eq_of_used hr₂ fun q t ht => ?_
    rw [hu₁ q t ht, hu₂ q t ht, hperm.mem_iff]
  rw [← heq] at hr₂
  exact ⟨h₁, h₂, l₁, hf₁, hf₂, hr₁, hr₂⟩

/-- **Freeing every block held** leaves one free segment, the one of `mm_halow_osal_init`. -/
theorem Rep.freeEach_all {ps : List Nat} (hr : Rep P h l) (hh : Holds P l live)
    (hps : ps.Perm (live.map Alloc.ptr)) :
    ∃ h', Osal.freeEach P.abi P.heapSize ps h = some h' ∧
      Rep P h' [⟨P.heapSize - blockHdr P.abi, false⟩] := by
  have hlive : ∀ p ∈ ps, ∃ q ∈ live, q.ptr = p := fun p hp => List.mem_map.mp (hps.mem_iff.mp hp)
  obtain ⟨h', l', hf, hr', hused⟩ := hr.freeEach (hps.nodup_iff.mpr hh.nodup)
    fun p hp => hh.of_ptr (hlive p hp)
  obtain ⟨h₀, -, hr₀⟩ := Rep.init P ⟨h.mem, 0, 0⟩ rfl
  have heq : l' = [⟨P.heapSize - blockHdr P.abi, false⟩] := by
    refine hr'.eq_of_used hr₀ fun q t ht => ?_
    rw [hused q t ht]
    constructor
    · rintro ⟨hq, hnot⟩
      obtain ⟨a, ha, he⟩ := hh.used hq ht
      exact absurd (hps.mem_iff.mpr (List.mem_map.mpr ⟨a, ha, he⟩)) hnot
    · intro hq
      rw [place, place, List.mem_singleton] at hq
      rw [(Prod.mk.inj hq).2] at ht
      exact absurd ht Bool.false_ne_true
  rw [heq] at hr'
  exact ⟨h', hf, hr'⟩

/-! ## The whole life -/

/-- The block list without a pool. -/
theorem NoPool.blocks (hn : NoPool s) (P : Pool) : blocks P.abi P.heapSize s.heap = some [] := by
  rw [Osal.blocks, hn.head_eq, blockList, if_pos rfl]

/-- **First fit is complete and frees commute.** In every state of the driver's life: an
allocation answers `NULL` exactly where it has to and otherwise the lowest block that fits; the
blocks of a set, freed in any two orders, leave the same block list; and with every block freed the
list is that of a new pool. -/
theorem heap_order (P : Pool) (m0 : Mem) {tr : List LifeEvent}
    (hrun : Run (LifeStep P) (lifeStart m0) tr s) :
    (∃ bl, blocks P.abi P.heapSize s.heap = some bl ∧
      ∀ size, ∃ r h', osalMalloc P.abi P.heapSize size s.heap = some (r, h') ∧
        FirstFitOn P.abi P.heapSize s.heap bl size r) ∧
    (∀ ps qs : List Nat, ps.Nodup → (∀ p ∈ ps, ∃ q ∈ s.live, q.ptr = p) → ps.Perm qs →
      ∃ h₁ h₂ bl, freeEach P.abi P.heapSize ps s.heap = some h₁ ∧
        freeEach P.abi P.heapSize qs s.heap = some h₂ ∧
        blocks P.abi P.heapSize h₁ = some bl ∧ blocks P.abi P.heapSize h₂ = some bl) ∧
    (s.heap.head ≠ 0 → ∀ ps : List Nat, ps.Perm (s.live.map Alloc.ptr) →
      ∃ h₁, freeEach P.abi P.heapSize ps s.heap = some h₁ ∧
        blocks P.abi P.heapSize h₁ = some [⟨s.heap.head, P.heapSize - blockHdr P.abi, false⟩] ∧
        ∀ m, blocks P.abi P.heapSize h₁ =
          blocks P.abi P.heapSize (osalInit P.abi P.heapSize s.heap.head ⟨m, 0, 0⟩).2) := by
  rcases Life.run hrun with hn | ⟨Q, ⟨habi, hsize⟩, l, hr, hh⟩
  · refine ⟨⟨[], hn.blocks P, fun size => ⟨0, s.heap, hn.malloc P size, ?_⟩⟩,
      fun ps qs _ hps hperm => ?_, fun hhead => absurd hn.head_eq hhead⟩
    · exact ⟨⟨fun _ => Or.inr (Or.inr (Or.inl hn.head_eq)), fun _ => rfl⟩, fun h => absurd rfl h⟩
    · -- nothing is held, so nothing is freed
      have hnil : ps = [] := by
        refine List.eq_nil_iff_forall_not_mem.mpr fun p hp => ?_
        obtain ⟨q, hq, -⟩ := hps p hp
        rw [hn.live_eq] at hq
        exact List.not_mem_nil hq
      rw [hnil] at hperm ⊢
      rw [List.nil_perm.mp hperm]
      exact ⟨s.heap, s.heap, [], rfl, rfl, hn.blocks P, hn.blocks P⟩
  · rw [← habi, ← hsize]
    refine ⟨⟨_, hr.blocks, hr.firstFit⟩, fun ps qs hnd hps hperm => ?_, fun _ ps hps => ?_⟩
    · obtain ⟨h₁, h₂, l', hf₁, hf₂, hr₁, hr₂⟩ := hr.freeEach_perm hh hnd hps hperm
      exact ⟨h₁, h₂, _, hf₁, hf₂, hr₁.blocks, hr₂.blocks⟩
    · obtain ⟨h₁, hf, hr₁⟩ := hr.freeEach_all hh hps
      have hb : blocks Q.abi Q.heapSize h₁ =
          some [⟨s.heap.head, Q.heapSize - blockHdr Q.abi, false⟩] := by
        rw [hr₁.blocks, hr.head_eq]
        rfl
      refine ⟨h₁, hf, hb, fun m => ?_⟩
      obtain ⟨h₀, hinit, hr₀⟩ := Rep.init Q ⟨m, 0, 0⟩ rfl
      rw [hr.head_eq, hinit, hr₁.blocks, hr₀.blocks]

/-- A pool taken, and 100 bytes of it handed out. -/
theorem heap_order_ramPool : ∃ s bl, Run (LifeStep ramPool) (lifeStart fun _ => 0)
    [.init (some ramPool), .call (.malloc 100)] s ∧
    blocks ramPool.abi ramPool.heapSize s.heap = some bl ∧
    ∃ r h', osalMalloc ramPool.abi ramPool.heapSize 40 s.heap = some (r, h') ∧
      FirstFitOn ramPool.abi ramPool.heapSize s.heap bl 40 r := by
  have h0 := ramPool_init
  obtain ⟨bl, -, hmalloc⟩ := (heap_order ramPool (fun _ => 0) h0).1
  obtain ⟨r, h', hm, -⟩ := hmalloc 100
  have hr : Run (LifeStep ramPool) (lifeStart fun _ => 0)
      [.init (some ramPool), .call (.malloc 100)] ⟨h', grant r 100 []⟩ :=
    Run.snoc h0 ⟨show 100 < Abi.sizeMod .ilp32 by decide, by
      rw [exec, hm]
      rfl⟩
  obtain ⟨bl', hbl, hfit⟩ := (heap_order ramPool (fun _ => 0) hr).1
  exact ⟨_, bl', hr, hbl, hfit 40⟩

end MmHalow.Osal
