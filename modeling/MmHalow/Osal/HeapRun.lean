import MmHalow.Lib.Run
import MmHalow.Osal.HeapRefine

/-!
# Every run of the heap is well formed

A client of the heap makes calls, in any order and with any `size_t` arguments; it frees and
reallocates only blocks it holds, and writes only inside them. `HeapState` is the heap with the
allocations the client holds, `exec` the effect of a call on both, `Legal` the client's side.

`HeapWF` is the representation invariant read off the memory, as `mm_halow_heap_verify` of the
host tests reads it: `blockList` follows the `next` pointers.

* `Inv.exec`: every legal call returns and keeps the invariant, for every size, through splitting,
  non-splitting and coalescing.
* `heap_run_wf`: **after `mm_halow_osal_init` and any calls, the block list is well formed.**
-/

namespace MmHalow.Osal

open MmHalow.Lib MmHalow.Lib.Bytes MmHalow.Lib.FirstFit

/-- An allocation a client holds: its payload and the bytes asked for. -/
structure Alloc where
  ptr : Nat
  req : Nat
  deriving Repr, DecidableEq

/-- The heap and the allocations the client holds. -/
structure HeapState where
  heap : Heap
  live : List Alloc

/-- A call on the heap, or a write of the client to a byte. -/
inductive Call where
  | malloc (size : Nat)
  | free (ptr : Nat)
  | calloc (nitems size : Nat)
  | realloc (ptr size : Nat)
  | write (addr : Nat) (b : UInt8)
  deriving Repr, DecidableEq

/-- The client's record of an allocation that returned `p`. -/
def grant (p n : Nat) (live : List Alloc) : List Alloc := if p = 0 then live else ⟨p, n⟩ :: live

/-- The client's record of a block given back. -/
def drop (p : Nat) (live : List Alloc) : List Alloc := live.filter fun q => q.ptr ≠ p

/-- The effect of a call on the heap and on what the client holds. -/
def exec (P : Pool) (c : Call) (s : HeapState) : Option HeapState :=
  match c with
  | .malloc size =>
    (osalMalloc P.abi P.heapSize size s.heap).map fun r => ⟨r.2, grant r.1 size s.live⟩
  | .free ptr => (osalFree P.abi P.heapSize ptr s.heap).map fun h => ⟨h, drop ptr s.live⟩
  | .calloc nitems size =>
    (mmosalCalloc P.abi P.heapSize nitems size s.heap).map fun r =>
      ⟨r.2, grant r.1 (nitems * size) s.live⟩
  | .realloc ptr size =>
    (mmosalRealloc P.abi P.heapSize ptr size s.heap).map fun r =>
      ⟨r.2, if ptr = 0 then grant r.1 size s.live
        else if size = 0 then drop ptr s.live
        else if r.1 = 0 then s.live
        else ⟨r.1, size⟩ :: drop ptr s.live⟩
  | .write addr b => some { s with heap := { s.heap with mem := Function.update s.heap.mem addr b } }

/-- A pointer the client may pass: `NULL`, or a block it holds. -/
def Held (live : List Alloc) (p : Nat) : Prop := p = 0 ∨ ∃ q ∈ live, q.ptr = p

/-- The client's side of a call: `size_t` arguments, only blocks it holds, writes only inside
them. -/
def Legal (P : Pool) (live : List Alloc) : Call → Prop
  | .malloc size => size < P.abi.sizeMod
  | .free ptr => Held live ptr
  | .calloc nitems size => nitems < P.abi.sizeMod ∧ size < P.abi.sizeMod
  | .realloc ptr size => Held live ptr ∧ size < P.abi.sizeMod
  | .write addr _ => ∃ q ∈ live, q.ptr ≤ addr ∧ addr < q.ptr + q.req

/-- One legal call that returns. -/
def HeapStep (P : Pool) (s : HeapState) (c : Call) (t : HeapState) : Prop :=
  Legal P s.live c ∧ exec P c s = some t

/-- The heap after `mm_halow_osal_init` on the pool, with nothing allocated. -/
def heapStart (P : Pool) (m0 : Mem) : HeapState :=
  ⟨(osalInit P.abi P.heapSize P.base ⟨m0, 0, 0⟩).2, []⟩

/-! ## The invariant -/

/-- **The block list is well formed**: what `mm_halow_heap_verify` checks, and how the blocks
relate to the allocations held. -/
structure ListWF (P : Pool) (bl : List Block) (live : List Alloc) : Prop where
  /-- The first block stands at the pool's start. -/
  first : bl.head?.map Block.addr = some P.base
  /-- Blocks stand in address order. -/
  ordered : bl.Pairwise fun b c => b.addr < c.addr
  /-- Each block's header and payload end where the next block begins. -/
  abut : bl.IsChain fun b c => b.addr + blockHdr P.abi + b.size = c.addr
  /-- The last block ends at the pool's end. -/
  last : ∀ b ∈ bl.getLast?, b.addr + blockHdr P.abi + b.size = P.base + P.heapSize
  /-- No two adjacent blocks are both free. -/
  apart : bl.IsChain fun b c => b.used = true ∨ c.used = true
  /-- The used blocks are exactly the live allocations, each held once. -/
  used_iff : ∀ p, (∃ b ∈ bl, b.used = true ∧ blockData P.abi b.addr = p) ↔ ∃ q ∈ live, q.ptr = p
  nodup : (live.map Alloc.ptr).Nodup
  /-- Every payload is 8-aligned. -/
  aligned : ∀ b ∈ bl, blockData P.abi b.addr % 8 = 0
  /-- Every live payload is at least as large as requested. -/
  large : ∀ q ∈ live, ∃ b ∈ bl, b.used = true ∧ blockData P.abi b.addr = q.ptr ∧ q.req ≤ b.size
  /-- Live payloads are pairwise disjoint. -/
  disjoint : ∀ b ∈ bl, ∀ c ∈ bl, b.used = true → c.used = true → b ≠ c →
    blockData P.abi b.addr + b.size ≤ blockData P.abi c.addr ∨
      blockData P.abi c.addr + c.size ≤ blockData P.abi b.addr
  /-- A live payload contains no block header. -/
  no_header : ∀ b ∈ bl, ∀ c ∈ bl, b.used = true →
    c.addr + blockHdr P.abi ≤ blockData P.abi b.addr ∨ blockData P.abi b.addr + b.size ≤ c.addr

/-- **The heap is well formed**: the walk along `next` ends, on a well-formed block list. -/
def HeapWF (P : Pool) (s : HeapState) : Prop :=
  ∃ bl, blockList P.abi s.heap.mem (P.heapSize + 1) s.heap.head = some bl ∧ ListWF P bl s.live

/-- The allocations held are the used segments. -/
structure Holds (P : Pool) (l : List Seg) (live : List Alloc) : Prop where
  nodup : (live.map Alloc.ptr).Nodup
  used : ∀ {p s}, (p, s) ∈ place (blockHdr P.abi) P.base l → s.used = true →
    ∃ q ∈ live, q.ptr = p + blockHdr P.abi
  block : ∀ q ∈ live, ∃ p s, (p, s) ∈ place (blockHdr P.abi) P.base l ∧ s.used = true ∧
    q.ptr = p + blockHdr P.abi ∧ q.req ≤ s.size

/-- The invariant: the heap represents a tiling whose used segments are the allocations held. -/
def Inv (P : Pool) (s : HeapState) : Prop := ∃ l, Rep P s.heap l ∧ Holds P l s.live

variable {P : Pool} {h h' : Heap} {l l' : List Seg} {live : List Alloc} {s : HeapState}

/-- No payload byte belongs to a header. -/
theorem payload_not_header {a p x : Nat} {t : Seg} {hdr : Nat} (ht : (p, t) ∈ place hdr a l)
    (h1 : p + hdr ≤ x) (h2 : x < p + hdr + t.size) {e : Nat × Seg} (he : e ∈ place hdr a l) :
    x < e.1 ∨ e.1 + hdr ≤ x := by
  by_cases hne : (p, t) = e
  · rw [← hne]
    exact Or.inr h1
  · have := place_disjoint ht he hne
    simp only at this
    omega

/-- Writes inside the payload of one block keep the representation. -/
theorem Rep.write_payload (hr : Rep P h l) {p : Nat} {t : Seg} {m' : Mem}
    (ht : (p, t) ∈ place (blockHdr P.abi) P.base l)
    (hm : ∀ x, x < p + blockHdr P.abi ∨ p + blockHdr P.abi + t.size ≤ x → m' x = h.mem x) :
    Rep P { h with mem := m' } l := by
  refine hr.write fun x ⟨e, he, h1, h2⟩ => hm x ?_
  by_contra hc
  have := payload_not_header ht (x := x) (by omega) (by omega) he
  omega

/-! ## One call -/

theorem mem_drop {p : Nat} {q : Alloc} : q ∈ drop p live ↔ q ∈ live ∧ q.ptr ≠ p := by
  simp [drop]

theorem drop_zero (hh : Holds P l live) : drop 0 live = live := by
  refine List.filter_eq_self.mpr fun q hq => ?_
  obtain ⟨p, s, -, -, hp, -⟩ := hh.block q hq
  have := blockHdr_pos P.abi
  simp only [ne_eq, decide_eq_true_eq]
  omega

/-- The block an allocation record stands for. -/
theorem Holds.of_ptr (hh : Holds P l live) {p : Nat} (hp : ∃ q ∈ live, q.ptr = p) :
    ∃ b t, (b, t) ∈ place (blockHdr P.abi) P.base l ∧ t.used = true ∧ p = blockData P.abi b := by
  obtain ⟨q, hq, rfl⟩ := hp
  obtain ⟨b, t, hb, hu, he, -⟩ := hh.block q hq
  exact ⟨b, t, hb, hu, he⟩

/-- An allocation is held from now on, and was not before. -/
theorem Holds.alloc {n p size : Nat} (hh : Holds P l live)
    (ha : alloc (blockHdr P.abi) blockAlign n P.base l = some (p, l')) (hn : size ≤ n) :
    Holds P l' (⟨blockData P.abi p, size⟩ :: live) := by
  have hpos := blockHdr_pos P.abi
  obtain ⟨s, k, hs, hfree, hnk, -, hnew, hmem⟩ := mem_place_alloc ha
  refine ⟨List.nodup_cons.mpr ⟨fun hin => ?_, hh.nodup⟩, fun {q t} hq ht => ?_, fun q hq => ?_⟩
  · obtain ⟨q, hq, he⟩ := List.mem_map.mp hin
    obtain ⟨b, t, hb, hu, hptr, -⟩ := hh.block q hq
    have hbp : b = p := by
      unfold blockData at he
      simp only at he
      omega
    rw [hbp] at hb
    rw [place_unique hpos hb hs, hfree] at hu
    exact Bool.noConfusion hu
  · rcases (hmem q t ht).mp hq with h | h
    · obtain ⟨rfl, rfl⟩ := Prod.mk.inj h
      exact ⟨_, List.mem_cons_self, rfl⟩
    · obtain ⟨u, hu, he⟩ := hh.used h ht
      exact ⟨u, List.mem_cons_of_mem _ hu, he⟩
  · rcases List.mem_cons.mp hq with rfl | hq
    · exact ⟨p, ⟨k, true⟩, hnew, rfl, rfl, by simp only; omega⟩
    · obtain ⟨b, t, hb, hu, he⟩ := hh.block q hq
      exact ⟨b, t, (hmem b t hu).mpr (Or.inr hb), hu, he⟩

/-- A block given back is not held any more. -/
theorem Holds.release {p : Nat} {s : Seg} (hh : Holds P l live)
    (hs : (p, s) ∈ place (blockHdr P.abi) P.base l) :
    Holds P (coalesce (blockHdr P.abi) (mark (blockHdr P.abi) p P.base l))
      (drop (blockData P.abi p) live) := by
  have hpos := blockHdr_pos P.abi
  refine ⟨(List.filter_sublist.map _).nodup hh.nodup, fun {q t} hq ht => ?_, fun q hq => ?_⟩
  · obtain ⟨hq, hne⟩ := (used_release hpos hs ht).mp hq
    obtain ⟨u, hu, he⟩ := hh.used hq ht
    refine ⟨u, mem_drop.mpr ⟨hu, ?_⟩, he⟩
    unfold blockData
    omega
  · obtain ⟨hq, hne⟩ := mem_drop.mp hq
    obtain ⟨b, t, hb, hu, he, hreq⟩ := hh.block q hq
    refine ⟨b, t, (used_release hpos hs hu).mpr ⟨hb, ?_⟩, hu, he, hreq⟩
    rintro rfl
    exact hne he

/-- The request recorded for a block may change while it fits. -/
theorem Holds.resize {p size : Nat} {t : Seg} (hh : Holds P l live)
    (ht : (p, t) ∈ place (blockHdr P.abi) P.base l) (hu : t.used = true) (hsize : size ≤ t.size) :
    Holds P l (⟨blockData P.abi p, size⟩ :: drop (blockData P.abi p) live) := by
  refine ⟨List.nodup_cons.mpr ⟨fun hin => ?_, (List.filter_sublist.map _).nodup hh.nodup⟩,
    fun {q v} hq hv => ?_, fun q hq => ?_⟩
  · obtain ⟨q, hq, he⟩ := List.mem_map.mp hin
    exact (mem_drop.mp hq).2 he
  · by_cases hqp : q = p
    · exact ⟨_, List.mem_cons_self, by rw [hqp]; rfl⟩
    · obtain ⟨w, hw, he⟩ := hh.used hq hv
      refine ⟨w, List.mem_cons_of_mem _ (mem_drop.mpr ⟨hw, ?_⟩), he⟩
      unfold blockData
      omega
  · rcases List.mem_cons.mp hq with rfl | hq
    · exact ⟨p, t, ht, hu, rfl, hsize⟩
    · exact hh.block q (mem_drop.mp hq).1

/-- **`mm_halow_osal_malloc`**, seen by a client: nothing changes and the result is `NULL`, or the
result is a fresh block of at least `size` bytes, and memory changes only inside what was free. -/
theorem malloc_client (hr : Rep P h l) (hh : Holds P l live) (size : Nat) :
    osalMalloc P.abi P.heapSize size h = some (0, h) ∨
    ∃ p l' h' t, osalMalloc P.abi P.heapSize size h = some (blockData P.abi p, h') ∧ 0 < size ∧
      Rep P h' l' ∧ Holds P l' (⟨blockData P.abi p, size⟩ :: live) ∧
      (p, t) ∈ place (blockHdr P.abi) P.base l' ∧ t.used = true ∧ size ≤ t.size ∧
      (∀ q u, u.used = true → (q, u) ∈ place (blockHdr P.abi) P.base l → q ≠ p ∧
        (q, u) ∈ place (blockHdr P.abi) P.base l') := by
  have hpos := blockHdr_pos P.abi
  rcases hr.malloc size with ⟨h0, -⟩ | ⟨p, l', h', hm, h0, -, ha, hr', -⟩
  · exact Or.inl h0
  · obtain ⟨s, k, hs, hfree, hnk, -, hnew, hmem⟩ := mem_place_alloc ha
    have hround : size ≤ rounded size := by unfold rounded; omega
    refine Or.inr ⟨p, l', h', ⟨k, true⟩, hm, h0, hr', hh.alloc ha hround, hnew, rfl,
      hround.trans hnk, fun q u hu hq => ⟨?_, (hmem q u hu).mpr (Or.inr hq)⟩⟩
    rintro rfl
    rw [place_unique hpos hq hs, hfree] at hu
    exact Bool.noConfusion hu

theorem blockData_ne_zero (P : Pool) (p : Nat) : blockData P.abi p ≠ 0 := by
  have := blockHdr_pos P.abi
  unfold blockData
  omega

theorem Inv.malloc (hi : Inv P s) (size : Nat) :
    ∃ r h', osalMalloc P.abi P.heapSize size s.heap = some (r, h') ∧
      Inv P ⟨h', grant r size s.live⟩ := by
  obtain ⟨l, hr, hh⟩ := hi
  rcases malloc_client hr hh size with hm | ⟨p, l', h', t, hm, -, hr', hh', -⟩
  · exact ⟨0, s.heap, hm, l, hr, by simpa [grant] using hh⟩
  · refine ⟨_, h', hm, l', hr', ?_⟩
    rw [grant, if_neg (blockData_ne_zero P p)]
    exact hh'

theorem Inv.free (hi : Inv P s) {p : Nat} (hp : Held s.live p) :
    ∃ h', osalFree P.abi P.heapSize p s.heap = some h' ∧ Inv P ⟨h', drop p s.live⟩ := by
  obtain ⟨l, hr, hh⟩ := hi
  rcases hp with rfl | hp
  · exact ⟨s.heap, by rw [osalFree, if_pos (Or.inl rfl)], l, hr, by rw [drop_zero hh]; exact hh⟩
  · obtain ⟨b, t, hb, -, rfl⟩ := hh.of_ptr hp
    obtain ⟨h', hf, hr', -⟩ := hr.free hb
    exact ⟨h', hf, _, hr', hh.release hb⟩

/-- A product that passes the overflow check does not wrap. -/
theorem calloc_total {abi : Abi} {nitems size : Nat}
    (h : ¬ (nitems ≠ 0 ∧ size > (abi.sizeMod - 1) / nitems)) :
    nitems * size % abi.sizeMod = nitems * size := by
  have hpos : 0 < abi.sizeMod := by unfold Abi.sizeMod; exact Nat.pow_pos (by decide)
  apply Nat.mod_eq_of_lt
  by_cases h0 : nitems = 0
  · rw [h0, Nat.zero_mul]
    exact hpos
  · have hle : size ≤ (abi.sizeMod - 1) / nitems := by
      by_contra hc
      exact h ⟨h0, by omega⟩
    have := (Nat.mul_le_mul_left nitems hle).trans (Nat.mul_div_le _ _)
    omega

theorem Inv.calloc (hi : Inv P s) (nitems size : Nat) :
    ∃ r h', mmosalCalloc P.abi P.heapSize nitems size s.heap = some (r, h') ∧
      Inv P ⟨h', grant r (nitems * size) s.live⟩ := by
  unfold mmosalCalloc
  split
  · exact ⟨0, s.heap, rfl, by simpa [grant] using hi⟩
  · rename_i hfit
    rw [calloc_total hfit]
    obtain ⟨l, hr, hh⟩ := hi
    rcases malloc_client hr hh (nitems * size) with hm | ⟨p, l', h', t, hm, -, hr', hh', ht, -, hk, -⟩
    · exact ⟨0, s.heap, by simp only [hm]; rfl, l, hr, by simpa [grant] using hh⟩
    · have hne := blockData_ne_zero P p
      refine ⟨blockData P.abi p, { h' with mem := fill h'.mem (blockData P.abi p) 0 (nitems * size) },
        by simp only [hm, Option.map_some, if_pos hne], l', ?_, ?_⟩
      · refine hr'.write_payload ht fun x hx => fill_out ?_
        unfold blockData
        omega
      · rw [grant, if_neg hne]
        exact hh'

theorem Inv.realloc (hi : Inv P s) {ptr : Nat} (hp : Held s.live ptr) (size : Nat) :
    ∃ t, exec P (.realloc ptr size) s = some t ∧ Inv P t := by
  unfold exec mmosalRealloc
  rcases hp with rfl | hp
  · obtain ⟨r, h', hm, hi'⟩ := hi.malloc size
    exact ⟨_, by simp only [if_true, hm, Option.map_some], hi'⟩
  · obtain ⟨l, hr, hh⟩ := hi
    obtain ⟨b, t, hb, hu, rfl⟩ := hh.of_ptr hp
    have hne := blockData_ne_zero P b
    have hdata : dataBlock P.abi (blockData P.abi b) = b := by
      unfold dataBlock blockData
      omega
    simp only [if_neg hne, hdata, hr.chain.size_eq hb]
    by_cases h0 : size = 0
    · obtain ⟨h', hf, hr', -⟩ := hr.free hb
      simp only [if_pos h0, hf]
      exact ⟨_, rfl, _, hr', hh.release hb⟩
    · simp only [if_neg h0]
      by_cases hfit : t.size ≥ size
      · simp only [if_pos hfit, Option.map_some, if_neg hne]
        exact ⟨_, rfl, l, hr, hh.resize hb hu hfit⟩
      · simp only [if_neg hfit]
        rcases malloc_client hr hh size with hm | ⟨p, l', h', u, hm, -, hr', hh', hpu, -, hk, hold⟩
        · simp only [hm]
          exact ⟨_, rfl, l, hr, hh⟩
        · -- the block moves: copy the old payload, then give it back
          have hnp := blockData_ne_zero P p
          obtain ⟨-, hb'⟩ := hold b t hu hb
          have hrc : Rep P { h' with mem := copy h'.mem (blockData P.abi p) (blockData P.abi b) t.size }
              l' := by
            refine hr'.write_payload hpu fun x hx => copy_out ?_
            unfold blockData
            omega
          obtain ⟨h'', hf, hr'', -⟩ := hrc.free hb'
          have hrel := hh'.release hb'
          have hpb : blockData P.abi p ≠ blockData P.abi b := by
            have := (hold b t hu hb).1
            unfold blockData
            omega
          have hdrop : drop (blockData P.abi b) (⟨blockData P.abi p, size⟩ :: s.live) =
              ⟨blockData P.abi p, size⟩ :: drop (blockData P.abi b) s.live := by
            unfold drop
            rw [List.filter_cons_of_pos (by simpa using hpb)]
          rw [hdrop] at hrel
          simp only [hm, Option.bind_some, if_pos hnp, hf, Option.map_some, if_neg hnp]
          exact ⟨_, rfl, _, hr'', hrel⟩

theorem Inv.write (hi : Inv P s) {addr : Nat} (b : UInt8)
    (hw : ∃ q ∈ s.live, q.ptr ≤ addr ∧ addr < q.ptr + q.req) :
    Inv P { s with heap := { s.heap with mem := Function.update s.heap.mem addr b } } := by
  obtain ⟨l, hr, hh⟩ := hi
  obtain ⟨q, hq, h1, h2⟩ := hw
  obtain ⟨p, t, hp, -, he, hreq⟩ := hh.block q hq
  exact ⟨l, hr.write_payload hp fun x hx => Function.update_of_ne (by omega) _ _, hh⟩

/-- **Every legal call returns and keeps the invariant.** -/
theorem Inv.exec (hi : Inv P s) {c : Call} (hc : Legal P s.live c) :
    ∃ t, exec P c s = some t ∧ Inv P t := by
  cases c with
  | malloc size =>
    obtain ⟨r, h', hm, hi'⟩ := hi.malloc size
    exact ⟨_, by rw [Osal.exec, hm]; rfl, hi'⟩
  | free ptr =>
    obtain ⟨h', hf, hi'⟩ := hi.free hc
    exact ⟨_, by rw [Osal.exec, hf]; rfl, hi'⟩
  | calloc nitems size =>
    obtain ⟨r, h', hm, hi'⟩ := hi.calloc nitems size
    exact ⟨_, by rw [Osal.exec, hm]; rfl, hi'⟩
  | realloc ptr size => exact hi.realloc hc.1 size
  | write addr b => exact ⟨_, rfl, hi.write b hc⟩

/-! ## The invariant on the block list -/

/-- The invariant implies what the walk along `next` finds. -/
theorem Inv.wf (hi : Inv P s) : HeapWF P s := by
  obtain ⟨l, hr, hh⟩ := hi
  have hpos := blockHdr_pos P.abi
  have hlist := hr.chain.blockList_eq hr.length_lt P.base_pos
  rw [startOf_of_ne_nil hr.ne_nil] at hlist
  refine ⟨_, by rw [hr.head_eq]; exact hlist, ?_⟩
  have hmem : ∀ b : Block, b ∈ (place (blockHdr P.abi) P.base l).map
      (fun e => (⟨e.1, e.2.size, e.2.used⟩ : Block)) →
      (b.addr, (⟨b.size, b.used⟩ : Seg)) ∈ place (blockHdr P.abi) P.base l := by
    intro b hb
    obtain ⟨e, he, rfl⟩ := List.mem_map.mp hb
    exact he
  have hof : ∀ {p : Nat} {t : Seg}, (p, t) ∈ place (blockHdr P.abi) P.base l →
      (⟨p, t.size, t.used⟩ : Block) ∈ (place (blockHdr P.abi) P.base l).map
        (fun e => (⟨e.1, e.2.size, e.2.used⟩ : Block)) :=
    fun ht => List.mem_map.mpr ⟨_, ht, rfl⟩
  have hchain := place_isChain (blockHdr P.abi) P.base hr.tiled.apart
  refine ⟨?_, ?_, ?_, ?_, ?_, fun p => ⟨?_, ?_⟩, hh.nodup, ?_, ?_, ?_, ?_⟩
  · obtain ⟨t, l', rfl⟩ := List.exists_cons_of_ne_nil hr.ne_nil
    rfl
  · refine List.pairwise_map.mpr ((place_pairwise P.base l).imp fun {e f} hef => ?_)
    simp only
    omega
  · exact List.isChain_map _ |>.mpr (hchain.imp fun {e f} hef => hef.1)
  · intro b hb
    have hlast := place_getLast (blockHdr P.abi) P.base l
    rw [List.getLast?_map, Option.mem_def, Option.map_eq_some_iff] at hb
    obtain ⟨e, he, rfl⟩ := hb
    rw [← hr.tiled.span_eq]
    exact hlast e he
  · exact List.isChain_map _ |>.mpr (hchain.imp fun {e f} hef => hef.2)
  · rintro ⟨b, hb, hu, rfl⟩
    exact hh.used (hmem b hb) hu
  · intro hq
    obtain ⟨b, t, hb, hu, he⟩ := hh.of_ptr hq
    exact ⟨_, hof hb, hu, he.symm⟩
  · intro b hb
    have h1 := hr.tiled.aligned _ (hmem b hb)
    have h2 := blockHdr_align P.abi
    unfold blockAlign at h1 h2
    unfold blockData
    omega
  · intro q hq
    obtain ⟨p, t, hp, hu, he, hreq⟩ := hh.block q hq
    exact ⟨_, hof hp, hu, he.symm, hreq⟩
  · intro b hb c hc hbu hcu hne
    have := place_disjoint (hmem b hb) (hmem c hc) fun e => hne (by
      obtain ⟨h1, h2⟩ := Prod.mk.inj e
      obtain ⟨h3, h4⟩ := Seg.mk.inj h2
      cases b; cases c
      simp_all)
    unfold blockData
    simp only at this
    omega
  · intro b hb c hc hbu
    by_cases hcb : c.addr = b.addr
    · exact Or.inl (by rw [hcb]; exact le_refl _)
    · have := place_disjoint (hmem b hb) (hmem c hc) fun e => hcb (Prod.mk.inj e).1.symm
      unfold blockData
      simp only at this
      omega

theorem inv_start (P : Pool) (m0 : Mem) : Inv P (heapStart P m0) := by
  obtain ⟨h, hinit, hr⟩ := Rep.init P ⟨m0, 0, 0⟩ rfl
  refine ⟨[⟨P.heapSize - blockHdr P.abi, false⟩], ?_, List.nodup_nil, fun {p s} hp hs => ?_,
    fun q hq => absurd hq List.not_mem_nil⟩
  · unfold heapStart
    rw [hinit]
    exact hr
  · rw [place, place, List.mem_singleton] at hp
    rw [(Prod.mk.inj hp).2] at hs
    exact Bool.noConfusion hs

/-- Every run keeps the representation and what the client holds. -/
theorem Inv.run {P : Pool} {m0 : Mem} {calls : List Call} {s : HeapState}
    (h : Run (HeapStep P) (heapStart P m0) calls s) : Inv P s :=
  h.inv (inv_start P m0) fun t c u hi hs => by
    obtain ⟨u', hu, hi'⟩ := hi.exec hs.1
    rw [hs.2] at hu
    rw [Option.some.inj hu]
    exact hi'

/-- **The representation invariant of the heap.** After `mm_halow_osal_init` and any legal calls
the block list is well formed, and every further legal call returns. -/
theorem heap_run_wf (P : Pool) (m0 : Mem) {calls : List Call} {s : HeapState}
    (hrun : Run (HeapStep P) (heapStart P m0) calls s) :
    HeapWF P s ∧ ∀ c, Legal P s.live c → ∃ t, exec P c s = some t := by
  have hi : Inv P s := Inv.run hrun
  exact ⟨hi.wf, fun c hc => (hi.exec hc).imp fun t ht => ht.1⟩

/-- The default pool of 96 KiB, at the start of the target's RAM. -/
def ramPool : Pool where
  abi := .ilp32
  heapSize := 96 * 1024
  base := 0x20000000
  base_pos := by decide
  base_aligned := by decide
  hdr_le := by decide
  fits := by decide

/-- Two allocations on the default pool. -/
theorem heap_run_wf_ramPool : ∃ s, Run (HeapStep ramPool) (heapStart ramPool fun _ => 0)
    [.malloc 100, .calloc 4 8] s ∧ HeapWF ramPool s := by
  have h0 := (heap_run_wf ramPool (fun _ => 0) Run.nil).2 (.malloc 100)
    (show 100 < Abi.sizeMod .ilp32 by decide)
  obtain ⟨t, ht⟩ := h0
  have hr : Run (HeapStep ramPool) (heapStart ramPool fun _ => 0) [.malloc 100] t :=
    Run.single ⟨show 100 < Abi.sizeMod .ilp32 by decide, ht⟩
  obtain ⟨u, hu⟩ := (heap_run_wf ramPool _ hr).2 (.calloc 4 8)
    (show 4 < Abi.sizeMod .ilp32 ∧ 8 < Abi.sizeMod .ilp32 by decide)
  have hs : HeapStep ramPool t (.calloc 4 8) u :=
    ⟨show 4 < Abi.sizeMod .ilp32 ∧ 8 < Abi.sizeMod .ilp32 by decide, hu⟩
  have hr2 := Run.snoc hr hs
  exact ⟨u, hr2, (heap_run_wf ramPool _ hr2).1⟩

end MmHalow.Osal
