import MmHalow.Lib.FirstFit
import MmHalow.Osal.Heap

/-!
# The heap in memory refines first-fit allocation over a tiled interval

`Chain m a l` says that the headers found in memory from `a` on are the segments of `l`, each
`next` pointing at the next segment and the last one being `NULL`. `Rep P h l` adds that the pool
is the one of `P` and that `l` tiles it (`FirstFit.Tiled`).

* `mallocLoop_some`, `mallocLoop_none`: the walk of `mm_halow_osal_malloc` computes
  `FirstFit.alloc`, writing only inside the block it takes.
* `coalesceLoop_spec`: the walk of `mm_halow_osal_free` computes `FirstFit.coalesce`, writing only
  to headers.
* `Rep.init`, `Rep.malloc`, `Rep.free`: the operations keep `Rep`; the fuel always suffices.
* `Rep.write`: so does a write to a payload.
-/

namespace MmHalow.Osal

open MmHalow.Lib.Bytes MmHalow.Lib.FirstFit

/-- A pool the port has supplied: `MM_HALOW_HEAP_SIZE` bytes at `base`, 8-byte aligned, inside the
address space (its end included), large enough for one header. -/
structure Pool where
  abi : Abi
  heapSize : Nat
  base : Nat
  base_pos : 0 < base
  base_aligned : base % blockAlign = 0
  hdr_le : blockHdr abi ≤ heapSize
  fits : base + heapSize < abi.sizeMod

theorem Pool.base_ge (P : Pool) : 8 ≤ P.base := by
  have h1 := P.base_pos
  have h2 := P.base_aligned
  unfold blockAlign at h2
  omega

/-- The pointer to a list that would start at `a`. -/
def startOf (a : Nat) : List Seg → Nat
  | [] => 0
  | _ :: _ => a

/-- The headers in memory from `a` on are the segments of `l`. -/
def Chain (abi : Abi) (m : Mem) : Nat → List Seg → Prop
  | _, [] => True
  | a, s :: l =>
    blockUsed abi m a = s.used ∧ blockSize abi m a = s.size ∧
      blockNext abi m a = startOf (a + blockHdr abi + s.size) l ∧
      Chain abi m (a + blockHdr abi + s.size) l

/-- **The representation**: `h` holds the pool of `P`, cut into the segments of `l`. -/
structure Rep (P : Pool) (h : Heap) (l : List Seg) : Prop where
  head_eq : h.head = P.base
  mem_eq : h.heapMem = P.base
  chain : Chain P.abi h.mem P.base l
  tiled : Tiled (blockHdr P.abi) blockAlign P.base P.heapSize l

variable {abi : Abi} {m m' : Mem} {a n : Nat} {l : List Seg}

theorem startOf_of_ne_nil (h : l ≠ []) : startOf a l = a := by
  cases l with
  | nil => exact absurd rfl h
  | cons s l => rfl

/-! ## Frames -/

/-- The representation reads only the headers. -/
theorem Chain.congr : ∀ {l : List Seg} {a : Nat}, Chain abi m a l →
    (∀ e ∈ place (blockHdr abi) a l, ∀ x, e.1 ≤ x → x < e.1 + blockHdr abi → m' x = m x) →
    Chain abi m' a l
  | [], _, _, _ => trivial
  | s :: l, a, ⟨hu, hs, hn, hl⟩, h => by
    obtain ⟨e1, e2, e3⟩ := header_congr abi a (h (a, s) List.mem_cons_self)
    exact ⟨e3.trans hu, e2.trans hs, e1.trans hn,
      hl.congr fun e he => h e (List.mem_cons_of_mem _ he)⟩

/-- Writes outside a range of segments leave them alone. -/
theorem Chain.congr_range (hc : Chain abi m a l)
    (h : ∀ x, a ≤ x → x < a + span (blockHdr abi) l → m' x = m x) : Chain abi m' a l := by
  refine hc.congr fun e he x h1 h2 => ?_
  obtain ⟨h3, h4⟩ := mem_place_bounds (p := e.1) (s := e.2) he
  exact h x (by omega) (by omega)

/-! ## Writing a header -/

/-- The three fields of a header written, in the order of the source. -/
def setHeader (abi : Abi) (m : Mem) (b next size : Nat) (used : Bool) : Mem :=
  setBlockUsed abi (setBlockSize abi (setBlockNext abi m b next) b size) b used

theorem setHeader_out {b next size x : Nat} {u : Bool} (h : x < b ∨ b + blockHdr abi ≤ x) :
    setHeader abi m b next size u x = m x := by
  unfold setHeader
  rw [setBlockUsed_out h, setBlockSize_out h, setBlockNext_out h]

theorem setHeader_fields (m : Mem) (b next size : Nat) (u : Bool) (h1 : next < abi.sizeMod)
    (h2 : size < abi.sizeMod) :
    blockUsed abi (setHeader abi m b next size u) b = u ∧
      blockSize abi (setHeader abi m b next size u) b = size ∧
      blockNext abi (setHeader abi m b next size u) b = next := by
  unfold setHeader
  refine ⟨blockUsed_setUsed, ?_, ?_⟩
  · rw [blockSize_setUsed, blockSize_setSize h2]
  · rw [blockNext_setUsed, blockNext_setSize, blockNext_setNext h1]

/-! ## Allocation -/

/-- The block taken is carved as `FirstFit.carve` says. -/
theorem take_spec {s : Seg} (hc : Chain abi m a (s :: l)) (hn : n ≤ s.size) (ha : 8 ≤ a)
    (hfits : a + blockHdr abi + s.size < abi.sizeMod) :
    Chain abi (setBlockUsed abi (splitBlock abi n m a) a true) a
        (carve (blockHdr abi) blockAlign n s ++ l) ∧
      ∀ x, x < a ∨ a + blockHdr abi + s.size ≤ x →
        setBlockUsed abi (splitBlock abi n m a) a true x = m x := by
  obtain ⟨-, hsize, hnext, hl⟩ := hc
  have hal : blockAlign = 8 := rfl
  have hmod : (n + blockHdr abi + blockAlign) % abi.sizeMod = n + blockHdr abi + blockAlign :=
    Nat.mod_eq_of_lt (by omega)
  unfold splitBlock carve
  rw [hmod, hsize]
  split
  · rename_i hsplit
    have hsz : blockSize abi (setBlockNext abi m (a + blockHdr abi + n) (blockNext abi m a)) a =
        s.size := by
      rw [← hsize]
      exact (header_congr abi a fun x h1 h2 => setBlockNext_out (by omega)).2.1
    have hsub : sizeSub abi (sizeSub abi s.size n) (blockHdr abi) = s.size - n - blockHdr abi := by
      rw [sizeSub_eq hn (by omega), sizeSub_eq (by omega) (by omega)]
    have hend : a + blockHdr abi + n + blockHdr abi + (s.size - n - blockHdr abi) =
        a + blockHdr abi + s.size := by omega
    simp only [hsz, hsub]
    -- the header of the remainder, then the one of the block taken
    let m1 := setHeader abi m (a + blockHdr abi + n) (blockNext abi m a)
      (s.size - n - blockHdr abi) false
    change Chain abi (setHeader abi m1 a (a + blockHdr abi + n) n true) a _ ∧
      ∀ x, _ → setHeader abi m1 a (a + blockHdr abi + n) n true x = m x
    have hnx : blockNext abi m a < abi.sizeMod := load_lt m _ _
    obtain ⟨u1, s1, n1⟩ := setHeader_fields m1 a (a + blockHdr abi + n) n true
      (show _ < abi.sizeMod by omega) (show _ < abi.sizeMod by omega)
    obtain ⟨u2, s2, n2⟩ := setHeader_fields m (a + blockHdr abi + n) _
      (s.size - n - blockHdr abi) false hnx (show _ < abi.sizeMod by omega)
    obtain ⟨e1, e2, e3⟩ := header_congr abi (a + blockHdr abi + n)
      (show ∀ x, _ → _ → setHeader abi m1 a (a + blockHdr abi + n) n true x = m1 x from
        fun x h1 h2 => setHeader_out (by omega))
    refine ⟨⟨u1, s1, n1, e3.trans u2, e2.trans s2, ?_, ?_⟩, fun x hx => ?_⟩
    · rw [e1, n2, hnext]
      simp only [hend]
      rfl
    · simp only [hend]
      refine hl.congr_range fun x h1 h2 => ?_
      exact (setHeader_out (by omega)).trans (setHeader_out (by omega))
    · exact (setHeader_out (by omega)).trans (setHeader_out (by omega))
  · refine ⟨⟨by simp, by rw [blockSize_setUsed, hsize], by rw [blockNext_setUsed, hnext]; rfl, ?_⟩,
      fun x hx => setBlockUsed_out (by omega)⟩
    exact hl.congr_range fun x h1 h2 => setBlockUsed_out (by omega)

theorem alloc_ne_nil {hdr align p : Nat} {l' : List Seg} (h : alloc hdr align n a l = some (p, l')) :
    l ≠ [] ∧ l' ≠ [] := by
  obtain ⟨pre, s, post, rfl, -, -, -, hn, rfl⟩ := alloc_some h
  obtain ⟨k, rest, hc, -⟩ := carve_head hdr align hn
  rw [hc]
  simp

/-- The walk finds nothing where first fit finds nothing. -/
theorem mallocLoop_none : ∀ {l : List Seg} {a fuel : Nat}, Chain abi m a l → l.length < fuel →
    8 ≤ a → alloc (blockHdr abi) blockAlign n a l = none →
    mallocLoop abi n fuel m (startOf a l) = some (0, m)
  | [], _, fuel + 1, _, _, _, _ => by simp [mallocLoop, startOf]
  | s :: l, a, fuel + 1, ⟨hu, hs, hn, hl⟩, hf, ha, h => by
    have hskip := alloc_none_iff.mp h s List.mem_cons_self
    have hrest : alloc (blockHdr abi) blockAlign n (a + blockHdr abi + s.size) l = none :=
      alloc_none_iff.mpr fun t ht => alloc_none_iff.mp h t (List.mem_cons_of_mem _ ht)
    rw [mallocLoop, startOf, if_neg (by omega), hu, hs, if_pos hskip, hn]
    exact mallocLoop_none hl (by simpa using hf) (by omega) hrest

/-- **The walk computes first fit**, and writes only inside the block it takes. -/
theorem mallocLoop_some {p : Nat} : ∀ {l l' : List Seg} {a fuel : Nat},
    Chain abi m a l → l.length < fuel → 8 ≤ a → a + span (blockHdr abi) l < abi.sizeMod →
    alloc (blockHdr abi) blockAlign n a l = some (p, l') →
    ∃ m', mallocLoop abi n fuel m (startOf a l) = some (blockData abi p, m') ∧ Chain abi m' a l' ∧
      ∀ s, (p, s) ∈ place (blockHdr abi) a l →
        ∀ x, x < p ∨ p + blockHdr abi + s.size ≤ x → m' x = m x
  | [], _, _, _, _, _, _, _, h => by simp [alloc] at h
  | s :: l, l', a, fuel + 1, hc, hf, ha, hfits, h => by
    have hpos := blockHdr_pos abi
    obtain ⟨hu, hs, hn, hl⟩ := hc
    rw [span] at hfits
    rw [alloc] at h
    rw [mallocLoop, startOf, if_neg (by omega), hu, hs]
    split at h
    · rename_i hskip
      obtain ⟨⟨q, r⟩, hr, he⟩ := Option.map_eq_some_iff.mp h
      obtain ⟨rfl, rfl⟩ := Prod.mk.inj he
      obtain ⟨t, k, hmem, -⟩ := mem_place_alloc hr
      have hb := mem_place_bounds hmem
      obtain ⟨m', hm, hc', hframe⟩ := mallocLoop_some hl (by simpa using hf) (by omega) (by omega) hr
      rw [if_pos hskip, hn, hm]
      refine ⟨m', rfl, ?_, fun u hmu => ?_⟩
      · obtain ⟨e1, e2, e3⟩ := header_congr abi a fun x h1 h2 =>
          hframe t hmem x (by omega)
        have hne := alloc_ne_nil hr
        rw [startOf_of_ne_nil hne.1] at hn
        refine ⟨e3.trans hu, e2.trans hs, ?_, hc'⟩
        rw [startOf_of_ne_nil hne.2]
        exact e1.trans hn
      · rcases List.mem_cons.mp hmu with hmu | hmu
        · have := (Prod.mk.inj hmu).1
          omega
        · exact hframe u hmu
    · rename_i htake
      obtain ⟨rfl, rfl⟩ := Prod.mk.inj (Option.some.inj h)
      have ht : s.used = false ∧ n ≤ s.size := by simpa using htake
      obtain ⟨hc', hframe⟩ := take_spec ⟨hu, hs, hn, hl⟩ ht.2 ha (by omega)
      rw [if_neg htake]
      refine ⟨_, rfl, hc', fun u hmu => ?_⟩
      have hus : u = s := place_unique hpos hmu List.mem_cons_self
      rw [hus]
      exact hframe

/-! ## Release -/

/-- Clearing `used` of the block at `p` is `FirstFit.mark`. -/
theorem Chain.markFree {p : Nat} {s : Seg} : ∀ {l : List Seg} {a : Nat}, Chain abi m a l →
    (p, s) ∈ place (blockHdr abi) a l →
    Chain abi (setBlockUsed abi m p false) a (mark (blockHdr abi) p a l)
  | [], _, _, h => absurd h List.not_mem_nil
  | t :: l, a, ⟨hu, hs, hn, hl⟩, h => by
    have hpos := blockHdr_pos abi
    rw [mark]
    split
    · rename_i hap
      subst hap
      refine ⟨by simp, by simp [hs], by simp [hn], hl.congr_range fun x h1 h2 => ?_⟩
      exact setBlockUsed_out (by omega)
    · rename_i hap
      have hmem : (p, s) ∈ place (blockHdr abi) (a + blockHdr abi + t.size) l := by
        rcases List.mem_cons.mp h with h | h
        · exact absurd (Prod.mk.inj h).1.symm hap
        · exact h
      have hb := mem_place_bounds hmem
      obtain ⟨e1, e2, e3⟩ := header_congr abi a
        (show ∀ x, _ → _ → setBlockUsed abi m p false x = m x from
          fun x h1 h2 => setBlockUsed_out (by omega))
      refine ⟨e3.trans hu, e2.trans hs, ?_, hl.markFree hmem⟩
      rw [e1, hn]
      cases l with
      | nil => exact absurd hmem List.not_mem_nil
      | cons u l =>
        rw [mark]
        split <;> rfl

theorem coalesce_ne_nil {hdr : Nat} (h : l ≠ []) : coalesce hdr l ≠ [] := by
  induction l using coalesce.induct hdr with
  | case1 => exact absurd rfl h
  | case2 s => simp [coalesce]
  | case3 s t l hst ih => rw [coalesce, if_pos hst]; exact ih (by simp)
  | case4 s t l hst ih => rw [coalesce, if_neg hst]; simp

/-- **The coalescing walk computes `FirstFit.coalesce`**, and writes only to headers. -/
theorem coalesceLoop_spec : ∀ (l : List Seg) {m : Mem} {a fuel : Nat}, l ≠ [] → Chain abi m a l →
    l.length < fuel → 0 < a → a + span (blockHdr abi) l < abi.sizeMod →
    ∃ m', coalesceLoop abi fuel m a = some m' ∧ Chain abi m' a (coalesce (blockHdr abi) l) ∧
      ∀ x, (∀ e ∈ place (blockHdr abi) a l, x < e.1 ∨ e.1 + blockHdr abi ≤ x) → m' x = m x := by
  intro l
  have hpos := blockHdr_pos abi
  induction l using coalesce.induct (blockHdr abi) with
  | case1 => intro m a fuel h; exact absurd rfl h
  | case2 s =>
    intro m a fuel _ hc hf ha _
    obtain ⟨fuel, rfl⟩ : ∃ k, fuel = k + 1 := ⟨fuel - 1, by omega⟩
    obtain ⟨hu, hs, hn, hl⟩ := hc
    refine ⟨m, ?_, by rw [coalesce]; exact ⟨hu, hs, hn, hl⟩, fun x _ => rfl⟩
    rw [coalesceLoop, if_neg (by omega), if_pos (by rw [hn]; rfl)]
  | case3 s t l hst ih =>
    intro m a fuel _ hc hf ha hfits
    obtain ⟨fuel, rfl⟩ : ∃ k, fuel = k + 1 := ⟨fuel - 1, by simp at hf; omega⟩
    obtain ⟨hu, hs, hn, htu, hts, htn, hl⟩ := hc
    simp only [span] at hfits
    rw [startOf] at hn
    have hsum : (s.size + (blockHdr abi + t.size)) % abi.sizeMod = s.size + (blockHdr abi + t.size) :=
      Nat.mod_eq_of_lt (by omega)
    -- `b->size += HDR + b->next->size; b->next = b->next->next`
    have hnt : blockNext abi (setBlockSize abi m a (s.size + (blockHdr abi + t.size)))
        (a + blockHdr abi + s.size) = blockNext abi m (a + blockHdr abi + s.size) :=
      (header_congr abi _ fun x h1 h2 => setBlockSize_out (by omega)).1
    have hlt : blockNext abi m (a + blockHdr abi + s.size) < abi.sizeMod := load_lt m _ _
    have hend : a + blockHdr abi + (s.size + (blockHdr abi + t.size)) =
        a + blockHdr abi + s.size + blockHdr abi + t.size := by omega
    obtain ⟨m', hm, hc', hframe⟩ := @ih
      (setBlockNext abi (setBlockSize abi m a (s.size + (blockHdr abi + t.size))) a
        (blockNext abi m (a + blockHdr abi + s.size))) a fuel (by simp)
      ⟨by simp [hu, hst.1], by rw [blockSize_setNext, blockSize_setSize (by omega)],
        by rw [blockNext_setNext hlt, htn]; simp only [hend],
        by
          simp only [hend]
          refine hl.congr_range fun x h1 h2 => ?_
          rw [setBlockNext_out (by omega), setBlockSize_out (by omega)]⟩
      (by simp at hf ⊢; omega) ha (by simp only [span]; omega)
    refine ⟨m', ?_, by rw [coalesce, if_pos hst]; exact hc', fun x hx => ?_⟩
    · rw [coalesceLoop, if_neg (by omega), hn, if_neg (by omega), hu, htu, if_pos hst]
      simp only [hs, hts, hsum, blockNext_setSize, hn, hnt]
      exact hm
    · have h0 := hx (a, s) List.mem_cons_self
      simp only at h0
      rw [hframe x, setBlockNext_out h0, setBlockSize_out h0]
      intro e he
      rw [place] at he
      rcases List.mem_cons.mp he with rfl | he
      · exact h0
      · simp only [hend] at he
        exact hx e (List.mem_cons_of_mem _ (List.mem_cons_of_mem _ he))
  | case4 s t l hst ih =>
    intro m a fuel _ hc hf ha hfits
    obtain ⟨fuel, rfl⟩ : ∃ k, fuel = k + 1 := ⟨fuel - 1, by simp at hf; omega⟩
    obtain ⟨hu, hs, hn, hl⟩ := hc
    rw [span] at hfits
    rw [startOf] at hn
    have htu := hl.1
    obtain ⟨m', hm, hc', hframe⟩ := @ih m (a + blockHdr abi + s.size) fuel (by simp) hl
      (by simp at hf ⊢; omega) (by omega) (by omega)
    refine ⟨m', ?_, ?_, fun x hx => hframe x fun e he => hx e (List.mem_cons_of_mem _ he)⟩
    · rw [coalesceLoop, if_neg (by omega), hn, if_neg (by omega), hu, htu, if_neg hst]
      exact hm
    · rw [coalesce, if_neg hst]
      obtain ⟨e1, e2, e3⟩ := header_congr abi a
        fun x h1 h2 => hframe x fun e he => by
          have := (mem_place_bounds (p := e.1) (s := e.2) he).1
          omega
      refine ⟨e3.trans hu, e2.trans hs, ?_, hc'⟩
      rw [e1, hn, startOf_of_ne_nil (coalesce_ne_nil (by simp))]

/-! ## The operations -/

variable {P : Pool} {h h' : Heap}

theorem length_le_span {hdr : Nat} (hh : 0 < hdr) : ∀ l : List Seg, l.length ≤ span hdr l
  | [] => Nat.zero_le _
  | s :: l => by
    have := length_le_span hh l
    rw [span, List.length_cons]
    omega

theorem Rep.ne_nil (hr : Rep P h l) : l ≠ [] := by
  rintro rfl
  have h1 := hr.tiled.span_eq
  have h2 := P.hdr_le
  have h3 := blockHdr_pos P.abi
  rw [span] at h1
  omega

/-- A pool has fewer blocks than the walks have fuel. -/
theorem Rep.length_lt (hr : Rep P h l) : l.length < P.heapSize + 1 := by
  have := length_le_span (blockHdr_pos P.abi) l
  rw [hr.tiled.span_eq] at this
  omega

theorem Rep.fits (hr : Rep P h l) : P.base + span (blockHdr P.abi) l < P.abi.sizeMod := by
  rw [hr.tiled.span_eq]
  exact P.fits

/-- **`mm_halow_osal_init`** makes the pool one free block. -/
theorem Rep.init (P : Pool) (h0 : Heap) (hnew : h0.heapMem = 0) :
    ∃ h, osalInit P.abi P.heapSize P.base h0 = (true, h) ∧
      Rep P h [⟨P.heapSize - blockHdr P.abi, false⟩] := by
  have hb := P.base_pos
  have hfits := P.fits
  have hhdr := P.hdr_le
  unfold osalInit
  rw [if_neg (by simp [hnew]), if_neg (by omega), sizeSub_eq hhdr (by omega)]
  refine ⟨_, rfl, rfl, rfl, ⟨by simp, ?_, ?_, trivial⟩, ?_, List.isChain_singleton _, ?_⟩
  · rw [blockSize_setUsed, blockSize_setSize (by omega)]
  · rw [blockNext_setUsed, blockNext_setSize, blockNext_setNext (by omega)]
    rfl
  · simp only [span]
    omega
  · intro e he
    rw [place, place, List.mem_singleton] at he
    rw [he]
    exact P.base_aligned

/-- The size first fit is asked for: the request rounded up to the alignment. -/
def rounded (size : Nat) : Nat := (size + 7) / 8 * 8

/-- **`mm_halow_osal_malloc`**: refused exactly when the size is 0, exceeds the pool or has no free
block, and otherwise first fit of the rounded size. -/
theorem Rep.malloc (hr : Rep P h l) (size : Nat) :
    (osalMalloc P.abi P.heapSize size h = some (0, h) ∧
      (size = 0 ∨ P.heapSize < size ∨
        alloc (blockHdr P.abi) blockAlign (rounded size) P.base l = none)) ∨
    (∃ p l' h', osalMalloc P.abi P.heapSize size h = some (blockData P.abi p, h') ∧
      0 < size ∧ size ≤ P.heapSize ∧
      alloc (blockHdr P.abi) blockAlign (rounded size) P.base l = some (p, l') ∧ Rep P h' l' ∧
      ∀ s, (p, s) ∈ place (blockHdr P.abi) P.base l →
        ∀ x, x < p ∨ p + blockHdr P.abi + s.size ≤ x → h'.mem x = h.mem x) := by
  have hb := P.base_ge
  have hfits := P.fits
  have hhead := hr.head_eq
  by_cases h0 : size = 0
  · exact Or.inl ⟨by rw [osalMalloc, if_pos h0], Or.inl h0⟩
  by_cases hbig : size > P.heapSize
  · exact Or.inl ⟨by rw [osalMalloc, if_neg h0, if_pos hbig], Or.inr (Or.inl hbig)⟩
  have hround : blockRound P.abi size = rounded size := blockRound_eq (by omega)
  have hstart : h.head = startOf P.base l := by rw [hhead, startOf_of_ne_nil hr.ne_nil]
  cases hal : alloc (blockHdr P.abi) blockAlign (rounded size) P.base l with
  | none =>
    have hm := mallocLoop_none hr.chain hr.length_lt hb hal
    rw [← hstart] at hm
    refine Or.inl ⟨?_, Or.inr (Or.inr rfl)⟩
    rw [osalMalloc, if_neg h0, if_neg hbig, hround, if_neg (by omega), hm]
    rfl
  | some r =>
    obtain ⟨p, l'⟩ := r
    obtain ⟨m', hm, hc, hframe⟩ := mallocLoop_some hr.chain hr.length_lt hb hr.fits hal
    rw [← hstart] at hm
    have hal8 : rounded size % blockAlign = 0 := by unfold rounded blockAlign; omega
    refine Or.inr ⟨p, l', { h with mem := m' }, ?_, by omega, by omega, rfl,
      ⟨hhead, hr.mem_eq, hc, hr.tiled.alloc (blockHdr_align _) hal8 hal⟩, hframe⟩
    rw [osalMalloc, if_neg h0, if_neg hbig, hround, if_neg (by omega), hm]
    rfl

/-- **`mm_halow_osal_free`** of the block at `p` marks it free and coalesces. -/
theorem Rep.free (hr : Rep P h l) {p : Nat} {s : Seg}
    (hp : (p, s) ∈ place (blockHdr P.abi) P.base l) :
    ∃ h', osalFree P.abi P.heapSize (blockData P.abi p) h = some h' ∧
      Rep P h' (coalesce (blockHdr P.abi) (mark (blockHdr P.abi) p P.base l)) ∧
      ∀ x, (∀ e ∈ place (blockHdr P.abi) P.base l, x < e.1 ∨ e.1 + blockHdr P.abi ≤ x) →
        h'.mem x = h.mem x := by
  have hb := P.base_pos
  have hpos := blockHdr_pos P.abi
  have hhead := hr.head_eq
  have hdata : dataBlock P.abi (blockData P.abi p) = p := by
    unfold dataBlock blockData
    omega
  have hne : mark (blockHdr P.abi) p P.base l ≠ [] := by
    intro hnil
    have := span_mark (blockHdr P.abi) p P.base l
    rw [hnil, hr.tiled.span_eq, span] at this
    have := P.hdr_le
    omega
  have hlen : (mark (blockHdr P.abi) p P.base l).length < P.heapSize + 1 := by
    have := length_le_span hpos (mark (blockHdr P.abi) p P.base l)
    rw [span_mark, hr.tiled.span_eq] at this
    omega
  obtain ⟨m', hm, hc, hframe⟩ := coalesceLoop_spec _ hne (hr.chain.markFree hp) hlen hb
    (by rw [span_mark]; exact hr.fits)
  refine ⟨{ h with mem := m' }, ?_, ⟨hhead, hr.mem_eq, hc, hr.tiled.release⟩, fun x hx => ?_⟩
  · rw [← hhead] at hm
    rw [osalFree, if_neg (by unfold blockData; omega), hdata]
    simp only [hm]
    rfl
  · refine (hframe x ?_).trans ?_
    · intro e he
      have h1 : e.1 ∈ (place (blockHdr P.abi) P.base l).map Prod.fst := by
        rw [← place_mark_fst (p := p)]
        exact List.mem_map_of_mem he
      obtain ⟨f, hf, he'⟩ := List.mem_map.mp h1
      rw [← he']
      exact hx f hf
    · exact setBlockUsed_out (hx (p, s) hp)

/-- A change of payload bytes only keeps the representation. -/
theorem Rep.write (hr : Rep P h l) {m' : Mem}
    (hm : ∀ x, (∃ e ∈ place (blockHdr P.abi) P.base l, e.1 ≤ x ∧ x < e.1 + blockHdr P.abi) →
      m' x = h.mem x) : Rep P { h with mem := m' } l :=
  ⟨hr.head_eq, hr.mem_eq, hr.chain.congr fun e he x h1 h2 => hm x ⟨e, he, h1, h2⟩, hr.tiled⟩

/-- The size in a block's header. -/
theorem Chain.size_eq {p : Nat} {s : Seg} : ∀ {l : List Seg} {a : Nat}, Chain abi m a l →
    (p, s) ∈ place (blockHdr abi) a l → blockSize abi m p = s.size
  | [], _, _, h => absurd h List.not_mem_nil
  | t :: l, a, ⟨_, hs, _, hl⟩, h => by
    rcases List.mem_cons.mp h with h | h
    · obtain ⟨rfl, rfl⟩ := Prod.mk.inj h
      exact hs
    · exact hl.size_eq h

/-- **The block list read from memory** is the list of segments with their addresses. -/
theorem Chain.blockList_eq : ∀ {l : List Seg} {a fuel : Nat}, Chain abi m a l → l.length < fuel →
    0 < a → blockList abi m fuel (startOf a l) =
      some ((place (blockHdr abi) a l).map fun e => ⟨e.1, e.2.size, e.2.used⟩)
  | [], _, fuel + 1, _, _, _ => by simp [blockList, startOf, place]
  | s :: l, a, fuel + 1, ⟨hu, hs, hn, hl⟩, hf, ha => by
    rw [blockList, startOf, if_neg (by omega), hn, hl.blockList_eq (by simpa using hf) (by omega),
      hu, hs]
    rfl

end MmHalow.Osal
