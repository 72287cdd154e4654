import MmHalow.Osal.HeapOrder

/-!
# Heap operations do not disturb live data

The pool is bytes, the headers among them, so a header written by a split or by coalescing could
land in a payload, and `mmosal_calloc_` and `mmosal_realloc_` write payloads themselves.

`LiveBlock h p n` says that the block list of `h` has a used block of `n` bytes with payload `p`.
`Undisturbed h h' p` says what an operation that concerns only `p` leaves alone: every other live
block stays live, with its size and with every byte of its payload.

* `Rep.malloc_undisturbed`, `Rep.free_undisturbed`, `Rep.write_undisturbed`: the three ways in
  which memory is written.
* `Rep.calloc_frame`, `Rep.realloc_frame`: the two functions made of them.
* `Life.malloc_block`, `Life.write_block`: an allocation, and a write, in any state of the driver's life.
* `heap_frame`: **all four operations, in every state of the driver's life.**
-/

namespace MmHalow.Osal

open MmHalow.Lib MmHalow.Lib.Bytes MmHalow.Lib.FirstFit

/-- A block in use, of `n` bytes with its payload at `p`. -/
def LiveBlock (abi : Abi) (heapSize : Nat) (h : Heap) (p n : Nat) : Prop :=
  ∃ bl, blocks abi heapSize h = some bl ∧
    ∃ b ∈ bl, b.used = true ∧ blockData abi b.addr = p ∧ b.size = n

/-- Every live block but `p` is live afterwards, with the same bytes. -/
def Undisturbed (abi : Abi) (heapSize : Nat) (h h' : Heap) (p : Nat) : Prop :=
  ∀ q n, LiveBlock abi heapSize h q n → q ≠ p → LiveBlock abi heapSize h' q n ∧
    ∀ x, q ≤ x → x < q + n → h'.mem x = h.mem x

/-- What `mmosal_calloc_` of `nitems` times `size` bytes promises of its result. -/
def CallocResult (abi : Abi) (heapSize : Nat) (h' : Heap) (nitems size r : Nat) : Prop :=
  r ≠ 0 → ∃ n, LiveBlock abi heapSize h' r n ∧ nitems * size ≤ n ∧
    ∀ x, r ≤ x → x < r + nitems * size → h'.mem x = 0

/-- What `mmosal_realloc_` of the block `p`, which has `n` bytes, to `size` bytes promises. -/
structure ReallocResult (abi : Abi) (heapSize : Nat) (h h' : Heap) (p n size r : Nat) : Prop where
  /-- Refused: the block is still there, with its bytes. -/
  refused : r = 0 → LiveBlock abi heapSize h' p n ∧ ∀ x, p ≤ x → x < p + n → h'.mem x = h.mem x
  /-- Granted: a live block that is large enough and holds the old bytes. -/
  granted : r ≠ 0 → ∃ k, LiveBlock abi heapSize h' r k ∧ size ≤ k ∧
    ∀ i, i < min n size → h'.mem (r + i) = h.mem (p + i)
  /-- The old block is given back exactly where the result is another one. -/
  freed : r ≠ 0 → ((¬ ∃ k, LiveBlock abi heapSize h' p k) ↔ r ≠ p)

variable {P : Pool} {h h' : Heap} {l l' : List Seg} {live : List Alloc} {s : HeapState}

/-! ## Live blocks as segments -/

theorem Rep.liveBlock_iff (hr : Rep P h l) {p n : Nat} : LiveBlock P.abi P.heapSize h p n ↔
    ∃ b t, (b, t) ∈ place (blockHdr P.abi) P.base l ∧ t.used = true ∧ p = blockData P.abi b ∧
      t.size = n := by
  unfold LiveBlock
  rw [hr.blocks]
  constructor
  · rintro ⟨bl, hbl, c, hc, hu, rfl, rfl⟩
    obtain rfl := Option.some.inj hbl
    obtain ⟨⟨b, t⟩, hb, rfl⟩ := List.mem_map.mp hc
    exact ⟨b, t, hb, hu, rfl, rfl⟩
  · rintro ⟨b, t, hb, hu, rfl, rfl⟩
    exact ⟨_, rfl, blockOf (b, t), List.mem_map_of_mem hb, hu, rfl, rfl⟩

/-- The live blocks are the allocations held. -/
theorem Rep.live_iff (hr : Rep P h l) (hh : Holds P l live) {p : Nat} :
    (∃ n, LiveBlock P.abi P.heapSize h p n) ↔ ∃ q ∈ live, q.ptr = p := by
  constructor
  · rintro ⟨n, hp⟩
    obtain ⟨b, t, hb, hu, rfl, -⟩ := hr.liveBlock_iff.mp hp
    exact hh.used hb hu
  · intro hp
    obtain ⟨b, t, hb, hu, rfl⟩ := hh.of_ptr hp
    exact ⟨t.size, hr.liveBlock_iff.mpr ⟨b, t, hb, hu, rfl, rfl⟩⟩

/-- It is enough to follow the used segments. -/
theorem Rep.undisturbed (hr : Rep P h l) (hr' : Rep P h' l') {p : Nat}
    (hkept : ∀ b t, (b, t) ∈ place (blockHdr P.abi) P.base l → t.used = true →
      blockData P.abi b ≠ p → (b, t) ∈ place (blockHdr P.abi) P.base l' ∧
        ∀ x, blockData P.abi b ≤ x → x < blockData P.abi b + t.size → h'.mem x = h.mem x) :
    Undisturbed P.abi P.heapSize h h' p := by
  intro q n hq hne
  obtain ⟨b, t, hb, hu, rfl, rfl⟩ := hr.liveBlock_iff.mp hq
  obtain ⟨hb', hmem⟩ := hkept b t hb hu hne
  exact ⟨hr'.liveBlock_iff.mpr ⟨b, t, hb', hu, rfl, rfl⟩, hmem⟩

theorem Undisturbed.refl (abi : Abi) (heapSize : Nat) (h : Heap) (p : Nat) :
    Undisturbed abi heapSize h h p := fun _ _ hq _ => ⟨hq, fun _ _ _ => rfl⟩

theorem Undisturbed.trans {abi : Abi} {heapSize p : Nat} {h₁ h₂ : Heap}
    (hu₁ : Undisturbed abi heapSize h h₁ p) (hu₂ : Undisturbed abi heapSize h₁ h₂ p) :
    Undisturbed abi heapSize h h₂ p := by
  intro q n hq hne
  obtain ⟨hq₁, hb₁⟩ := hu₁ q n hq hne
  obtain ⟨hq₂, hb₂⟩ := hu₂ q n hq₁ hne
  exact ⟨hq₂, fun x h1 h2 => (hb₂ x h1 h2).trans (hb₁ x h1 h2)⟩

/-- What is done to a block that was not live before does not count. -/
theorem Undisturbed.fresh {abi : Abi} {heapSize p r : Nat} {h₁ h₂ : Heap}
    (hu₁ : Undisturbed abi heapSize h h₁ p) (hnew : ∀ n, ¬ LiveBlock abi heapSize h r n)
    (hu₂ : Undisturbed abi heapSize h₁ h₂ r) : Undisturbed abi heapSize h h₂ p := by
  intro q n hq hne
  have hqr : q ≠ r := by
    rintro rfl
    exact hnew n hq
  obtain ⟨hq₁, hb₁⟩ := hu₁ q n hq hne
  obtain ⟨hq₂, hb₂⟩ := hu₂ q n hq₁ hqr
  exact ⟨hq₂, fun x h1 h2 => (hb₂ x h1 h2).trans (hb₁ x h1 h2)⟩

/-! ## The three ways in which memory is written -/

/-- **Allocation**: refused without a change, or a block that was not live, and no live payload is
written. -/
theorem Rep.malloc_undisturbed (hr : Rep P h l) (size : Nat) :
    osalMalloc P.abi P.heapSize size h = some (0, h) ∨
    ∃ p l' h' t, osalMalloc P.abi P.heapSize size h = some (blockData P.abi p, h') ∧ Rep P h' l' ∧
      (p, t) ∈ place (blockHdr P.abi) P.base l' ∧ t.used = true ∧ size ≤ t.size ∧
      (∀ n, ¬ LiveBlock P.abi P.heapSize h (blockData P.abi p) n) ∧
      ∀ r, Undisturbed P.abi P.heapSize h h' r := by
  have hpos := blockHdr_pos P.abi
  rcases hr.malloc size with ⟨hm, -⟩ | ⟨p, l', h', hm, -, -, ha, hr', hframe⟩
  · exact Or.inl hm
  obtain ⟨s, k, hs, hfree, hnk, -, hnew, hmem⟩ := mem_place_alloc ha
  have hround : size ≤ rounded size := by unfold rounded; omega
  -- a used segment is not the one taken, so it lies clear of it
  have hother : ∀ b t, (b, t) ∈ place (blockHdr P.abi) P.base l → t.used = true →
      (b, t) ≠ (p, s) := by
    intro b t _ hu he
    rw [(Prod.mk.inj he).2, hfree] at hu
    exact absurd hu Bool.false_ne_true
  refine Or.inr ⟨p, l', h', ⟨k, true⟩, hm, hr', hnew, rfl, hround.trans hnk, fun n hl => ?_,
    fun r => hr.undisturbed hr' fun b t hb hu _ => ⟨(hmem b t hu).mpr (Or.inr hb), ?_⟩⟩
  · obtain ⟨b, t, hb, hu, he, -⟩ := hr.liveBlock_iff.mp hl
    have hbp : b = p := by
      unfold blockData at he
      omega
    rw [hbp] at hb
    exact hother p t hb hu (by rw [place_unique hpos hb hs])
  · intro x h1 h2
    have hdis := place_disjoint hb hs (hother b t hb hu)
    unfold blockData at h1 h2
    exact hframe s hs x (by simp only at hdis; omega)

/-- **Release**: every other block stays, and only headers are written. -/
theorem Rep.free_undisturbed (hr : Rep P h l) {p : Nat} {s : Seg}
    (hp : (p, s) ∈ place (blockHdr P.abi) P.base l) :
    ∃ h' l', osalFree P.abi P.heapSize (blockData P.abi p) h = some h' ∧ Rep P h' l' ∧
      (∀ n, ¬ LiveBlock P.abi P.heapSize h' (blockData P.abi p) n) ∧
      Undisturbed P.abi P.heapSize h h' (blockData P.abi p) := by
  have hpos := blockHdr_pos P.abi
  obtain ⟨h', hf, hr', hframe⟩ := hr.free hp
  refine ⟨h', _, hf, hr', fun n hl => ?_, hr.undisturbed hr' fun b t hb hu hne => ⟨?_, ?_⟩⟩
  · obtain ⟨b, t, hb, hu, he, -⟩ := hr'.liveBlock_iff.mp hl
    have hbp : p = b := by
      unfold blockData at he
      omega
    exact ((used_release hpos hp hu).mp hb).2 hbp.symm
  · refine (used_release hpos hp hu).mpr ⟨hb, ?_⟩
    rintro rfl
    exact hne rfl
  · intro x h1 h2
    unfold blockData at h1 h2
    exact hframe x fun e he => payload_not_header hb h1 h2 he

/-- **A write inside one payload.** -/
theorem Rep.write_undisturbed (hr : Rep P h l) {p : Nat} {t : Seg} {m' : Mem}
    (hp : (p, t) ∈ place (blockHdr P.abi) P.base l)
    (hm : ∀ x, x < blockData P.abi p ∨ blockData P.abi p + t.size ≤ x → m' x = h.mem x) :
    Rep P { h with mem := m' } l ∧
      Undisturbed P.abi P.heapSize h { h with mem := m' } (blockData P.abi p) := by
  have hr' : Rep P { h with mem := m' } l := hr.write_payload hp hm
  refine ⟨hr', hr.undisturbed hr' fun b u hb _ hne => ⟨hb, fun x h1 h2 => hm x ?_⟩⟩
  have hdis := place_disjoint hb hp fun e => hne (by rw [(Prod.mk.inj e).1])
  unfold blockData at h1 h2 ⊢
  simp only at hdis
  omega

/-! ## The functions made of them -/

/-- **`mmosal_calloc_`**: other blocks keep their bytes; the block granted has at least the exact
product, and that many zeros. -/
theorem Rep.calloc_frame (hr : Rep P h l) (nitems size : Nat) :
    ∃ r h', mmosalCalloc P.abi P.heapSize nitems size h = some (r, h') ∧
      Undisturbed P.abi P.heapSize h h' 0 ∧ CallocResult P.abi P.heapSize h' nitems size r := by
  unfold mmosalCalloc
  split
  · exact ⟨0, h, rfl, Undisturbed.refl _ _ h 0, fun h0 => absurd rfl h0⟩
  rename_i hfit
  rw [calloc_total hfit]
  rcases hr.malloc_undisturbed (nitems * size) with
    hm | ⟨p, l', h₁, t, hm, hr₁, ht, hu, hsize, hnew, hkeep⟩
  · refine ⟨0, h, ?_, Undisturbed.refl _ _ h 0, fun h0 => absurd rfl h0⟩
    simp only [hm]
    rfl
  · have hout : ∀ x, x < blockData P.abi p ∨ blockData P.abi p + t.size ≤ x →
        fill h₁.mem (blockData P.abi p) 0 (nitems * size) x = h₁.mem x :=
      fun x hx => fill_out (by omega)
    obtain ⟨hr₂, hkeep₂⟩ := hr₁.write_undisturbed ht hout
    refine ⟨blockData P.abi p, { h₁ with mem := fill h₁.mem (blockData P.abi p) 0 (nitems * size) },
      ?_, (hkeep 0).fresh hnew hkeep₂, fun _ => ⟨t.size, ?_, hsize, fun x h1 h2 => ?_⟩⟩
    · simp only [hm, Option.map_some, if_pos (blockData_ne_zero P p)]
    · exact hr₂.liveBlock_iff.mpr ⟨p, t, ht, hu, rfl, rfl⟩
    · simp only [fill]
      rw [if_pos ⟨h1, h2⟩]

/-- **`mmosal_realloc_`** of a block to more than nothing. -/
theorem Rep.realloc_frame (hr : Rep P h l) {b size : Nat} {t : Seg}
    (hb : (b, t) ∈ place (blockHdr P.abi) P.base l) (hu : t.used = true) (hsize : 0 < size) :
    ∃ r h', mmosalRealloc P.abi P.heapSize (blockData P.abi b) size h = some (r, h') ∧
      Undisturbed P.abi P.heapSize h h' (blockData P.abi b) ∧
      ReallocResult P.abi P.heapSize h h' (blockData P.abi b) t.size size r := by
  have hne := blockData_ne_zero P b
  have hlive : LiveBlock P.abi P.heapSize h (blockData P.abi b) t.size :=
    hr.liveBlock_iff.mpr ⟨b, t, hb, hu, rfl, rfl⟩
  have hdata : dataBlock P.abi (blockData P.abi b) = b := by
    unfold dataBlock blockData
    omega
  unfold mmosalRealloc
  simp only [if_neg hne, if_neg (Nat.ne_of_gt hsize), hdata, hr.chain.size_eq hb]
  by_cases hfit : t.size ≥ size
  · -- the block is large enough
    rw [if_pos hfit]
    refine ⟨_, h, rfl, Undisturbed.refl _ _ h _, fun h0 => absurd h0 hne,
      fun _ => ⟨t.size, hlive, hfit, fun _ _ => rfl⟩, fun _ => ⟨fun hno => ?_, fun hno => ?_⟩⟩
    · exact absurd ⟨t.size, hlive⟩ hno
    · exact absurd rfl hno
  rw [if_neg hfit]
  rcases hr.malloc_undisturbed size with hm | ⟨p, l', h₁, u, hm, hr₁, hp, hpu, hk, hnew, hkeep⟩
  · -- no room for the larger one
    refine ⟨0, h, by simp only [hm]; rfl, Undisturbed.refl _ _ h _,
      fun _ => ⟨hlive, fun _ _ _ => rfl⟩, fun h0 => absurd rfl h0, fun h0 => absurd rfl h0⟩
  -- the block moves: the old payload is copied, then given back
  have hnp := blockData_ne_zero P p
  have hpb : blockData P.abi b ≠ blockData P.abi p := fun he => hnew t.size (by rw [← he]; exact hlive)
  obtain ⟨hlive₁, hbytes₁⟩ := hkeep 0 _ _ hlive hne
  let h₂ : Heap := { h₁ with mem := copy h₁.mem (blockData P.abi p) (blockData P.abi b) t.size }
  obtain ⟨hr₂, hkeep₂⟩ : Rep P h₂ l' ∧ Undisturbed P.abi P.heapSize h₁ h₂ (blockData P.abi p) :=
    hr₁.write_undisturbed hp fun x hx => copy_out (by omega)
  obtain ⟨b', t', hb', hu', he, hs'⟩ := hr₁.liveBlock_iff.mp hlive₁
  have hbb : b' = b := by
    unfold blockData at he
    omega
  rw [hbb] at hb'
  obtain ⟨h₃, l₃, hf, hr₃, hgone, hkeep₃⟩ := hr₂.free_undisturbed hb'
  have hnewlive : LiveBlock P.abi P.heapSize h₂ (blockData P.abi p) u.size :=
    hr₂.liveBlock_iff.mpr ⟨p, u, hp, hpu, rfl, rfl⟩
  obtain ⟨hlive₃, hbytes₃⟩ := hkeep₃ _ _ hnewlive hpb.symm
  refine ⟨blockData P.abi p, h₃, ?_, ((hkeep _).fresh hnew hkeep₂).trans hkeep₃,
    fun h0 => absurd h0 hnp, fun _ => ⟨u.size, hlive₃, hk, fun i hi => ?_⟩,
    fun _ => ⟨fun _ => hpb.symm, fun _ => fun ⟨k, hgk⟩ => hgone k hgk⟩⟩
  · simp only [hm, Option.bind_some, if_pos hnp]
    rw [hf]
    rfl
  · -- the copied bytes survive the release of the old block
    have hcopy : h₂.mem (blockData P.abi p + i) = h₁.mem (blockData P.abi b + i) := by
      rw [show h₂.mem = copy h₁.mem (blockData P.abi p) (blockData P.abi b) t.size from rfl,
        copy_in (by omega) (by omega), Nat.add_sub_cancel_left]
    rw [hbytes₃ _ (by omega) (by omega), hcopy, hbytes₁ _ (by omega) (by omega)]

/-! ## Calls of a client -/

theorem Rep.malloc_frame (hr : Rep P h l) (size p : Nat) :
    ∃ r h', osalMalloc P.abi P.heapSize size h = some (r, h') ∧
      Undisturbed P.abi P.heapSize h h' p := by
  rcases hr.malloc_undisturbed size with hm | ⟨q, l', h', t, hm, -, -, -, -, -, hkeep⟩
  · exact ⟨0, h, hm, Undisturbed.refl _ _ h p⟩
  · exact ⟨_, h', hm, hkeep p⟩

theorem Rep.free_frame (hr : Rep P h l) (hh : Holds P l live) {p : Nat} (hp : Held live p) :
    ∃ h', osalFree P.abi P.heapSize p h = some h' ∧ Undisturbed P.abi P.heapSize h h' p := by
  rcases hp with rfl | hp
  · exact ⟨h, by rw [osalFree, if_pos (Or.inl rfl)], Undisturbed.refl _ _ h 0⟩
  · obtain ⟨b, t, hb, -, rfl⟩ := hh.of_ptr hp
    obtain ⟨h', l', hf, -, -, hkeep⟩ := hr.free_undisturbed hb
    exact ⟨h', hf, hkeep⟩

/-- **`mmosal_realloc_`** of any pointer a client may pass. -/
theorem Rep.realloc_held (hr : Rep P h l) (hh : Holds P l live) {p : Nat} (hp : Held live p)
    (size : Nat) : ∃ r h', mmosalRealloc P.abi P.heapSize p size h = some (r, h') ∧
      Undisturbed P.abi P.heapSize h h' p ∧
      (p ≠ 0 → 0 < size → ∃ n, LiveBlock P.abi P.heapSize h p n ∧
        ReallocResult P.abi P.heapSize h h' p n size r) := by
  by_cases h0 : p = 0
  · obtain ⟨r, h', hm, hkeep⟩ := hr.malloc_frame size p
    exact ⟨r, h', by rw [mmosalRealloc, if_pos h0, hm], hkeep, fun hne => absurd h0 hne⟩
  by_cases hsize : size = 0
  · obtain ⟨h', hf, hkeep⟩ := hr.free_frame hh hp
    refine ⟨0, h', ?_, hkeep, fun _ hpos => absurd hsize (Nat.ne_of_gt hpos)⟩
    rw [mmosalRealloc, if_neg h0, if_pos hsize, hf]
    rfl
  · obtain ⟨b, t, hb, hu, rfl⟩ := hh.of_ptr (hp.resolve_left h0)
    obtain ⟨r, h', hm, hkeep, hres⟩ := hr.realloc_frame hb hu (Nat.pos_of_ne_zero hsize)
    exact ⟨r, h', hm, hkeep, fun _ _ =>
      ⟨t.size, hr.liveBlock_iff.mpr ⟨b, t, hb, hu, rfl, rfl⟩, hres⟩⟩

/-! ## The whole life -/

/-- Without a pool nothing is live. -/
theorem NoPool.not_live (hn : NoPool s) (P : Pool) (p n : Nat) :
    ¬ LiveBlock P.abi P.heapSize s.heap p n := by
  rintro ⟨bl, hbl, b, hb, -⟩
  rw [hn.blocks P] at hbl
  obtain rfl := Option.some.inj hbl
  exact absurd hb List.not_mem_nil

/-- There is no block for a request of `size` bytes. -/
def NoBlock (P : Pool) (h : Heap) (size : Nat) : Prop :=
  size = 0 ∨ P.heapSize < size ∨ h.head = 0 ∨ ∀ bl, blocks P.abi P.heapSize h = some bl →
    ∀ b ∈ bl, b.used = false → b.size < rounded size

/-- What an allocation of `size` bytes that succeeds returns. -/
structure NewBlock (P : Pool) (h h' : Heap) (size r n : Nat) : Prop where
  live : LiveBlock P.abi P.heapSize h' r n
  size_le : size ≤ n
  aligned : r % blockAlign = 0
  /-- It does not reach the end of the address space. -/
  end_lt : r + n < P.abi.sizeMod
  fresh : ∀ k, ¬ LiveBlock P.abi P.heapSize h r k
  kept : Undisturbed P.abi P.heapSize h h' 0

/-- It depends on the ABI and the size of the pool only. -/
theorem NewBlock.like {Q : Pool} {size r n : Nat} (hb : NewBlock Q h h' size r n) (hl : P.Like Q) :
    NewBlock P h h' size r n := by
  obtain ⟨habi, hsize⟩ := hl
  obtain ⟨hlive, hle, halign, hend, hfresh, hkept⟩ := hb
  rw [habi, hsize] at hlive hkept
  rw [habi] at hend
  simp only [habi, hsize] at hfresh
  exact ⟨hlive, hle, halign, hend, hfresh, hkept⟩

theorem Rep.new_block (hr : Rep P h l) {size r : Nat}
    (hm : osalMalloc P.abi P.heapSize size h = some (r, h')) (hne : r ≠ 0) :
    ∃ n, NewBlock P h h' size r n := by
  rcases hr.malloc_undisturbed size with h0 | ⟨p, l', h₁, t, h₁m, hr', hp, hu, hle, hnew, hkeep⟩
  · exact absurd (Prod.mk.inj (Option.some.inj (hm.symm.trans h0))).1 hne
  · obtain ⟨rfl, rfl⟩ := Prod.mk.inj (Option.some.inj (hm.symm.trans h₁m))
    have halign : p % blockAlign = 0 := hr'.tiled.aligned _ hp
    have hhdr := blockHdr_align P.abi
    obtain ⟨-, hend⟩ := mem_place_bounds hp
    have hfits := hr'.fits
    refine ⟨t.size, hr'.liveBlock_iff.mpr ⟨p, t, hp, hu, rfl, rfl⟩, hle, ?_, ?_, hnew, hkeep 0⟩
    · unfold blockData
      rw [Nat.add_mod, halign, hhdr]
      rfl
    · unfold blockData
      omega

/-- **An allocation in any state of the driver's life**: `NULL` exactly where there is no block. -/
theorem Life.malloc_block (hl : Life P s) (size : Nat) :
    ∃ r h', osalMalloc P.abi P.heapSize size s.heap = some (r, h') ∧ (r = 0 ↔ NoBlock P s.heap size) ∧
      (r ≠ 0 → ∃ n, NewBlock P s.heap h' size r n) := by
  rcases hl with hn | ⟨Q, hlike, l, hr, -⟩
  · refine ⟨0, s.heap, hn.malloc P size, iff_of_true rfl ?_, fun h => absurd rfl h⟩
    exact .inr (.inr (.inl hn.head_eq))
  · obtain ⟨r, h', hm, hfit⟩ := hr.firstFit size
    have hnew := hr.new_block hm
    refine ⟨r, h', ?_, ?_, fun hne => (hnew hne).imp fun n hb => hb.like hlike⟩
    · rw [← hlike.1, ← hlike.2]
      exact hm
    · unfold NoBlock
      rw [← hlike.1, ← hlike.2, hfit.null_iff, hr.blocks]
      simp only [Option.some.injEq, forall_eq']

/-- **A write inside a live block** leaves every other block alone. -/
theorem Life.write_block (hl : Life P s) {p n : Nat} {m' : Mem}
    (hp : LiveBlock P.abi P.heapSize s.heap p n)
    (hm : ∀ x, x < p ∨ p + n ≤ x → m' x = s.heap.mem x) :
    Undisturbed P.abi P.heapSize s.heap { s.heap with mem := m' } p := by
  rcases hl with hn | ⟨Q, hlike, l, hr, -⟩
  · exact absurd hp (hn.not_live P p n)
  · rw [← hlike.1, ← hlike.2] at hp ⊢
    obtain ⟨b, t, hb, -, rfl, rfl⟩ := hr.liveBlock_iff.mp hp
    exact (hr.write_undisturbed hb hm).2

/-- **Heap operations do not disturb live data.** In every state of the driver's life, where the
live blocks are the allocations held: each operation returns and leaves every block but its own
alone, and `mmosal_calloc_` and `mmosal_realloc_` return what they promise. -/
theorem heap_frame (P : Pool) (m0 : Mem) {tr : List LifeEvent}
    (hrun : Run (LifeStep P) (lifeStart m0) tr s) :
    (∀ p, (∃ n, LiveBlock P.abi P.heapSize s.heap p n) ↔ ∃ q ∈ s.live, q.ptr = p) ∧
    (∀ size, ∃ r h', osalMalloc P.abi P.heapSize size s.heap = some (r, h') ∧
      Undisturbed P.abi P.heapSize s.heap h' 0) ∧
    (∀ p, Held s.live p → ∃ h', osalFree P.abi P.heapSize p s.heap = some h' ∧
      Undisturbed P.abi P.heapSize s.heap h' p) ∧
    (∀ nitems size, ∃ r h', mmosalCalloc P.abi P.heapSize nitems size s.heap = some (r, h') ∧
      Undisturbed P.abi P.heapSize s.heap h' 0 ∧
      CallocResult P.abi P.heapSize h' nitems size r) ∧
    (∀ p size, Held s.live p → ∃ r h', mmosalRealloc P.abi P.heapSize p size s.heap = some (r, h') ∧
      Undisturbed P.abi P.heapSize s.heap h' p ∧
      (p ≠ 0 → 0 < size → ∃ n, LiveBlock P.abi P.heapSize s.heap p n ∧
        ReallocResult P.abi P.heapSize s.heap h' p n size r)) := by
  rcases Life.run hrun with hn | ⟨Q, ⟨habi, hsize⟩, l, hr, hh⟩
  · have hsame := Undisturbed.refl P.abi P.heapSize s.heap
    refine ⟨fun p => ⟨fun ⟨n, hp⟩ => absurd hp (hn.not_live P p n), fun ⟨q, hq, _⟩ => ?_⟩,
      fun size => ⟨0, s.heap, hn.malloc P size, hsame 0⟩,
      fun p hp => ⟨s.heap, by rw [hn.held hp, osalFree, if_pos (Or.inl rfl)], hsame p⟩,
      fun nitems size => ⟨0, s.heap, ?_, hsame 0, fun h0 => absurd rfl h0⟩,
      fun p size hp => ⟨0, s.heap, ?_, hsame p, fun hne => absurd (hn.held hp) hne⟩⟩
    · rw [hn.live_eq] at hq
      exact absurd hq List.not_mem_nil
    · unfold mmosalCalloc
      split
      · rfl
      · simp only [hn.malloc P]
        rfl
    · rw [mmosalRealloc, if_pos (hn.held hp), hn.malloc P size]
  · rw [← habi, ← hsize]
    exact ⟨fun p => hr.live_iff hh, fun size => hr.malloc_frame size 0, fun p => hr.free_frame hh,
      hr.calloc_frame, fun p size hp => hr.realloc_held hh hp size⟩

/-- A pool taken, 100 bytes of it handed out, and a zeroed block asked for. -/
theorem heap_frame_ramPool : ∃ s, Run (LifeStep ramPool) (lifeStart fun _ => 0)
    [.init (some ramPool), .call (.malloc 100)] s ∧
    ∃ r h', mmosalCalloc ramPool.abi ramPool.heapSize 4 8 s.heap = some (r, h') ∧
      Undisturbed ramPool.abi ramPool.heapSize s.heap h' 0 ∧
      CallocResult ramPool.abi ramPool.heapSize h' 4 8 r := by
  obtain ⟨r, h', hm, -⟩ := (heap_frame ramPool (fun _ => 0) ramPool_init).2.1 100
  have hr : Run (LifeStep ramPool) (lifeStart fun _ => 0)
      [.init (some ramPool), .call (.malloc 100)] ⟨h', grant r 100 []⟩ :=
    Run.snoc ramPool_init ⟨show 100 < Abi.sizeMod .ilp32 by decide, by
      rw [exec, hm]
      rfl⟩
  exact ⟨_, hr, (heap_frame ramPool (fun _ => 0) hr).2.2.2.1 4 8⟩

end MmHalow.Osal
