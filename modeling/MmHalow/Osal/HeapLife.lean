import MmHalow.Osal.HeapRun

/-!
# The heap over the driver's whole life

`mm_halow_osal_init` takes a pool from the host and `mm_halow_osal_deinit` gives it back, any
number of times and in any order, and the pool may be a different one each time. Between the two
the calls of `HeapRun.lean` are made; without a pool they still may be, and only fail.

* Memory outside the pool is the host's, which writes it as it likes (`host`); without a pool that
  is all of it.
* `deinit` ends every allocation: the blocks go back with the pool.
* `Life P` is what holds in every state, `Life.run` that it does: there is no pool and nothing is
  held, or the heap represents a pool of the same size (`Inv`).
* `write_run`: a client that fills its block does no more than these events allow.

The pool `P` that the definitions take fixes the ABI and `MM_HALOW_HEAP_SIZE` only.
-/

namespace MmHalow.Osal

open MmHalow.Lib MmHalow.Lib.Bytes MmHalow.Lib.FirstFit

/-- `mm_halow_osal_deinit`, as far as the pool is concerned. -/
def osalDeinit (h : Heap) : Heap := { h with head := 0, heapMem := 0 }

/-- An event in the life of the heap. -/
inductive LifeEvent where
  /-- `mm_halow_osal_init`, where `mm_halow_port_heap_alloc` would return this pool. -/
  | init (pool : Option Pool)
  /-- `mm_halow_osal_deinit`. -/
  | deinit
  /-- The host writes memory that is not the driver's. -/
  | host (mem : Mem)
  /-- A call on the heap, or a write of the client. -/
  | call (c : Call)

/-- Two pools of one build: the ABI and `MM_HALOW_HEAP_SIZE` are the same. -/
def Pool.Like (P Q : Pool) : Prop := Q.abi = P.abi ∧ Q.heapSize = P.heapSize

/-- One event. -/
def LifeStep (P : Pool) (s : HeapState) : LifeEvent → HeapState → Prop
  | .init pool, t => (∀ Q ∈ pool, P.Like Q) ∧
      t = { s with heap := (osalInit P.abi P.heapSize ((pool.map Pool.base).getD 0) s.heap).2 }
  | .deinit, t => t = ⟨osalDeinit s.heap, []⟩
  | .host m, t =>
      (s.heap.heapMem ≠ 0 → ∀ x, s.heap.heapMem ≤ x → x < s.heap.heapMem + P.heapSize →
        m x = s.heap.mem x) ∧ t = { s with heap := { s.heap with mem := m } }
  | .call c, t => HeapStep P s c t

/-- Before the first `mm_halow_osal_init`: both static pointers are `NULL`. -/
def lifeStart (m0 : Mem) : HeapState := ⟨⟨m0, 0, 0⟩, []⟩

/-- There is no pool, and nothing is held. -/
structure NoPool (s : HeapState) : Prop where
  head_eq : s.heap.head = 0
  mem_eq : s.heap.heapMem = 0
  live_eq : s.live = []

/-- **What holds over the whole life.** -/
def Life (P : Pool) (s : HeapState) : Prop := NoPool s ∨ ∃ Q, P.Like Q ∧ Inv Q s

variable {P Q : Pool} {s t : HeapState} {c : Call}

/-! ## Calls without a pool -/

theorem NoPool.malloc (hn : NoPool s) (P : Pool) (size : Nat) :
    osalMalloc P.abi P.heapSize size s.heap = some (0, s.heap) := by
  unfold osalMalloc
  split
  · rfl
  split
  · rfl
  simp only [hn.head_eq, if_true]

theorem NoPool.held (hn : NoPool s) {p : Nat} (hp : Held s.live p) : p = 0 := by
  rcases hp with hp | ⟨q, hq, -⟩
  · exact hp
  · rw [hn.live_eq] at hq
    exact absurd hq List.not_mem_nil

/-- **Without a pool every legal call returns and changes nothing.** -/
theorem NoPool.exec (hn : NoPool s) (P : Pool) (hc : Legal P s.live c) : exec P c s = some s := by
  cases c with
  | malloc size =>
    simp only [Osal.exec, hn.malloc P size, Option.map_some]
    simp [grant]
  | free ptr =>
    have hdrop : drop 0 s.live = s.live := by
      rw [hn.live_eq]
      rfl
    rw [hn.held hc, Osal.exec, osalFree, if_pos (Or.inl rfl), Option.map_some, hdrop]
  | calloc nitems size =>
    simp only [Osal.exec, mmosalCalloc]
    split
    · simp [grant]
    · simp [hn.malloc P, grant]
  | realloc ptr size =>
    rw [hn.held hc.1]
    simp only [Osal.exec, mmosalRealloc, if_true, hn.malloc P size, Option.map_some]
    simp [grant]
  | write addr b =>
    obtain ⟨q, hq, -⟩ := hc
    rw [hn.live_eq] at hq
    exact absurd hq List.not_mem_nil

/-! ## The whole life -/

/-- Calls use the ABI and the size of the pool only. -/
theorem Pool.Like.exec (hl : P.Like Q) : Osal.exec P c s = Osal.exec Q c s := by
  cases c <;> simp only [Osal.exec, hl.1, hl.2]

theorem Pool.Like.legal (hl : P.Like Q) {live : List Alloc} : Legal P live c ↔ Legal Q live c := by
  cases c <;> simp only [Legal, hl.1]

theorem Inv.init (hn : NoPool s) (Q : Pool) :
    Inv Q { s with heap := (osalInit Q.abi Q.heapSize Q.base s.heap).2 } := by
  obtain ⟨h, hinit, hr⟩ := Rep.init Q s.heap hn.mem_eq
  refine ⟨[⟨Q.heapSize - blockHdr Q.abi, false⟩], by rw [hinit]; exact hr, ?_, fun {p s} hp hs => ?_,
    fun q hq => ?_⟩
  · rw [hn.live_eq]
    exact List.nodup_nil
  · rw [place, place, List.mem_singleton] at hp
    rw [(Prod.mk.inj hp).2] at hs
    exact absurd hs Bool.false_ne_true
  · rw [hn.live_eq] at hq
    exact absurd hq List.not_mem_nil

/-- A pool is taken only where there is none. -/
theorem Life.init (hl : Life P s) {pool : Option Pool} (hpool : ∀ Q ∈ pool, P.Like Q) :
    Life P { s with heap := (osalInit P.abi P.heapSize ((pool.map Pool.base).getD 0) s.heap).2 } := by
  rcases hl with hn | ⟨Q, hq, hi⟩
  · cases pool with
    | none =>
      refine Or.inl ?_
      rw [osalInit, if_neg (by simp [hn.mem_eq]), if_pos (show (none.map Pool.base).getD 0 = 0 from rfl)]
      exact hn
    | some Q =>
      have hq := hpool Q rfl
      have hi := Inv.init hn Q
      rw [hq.1, hq.2] at hi
      exact Or.inr ⟨Q, hq, hi⟩
  · have hmem : s.heap.heapMem ≠ 0 := by
      obtain ⟨l, hr, -⟩ := hi
      rw [hr.mem_eq]
      exact Nat.ne_of_gt Q.base_pos
    refine Or.inr ⟨Q, hq, ?_⟩
    rw [osalInit, if_pos hmem]
    exact hi

/-- **Every event keeps the invariant.** -/
theorem Life.step (hl : Life P s) {e : LifeEvent} (hs : LifeStep P s e t) : Life P t := by
  cases e with
  | init pool =>
    obtain ⟨hpool, rfl⟩ := hs
    exact hl.init hpool
  | deinit =>
    obtain rfl := hs
    exact Or.inl ⟨rfl, rfl, rfl⟩
  | host m =>
    obtain ⟨hmem, rfl⟩ := hs
    rcases hl with hn | ⟨Q, hq, l, hr, hh⟩
    · exact Or.inl ⟨hn.head_eq, hn.mem_eq, hn.live_eq⟩
    · rw [hr.mem_eq, ← hq.2, ← hr.tiled.span_eq] at hmem
      exact Or.inr ⟨Q, hq, l, ⟨hr.head_eq, hr.mem_eq,
        hr.chain.congr_range (hmem (Nat.ne_of_gt Q.base_pos)), hr.tiled⟩, hh⟩
  | call c =>
    obtain ⟨hc, hs⟩ := hs
    rcases hl with hn | ⟨Q, hq, hi⟩
    · rw [hn.exec P hc] at hs
      obtain rfl := Option.some.inj hs
      exact Or.inl hn
    · obtain ⟨u, hu, hi'⟩ := hi.exec (hq.legal.mp hc)
      rw [hq.exec, hu] at hs
      obtain rfl := Option.some.inj hs
      exact Or.inr ⟨Q, hq, hi'⟩

/-- **The invariant in every state the driver's life reaches.** -/
theorem Life.run {m0 : Mem} {tr : List LifeEvent} (h : Run (LifeStep P) (lifeStart m0) tr s) :
    Life P s :=
  h.inv (Or.inl ⟨rfl, rfl, rfl⟩) fun _ _ _ hl hs => Life.step hl hs

/-- The first `n` bytes from `p` on are those of `m'`. -/
def HeapState.overwrite (s : HeapState) (m' : Mem) (p n : Nat) : HeapState :=
  { s with heap := { s.heap with mem := fun y => if p ≤ y ∧ y < p + n then m' y else s.heap.mem y } }

variable {q : Alloc} {m' : Mem} {n : Nat}

/-- It is the memory that has those bytes, and elsewhere the old ones. -/
theorem HeapState.overwrite_eq {p : Nat} {m : Mem} (hin : ∀ y, p ≤ y → y < p + n → m y = m' y)
    (hout : ∀ y, y < p ∨ p + n ≤ y → m y = s.heap.mem y) :
    s.overwrite m' p n = { s with heap := { s.heap with mem := m } } := by
  refine congrArg (fun m => ({ s with heap := { s.heap with mem := m } } : HeapState)) ?_
  funext y
  split_ifs with hy
  · exact (hin y hy.1 hy.2).symm
  · exact (hout y (by omega)).symm

theorem overwrite_step (hq : q ∈ s.live) (hn : n < q.req) :
    LifeStep P (s.overwrite m' q.ptr n) (.call (.write (q.ptr + n) (m' (q.ptr + n))))
      (s.overwrite m' q.ptr (n + 1)) := by
  refine ⟨⟨q, hq, Nat.le_add_right _ _, Nat.add_lt_add_left hn _⟩, ?_⟩
  refine congrArg (fun m => some { s with heap := { s.heap with mem := m } }) ?_
  funext y
  rcases eq_or_ne y (q.ptr + n) with rfl | hne
  · rw [Function.update_self, if_pos (by omega)]
  · rw [Function.update_of_ne hne]
    exact if_congr (by omega) rfl rfl

theorem overwrite_run (m' : Mem) (hq : q ∈ s.live) (hn : n ≤ q.req) :
    ∃ tr, Run (LifeStep P) s tr (s.overwrite m' q.ptr n) := by
  induction n with
  | zero =>
    have hnone : s.overwrite m' q.ptr 0 = s :=
      HeapState.overwrite_eq (fun y hy hlt => absurd hlt (Nat.not_lt.mpr hy)) fun _ _ => rfl
    rw [hnone]
    exact ⟨[], Run.nil⟩
  | succ n ih =>
    obtain ⟨tr, hrun⟩ := ih (Nat.le_of_succ_le hn)
    exact ⟨_, hrun.snoc (overwrite_step hq hn)⟩

/-- **What is done inside a block that is held** can be done byte by byte. -/
theorem write_run (hq : q ∈ s.live) (hm : ∀ y, y < q.ptr ∨ q.ptr + q.req ≤ y → m' y = s.heap.mem y) :
    ∃ tr, Run (LifeStep P) s tr { s with heap := { s.heap with mem := m' } } := by
  obtain ⟨tr, hrun⟩ := overwrite_run (P := P) m' hq (Nat.le_refl q.req)
  rw [HeapState.overwrite_eq (fun _ _ _ => rfl) hm] at hrun
  exact ⟨tr, hrun⟩

/-- The default pool taken. -/
theorem ramPool_init : Run (LifeStep ramPool) (lifeStart fun _ => 0) [.init (some ramPool)]
    (heapStart ramPool fun _ => 0) :=
  Run.single ⟨fun Q hQ => by
    obtain rfl := Option.some.inj hQ
    exact ⟨rfl, rfl⟩, rfl⟩

end MmHalow.Osal
