import MmHalow.Osal.HeapFrame
import MmHalow.Sched.TaskList

/-!
# The stack of a task (`mm_halow_sched_task_create`)

A task's stack is a block of the driver's heap: its size in words is rounded, raised to the size of a
context and multiplied by the size of a word, all of it in `size_t`, and every word of it is painted
before the first context is laid out at its end. The heap is that of `Heap.lean`, memory and all, and
the task table and its list are those of `Tasks.lean`.

| source                                  | here                                     |
|-----------------------------------------|------------------------------------------|
| `MM_HALOW_CONTEXT_WORDS`, `MM_HALOW_STACK_FILL` | `contextWords`, `stackFill`      |
| `mm_halow_task_t`                       | `HalowTask`                              |
| `mm_halow_sched_task_create`            | `StackBuild.taskCreate`, with `stackWords`, `newTask` and `layOut` |
| `mmosal_task_create`                    | the same: it drops the priority          |

* `taskCreate_tasks`: what `taskCreate` makes of the table and its list is what `Tasks.taskCreate` does.
* `StackFits`: the stack has the words that were asked for, room for a context, and lies in its block.
* `taskCreate_run`: **it is then laid out without touching another block**, and the heap goes on its way.
* `stack_fits_iff`: **a task that is created has such a stack as long as neither the rounding nor the
  product wraps, and from there on only where no task is created.**
* `stack_wraps`: a task that was to have 2^32 - 1 words has 26.

Memory is flat: a stack that reaches beyond its block is painted all the same.
-/

namespace MmHalow.Sched

open MmHalow.Lib MmHalow.Lib.Bytes MmHalow.Osal

/-- `MM_HALOW_CONTEXT_WORDS`, with hardware floating point and without. -/
def contextWords (fp : Bool) : Nat := if fp then 10 + 16 else 10

/-- `MM_HALOW_STACK_FILL`. -/
def stackFill : Nat := 0xA5A5A5A5

/-- The build. -/
structure StackBuild where
  /-- It fixes the ABI and `MM_HALOW_HEAP_SIZE` only. -/
  pool : Pool
  cfg : Config
  /-- `__ARM_FP` is defined. -/
  fp : Bool
  /-- The address of `mm_halow_task_trampoline`. -/
  trampoline : Nat

/-- The arguments of `mm_halow_sched_task_create`; pointers are addresses. -/
structure TaskArgs where
  entry : Nat
  arg : Nat
  stackWords : Nat
  name : Nat

/-- `mm_halow_task_t`, without its link. -/
structure HalowTask where
  sp : Nat
  stack : Nat
  stackWords : Nat
  name : Nat
  entry : Nat
  arg : Nat
  notify : UInt32
  state : TaskState
  deriving Repr, DecidableEq

/-- The addresses of `n` words from `p` on. -/
def wordsAt (abi : Abi) (p n : Nat) : List Nat := (List.range n).map fun i => (p + 4 * i) % abi.sizeMod

/-- The words at these addresses are set to `v`, first to last. -/
def storeWords (v : Nat) (as : List Nat) (m : Mem) : Mem := as.foldl (fun m a => store m a 4 v) m

namespace StackBuild

variable (b : StackBuild)

/-- `stack_words`, once it has been rounded and raised. -/
def stackWords (requested : Nat) : Nat :=
  let stackWords := (requested + 1) % b.pool.abi.sizeMod / 2 * 2
  if stackWords < contextWords b.fp then contextWords b.fp else stackWords

/-- `stack_words * sizeof(uint32_t)`. -/
def stackBytes (requested : Nat) : Nat := b.stackWords requested * 4 % b.pool.abi.sizeMod

/-- The task that is set up. -/
def newTask (a : TaskArgs) (stack : Nat) : HalowTask where
  sp := (stack + 4 * (b.stackWords a.stackWords - contextWords b.fp)) % b.pool.abi.sizeMod
  stack := stack
  stackWords := b.stackWords a.stackWords
  name := a.name
  entry := a.entry
  arg := a.arg
  notify := 0
  state := .ready

/-- The words that are painted. -/
def painted (task : HalowTask) : List Nat := wordsAt b.pool.abi task.stack task.stackWords

/-- The words of the initial context. -/
def frame (task : HalowTask) : List Nat := wordsAt b.pool.abi task.sp (contextWords b.fp)

/-- The stack is painted, and a context laid out at its end that begins in the trampoline. -/
def layOut (task : HalowTask) (m : Mem) : Mem :=
  let m := storeWords stackFill (b.painted task) m
  let m := storeWords 0 (b.frame task) m
  store m ((task.sp + 4 * (contextWords b.fp - 1)) % b.pool.abi.sizeMod) 4 b.trampoline

/-- **`mm_halow_sched_task_create`**: the task or `NULL`, and what becomes of the table and the heap. -/
def taskCreate (a : TaskArgs) (x : Tasks) (h : Heap) : Option (Option HalowTask × Tasks × Heap) :=
  match x.tab.freeSlot b.cfg with
  | none => some (none, x, h)
  | some t =>
    (osalMalloc b.pool.abi b.pool.heapSize (b.stackBytes a.stackWords) h).bind fun r =>
      if r.1 = 0 then some (none, x, r.2)
      else
        let task := b.newTask a r.1
        ((x.tab.setUp t).link b.cfg t).map fun tab =>
          (some task, { x with tab := tab }.wake, { r.2 with mem := b.layOut task r.2.mem })

end StackBuild

/-- **The stack fits**: `h₁` is the heap from which the allocator returned its block. -/
structure StackFits (b : StackBuild) (h₁ : Heap) (requested : Nat) (task : HalowTask) : Prop where
  even : task.stackWords % 2 = 0
  context : contextWords b.fp ≤ task.stackWords
  requested : requested ≤ task.stackWords
  /-- Every word that is painted and every word of the context lies in the block. -/
  block : ∃ n, LiveBlock b.pool.abi b.pool.heapSize h₁ task.stack n ∧
    ∀ w ∈ b.painted task ++ b.frame task, task.stack ≤ w ∧ w + 4 ≤ task.stack + n
  aligned : task.sp % 8 = 0

/-- **What a task that is returned has.** -/
def StackSound (b : StackBuild) (a : TaskArgs) (x : Tasks) (h : Heap) : Prop :=
  ∀ task x' h', b.taskCreate a x h = some (some task, x', h') →
    ∃ h₁, osalMalloc b.pool.abi b.pool.heapSize (b.stackBytes a.stackWords) h = some (task.stack, h₁) ∧
      StackFits b h₁ a.stackWords task

/-- The bytes that are allocated for a request that wraps. -/
def wrappedBytes (fp : Bool) (requested : Nat) : Nat :=
  if requested = 2 ^ 32 - 1 then 4 * contextWords fp else 4 * ((requested + 1) / 2 * 2) % 2 ^ 32

variable {b : StackBuild} {a : TaskArgs} {x : Tasks} {h h₁ : Heap} {r : Nat} {requested : Nat}

/-! ## The table -/

/-- **The table and its list** are left as `Tasks.taskCreate` leaves them. -/
theorem taskCreate_tasks
    (hm : osalMalloc b.pool.abi b.pool.heapSize (b.stackBytes a.stackWords) h = some (r, h₁)) :
    (b.taskCreate a x h).map (fun y => (y.1.isSome, y.2.1)) = x.taskCreate b.cfg (decide (r ≠ 0)) := by
  unfold StackBuild.taskCreate Tasks.taskCreate
  cases x.tab.freeSlot b.cfg with
  | none => rfl
  | some t =>
    simp only [hm, Option.bind_some]
    by_cases hr : r = 0
    · rw [if_pos hr, if_neg (by simp [hr])]
      rfl
    · rw [if_neg hr, if_pos (decide_eq_true hr), Option.map_map]
      rfl

/-- Where a task is returned, its stack is the block that was allocated, laid out. -/
theorem taskCreate_some {task : HalowTask} {x' : Tasks} {h' : Heap}
    (hc : b.taskCreate a x h = some (some task, x', h')) :
    ∃ r h₁, osalMalloc b.pool.abi b.pool.heapSize (b.stackBytes a.stackWords) h = some (r, h₁) ∧
      r ≠ 0 ∧ task = b.newTask a r ∧ h' = { h₁ with mem := b.layOut task h₁.mem } := by
  unfold StackBuild.taskCreate at hc
  cases hfree : x.tab.freeSlot b.cfg with
  | none =>
    rw [hfree] at hc
    cases hc
  | some t =>
    simp only [hfree] at hc
    obtain ⟨⟨r, h₁⟩, hm, hc⟩ := Option.bind_eq_some_iff.mp hc
    by_cases hr : r = 0
    · rw [if_pos hr] at hc
      cases hc
    · rw [if_neg hr] at hc
      obtain ⟨tab, -, hc⟩ := Option.map_eq_some_iff.mp hc
      obtain ⟨htask, -, rfl⟩ := by simpa only [Option.some.injEq, Prod.mk.injEq] using hc
      exact ⟨r, h₁, hm, hr, htask.symm, by rw [htask]⟩

/-- **A task is returned** exactly where there are a slot and a block. -/
theorem taskCreate_eq {l : List TaskId} (hl : Listed b.cfg x.tab l)
    (hm : osalMalloc b.pool.abi b.pool.heapSize (b.stackBytes a.stackWords) h = some (r, h₁)) :
    ∃ x' h', b.taskCreate a x h =
      some (if x.tab.freeSlot b.cfg = none ∨ r = 0 then none else some (b.newTask a r), x', h') := by
  obtain ⟨given, x', hlist, hgiven, -⟩ := hl.creates (decide (r ≠ 0))
  rw [← taskCreate_tasks hm] at hlist
  obtain ⟨⟨o, y, h'⟩, hc, hy⟩ := Option.map_eq_some_iff.mp hlist
  obtain ⟨ho, rfl⟩ := Prod.mk.inj hy
  refine ⟨y, h', hc.trans ?_⟩
  have hnone : (x.tab.freeSlot b.cfg = none ∨ r = 0) ↔ given = false := by
    rw [← Bool.not_eq_true, hgiven, freeSlot_eq_none, decide_eq_true_eq]
    push Not
    constructor
    · rintro (hfull | hr) hne
      · exact hfull
      · exact absurd hr hne
    · intro h
      by_cases hr : r = 0
      · exact .inr hr
      · exact .inl (h hr)
  cases o with
  | none => rw [if_pos (hnone.mpr ho.symm)]
  | some task =>
    obtain ⟨r', h₂, hm', -, rfl, -⟩ := taskCreate_some hc
    obtain ⟨rfl, -⟩ := Prod.mk.inj (Option.some.inj (hm.symm.trans hm'))
    rw [if_neg fun hn => Bool.false_ne_true ((hnone.mp hn).symm.trans ho.symm)]

/-- **What a task that is returned has** is a matter of its slot and its block. -/
theorem stackSound_iff {l : List TaskId} (hl : Listed b.cfg x.tab l)
    (hm : osalMalloc b.pool.abi b.pool.heapSize (b.stackBytes a.stackWords) h = some (r, h₁)) :
    StackSound b a x h ↔
      x.tab.freeSlot b.cfg = none ∨ r = 0 ∨ StackFits b h₁ a.stackWords (b.newTask a r) := by
  obtain ⟨x', h', hcreate⟩ := taskCreate_eq hl hm
  constructor
  · intro hs
    by_cases hnone : x.tab.freeSlot b.cfg = none ∨ r = 0
    · rcases hnone with hfree | hr
      · exact .inl hfree
      · exact .inr (.inl hr)
    · rw [if_neg hnone] at hcreate
      obtain ⟨h₂, hm₂, hfits⟩ := hs _ _ _ hcreate
      obtain ⟨-, rfl⟩ := Prod.mk.inj (Option.some.inj (hm.symm.trans hm₂))
      exact .inr (.inr hfits)
  · rintro hcases task y h₂ hc
    rw [hcreate] at hc
    obtain ⟨r', h₃, hm', -, htask, -⟩ := taskCreate_some (hcreate.trans hc)
    obtain ⟨rfl, rfl⟩ := Prod.mk.inj (Option.some.inj (hm.symm.trans hm'))
    rcases hcases with hfree | hr | hfits
    · rw [if_pos (.inl hfree)] at hc
      cases hc
    · rw [if_pos (.inr hr)] at hc
      cases hc
    · rw [htask]
      exact ⟨h₁, hm, hfits⟩

/-! ## The arithmetic -/

theorem contextWords_bounds (fp : Bool) : contextWords fp % 2 = 0 ∧ 0 < contextWords fp ∧
    contextWords fp ≤ 26 := by
  cases fp <;> decide

theorem stackWords_even (b : StackBuild) (requested : Nat) : b.stackWords requested % 2 = 0 := by
  obtain ⟨heven, -⟩ := contextWords_bounds b.fp
  unfold StackBuild.stackWords
  dsimp only
  split_ifs with hless
  · exact heven
  · exact Nat.mul_mod_left _ 2

theorem contextWords_le (b : StackBuild) (requested : Nat) :
    contextWords b.fp ≤ b.stackWords requested := by
  unfold StackBuild.stackWords
  dsimp only
  split_ifs with hless
  · exact Nat.le_refl _
  · exact Nat.not_lt.mp hless

section ilp32

variable (hb : b.pool.abi = .ilp32)
include hb

/-- Only the last value wraps when it is rounded, and then to nothing. -/
theorem stackWords_wrap : b.stackWords (2 ^ 32 - 1) = contextWords b.fp := by
  obtain ⟨-, hpos, -⟩ := contextWords_bounds b.fp
  unfold StackBuild.stackWords
  rw [hb]
  exact if_pos hpos

theorem stackWords_eq (h : requested < 2 ^ 32 - 1) :
    b.stackWords requested = max (contextWords b.fp) ((requested + 1) / 2 * 2) := by
  have hmod : (requested + 1) % Abi.sizeMod .ilp32 = requested + 1 :=
    Nat.mod_eq_of_lt (show requested + 1 < 2 ^ 32 by omega)
  unfold StackBuild.stackWords
  rw [hb, hmod]
  dsimp only
  split_ifs with hless
  · exact (max_eq_left (Nat.le_of_lt hless)).symm
  · exact (max_eq_right (Nat.not_lt.mp hless)).symm

/-- **The words asked for are there** unless the rounding wraps. -/
theorem le_stackWords (h : requested < 2 ^ 32 - 1) : requested ≤ b.stackWords requested := by
  rw [stackWords_eq hb h]
  have hround : requested ≤ (requested + 1) / 2 * 2 := by omega
  exact hround.trans (le_max_right _ _)

/-- **The product does not wrap** up to this size. -/
theorem stackBytes_eq (h : requested ≤ 2 ^ 30 - 2) :
    b.stackBytes requested = 4 * b.stackWords requested := by
  obtain ⟨-, -, hctx⟩ := contextWords_bounds b.fp
  have hwords := stackWords_eq hb (show requested < 2 ^ 32 - 1 by omega)
  unfold StackBuild.stackBytes
  rw [hb, Nat.mul_comm]
  exact Nat.mod_eq_of_lt (show _ < 2 ^ 32 by omega)

/-- From there on either the rounding or the product does. -/
theorem stackBytes_wrapped (h : 2 ^ 30 - 2 < requested) (hsize : requested < 2 ^ 32) :
    b.stackBytes requested = wrappedBytes b.fp requested := by
  obtain ⟨-, -, hctx⟩ := contextWords_bounds b.fp
  unfold StackBuild.stackBytes wrappedBytes
  split_ifs with hlast
  · rw [hlast, stackWords_wrap hb, hb, Nat.mul_comm]
    exact Nat.mod_eq_of_lt (show _ < 2 ^ 32 by omega)
  · have hwords := stackWords_eq hb (show requested < 2 ^ 32 - 1 by omega)
    rw [max_eq_right (by omega)] at hwords
    rw [hwords, hb, Nat.mul_comm]
    rfl

end ilp32

/-! ## The words of a stack -/

theorem mem_wordsAt {abi : Abi} {p n w : Nat} :
    w ∈ wordsAt abi p n ↔ ∃ i < n, (p + 4 * i) % abi.sizeMod = w := by
  simp only [wordsAt, List.mem_map, List.mem_range]

/-- Words that do not wrap lie between the first address and the last. -/
theorem wordsAt_bounds {abi : Abi} {p n w : Nat} (hend : p + 4 * n ≤ abi.sizeMod)
    (hw : w ∈ wordsAt abi p n) : p ≤ w ∧ w + 4 ≤ p + 4 * n := by
  obtain ⟨i, hi, rfl⟩ := mem_wordsAt.mp hw
  rw [Nat.mod_eq_of_lt (by omega)]
  omega

theorem storeWords_out {v y : Nat} {as : List Nat} {m : Mem} (h : ∀ w ∈ as, y < w ∨ w + 4 ≤ y) :
    storeWords v as m y = m y := by
  induction as generalizing m with
  | nil => rfl
  | cons w as ih =>
    have hw := h w List.mem_cons_self
    have hrest : ∀ u ∈ as, y < u ∨ u + 4 ≤ y := fun u hu => h u (List.mem_cons_of_mem w hu)
    calc storeWords v (w :: as) m y
        = storeWords v as (store m w 4 v) y := rfl
      _ = store m w 4 v y := ih hrest
      _ = m y := store_out hw

/-- The context begins where it still fits. -/
theorem newTask_sp (hend : r + 4 * b.stackWords a.stackWords ≤ b.pool.abi.sizeMod) :
    (b.newTask a r).sp = r + 4 * (b.stackWords a.stackWords - contextWords b.fp) := by
  have hctx := contextWords_le b a.stackWords
  obtain ⟨-, hpos, -⟩ := contextWords_bounds b.fp
  exact Nat.mod_eq_of_lt (by omega)

/-- **Without a wrap** every word that is written lies in the bytes that were asked of the allocator. -/
theorem newTask_inside (hb : b.pool.abi = .ilp32) (hle : a.stackWords ≤ 2 ^ 30 - 2)
    (hend : r + b.stackBytes a.stackWords ≤ b.pool.abi.sizeMod) :
    ∀ w ∈ b.painted (b.newTask a r) ++ b.frame (b.newTask a r),
      r ≤ w ∧ w + 4 ≤ r + b.stackBytes a.stackWords := by
  have hctx := contextWords_le b a.stackWords
  rw [stackBytes_eq hb hle] at hend ⊢
  intro w hw
  rcases List.mem_append.mp hw with hw | hw
  · exact wordsAt_bounds hend hw
  · unfold StackBuild.frame at hw
    rw [newTask_sp hend] at hw
    have hbounds := wordsAt_bounds (by omega) hw
    omega

/-- **The stack fits** then. -/
theorem stackFits_of_newBlock {n : Nat} (hb : b.pool.abi = .ilp32) (hle : a.stackWords ≤ 2 ^ 30 - 2)
    (hn : NewBlock b.pool h h₁ (b.stackBytes a.stackWords) r n) :
    StackFits b h₁ a.stackWords (b.newTask a r) := by
  have hctx := contextWords_le b a.stackWords
  have heven := stackWords_even b a.stackWords
  obtain ⟨hceven, -⟩ := contextWords_bounds b.fp
  have hsize := hn.size_le
  have hend := hn.end_lt
  have halign : r % 8 = 0 := hn.aligned
  have hbytes := stackBytes_eq hb hle
  refine ⟨heven, hctx, le_stackWords hb (by omega), ⟨n, hn.live, fun w hw => ?_⟩, ?_⟩
  · obtain ⟨hge, hlt⟩ := newTask_inside hb hle (by omega) w hw
    exact ⟨hge, hlt.trans (Nat.add_le_add_left hsize r)⟩
  · rw [newTask_sp (by omega)]
    omega

/-- **With a wrap it does not**: there are too few words, or the one that is painted before the address
wraps around lies below the stack. -/
theorem not_stackFits_of_newBlock {n : Nat} (hb : b.pool.abi = .ilp32) (hlt : 2 ^ 30 - 2 < a.stackWords)
    (hsize : a.stackWords < 2 ^ 32) (hr : r ≠ 0)
    (hn : NewBlock b.pool h h₁ (b.stackBytes a.stackWords) r n) :
    ¬ StackFits b h₁ a.stackWords (b.newTask a r) := by
  intro hfits
  obtain ⟨-, -, hctx⟩ := contextWords_bounds b.fp
  have hmod : b.pool.abi.sizeMod = 2 ^ 32 := by rw [hb]; rfl
  by_cases hlast : a.stackWords = 2 ^ 32 - 1
  · have hwords : a.stackWords ≤ b.stackWords a.stackWords := hfits.requested
    rw [hlast, stackWords_wrap hb] at hwords
    omega
  · have halign : r % 8 = 0 := hn.aligned
    have hend := hn.end_lt
    have hwords := le_stackWords hb (show a.stackWords < 2 ^ 32 - 1 by omega)
    have heven := stackWords_even b a.stackWords
    obtain ⟨k, -, hall⟩ := hfits.block
    have hword : (r + 4 * (2 ^ 30 - 1)) % b.pool.abi.sizeMod ∈ b.painted (b.newTask a r) :=
      mem_wordsAt.mpr ⟨2 ^ 30 - 1, show 2 ^ 30 - 1 < b.stackWords a.stackWords by omega, rfl⟩
    have hbelow : (r + 4 * (2 ^ 30 - 1)) % b.pool.abi.sizeMod = r - 4 := by
      rw [hmod] at hend ⊢
      omega
    obtain ⟨hge, -⟩ := hall _ (List.mem_append_left _ hword)
    have hge' : r ≤ r - 4 := hbelow ▸ hge
    omega

/-! ## Every heap and every table -/

/-- **A task is created** by an allocation and writes inside its block, so the heap stays one that can be
reached, and every other block is as it was. -/
theorem taskCreate_run (hb : b.pool.abi = .ilp32) {s : HeapState} (hl : Life b.pool s)
    (hle : a.stackWords ≤ 2 ^ 30 - 2) {task : HalowTask} {x' : Tasks} {h' : Heap}
    (hc : b.taskCreate a x s.heap = some (some task, x', h')) :
    (∃ tr, Run (LifeStep b.pool) s tr ⟨h', ⟨task.stack, b.stackBytes a.stackWords⟩ :: s.live⟩) ∧
      Undisturbed b.pool.abi b.pool.heapSize s.heap h' 0 := by
  obtain ⟨r, h₁, hm, hr, rfl, rfl⟩ := taskCreate_some hc
  obtain ⟨r', h₂, hm', -, hnew⟩ := hl.malloc_block (b.stackBytes a.stackWords)
  obtain ⟨rfl, rfl⟩ := Prod.mk.inj (Option.some.inj (hm'.symm.trans hm))
  obtain ⟨n, hn⟩ := hnew hr
  have hend := hn.end_lt
  have hsize := hn.size_le
  have hmalloc : LifeStep b.pool s (.call (.malloc (b.stackBytes a.stackWords)))
      ⟨h₂, ⟨r', b.stackBytes a.stackWords⟩ :: s.live⟩ := by
    refine ⟨Nat.mod_lt _ (Nat.pow_pos (by decide)), ?_⟩
    rw [exec, hm, Option.map_some, grant, if_neg hr]
  have hout : ∀ y, y < r' ∨ r' + b.stackBytes a.stackWords ≤ y →
      b.layOut (b.newTask a r') h₂.mem y = h₂.mem y := by
    intro y hy
    have hwords : ∀ w ∈ b.painted (b.newTask a r') ++ b.frame (b.newTask a r'), y < w ∨ w + 4 ≤ y := by
      intro w hw
      have hbounds := newTask_inside hb hle (by omega) w hw
      omega
    obtain ⟨-, hpos, -⟩ := contextWords_bounds b.fp
    have hlast : ((b.newTask a r').sp + 4 * (contextWords b.fp - 1)) % b.pool.abi.sizeMod ∈
        b.frame (b.newTask a r') := mem_wordsAt.mpr ⟨contextWords b.fp - 1, by omega, rfl⟩
    unfold StackBuild.layOut
    rw [store_out (hwords _ (List.mem_append_right _ hlast)),
      storeWords_out fun w hw => hwords w (List.mem_append_right _ hw),
      storeWords_out fun w hw => hwords w (List.mem_append_left _ hw)]
  have hout' : ∀ y, y < r' ∨ r' + n ≤ y → b.layOut (b.newTask a r') h₂.mem y = h₂.mem y :=
    fun y hy => hout y (hy.imp_right (Nat.add_le_add_left hsize r').trans)
  obtain ⟨tr, hwrites⟩ := write_run (P := b.pool) (q := ⟨r', b.stackBytes a.stackWords⟩)
    (s := ⟨h₂, ⟨r', b.stackBytes a.stackWords⟩ :: s.live⟩) List.mem_cons_self hout
  exact ⟨⟨_, (Run.single hmalloc).trans hwrites⟩,
    hn.kept.fresh hn.fresh ((hl.step hmalloc).write_block hn.live hout')⟩

/-- **The stack of a task fits** for every heap and every task table that can be reached, as long as
neither the rounding nor the product wraps. Where one does, no task may be created. -/
theorem stack_fits_iff (b : StackBuild) (hb : b.pool.abi = .ilp32) {m0 : Mem} {trh : List LifeEvent}
    {s : HeapState} (hheap : Run (LifeStep b.pool) (lifeStart m0) trh s) {now : Nat}
    {trt : List TaskEvent} {x : Tasks} (htasks : Run (TaskStep b.cfg) (Tasks.boot now) trt x)
    (a : TaskArgs) (hsize : a.stackWords < 2 ^ 32) :
    StackSound b a x s.heap ↔ a.stackWords ≤ 2 ^ 30 - 2 ∨ x.tab.freeSlot b.cfg = none ∨
      NoBlock b.pool s.heap (wrappedBytes b.fp a.stackWords) := by
  obtain ⟨l, hsound⟩ := Sound.run (Sound.boot now) htasks
  obtain ⟨r, h₁, hm, hnull, hnew⟩ := (Life.run hheap).malloc_block (b.stackBytes a.stackWords)
  rw [stackSound_iff hsound.listed hm]
  by_cases hle : a.stackWords ≤ 2 ^ 30 - 2
  · refine iff_of_true ?_ (.inl hle)
    by_cases hr : r = 0
    · exact .inr (.inl hr)
    · obtain ⟨n, hn⟩ := hnew hr
      exact .inr (.inr (stackFits_of_newBlock hb hle hn))
  · have hfits : ¬ (r ≠ 0 ∧ StackFits b h₁ a.stackWords (b.newTask a r)) := by
      rintro ⟨hr, hfits⟩
      obtain ⟨n, hn⟩ := hnew hr
      exact not_stackFits_of_newBlock hb (Nat.not_le.mp hle) hsize hr hn hfits
    rw [← stackBytes_wrapped hb (Nat.not_le.mp hle) hsize, ← hnull]
    tauto

/-- The default pool, task table and board. -/
def ramBuild : StackBuild where
  pool := ramPool
  cfg := .defaults
  fp := true
  trampoline := 0x10000101

/-- 1001 words on a fresh heap: they fit, and there are 1002. -/
theorem stack_fits_iff_fresh :
    StackSound ramBuild ⟨0x10000201, 0, 1001, 0⟩ (Tasks.boot 0) (heapStart ramPool fun _ => 0).heap ∧
    ∃ task x' h', ramBuild.taskCreate ⟨0x10000201, 0, 1001, 0⟩ (Tasks.boot 0)
      (heapStart ramPool fun _ => 0).heap = some (some task, x', h') ∧ task.stackWords = 1002 :=
  ⟨(stack_fits_iff ramBuild rfl ramPool_init (Run.nil : Run _ (Tasks.boot 0) [] _)
    ⟨0x10000201, 0, 1001, 0⟩ (by decide)).mpr (.inl (by decide)), _, _, _, rfl, rfl⟩

/-- **2^32 - 1 words on a fresh heap**: the task that is returned has 26. -/
theorem stack_wraps : ∃ s x, Run (LifeStep ramBuild.pool) (lifeStart fun _ => 0)
      [.init (some ramPool)] s ∧ Run (TaskStep ramBuild.cfg) (Tasks.boot 0) [] x ∧
    (∃ task x' h', ramBuild.taskCreate ⟨0x10000201, 0, 2 ^ 32 - 1, 0⟩ x s.heap =
      some (some task, x', h') ∧ task.stackWords = 26) ∧
    ¬ StackSound ramBuild ⟨0x10000201, 0, 2 ^ 32 - 1, 0⟩ x s.heap := by
  obtain ⟨task, x', h', hc, hwords⟩ : ∃ task x' h',
      ramBuild.taskCreate ⟨0x10000201, 0, 2 ^ 32 - 1, 0⟩ (Tasks.boot 0)
        (heapStart ramPool fun _ => 0).heap = some (some task, x', h') ∧ task.stackWords = 26 :=
    ⟨_, _, _, rfl, rfl⟩
  refine ⟨_, _, ramPool_init, Run.nil, ⟨task, x', h', hc, hwords⟩, fun hs => ?_⟩
  obtain ⟨h₁, -, hfits⟩ := hs task x' h' hc
  have hle : 2 ^ 32 - 1 ≤ task.stackWords := hfits.requested
  rw [hwords] at hle
  exact absurd hle (by decide)

end MmHalow.Sched
