import MmHalow.Sched.Stack

/-!
# How deep a stack has been used (`mm_halow_sched_stack_free_words`)

The words of a stack are painted when the task is created, and a stack is used from its end down, so
the words at its bottom that still have their paint are those that have never been used, unless the
task left the very pattern behind. Here a task writes what it likes from some word of its stack up, and
other code writes elsewhere.

| source                                  | here             |
|-----------------------------------------|------------------|
| `mm_halow_sched_stack_free_words`       | `stackFreeWords` |

* `paintedFrom_spec`: what the loop finds.
* `layOut_words`: a stack that has just been laid out is painted up to its context.
* `free_words_mark`: **in every run the count is at least the number of words below the deepest one
  that was used, and is that number exactly where the deepest word does not hold the pattern.**
-/

namespace MmHalow.Sched

open MmHalow.Lib MmHalow.Lib.Bytes MmHalow.Osal

/-- `stack[i]`. -/
def stackWord (abi : Abi) (m : Mem) (stack i : Nat) : Nat := load m ((stack + 4 * i) % abi.sizeMod) 4

/-- Where the loop ends that is at word `i` with `n` to go. -/
def paintedFrom (abi : Abi) (m : Mem) (stack : Nat) : Nat → Nat → Nat
  | 0, i => i
  | n + 1, i => if stackWord abi m stack i = stackFill then paintedFrom abi m stack n (i + 1) else i

/-- `mm_halow_sched_stack_free_words`. -/
def stackFreeWords (abi : Abi) (task : Option HalowTask) (m : Mem) : Nat :=
  match task with
  | none => 0
  | some task => if task.stack = 0 then 0 else paintedFrom abi m task.stack task.stackWords 0

/-- The memory, and the lowest word of the stack that has been used. -/
structure StackUse where
  mem : Mem
  low : Nat

/-- What happens to the memory. -/
inductive StackEvent where
  /-- The task writes to its stack from word `k` up. -/
  | use (k : Nat) (mem : Mem)
  /-- Other code writes, not to the stack. -/
  | other (mem : Mem)

/-- A step. -/
def StackStep (task : HalowTask) (s : StackUse) (e : StackEvent) (t : StackUse) : Prop :=
  match e with
  | .use k mem => k < task.stackWords ∧ t = ⟨mem, min s.low k⟩ ∧
      ∀ y, y < task.stack + 4 * k ∨ task.stack + 4 * task.stackWords ≤ y → mem y = s.mem y
  | .other mem => t = ⟨mem, s.low⟩ ∧
      ∀ y, task.stack ≤ y → y < task.stack + 4 * task.stackWords → mem y = s.mem y

variable {abi : Abi} {m : Mem} {stack n i j p v : Nat} {b : StackBuild} {a : TaskArgs} {x x' : Tasks}
  {task : HalowTask} {s t : StackUse} {e : StackEvent} {h' : Heap}

/-! ## The loop -/

/-- **Where the loop ends**: all words before are painted, and the one it ends at is not. -/
theorem paintedFrom_spec : ∃ j ≤ n, paintedFrom abi m stack n i = i + j ∧
    (∀ k < j, stackWord abi m stack (i + k) = stackFill) ∧
      (j < n → stackWord abi m stack (i + j) ≠ stackFill) := by
  induction n generalizing i with
  | zero => exact ⟨0, Nat.le_refl 0, rfl, fun k hk => absurd hk (Nat.not_lt_zero k),
      fun hlt => absurd hlt (Nat.not_lt_zero 0)⟩
  | succ n ih =>
    unfold paintedFrom
    by_cases hw : stackWord abi m stack i = stackFill
    · obtain ⟨j, hj, heq, hpainted, hend⟩ := ih (i := i + 1)
      rw [if_pos hw]
      refine ⟨j + 1, Nat.succ_le_succ hj, by omega, fun k hk => ?_, fun hlt => ?_⟩
      · cases k with
        | zero => exact hw
        | succ k =>
          rw [show i + (k + 1) = i + 1 + k by omega]
          exact hpainted k (by omega)
      · rw [show i + (j + 1) = i + 1 + j by omega]
        exact hend (by omega)
    · rw [if_neg hw]
      exact ⟨0, Nat.zero_le _, rfl, fun k hk => absurd hk (Nat.not_lt_zero k), fun _ => hw⟩

/-- **The count and the words that are painted**: it reaches as far as they do. -/
theorem paintedFrom_le_iff {low : Nat} (hlow : low < n)
    (hpainted : ∀ k < low, stackWord abi m stack k = stackFill) :
    low ≤ paintedFrom abi m stack n 0 ∧
      (paintedFrom abi m stack n 0 = low ↔ stackWord abi m stack low ≠ stackFill) := by
  obtain ⟨j, hj, heq, hall, hend⟩ : ∃ j ≤ n, paintedFrom abi m stack n 0 = 0 + j ∧ _ :=
    paintedFrom_spec
  simp only [Nat.zero_add] at heq hall hend
  have hle : low ≤ j := by
    by_contra hlt
    exact hend (by omega) (hpainted j (by omega))
  rw [heq]
  refine ⟨hle, fun heq => ?_, fun hword => ?_⟩
  · rw [← heq]
    exact hend (by omega)
  · by_contra hne
    exact hword (hall low (by omega))

/-! ## A stack that is laid out -/

theorem wordsAt_succ : wordsAt abi p (n + 1) = wordsAt abi p n ++ [(p + 4 * n) % abi.sizeMod] := by
  simp only [wordsAt, List.range_succ, List.map_append, List.map_cons, List.map_nil]

/-- A word that is stored among others. -/
theorem load_storeWords (hend : p + 4 * n ≤ abi.sizeMod) (hi : i < n) (hv : v < 256 ^ 4) :
    load (storeWords v (wordsAt abi p n) m) (p + 4 * i) 4 = v := by
  induction n with
  | zero => exact absurd hi (Nat.not_lt_zero i)
  | succ n ih =>
    have hlast : (p + 4 * n) % abi.sizeMod = p + 4 * n := Nat.mod_eq_of_lt (by omega)
    have hstore : storeWords v (wordsAt abi p (n + 1)) m =
        store (storeWords v (wordsAt abi p n) m) (p + 4 * n) 4 v := by
      rw [wordsAt_succ, storeWords, List.foldl_append, hlast]
      rfl
    rw [hstore]
    by_cases heq : i = n
    · rw [heq]
      exact load_store hv
    · rw [load_store_other (by omega)]
      exact ih (by omega) (by omega)

/-- A word beside those that are stored. -/
theorem load_storeWords_other {q : Nat} (hend : p + 4 * n ≤ abi.sizeMod)
    (hq : q + 4 ≤ p ∨ p + 4 * n ≤ q) :
    load (storeWords v (wordsAt abi p n) m) q 4 = load m q 4 :=
  load_congr fun y h1 h2 => storeWords_out fun w hw => by
    have := wordsAt_bounds hend hw
    omega

/-- **A stack that has been laid out** is painted up to its context, which begins with a zero. -/
theorem layOut_words (hend : task.stack + 4 * task.stackWords ≤ b.pool.abi.sizeMod)
    (hctx : contextWords b.fp ≤ task.stackWords)
    (hsp : task.sp = task.stack + 4 * (task.stackWords - contextWords b.fp)) :
    (∀ k < task.stackWords - contextWords b.fp,
      stackWord b.pool.abi (b.layOut task m) task.stack k = stackFill) ∧
    stackWord b.pool.abi (b.layOut task m) task.stack (task.stackWords - contextWords b.fp) = 0 := by
  obtain ⟨heven, hpos, -⟩ := contextWords_bounds b.fp
  have hframe : task.sp + 4 * contextWords b.fp ≤ b.pool.abi.sizeMod := by omega
  have hlay : b.layOut task m = store
      (storeWords 0 (b.frame task) (storeWords stackFill (b.painted task) m))
      (task.sp + 4 * (contextWords b.fp - 1)) 4 b.trampoline := by
    unfold StackBuild.layOut
    rw [Nat.mod_eq_of_lt (by omega)]
  refine ⟨fun k hk => ?_, ?_⟩
  · have hword : (task.stack + 4 * k) % b.pool.abi.sizeMod = task.stack + 4 * k :=
      Nat.mod_eq_of_lt (by omega)
    unfold stackWord
    rw [hword, hlay, load_store_other (by omega)]
    unfold StackBuild.frame StackBuild.painted
    rw [load_storeWords_other hframe (by omega)]
    exact load_storeWords hend (by omega) (by decide)
  · have hword : task.sp % b.pool.abi.sizeMod = task.sp := Nat.mod_eq_of_lt (by omega)
    unfold stackWord
    rw [← hsp, hword, hlay, load_store_other (by omega)]
    have hzero := load_storeWords (v := 0) (m := storeWords stackFill (b.painted task) m) hframe hpos
      (by decide)
    rwa [Nat.mul_zero, Nat.add_zero] at hzero

/-! ## A stack that is used -/

/-- Below the deepest word that was used the stack is painted. -/
structure Unused (b : StackBuild) (task : HalowTask) (s : StackUse) : Prop where
  low : s.low < task.stackWords
  painted : ∀ k < s.low, stackWord b.pool.abi s.mem task.stack k = stackFill

theorem stackWord_congr {m' : Mem} (hi : stack + 4 * i + 4 ≤ abi.sizeMod)
    (h : ∀ y, stack + 4 * i ≤ y → y < stack + 4 * i + 4 → m' y = m y) :
    stackWord abi m' stack i = stackWord abi m stack i := by
  unfold stackWord
  rw [Nat.mod_eq_of_lt (by omega)]
  exact load_congr h

/-- **What is written leaves the words below as they are.** -/
theorem Unused.step (hend : task.stack + 4 * task.stackWords ≤ b.pool.abi.sizeMod) (h : Unused b task s)
    (hs : StackStep task s e t) : Unused b task t := by
  have hlow := h.low
  cases e with
  | use k mem =>
    obtain ⟨hk, rfl, hmem⟩ := hs
    refine ⟨Nat.lt_of_le_of_lt (Nat.min_le_left ..) hlow, fun i hi => ?_⟩
    have hi : i < s.low ∧ i < k := Nat.lt_min.mp hi
    rw [stackWord_congr (by omega) fun y _ hy => hmem y (.inl (by omega))]
    exact h.painted i hi.1
  | other mem =>
    obtain ⟨rfl, hmem⟩ := hs
    refine ⟨hlow, fun i hi => ?_⟩
    have hi : i < s.low := hi
    rw [stackWord_congr (by omega) fun y hge hy => hmem y (by omega) (by omega)]
    exact h.painted i hi

/-- **A stack that a task was created with**, on any heap that can be reached. -/
theorem unused_of_taskCreate (hb : b.pool.abi = .ilp32) {q : HeapState} (hl : Life b.pool q)
    (hle : a.stackWords ≤ 2 ^ 30 - 2) (hc : b.taskCreate a x q.heap = some (some task, x', h')) :
    task.stack ≠ 0 ∧ task.stack + 4 * task.stackWords ≤ b.pool.abi.sizeMod ∧
      contextWords b.fp ≤ task.stackWords ∧
      Unused b task ⟨h'.mem, task.stackWords - contextWords b.fp⟩ ∧
      stackWord b.pool.abi h'.mem task.stack (task.stackWords - contextWords b.fp) = 0 := by
  obtain ⟨r, h₁, hm, hr, rfl, rfl⟩ := taskCreate_some hc
  obtain ⟨r', h₂, hm', -, hnew⟩ := hl.malloc_block (b.stackBytes a.stackWords)
  obtain ⟨rfl, rfl⟩ := Prod.mk.inj (Option.some.inj (hm'.symm.trans hm))
  obtain ⟨n, hn⟩ := hnew hr
  have hctx : contextWords b.fp ≤ (b.newTask a r').stackWords := contextWords_le b a.stackWords
  have hpos := (contextWords_bounds b.fp).2.1
  have hbytes : b.stackBytes a.stackWords = 4 * (b.newTask a r').stackWords := stackBytes_eq hb hle
  have hsize := hn.size_le
  have hlt := hn.end_lt
  have hend : (b.newTask a r').stack + 4 * (b.newTask a r').stackWords ≤ b.pool.abi.sizeMod := by
    rw [← hbytes]
    exact Nat.le_of_lt (Nat.lt_of_le_of_lt (Nat.add_le_add_left hsize r') hlt)
  obtain ⟨hpainted, hzero⟩ := layOut_words (m := h₂.mem) hend hctx (newTask_sp hend)
  exact ⟨hr, hend, hctx, ⟨by show (b.newTask a r').stackWords - _ < _; omega, hpainted⟩, hzero⟩

/-- **How deep a stack has been used**, for every heap that can be reached and every task that is created
on it: the count when it is created, and in every run after it. -/
theorem free_words_mark (b : StackBuild) (hb : b.pool.abi = .ilp32) {m0 : Mem} {trh : List LifeEvent}
    {q : HeapState} (hheap : Run (LifeStep b.pool) (lifeStart m0) trh q) (a : TaskArgs) (x : Tasks)
    (hle : a.stackWords ≤ 2 ^ 30 - 2) (hc : b.taskCreate a x q.heap = some (some task, x', h'))
    {tr : List StackEvent}
    (hr : Run (StackStep task) ⟨h'.mem, task.stackWords - contextWords b.fp⟩ tr t) :
    stackFreeWords b.pool.abi (some task) h'.mem = task.stackWords - contextWords b.fp ∧
      t.low ≤ stackFreeWords b.pool.abi (some task) t.mem ∧
      (stackFreeWords b.pool.abi (some task) t.mem = t.low ↔
        stackWord b.pool.abi t.mem task.stack t.low ≠ stackFill) := by
  obtain ⟨hstack, hend, hctx, hfresh, hzero⟩ := unused_of_taskCreate hb (Life.run hheap) hle hc
  have hunused : Unused b task t := hr.inv hfresh fun _ _ _ h hs => h.step hend hs
  have hcount : ∀ m, stackFreeWords b.pool.abi (some task) m =
      paintedFrom b.pool.abi m task.stack task.stackWords 0 := fun m => if_neg hstack
  rw [hcount, hcount]
  refine ⟨(paintedFrom_le_iff hfresh.low hfresh.painted).2.mpr ?_,
    paintedFrom_le_iff hunused.low hunused.painted⟩
  rw [hzero]
  decide

/-- 256 words on a fresh heap: 26 are the context's, and a task that clears those from word 100 up has
left 100. -/
theorem free_words_mark_fresh : ∃ (task : HalowTask) (h' : Heap) (mem : Mem),
    Run (StackStep task) ⟨h'.mem, 230⟩ [.use 100 mem] ⟨mem, 100⟩ ∧
      stackFreeWords .ilp32 (some task) h'.mem = 230 ∧ 100 ≤ stackFreeWords .ilp32 (some task) mem := by
  obtain ⟨task, x', h', hc, hwords⟩ : ∃ task x' h',
      ramBuild.taskCreate ⟨0x10000201, 0, 256, 0⟩ (Tasks.boot 0)
        (heapStart ramPool fun _ => 0).heap = some (some task, x', h') ∧ task.stackWords = 256 :=
    ⟨_, _, _, rfl, rfl⟩
  have hlow : task.stackWords - contextWords ramBuild.fp = 230 := by
    rw [hwords]
    rfl
  have hrun : Run (StackStep task) ⟨h'.mem, 230⟩ [.use 100 fun y =>
      if task.stack + 400 ≤ y ∧ y < task.stack + 1024 then 0 else h'.mem y] ⟨_, 100⟩ :=
    .single ⟨by omega, rfl, fun y hy => if_neg (by omega)⟩
  obtain ⟨hfresh, hused, -⟩ := free_words_mark ramBuild rfl ramPool_init ⟨0x10000201, 0, 256, 0⟩
    (Tasks.boot 0) (by decide) hc (hlow.symm ▸ hrun)
  exact ⟨task, h', _, hrun, hfresh.trans hlow, hused⟩

end MmHalow.Sched
