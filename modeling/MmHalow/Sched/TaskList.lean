import MmHalow.Sched.Tasks

/-!
# The task list through creations, deletions and runs

`mm_halow_sched_task_delete` only marks; the slot and its stack stay in use until
`mm_halow_sched_reap`, at the end of a run and between two turns, unlinks the task. So the list changes
at its end alone while a run walks it, and a slot is never reused under the walk.

* `TaskStep.cases`: what one step can be.
* `Sound.step`, `Sound.run`: the list is sound wherever the system stands, and a run knows the tasks
  that it names.
* `tasks_run_list`: **the code that follows links does what the functions of `Machine` do on their list**,
  in every run up to `mm_halow_sched_deinit`, which `Machine` does not have.
* `Booked.step`: dead tasks are known to be dead, and no stack is freed twice.
* `task_list_kept`: **outside a run the list ends, has no repeats and holds the slots with a stack in
  creation order; a creation that fails changes nothing; a dead task is not resumed; and only reaping
  frees stacks, those of the dead tasks, each once and with no task in its turn.**
-/

namespace MmHalow.Sched

open MmHalow.Lib MmHalow.Lib.Clock

variable {cfg : Config} {x y : Tasks} {e : TaskEvent} {tab : Table} {l : List TaskId} {t : TaskId}

/-! ## What a step can be -/

/-- What code makes of the table. -/
inductive TabMove (cfg : Config) (tab : Table) : Table → Prop
  | same : TabMove cfg tab tab
  | marked {t : TaskId} : TabMove cfg tab (tab.markDead t)
  | created {tab' : Table} {t : TaskId} : tab.freeSlot cfg = some t →
      (tab.setUp t).link cfg t = some tab' → TabMove cfg tab tab'

/-- **What one step can be.** -/
inductive TaskMove (cfg : Config) (x y : Tasks) : Prop
  /-- A call, or something that happens meanwhile. -/
  | call : TabMove cfg x.tab y.tab → (x.mayCall = true ∨ y.tab = x.tab) → y.pc = x.pc → y.cur = x.cur →
      y.running = x.running → y.record = x.record → (x.woken = true → y.woken = true) → TaskMove cfg x y
  /-- A run begins. -/
  | began : x.running = false → x.cur = none → y.tab = x.tab → y.pc = some .deadline →
      y.cur = x.cur → y.running = true → y.record = [] → TaskMove cfg x y
  /-- A task leaves its turn. -/
  | left {pass : Nat} {t : TaskId} : TabMove cfg x.tab y.tab → x.pc = some (.inTurn pass t) →
      y.pc = some (.clearCur pass t) → y.cur = x.cur → y.running = x.running → y.record = x.record →
      TaskMove cfg x y
  /-- All tasks are abandoned. -/
  | emptied : x.pc = none → y = x.deinit → TaskMove cfg x y
  /-- The run takes a step. -/
  | body {pc : RunPc} : x.pc = some pc → x.body cfg pc = some y → TaskMove cfg x y

theorem Tasks.inTurn_pc (h : x.inTurn = true) : ∃ pass t, x.pc = some (.inTurn pass t) := by
  unfold Tasks.inTurn at h
  split at h
  · next pass t hpc => exact ⟨pass, t, hpc⟩
  · exact Bool.noConfusion h

/-- Code runs outside a run or in a turn. -/
theorem Tasks.mayCall_pc (h : x.mayCall = true) :
    x.pc = none ∨ ∃ pass t, x.pc = some (.inTurn pass t) := by
  rcases Bool.or_eq_true_iff.mp h with h | h
  · exact .inl (of_decide_eq_true h)
  · exact .inr (Tasks.inTurn_pc h)

/-- A task that leaves its turn. -/
theorem Tasks.switchAway_move {z : Tasks} (hz : TabMove cfg x.tab z.tab) (hpc : z.pc = x.pc)
    (hcur : z.cur = x.cur) (hrun : z.running = x.running) (hrec : z.record = x.record)
    (hw : x.woken = true → z.woken = true) (hcall : x.mayCall = true) :
    TaskMove cfg x z.switchAway := by
  unfold Tasks.switchAway
  split
  · next pass t hturn => exact .left hz (hpc ▸ hturn) rfl hcur hrun hrec
  · exact .call hz (.inl hcall) hpc hcur hrun hrec hw

theorem Tasks.taskDelete_move (hcall : x.mayCall = true) (o : Option TaskId) :
    TaskMove cfg x (x.taskDelete o) := by
  cases o with
  | some t => exact .call .marked (.inl hcall) rfl rfl rfl rfl fun _ => rfl
  | none =>
    unfold Tasks.taskDelete
    dsimp only
    split
    · exact .call .same (.inr rfl) rfl rfl rfl rfl id
    · exact Tasks.switchAway_move .marked rfl rfl rfl rfl (fun _ => rfl) hcall

theorem Tasks.mayCall_of_inTurn (h : x.inTurn = true) : x.mayCall = true :=
  Bool.or_eq_true_iff.mpr (.inr h)

theorem TaskStep.cases (h : TaskStep cfg x e y) : TaskMove cfg x y := by
  unfold TaskStep Tasks.step at h
  cases e with
  | time dt =>
    obtain rfl := Option.some.inj h
    exact .call .same (.inr rfl) rfl rfl rfl rfl id
  | irqWake =>
    obtain rfl := Option.some.inj h
    exact .call .same (.inr rfl) rfl rfl rfl rfl fun _ => rfl
  | create heap =>
    obtain ⟨hcall, h⟩ := Option.ite_none_right_eq_some.mp h
    obtain ⟨⟨r, z⟩, hz, rfl⟩ := Option.map_eq_some_iff.mp h
    unfold Tasks.taskCreate at hz
    split at hz
    · obtain ⟨rfl, rfl⟩ := Prod.mk.inj (Option.some.inj hz)
      exact .call .same (.inr rfl) rfl rfl rfl rfl id
    · next t hfree =>
      split_ifs at hz
      · obtain ⟨tab', hlink, hz⟩ := Option.map_eq_some_iff.mp hz
        obtain ⟨rfl, rfl⟩ := Prod.mk.inj hz
        exact .call (.created hfree hlink) (.inl hcall) rfl rfl rfl rfl fun _ => rfl
      · obtain ⟨rfl, rfl⟩ := Prod.mk.inj (Option.some.inj hz)
        exact .call .same (.inr rfl) rfl rfl rfl rfl id
  | delete t =>
    obtain ⟨hcall, h⟩ := Option.ite_none_right_eq_some.mp h
    obtain rfl := Option.some.inj h
    exact Tasks.taskDelete_move hcall t
  | run =>
    obtain ⟨hcall, h⟩ := Option.ite_none_right_eq_some.mp h
    obtain rfl := Option.some.inj h
    unfold Tasks.run
    split_ifs with hinert
    · exact .call .same (.inr rfl) rfl rfl rfl rfl id
    · obtain ⟨hrun, hcur⟩ := not_or.mp hinert
      exact .began (Bool.eq_false_of_not_eq_true hrun) (not_not.mp hcur) rfl rfl rfl rfl rfl
  | deinit =>
    obtain ⟨hpc, h⟩ := Option.ite_none_right_eq_some.mp h
    obtain rfl := Option.some.inj h
    exact .emptied hpc rfl
  | yield =>
    obtain ⟨hturn, h⟩ := Option.ite_none_right_eq_some.mp h
    obtain rfl := Option.some.inj h
    exact Tasks.switchAway_move .same rfl rfl rfl rfl (fun _ => rfl) (Tasks.mayCall_of_inTurn hturn)
  | park timed wakeAt =>
    obtain ⟨hturn, h⟩ := Option.ite_none_right_eq_some.mp h
    obtain rfl := Option.some.inj h
    have hcall := Tasks.mayCall_of_inTurn hturn
    unfold Tasks.park
    split_ifs
    · exact Tasks.switchAway_move .same rfl rfl rfl rfl id hcall
    · exact Tasks.switchAway_move .same rfl rfl rfl rfl id hcall
  | ret =>
    obtain ⟨hturn, h⟩ := Option.ite_none_right_eq_some.mp h
    obtain rfl := Option.some.inj h
    exact Tasks.taskDelete_move (Tasks.mayCall_of_inTurn hturn) none
  | body =>
    obtain ⟨pc, hpc, h⟩ := Option.bind_eq_some_iff.mp h
    exact .body hpc h

/-! ## The list in a run -/

/-- The task that `mm_halow_task_cur` names there. -/
def RunPc.curOf : RunPc → Option TaskId
  | .resume _ t => some t
  | .inTurn _ t => some t
  | .clearCur _ t => some t
  | _ => none

/-- The task that is about to be resumed. -/
def RunPc.chosen : RunPc → Option TaskId
  | .setCur _ t => some t
  | .resume _ t => some t
  | _ => none

/-- **The list is sound**, and the run knows its tasks: those it is about to visit or has chosen are on
the list, and one that it has chosen is ready. -/
structure Sound (cfg : Config) (x : Tasks) (l : List TaskId) : Prop where
  listed : Listed cfg x.tab l
  running : x.running = x.pc.isSome
  cur : x.cur = x.pc.bind RunPc.curOf
  onList : ∀ t ∈ x.pc.bind RunPc.taskOf, t ∈ l
  chosen : ∀ t ∈ x.pc.bind RunPc.chosen, (x.tab.slots t).state = .ready

/-- What code makes of the table keeps its list, which may grow at its end. -/
theorem Listed.move {tab' : Table} (h : Listed cfg tab l) (hm : TabMove cfg tab tab') :
    ∃ l', Listed cfg tab' l' ∧ l <+: l' := by
  cases hm with
  | same => exact ⟨l, h, List.prefix_refl l⟩
  | marked => exact ⟨l, h.markDead, List.prefix_refl l⟩
  | @created _ t hfree hlink =>
    obtain ⟨tab₁, h₁, hlisted, -⟩ := h.taskCreate hfree
    obtain rfl := Option.some.inj (h₁.symm.trans hlink)
    exact ⟨l ++ [t], hlisted, List.prefix_append l [t]⟩

/-- Nothing is chosen where code runs. -/
theorem RunPc.chosen_of_mayCall (h : x.mayCall = true) : x.pc.bind RunPc.chosen = none := by
  rcases Tasks.mayCall_pc h with hpc | ⟨pass, t, hpc⟩ <;> rw [hpc] <;> rfl

/-- A task that a link leads to is on the list. -/
theorem Listed.next_mem (h : Listed cfg tab l) (ht : t ∈ l) {u : TaskId}
    (hu : tab.links.next t = some u) :
    u ∈ l := by
  obtain ⟨as, bs, rfl⟩ := List.append_of_mem ht
  rw [h.linked.next_eq] at hu
  have hmem : u ∈ bs := List.mem_of_head? hu
  exact List.mem_append_right as (List.mem_cons_of_mem t hmem)

/-- A step of the run that does not reap leaves the table alone. -/
theorem body_tab {pc : RunPc} (h : x.body cfg pc = some y) (hpc : pc ≠ .reap) : y.tab = x.tab := by
  cases pc with
  | walk pass o => cases o <;> (obtain rfl := Option.some.inj h; rfl)
  | passTest pass =>
    obtain rfl := Option.some.inj h
    split_ifs <;> rfl
  | inTurn => exact nomatch h
  | reap => exact absurd rfl hpc
  | _ =>
    obtain rfl := Option.some.inj h
    rfl

/-- A run that is at no task has nothing to know of one. -/
theorem Sound.of_none (hl : Listed cfg x.tab l) (hrun : x.running = x.pc.isSome)
    (hcur : x.cur = x.pc.bind RunPc.curOf) (ht : x.pc.bind RunPc.taskOf = none)
    (hc : x.pc.bind RunPc.chosen = none) : Sound cfg x l := by
  refine ⟨hl, hrun, hcur, ?_, ?_⟩
  · rw [ht]
    exact fun t h => absurd h (Option.not_mem_none t)
  · rw [hc]
    exact fun t h => absurd h (Option.not_mem_none t)

/-- **A step of the run.** -/
theorem Sound.body {pc : RunPc} (h : Sound cfg x l) (hpc : x.pc = some pc) (hy : x.body cfg pc = some y)
    (hreap : pc ≠ .reap) : Sound cfg y l := by
  have hrun : x.running = true := by
    rw [h.running, hpc]
    rfl
  have hcur : x.cur = pc.curOf := by
    rw [h.cur, hpc]
    rfl
  have hmem : ∀ t ∈ pc.taskOf, t ∈ l := fun t ht => h.onList t (by rw [hpc]; exact ht)
  have hready : ∀ t ∈ pc.chosen, (x.tab.slots t).state = .ready := fun t ht =>
    h.chosen t (by rw [hpc]; exact ht)
  have hlisted : Listed cfg y.tab l := body_tab hy hreap ▸ h.listed
  cases pc with
  | deadline =>
    obtain rfl := Option.some.inj hy
    exact .of_none hlisted hrun hcur rfl rfl
  | passTest pass =>
    simp only [Tasks.body] at hy
    split_ifs at hy
    · obtain rfl := Option.some.inj hy
      exact .of_none hlisted hrun hcur rfl rfl
    · obtain rfl := Option.some.inj hy
      exact .of_none hlisted hrun hcur rfl rfl
  | clearWoken pass =>
    obtain rfl := Option.some.inj hy
    exact .of_none hlisted hrun hcur rfl rfl
  | resetWakeAt pass =>
    obtain rfl := Option.some.inj hy
    refine ⟨hlisted, hrun, hcur, fun t ht => ?_, fun _ hu => absurd hu (Option.not_mem_none _)⟩
    have hhead : x.tab.links.head = some t := ht
    exact List.mem_of_head? (h.listed.linked.read_eq.symm.trans hhead)
  | walk pass o =>
    cases o with
    | none =>
      obtain rfl := Option.some.inj hy
      exact .of_none hlisted hrun hcur rfl rfl
    | some t =>
      have ht : t ∈ l := hmem t rfl
      by_cases hstate : (x.tab.slots t).state = .ready
      · simp only [Tasks.body, hstate, decide_true, if_true] at hy
        obtain rfl := Option.some.inj hy
        refine ⟨hlisted, hrun, hcur, fun u hu => ?_, fun u hu => ?_⟩
        · obtain rfl := Option.some.inj hu
          exact ht
        · obtain rfl := Option.some.inj hu
          exact hstate
      · simp only [Tasks.body, hstate, decide_false, Bool.false_eq_true, if_false] at hy
        obtain rfl := Option.some.inj hy
        exact ⟨hlisted, hrun, hcur, fun u hu => h.listed.next_mem ht hu, fun _ hu => absurd hu (Option.not_mem_none _)⟩
  | setCur pass t =>
    obtain rfl := Option.some.inj hy
    exact ⟨hlisted, hrun, rfl, hmem, hready⟩
  | resume pass t =>
    obtain rfl := Option.some.inj hy
    exact ⟨hlisted, hrun, hcur, hmem, fun _ hu => absurd hu (Option.not_mem_none _)⟩
  | inTurn => cases hy
  | clearCur pass t =>
    obtain rfl := Option.some.inj hy
    exact ⟨hlisted, hrun, rfl, fun u hu => h.listed.next_mem (hmem t rfl) hu, fun _ hu => absurd hu (Option.not_mem_none _)⟩
  | passEnd pass =>
    obtain rfl := Option.some.inj hy
    split_ifs at hlisted ⊢ <;> exact .of_none hlisted hrun hcur rfl rfl
  | reap => exact absurd rfl hreap
  | finish =>
    obtain rfl := Option.some.inj hy
    exact .of_none hlisted rfl hcur rfl rfl

/-- **The run reaps.** -/
theorem Sound.reap (h : Sound cfg x l) (hpc : x.pc = some .reap) (hy : x.body cfg .reap = some y) :
    Sound cfg y (l.filter fun t => !x.tab.dead t) ∧ Reaped x.tab y.tab l ∧ y.pc = some .finish := by
  obtain ⟨tab', htab, rfl⟩ := Option.map_eq_some_iff.mp hy
  obtain ⟨tab₁, h₁, hlisted, hr⟩ := h.listed.reap
  obtain rfl := Option.some.inj (h₁.symm.trans htab)
  refine ⟨⟨hlisted, ?_, ?_, nofun, nofun⟩, hr, rfl⟩
  · exact h.running.trans (by rw [hpc]; rfl)
  · exact h.cur.trans (by rw [hpc]; rfl)

/-- **One step**: the list only grows, at its end, while the run has not come to reap. -/
theorem Sound.step (h : Sound cfg x l) (hs : TaskStep cfg x e y) :
    ∃ l', Sound cfg y l' ∧ (x.pc ≠ none → x.pc ≠ some .reap → l <+: l') := by
  cases hs.cases with
  | call htab hcall hpc hcur hrun _ _ =>
    obtain ⟨l', hl', hpre⟩ := h.listed.move htab
    refine ⟨l', ⟨hl', by rw [hrun, hpc, h.running], by rw [hcur, hpc, h.cur], ?_, ?_⟩, fun _ _ => hpre⟩
    · rw [hpc]
      exact fun t ht => hpre.subset (h.onList t ht)
    · rw [hpc]
      rcases hcall with hcall | hsame
      · rw [RunPc.chosen_of_mayCall hcall]
        exact nofun
      · rw [hsame]
        exact h.chosen
  | began hrun hcur htab hpc hcur' hrun' _ =>
    refine ⟨l, ⟨htab ▸ h.listed, by rw [hrun', hpc]; rfl, by rw [hcur', hcur, hpc]; rfl, ?_, ?_⟩,
      fun _ _ => List.prefix_refl l⟩
    · rw [hpc]
      exact nofun
    · rw [hpc]
      exact nofun
  | @left pass t htab hpc hpc' hcur hrun _ =>
    obtain ⟨l', hl', hpre⟩ := h.listed.move htab
    refine ⟨l', ⟨hl', ?_, ?_, ?_, ?_⟩, fun _ _ => hpre⟩
    · rw [hrun, h.running, hpc, hpc']
      rfl
    · rw [hcur, h.cur, hpc, hpc']
      rfl
    · rw [hpc']
      exact fun u hu => hpre.subset (h.onList u (by rw [hpc]; exact hu))
    · rw [hpc']
      exact nofun
  | emptied hpc hy =>
    subst hy
    refine ⟨[], ⟨⟨rfl, fun t => ?_, List.Pairwise.nil, nofun, nofun⟩, ?_, ?_, ?_, ?_⟩,
      fun hne => absurd hpc hne⟩
    · exact iff_of_false List.not_mem_nil fun hne => hne rfl
    · exact (by rw [hpc]; rfl : false = x.pc.isSome)
    · exact (by rw [hpc]; rfl : none = x.pc.bind RunPc.curOf)
    · intro t ht
      have ht : t ∈ x.pc.bind RunPc.taskOf := ht
      rw [hpc] at ht
      exact nomatch ht
    · intro t ht
      have ht : t ∈ x.pc.bind RunPc.chosen := ht
      rw [hpc] at ht
      exact nomatch ht
  | @body pc hpc hy =>
    by_cases hreap : pc = .reap
    · subst hreap
      exact ⟨_, (h.reap hpc hy).1, fun _ hne => absurd hpc hne⟩
    · exact ⟨l, h.body hpc hy hreap, fun _ _ => List.prefix_refl l⟩

/-- At boot the table is empty. -/
theorem Sound.boot (now : Nat) : Sound cfg (Tasks.boot now) [] where
  listed := ⟨rfl, fun _ => iff_of_false List.not_mem_nil fun hne => hne rfl, List.Pairwise.nil, nofun,
    nofun⟩
  running := rfl
  cur := rfl
  onList := nofun
  chosen := nofun

/-- **In every run of the system the list is sound.** -/
theorem Sound.run {x₀ : Tasks} {l₀ : List TaskId} {tr : List TaskEvent} (h₀ : Sound cfg x₀ l₀)
    (hr : Run (TaskStep cfg) x₀ tr x) : ∃ l, Sound cfg x l :=
  hr.inv (I := fun x => ∃ l, Sound cfg x l) ⟨l₀, h₀⟩ fun _ _ _ ⟨_, h⟩ hs =>
    let ⟨l', h', _⟩ := h.step hs
    ⟨l', h'⟩

/-! ## The run of `Machine`'s functions -/

/-- The list of `Machine`, and where the run of the context stands. -/
structure Listing where
  g : Globals
  pc : Option RunPc

/-- An operation, without interruption. -/
def perform (cfg : Config) (heap : Bool) : Nat → List Micro → Globals → Globals
  | 0, _, g => g
  | _, [], g => g
  | n + 1, m :: todo, g =>
    perform cfg heap n (microStep cfg heap m todo g).1 (microStep cfg heap m todo g).2

/-- A task leaves its turn. -/
def RunPc.turnLeft : RunPc → RunPc
  | .inTurn pass t => .clearCur pass t
  | pc => pc

/-- A task deletes itself, in at most four steps, and is left. -/
def Listing.deleteSelf (cfg : Config) (s : Listing) : Listing :=
  ⟨perform cfg true 4 (Op.taskDelete none).micros s.g, if s.g.cur = none then s.pc else s.pc.map .turnLeft⟩

/-- **One step of the functions of `Machine`.** -/
def Listing.step (cfg : Config) (s : Listing) : TaskEvent → Listing
  | .time dt => { s with g := advance dt s.g }
  | .irqWake => { s with g := Sched.wake s.g }
  | .create heap => { s with g := perform cfg heap 2 Op.taskCreate.micros s.g }
  | .delete (some t) => { s with g := perform cfg true 2 (Op.taskDelete (some t)).micros s.g }
  | .delete none => s.deleteSelf cfg
  | .run =>
    match (runEntryStep s.g .check).2 with
    | .goto _ => ⟨(runEntryStep s.g .set).1, some .deadline⟩
    | _ => s
  | .deinit => s
  | .yield => ⟨Sched.wake s.g, s.pc.map .turnLeft⟩
  | .park timed wakeAt =>
    ⟨(s.g.cur.map fun t => (parkStep s.g timed wakeAt (.deadline t)).1).getD s.g, s.pc.map .turnLeft⟩
  | .ret => s.deleteSelf cfg
  | .body => (s.pc.map fun pc => ⟨(bodyStep cfg s.g pc).1, (bodyStep cfg s.g pc).2.map Body.pc⟩).getD s

/-- The list stands where the table stands. -/
structure Listing.Follows (cfg : Config) (s : Listing) (x : Tasks) : Prop where
  abstracts : Abstracts x s.g
  pc : s.pc = x.pc
  sound : Sound cfg x s.g.taskList

variable {s : Listing}

theorem Abstracts.switchAway {g : Globals} (h : Abstracts x g) : Abstracts x.switchAway g := by
  unfold Tasks.switchAway
  split
  · exact { h with }
  · exact h

theorem switchAway_pc : x.switchAway.pc = x.pc.map .turnLeft := by
  unfold Tasks.switchAway
  split
  · next pass t hpc =>
    rw [hpc]
    rfl
  · next hne =>
    cases hpc : x.pc with
    | none => rfl
    | some pc =>
      cases pc with
      | inTurn pass t => exact absurd hpc (hne pass t)
      | _ => rfl

theorem taskCreate_pc {heap r : Bool} (h : x.taskCreate cfg heap = some (r, y)) : y.pc = x.pc := by
  unfold Tasks.taskCreate at h
  split at h
  · obtain ⟨-, rfl⟩ := Prod.mk.inj (Option.some.inj h)
    rfl
  · split_ifs at h
    · obtain ⟨tab, -, h⟩ := Option.map_eq_some_iff.mp h
      obtain ⟨-, rfl⟩ := Prod.mk.inj h
      rfl
    · obtain ⟨-, rfl⟩ := Prod.mk.inj (Option.some.inj h)
      rfl

theorem Listing.Follows.deleteSelf (h : s.Follows cfg x) :
    Abstracts (x.taskDelete none) (s.deleteSelf cfg).g ∧ (s.deleteSelf cfg).pc = (x.taskDelete none).pc := by
  have hcur : s.g.cur = x.cur := h.abstracts.cur
  unfold Tasks.taskDelete Listing.deleteSelf
  cases hc : x.cur with
  | none =>
    rw [hc] at hcur
    simp only [Op.micros, perform, microStep, hcur, if_true]
    exact ⟨h.abstracts, h.pc⟩
  | some t =>
    rw [hc] at hcur
    simp only [Op.micros, perform, microStep, hcur, reduceCtorEq, if_false]
    have hmark := (abstracts_markDead (t := t) h.abstracts).switchAway
    rw [hc] at hmark
    refine ⟨hmark, ?_⟩
    rw [switchAway_pc, h.pc]
    rfl

/-- **A step along the links is the step on the list.** -/
theorem Listing.Follows.step (h : s.Follows cfg x) (he : e ≠ .deinit) (hs : TaskStep cfg x e y) :
    (s.step cfg e).Follows cfg y := by
  suffices hnext : Abstracts y (s.step cfg e).g ∧ (s.step cfg e).pc = y.pc by
    obtain ⟨l, hl, -⟩ := h.sound.step hs
    obtain rfl := hl.listed.unique hnext.1.list
    exact ⟨hnext.1, hnext.2, hl⟩
  have ha := h.abstracts
  unfold TaskStep Tasks.step at hs
  cases e with
  | time dt =>
    obtain rfl := Option.some.inj hs
    exact ⟨{ ha with now := congrArg (· + dt) ha.now }, h.pc⟩
  | irqWake =>
    obtain rfl := Option.some.inj hs
    exact ⟨{ ha with woken := rfl }, h.pc⟩
  | create heap =>
    obtain ⟨-, hs⟩ := Option.ite_none_right_eq_some.mp hs
    obtain ⟨⟨r, z⟩, hz, rfl⟩ := Option.map_eq_some_iff.mp hs
    have hcreate := abstracts_taskCreate ha h.sound.listed hz
    cases r with
    | true =>
      obtain ⟨g', hg, habs⟩ := hcreate
      simp only [Listing.step, Op.micros, perform, microStep, hg]
      exact ⟨habs, h.pc.trans (taskCreate_pc hz).symm⟩
    | false =>
      obtain ⟨hg, rfl⟩ := hcreate
      simp only [Listing.step, Op.micros, perform, microStep, hg]
      exact ⟨ha, h.pc⟩
  | delete o =>
    obtain ⟨-, hs⟩ := Option.ite_none_right_eq_some.mp hs
    obtain rfl := Option.some.inj hs
    cases o with
    | none => exact h.deleteSelf
    | some t => exact ⟨abstracts_markDead ha, h.pc⟩
  | run =>
    obtain ⟨-, hs⟩ := Option.ite_none_right_eq_some.mp hs
    obtain rfl := Option.some.inj hs
    have hturned : (s.g.running = true ∨ s.g.cur ≠ none) = (x.running = true ∨ x.cur ≠ none) := by
      rw [ha.running, ha.cur]
    unfold Tasks.run
    simp only [Listing.step, runEntryStep, hturned]
    split_ifs
    · exact ⟨ha, h.pc⟩
    · exact ⟨{ ha with running := rfl }, rfl⟩
  | deinit => exact absurd rfl he
  | yield =>
    obtain ⟨-, hs⟩ := Option.ite_none_right_eq_some.mp hs
    obtain rfl := Option.some.inj hs
    have hwake : Abstracts x.wake (Sched.wake s.g) := { ha with woken := rfl }
    refine ⟨hwake.switchAway, ?_⟩
    rw [Tasks.yield, switchAway_pc, Listing.step, h.pc]
    rfl
  | park timed wakeAt =>
    obtain ⟨hturn, hs⟩ := Option.ite_none_right_eq_some.mp hs
    obtain rfl := Option.some.inj hs
    obtain ⟨pass, t, hpc⟩ := Tasks.inTurn_pc hturn
    have hcur : s.g.cur = some t := by
      rw [ha.cur, h.sound.cur, hpc]
      rfl
    have hearlier : reached wakeAt s.g.wakeAt = reached wakeAt x.wakeAt := by rw [ha.wakeAt]
    have hstep : s.step cfg (.park timed wakeAt) =
        ⟨(parkStep s.g timed wakeAt (.deadline t)).1, x.pc.map .turnLeft⟩ := by
      rw [Listing.step, hcur, h.pc]
      rfl
    unfold Tasks.park
    rw [hstep, switchAway_pc]
    simp only [parkStep, hearlier]
    split_ifs
    · exact ⟨Abstracts.switchAway { ha with wakeAt := rfl }, rfl⟩
    · exact ⟨ha.switchAway, rfl⟩
  | ret =>
    obtain ⟨-, hs⟩ := Option.ite_none_right_eq_some.mp hs
    obtain rfl := Option.some.inj hs
    exact h.deleteSelf
  | body =>
    obtain ⟨pc, hpc, hy⟩ := Option.bind_eq_some_iff.mp hs
    have hmem : ∀ t ∈ pc.taskOf, t ∈ s.g.taskList := fun t ht => h.sound.onList t (by rw [hpc]; exact ht)
    obtain ⟨habs, hnext⟩ := abstracts_body ha h.sound.listed hpc hmem hy
    rw [Listing.step, h.pc, hpc]
    exact ⟨habs, hnext.symm⟩

/-- The list at boot. -/
def Listing.boot (now : Nat) (mutex : Nat → Osal.Mutex) (sem : Nat → Osal.Sem) (semb : Nat → Bool)
    (queue : Nat → Osal.Queue) : Listing := ⟨bootGlobals now mutex sem semb queue, none⟩

/-- **Every run along the links, up to `mm_halow_sched_deinit`, is the run of `Machine`'s functions on
their list.** -/
theorem tasks_run_list {now : Nat} (mutex : Nat → Osal.Mutex) (sem : Nat → Osal.Sem)
    (semb : Nat → Bool) (queue : Nat → Osal.Queue) {tr : List TaskEvent}
    (hr : Run (TaskStep cfg) (Tasks.boot now) tr x) (hd : .deinit ∉ tr) :
    (tr.foldl (Listing.step cfg) (.boot now mutex sem semb queue)).Follows cfg x := by
  refine hr.inv_trace (I := fun tr x => .deinit ∉ tr →
    (tr.foldl (Listing.step cfg) (.boot now mutex sem semb queue)).Follows cfg x) ?_ ?_ hd
  · intro _
    refine ⟨⟨rfl, fun _ => rfl, fun _ => rfl, rfl, rfl, rfl, rfl, rfl, rfl⟩, rfl, Sound.boot now⟩
  · intro tr x e y _ hx hs hno
    rw [List.foldl_append]
    refine (hx fun hin => hno (List.mem_append_left _ hin)).step ?_ hs
    rintro rfl
    exact hno (List.mem_append_right _ List.mem_cons_self)

/-! ## Deaths and stacks -/

/-- The bookkeeping is right: which tasks have been marked dead, and which stacks were freed. -/
structure Booked (tab : Table) : Prop where
  alive : ∀ t, (tab.slots t).state = .ready → ∀ b ∈ (tab.slots t).stack, b ∉ tab.died
  dead : ∀ t, (tab.slots t).state = .dead → ∀ b ∈ (tab.slots t).stack, b ∈ tab.died
  died : ∀ b ∈ tab.died, b < tab.blocks
  nodup : tab.freed.Nodup
  /-- What was freed is the stack of a task that died, and of no slot any more. -/
  freed : ∀ o ∈ tab.freed, ∃ b ∈ tab.died, o = some b ∧ ∀ t, (tab.slots t).stack ≠ some b

theorem markDead_state (u : TaskId) :
    ((tab.markDead t).slots u).state = if u = t then .dead else (tab.slots u).state := by
  unfold Table.markDead
  by_cases hu : u = t
  · subst hu
    simp only [Function.update_self, if_true]
  · simp only [Function.update_of_ne hu, if_neg hu]

/-- A task is marked dead. -/
theorem Booked.markDead (h : Booked tab) (hl : Listed cfg tab l) : Booked (tab.markDead t) where
  alive u hu b hb hd := by
    rw [markDead_state] at hu
    rw [markDead_stack] at hb
    split_ifs at hu with hut
    rcases List.mem_append.mp hd with hd | hd
    · exact hut (hl.stack_inj hb (Option.mem_toList.mp hd))
    · exact h.alive u hu b hb hd
  dead u hu b hb := by
    rw [markDead_state] at hu
    rw [markDead_stack] at hb
    by_cases hut : u = t
    · subst hut
      exact List.mem_append_left _ (Option.mem_toList.mpr hb)
    · rw [if_neg hut] at hu
      exact List.mem_append_right _ (h.dead u hu b hb)
  died b hb := by
    rcases List.mem_append.mp hb with hb | hb
    · exact hl.fresh t b (Option.mem_toList.mp hb)
    · exact h.died b hb
  nodup := h.nodup
  freed o ho := by
    obtain ⟨b, hb, rfl, hnone⟩ := h.freed o ho
    exact ⟨b, List.mem_append_right _ hb, rfl, fun u => by rw [markDead_stack]; exact hnone u⟩

/-- A task is created, in a slot without a stack. -/
theorem Booked.create {tab' : Table} (h : Booked tab)
    (hslots : tab'.slots = Function.update tab.slots t ⟨some tab.blocks, .ready⟩)
    (hblocks : tab'.blocks = tab.blocks + 1) (hdied : tab'.died = tab.died)
    (hfreed : tab'.freed = tab.freed) : Booked tab' := by
  have hnew : tab'.slots t = ⟨some tab.blocks, .ready⟩ := by
    rw [hslots]
    exact Function.update_self ..
  have hold {u : TaskId} (hu : u ≠ t) : tab'.slots u = tab.slots u := by
    rw [hslots]
    exact Function.update_of_ne hu ..
  refine ⟨fun u hu b hb => ?_, fun u hu b hb => ?_, ?_, hfreed ▸ h.nodup, ?_⟩
  · rw [hdied]
    by_cases hut : u = t
    · rw [hut, hnew] at hb
      obtain rfl := Option.some.inj hb
      exact fun hd => Nat.lt_irrefl _ (h.died _ hd)
    · rw [hold hut] at hu hb
      exact h.alive u hu b hb
  · rw [hdied]
    by_cases hut : u = t
    · rw [hut, hnew] at hu
      exact nomatch hu
    · rw [hold hut] at hu hb
      exact h.dead u hu b hb
  · rw [hdied, hblocks]
    exact fun b hb => Nat.lt_succ_of_lt (h.died b hb)
  · rw [hfreed, hdied]
    intro o ho
    obtain ⟨b, hb, rfl, hnone⟩ := h.freed o ho
    refine ⟨b, hb, rfl, fun u hu => ?_⟩
    by_cases hut : u = t
    · rw [hut, hnew] at hu
      obtain rfl := Option.some.inj hu
      exact Nat.lt_irrefl _ (h.died _ hb)
    · rw [hold hut] at hu
      exact hnone u hu

/-- **Reaping frees no stack that was freed before**, and the stack of no slot that keeps it. -/
theorem Booked.reap {tab' : Table} (h : Booked tab) (hl : Listed cfg tab l) (hr : Reaped tab tab' l) :
    Booked tab' := by
  have hstate (u : TaskId) : (tab'.slots u).state = (tab.slots u).state := by
    rw [hr.slots]
    split_ifs <;> rfl
  have hstack {u : TaskId} {b : Nat} (hb : (tab'.slots u).stack = some b) :
      (tab.slots u).stack = some b ∧ ¬ (u ∈ l ∧ tab.dead u) := by
    rw [hr.slots] at hb
    split_ifs at hb with hd
    exact ⟨hb, hd⟩
  have hfreed : ∀ o ∈ (l.filter tab.dead).map fun t => (tab.slots t).stack,
      ∃ t ∈ l, tab.dead t = true ∧ o = (tab.slots t).stack := by
    intro o ho
    obtain ⟨t, ht, rfl⟩ := List.mem_map.mp ho
    obtain ⟨htl, htd⟩ := List.mem_filter.mp ht
    exact ⟨t, htl, htd, rfl⟩
  have hblock {t : TaskId} (ht : t ∈ l) : ∃ b, (tab.slots t).stack = some b :=
    Option.ne_none_iff_exists'.mp ((hl.mem t).mp ht)
  refine ⟨fun u hu b hb => ?_, fun u hu b hb => ?_, ?_, ?_, fun o ho => ?_⟩
  · rw [hr.died]
    exact h.alive u (hstate u ▸ hu) b (hstack hb).1
  · rw [hr.died]
    exact h.dead u (hstate u ▸ hu) b (hstack hb).1
  · rw [hr.died, hr.blocks]
    exact h.died
  · rw [hr.freed]
    refine List.nodup_append.mpr ⟨List.nodup_reverse.mpr ?_, h.nodup, ?_⟩
    · refine List.Nodup.map_on (fun t ht u hu htu => ?_) (hl.nodup.filter _)
      obtain ⟨b, hb⟩ := hblock (List.mem_of_mem_filter ht)
      exact hl.stack_inj hb (htu ▸ hb)
    · intro o ho o' ho' heq
      subst heq
      obtain ⟨t, _, _, rfl⟩ := hfreed o (List.mem_reverse.mp ho)
      obtain ⟨b, _, hb, hnone⟩ := h.freed _ ho'
      exact hnone t hb
  · rw [hr.freed] at ho
    rw [hr.died]
    rcases List.mem_append.mp ho with ho | ho
    · obtain ⟨t, htl, htd, rfl⟩ := hfreed o (List.mem_reverse.mp ho)
      obtain ⟨b, hb⟩ := hblock htl
      refine ⟨b, h.dead t (of_decide_eq_true htd) b hb, hb, fun u hu => ?_⟩
      obtain ⟨hub, hkept⟩ := hstack hu
      exact hkept (hl.stack_inj hb hub ▸ ⟨htl, htd⟩)
    · obtain ⟨b, hb, rfl, hnone⟩ := h.freed o ho
      exact ⟨b, hb, rfl, fun u hu => hnone u (hstack hu).1⟩

/-- What code makes of the table. -/
theorem Booked.move {tab' : Table} (h : Booked tab) (hl : Listed cfg tab l)
    (hm : TabMove cfg tab tab') : Booked tab' ∧ tab'.freed = tab.freed := by
  cases hm with
  | same => exact ⟨h, rfl⟩
  | marked => exact ⟨h.markDead hl, rfl⟩
  | created hfree hlink =>
    obtain ⟨tab₁, h₁, -, hslots, hblocks, hdied, hfreed⟩ := hl.taskCreate hfree
    obtain rfl := Option.some.inj (h₁.symm.trans hlink)
    exact ⟨h.create hslots hblocks hdied hfreed, hfreed⟩

/-- **One step**: the bookkeeping stays right, and only reaping frees. -/
theorem Booked.step (h : Booked x.tab) (hx : Sound cfg x l) (hs : TaskStep cfg x e y) :
    Booked y.tab ∧ (y.tab.freed ≠ x.tab.freed → x.pc = some .reap) := by
  cases hs.cases with
  | call htab =>
    obtain ⟨h', hfreed⟩ := h.move hx.listed htab
    exact ⟨h', fun hne => absurd hfreed hne⟩
  | began _ _ htab =>
    rw [htab]
    exact ⟨h, fun hne => absurd rfl hne⟩
  | left htab =>
    obtain ⟨h', hfreed⟩ := h.move hx.listed htab
    exact ⟨h', fun hne => absurd hfreed hne⟩
  | emptied _ hy =>
    subst hy
    refine ⟨⟨nofun, nofun, h.died, h.nodup, fun o ho => ?_⟩, fun hne => absurd rfl hne⟩
    obtain ⟨b, hb, rfl, -⟩ := h.freed o ho
    exact ⟨b, hb, rfl, nofun⟩
  | @body pc hpc hy =>
    by_cases hreap : pc = .reap
    · subst hreap
      exact ⟨h.reap hx.listed (hx.reap hpc hy).2.1, fun _ => hpc⟩
    · rw [body_tab hy hreap]
      exact ⟨h, fun hne => absurd rfl hne⟩

/-! ## The list is kept -/

/-- **What holds of the table and its list.** -/
structure ListKept (cfg : Config) (x : Tasks) : Prop where
  /-- Outside a run the links end without repeats, in the order of creation, and pass the slots that
  have a stack. -/
  list : x.pc = none → ∃ l, Linked x.tab.links .head l ∧ l.Nodup ∧ l.Pairwise x.tab.Before ∧
    ∀ t, t ∈ l ↔ (x.tab.slots t).stack ≠ none
  /-- A creation without a slot or without memory changes nothing, and every other one gives a task. -/
  create : ∀ heap, ∃ r y, x.taskCreate cfg heap = some (r, y) ∧
    (r = true ↔ heap = true ∧ ∃ t < cfg.maxTasks, (x.tab.slots t).stack = none) ∧ (r = false → y = x)
  /-- A task that is about to be resumed was never marked dead. -/
  resumed : ∀ pass t, x.pc = some (.resume pass t) → (x.tab.slots t).state = .ready ∧
    ∃ b, (x.tab.slots t).stack = some b ∧ b ∉ x.tab.died
  /-- No stack is freed twice, and each that was freed is one of a task that died. -/
  once : x.tab.freed.Nodup ∧ ∀ o ∈ x.tab.freed, ∃ b ∈ x.tab.died, o = some b
  /-- Reaping frees the stacks of the dead tasks on the list, each once and with no task in its turn,
  and leaves the others on the list. -/
  reap : x.pc = some .reap → x.cur = none ∧ ∃ l y, Linked x.tab.links .head l ∧
    TaskStep cfg x .body y ∧ Linked y.tab.links .head (l.filter fun t => !x.tab.dead t) ∧
    y.tab.freed = ((l.filter x.tab.dead).map fun t => (x.tab.slots t).stack).reverse ++ x.tab.freed
  /-- Nothing else frees a stack. -/
  only : ∀ e y, TaskStep cfg x e y → y.tab.freed ≠ x.tab.freed → x.pc = some .reap

/-- A slot is found where there is one. -/
theorem freeSlot_eq_none : tab.freeSlot cfg = none ↔ ∀ t < cfg.maxTasks, (tab.slots t).stack ≠ none := by
  simp [Table.freeSlot]

/-- Creating a task ends, and changes nothing where it fails. -/
theorem Listed.creates (h : Listed cfg x.tab l) (heap : Bool) :
    ∃ r y, x.taskCreate cfg heap = some (r, y) ∧
      (r = true ↔ heap = true ∧ ∃ t < cfg.maxTasks, (x.tab.slots t).stack = none) ∧ (r = false → y = x) := by
  unfold Tasks.taskCreate
  cases hfree : x.tab.freeSlot cfg with
  | none =>
    refine ⟨false, x, rfl, iff_of_false Bool.false_ne_true fun ⟨_, t, ht, hnone⟩ => ?_, fun _ => rfl⟩
    exact freeSlot_eq_none.mp hfree t ht hnone
  | some t =>
    obtain ⟨hsmall, hnone⟩ := freeSlot_spec hfree
    cases heap with
    | false => exact ⟨false, x, rfl, iff_of_false Bool.false_ne_true (nomatch ·.1), fun _ => rfl⟩
    | true =>
      obtain ⟨tab₁, hlink, -⟩ := h.taskCreate hfree
      refine ⟨true, Tasks.wake { x with tab := tab₁ }, by simp only [if_true, hlink, Option.map_some], ?_,
        nofun⟩
      exact iff_of_true rfl ⟨rfl, t, hsmall, hnone⟩

theorem Sound.kept (h : Sound cfg x l) (hb : Booked x.tab) : ListKept cfg x where
  list _ := ⟨l, h.listed.linked, h.listed.nodup, h.listed.order, h.listed.mem⟩
  create := h.listed.creates
  resumed pass t hpc := by
    have hready := h.chosen t (by rw [hpc]; rfl)
    obtain ⟨b, hstack⟩ : ∃ b, (x.tab.slots t).stack = some b :=
      Option.ne_none_iff_exists'.mp ((h.listed.mem t).mp (h.onList t (by rw [hpc]; rfl)))
    exact ⟨hready, b, hstack, hb.alive t hready b hstack⟩
  once := ⟨hb.nodup, fun o ho => let ⟨b, hbd, heq, _⟩ := hb.freed o ho; ⟨b, hbd, heq⟩⟩
  reap hpc := by
    refine ⟨by rw [h.cur, hpc]; rfl, l, ?_⟩
    obtain ⟨tab', htab, -⟩ := h.listed.reap
    have hy : x.body cfg .reap = some { x with tab := tab', pc := some .finish } := by
      simp only [Tasks.body, htab, Option.map_some]
    obtain ⟨hsound, hr, -⟩ := h.reap hpc hy
    have hstep : x.step cfg .body = some { x with tab := tab', pc := some .finish } := by
      simp only [Tasks.step, hpc, Option.bind_some, hy]
    exact ⟨_, h.listed.linked, hstep, hsound.listed.linked, hr.freed⟩
  only _ _ hs := (hb.step h hs).2

/-- **The task table and list are kept**: after boot, through any sequence of creations, failing ones
included, deletions of any task by any task or from outside, returns of tasks, runs and
`mm_halow_sched_deinit`, with interrupts that wake tasks at any point. -/
theorem task_list_kept (cfg : Config) (now : Nat) (tr : List TaskEvent) (x : Tasks)
    (hr : Run (TaskStep cfg) (Tasks.boot now) tr x) : ListKept cfg x := by
  have hinv : ∃ l, Sound cfg x l ∧ Booked x.tab := by
    refine hr.inv (I := fun x => ∃ l, Sound cfg x l ∧ Booked x.tab) ?_ ?_
    · exact ⟨[], Sound.boot now, nofun, nofun, nofun, List.nodup_nil, nofun⟩
    · rintro x e y ⟨l, hx, hb⟩ hs
      obtain ⟨l', hy, -⟩ := hx.step hs
      exact ⟨l', hy, (hb.step hx hs).1⟩
  obtain ⟨l, hx, hb⟩ := hinv
  exact hx.kept hb

/-- So many steps of the run. -/
def bodies (n : Nat) : List TaskEvent := List.replicate n .body

/-- Three tasks in one run: the first deletes the second and itself and creates the third, which returns.
One creation fails. -/
def threeDeaths : List TaskEvent :=
  List.flatten [[.create true, .create true, .create false, .run], bodies 7,
    [.delete (some 1), .delete (some 0), .create true, .yield], bodies 5, [.ret], bodies 13]

/-- The run is over and has freed the three stacks. -/
def allReaped (x : Tasks) : Bool :=
  x.pc = none && x.tab.links.head = none && x.tab.freed = [some 2, some 1, some 0]

/-- Each of the three stacks is freed once. -/
theorem task_list_kept_deaths : ∃ x, Run (TaskStep .defaults) (Tasks.boot 0) threeDeaths x ∧
    allReaped x = true ∧ ListKept .defaults x := by
  have hrun : ∃ x, Run (TaskStep .defaults) (Tasks.boot 0) threeDeaths x ∧ allReaped x = true :=
    Run.ofFold_any (fun _ _ _ h => h) (by decide +kernel)
  obtain ⟨x, hr, hx⟩ := hrun
  exact ⟨x, hr, hx, task_list_kept .defaults 0 threeDeaths x hr⟩

end MmHalow.Sched
