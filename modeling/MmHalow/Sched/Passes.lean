import Mathlib.Algebra.Order.BigOperators.Group.List
import MmHalow.Sched.TaskList

/-!
# The passes of a run (`mm_halow_sched_run`)

A run walks the list a few times. In a turn the task may create tasks, which the same walk still
reaches, and delete any, which the walk passes by from then on; slots of dead tasks stay in use until
the run reaps them, so the list has no more tasks than there are slots however many are created.

* `Walked`: what the record of the passes says wherever the run stands; `Walked.step` keeps it.
* `Tasks.left`: a bound on the steps that the run still takes.
* `passes_disciplined`: **in each pass every task that is ready when the walk reaches it has one turn,
  in creation order; the passes and turns are bounded; a further pass begins only where something was
  woken and there is time left; and the run ends with no dead task on the list and no current task.**
-/

namespace MmHalow.Sched

open MmHalow.Lib MmHalow.Lib.Clock

/-! ## A pass -/

/-- The tasks that the walk reached, first to last. -/
def Pass.reached (r : Pass) : List TaskId := r.visits.map Prod.fst

/-- Those of them that were ready then. -/
def Pass.ready (r : Pass) : List TaskId := (r.visits.filter Prod.snd).map Prod.fst

/-- A pass that is over gave one turn to each task that it found ready. -/
structure Pass.Done (cfg : Config) (r : Pass) : Prop where
  turns : r.turns = r.ready
  nodup : r.reached.Nodup
  length : r.reached.length ≤ cfg.maxTasks

variable {cfg : Config} {x y : Tasks} {e : TaskEvent} {l : List TaskId} {t : TaskId} {r : Pass}
  {ready : Bool}

@[simp] theorem Pass.reached_visit : (r.visit t ready).reached = r.reached ++ [t] := by
  simp [Pass.visit, Pass.reached]

@[simp] theorem Pass.turns_visit : (r.visit t ready).turns = r.turns := rfl

@[simp] theorem Pass.ready_visit : (r.visit t ready).ready = r.ready ++ if ready then [t] else [] := by
  cases ready <;> simp [Pass.visit, Pass.ready]

@[simp] theorem Pass.reached_turn : (r.turn t).reached = r.reached := rfl

@[simp] theorem Pass.ready_turn : (r.turn t).ready = r.ready := rfl

@[simp] theorem Pass.turns_turn : (r.turn t).turns = r.turns ++ [t] := rfl

theorem Pass.ready_sublist (r : Pass) : r.ready.Sublist r.reached := List.filter_sublist.map _

/-! ## Where the run stands -/

/-- No pass is under way. -/
structure Between (cfg : Config) (x : Tasks) : Prop where
  passes : x.record.length ≤ cfg.passes
  done : ∀ r ∈ x.record, r.Done cfg

/-- The pass `pass` is under way, and so far it is as `C` says. -/
def InPass (cfg : Config) (x : Tasks) (pass : Nat) (C : Pass → Prop) : Prop :=
  ∃ r rs, x.record = r :: rs ∧ rs.length = pass ∧ pass < cfg.passes ∧ (∀ r ∈ rs, r.Done cfg) ∧ C r

/-- **What the record says**, by where the run stands: in a pass the list is what the walk has reached
and a rest, of which the first is visited next, and turns are given to those found ready. -/
def Walked (cfg : Config) (x : Tasks) (l : List TaskId) : Prop :=
  match x.pc with
  | none => Between cfg x
  | some .deadline => x.record = []
  | some (.passTest pass) =>
    Between cfg x ∧ x.record.length = pass ∧ (x.record ≠ [] → x.woken = true)
  | some (.clearWoken pass) => InPass cfg x pass fun r => r = ⟨[], []⟩
  | some (.resetWakeAt pass) => InPass cfg x pass fun r => r = ⟨[], []⟩
  | some (.walk pass o) => InPass cfg x pass fun r =>
    r.turns = r.ready ∧ ∃ rest, l = r.reached ++ rest ∧ o = rest.head?
  | some (.setCur pass t) => InPass cfg x pass fun r =>
    r.turns ++ [t] = r.ready ∧ ∃ as rest, r.reached = as ++ [t] ∧ l = r.reached ++ rest
  | some (.resume pass t) => InPass cfg x pass fun r =>
    r.turns ++ [t] = r.ready ∧ ∃ as rest, r.reached = as ++ [t] ∧ l = r.reached ++ rest
  | some (.inTurn pass t) => InPass cfg x pass fun r =>
    r.turns = r.ready ∧ ∃ as rest, r.reached = as ++ [t] ∧ l = r.reached ++ rest
  | some (.clearCur pass t) => InPass cfg x pass fun r =>
    r.turns = r.ready ∧ ∃ as rest, r.reached = as ++ [t] ∧ l = r.reached ++ rest
  | some (.passEnd pass) => InPass cfg x pass fun r => r.turns = r.ready ∧ r.reached = l
  | some .reap => Between cfg x
  | some .finish => Between cfg x ∧ ∀ t ∈ l, (x.tab.slots t).state = .ready

theorem InPass.imp {pass : Nat} {C D : Pass → Prop} (h : InPass cfg x pass C) (hrec : y.record = x.record)
    (hCD : ∀ r, C r → D r) : InPass cfg y pass D := by
  obtain ⟨r, rs, hr, hlen, hlt, hdone, hC⟩ := h
  exact ⟨r, rs, hrec.trans hr, hlen, hlt, hdone, hCD r hC⟩

/-- The current pass goes on. -/
theorem InPass.inCurrent {pass : Nat} {C D : Pass → Prop} {f : Pass → Pass} (h : InPass cfg x pass C)
    (hrec : y.record = inCurrent f x.record) (hCD : ∀ r, C r → D (f r)) : InPass cfg y pass D := by
  obtain ⟨r, rs, hr, hlen, hlt, hdone, hC⟩ := h
  refine ⟨f r, rs, ?_, hlen, hlt, hdone, hCD r hC⟩
  rw [hrec, hr]
  rfl

theorem Between.congr (h : Between cfg x) (hrec : y.record = x.record) : Between cfg y :=
  ⟨hrec ▸ h.passes, hrec ▸ h.done⟩

/-- In a turn the list may grow. -/
theorem InPass.grow {pass : Nat} {l' : List TaskId} (hpre : l <+: l') (hrec : y.record = x.record)
    (h : InPass cfg x pass fun r => r.turns = r.ready ∧ ∃ as rest, r.reached = as ++ [t] ∧
      l = r.reached ++ rest) :
    InPass cfg y pass fun r => r.turns = r.ready ∧ ∃ as rest, r.reached = as ++ [t] ∧
      l' = r.reached ++ rest := by
  obtain ⟨new, rfl⟩ := hpre
  refine h.imp hrec fun r ⟨hturns, as, rest, has, hl⟩ => ⟨hturns, as, rest ++ new, has, ?_⟩
  rw [hl, List.append_assoc]

/-- The state of the slots, the record and whether something was woken are all that counts. -/
theorem Walked.congr (h : Walked cfg x l) (hpc : y.pc = x.pc) (hrec : y.record = x.record)
    (hw : x.woken = true → y.woken = true) (htab : y.tab = x.tab) : Walked cfg y l := by
  unfold Walked at h ⊢
  rw [hpc]
  cases hx : x.pc with
  | none =>
    rw [hx] at h
    exact Between.congr h hrec
  | some pc =>
    rw [hx] at h
    cases pc with
    | deadline => exact hrec.trans h
    | passTest pass => exact ⟨h.1.congr hrec, hrec ▸ h.2.1, fun hne => hw (h.2.2 (hrec ▸ hne))⟩
    | reap => exact Between.congr h hrec
    | finish => exact ⟨h.1.congr hrec, htab ▸ h.2⟩
    | _ => exact InPass.imp h hrec fun _ hr => hr

/-! ## Steps -/

/-- The pass that is over is done. -/
theorem InPass.between {pass : Nat} (hl : Listed cfg x.tab l) (hrec : y.record = x.record)
    (h : InPass cfg x pass fun r => r.turns = r.ready ∧ r.reached = l) :
    Between cfg y ∧ y.record.length = pass + 1 := by
  obtain ⟨r, rs, hr, hlen, hlt, hdone, hturns, hreached⟩ := h
  have hlength : y.record.length = pass + 1 := by rw [hrec, hr, List.length_cons, hlen]
  refine ⟨⟨hlength ▸ hlt, ?_⟩, hlength⟩
  rw [hrec, hr]
  refine List.forall_mem_cons.mpr ⟨⟨hturns, ?_, ?_⟩, hdone⟩
  · rw [hreached]
    exact hl.nodup
  · rw [hreached]
    exact hl.length_le

/-- After a turn the walk goes on with the task after it. -/
theorem InPass.next {pass : Nat} (hl : Listed cfg x.tab l) (hrec : y.record = x.record)
    (h : InPass cfg x pass fun r => r.turns = r.ready ∧ ∃ as rest, r.reached = as ++ [t] ∧
      l = r.reached ++ rest) :
    InPass cfg y pass fun r => r.turns = r.ready ∧
      ∃ rest, l = r.reached ++ rest ∧ x.tab.links.next t = rest.head? := by
  refine h.imp hrec fun r ⟨hturns, as, rest, has, hrest⟩ => ⟨hturns, rest, hrest, ?_⟩
  have hlinked := hl.linked
  rw [hrest, has, List.append_assoc] at hlinked
  exact hlinked.next_eq

/-- **A step of the run that does not reap.** -/
theorem Walked.body {pc : RunPc} (h : Walked cfg x l) (hx : Sound cfg x l) (hpc : x.pc = some pc)
    (hy : x.body cfg pc = some y) (hreap : pc ≠ .reap) : Walked cfg y l := by
  unfold Walked at h
  rw [hpc] at h
  cases pc with
  | deadline =>
    obtain rfl := Option.some.inj hy
    have hrec : x.record = [] := h
    refine ⟨⟨?_, ?_⟩, ?_, fun hne => absurd hrec hne⟩
    · exact hrec ▸ Nat.zero_le _
    · rw [hrec]
      exact fun r hr => absurd hr List.not_mem_nil
    · exact congrArg List.length hrec
  | passTest pass =>
    obtain ⟨hbetween, hlen, -⟩ := h
    simp only [Tasks.body] at hy
    split_ifs at hy with hgo
    · obtain rfl := Option.some.inj hy
      exact ⟨⟨[], []⟩, x.record, rfl, hlen, hgo.1, hbetween.done, rfl⟩
    · obtain rfl := Option.some.inj hy
      exact hbetween.congr rfl
  | clearWoken pass =>
    obtain rfl := Option.some.inj hy
    exact h.imp rfl fun _ hr => hr
  | resetWakeAt pass =>
    obtain rfl := Option.some.inj hy
    refine h.imp rfl fun r hr => ?_
    subst hr
    exact ⟨rfl, l, rfl, hx.listed.linked.read_eq⟩
  | walk pass o =>
    cases o with
    | none =>
      obtain rfl := Option.some.inj hy
      refine h.imp rfl fun r hr => ?_
      obtain ⟨hturns, rest, hl, hnone⟩ := hr
      refine ⟨hturns, ?_⟩
      rw [hl, List.head?_eq_none_iff.mp hnone.symm, List.append_nil]
    | some t =>
      have hvisit (ready : Bool) {r : Pass} {rest : List TaskId} (hl : l = r.reached ++ rest)
          (hhead : some t = rest.head?) : ∃ rest', l = (r.visit t ready).reached ++ rest' := by
        cases rest with
        | nil => cases hhead
        | cons u rest =>
          obtain rfl := Option.some.inj hhead
          exact ⟨rest, by rw [hl, Pass.reached_visit, List.append_assoc]; rfl⟩
      by_cases hstate : (x.tab.slots t).state = .ready
      · simp only [Tasks.body, hstate, decide_true, if_true] at hy
        obtain rfl := Option.some.inj hy
        refine h.inCurrent rfl fun r hr => ?_
        obtain ⟨hturns, rest, hl, hhead⟩ := hr
        obtain ⟨rest', hl'⟩ := hvisit true hl hhead
        refine ⟨?_, r.reached, rest', Pass.reached_visit, hl'⟩
        rw [Pass.turns_visit, Pass.ready_visit, hturns]
        rfl
      · simp only [Tasks.body, hstate, decide_false, Bool.false_eq_true, if_false] at hy
        obtain rfl := Option.some.inj hy
        refine h.inCurrent rfl fun r hr => ?_
        obtain ⟨hturns, rest, hl, hhead⟩ := hr
        obtain ⟨rest', hl'⟩ := hvisit false hl hhead
        refine ⟨?_, rest', hl', ?_⟩
        · rw [Pass.turns_visit, Pass.ready_visit, hturns]
          exact (List.append_nil _).symm
        · have hlinked := hx.listed.linked
          rw [hl', Pass.reached_visit, List.append_assoc] at hlinked
          exact hlinked.next_eq
  | setCur pass t =>
    obtain rfl := Option.some.inj hy
    exact h.imp rfl fun _ hr => hr
  | resume pass t =>
    obtain rfl := Option.some.inj hy
    exact h.inCurrent rfl fun r hr => hr
  | inTurn => cases hy
  | clearCur pass t =>
    obtain rfl := Option.some.inj hy
    exact InPass.next hx.listed rfl h
  | passEnd pass =>
    obtain rfl := Option.some.inj hy
    obtain ⟨hbetween, hlen⟩ := InPass.between (y := x) hx.listed rfl h
    by_cases hw : x.woken = true
    · simp only [Walked, hw, if_true]
      exact ⟨hbetween.congr rfl, hlen, fun _ => trivial⟩
    · simp only [Walked, hw, Bool.false_eq_true, if_false]
      exact hbetween.congr rfl
  | reap => exact absurd rfl hreap
  | finish =>
    obtain rfl := Option.some.inj hy
    exact h.1.congr rfl

/-- **The run reaps**: the tasks that stay on the list are ready. -/
theorem Walked.reap (h : Walked cfg x l) (hx : Sound cfg x l) (hpc : x.pc = some .reap)
    (hy : x.body cfg .reap = some y) : Walked cfg y (l.filter fun t => !x.tab.dead t) := by
  obtain ⟨-, hr, hpc'⟩ := hx.reap hpc hy
  have hrec : y.record = x.record := by
    obtain ⟨tab', -, rfl⟩ := Option.map_eq_some_iff.mp hy
    rfl
  unfold Walked at h ⊢
  rw [hpc] at h
  rw [hpc']
  refine ⟨Between.congr h hrec, fun t ht => ?_⟩
  have halive : x.tab.dead t = false := by simpa using (List.mem_filter.mp ht).2
  have hne : (x.tab.slots t).state ≠ .dead := of_decide_eq_false halive
  rw [hr.slots, if_neg fun hd => by rw [halive] at hd; exact Bool.false_ne_true hd.2]
  cases hs : (x.tab.slots t).state with
  | ready => rfl
  | dead => exact absurd hs hne

/-- **One step.** -/
theorem Walked.step (h : Walked cfg x l) (hx : Sound cfg x l) (hs : TaskStep cfg x e y) :
    ∃ l', Sound cfg y l' ∧ Walked cfg y l' := by
  obtain ⟨l', hy, hgrow⟩ := hx.step hs
  cases hs.cases with
  | call _ hcall hpc _ _ hrec hw =>
    refine ⟨l', hy, ?_⟩
    rcases hcall with hcall | htab
    · rcases Tasks.mayCall_pc hcall with hnone | ⟨pass, t, hturn⟩
      · unfold Walked at h ⊢
        rw [hpc, hnone]
        rw [hnone] at h
        exact Between.congr h hrec
      · have hpre : l <+: l' := hgrow (by rw [hturn]; exact nofun) (by rw [hturn]; exact nofun)
        unfold Walked at h ⊢
        rw [hpc, hturn]
        rw [hturn] at h
        exact InPass.grow hpre hrec h
    · have hl : l' = l := by
        have hlinked := hy.listed.linked
        rw [htab] at hlinked
        exact hx.listed.unique hlinked
      rw [hl]
      exact h.congr hpc hrec hw htab
  | began _ _ _ hpc _ _ hrec =>
    refine ⟨l', hy, ?_⟩
    unfold Walked
    rw [hpc]
    exact hrec
  | @left pass t _ hpc hpc' _ _ hrec =>
    refine ⟨l', hy, ?_⟩
    have hpre : l <+: l' := hgrow (by rw [hpc]; exact nofun) (by rw [hpc]; exact nofun)
    unfold Walked at h ⊢
    rw [hpc] at h
    rw [hpc']
    exact InPass.grow hpre hrec h
  | emptied hpc hdeinit =>
    refine ⟨l', hy, ?_⟩
    subst hdeinit
    unfold Walked at h ⊢
    rw [hpc] at h
    rw [show x.deinit.pc = none from hpc]
    exact Between.congr h rfl
  | @body pc hpc hbody =>
    by_cases hreap : pc = .reap
    · subst hreap
      exact ⟨_, (hx.reap hpc hbody).1, h.reap hx hpc hbody⟩
    · exact ⟨l, hx.body hpc hbody hreap, h.body hx hpc hbody hreap⟩

/-! ## How long a run takes -/

/-- The steps of one pass over a full table. -/
def passSteps (cfg : Config) : Nat := 5 * cfg.maxTasks + 5

/-- A bound on the steps that the run takes after the pass, with the reap. -/
def afterPass (cfg : Config) (pass : Nat) : Nat := (cfg.passes - (pass + 1)) * passSteps cfg + 3

/-- A bound on the steps that the run still takes, where the current pass has reached so many tasks. -/
def RunPc.left (cfg : Config) (reached : Nat) : RunPc → Nat
  | .deadline => cfg.passes * passSteps cfg + 4
  | .passTest pass => (cfg.passes - pass) * passSteps cfg + 3
  | .clearWoken pass => afterPass cfg pass + 5 * cfg.maxTasks + 4
  | .resetWakeAt pass => afterPass cfg pass + 5 * cfg.maxTasks + 3
  | .walk pass _ => afterPass cfg pass + 5 * (cfg.maxTasks - reached) + 2
  | .setCur pass _ => afterPass cfg pass + 5 * (cfg.maxTasks - reached) + 6
  | .resume pass _ => afterPass cfg pass + 5 * (cfg.maxTasks - reached) + 5
  | .inTurn pass _ => afterPass cfg pass + 5 * (cfg.maxTasks - reached) + 4
  | .clearCur pass _ => afterPass cfg pass + 5 * (cfg.maxTasks - reached) + 3
  | .passEnd pass => afterPass cfg pass + 1
  | .reap => 2
  | .finish => 1

/-- The tasks that the current pass has reached. -/
def Tasks.reachedNow (x : Tasks) : Nat := (x.record.head?.map fun r => r.reached.length).getD 0

/-- The steps that the run still takes, at most. -/
def Tasks.left (cfg : Config) (x : Tasks) : Nat := (x.pc.map (RunPc.left cfg x.reachedNow)).getD 0

theorem Tasks.left_of_pc {pc : RunPc} (h : x.pc = some pc) : x.left cfg = pc.left cfg x.reachedNow := by
  rw [Tasks.left, h]
  rfl

/-- A pass that has reached a task and a rest has not reached so many tasks as there are slots. -/
theorem InPass.reachedNow_lt {pass : Nat} (hl : Listed cfg x.tab l)
    (h : InPass cfg x pass fun r =>
      r.turns = r.ready ∧ ∃ rest, l = r.reached ++ rest ∧ some t = rest.head?) :
    x.reachedNow < cfg.maxTasks := by
  obtain ⟨r, rs, hr, -, -, -, -, rest, hrest, hhead⟩ := h
  have hlen := hl.length_le
  rw [hrest, List.length_append] at hlen
  have hpos : 0 < rest.length := by
    cases rest with
    | nil => exact nomatch hhead
    | cons u rest => exact Nat.succ_pos _
  have hnow : x.reachedNow = r.reached.length := by
    rw [Tasks.reachedNow, hr]
    rfl
  omega

/-- One task more. -/
theorem reachedNow_visit {rs : List Pass} (hr : x.record = r :: rs)
    (hrec : y.record = inCurrent (.visit t ready) x.record) : y.reachedNow = x.reachedNow + 1 := by
  rw [Tasks.reachedNow, Tasks.reachedNow, hrec, hr]
  simp [inCurrent]

/-- One pass less. -/
theorem passTest_left {pass : Nat} (h : pass < cfg.passes) :
    (cfg.passes - pass) * passSteps cfg + 3 = afterPass cfg pass + 5 * cfg.maxTasks + 5 := by
  obtain ⟨k, hk⟩ : ∃ k, cfg.passes - pass = k + 1 := ⟨cfg.passes - pass - 1, by omega⟩
  have hk' : cfg.passes - (pass + 1) = k := by omega
  rw [afterPass, hk, hk', Nat.succ_mul, passSteps]
  omega

/-- **Each step of the run brings it closer to its end.** -/
theorem Walked.left_lt {pc : RunPc} (h : Walked cfg x l) (hx : Sound cfg x l) (hpc : x.pc = some pc)
    (hy : x.body cfg pc = some y) : y.left cfg < x.left cfg := by
  rw [Tasks.left_of_pc hpc]
  unfold Walked at h
  rw [hpc] at h
  cases pc with
  | deadline =>
    obtain rfl := Option.some.inj hy
    rw [Tasks.left_of_pc rfl]
    exact Nat.lt_succ_self _
  | passTest pass =>
    simp only [Tasks.body] at hy
    split_ifs at hy with hgo
    · obtain rfl := Option.some.inj hy
      rw [Tasks.left_of_pc rfl]
      simp only [RunPc.left, passTest_left hgo.1]
      omega
    · obtain rfl := Option.some.inj hy
      rw [Tasks.left_of_pc rfl]
      simp only [RunPc.left]
      omega
  | walk pass o =>
    cases o with
    | none =>
      obtain rfl := Option.some.inj hy
      rw [Tasks.left_of_pc rfl]
      simp only [RunPc.left]
      omega
    | some t =>
      have hlt := InPass.reachedNow_lt hx.listed h
      obtain ⟨r, rs, hr, -⟩ := h
      by_cases hstate : (x.tab.slots t).state = .ready
      · simp only [Tasks.body, hstate, decide_true, if_true] at hy
        obtain rfl := Option.some.inj hy
        rw [Tasks.left_of_pc rfl, reachedNow_visit hr rfl]
        simp only [RunPc.left]
        omega
      · simp only [Tasks.body, hstate, decide_false, Bool.false_eq_true, if_false] at hy
        obtain rfl := Option.some.inj hy
        rw [Tasks.left_of_pc rfl, reachedNow_visit hr rfl]
        simp only [RunPc.left]
        omega
  | resume pass t =>
    obtain rfl := Option.some.inj hy
    obtain ⟨r, rs, hr, -⟩ := h
    rw [Tasks.left_of_pc rfl]
    simp only [RunPc.left, Tasks.reachedNow, hr, inCurrent, List.head?_cons, Option.map_some,
      Pass.reached_turn]
    omega
  | inTurn => cases hy
  | clearWoken pass =>
    obtain rfl := Option.some.inj hy
    rw [Tasks.left_of_pc rfl]
    simp only [RunPc.left]
    omega
  | resetWakeAt pass =>
    obtain rfl := Option.some.inj hy
    rw [Tasks.left_of_pc rfl]
    simp only [RunPc.left]
    omega
  | setCur pass t =>
    obtain rfl := Option.some.inj hy
    rw [Tasks.left_of_pc rfl]
    exact Nat.lt_succ_self _
  | clearCur pass t =>
    obtain rfl := Option.some.inj hy
    rw [Tasks.left_of_pc rfl]
    exact Nat.lt_succ_self _
  | passEnd pass =>
    obtain rfl := Option.some.inj hy
    rw [Tasks.left_of_pc rfl]
    by_cases hw : x.woken = true
    · simp only [hw, if_true, RunPc.left, afterPass]
      omega
    · simp only [hw, Bool.false_eq_true, if_false, RunPc.left, afterPass]
      omega
  | reap =>
    obtain ⟨tab', -, rfl⟩ := Option.map_eq_some_iff.mp hy
    rw [Tasks.left_of_pc rfl]
    exact Nat.lt_succ_self _
  | finish =>
    obtain rfl := Option.some.inj hy
    exact Nat.zero_lt_one

/-- Nothing else takes it further away. -/
theorem Walked.left_le (h : Walked cfg x l) (hx : Sound cfg x l) (hpc : x.pc ≠ none)
    (hs : TaskStep cfg x e y) : y.left cfg ≤ x.left cfg := by
  cases hs.cases with
  | call _ _ hpc' _ _ hrec =>
    rw [Tasks.left, Tasks.left, Tasks.reachedNow, Tasks.reachedNow, hpc', hrec]
  | began hrun =>
    rw [hx.running] at hrun
    exact absurd (Option.not_isSome_iff_eq_none.mp (by simp [hrun])) hpc
  | left _ hturn hpc' _ _ hrec =>
    rw [Tasks.left_of_pc hturn, Tasks.left_of_pc hpc', Tasks.reachedNow, Tasks.reachedNow, hrec]
    exact Nat.le_succ _
  | emptied hnone => exact absurd hnone hpc
  | body hpc' hy => exact Nat.le_of_lt (h.left_lt hx hpc' hy)

/-- Outside a turn the run goes on. -/
theorem Sound.goesOn {pc : RunPc} (hx : Sound cfg x l) (hpc : x.pc = some pc) (hturn : x.inTurn = false) :
    ∃ y, TaskStep cfg x .body y := by
  have hstep : x.step cfg .body = x.body cfg pc := by
    simp only [Tasks.step, hpc, Option.bind_some]
  unfold TaskStep
  rw [hstep]
  cases pc with
  | inTurn => simp [Tasks.inTurn, hpc] at hturn
  | walk pass o => cases o <;> exact ⟨_, rfl⟩
  | reap =>
    obtain ⟨tab', htab, -⟩ := hx.listed.reap
    exact ⟨_, congrArg (Option.map _) htab⟩
  | _ => exact ⟨_, rfl⟩

/-! ## The discipline -/

/-- A pass gives turns in the order of the walk, to tasks found ready, and the walk reaches each task
once. -/
structure Pass.Orderly (cfg : Config) (r : Pass) : Prop where
  turns : r.turns <+: r.ready
  nodup : r.reached.Nodup
  length : r.reached.length ≤ cfg.maxTasks

theorem Pass.Done.orderly (h : r.Done cfg) : r.Orderly cfg :=
  ⟨h.turns ▸ List.prefix_refl _, h.nodup, h.length⟩

theorem Pass.Orderly.turns_le (h : r.Orderly cfg) : r.turns.length ≤ cfg.maxTasks :=
  (h.turns.length_le.trans r.ready_sublist.length_le).trans h.length

/-- The record of a run: so many passes at most, and each is orderly. -/
def Recorded (cfg : Config) (x : Tasks) : Prop :=
  x.record.length ≤ cfg.passes ∧ ∀ r ∈ x.record, r.Orderly cfg

theorem Between.recorded (h : Between cfg x) : Recorded cfg x :=
  ⟨h.passes, fun r hr => (h.done r hr).orderly⟩

theorem InPass.recorded {pass : Nat} {C : Pass → Prop} (hl : Listed cfg x.tab l)
    (h : InPass cfg x pass C) (hC : ∀ r, C r → r.turns <+: r.ready ∧ r.reached <+: l) :
    Recorded cfg x := by
  obtain ⟨r, rs, hr, hlen, hlt, hdone, hc⟩ := h
  obtain ⟨hturns, hreached⟩ := hC r hc
  rw [Recorded, hr]
  refine ⟨?_, List.forall_mem_cons.mpr ⟨⟨hturns, ?_, ?_⟩, fun r hr => (hdone r hr).orderly⟩⟩
  · rw [List.length_cons, hlen]
    exact hlt
  · exact hl.nodup.sublist hreached.sublist
  · exact hreached.length_le.trans hl.length_le

theorem Walked.recorded (h : Walked cfg x l) (hx : Sound cfg x l) : Recorded cfg x := by
  have hfresh : ∀ r : Pass, r = ⟨[], []⟩ → r.turns <+: r.ready ∧ r.reached <+: l := by
    rintro r rfl
    exact ⟨List.prefix_refl _, List.nil_prefix⟩
  have hchosen {t : TaskId} : ∀ r : Pass, (r.turns ++ [t] = r.ready ∧
      ∃ as rest, r.reached = as ++ [t] ∧ l = r.reached ++ rest) →
      r.turns <+: r.ready ∧ r.reached <+: l :=
    fun r ⟨hturns, _, rest, _, hl⟩ => ⟨⟨[t], hturns⟩, ⟨rest, hl.symm⟩⟩
  have hturn {t : TaskId} : ∀ r : Pass, (r.turns = r.ready ∧
      ∃ as rest, r.reached = as ++ [t] ∧ l = r.reached ++ rest) →
      r.turns <+: r.ready ∧ r.reached <+: l :=
    fun r ⟨hturns, _, rest, _, hl⟩ => ⟨hturns ▸ List.prefix_refl _, ⟨rest, hl.symm⟩⟩
  unfold Walked at h
  cases hpc : x.pc with
  | none =>
    rw [hpc] at h
    exact Between.recorded h
  | some pc =>
    rw [hpc] at h
    cases pc with
    | deadline =>
      rw [Recorded, show x.record = [] from h]
      exact ⟨Nat.zero_le _, nofun⟩
    | passTest pass => exact h.1.recorded
    | clearWoken pass => exact h.recorded hx.listed hfresh
    | resetWakeAt pass => exact h.recorded hx.listed hfresh
    | walk pass o =>
      exact h.recorded hx.listed fun r ⟨hturns, rest, hl, _⟩ =>
        ⟨hturns ▸ List.prefix_refl _, ⟨rest, hl.symm⟩⟩
    | setCur pass t => exact h.recorded hx.listed hchosen
    | resume pass t => exact h.recorded hx.listed hchosen
    | inTurn pass t => exact h.recorded hx.listed hturn
    | clearCur pass t => exact h.recorded hx.listed hturn
    | passEnd pass =>
      exact h.recorded hx.listed fun r ⟨hturns, hl⟩ =>
        ⟨hturns ▸ List.prefix_refl _, hl ▸ List.prefix_refl _⟩
    | reap => exact Between.recorded h
    | finish => exact h.1.recorded

/-- **What holds of a run of the scheduler**, wherever it stands. -/
structure Disciplined (cfg : Config) (x : Tasks) : Prop where
  /-- There are so many passes at most. -/
  passes : x.record.length ≤ cfg.passes
  /-- There are so many turns at most. -/
  turns : (x.record.map fun r => r.turns.length).sum ≤ cfg.passes * cfg.maxTasks
  /-- In every pass turns are given in the order of the walk, and only to tasks that it found ready,
  each of which it reached once. -/
  orderly : ∀ r ∈ x.record, r.turns <+: r.ready ∧ r.reached.Nodup
  /-- Where a pass ends, its walk has reached every task that is on the list then, in the order of
  creation, and each that was ready had a turn. -/
  whole : ∀ pass, x.pc = some (.passEnd pass) → ∃ r rs, x.record = r :: rs ∧ rs.length = pass ∧
    Linked x.tab.links .head r.reached ∧ r.reached.Pairwise x.tab.Before ∧ r.turns = r.ready
  /-- A pass begins only with time left, and a further one only where something was woken. -/
  further : ∀ y, TaskStep cfg x .body y → y.record.length ≠ x.record.length →
    x.passExpired = false ∧ (x.record ≠ [] → x.woken = true)
  /-- A nested run does nothing. -/
  nested : x.pc ≠ none → ∀ y, TaskStep cfg x .run y → y = x
  /-- Where the run ends, there is no dead task on the list, no current task, and in every pass each
  task found ready had a turn. -/
  ends : ∀ y, TaskStep cfg x .body y → y.pc = none → y.cur = none ∧ (∀ r ∈ y.record, r.turns = r.ready) ∧
    ∃ l, Linked y.tab.links .head l ∧ ∀ t ∈ l, (y.tab.slots t).state = .ready
  /-- Outside a turn the run goes on. -/
  goesOn : x.pc ≠ none → x.inTurn = false → ∃ y, TaskStep cfg x .body y
  /-- It goes on for so many steps at most. -/
  falls : x.pc ≠ none → ∀ e y, TaskStep cfg x e y →
    y.left cfg ≤ x.left cfg ∧ (e = .body → y.left cfg < x.left cfg)

/-- The step of the run. -/
theorem TaskStep.body_eq (h : TaskStep cfg x .body y) : ∃ pc, x.pc = some pc ∧ x.body cfg pc = some y :=
  Option.bind_eq_some_iff.mp h

/-- Only the test of the pass loop begins a pass. -/
theorem Walked.begins {pc : RunPc} (h : Walked cfg x l) (hpc : x.pc = some pc)
    (hy : x.body cfg pc = some y) (hrec : y.record.length ≠ x.record.length) :
    x.passExpired = false ∧ (x.record ≠ [] → x.woken = true) := by
  have hcur {f : Pass → Pass} : (inCurrent f x.record).length = x.record.length := by
    cases x.record <;> rfl
  cases pc with
  | passTest pass =>
    unfold Walked at h
    rw [hpc] at h
    simp only [Tasks.body] at hy
    split_ifs at hy with hgo
    · exact ⟨hgo.2, h.2.2⟩
    · obtain rfl := Option.some.inj hy
      exact absurd rfl hrec
  | walk pass o =>
    cases o with
    | none =>
      obtain rfl := Option.some.inj hy
      exact absurd rfl hrec
    | some t =>
      obtain rfl := Option.some.inj hy
      exact absurd hcur hrec
  | resume pass t =>
    obtain rfl := Option.some.inj hy
    exact absurd hcur hrec
  | inTurn => cases hy
  | reap =>
    obtain ⟨tab', -, rfl⟩ := Option.map_eq_some_iff.mp hy
    exact absurd rfl hrec
  | _ =>
    obtain rfl := Option.some.inj hy
    exact absurd rfl hrec

/-- Only the end of the run ends it. -/
theorem body_ends {pc : RunPc} (hy : x.body cfg pc = some y) (hend : y.pc = none) :
    pc = .finish ∧ y = { x with running := false, pc := none } := by
  cases pc with
  | finish => exact ⟨rfl, (Option.some.inj hy).symm⟩
  | passTest pass =>
    simp only [Tasks.body] at hy
    split_ifs at hy <;> (obtain rfl := Option.some.inj hy; cases hend)
  | walk pass o => cases o <;> (obtain rfl := Option.some.inj hy; cases hend)
  | inTurn => cases hy
  | reap =>
    obtain ⟨tab', -, rfl⟩ := Option.map_eq_some_iff.mp hy
    cases hend
  | _ =>
    obtain rfl := Option.some.inj hy
    cases hend

theorem Walked.disciplined (h : Walked cfg x l) (hx : Sound cfg x l) : Disciplined cfg x where
  passes := (h.recorded hx).1
  turns := by
    obtain ⟨hlen, horderly⟩ := h.recorded hx
    have hsum := List.sum_le_card_nsmul (x.record.map fun r => r.turns.length) cfg.maxTasks fun n hn => by
      obtain ⟨r, hr, rfl⟩ := List.mem_map.mp hn
      exact (horderly r hr).turns_le
    rw [List.length_map, Nat.nsmul_eq_mul] at hsum
    exact hsum.trans (Nat.mul_le_mul_right _ hlen)
  orderly r hr := ⟨((h.recorded hx).2 r hr).turns, ((h.recorded hx).2 r hr).nodup⟩
  whole pass hpc := by
    unfold Walked at h
    rw [hpc] at h
    obtain ⟨r, rs, hr, hlen, -, -, hturns, hreached⟩ := h
    refine ⟨r, rs, hr, hlen, ?_, ?_, hturns⟩
    · exact hreached ▸ hx.listed.linked
    · exact hreached ▸ hx.listed.order
  further y hs hrec := by
    obtain ⟨pc, hpc, hy⟩ := hs.body_eq
    exact h.begins hpc hy hrec
  nested hpc y hs := by
    obtain ⟨_, hy⟩ := Option.ite_none_right_eq_some.mp hs
    obtain rfl := Option.some.inj hy
    have hrun : x.running = true := by
      rw [hx.running, Option.isSome_iff_ne_none]
      exact hpc
    exact if_pos (.inl hrun)
  ends y hs hend := by
    obtain ⟨pc, hpc, hy⟩ := hs.body_eq
    obtain ⟨rfl, rfl⟩ := body_ends hy hend
    unfold Walked at h
    rw [hpc] at h
    refine ⟨?_, fun r hr => (h.1.done r hr).turns, l, hx.listed.linked, h.2⟩
    exact hx.cur.trans (by rw [hpc]; rfl)
  goesOn hpc hturn := by
    obtain ⟨pc, hpc'⟩ := Option.ne_none_iff_exists'.mp hpc
    exact hx.goesOn hpc' hturn
  falls hpc e y hs := by
    refine ⟨h.left_le hx hpc hs, ?_⟩
    rintro rfl
    obtain ⟨pc, hpc', hy⟩ := hs.body_eq
    exact h.left_lt hx hpc' hy

/-- **Pass discipline**: from any task list outside a run, whatever the tasks do in their turns and
code does between runs, wherever a run of the scheduler stands. -/
theorem passes_disciplined (cfg : Config) (x₀ : Tasks) (l₀ : List TaskId) (tr : List TaskEvent)
    (x : Tasks) (hlisted : Listed cfg x₀.tab l₀) (hpc : x₀.pc = none) (hrun : x₀.running = false)
    (hcur : x₀.cur = none) (hrec : x₀.record = []) (hr : Run (TaskStep cfg) x₀ tr x) :
    Disciplined cfg x := by
  have hx₀ : Sound cfg x₀ l₀ := by
    refine ⟨hlisted, by rw [hrun, hpc]; rfl, by rw [hcur, hpc]; rfl, ?_, ?_⟩
    · rw [hpc]
      exact nofun
    · rw [hpc]
      exact nofun
  have hw₀ : Walked cfg x₀ l₀ := by
    unfold Walked
    rw [hpc]
    exact ⟨hrec ▸ Nat.zero_le _, hrec ▸ nofun⟩
  have hinv : ∃ l, Sound cfg x l ∧ Walked cfg x l := by
    refine hr.inv (I := fun x => ∃ l, Sound cfg x l ∧ Walked cfg x l) ⟨l₀, hx₀, hw₀⟩ ?_
    rintro x e y ⟨l, hx, hw⟩ hs
    exact hw.step hx hs
  obtain ⟨l, hx, hw⟩ := hinv
  exact hw.disciplined hx

/-- Two tasks on the list. -/
def twoTasks : Tasks :=
  { Tasks.boot 0 with
    tab := ⟨fun t => ⟨if t < 2 then some t else none, .ready⟩,
      ⟨some 0, fun t => if t = 0 then some 1 else none⟩, 2, [], []⟩ }

theorem twoTasks_listed : Listed .defaults twoTasks.tab [0, 1] where
  linked := ⟨rfl, rfl, rfl⟩
  mem t := by
    have hmem : t ∈ [0, 1] ↔ t < 2 := List.mem_range (n := 2)
    rw [hmem]
    simp only [twoTasks]
    by_cases ht : t < 2
    · rw [if_pos ht]
      exact iff_of_true ht (Option.some_ne_none t)
    · rw [if_neg ht]
      exact iff_of_false ht fun hne => hne rfl
  order := by simp [twoTasks, Table.Before]
  small := by decide
  fresh t b hb := by
    simp only [twoTasks] at hb
    by_cases ht : t < 2
    · rw [if_pos ht] at hb
      obtain rfl := Option.some.inj hb
      exact ht
    · rw [if_neg ht] at hb
      exact nomatch hb

/-- The first task calls for a run and creates a third, the second returns, the third parks; in the
second pass the first overruns the time. -/
def grownAndLate : List TaskEvent :=
  List.flatten [[.run], bodies 7, [.run, .create true, .yield], bodies 4, [.ret], bodies 4,
    [.park false 0], bodies 9, [.time 25, .yield], bodies 5, [.park false 0], bodies 6]

/-- The run has made two passes, of three turns and two. -/
def twoPasses (x : Tasks) : Bool :=
  x.pc = none && x.record =
    [⟨[(0, true), (1, false), (2, true)], [0, 2]⟩, ⟨[(0, true), (1, true), (2, true)], [0, 1, 2]⟩]

/-- A list that grows and shrinks under the walk, and a run that ends for lack of time. -/
theorem passes_disciplined_late : ∃ x, Run (TaskStep .defaults) twoTasks grownAndLate x ∧
    twoPasses x = true ∧ Disciplined .defaults x := by
  have hrun : ∃ x, Run (TaskStep .defaults) twoTasks grownAndLate x ∧ twoPasses x = true :=
    Run.ofFold_any (fun _ _ _ h => h) (by decide +kernel)
  obtain ⟨x, hr, hx⟩ := hrun
  exact ⟨x, hr, hx, passes_disciplined .defaults twoTasks [0, 1] grownAndLate x twoTasks_listed rfl rfl
    rfl rfl hr⟩

end MmHalow.Sched
