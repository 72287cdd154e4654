import MmHalow.Sched.Current

/-!
# The service claim (`mm_halow_sched_claim`, `mm_halow_sched_release`)

A frame holds a claim from the critical section of `mm_halow_sched_claim` that grants it to the one
of `mm_halow_sched_release` that gives it back (`Frame.holds`). The claims of a context are those
of its frames and of the task it runs. A step changes owner and depth with the claims of the
context that makes it (`ClaimEffect`), which keeps `Claims`.

Claims nest as long as no task leaves its turn with a claim open (`Nested`): its context would
release them in another order, or the other context would.

* `Claims.step`: every step of the machine keeps the account of the claims.
* `claim_exclusive`: **in a run with nested claims, fewer than 256 at once, only one context holds
  claims; a claim is refused exactly where the other context holds one; the owner is `NONE`
  exactly where no claim is open; an inner release keeps the outer claim; and the poll and yields
  are never inside `mm_halow_sched_run` in both contexts.**
-/

namespace MmHalow.Sched

open MmHalow.Lib MmHalow.Lib.Clock MmHalow.Osal

/-! ## Open claims -/

/-- The claims a frame holds. -/
def Frame.holds : Frame → Nat
  | .poll .initted => 0
  | .poll .current => 0
  | .poll .claim => 0
  | .poll .refused => 0
  | .poll .rearm => 0
  | .poll _ => 1
  | .yield .run => 1
  | .yield .inRun => 1
  | .yield .release => 1
  | .region .inside => 1
  | .region .release => 1
  | _ => 0

/-- The claims open on a stack. -/
def stackHolds (l : List Frame) : Nat := (l.map Frame.holds).sum

/-- The claims a context has open. -/
def Context.openClaims (c : Context) : Nat :=
  stackHolds c.frames + stackHolds ((c.body.map Body.frames).getD [])

/-- The claims that PendSV has open, where it is active. -/
def openInPendsv (s : Machine) : Nat := (s.pendsv.map Context.openClaims).getD 0

/-- The claims that `x` has open. -/
def openClaims (x : Ctx) (s : Machine) : Nat :=
  match x with
  | .thread => s.thread.openClaims
  | .irq => openInPendsv s

/-- A frame whose next step leaves its turn. -/
def Frame.leaving : Frame → Bool
  | .yield (.switch _) => true
  | .park _ _ (.switch _) => true
  | .op (.retire _ :: _) => true
  | _ => false

/-- A task whose next step leaves its turn has no claim open. -/
def Context.Nested (c : Context) : Prop :=
  match c.body with
  | some ⟨_, f :: rest⟩ => f.leaving = true → stackHolds (f :: rest) = 0
  | _ => True

instance : DecidablePred Context.Nested
  | ⟨_, some ⟨_, f :: rest⟩⟩ =>
    inferInstanceAs (Decidable (f.leaving = true → stackHolds (f :: rest) = 0))
  | ⟨_, some ⟨_, []⟩⟩ => isTrue trivial
  | ⟨_, none⟩ => isTrue trivial

/-- No task leaves its turn with a claim open. -/
def Nested (s : Machine) : Prop := s.thread.Nested ∧ ∀ c ∈ s.pendsv, c.Nested

instance : DecidablePred Nested :=
  fun s => inferInstanceAs (Decidable (s.thread.Nested ∧ ∀ c ∈ s.pendsv, c.Nested))

variable {cfg : Config} {x : Ctx} {o : Choice} {g g' : Globals} {f : Frame} {mv : Move}

theorem Call.holds (c : Call) : c.frame.holds = 0 := by
  cases c <;> rfl

theorem holds_resume {r : Bool} : (resumeWith r f).holds = f.holds := by
  unfold resumeWith
  split <;> rfl

theorem stackHolds_return {r : Bool} {l : List Frame} : stackHolds (returnTo r l) = stackHolds l := by
  cases l with
  | nil => rfl
  | cons f rest => simp only [returnTo, stackHolds, List.map_cons, holds_resume]

theorem Context.Nested.leave {c : Context} {pc : RunPc} {rest : List Frame} (h : c.Nested)
    (hb : c.body = some ⟨pc, f :: rest⟩) (hf : f.leaving = true) : stackHolds (f :: rest) = 0 := by
  unfold Context.Nested at h
  rw [hb] at h
  exact h hf

/-! ## One step of a frame -/

/-- **What a step of a frame does to the claims**: nothing, or it opens one, or gives one back. -/
inductive ClaimEffect (x : Ctx) (g : Globals) (held held' : Nat) (g' : Globals) : Prop
  | same : g'.owner = g.owner → g'.depth = g.depth → held' = held → ClaimEffect x g held held' g'
  | claim : claim x g = (true, g') → held' = held + 1 → ClaimEffect x g held held' g'
  | release : g' = release g → held = held' + 1 → ClaimEffect x g held held' g'

theorem ClaimEffect.of_ctl {held held' : Nat} (hc : ctl g' = ctl g) (hh : held' = held) :
    ClaimEffect x g held held' g' := .same (congrArg Ctl.owner hc) (congrArg Ctl.depth hc) hh

/-- A claim goes on as its frame does, with one more open where it is granted. -/
theorem claim_effect (next : Bool → Frame) (hy : (next true).holds = 1)
    (hn : (next false).holds = 0) :
    ClaimEffect x g 0 (stackHolds (Move.goto (next (claim x g).1)).frames) (claim x g).2 := by
  cases hc : (claim x g).1 with
  | true =>
    refine .claim (Prod.ext hc rfl) ?_
    simp [Move.frames, stackHolds, hy]
  | false =>
    have hg : (claim x g).2 = g := by
      unfold Sched.claim at hc ⊢
      split_ifs at hc ⊢
      rfl
    refine .same (by rw [hg]) (by rw [hg]) ?_
    simp [Move.frames, stackHolds, hn]

/-- Code keeps the claims of the frame it stands in. -/
theorem codeStep_holds {here : Frame} {fin : Move} (hfin : stackHolds fin.frames = here.holds) :
    stackHolds (codeStep o here fin).frames = here.holds := by
  unfold codeStep
  split
  · next c _ => simp [Move.frames, stackHolds, Call.holds c]
  · exact hfin

theorem frameStep_claim (h : frameStep cfg x o g f = (g', mv)) :
    ClaimEffect x g f.holds (stackHolds mv.frames) g' := by
  obtain ⟨rfl, rfl⟩ := Prod.mk.inj h
  cases f with
  | poll pc =>
    cases pc with
    | claim =>
      exact claim_effect (fun b => .poll (if b then .requested else .refused)) rfl rfl
    | quietRelease => exact .release rfl rfl
    | release => exact .release rfl rfl
    | irqs => exact .of_ctl rfl (codeStep_holds rfl)
    | timers => exact .of_ctl rfl (codeStep_holds rfl)
    | initted => exact .of_ctl rfl (by simp only [pollStep]; split_ifs <;> rfl)
    | current => exact .of_ctl rfl (by simp only [pollStep]; split_ifs <;> rfl)
    | requested => exact .of_ctl rfl (by simp only [pollStep]; split_ifs <;> rfl)
    | irqPending => exact .of_ctl rfl (by simp only [pollStep]; split_ifs <;> rfl)
    | timerPending => exact .of_ctl rfl (by simp only [pollStep]; split_ifs <;> rfl)
    | schedPending =>
      simp only [pollStep]
      split_ifs <;> exact .of_ctl rfl rfl
    | _ => exact .of_ctl rfl rfl
  | yield pc =>
    cases pc with
    | claim => exact claim_effect (fun b => .yield (if b then .run else .hook)) rfl rfl
    | release => exact .release rfl rfl
    | current => exact .of_ctl rfl (by simp only [yieldStep]; split <;> rfl)
    | hook =>
      refine .of_ctl rfl ?_
      simp only [yieldStep]
      split_ifs
      · rfl
      · exact codeStep_holds rfl
    | _ => exact .of_ctl rfl rfl
  | park timed wakeAt pc =>
    cases pc with
    | current => exact .of_ctl rfl (by simp only [parkStep]; split <;> rfl)
    | deadline t => exact .of_ctl (by simp only [parkStep]; split_ifs <;> rfl) rfl
    | switch t => exact .of_ctl rfl rfl
  | run pc =>
    cases pc with
    | check => exact .of_ctl rfl (by simp only [runEntryStep]; split_ifs <;> rfl)
    | set => exact .same rfl rfl rfl
  | wait c evals w =>
    simp only [waitFrame]
    split
    case h_2 =>
      refine .of_ctl (evalCond_ctl c) ?_
      split_ifs <;> rfl
    all_goals exact .of_ctl rfl rfl
  | notifyWait timeoutMs => exact .of_ctl rfl (by simp only [notifyWaitStep]; split <;> rfl)
  | mutexGet m timeoutMs pc =>
    refine .of_ctl rfl ?_
    cases pc with
    | enter => simp only [mutexGetStep]; split_ifs <;> rfl
    | _ => rfl
  | op todo =>
    show ClaimEffect x g 0 (stackHolds (opStep cfg o g todo).2.frames) (opStep cfg o g todo).1
    unfold opStep
    split
    · exact .of_ctl rfl rfl
    · exact .of_ctl rfl rfl
    · exact .of_ctl (microStep_ctl _ _ _) rfl
  | region pc =>
    cases pc with
    | claim => exact claim_effect (fun b => .region (if b then .inside else .refused)) rfl rfl
    | release => exact .release rfl rfl
    | inside => exact .of_ctl rfl (codeStep_holds rfl)
    | refused => exact .of_ctl rfl rfl

/-! ## One step of a stack and of a context -/

theorem ClaimEffect.add {held held' : Nat} (h : ClaimEffect x g held held' g') (k : Nat) :
    ClaimEffect x g (held + k) (held' + k) g' := by
  cases h with
  | same ho hd hh => exact .same ho hd (by rw [hh])
  | claim hc hh => exact .claim hc (by rw [hh, Nat.add_right_comm])
  | release hg hh => exact .release hg (by rw [hh, Nat.add_right_comm])

theorem stackHolds_cons (f : Frame) (l : List Frame) :
    stackHolds (f :: l) = f.holds + stackHolds l := List.sum_cons

/-- Where none is open on a stack that is over, its claims change as those of its top frame. -/
theorem stackStep_claim {l : List Frame} {sm : StackMove} (h : stackStep cfg x o g l = (g', sm))
    (hleave : ∀ t, sm = .retire t → stackHolds l = 0) :
    ClaimEffect x g (stackHolds l) (stackHolds sm.stay) g' := by
  cases l with
  | nil =>
    obtain ⟨rfl, rfl⟩ := Prod.mk.inj h
    refine .of_ctl rfl ?_
    cases o.call with
    | none => rfl
    | some c => exact Call.holds c
  | cons f rest =>
    obtain ⟨hg, rfl⟩ := Prod.mk.inj h
    have he := (frameStep_claim (Prod.eta (frameStep cfg x o g f)).symm).add (stackHolds rest)
    rw [hg, ← stackHolds_cons] at he
    cases hmv : (frameStep cfg x o g f).2 with
    | goto f' =>
      rw [hmv] at he
      exact he
    | call f' callee =>
      rw [hmv] at he
      simpa [Move.onto, StackMove.stay, Move.frames, stackHolds, Nat.add_assoc] using he
    | ret r =>
      rw [hmv] at he
      have hret : stackHolds (returnTo r rest) = stackHolds rest := stackHolds_return
      simpa [Move.onto, StackMove.stay, hret, Move.frames, stackHolds_cons, show stackHolds [] = 0
        from rfl] using he
    | switch t =>
      rw [hmv] at he
      simpa [Move.onto, StackMove.stay, Move.frames, stackHolds] using he
    | enter =>
      rw [hmv] at he
      simpa [Move.onto, StackMove.stay, Move.frames, stackHolds] using he
    | retire t =>
      have hz := hleave t (by rw [hmv]; rfl)
      have hr : stackHolds rest = 0 := by
        rw [stackHolds_cons] at hz
        exact Nat.eq_zero_of_add_eq_zero_left hz
      rw [hmv, hz, hr] at he
      rw [hz]
      exact he

/-- A stack leaves by its top frame, and leaves the globals as they are. -/
theorem stackStep_leaving {t : TaskId} {l : List Frame} {sm : StackMove}
    (h : stackStep cfg x o g l = (g', sm)) (hl : sm.leaves = some t) :
    g' = g ∧ ∃ f rest, l = f :: rest ∧ f.leaving = true ∧ (sm = .switch t rest ∨ sm = .retire t) := by
  obtain ⟨f, rest, rfl, hf⟩ := stackStep_leaves (h ▸ hl : (stackStep cfg x o g l).2.leaves = some t)
  obtain ⟨rfl, rfl⟩ := Prod.mk.inj h
  rcases frameStep_leaves hf with rfl | ⟨timed, w, rfl⟩ | ⟨todo, rfl⟩
  · exact ⟨rfl, _, rest, rfl, rfl, Or.inl rfl⟩
  · exact ⟨rfl, _, rest, rfl, rfl, Or.inl rfl⟩
  · exact ⟨rfl, _, rest, rfl, rfl, Or.inr rfl⟩

/-- No saved stack has a claim open. -/
def SavedFree (g : Globals) : Prop := ∀ t, stackHolds (g.task t).sp = 0

theorem SavedFree.stack {l : List Frame} {sm : StackMove} (hs : SavedFree g)
    (h : stackStep cfg x o g l = (g', sm)) : SavedFree g' := by
  cases l with
  | nil =>
    obtain ⟨rfl, -⟩ := Prod.mk.inj h
    exact hs
  | cons f rest =>
    obtain ⟨rfl, -⟩ := Prod.mk.inj h
    intro t
    rcases frameStep_sp (Prod.eta (frameStep cfg x o g f)).symm t with hsp | hsp
    · rw [hsp]
      exact hs t
    · rw [hsp]
      rfl

theorem SavedFree.save {t : TaskId} {l : List Frame} (hs : SavedFree g) (hl : stackHolds l = 0) :
    SavedFree (setTask g t fun k => { k with sp := l }) := by
  intro u
  by_cases hu : u = t
  · rw [hu, setTask_self]
    exact hl
  · rw [setTask_other hu]
    exact hs u

/-- `mm_halow_sched_run` outside a turn leaves the claims and the saved stacks alone, and resumes a
task with none open. -/
theorem bodyStep_claim (cfg : Config) (hs : SavedFree g) (pc : RunPc) :
    (bodyStep cfg g pc).1.owner = g.owner ∧ (bodyStep cfg g pc).1.depth = g.depth ∧
      SavedFree (bodyStep cfg g pc).1 ∧
      stackHolds (((bodyStep cfg g pc).2.map Body.frames).getD []) = 0 := by
  cases pc with
  | walk pass t =>
    cases t with
    | none => exact ⟨rfl, rfl, hs, rfl⟩
    | some t => exact ⟨rfl, rfl, hs, rfl⟩
  | resume pass t => exact ⟨rfl, rfl, hs, hs t⟩
  | reap =>
    refine ⟨rfl, rfl, fun t => ?_, rfl⟩
    show stackHolds ((reap g).task t).sp = 0
    rw [reap_sp]
    exact hs t
  | _ => exact ⟨rfl, rfl, hs, rfl⟩

variable {c : Context} {c' : Option Context}

/-- **What a step of a context does to its claims.** -/
theorem Context.step_claim (h : c.step cfg x o g = (g', c')) (hn : c.Nested) (hs : SavedFree g)
    (hb : ∀ b, c.body = some b → BodyOk b) :
    ClaimEffect x g c.openClaims (c'.getD idle).openClaims g' ∧ SavedFree g' := by
  have hin : ∀ {pc : RunPc} {fr : List Frame}, c.body = some ⟨pc, fr⟩ →
      c.openClaims = stackHolds c.frames + stackHolds fr := by
    intro pc fr hbody
    rw [Context.openClaims, hbody]
    rfl
  have hadd : ∀ {fr l : List Frame} {g₁ : Globals}, ClaimEffect x g (stackHolds fr) (stackHolds l) g₁ →
      ClaimEffect x g (stackHolds c.frames + stackHolds fr) (stackHolds c.frames + stackHolds l) g₁ := by
    intro fr l g₁ he
    rw [Nat.add_comm _ (stackHolds fr), Nat.add_comm _ (stackHolds l)]
    exact he.add _
  cases Context.step_cases h with
  | frames hbody hst =>
    simp only [Context.openClaims, hbody]
    exact ⟨stackStep_claim hst nofun, hs.stack hst⟩
  | enter hbody hst =>
    simp only [Context.openClaims, hbody]
    exact ⟨stackStep_claim hst nofun, hs.stack hst⟩
  | finished hbody hst =>
    simp only [Context.openClaims, hbody]
    exact ⟨stackStep_claim hst nofun, hs.stack hst⟩
  | stuck => exact ⟨.of_ctl rfl rfl, hs⟩
  | turn hbody hst =>
    rw [hin hbody]
    exact ⟨hadd (stackStep_claim hst nofun), hs.stack hst⟩
  | returned hbody hst =>
    rw [hin hbody]
    exact ⟨hadd (stackStep_claim hst nofun), hs.stack hst⟩
  | switch hbody hst =>
    obtain ⟨rfl, f, rest, rfl, hf, hsm⟩ := stackStep_leaving hst rfl
    obtain ⟨-, rfl⟩ := StackMove.switch.inj (hsm.resolve_right StackMove.noConfusion)
    have hz := hn.leave hbody hf
    rw [hin hbody, hz]
    rw [stackHolds_cons] at hz
    exact ⟨.of_ctl rfl rfl, hs.save (Nat.eq_zero_of_add_eq_zero_left hz)⟩
  | retire hbody hst =>
    obtain ⟨rfl, f, rest, rfl, hf, -⟩ := stackStep_leaving hst rfl
    rw [hin hbody, hn.leave hbody hf]
    exact ⟨.of_ctl rfl rfl, hs.save rfl⟩
  | @body pc fr hbody hpc =>
    obtain ⟨ho, hd, hs', hz⟩ := bodyStep_claim cfg hs pc
    have hfr : fr = [] := by
      have := hb _ hbody
      cases pc with
      | inTurn pass t => exact absurd rfl (hpc pass t)
      | _ => exact this
    refine ⟨.same ho hd ?_, hs'⟩
    rw [hin hbody, hfr, Option.getD_some, Context.openClaims, hz]
    rfl

/-! ## The account of the claims -/

/-- The other context. -/
def other : Ctx → Ctx
  | .thread => .irq
  | .irq => .thread

/-- Owner and depth where `x` has `n` claims open and the other context `m`. -/
structure Account (x : Ctx) (g : Globals) (n m : Nat) : Prop where
  depth : g.depth.toNat = n + m
  none_iff : g.owner = .none ↔ n + m = 0
  mine : 0 < n → g.owner = ownerOf x ∧ m = 0
  theirs : 0 < m → g.owner = ownerOf (other x) ∧ n = 0

theorem Account.symm {n m : Nat} (h : Account x g n m) : Account (other x) g m n where
  depth := by rw [h.depth, Nat.add_comm]
  none_iff := by rw [h.none_iff, Nat.add_comm]
  mine := h.theirs
  theirs := by
    have : other (other x) = x := by cases x <;> rfl
    rw [this]
    exact h.mine

theorem ownerOf_other (x : Ctx) : ownerOf (other x) ≠ ownerOf x ∧ ownerOf x ≠ .none := by
  cases x <;> exact ⟨Owner.noConfusion, Owner.noConfusion⟩

/-- A claim is granted where no claim is open, or only claims of the same context. -/
theorem claim_granted_iff : (claim x g).1 = true ↔ g.owner = .none ∨ g.owner = ownerOf x := by
  unfold claim
  split_ifs with h
  · exact ⟨fun _ => h, fun _ => rfl⟩
  · exact ⟨False.elim, fun hg => absurd hg h⟩

theorem Account.claim {n m : Nat} (h : Account x g n m) (hlt : n + 1 + m < 256)
    (hc : Sched.claim x g = (true, g')) : Account x g' (n + 1) m := by
  have hown : g.owner = .none ∨ g.owner = ownerOf x := claim_granted_iff.mp (congrArg Prod.fst hc)
  have hm : m = 0 := by
    by_contra hm
    have htheirs := (h.theirs (Nat.pos_of_ne_zero hm)).1
    rcases hown with hnone | hx
    · exact hm (Nat.eq_zero_of_add_eq_zero_left (h.none_iff.mp hnone))
    · exact (ownerOf_other x).1 (htheirs.symm.trans hx)
  subst hm
  unfold Sched.claim at hc
  rw [if_pos hown] at hc
  obtain rfl := (Prod.mk.inj hc).2
  have hdep : (g.depth + 1).toNat = n + 1 := by
    have := h.depth
    rw [UInt8.toNat_add]
    simp only [UInt8.reduceToNat]
    omega
  exact ⟨hdep, ⟨fun hn => absurd hn (ownerOf_other x).2, fun hz => by omega⟩, fun _ => ⟨rfl, rfl⟩,
    fun hlt => absurd hlt (Nat.lt_irrefl 0)⟩

theorem Account.release {n m : Nat} (h : Account x g (n + 1) m) : Account x (release g) n m := by
  obtain ⟨hown, rfl⟩ := h.mine (Nat.succ_pos n)
  have hdep : g.depth.toNat = n + 1 := h.depth
  have hpos : 0 < g.depth := UInt8.lt_iff_toNat_lt.mpr (by rw [hdep]; exact Nat.succ_pos n)
  have hsub : (g.depth - 1).toNat = n := by
    have := g.depth.toNat_lt
    rw [UInt8.toNat_sub_of_le _ _ (UInt8.le_iff_toNat_le.mpr (by rw [hdep]; exact Nat.succ_pos n)), hdep]
    rfl
  have hz : g.depth - 1 = 0 ↔ n = 0 := by
    rw [← hsub, ← UInt8.toNat_inj]
    rfl
  unfold Sched.release
  rw [if_pos hpos]
  by_cases hn : n = 0
  · subst hn
    rw [if_pos (hz.mpr rfl)]
    exact ⟨hsub, ⟨fun _ => rfl, fun _ => rfl⟩, fun h => absurd h (Nat.lt_irrefl 0),
      fun h => absurd h (Nat.lt_irrefl 0)⟩
  · rw [if_neg fun h => hn (hz.mp h)]
    exact ⟨hsub, ⟨fun h => absurd (hown.symm.trans h) (ownerOf_other x).2, fun h => absurd h hn⟩,
      fun _ => ⟨hown, rfl⟩, fun h => absurd h (Nat.lt_irrefl 0)⟩

/-- **A step of `x` keeps the account**, with fewer than 256 claims open. -/
theorem Account.step {n n' m : Nat} (h : Account x g n m) (he : ClaimEffect x g n n' g')
    (hlt : n' + m < 256) : Account x g' n' m := by
  cases he with
  | same ho hd hh =>
    subst hh
    exact ⟨by rw [hd]; exact h.depth, by rw [ho]; exact h.none_iff, by rw [ho]; exact h.mine,
      by rw [ho]; exact h.theirs⟩
  | claim hc hh =>
    subst hh
    exact h.claim hlt hc
  | release hg hh =>
    subst hh hg
    exact h.release

/-! ## One step of the machine -/

/-- The account of the claims, in every reachable state. -/
structure Claims (s : Machine) : Prop where
  saved : SavedFree s.g
  account : Account .thread s.g s.thread.openClaims (openInPendsv s)

variable {s u : Machine} {e : Event}

theorem Claims.of_ctl {isrs : List (List Micro)} (h : Claims s) (hc : ctl g' = ctl s.g)
    (hsp : ∀ t, (g'.task t).sp = (s.g.task t).sp ∨ (g'.task t).sp = []) :
    Claims ⟨g', s.thread, s.pendsv, isrs⟩ where
  saved := by
    intro t
    rcases hsp t with ht | ht
    · rw [ht]
      exact h.saved t
    · rw [ht]
      rfl
  account := by
    obtain ⟨hd, hn, hm, ht⟩ := h.account
    have ho : g'.owner = s.g.owner := congrArg Ctl.owner hc
    have hdep : g'.depth = s.g.depth := congrArg Ctl.depth hc
    exact ⟨by rw [hdep]; exact hd, by rw [ho]; exact hn, by rw [ho]; exact hm, by rw [ho]; exact ht⟩

theorem openInPendsv_getD (g : Globals) (c : Context) (p : Option Context) (l : List (List Micro)) :
    openInPendsv ⟨g, c, p, l⟩ = (p.getD idle).openClaims := by
  cases p <;> rfl

/-- **Every step of the machine keeps the account of the claims.** -/
theorem Claims.step (h : Claims s) (hctl : Control s) (hn : Nested s) (hs : Step cfg s e u)
    (hlt : u.thread.openClaims + openInPendsv u < 256) : Claims u := by
  cases hs.cases with
  | isr => exact h.of_ctl rfl fun _ => Or.inl rfl
  | isrDone => exact h.of_ctl rfl fun _ => Or.inl rfl
  | @isrStep o m todo rest =>
    exact h.of_ctl (microStep_ctl (g := advance o.dt s.g) m todo o.heap)
      fun t => microStep_sp m todo o.heap t
  | dispatch _ hp =>
    refine ⟨h.saved, ?_⟩
    have := h.account
    rw [openInPendsv, hp] at this
    exact this
  | @pendsv o c g' c' _ hp hc =>
    unfold Control at hctl
    rw [hp] at hctl
    have ha : Account .irq (advance o.dt s.g) c.openClaims s.thread.openClaims := by
      have := h.account.symm
      rw [openInPendsv, hp] at this
      exact ⟨this.depth, this.none_iff, this.mine, this.theirs⟩
    obtain ⟨he, hsv⟩ := Context.step_claim hc (hn.2 c hp) (g := advance o.dt s.g) h.saved hctl.1.body
    rw [openInPendsv_getD, Nat.add_comm] at hlt
    refine ⟨hsv, ?_⟩
    rw [openInPendsv_getD]
    exact (ha.step he hlt).symm
  | @thread o g' c' _ hp hc =>
    unfold Control at hctl
    rw [hp] at hctl
    have ha : Account .thread (advance o.dt s.g) s.thread.openClaims (openInPendsv s) :=
      ⟨h.account.depth, h.account.none_iff, h.account.mine, h.account.theirs⟩
    obtain ⟨he, hsv⟩ := Context.step_claim hc hn.1 (g := advance o.dt s.g) h.saved hctl.body
    exact ⟨hsv, ha.step he hlt⟩

/-! ## Exclusion in every run -/

/-- A context is inside the `mm_halow_sched_run` of a poll or of a yield. -/
def Context.Serving (c : Context) : Prop := .poll .inRun ∈ c.frames ∨ .yield .inRun ∈ c.frames

theorem holds_le_stackHolds {l : List Frame} (h : f ∈ l) : f.holds ≤ stackHolds l := by
  obtain ⟨a, b, rfl⟩ := List.append_of_mem h
  simp only [stackHolds, List.map_append, List.sum_append, List.map_cons, List.sum_cons]
  omega

theorem Context.Serving.open {c : Context} (h : c.Serving) : 0 < c.openClaims := by
  have hle : 1 ≤ stackHolds c.frames := by
    rcases h with h | h
    · exact holds_le_stackHolds h
    · exact holds_le_stackHolds h
  exact Nat.lt_of_lt_of_le hle (Nat.le_add_right _ _)

/-- **What the service claim guarantees.** -/
structure ClaimExclusive (s : Machine) : Prop where
  /-- The two contexts never hold claims at the same time. -/
  apart : ∀ x, 0 < openClaims x s → openClaims (other x) s = 0
  /-- A claim is refused exactly where the other context holds one. -/
  refused_iff : ∀ x, (claim x s.g).1 = false ↔ 0 < openClaims (other x) s
  /-- The owner is `NONE` exactly where no claim is open. -/
  none_iff : s.g.owner = .none ↔ ∀ x, openClaims x s = 0
  /-- The owner is the context that holds claims. -/
  owner : ∀ x, 0 < openClaims x s → s.g.owner = ownerOf x
  /-- An inner release keeps the outer claim, and the outermost gives it up. -/
  release : ∀ x n, openClaims x s = n + 1 →
    (Sched.release s.g).owner = (if n = 0 then .none else ownerOf x)
  /-- `mm_halow_sched_run` is not under way in both contexts for a poll or a yield. -/
  one_run : ∀ c, s.pendsv = some c → ¬ (s.thread.Serving ∧ c.Serving)

theorem Claims.account_of (h : Claims s) (x : Ctx) :
    Account x s.g (openClaims x s) (openClaims (other x) s) := by
  cases x with
  | thread => exact h.account
  | irq => exact h.account.symm

theorem Account.refused_iff {n m : Nat} (h : Account x g n m) : (Sched.claim x g).1 = false ↔ 0 < m := by
  rw [← Bool.not_eq_true, claim_granted_iff, not_or]
  constructor
  · rintro ⟨hnone, hx⟩
    by_contra hm
    have hn : 0 < n := by
      by_contra hn
      exact hnone (h.none_iff.mpr (by omega))
    exact hx (h.mine hn).1
  · intro hm
    have ho := (h.theirs hm).1
    exact ⟨fun hnone => (ownerOf_other (other x)).2 (ho.symm.trans hnone),
      fun hx => (ownerOf_other x).1 (ho.symm.trans hx)⟩

theorem Claims.exclusive (h : Claims s) : ClaimExclusive s where
  apart x hx := ((h.account_of x).mine hx).2
  refused_iff x := (h.account_of x).refused_iff
  none_iff := by
    rw [h.account.none_iff]
    constructor
    · intro hz x
      cases x with
      | thread => exact Nat.eq_zero_of_add_eq_zero_right hz
      | irq => exact Nat.eq_zero_of_add_eq_zero_left hz
    · intro hz
      rw [show s.thread.openClaims = 0 from hz .thread, show openInPendsv s = 0 from hz .irq]
  owner x hx := ((h.account_of x).mine hx).1
  release x n hn := by
    have ha := h.account_of x
    rw [hn] at ha
    have hm := (ha.mine (Nat.succ_pos n)).2
    by_cases hz : n = 0
    · rw [if_pos hz]
      exact ha.release.none_iff.mpr (by omega)
    · rw [if_neg hz]
      exact (ha.release.mine (Nat.pos_of_ne_zero hz)).1
  one_run c hc := by
    rintro ⟨ht, hi⟩
    have hm := (h.account.mine ht.open).2
    rw [openInPendsv, hc] at hm
    exact absurd hm (Nat.ne_of_gt hi.open)

variable {now : Nat} {mutex : Nat → Mutex} {sem : Nat → Sem} {semb : Nat → Bool}
  {queue : Nat → Queue} {tr : List Event}

theorem Claims.boot : Claims (boot (bootGlobals now mutex sem semb queue)) where
  saved _ := rfl
  account := ⟨rfl, ⟨fun _ => rfl, fun _ => rfl⟩, fun h => absurd h (Nat.lt_irrefl 0),
    fun h => absurd h (Nat.lt_irrefl 0)⟩

/-- **Service claim exclusivity**: in every run whose states all have nested claims, fewer than 256
at once. -/
theorem claim_exclusive
    (h : Run (Step cfg) (boot (bootGlobals now mutex sem semb queue)) tr s)
    (hn : ∀ tr₁ u, tr₁ <+: tr →
      Run (Step cfg) (boot (bootGlobals now mutex sem semb queue)) tr₁ u →
      Nested u ∧ openClaims .thread u + openClaims .irq u < 256) : ClaimExclusive s := by
  suffices hc : Claims s from hc.exclusive
  refine h.inv_trace (I := fun tr' v => tr' <+: tr → Claims v) (fun _ => .boot) ?_
    (List.prefix_refl tr)
  intro tr' v e w hv hi hs hpre
  have hpre' : tr' <+: tr := (List.prefix_append _ _).trans hpre
  exact (hi hpre').step (Control.run hv) (hn tr' v hpre' hv).1 hs (hn _ w hpre (hv.snoc hs)).2

/-- Thread context claims twice; PendSV polls in vain; the inner claim is given back. -/
def claimTwice : List Event :=
  [.thread (calling .region), .thread go, .thread (calling .region), .thread go, .dispatch,
    .pendsv (calling .poll), .pendsv go, .pendsv go, .pendsv go, .pendsv go, .pendsv go,
    .thread go, .thread go]

theorem claim_exclusive_claimTwice : ∃ s, Run (Step .defaults) bootBare claimTwice s ∧
    openClaims .thread s = 1 ∧ ClaimExclusive s := by
  obtain ⟨s, hs, hp⟩ := run_any (fun s => openClaims .thread s = 1)
    (by rfl : (claimTwice.foldlM (step .defaults) bootBare).any _ = true)
  refine ⟨s, hs, of_decide_eq_true hp, claim_exclusive hs fun tr₁ u hpre hu => ?_⟩
  have hall : passes (step .defaults)
      (fun s => Nested s ∧ openClaims .thread s + openClaims .irq s < 256) bootBare claimTwice =
        true := by rfl
  have := Run.of_passes (fun _ _ _ h => h) hall hpre hu
  exact of_decide_eq_true this

end MmHalow.Sched
