import MmHalow.Sched.Claim

/-!
# The scheduler's run of a full pass (`mm_halow_poll_func`)

A full pass ends with `mm_halow_sched_run`, called under the claim of the poll. `Entry` is what has
become of that call, told by the frames of a context before and after a step (`entryTold`) and kept
for every poll on its stack (`entryAfter`).

* `Step.ran`: a full pass that is past its call of `mm_halow_sched_run` has made it.
* `Step.not_away`: **where the poll and the yields alone are inside `mm_halow_sched_run`, under
  claims, it never turns a full pass away.**
-/

namespace MmHalow.Sched

open MmHalow.Lib MmHalow.Lib.Clock MmHalow.Osal

/-! ## What becomes of the call -/

/-- What has become of the `mm_halow_sched_run` of a full pass: it is not called yet or still at its
entry, was turned away there, or entered. -/
inductive Entry where
  | due
  | away
  | entered
  deriving Repr, DecidableEq

/-- What the frames of a context before and after a step tell of the poll above `n` frames: its full
pass begins, or its `mm_halow_sched_run` comes back without passes, or begins them. -/
def entryTold : Option Context → Option Context → Option (Nat × Entry)
  | some ⟨.poll .request :: rest, none⟩, some ⟨.poll .irqs :: _, none⟩ => some (rest.length, .due)
  | some ⟨.run .check :: .poll .inRun :: rest, none⟩, some ⟨.poll .inRun :: _, none⟩ =>
    some (rest.length, .away)
  | some ⟨.run .set :: .poll .inRun :: rest, none⟩, some ⟨_, some _⟩ => some (rest.length, .entered)
  | _, _ => none

/-- The same, kept for every poll of the context. -/
def entryAfter (c d : Option Context) (k : Nat → Entry) (n : Nat) : Entry :=
  match entryTold c d with
  | some (i, e) => if n = i then e else k n
  | none => k n

variable {cfg : Config} {x : Ctx} {o : Choice} {g g' : Globals} {f : Frame} {mv : Move}
  {c : Context} {c' : Option Context} {l rest : List Frame}

/-! ## The frames around the call -/

/-- Where the entry of `mm_halow_sched_run`, and the poll in it and after it, come from. -/
def Follows (o : Choice) (f : Frame) : Frame → Prop
  | .run .check => o.call = some .run ∨ f = .poll .run ∨ f = .yield .run
  | .run .set => f = .run .check
  | .poll .inRun => f = .poll .run
  | .poll .release => f = .poll .inRun
  | _ => True

theorem codeStep_follows {here : Frame} {fin : Move} (hhere : Follows o f here)
    (hfin : ∀ f' ∈ fin.frames, Follows o f f') :
    ∀ f' ∈ (codeStep o here fin).frames, Follows o f f' := by
  unfold codeStep
  split
  · next c hc =>
    refine List.forall_mem_cons.mpr ⟨?_, List.forall_mem_singleton.mpr hhere⟩
    cases c with
    | run => exact .inl hc
    | _ => trivial
  · exact hfin

theorem frameStep_follows : ∀ f' ∈ (frameStep cfg x o g f).2.frames, Follows o f f' := by
  cases f with
  | poll pc =>
    cases pc with
    | irqs => exact codeStep_follows trivial (List.forall_mem_singleton.mpr trivial)
    | timers => exact codeStep_follows trivial (List.forall_mem_singleton.mpr trivial)
    | rearm => exact fun f' hf' => absurd hf' List.not_mem_nil
    | refused => exact fun f' hf' => absurd hf' List.not_mem_nil
    | run => simp [frameStep, pollStep, Move.frames, Follows]
    | schedPending =>
      simp only [frameStep, pollStep]
      split_ifs <;> simp [Move.frames, Follows]
    | _ =>
      simp only [frameStep, pollStep]
      try split_ifs
      all_goals simp [Move.frames, Follows]
  | yield pc =>
    cases pc with
    | current =>
      simp only [frameStep, yieldStep]
      split <;> simp [Move.frames, Follows]
    | claim =>
      simp only [frameStep, yieldStep]
      split_ifs <;> simp [Move.frames, Follows]
    | hook =>
      simp only [frameStep, yieldStep]
      split_ifs
      · exact fun f' hf' => absurd hf' List.not_mem_nil
      · exact codeStep_follows trivial fun f' hf' => absurd hf' List.not_mem_nil
    | _ => simp [frameStep, yieldStep, Move.frames, Follows]
  | park timed wakeAt pc =>
    cases pc with
    | current =>
      simp only [frameStep, parkStep]
      split <;> simp [Move.frames, Follows]
    | _ => simp [frameStep, parkStep, Move.frames, Follows]
  | run pc =>
    cases pc with
    | check =>
      simp only [frameStep, runEntryStep]
      split_ifs <;> simp [Move.frames, Follows]
    | set => exact fun f' hf' => absurd hf' List.not_mem_nil
  | wait c evals w =>
    simp only [frameStep, waitFrame]
    split
    case h_2 => split_ifs <;> simp [Move.frames, Follows]
    all_goals simp [Move.frames, Follows]
  | notifyWait timeoutMs =>
    simp only [frameStep, notifyWaitStep]
    split <;> simp [Move.frames, waitOn, Follows]
  | mutexGet m timeoutMs pc =>
    cases pc with
    | enter =>
      simp only [frameStep, mutexGetStep]
      split_ifs <;> simp [Move.frames, waitOn, Follows]
    | _ => simp [frameStep, mutexGetStep, Move.frames, waitOn, Follows]
  | op todo =>
    simp only [frameStep]
    unfold opStep
    split <;> simp [Move.frames, Follows]
  | region pc =>
    cases pc with
    | inside => exact codeStep_follows trivial (List.forall_mem_singleton.mpr trivial)
    | claim =>
      simp only [frameStep, regionStep]
      split_ifs <;> simp [Move.frames, Follows]
    | _ => simp [frameStep, regionStep, Move.frames, Follows]

/-- A frame that a result does not change. -/
theorem resumeWith_of {r : Bool} {f₀ : Frame} (hf : ∀ m t pc, f₀ ≠ .mutexGet m t pc)
    (h : resumeWith r f = f₀) : f = f₀ := by
  unfold resumeWith at h
  split at h
  · exact absurd h.symm (hf _ _ _)
  · exact h

/-- **Where a frame of a stack comes from**: from below the top, or from the step of the top frame. -/
inductive Comes (f : Frame) (tail : List Frame) (mv : Move) (f₀ : Frame) (rest : List Frame) : Prop
  | below : f₀ :: rest <:+ tail → Comes f tail mv f₀ rest
  | goto : mv = .goto f₀ → rest = tail → Comes f tail mv f₀ rest
  | caller {callee : Frame} : mv = .call f₀ callee → rest = tail → Comes f tail mv f₀ rest
  | callee {f₁ : Frame} : mv = .call f₁ f₀ → rest = f₁ :: tail → Comes f tail mv f₀ rest

theorem stackStep_comes {f₀ : Frame} {tail : List Frame} (hf : ∀ m t pc, f₀ ≠ .mutexGet m t pc)
    (h : f₀ :: rest <:+ ((frameStep cfg x o g f).2.onto tail).stay) :
    Comes f tail (frameStep cfg x o g f).2 f₀ rest := by
  generalize (frameStep cfg x o g f).2 = mv at h ⊢
  cases mv with
  | goto f' =>
    rcases List.suffix_cons_iff.mp h with he | ht
    · obtain ⟨rfl, rfl⟩ := List.cons.inj he
      exact .goto rfl rfl
    · exact .below ht
  | call f' callee =>
    rcases List.suffix_cons_iff.mp h with he | h
    · obtain ⟨rfl, rfl⟩ := List.cons.inj he
      exact .callee rfl rfl
    rcases List.suffix_cons_iff.mp h with he | ht
    · obtain ⟨rfl, rfl⟩ := List.cons.inj he
      exact .caller rfl rfl
    · exact .below ht
  | ret r =>
    refine .below ?_
    cases tail with
    | nil => exact h
    | cons f₁ tail =>
      rcases List.suffix_cons_iff.mp h with he | ht
      · obtain ⟨hf₁, rfl⟩ := List.cons.inj he
        obtain rfl := resumeWith_of hf hf₁.symm
        exact List.suffix_refl _
      · exact ht.trans (List.suffix_cons _ _)
  | switch t => exact .below h
  | enter => exact .below h
  | retire t => exact absurd (List.suffix_nil.mp h) (List.cons_ne_nil _ _)

/-- **What is known of the full passes of a context.** A poll that is in its `mm_halow_sched_run` has
it called: it is still at the entry, on top of the stack, or came back or entered. One that is to
release the claim has it behind. -/
structure Ran (c : Context) (k : Nat → Entry) : Prop where
  inRun : ∀ rest, .poll .inRun :: rest <:+ c.frames → k rest.length ≠ .due ∨
    c.body = none ∧ ∃ pc, c.frames = .run pc :: .poll .inRun :: rest
  release : ∀ rest, .poll .release :: rest <:+ c.frames → k rest.length ≠ .due

/-- Only the beginning of a full pass makes its run due again, at the height of the top frame. -/
theorem entryTold_due {d : Option Context} {n : Nat} (h : entryTold (some c) d = some (n, .due)) :
    ∃ rest, c.frames = .poll .request :: rest ∧ n = rest.length := by
  unfold entryTold at h
  split at h
  · next _ _ rest _ hc =>
    obtain rfl := Option.some.inj hc
    obtain ⟨rfl, -⟩ := Prod.mk.inj (Option.some.inj h)
    exact ⟨rest, rfl, rfl⟩
  · exact nomatch h
  · exact nomatch h
  · exact nomatch h

theorem entryAfter_ne_due {d : Option Context} {k : Nat → Entry} {n : Nat} (h : k n ≠ .due)
    (hn : ∀ rest, c.frames = .poll .request :: rest → n ≠ rest.length) :
    entryAfter (some c) d k n ≠ .due := by
  unfold entryAfter
  split
  · next i e ht =>
    split_ifs with hi
    · rintro rfl
      obtain ⟨rest, hc, hlen⟩ := entryTold_due ht
      exact hn rest hc (hi.trans hlen)
    · exact h
  · exact h

/-- A context that stands still tells nothing. -/
theorem entryTold_self (c : Option Context) : entryTold c c = none := by
  fun_cases entryTold c c
  rfl

theorem entryAfter_self (c : Option Context) (k : Nat → Entry) : entryAfter c c k = k := by
  funext n
  rw [entryAfter, entryTold_self]

/-- What lies below the top of a stack is shorter than what the top stands on. -/
theorem below_length {f₀ : Frame} {tail : List Frame} (h : f₀ :: rest <:+ tail) :
    rest.length ≠ tail.length := Nat.ne_of_lt (Nat.lt_of_succ_le h.length_le)

variable {k : Nat → Entry}

/-- **A step of the frames of a context keeps what is known of its full passes.** -/
theorem Ran.frames (h : Ran c k) (hb : c.body = none)
    (hs : stackStep cfg x o g c.frames = (g', .frames l)) :
    Ran ⟨l, none⟩ (entryAfter (some c) (some ⟨l, none⟩) k) := by
  obtain ⟨frames, body⟩ := c
  obtain rfl : body = none := hb
  have hkeep : ∀ {n : Nat}, k n ≠ .due → (∀ rest, frames = .poll .request :: rest → n ≠ rest.length) →
      entryAfter (some ⟨frames, none⟩) (some ⟨l, none⟩) k n ≠ .due := fun hk hn => entryAfter_ne_due hk hn
  cases frames with
  | nil =>
    have hl : ∀ f₀ rest, f₀ :: rest <:+ l → ∃ c : Call, c.frame = f₀ := by
      intro f₀ rest hsuf
      have hsm := congrArg Prod.snd hs
      simp only [stackStep] at hsm
      split at hsm
      · next c _ =>
        obtain rfl := StackMove.frames.inj hsm
        rcases List.suffix_cons_iff.mp hsuf with he | ht
        · exact ⟨c, (List.cons.inj he).1.symm⟩
        · exact absurd (List.suffix_nil.mp ht) (List.cons_ne_nil _ _)
      · cases hsm
    constructor
    · intro rest hsuf
      obtain ⟨c, hc⟩ := hl _ _ hsuf
      cases c <;> cases hc
    · intro rest hsuf
      obtain ⟨c, hc⟩ := hl _ _ hsuf
      cases c <;> cases hc
  | cons f tail =>
    have hsm : (frameStep cfg x o g f).2.onto tail = .frames l := congrArg Prod.snd hs
    have hl : l = ((frameStep cfg x o g f).2.onto tail).stay := by rw [hsm]; rfl
    have hfol : ∀ f' ∈ (frameStep cfg x o g f).2.frames, Follows o f f' := frameStep_follows
    -- a frame below the top keeps what is known of it
    have hbelow : ∀ {f₀ : Frame} {rest : List Frame}, f₀ :: rest <:+ tail → k rest.length ≠ .due →
        entryAfter (some ⟨f :: tail, none⟩) (some ⟨l, none⟩) k rest.length ≠ .due := by
      intro f₀ rest ht hk
      refine hkeep hk ?_
      intro rest' he
      rw [← (List.cons.inj he).2]
      exact below_length ht
    constructor
    · intro rest hsuf
      rw [hl] at hsuf
      cases stackStep_comes (fun _ _ _ => Frame.noConfusion) hsuf with
      | below ht =>
        rcases h.inRun rest (ht.trans (List.suffix_cons _ _)) with hk | ⟨-, pc, hfr⟩
        · exact .inl (hbelow ht hk)
        · obtain ⟨rfl, rfl⟩ := List.cons.inj hfr
          cases pc with
          | check =>
            by_cases hr : g.running = true ∨ g.cur ≠ none
            · left
              obtain rfl : l = .poll .inRun :: rest := by
                rw [hl]
                simp [frameStep, runEntryStep, hr, Move.onto, StackMove.stay, returnTo, resumeWith]
              simp [entryAfter, entryTold]
            · right
              refine ⟨rfl, .set, ?_⟩
              rw [hl]
              simp [frameStep, runEntryStep, hr, Move.onto, StackMove.stay]
          | set => cases hsm
      | goto hmv =>
        obtain rfl : f = .poll .run := hfol (.poll .inRun) (by rw [hmv]; exact List.mem_cons_self)
        cases hmv
      | caller hmv htail =>
        obtain rfl : f = .poll .run := hfol (.poll .inRun) (by rw [hmv]; simp [Move.frames])
        subst htail
        exact .inr ⟨rfl, .check, hl⟩
      | callee hmv =>
        obtain rfl : f = .poll .run := hfol (.poll .inRun) (by rw [hmv]; exact List.mem_cons_self)
        cases hmv
    · intro rest hsuf
      rw [hl] at hsuf
      cases stackStep_comes (fun _ _ _ => Frame.noConfusion) hsuf with
      | below ht => exact hbelow ht (h.release rest (ht.trans (List.suffix_cons _ _)))
      | goto hmv htail =>
        obtain rfl : f = .poll .inRun := hfol (.poll .release) (by rw [hmv]; exact List.mem_cons_self)
        subst htail
        rcases h.inRun rest (List.suffix_refl _) with hk | ⟨-, pc, hfr⟩
        · exact hkeep hk (fun _ he => by cases he)
        · cases hfr
      | caller hmv =>
        obtain rfl : f = .poll .inRun := hfol (.poll .release) (by rw [hmv]; simp [Move.frames])
        cases hmv
      | callee hmv =>
        obtain rfl : f = .poll .inRun := hfol (.poll .release) (by rw [hmv]; exact List.mem_cons_self)
        cases hmv

theorem Ran.of_idle (k : Nat → Entry) : Ran idle k where
  inRun _ hsuf := absurd (List.suffix_nil.mp hsuf) (List.cons_ne_nil _ _)
  release _ hsuf := absurd (List.suffix_nil.mp hsuf) (List.cons_ne_nil _ _)

/-- **A step of a context keeps what is known of its full passes.** -/
theorem Ran.step (h : Ran c k) (hs : c.step cfg x o g = (g', c')) :
    Ran (c'.getD idle) (entryAfter (some c) c' k) := by
  -- the frames stay, and a pass that is at its entry enters
  have hstay : ∀ b, c.body = some b → ∀ b',
      Ran ⟨c.frames, b'⟩ (entryAfter (some c) (some ⟨c.frames, b'⟩) k) := by
    intro b hb b'
    have hnone : entryTold (some c) (some ⟨c.frames, b'⟩) = none := by
      obtain ⟨frames, body⟩ := c
      obtain rfl : body = some b := hb
      unfold entryTold
      split
      · next h _ => cases h
      · next h _ => cases h
      · next h _ => cases h
      · rfl
    have hk : entryAfter (some c) (some ⟨c.frames, b'⟩) k = k := by
      funext n
      rw [entryAfter, hnone]
    rw [hk]
    refine ⟨fun rest hsuf => .inl ?_, h.release⟩
    refine (h.inRun rest hsuf).resolve_right ?_
    rintro ⟨hno, -⟩
    exact absurd (hb.symm.trans hno) (Option.some_ne_none b)
  cases Context.step_cases hs with
  | frames hb hst => exact h.frames hb hst
  | enter hb hst =>
    obtain ⟨frames, body⟩ := c
    obtain rfl : body = none := hb
    obtain ⟨rfl, rfl⟩ := stackStep_enter hst
    constructor
    · intro rest hsuf
      left
      rcases h.inRun rest (hsuf.trans (List.suffix_cons _ _)) with hk | ⟨-, pc, hfr⟩
      · exact entryAfter_ne_due hk (fun _ he => by cases he)
      · obtain ⟨-, rfl⟩ := List.cons.inj hfr
        simp [entryAfter, entryTold]
    · intro rest hsuf
      exact entryAfter_ne_due (h.release rest (hsuf.trans (List.suffix_cons _ _)))
        (fun _ he => by cases he)
  | finished => exact .of_idle _
  | stuck =>
    rw [entryAfter_self]
    exact h
  | turn hb => exact hstay _ hb _
  | returned hb => exact hstay _ hb _
  | switch hb => exact hstay _ hb _
  | retire hb => exact hstay _ hb _
  | body hb => exact hstay _ hb _

/-- `mm_halow_sched_run` is under way in a context for a poll or for a yield only. -/
structure RunsServe (c : Context) : Prop where
  called : ∀ pc rest, .run pc :: rest <:+ c.frames →
    ∃ f tail, rest = f :: tail ∧ (f = .poll .inRun ∨ f = .yield .inRun)
  body : c.body ≠ none → c.Serving

theorem RunsServe.of_idle : RunsServe idle where
  called _ _ hsuf := absurd (List.suffix_nil.mp hsuf) (List.cons_ne_nil _ _)
  body h := absurd rfl h

/-- Where code leaves `mm_halow_sched_run` to the poll and the yields, only they are in it. -/
theorem RunsServe.frames (h : RunsServe c) (hcall : o.call ≠ some .run)
    (hs : stackStep cfg x o g c.frames = (g', .frames l)) : RunsServe ⟨l, none⟩ := by
  refine ⟨fun pc rest hsuf => ?_, fun hb => absurd rfl hb⟩
  cases hfr : c.frames with
  | nil =>
    rw [hfr] at hs
    have hsm := congrArg Prod.snd hs
    simp only [stackStep] at hsm
    split at hsm
    · next call hcl =>
      obtain rfl := StackMove.frames.inj hsm
      rcases List.suffix_cons_iff.mp hsuf with he | ht
      · cases call with
        | run => exact absurd hcl hcall
        | _ => cases (List.cons.inj he).1
      · exact absurd (List.suffix_nil.mp ht) (List.cons_ne_nil _ _)
    · cases hsm
  | cons f tail =>
    rw [hfr] at hs
    have hsm : (frameStep cfg x o g f).2.onto tail = .frames l := congrArg Prod.snd hs
    have hl : l = ((frameStep cfg x o g f).2.onto tail).stay := by rw [hsm]; rfl
    have hfol : ∀ f' ∈ (frameStep cfg x o g f).2.frames, Follows o f f' := frameStep_follows
    have hbelow : ∀ rest, (∃ pc, .run pc :: rest <:+ f :: tail) →
        ∃ f tail, rest = f :: tail ∧ (f = .poll .inRun ∨ f = .yield .inRun) := by
      rintro rest ⟨pc, ht⟩
      exact h.called pc rest (hfr ▸ ht)
    -- a call of `mm_halow_sched_run` is made by a poll or by a yield
    have hcalls : .run .check ∈ (frameStep cfg x o g f).2.frames → f = .poll .run ∨ f = .yield .run :=
      fun hin => (hfol _ hin).resolve_left hcall
    rw [hl] at hsuf
    cases stackStep_comes (fun _ _ _ => Frame.noConfusion) hsuf with
    | below ht => exact hbelow rest ⟨pc, ht.trans (List.suffix_cons _ _)⟩
    | goto hmv htail =>
      subst htail
      cases pc with
      | check =>
        rcases hcalls (by rw [hmv]; exact List.mem_cons_self) with rfl | rfl
        · cases hmv
        · cases hmv
      | set =>
        obtain rfl : f = .run .check := hfol (.run .set) (by rw [hmv]; exact List.mem_cons_self)
        exact hbelow rest ⟨.check, List.suffix_refl _⟩
    | caller hmv =>
      cases pc with
      | check =>
        rcases hcalls (by rw [hmv]; simp [Move.frames]) with rfl | rfl
        · cases hmv
        · cases hmv
      | set =>
        obtain rfl : f = .run .check := hfol (.run .set) (by rw [hmv]; simp [Move.frames])
        simp only [frameStep, runEntryStep] at hmv
        split_ifs at hmv
    | callee hmv hrest =>
      cases pc with
      | check =>
        rcases hcalls (by rw [hmv]; exact List.mem_cons_self) with rfl | rfl
        · obtain ⟨rfl, -⟩ := Move.call.inj hmv
          exact ⟨_, tail, hrest, .inl rfl⟩
        · obtain ⟨rfl, -⟩ := Move.call.inj hmv
          exact ⟨_, tail, hrest, .inr rfl⟩
      | set =>
        obtain rfl : f = .run .check := hfol (.run .set) (by rw [hmv]; exact List.mem_cons_self)
        simp only [frameStep, runEntryStep] at hmv
        split_ifs at hmv

theorem RunsServe.step (h : RunsServe c) (hcall : o.call ≠ some .run)
    (hs : c.step cfg x o g = (g', c')) : RunsServe (c'.getD idle) := by
  have hstay : ∀ b, c.body = some b → ∀ b', RunsServe ⟨c.frames, b'⟩ := by
    intro b hb b'
    exact ⟨h.called, fun _ => h.body (by rw [hb]; exact Option.some_ne_none b)⟩
  cases Context.step_cases hs with
  | frames _ hst => exact h.frames hcall hst
  | @enter g' rest hb hst =>
    obtain ⟨hl, -⟩ := stackStep_enter hst
    have hsuf : rest <:+ c.frames := ⟨[.run .set], hl.symm⟩
    refine ⟨fun pc rest' hs => h.called pc rest' (hs.trans hsuf), fun _ => ?_⟩
    obtain ⟨f, tail, rfl, hf⟩ := h.called .set rest ⟨[], hl.symm⟩
    rcases hf with rfl | rfl
    · exact .inl List.mem_cons_self
    · exact .inr List.mem_cons_self
  | finished => exact .of_idle
  | stuck => exact h
  | turn hb => exact hstay _ hb _
  | returned hb => exact hstay _ hb _
  | switch hb => exact hstay _ hb _
  | retire hb => exact hstay _ hb _
  | body hb => exact hstay _ hb _

theorem entryTold_away {c d : Option Context} {n : Nat} (h : entryTold c d = some (n, .away)) :
    (∃ rest, c = some ⟨.run .check :: .poll .inRun :: rest, none⟩) ∧
      ∃ tail, d = some ⟨.poll .inRun :: tail, none⟩ := by
  unfold entryTold at h
  split at h
  · cases h
  · exact ⟨⟨_, rfl⟩, _, rfl⟩
  · cases h
  · cases h

/-- `mm_halow_sched_run` comes back to the poll without passes where a run is under way or a task has
its turn. -/
theorem Context.step_away {tail : List Frame}
    (hs : Context.step cfg x o g ⟨.run .check :: .poll .inRun :: rest, none⟩ =
      (g', some ⟨.poll .inRun :: tail, none⟩)) : g.running = true ∨ g.cur ≠ none := by
  by_contra hr
  simp only [Context.step, stackStep, frameStep, runEntryStep, hr, if_false, Move.onto] at hs
  cases (Prod.mk.inj hs).2

/-! ## One step of the machine -/

variable {s u : Machine} {e : Event}

/-- What a step of the machine makes of a context: nothing, or it is PendSV and is taken, or it makes
a step of its own. -/
inductive CtxMove (cfg : Config) (s : Machine) (e : Event) (u : Machine) (x : Ctx) : Prop
  | same : u.ctx x = s.ctx x → CtxMove cfg s e u x
  | taken : u.ctx x = some idle → CtxMove cfg s e u x
  | step {c : Context} {o : Choice} {g' : Globals} {c' : Option Context} : s.ctx x = some c →
      (e = .pendsv o ∨ e = .thread o) → (x = .thread → s.pendsv = none) →
      c.step cfg x o (advance o.dt s.g) = (g', c') →
      (u.ctx x = c' ∨ c' = none ∧ u.ctx x = some idle) → CtxMove cfg s e u x

theorem Step.ctx (h : Step cfg s e u) (x : Ctx) : CtxMove cfg s e u x := by
  cases h.cases with
  | isr => exact .same (by cases x <;> rfl)
  | isrDone => exact .same (by cases x <;> rfl)
  | isrStep => exact .same (by cases x <;> rfl)
  | dispatch =>
    cases x with
    | thread => exact .same rfl
    | irq => exact .taken rfl
  | @pendsv o c g' c' _ hp hst =>
    cases x with
    | thread => exact .same rfl
    | irq => exact .step hp (.inl rfl) nofun hst (.inl rfl)
  | @thread o g' c' _ hp hst =>
    cases x with
    | thread =>
      refine .step rfl (.inr rfl) (fun _ => hp) hst ?_
      cases c' with
      | none => exact .inr ⟨rfl, rfl⟩
      | some d => exact .inl rfl
    | irq => exact .same rfl

/-- **A full pass that is past its call of `mm_halow_sched_run` has made it**: one step of the
machine. -/
theorem Step.ran {k : Ctx → Nat → Entry} (h : Step cfg s e u)
    (hr : ∀ x c, s.ctx x = some c → Ran c (k x)) (x : Ctx) (d : Context) (hd : u.ctx x = some d) :
    Ran d (entryAfter (s.ctx x) (u.ctx x) (k x)) := by
  cases h.ctx x with
  | same hx =>
    rw [hx, entryAfter_self]
    exact hr x d (hx ▸ hd)
  | taken hx =>
    obtain rfl := Option.some.inj (hx.symm.trans hd)
    exact .of_idle _
  | step hc _ _ hst hu =>
    rcases hu with hu | ⟨-, hu⟩
    · obtain rfl := hu.symm.trans hd
      rw [hc, hu]
      exact (hr x _ hc).step hst
    · obtain rfl := Option.some.inj (hu.symm.trans hd)
      exact .of_idle _

/-- Code makes a call of `mm_halow_sched_run` of its own. -/
def Event.callsRun : Event → Bool
  | .pendsv o => o.call = some .run
  | .thread o => o.call = some .run
  | _ => false

theorem Step.runsServe (h : Step cfg s e u) (hcall : e.callsRun = false)
    (hr : ∀ x c, s.ctx x = some c → RunsServe c) (x : Ctx) (d : Context) (hd : u.ctx x = some d) :
    RunsServe d := by
  cases h.ctx x with
  | same hx => exact hr x d (hx ▸ hd)
  | taken hx =>
    obtain rfl := Option.some.inj (hx.symm.trans hd)
    exact .of_idle
  | @step c o g' c' hc he _ hst hu =>
    have hrun : o.call ≠ some .run := by
      rcases he with rfl | rfl
      · exact of_decide_eq_false hcall
      · exact of_decide_eq_false hcall
    rcases hu with hu | ⟨-, hu⟩
    · obtain rfl := hu.symm.trans hd
      exact (hr x c hc).step hrun hst
    · obtain rfl := Option.some.inj (hu.symm.trans hd)
      exact .of_idle

/-- `mm_halow_sched_run`, called outside a turn, is turned away only where thread context is inside
it. -/
theorem Control.turned_away (h : Control s) (hx : s.ctx x = some c) (hb : c.body = none)
    (hthread : x = .thread → s.pendsv = none) (hr : s.g.running = true ∨ s.g.cur ≠ none) :
    s.thread.body ≠ none := by
  intro hno
  unfold Control at h
  have hnot : s.g.running = false ∧ s.g.cur = none := by
    cases hp : s.pendsv with
    | none =>
      rw [hp] at h
      exact ⟨by rw [h.running, hno]; rfl, by rw [h.cur, hno]; rfl⟩
    | some d =>
      rw [hp] at h
      cases x with
      | thread => exact absurd (hp.symm.trans (hthread rfl)) (Option.some_ne_none d)
      | irq =>
        obtain rfl := Option.some.inj (hp.symm.trans hx)
        exact ⟨by rw [h.1.running, hno, hb]; rfl, by rw [h.1.cur, hno, hb]; rfl⟩
  rcases hr with hr | hr
  · exact absurd (hnot.1.symm.trans hr) Bool.false_ne_true
  · exact hr hnot.2

/-- **The full pass of a poll enters `mm_halow_sched_run`**, where runs are made under claims: the
poll holds one, so no run of the other context is under way. -/
theorem Step.not_away (h : Step cfg s e u) (hctl : Control s) (hcl : Claims s)
    (hr : ∀ x c, s.ctx x = some c → RunsServe c) (x : Ctx) (n : Nat) :
    entryTold (s.ctx x) (u.ctx x) ≠ some (n, .away) := by
  intro htold
  obtain ⟨⟨rest, hc⟩, tail, hd⟩ := entryTold_away htold
  cases h.ctx x with
  | same hx => exact nomatch hc.symm.trans (hx.symm.trans hd)
  | taken hx => exact nomatch hd.symm.trans hx
  | @step c o g' c' hs _ hthread hst hu =>
    obtain rfl := Option.some.inj (hs.symm.trans hc)
    obtain rfl : c' = some ⟨.poll .inRun :: tail, none⟩ := by
      rcases hu with hu | ⟨-, hu⟩
      · exact hu.symm.trans hd
      · exact nomatch hd.symm.trans hu
    have haway : s.g.running = true ∨ s.g.cur ≠ none :=
      Context.step_away (g := advance o.dt s.g) hst
    have hbody : s.thread.body ≠ none := hctl.turned_away hc rfl hthread haway
    cases x with
    | thread =>
      obtain hc := Option.some.inj hc
      exact hbody (by rw [hc])
    | irq =>
      have hmine : 0 < openClaims .thread s := ((hr .thread _ rfl).body hbody).open
      have htheirs : 0 < openInPendsv s := by
        rw [openInPendsv, show s.pendsv = some _ from hc]
        exact Context.Serving.open (.inl (List.mem_cons_of_mem _ List.mem_cons_self))
      exact absurd (hcl.exclusive.apart .thread hmine) (Nat.ne_of_gt htheirs)

end MmHalow.Sched
