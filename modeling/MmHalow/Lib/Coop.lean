import MmHalow.Lib.Run

/-!
# Calls that give way at some places only

Any number of calls act on shared data `σ`, each in steps of its own, and one of them is under way at
a time: another takes a step only where the call under way rests. `Coop` is the code of a call,
where `κ` is what it was called with, `π` where it stands, `ω` what a step is told from outside and
`ε` what it puts out. Where all calls rest, calls may begin and the data may change in any way.

Nothing says which call goes on, so the runs in which a call that begins while another rests has
returned before that one goes on, the nestings, are among those of `Coop.Step`.

* `Coop.Keeps.run`: **what each call keeps by itself**, and what does not depend on the data where the
  call rests, every call keeps in every run.
* `Coop.Owning.run`: **what calls take they keep, one call each**, until they give it back: where all
  have, nothing is left.
* `Coop.step_of_exec`: runs by evaluation.
-/

namespace MmHalow.Lib

/-- The code of a call. -/
structure Coop (σ κ π ω ε : Type) where
  /-- Where a call begins. -/
  entry : π
  /-- A step: what becomes of the data, where the call stands then and what it puts out. -/
  next : κ → σ → π → ω → σ × π × List ε
  /-- Whether others may go on where the call stands. -/
  rests : π → Bool

/-- A call that has been made: where it stands and what it has put out, first to last. -/
structure Called (κ π ε : Type) where
  call : κ
  pc : π
  out : List ε
  deriving Repr, DecidableEq

/-- Shared data and all calls that have been made, first to last. -/
structure Together (σ κ π ε : Type) where
  shared : σ
  calls : List (Called κ π ε)

/-- What happens next: a call begins, the call at `i` takes a step, or something else acts on the
data. -/
inductive CoopEvent (σ κ ω : Type) where
  | call (k : κ)
  | step (i : Nat) (o : ω)
  | other (t : σ)

variable {σ κ π ω ε : Type}

namespace Coop

variable (P : Coop σ κ π ω ε)

/-- All these calls rest. -/
def atRest (cs : List (Called κ π ε)) : Bool := cs.all fun c => P.rests c.pc

/-- A call after a step. -/
def after (s : σ) (c : Called κ π ε) (o : ω) : Called κ π ε :=
  ⟨c.call, (P.next c.call s c.pc o).2.1, c.out ++ (P.next c.call s c.pc o).2.2⟩

/-- **One step of calls that give way to one another.** -/
inductive Step : Together σ κ π ε → CoopEvent σ κ ω → Together σ κ π ε → Prop
  | call {s : σ} {cs : List (Called κ π ε)} {k : κ} : P.atRest cs = true →
      Step ⟨s, cs⟩ (.call k) ⟨s, cs ++ [⟨k, P.entry, []⟩]⟩
  | step {s : σ} {l r : List (Called κ π ε)} {c : Called κ π ε} {o : ω} : P.atRest l = true →
      P.atRest r = true →
      Step ⟨s, l ++ c :: r⟩ (.step l.length o) ⟨(P.next c.call s c.pc o).1, l ++ P.after s c o :: r⟩
  | other {s t : σ} {cs : List (Called κ π ε)} : P.atRest cs = true →
      Step ⟨s, cs⟩ (.other t) ⟨t, cs⟩

/-- The step as a function; `none` where the event cannot happen. -/
def exec (x : Together σ κ π ε) : CoopEvent σ κ ω → Option (Together σ κ π ε)
  | .call k => if P.atRest x.calls then some ⟨x.shared, x.calls ++ [⟨k, P.entry, []⟩]⟩ else none
  | .step i o => (x.calls[i]?).bind fun c =>
    if P.atRest (x.calls.take i) && P.atRest (x.calls.drop (i + 1)) then
      some ⟨(P.next c.call x.shared c.pc o).1,
        x.calls.take i ++ P.after x.shared c o :: x.calls.drop (i + 1)⟩
    else none
  | .other t => if P.atRest x.calls then some ⟨t, x.calls⟩ else none

variable {P} {x y : Together σ κ π ε} {e : CoopEvent σ κ ω}

theorem step_of_exec (h : P.exec x e = some y) : P.Step x e y := by
  obtain ⟨s, cs⟩ := x
  cases e with
  | call k =>
    obtain ⟨hrest, heq⟩ := Option.ite_none_right_eq_some.mp h
    obtain rfl := Option.some.inj heq
    exact .call hrest
  | step i o =>
    obtain ⟨c, hc, h⟩ := Option.bind_eq_some_iff.mp h
    obtain ⟨hrest, heq⟩ := Option.ite_none_right_eq_some.mp h
    obtain rfl := Option.some.inj heq
    obtain ⟨hl, hr⟩ := Bool.and_eq_true_iff.mp hrest
    obtain ⟨hsplit, hlen⟩ := take_cons_drop hc
    have hstep := Step.step (s := s) (c := c) (o := o) hl hr
    rw [hlen, hsplit] at hstep
    exact hstep
  | other t =>
    obtain ⟨hrest, heq⟩ := Option.ite_none_right_eq_some.mp h
    obtain rfl := Option.some.inj heq
    exact .other hrest

/-- What a call keeps by itself: it says nothing about the data where the call rests. -/
structure Keeps (P : Coop σ κ π ω ε) (I : κ → σ → π → List ε → Prop) : Prop where
  entry : ∀ k s, I k s P.entry []
  next : ∀ k s p h o, I k s p h → I k (P.next k s p o).1 (P.next k s p o).2.1 (h ++ (P.next k s p o).2.2)
  rests : ∀ k s t p h, P.rests p = true → I k s p h → I k t p h

variable {I : κ → σ → π → List ε → Prop}

/-- It holds of all these calls. -/
def Holds (I : κ → σ → π → List ε → Prop) (s : σ) (cs : List (Called κ π ε)) : Prop :=
  ∀ c ∈ cs, I c.call s c.pc c.out

/-- Where calls rest, the data does not matter to them. -/
theorem Keeps.resting (h : P.Keeps I) {s t : σ} {cs : List (Called κ π ε)} (hrest : P.atRest cs = true)
    (hcs : Holds I s cs) : Holds I t cs :=
  fun c hc => h.rests c.call s t c.pc c.out (List.all_eq_true.mp hrest c hc) (hcs c hc)

/-- One step. -/
theorem Keeps.step (h : P.Keeps I) (hx : Holds I x.shared x.calls) (hs : P.Step x e y) :
    Holds I y.shared y.calls := by
  cases hs with
  | call =>
    refine List.forall_mem_append.mpr ⟨hx, ?_⟩
    exact List.forall_mem_singleton.mpr (h.entry _ _)
  | step hl hr =>
    obtain ⟨hxl, hxc⟩ := List.forall_mem_append.mp hx
    obtain ⟨hc, hxr⟩ := List.forall_mem_cons.mp hxc
    refine List.forall_mem_append.mpr ⟨h.resting hl hxl, ?_⟩
    exact List.forall_mem_cons.mpr ⟨h.next _ _ _ _ _ hc, h.resting hr hxr⟩
  | other hrest => exact h.resting hrest hx

/-- **What each call keeps by itself, every call keeps in every run.** -/
theorem Keeps.run (h : P.Keeps I) {s : σ} {tr : List (CoopEvent σ κ ω)}
    (hr : Run P.Step ⟨s, []⟩ tr x) : Holds I x.shared x.calls :=
  hr.inv (I := fun x => Holds I x.shared x.calls) (fun _ hc => absurd hc List.not_mem_nil)
    fun _ _ _ hx hs => h.step hx hs

/-! ## What calls own -/

section

variable {τ : Type}

/-- A call takes things and gives them back: `holds` is what it has where it stands, at most one thing,
and `owned` says of the data what calls have. -/
structure Owning (P : Coop σ κ π ω ε) (holds : π → Option τ) (owned : σ → τ → Prop) : Prop where
  entry : holds P.entry = none
  /-- A step changes what the call has and nothing else. -/
  next : ∀ k s p o, (∀ t, holds p = some t → owned s t) → ∀ t, owned (P.next k s p o).1 t ↔
    holds (P.next k s p o).2.1 = some t ∨ owned s t ∧ holds p ≠ some t
  /-- What it takes no call has. -/
  takes : ∀ k s p o t, holds (P.next k s p o).2.1 = some t → holds p = some t ∨ ¬ owned s t

/-- One step, in which others leave what calls have. -/
def Minds (P : Coop σ κ π ω ε) (owned : σ → τ → Prop) (x : Together σ κ π ε) (e : CoopEvent σ κ ω)
    (y : Together σ κ π ε) : Prop :=
  P.Step x e y ∧ ∀ s, e = .other s → ∀ t, owned s t ↔ owned x.shared t

/-- What these calls have. -/
def owners (holds : π → Option τ) (cs : List (Called κ π ε)) : List τ := cs.filterMap fun c => holds c.pc

/-- Each thing that is owned one call has. -/
structure Owned (holds : π → Option τ) (owned : σ → τ → Prop) (x : Together σ κ π ε) : Prop where
  iff : ∀ t, owned x.shared t ↔ t ∈ owners holds x.calls
  apart : (owners holds x.calls).Nodup

variable {holds : π → Option τ} {owned : σ → τ → Prop} {l r : List (Called κ π ε)} {c : Called κ π ε}
  {t : τ}

theorem mem_owners : t ∈ owners holds (l ++ c :: r) ↔ holds c.pc = some t ∨ t ∈ owners holds (l ++ r) := by
  simp only [owners, List.filterMap_append, List.filterMap_cons, List.mem_append]
  cases hc : holds c.pc with
  | none => simp
  | some u =>
    simp only [List.mem_cons, Option.some.injEq]
    constructor
    · rintro (h | rfl | h)
      · exact .inr (.inl h)
      · exact .inl rfl
      · exact .inr (.inr h)
    · rintro (rfl | h | h)
      · exact .inr (.inl rfl)
      · exact .inl h
      · exact .inr (.inr h)

theorem nodup_owners : (owners holds (l ++ c :: r)).Nodup ↔
    (∀ t, holds c.pc = some t → t ∉ owners holds (l ++ r)) ∧ (owners holds (l ++ r)).Nodup := by
  simp only [owners, List.filterMap_append, List.filterMap_cons]
  cases hc : holds c.pc with
  | none => simp
  | some u =>
    rw [List.perm_middle.nodup_iff, List.nodup_cons]
    simp

/-- **One step keeps track of what calls own.** -/
theorem Owning.step (h : P.Owning holds owned) (hx : Owned holds owned x) (hs : P.Minds owned x e y) :
    Owned holds owned y := by
  obtain ⟨hiff, hnodup⟩ := hx
  obtain ⟨hs, hother⟩ := hs
  cases hs with
  | @call s cs k hrest =>
    have hnone : owners holds (cs ++ [⟨k, P.entry, []⟩]) = owners holds cs := by
      simp [owners, h.entry]
    constructor
    · intro t
      rw [hnone]
      exact hiff t
    · rw [hnone]
      exact hnodup
  | @step s l r c o hl hr =>
    have hown : ∀ t, holds c.pc = some t → owned s t := by
      intro t ht
      exact (hiff t).mpr (mem_owners.mpr (.inl ht))
    obtain ⟨hpart, hrest⟩ := nodup_owners.mp hnodup
    constructor
    · intro t
      rw [mem_owners]
      refine (h.next c.call s c.pc o hown t).trans (or_congr_right ?_)
      rw [show owned s t ↔ _ from hiff t, mem_owners]
      constructor
      · rintro ⟨ht | ht, hne⟩
        · exact absurd ht hne
        · exact ht
      · intro ht
        exact ⟨.inr ht, fun hc => hpart t hc ht⟩
    · refine nodup_owners.mpr ⟨?_, hrest⟩
      intro t ht hmem
      rcases h.takes c.call s c.pc o t ht with hc | hfree
      · exact hpart t hc hmem
      · exact hfree ((hiff t).mpr (mem_owners.mpr (.inr hmem)))
  | @other s u cs hrest =>
    constructor
    · intro t
      exact (hother u rfl t).trans (hiff t)
    · exact hnodup

/-- **Nothing is lost and nothing is shared**: in every run each thing that is owned is one call's. -/
theorem Owning.run (h : P.Owning holds owned) {s : σ} (hs : ∀ t, ¬ owned s t)
    {tr : List (CoopEvent σ κ ω)} (hr : Run (P.Minds owned) ⟨s, []⟩ tr x) : Owned holds owned x := by
  have hnone : Owned holds owned (⟨s, []⟩ : Together σ κ π ε) := by
    constructor
    · intro t
      exact iff_of_false (hs t) List.not_mem_nil
    · exact List.nodup_nil
  exact hr.inv (I := Owned holds owned) hnone fun _ _ _ hx hs => h.step hx hs

end

end Coop

end MmHalow.Lib
