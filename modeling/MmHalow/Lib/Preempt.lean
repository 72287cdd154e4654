import MmHalow.Lib.Run
import Mathlib.Algebra.Ring.Int.Defs

/-!
# Two contexts, one of which preempts the other, and any number of them

Code runs in thread context and in an interrupt that may cut in between any two steps of it and
then runs to completion. A `Prog` says how a call begins and what one atomic step of a call does
on shared data `σ`; `π` is where a call stands, `κ` the calls and `ω` what a step reads from
outside. `Two` holds the shared data and where each context stands, and `Prog.Step` is one step of
either: the thread moves only while the interrupt is not active. `Prog.exec` is the same step as a
function, to evaluate runs.

`Many` has any number of calls in progress, of which each may take the next step (`Prog.AnyStep`).

* `Prog.Step.inv`: the invariant rule, one obligation for the thread and one for the interrupt.
* `Prog.Settles.run`: **a run in which no call cuts in on another is one of calls that happen at once**,
  where what is left of a call can be told from where it stands.
* `Prog.Settles.run_only`: a call that is left alone returns, where the steps left to it become fewer.
* `Many.sum_replace`: what a step of one call does to a sum over all.
-/

namespace MmHalow.Lib

/-- The two contexts. -/
inductive Ctx where
  | thread
  | irq
  deriving Repr, DecidableEq

/-- How calls begin and proceed. -/
structure Prog (σ π κ ω : Type) where
  /-- The effect of beginning a call; `none` where it may not be made. -/
  start : Ctx → σ → κ → Option (σ × π)
  /-- One atomic step of a call, which returns where the second part is `none`. -/
  next : Ctx → σ → π → ω → σ × Option π

/-- Shared data and where the two contexts stand; `none` is a context that makes no call. -/
structure Two (σ π : Type) where
  shared : σ
  thread : Option π
  irq : Option π

/-- What happens next. -/
inductive TwoEvent (κ ω : Type) where
  | call (c : Ctx) (k : κ)
  | step (c : Ctx) (o : ω)
  deriving Repr, DecidableEq

variable {σ π κ ω : Type}

/-- Neither context is inside a call. -/
def Two.Quiescent (s : Two σ π) : Prop := s.thread = none ∧ s.irq = none

/-- **One step of two contexts**, of which the interrupt runs to completion. -/
inductive Prog.Step (P : Prog σ π κ ω) : Two σ π → TwoEvent κ ω → Two σ π → Prop
  | threadCall {a b : σ} {k : κ} {p : π} : P.start .thread a k = some (b, p) →
      P.Step ⟨a, none, none⟩ (.call .thread k) ⟨b, some p, none⟩
  | irqCall {a b : σ} {t : Option π} {k : κ} {p : π} : P.start .irq a k = some (b, p) →
      P.Step ⟨a, t, none⟩ (.call .irq k) ⟨b, t, some p⟩
  | threadStep {a b : σ} {p : π} {q : Option π} {o : ω} : P.next .thread a p o = (b, q) →
      P.Step ⟨a, some p, none⟩ (.step .thread o) ⟨b, q, none⟩
  | irqStep {a b : σ} {t : Option π} {p : π} {q : Option π} {o : ω} : P.next .irq a p o = (b, q) →
      P.Step ⟨a, t, some p⟩ (.step .irq o) ⟨b, t, q⟩

/-- The step as a function; `none` where the event cannot happen. -/
def Prog.exec (P : Prog σ π κ ω) : Two σ π → TwoEvent κ ω → Option (Two σ π)
  | ⟨a, none, none⟩, .call .thread k => (P.start .thread a k).map fun r => ⟨r.1, some r.2, none⟩
  | ⟨a, t, none⟩, .call .irq k => (P.start .irq a k).map fun r => ⟨r.1, t, some r.2⟩
  | ⟨a, some p, none⟩, .step .thread o => some ⟨(P.next .thread a p o).1, (P.next .thread a p o).2, none⟩
  | ⟨a, t, some p⟩, .step .irq o => some ⟨(P.next .irq a p o).1, t, (P.next .irq a p o).2⟩
  | _, _ => none

variable {P : Prog σ π κ ω} {s t : Two σ π} {e : TwoEvent κ ω} {I : Two σ π → Prop}

/-- **The step rule for two contexts**: an obligation for each context and kind of step. -/
theorem Prog.Step.inv (h : P.Step s e t) (hs : I s)
    (threadCall : ∀ a b k p, P.start .thread a k = some (b, p) → I ⟨a, none, none⟩ → I ⟨b, some p, none⟩)
    (irqCall : ∀ a b t k p, P.start .irq a k = some (b, p) → I ⟨a, t, none⟩ → I ⟨b, t, some p⟩)
    (threadStep : ∀ a b p q o, P.next .thread a p o = (b, q) → s = ⟨a, some p, none⟩ →
      I ⟨a, some p, none⟩ → I ⟨b, q, none⟩)
    (irqStep : ∀ a b t p q o, P.next .irq a p o = (b, q) → I ⟨a, t, some p⟩ → I ⟨b, t, q⟩) : I t := by
  cases h with
  | threadCall h => exact threadCall _ _ _ _ h hs
  | irqCall h => exact irqCall _ _ _ _ _ h hs
  | threadStep h => exact threadStep _ _ _ _ _ h rfl hs
  | irqStep h => exact irqStep _ _ _ _ _ _ h hs

theorem Prog.step_of_exec (h : P.exec s e = some t) : P.Step s e t := by
  unfold Prog.exec at h
  split at h
  case h_1 =>
    obtain ⟨⟨b, p⟩, hst, rfl⟩ := Option.map_eq_some_iff.mp h
    exact .threadCall hst
  case h_2 =>
    obtain ⟨⟨b, p⟩, hst, rfl⟩ := Option.map_eq_some_iff.mp h
    exact .irqCall hst
  case h_3 =>
    obtain rfl := Option.some.inj h
    exact .threadStep rfl
  case h_4 =>
    obtain rfl := Option.some.inj h
    exact .irqStep rfl
  case h_5 => exact nomatch h

/-- An event leads to one state. -/
theorem Prog.Step.det {u : Two σ π} (h : P.Step s e t) (h' : P.Step s e u) : t = u := by
  cases h with
  | threadCall hst =>
    cases h' with
    | threadCall hst' =>
      obtain ⟨rfl, rfl⟩ := Prod.mk.inj (Option.some.inj (hst.symm.trans hst'))
      rfl
  | irqCall hst =>
    cases h' with
    | irqCall hst' =>
      obtain ⟨rfl, rfl⟩ := Prod.mk.inj (Option.some.inj (hst.symm.trans hst'))
      rfl
  | threadStep hst =>
    cases h' with
    | threadStep hst' =>
      obtain ⟨rfl, rfl⟩ := Prod.mk.inj (hst.symm.trans hst')
      rfl
  | irqStep hst =>
    cases h' with
    | irqStep hst' =>
      obtain ⟨rfl, rfl⟩ := Prod.mk.inj (hst.symm.trans hst')
      rfl

/-! ## Calls that are not cut in on -/

/-- What a call comes to if it is left alone, from where it stands. -/
structure Prog.Settles (P : Prog σ π κ ω) (settle : σ → π → σ) : Prop where
  goes : ∀ {c a p o b q}, P.next c a p o = (b, some q) → settle b q = settle a p
  returns : ∀ {c a p o b}, P.next c a p o = (b, none) → b = settle a p

/-- A call begins where none is under way, and where `C` allows it. -/
def Two.Alone (C : σ → κ → Prop) (s : Two σ π) : TwoEvent κ ω → Prop
  | .call _ k => s.Quiescent ∧ C s.shared k
  | .step .. => True

/-- The data once the call under way has returned. -/
def Two.settled (settle : σ → π → σ) (s : Two σ π) : σ :=
  (s.irq <|> s.thread).elim s.shared (settle s.shared)

/-- The call that is made, and by whom. -/
def TwoEvent.made : TwoEvent κ ω → Option (Ctx × κ)
  | .call c k => some (c, k)
  | .step .. => none

/-- A call that happens at once. -/
def Prog.AtOnce (P : Prog σ π κ ω) (settle : σ → π → σ) (C : σ → κ → Prop) (a : σ) (k : Ctx × κ) (b : σ) :
    Prop :=
  C a k.2 ∧ ∃ a' p, P.start k.1 a k.2 = some (a', p) ∧ b = settle a' p

theorem Two.settled_of_quiescent {settle : σ → π → σ} (h : s.Quiescent) : s.settled settle = s.shared := by
  unfold Two.settled
  rw [h.1, h.2]
  rfl

theorem Prog.Settles.keeps {settle : σ → π → σ} (h : P.Settles settle) {c : Ctx} {a b : σ} {p : π} {q : Option π}
    {o : ω} (hnext : P.next c a p o = (b, q)) : q.elim b (settle b) = settle a p := by
  cases q with
  | none => exact h.returns hnext
  | some q => exact h.goes hnext

/-- **Calls that are not cut in on happen at once.** -/
theorem Prog.Settles.run {settle : σ → π → σ} {C : σ → κ → Prop} {tr : List (TwoEvent κ ω)}
    (h : P.Settles settle) (hs : s.Quiescent) (hr : Run (fun s e t => P.Step s e t ∧ s.Alone C e) s tr t) :
    (t.thread = none ∨ t.irq = none) ∧
      Run (P.AtOnce settle C) s.shared (tr.filterMap TwoEvent.made) (t.settled settle) := by
  refine hr.inv_trace (I := fun tr t => (t.thread = none ∨ t.irq = none) ∧
    Run (P.AtOnce settle C) s.shared (tr.filterMap TwoEvent.made) (t.settled settle)) ?_ ?_
  · refine ⟨.inl hs.1, ?_⟩
    rw [Two.settled_of_quiescent hs]
    exact Run.nil
  · rintro tr t e u - ⟨hone, hrun⟩ ⟨hstep, halone⟩
    rw [List.filterMap_append]
    cases hstep with
    | threadCall hst => exact ⟨.inr rfl, hrun.snoc ⟨halone.2, _, _, hst, rfl⟩⟩
    | irqCall hst =>
      obtain ⟨⟨hthread, -⟩, hC⟩ := halone
      obtain rfl : _ = none := hthread
      exact ⟨.inl rfl, hrun.snoc ⟨hC, _, _, hst, rfl⟩⟩
    | @threadStep a b p q o hnext =>
      have hsettled : Two.settled settle ⟨b, q, none⟩ = settle a p := h.keeps hnext
      rw [hsettled]
      exact ⟨.inr rfl, (List.append_nil _).symm ▸ hrun⟩
    | @irqStep a b thread p q o hnext =>
      obtain rfl : thread = none := hone.resolve_right (Option.some_ne_none p)
      have hsettled : Two.settled settle ⟨b, none, q⟩ = settle a p := by
        cases q <;> exact h.keeps hnext
      rw [hsettled]
      exact ⟨.inl rfl, (List.append_nil _).symm ▸ hrun⟩

/-- The call of one context, with the other idle. -/
def Two.only (a : σ) (q : Option π) : Ctx → Two σ π
  | .thread => ⟨a, q, none⟩
  | .irq => ⟨a, none, q⟩

theorem Two.only_none {a : σ} {c : Ctx} : (Two.only a (none : Option π) c).Quiescent := by
  cases c <;> exact ⟨rfl, rfl⟩

/-- **A call that is left alone returns.** -/
theorem Prog.Settles.run_only {settle : σ → π → σ} (h : P.Settles settle) {left : π → Nat}
    (hleft : ∀ {c a p o b q}, P.next c a p o = (b, some q) → left q < left p) (C : σ → κ → Prop) (c : Ctx) (o : ω)
    (p : π) (a : σ) : ∃ n ≤ left p + 1, Run (fun s e t => P.Step s e t ∧ s.Alone C e)
      (.only a (some p) c) (List.replicate n (.step c o)) (.only (settle a p) none c) := by
  have hstep : ∀ {b q}, P.next c a p o = (b, q) → P.Step (.only a (some p) c) (.step c o) (.only b q c) ∧
      (Two.only a (some p) c).Alone C (.step c o) := by
    intro b q hnext
    refine ⟨?_, trivial⟩
    cases c with
    | thread => exact .threadStep hnext
    | irq => exact .irqStep hnext
  rcases hnext : P.next c a p o with ⟨b, _ | q⟩
  · obtain rfl := h.returns hnext
    exact ⟨1, Nat.le_add_left 1 _, Run.single (hstep hnext)⟩
  · have hlt : left q < left p := hleft hnext
    obtain ⟨n, hn, hrun⟩ := h.run_only hleft C c o q b
    rw [h.goes hnext] at hrun
    exact ⟨n + 1, by omega, Run.cons (hstep hnext) hrun⟩
termination_by left p

/-! ## Any interleaving -/

/-- Shared data and the calls in progress. -/
structure Many (σ π : Type) where
  shared : σ
  calls : List π

/-- What happens next: a call begins, or the one at `i` takes a step. -/
inductive ManyEvent (κ ω : Type) where
  | call (c : Ctx) (k : κ)
  | step (c : Ctx) (i : Nat) (o : ω)
  deriving Repr, DecidableEq

/-- **One step of any call in progress.** -/
inductive Prog.AnyStep (P : Prog σ π κ ω) : Many σ π → ManyEvent κ ω → Many σ π → Prop
  | call {a b : σ} {ps : List π} {c : Ctx} {k : κ} {p : π} : P.start c a k = some (b, p) →
      P.AnyStep ⟨a, ps⟩ (.call c k) ⟨b, p :: ps⟩
  | step {a b : σ} {l r : List π} {c : Ctx} {p : π} {q : Option π} {o : ω} : P.next c a p o = (b, q) →
      P.AnyStep ⟨a, l ++ p :: r⟩ (.step c l.length o) ⟨b, l ++ (q.toList ++ r)⟩

/-- The step as a function; `none` where the event cannot happen. -/
def Prog.execAny (P : Prog σ π κ ω) (s : Many σ π) : ManyEvent κ ω → Option (Many σ π)
  | .call c k => (P.start c s.shared k).map fun r => ⟨r.1, r.2 :: s.calls⟩
  | .step c i o => (s.calls[i]?).map fun p =>
    ⟨(P.next c s.shared p o).1,
      s.calls.take i ++ ((P.next c s.shared p o).2.toList ++ s.calls.drop (i + 1))⟩

theorem Prog.anyStep_of_exec {s t : Many σ π} {e : ManyEvent κ ω} (h : P.execAny s e = some t) :
    P.AnyStep s e t := by
  cases e with
  | call c k =>
    obtain ⟨⟨b, p⟩, hst, rfl⟩ := Option.map_eq_some_iff.mp h
    exact .call hst
  | step c i o =>
    obtain ⟨p, hp, rfl⟩ := Option.map_eq_some_iff.mp h
    obtain ⟨a, calls⟩ := s
    obtain ⟨hsplit, hlen⟩ := take_cons_drop hp
    have hstep := Prog.AnyStep.step (P := P) (l := calls.take i) (r := calls.drop (i + 1)) (c := c)
      (o := o) (a := a) (p := p) rfl
    rw [hlen, hsplit] at hstep
    exact hstep

/-- A sum over the calls in progress, of which one is replaced. -/
theorem Many.sum_replace {l r : List π} {p : π} {q : Option π} (f : π → Int) :
    ((l ++ (q.toList ++ r)).map f).sum = ((l ++ p :: r).map f).sum - f p + q.elim 0 f := by
  cases q with
  | none =>
    simp only [List.map_append, List.map_cons, List.sum_append, List.sum_cons, Option.toList_none,
      List.nil_append, Option.elim]
    omega
  | some q =>
    simp only [List.map_append, List.map_cons, List.sum_append, List.sum_cons, Option.toList_some,
      List.singleton_append, Option.elim]
    omega

/-- What holds of every call in progress, of which one is replaced. -/
theorem Many.forall_replace {l r : List π} {p : π} {q : Option π} {K : π → Prop}
    (h : ∀ x ∈ l ++ p :: r, K x) (hq : ∀ x ∈ q, K x) : ∀ x ∈ l ++ (q.toList ++ r), K x := by
  intro x hx
  obtain hx | hx := List.mem_append.mp hx
  · exact h x (List.mem_append_left _ hx)
  obtain hx | hx := List.mem_append.mp hx
  · exact hq x (Option.mem_toList.mp hx)
  · exact h x (List.mem_append_right _ (List.mem_cons_of_mem _ hx))

end MmHalow.Lib
