import Mathlib.Data.List.Induction

/-!
# Labelled runs and their invariants

A system is a relation `step s e t`: from `s`, the event `e` may lead to `t`. `Run step s tr t`
says that the events `tr`, oldest first, lead from `s` to `t`.

* `Run.inv`: a property kept by every step holds at the end of every run.
* `Run.inv_trace`: the same for a property of the trace so far and the state.
* `Run.ofFold`, `Run.of_passes`: where events act by a function, evaluating it on a list of events gives a run
  and what holds of all its states.
* `Run.det`: there a trace leads to one state.
* `Run.split`: a run passes through a state after each prefix of its events.
* `Device.after_append`, `Device.answers_append`: a device that answers each symbol with one (a Mealy
  machine) reads a word that comes in two parts as one.
-/

namespace MmHalow.Lib

variable {σ ε : Type} {step : σ → ε → σ → Prop}

/-- The events `tr` lead from `s` to the state given last. -/
inductive Run (step : σ → ε → σ → Prop) (s : σ) : List ε → σ → Prop
  | nil : Run step s [] s
  | snoc {tr : List ε} {t u : σ} {e : ε} : Run step s tr t → step t e u → Run step s (tr ++ [e]) u

variable {s t u : σ} {tr : List ε} {e : ε}

/-- **The invariant rule with a trace**: what holds of the empty trace and is kept by one more
event holds of every run. -/
theorem Run.inv_trace {I : List ε → σ → Prop} (h0 : I [] s)
    (hstep : ∀ tr t e u, Run step s tr t → I tr t → step t e u → I (tr ++ [e]) u)
    (h : Run step s tr t) : I tr t := by
  induction h with
  | nil => exact h0
  | snoc hr hs ih => exact hstep _ _ _ _ hr ih hs

/-- **The invariant rule.** -/
theorem Run.inv {I : σ → Prop} (h0 : I s) (hstep : ∀ t e u, I t → step t e u → I u)
    (h : Run step s tr t) : I t :=
  h.inv_trace (I := fun _ t => I t) h0 fun _ t e u _ hi hs => hstep t e u hi hs

theorem Run.single (h : step s e t) : Run step s [e] t := Run.snoc Run.nil h

theorem Run.trans {tr' : List ε} (h : Run step s tr t) (h' : Run step t tr' u) :
    Run step s (tr ++ tr') u := by
  induction h' with
  | nil => simpa using h
  | snoc _ hs ih =>
    rw [← List.append_assoc]
    exact Run.snoc ih hs

/-- One more event in front. -/
theorem Run.cons {tr : List ε} (h : step s e t) (h' : Run step t tr u) :
    Run step s (e :: tr) u := (Run.single h).trans h'

/-- A run of one system is a run of another that makes the same steps from where runs lead. -/
theorem Run.strengthen {step' : σ → ε → σ → Prop}
    (hstep : ∀ tr t e u, Run step s tr t → step t e u → step' t e u) (h : Run step s tr t) :
    Run step' s tr t := by
  induction h with
  | nil => exact Run.nil
  | snoc hr hs ih => exact Run.snoc ih (hstep _ _ _ _ hr hs)

/-- A run of one system is a run of another that makes the same steps. -/
theorem Run.mono {step' : σ → ε → σ → Prop} (hstep : ∀ s e t, step s e t → step' s e t)
    (h : Run step s tr t) : Run step' s tr t :=
  h.strengthen fun _ t e u _ hs => hstep t e u hs

/-- **Runs by evaluation.** -/
theorem Run.ofFold {f : σ → ε → Option σ} (hf : ∀ s e t, f s e = some t → step s e t)
    (h : tr.foldlM f s = some t) : Run step s tr t := by
  induction tr generalizing s with
  | nil =>
    obtain rfl := Option.some.inj h
    exact Run.nil
  | cons e tr ih =>
    rw [List.foldlM_cons] at h
    cases he : f s e with
    | none => rw [he] at h; exact nomatch h
    | some u =>
      rw [he] at h
      exact Run.cons (hf s e u he) (ih h)

/-- **Runs by evaluation**, to a state of which `p` holds. -/
theorem Run.ofFold_any {f : σ → ε → Option σ} {p : σ → Bool}
    (hf : ∀ s e t, f s e = some t → step s e t) (h : (tr.foldlM f s).any p = true) :
    ∃ t, Run step s tr t ∧ p t = true := by
  obtain ⟨t, ht, hp⟩ := (Option.any_eq_true p _).mp h
  exact ⟨t, Run.ofFold hf ht, hp⟩

/-- Where events act by a function, a trace leads to one state. -/
theorem Run.det (hdet : ∀ s e t u, step s e t → step s e u → t = u) (ht : Run step s tr t)
    (hu : Run step s tr u) : t = u := by
  induction ht generalizing u with
  | nil =>
    generalize htr : ([] : List ε) = tr at hu
    cases hu with
    | nil => rfl
    | snoc => simp at htr
  | @snoc tr _ _ e _ hs ih =>
    generalize htr : tr ++ [e] = tr' at hu
    cases hu with
    | nil => simp at htr
    | snoc hr hs' =>
      obtain ⟨rfl, he⟩ := List.append_inj' htr rfl
      obtain rfl := List.singleton_inj.mp he
      obtain rfl := ih hr
      exact hdet _ _ _ _ hs hs'

/-- The state a run passes through after its first events. -/
theorem Run.split {tr₁ tr₂ : List ε} (h : Run step s (tr₁ ++ tr₂) u) :
    ∃ t, Run step s tr₁ t ∧ Run step t tr₂ u := by
  induction tr₂ using List.reverseRecOn generalizing u with
  | nil => exact ⟨u, by simpa using h, Run.nil⟩
  | append_singleton tr₂ e ih =>
    rw [← List.append_assoc] at h
    generalize htr : tr₁ ++ tr₂ ++ [e] = tr at h
    cases h with
    | nil => simp at htr
    | snoc hr hs =>
      obtain ⟨rfl, rfl⟩ := List.append_inj' htr rfl |>.imp id List.singleton_inj.mp
      obtain ⟨t, ht, hu⟩ := ih hr
      exact ⟨t, ht, Run.snoc hu hs⟩

/-- The step a run ends with. -/
theorem Run.unsnoc (h : Run step s tr u) (he : tr.getLast? = some e) :
    ∃ tr' t, Run step s tr' t ∧ step t e u := by
  cases h with
  | nil => exact nomatch he
  | @snoc tr' t _ e' hr hs =>
    rw [List.getLast?_concat] at he
    obtain rfl := Option.some.inj he
    exact ⟨tr', t, hr, hs⟩

/-- No event, no change. -/
theorem Run.of_nil (h : Run step s [] t) : t = s := by
  generalize htr : ([] : List ε) = tr at h
  cases h with
  | nil => rfl
  | snoc => simp at htr

/-- The step a run begins with. -/
theorem Run.uncons (h : Run step s (e :: tr) u) : ∃ t, step s e t ∧ Run step t tr u := by
  have h' : Run step s ([e] ++ tr) u := h
  obtain ⟨t, ht, hu⟩ := h'.split
  refine ⟨t, ?_, hu⟩
  generalize htr : [e] = tr₁ at ht
  cases ht with
  | nil => simp at htr
  | snoc hr hs =>
    obtain ⟨rfl, he⟩ := List.append_inj' (show [] ++ [e] = _ from htr) rfl
    obtain rfl := List.singleton_inj.mp he
    rw [← hr.of_nil]
    exact hs

/-- `p` at every state that the events pass. -/
def passes (f : σ → ε → Option σ) (p : σ → Bool) : σ → List ε → Bool
  | s, [] => p s
  | s, e :: tr => p s && (match f s e with
    | some t => passes f p t tr
    | none => true)

/-- **A property of all states of a run by evaluation.** -/
theorem Run.of_passes {f : σ → ε → Option σ} {p : σ → Bool} {tr₁ : List ε}
    (hf : ∀ s e t, step s e t → f s e = some t) (h : passes f p s tr = true) (hpre : tr₁ <+: tr)
    (hr : Run step s tr₁ t) : p t = true := by
  induction tr₁ generalizing s tr with
  | nil =>
    obtain rfl := hr.of_nil
    cases tr with
    | nil => exact h
    | cons e tr => exact (Bool.and_eq_true_iff.mp h).1
  | cons e tr₁ ih =>
    obtain ⟨u, hs, hu⟩ := hr.uncons
    cases tr with
    | nil => exact absurd (List.prefix_nil.mp hpre) (List.cons_ne_nil e tr₁)
    | cons e' tr =>
      obtain ⟨rfl, htail⟩ := List.cons_prefix_cons.mp hpre
      have hrest := (Bool.and_eq_true_iff.mp h).2
      rw [hf _ _ _ hs] at hrest
      exact ih hrest htail hu

/-- A list around its element at `i`, which is how a step of one of many is evaluated. -/
theorem take_cons_drop {α : Type} {xs : List α} {i : Nat} {a : α} (h : xs[i]? = some a) :
    xs.take i ++ a :: xs.drop (i + 1) = xs ∧ (xs.take i).length = i := by
  obtain ⟨hi, hget⟩ := List.getElem?_eq_some_iff.mp h
  refine ⟨?_, List.length_take_of_le (Nat.le_of_lt hi)⟩
  rw [← hget, List.getElem_cons_drop hi, List.take_append_drop]

/-! ## Devices that answer each symbol with one -/

/-- Its next state and what it answers. -/
abbrev Device (σ α β : Type) := σ → α → σ × β

namespace Device

variable {σ α β : Type} (M : Device σ α β)

/-- The state after the word. -/
def after (s : σ) : List α → σ
  | [] => s
  | x :: xs => after (M s x).1 xs

/-- The answers to it. -/
def answers (s : σ) : List α → List β
  | [] => []
  | x :: xs => (M s x).2 :: answers (M s x).1 xs

variable {M} {s : σ} {xs ys : List α}

theorem after_append : M.after s (xs ++ ys) = M.after (M.after s xs) ys := by
  induction xs generalizing s with
  | nil => rfl
  | cons x xs ih => exact ih

theorem answers_append : M.answers s (xs ++ ys) = M.answers s xs ++ M.answers (M.after s xs) ys := by
  induction xs generalizing s with
  | nil => rfl
  | cons x xs ih => exact congrArg ((M s x).2 :: ·) ih

@[simp] theorem length_answers : (M.answers s xs).length = xs.length := by
  induction xs generalizing s with
  | nil => rfl
  | cons x xs ih => exact congrArg (· + 1) ih

end Device

end MmHalow.Lib
