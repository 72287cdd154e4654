import MmHalow.Lib.Proc
import Mathlib.Data.List.Forall2

/-!
# History variables

What a run has been like can be kept beside its data: a `History` says how a value `γ` follows the
questions, the answers and the callbacks of a run, and `World.recording` is the system that carries
it along. It does what the system does (`Run.recording`), so a specification of it speaks of data and
history at once, and what it shows of runs is shown of the system's own.

* `Proc.beside`: code that leaves the history alone, with `beside_bind` and `Within.beside` for its
  parts.
* `Run.recording`: **every run has a recording**, in which the history is `History.after` its events.
* `Spec.Sound.entry`: what a specification shows where a call may be made.
-/

namespace MmHalow.Lib

variable {σ γ Q C E R α β : Type} {A : Q → Type}

/-! ## Code beside a history -/

/-- The code leaves the second half of the data alone. -/
def Proc.beside (γ : Type) : Proc σ Q A α → Proc (σ × γ) Q A α
  | .ret a => .ret a
  | .act f k => .act (Prod.map f id) fun s => (k s.1).beside γ
  | .ask q k => .ask q fun a => (k a).beside γ

namespace Proc

@[simp] theorem beside_pure {a : α} : (pure a : Proc σ Q A α).beside γ = pure a := rfl

@[simp] theorem beside_store {f : σ → σ} :
    (store f : Proc σ Q A Unit).beside γ = store (Prod.map f id) := rfl

@[simp] theorem beside_load {g : σ → α} :
    (load g : Proc σ Q A α).beside γ = load fun s => g s.1 := rfl

@[simp] theorem beside_request {q : Q} : (request q : Proc σ Q A (A q)).beside γ = request q := rfl

/-- Code in sequence. -/
@[simp] theorem beside_bind {p : Proc σ Q A α} {g : α → Proc σ Q A β} :
    (p >>= g).beside γ = p.beside γ >>= fun a => (g a).beside γ := by
  change (p.bind g).beside γ = (p.beside γ).bind fun a => (g a).beside γ
  induction p with
  | ret a => rfl
  | act f k ih => exact congrArg (act _) (funext fun s => ih s.1)
  | ask q k ih => exact congrArg (ask q) (funext fun a => ih a)

/-- It may do beside a history what it may do alone. -/
theorem Within.beside {F : (σ → σ) → Prop} {G : Q → Prop} {F' : (σ × γ → σ × γ) → Prop}
    {p : Proc σ Q A α} (h : p.Within F G) (hF : ∀ f, F f → F' (Prod.map f id)) :
    (p.beside γ).Within F' G := by
  induction p with
  | ret a => trivial
  | act f k ih => exact ⟨hF f h.1, fun s => ih s.1 (h.2 s.1)⟩
  | ask q k ih => exact ⟨h.1, fun a => ih a (h.2 a)⟩

end Proc

/-! ## Recordings -/

/-- How a history follows what happens. -/
structure History (Q : Type) (A : Q → Type) (E γ : Type) where
  answer : (q : Q) → A q → γ → γ
  callback : E → γ → γ

/-- What one event adds. -/
def History.note (H : History Q A E γ) : Event Q A C E R → γ → γ
  | .answer q a => H.answer q a
  | .cb e => H.callback e
  | _ => id

/-- **The history after some events**, from `g`. -/
def History.after (H : History Q A E γ) (g : γ) (tr : List (Event Q A C E R)) : γ :=
  tr.foldl (fun g e => H.note e g) g

theorem History.after_snoc {H : History Q A E γ} {g : γ} {tr : List (Event Q A C E R)}
    {e : Event Q A C E R} : H.after g (tr ++ [e]) = H.note e (H.after g tr) := by
  simp [History.after, List.foldl_append]

/-- The system with its history. -/
def World.recording (W : World σ Q A C E R) (H : History Q A E γ) : World (σ × γ) Q A C E R where
  body c := (W.body c).beside γ
  atDepth n := Prod.map (W.atDepth n) id
  enter c q := Prod.map (W.enter c q) id
  leave c q a := Prod.map (W.leave c q a) (H.answer q a)
  answers q a s := W.answers q a s.1
  waits := W.waits
  callback e := Prod.map (W.callback e) (H.callback e)

/-- A call in progress, without the history it found. -/
def Info.alone (i : Info (σ × γ) Q A C) : Info σ Q A C := ⟨i.call, i.entry.1, i.log⟩

/-- The code stands where the other does. -/
inductive Code.Beside : Code σ Q A R → Code (σ × γ) Q A R → Prop
  | run {p : Proc σ Q A R} : Beside (.run p) (.run (p.beside γ))
  | inside {q : Q} {k : A q → Proc σ Q A R} : Beside (.inside q k) (.inside q fun a => (k a).beside γ)

/-- The call stands where the other does. -/
structure Activation.Beside (a : Activation σ Q A C R) (a' : Activation (σ × γ) Q A C R) : Prop where
  info : a'.info.alone = a.info
  code : a.code.Beside a'.code

/-- The recording stands where the system does, with the history `g`. -/
structure Config.Beside (g : γ) (x : Config σ Q A C R) (y : Config (σ × γ) Q A C R) : Prop where
  st : y.st = (x.st, g)
  stack : List.Forall₂ Activation.Beside x.stack y.stack

variable {W : World σ Q A C E R} {H : History Q A E γ} {g : γ}

/-- The same calls are in progress. -/
theorem Config.Beside.infos {x : Config σ Q A C R} {y : Config (σ × γ) Q A C R} (h : x.Beside g y) :
    y.infos.map Info.alone = x.infos := by
  have hinfos {as : List (Activation σ Q A C R)} {as' : List (Activation (σ × γ) Q A C R)}
      (has : List.Forall₂ Activation.Beside as as') :
      (as'.map Activation.info).map Info.alone = as.map Activation.info := by
    induction has with
    | nil => rfl
    | cons ha _ ih => exact congrArg₂ List.cons ha.info ih
  exact hinfos h.stack

theorem mayCall_beside {as : List (Activation σ Q A C R)} {as' : List (Activation (σ × γ) Q A C R)}
    (h : List.Forall₂ Activation.Beside as as') : (W.recording H).mayCall as' = W.mayCall as := by
  cases h with
  | nil => rfl
  | @cons a a' _ _ ha _ =>
    obtain ⟨i, code⟩ := a
    obtain ⟨i', code'⟩ := a'
    cases ha.code with
    | run => rfl
    | inside => rfl

/-- **The recording takes the steps of the system.** -/
theorem World.Step.recording {x x' : Config σ Q A C R} {y : Config (σ × γ) Q A C R}
    {e : Event Q A C E R} (hs : W.Step x e x') (h : x.Beside g y) :
    ∃ y', (W.recording H).Step y e y' ∧ x'.Beside (H.note e g) y' := by
  obtain ⟨hst, hstack⟩ := h
  obtain ⟨st, stack⟩ := y
  obtain rfl : st = (x.st, g) := hst
  cases hs with
  | @call s as c hcall =>
    have hlen : as.length = stack.length := List.Forall₂.length_eq hstack
    refine ⟨_, .call (W := W.recording H) ((mayCall_beside hstack).trans hcall), ?_, ?_⟩
    · exact congrArg (fun n => (W.atDepth (n + 1) s, g)) hlen.symm
    · rw [← hlen]
      exact .cons ⟨rfl, .run⟩ hstack
  | act =>
    obtain _ | ⟨⟨hi, hcode⟩, has⟩ := hstack
    rename_i a' _
    obtain ⟨i', code'⟩ := a'
    cases hcode with
    | run => exact ⟨_, .act (W := W.recording H), rfl, .cons ⟨hi, .run⟩ has⟩
  | ask =>
    obtain _ | ⟨⟨hi, hcode⟩, has⟩ := hstack
    rename_i a' _
    obtain ⟨i', code'⟩ := a'
    obtain rfl := hi
    cases hcode with
    | run => exact ⟨_, .ask (W := W.recording H), rfl, .cons ⟨rfl, .inside⟩ has⟩
  | answer ha =>
    obtain _ | ⟨⟨hi, hcode⟩, has⟩ := hstack
    rename_i a' _
    obtain ⟨i', code'⟩ := a'
    obtain rfl := hi
    cases hcode with
    | inside => exact ⟨_, .answer (W := W.recording H) ha, rfl, .cons ⟨rfl, .run⟩ has⟩
  | cb => exact ⟨_, .cb (W := W.recording H), rfl, hstack⟩
  | @ret s as i r =>
    obtain _ | ⟨⟨hi, hcode⟩, has⟩ := hstack
    rename_i a' _
    obtain ⟨i', code'⟩ := a'
    obtain rfl := hi
    cases hcode with
    | run =>
      refine ⟨_, .ret (W := W.recording H), ?_, has⟩
      exact congrArg (fun n => (W.atDepth n s, g)) (List.Forall₂.length_eq has).symm

/-- **Every run has a recording**, in which the history is what its events make it. -/
theorem Run.recording (H : History Q A E γ) (g : γ)
    (ok : List (Info σ Q A C) → σ → Event Q A C E R → Prop) {s : σ} {tr : List (Event Q A C E R)}
    {x : Config σ Q A C R}
    (h : Run (fun x e y => W.Step x e y ∧ ok x.infos x.st e) ⟨s, []⟩ tr x) :
    ∃ y, Run (fun x e y => (W.recording H).Step x e y ∧ ok (x.infos.map Info.alone) x.st.1 e)
      ⟨(s, g), []⟩ tr y ∧ x.Beside (H.after g tr) y := by
  induction h with
  | nil => exact ⟨_, .nil, rfl, .nil⟩
  | snoc _ hstep ih =>
    obtain ⟨y, hy, hb⟩ := ih
    obtain ⟨y', hs', hb'⟩ := hstep.1.recording (H := H) hb
    refine ⟨y', hy.snoc ⟨hs', ?_⟩, History.after_snoc ▸ hb'⟩
    rw [hb.infos, hb.st]
    exact hstep.2

/-- Code in sequence, beside a history. -/
theorem Spec.wp_beside_seq {V : World (σ × γ) Q A C E R} {S : Spec V} {κ : Around (σ × γ) Q A C}
    {l : Log Q A} {s : σ × γ} {p : Proc σ Q A α} {k : α → Proc σ Q A β}
    {M : Log Q A → α → σ × γ → Prop} {Q' : Log Q A → β → σ × γ → Prop}
    (h : S.wp κ l (p.beside γ) s M) (hk : ∀ l a t, M l a t → S.wp κ l ((k a).beside γ) t Q') :
    S.wp κ l ((p >>= k).beside γ) s Q' := by
  rw [Proc.beside_bind]
  exact Spec.wp_seq h hk

/-- What is shown where calls may be made inside another. -/
theorem Spec.Sound.entry {S : Spec W} {s : σ} {tr : List (Event Q A C E R)} {x : Config σ Q A C R}
    (hS : S.Sound) (h0 : S.idle s) (hr : Run S.Step ⟨s, []⟩ tr x) (hx : x.stack ≠ [])
    (hcall : W.mayCall x.stack = true) : S.entry x.infos x.st := by
  have h := hS.run h0 hr
  obtain ⟨st, stack⟩ := x
  cases stack with
  | nil => exact absurd rfl hx
  | cons a as =>
    obtain ⟨i, code⟩ := a
    cases code with
    | run p => exact nomatch hcall
    | inside q k => exact (h st (hS.during_refl _ st)).1 hcall

end MmHalow.Lib
