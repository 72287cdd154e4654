import MmHalow.Lib.Run
import Mathlib.Logic.Relation

/-!
# Code that asks, is interrupted and is called again while it waits

Calls `c : C` run one inside another: a call acts on shared data `σ` in atomic steps and asks its
environment for things (`q : Q`, with answers of the type `A q`); between two of its steps callbacks
`e : E` may cut in, and while an answer that `waits` is awaited further calls may be made, which
return before the answer comes. `Proc` is the code, `World` says what the calls, the questions and
the callbacks do, and `World.Step` is one step of all of it.

A `Spec` is what a proof assumes of the steps (`ok`) and shows. `Spec.wp κ l p s Q` says that the
code `p`, from data `s`, does what the specification asks and ends with `Q`, whatever cuts in.

* `Spec.wp_bind`, `wp_store`, `wp_load`, `wp_request`: the rules for code, each from an assertion that
  callbacks keep (`Steady`); `Triple` has the same rules for code wherever it is called.
* `Triple.ofWithin`: code of which every step keeps an assertion keeps it.
* `Proc.Follows`: code that does on other data what some code does, with `Follows.bind` for its parts.
* `Spec.Sound.run`: where every call meets the specification, every run does; `Sound.idle`,
  `Sound.guard`, `Sound.post` read it off. `oneAtATime` and `oneAtATime_sound` are the case of calls
  made one at a time.
* `World.play`: runs by evaluation.
-/

namespace MmHalow.Lib

/-! ## Code -/

/-- Code: it returns, acts on the data in one step and goes on with the data it found, or asks and
goes on with the answer. -/
inductive Proc (σ Q : Type) (A : Q → Type) (α : Type) where
  | ret (a : α)
  | act (f : σ → σ) (k : σ → Proc σ Q A α)
  | ask (q : Q) (k : A q → Proc σ Q A α)

namespace Proc

variable {σ Q α β : Type} {A : Q → Type}

/-- One piece of code after another. -/
protected def bind : Proc σ Q A α → (α → Proc σ Q A β) → Proc σ Q A β
  | ret a, g => g a
  | act f k, g => act f fun s => (k s).bind g
  | ask q k, g => ask q fun a => (k a).bind g

instance : Monad (Proc σ Q A) where
  pure := ret
  bind := Proc.bind

/-- An assignment. -/
def store (f : σ → σ) : Proc σ Q A Unit := act f fun _ => ret ()

/-- The value of an expression. -/
def load (g : σ → α) : Proc σ Q A α := act id fun s => ret (g s)

/-- A question to the environment. -/
def request (q : Q) : Proc σ Q A (A q) := ask q ret

/-! ### What code may do -/

variable {F F' : (σ → σ) → Prop} {G G' : Q → Prop}

/-- Every step that the code may take is one of `F`, and every question one of `G`. -/
def Within (F : (σ → σ) → Prop) (G : Q → Prop) : Proc σ Q A α → Prop
  | ret _ => True
  | act f k => F f ∧ ∀ s, (k s).Within F G
  | ask q k => G q ∧ ∀ a, (k a).Within F G

@[simp] theorem within_load {g : σ → α} :
    (load g : Proc σ Q A α).Within F G ↔ F id :=
  ⟨fun h => h.1, fun h => ⟨h, fun _ => trivial⟩⟩

@[simp] theorem within_store {f : σ → σ} : (store f : Proc σ Q A Unit).Within F G ↔ F f :=
  ⟨fun h => h.1, fun h => ⟨h, fun _ => trivial⟩⟩

@[simp] theorem within_request {q : Q} : (request q : Proc σ Q A (A q)).Within F G ↔ G q :=
  ⟨fun h => h.1, fun h => ⟨h, fun _ => trivial⟩⟩

theorem Within.bind {p : Proc σ Q A α} {g : α → Proc σ Q A β} (hp : p.Within F G)
    (hg : ∀ a, (g a).Within F G) : (p >>= g).Within F G := by
  change (p.bind g).Within F G
  induction p with
  | ret a => exact hg a
  | act f k ih => exact ⟨hp.1, fun s => ih s (hp.2 s)⟩
  | ask q k ih => exact ⟨hp.1, fun a => ih a (hp.2 a)⟩

theorem Within.ite {b : Prop} [Decidable b] {p p' : Proc σ Q A α} (hp : p.Within F G)
    (hp' : p'.Within F G) : (if b then p else p').Within F G := by
  split
  · exact hp
  · exact hp'

theorem Within.mono {p : Proc σ Q A α} (h : p.Within F G) (hF : ∀ f, F f → F' f)
    (hG : ∀ q, G q → G' q) : p.Within F' G' := by
  induction p with
  | ret a => trivial
  | act f k ih => exact ⟨hF f h.1, fun s => ih s (h.2 s)⟩
  | ask q k ih => exact ⟨hG q h.1, fun a => ih a (h.2 a)⟩

theorem within_of_forall {p : Proc σ Q A α} (hF : ∀ f, F f) (hG : ∀ q, G q) : p.Within F G := by
  induction p with
  | ret a => trivial
  | act f k ih => exact ⟨hF f, ih⟩
  | ask q k ih => exact ⟨hG q, ih⟩

/-! ### Code that does what other code does -/

variable {τ γ δ : Type} {S : σ → τ → Prop} {V : α → β → Prop} {V' : γ → δ → Prop}

/-- Both take the same steps, each on its own data, which `S` relates and stays related, ask the same
questions, and return what `V` relates. -/
inductive Follows (S : σ → τ → Prop) (V : α → β → Prop) : Proc σ Q A α → Proc τ Q A β → Prop
  | ret {a : α} {b : β} : V a b → Follows S V (ret a) (ret b)
  | act {f : σ → σ} {g : τ → τ} {k : σ → Proc σ Q A α} {m : τ → Proc τ Q A β} :
      (∀ s t, S s t → S (f s) (g t)) → (∀ s t, S s t → Follows S V (k s) (m t)) →
      Follows S V (act f k) (act g m)
  | ask {q : Q} {k : A q → Proc σ Q A α} {m : A q → Proc τ Q A β} :
      (∀ a, Follows S V (k a) (m a)) → Follows S V (ask q k) (ask q m)

theorem Follows.bind {p : Proc σ Q A α} {p' : Proc τ Q A β} {g : α → Proc σ Q A γ}
    {g' : β → Proc τ Q A δ} (h : Follows S V p p') (hg : ∀ a b, V a b → Follows S V' (g a) (g' b)) :
    Follows S V' (p >>= g) (p' >>= g') := by
  change Follows S V' (p.bind g) (p'.bind g')
  induction h with
  | ret hab => exact hg _ _ hab
  | act hS _ ih => exact .act hS ih
  | ask _ ih => exact .ask ih

theorem Follows.store {f : σ → σ} {g : τ → τ} (h : ∀ s t, S s t → S (f s) (g t)) :
    Follows S (Q := Q) (A := A) (fun _ _ => True) (store f) (store g) :=
  .act h fun _ _ _ => .ret trivial

theorem Follows.load {f : σ → α} {g : τ → β} (h : ∀ s t, S s t → V (f s) (g t)) :
    Follows S (Q := Q) (A := A) V (load f) (load g) :=
  .act (fun _ _ hst => hst) fun s t hst => .ret (h s t hst)

theorem Follows.request {q : Q} : Follows S Eq (request q : Proc σ Q A (A q)) (request q) :=
  .ask fun _ => .ret rfl

theorem Follows.ite {b b' : Prop} [Decidable b] [Decidable b'] {p₁ p₂ : Proc σ Q A α}
    {q₁ q₂ : Proc τ Q A β} (hb : b ↔ b') (h₁ : b → Follows S V p₁ q₁) (h₂ : ¬ b → Follows S V p₂ q₂) :
    Follows S V (if b then p₁ else p₂) (if b' then q₁ else q₂) := by
  by_cases h : b
  · rw [if_pos h, if_pos (hb.mp h)]
    exact h₁ h
  · rw [if_neg h, if_neg (mt hb.mpr h)]
    exact h₂ h

end Proc

/-! ## The system -/

/-- What calls, questions and callbacks do. -/
structure World (σ Q : Type) (A : Q → Type) (C E R : Type) where
  /-- The code of a call. -/
  body : C → Proc σ Q A R
  /-- What the data says of the number of calls in progress. -/
  atDepth : Nat → σ → σ
  /-- The effect of asking, and of the answer, in a call of `c`. -/
  enter : C → Q → σ → σ
  leave : C → (q : Q) → A q → σ → σ
  /-- Whether the answer can be given. -/
  answers : (q : Q) → A q → σ → Bool
  /-- Whether calls may be made before the answer comes. -/
  waits : Q → Bool
  /-- The effect of a callback. -/
  callback : E → σ → σ

/-- What a call has asked so far and what it was answered, last first. -/
structure Log (Q : Type) (A : Q → Type) where
  asked : List Q
  heard : List (Sigma A)

/-- Nothing has been asked. -/
def Log.empty {Q : Type} {A : Q → Type} : Log Q A := ⟨[], []⟩

/-- One more question. -/
def Log.ask {Q : Type} {A : Q → Type} (l : Log Q A) (q : Q) : Log Q A := { l with asked := q :: l.asked }

/-- One more answer. -/
def Log.hear {Q : Type} {A : Q → Type} (l : Log Q A) (q : Q) (a : A q) : Log Q A :=
  { l with heard := ⟨q, a⟩ :: l.heard }

/-- `l'` has what `l` has, and what it has besides is of `G`. -/
structure Log.Grows {Q : Type} {A : Q → Type} (G : Q → Prop) (l l' : Log Q A) : Prop where
  asked : ∀ q ∈ l'.asked, q ∈ l.asked ∨ G q
  heard : ∀ x ∈ l'.heard, x ∈ l.heard ∨ G x.1
  sub : l.asked ⊆ l'.asked

theorem Log.Grows.refl {Q : Type} {A : Q → Type} {G : Q → Prop} {l : Log Q A} : l.Grows G l :=
  ⟨fun _ h => .inl h, fun _ h => .inl h, fun _ h => h⟩

theorem Log.Grows.ask {Q : Type} {A : Q → Type} {G : Q → Prop} {l l' : Log Q A} {q : Q} {a : A q}
    (hq : G q) (h : ((l.ask q).hear q a).Grows G l') : l.Grows G l' where
  asked q' h' := by
    obtain h' | h' := h.asked q' h'
    · obtain rfl | h' := List.mem_cons.mp h'
      · exact .inr hq
      · exact .inl h'
    · exact .inr h'
  heard x h' := by
    obtain h' | h' := h.heard x h'
    · obtain rfl | h' := List.mem_cons.mp h'
      · exact .inr hq
      · exact .inl h'
    · exact .inr h'
  sub q' h' := h.sub (List.mem_cons_of_mem q h')

/-- A call in progress: the data it found and what it has asked so far. -/
structure Info (σ Q : Type) (A : Q → Type) (C : Type) where
  call : C
  entry : σ
  log : Log Q A

/-- Where a call stands. -/
inductive Code (σ Q : Type) (A : Q → Type) (R : Type) where
  | run (p : Proc σ Q A R)
  | inside (q : Q) (k : A q → Proc σ Q A R)

/-- A call in progress and where it stands. -/
structure Activation (σ Q : Type) (A : Q → Type) (C R : Type) where
  info : Info σ Q A C
  code : Code σ Q A R

/-- The data and the calls in progress, innermost first. -/
structure Config (σ Q : Type) (A : Q → Type) (C R : Type) where
  st : σ
  stack : List (Activation σ Q A C R)

/-- What happens next. -/
inductive Event (Q : Type) (A : Q → Type) (C E R : Type) where
  | call (c : C)
  | act
  | ask (q : Q)
  | answer (q : Q) (a : A q)
  | cb (e : E)
  | ret (c : C) (r : R)

variable {σ Q C E R α β : Type} {A : Q → Type}

/-- The calls in progress. -/
def Config.infos (x : Config σ Q A C R) : List (Info σ Q A C) := x.stack.map Activation.info

/-- No call is between two of its steps: none is in progress or the innermost one awaits an answer. -/
def Config.Settled (x : Config σ Q A C R) : Prop :=
  ∀ a ∈ x.stack.head?, ∃ q k, a.code = .inside q k

theorem Config.Settled.of_nil {x : Config σ Q A C R} (h : x.stack = []) : x.Settled := fun a ha => by
  rw [h] at ha
  exact nomatch ha

namespace World

variable (W : World σ Q A C E R)

/-- A call may be made where none is in progress or the innermost one waits. -/
def mayCall : List (Activation σ Q A C R) → Bool
  | [] => true
  | ⟨_, .inside q _⟩ :: _ => W.waits q
  | ⟨_, .run _⟩ :: _ => false

/-- **One step of the system.** -/
inductive Step : Config σ Q A C R → Event Q A C E R → Config σ Q A C R → Prop
  | call {s : σ} {as : List (Activation σ Q A C R)} {c : C} : W.mayCall as = true →
      Step ⟨s, as⟩ (.call c)
        ⟨W.atDepth (as.length + 1) s, ⟨⟨c, W.atDepth (as.length + 1) s, .empty⟩, .run (W.body c)⟩ :: as⟩
  | act {s : σ} {as : List (Activation σ Q A C R)} {i : Info σ Q A C} {f : σ → σ}
      {k : σ → Proc σ Q A R} :
      Step ⟨s, ⟨i, .run (.act f k)⟩ :: as⟩ .act ⟨f s, ⟨i, .run (k s)⟩ :: as⟩
  | ask {s : σ} {as : List (Activation σ Q A C R)} {i : Info σ Q A C} {q : Q} {k : A q → Proc σ Q A R} :
      Step ⟨s, ⟨i, .run (.ask q k)⟩ :: as⟩ (.ask q)
        ⟨W.enter i.call q s, ⟨{ i with log := i.log.ask q }, .inside q k⟩ :: as⟩
  | answer {s : σ} {as : List (Activation σ Q A C R)} {i : Info σ Q A C} {q : Q}
      {k : A q → Proc σ Q A R} {a : A q} : W.answers q a s = true →
      Step ⟨s, ⟨i, .inside q k⟩ :: as⟩ (.answer q a)
        ⟨W.leave i.call q a s, ⟨{ i with log := i.log.hear q a }, .run (k a)⟩ :: as⟩
  | cb {s : σ} {as : List (Activation σ Q A C R)} {e : E} :
      Step ⟨s, as⟩ (.cb e) ⟨W.callback e s, as⟩
  | ret {s : σ} {as : List (Activation σ Q A C R)} {i : Info σ Q A C} {r : R} :
      Step ⟨s, ⟨i, .run (.ret r)⟩ :: as⟩ (.ret i.call r) ⟨W.atDepth as.length s, as⟩

/-- The same system with calls made one at a time. -/
def alone : World σ Q A C E R := { W with waits := fun _ => false }

variable {W} in
theorem stack_of_mayCall {as : List (Activation σ Q A C R)} (h : W.alone.mayCall as = true) :
    as = [] := by
  cases as with
  | nil => rfl
  | cons a as =>
    obtain ⟨i, code⟩ := a
    cases code <;> exact nomatch h

variable {W} in
/-- There a call begins only where none is in progress. -/
theorem stack_of_call {x y : Config σ Q A C R} {c : C} (h : W.alone.Step x (.call c) y) :
    x.stack = [] := by
  cases h with
  | call h => exact stack_of_mayCall h

variable {W} in
/-- There no call is made in another. -/
theorem length_stack_le {s : σ} {x : Config σ Q A C R} {tr : List (Event Q A C E R)}
    (hr : Run W.alone.Step ⟨s, []⟩ tr x) : x.stack.length ≤ 1 :=
  hr.inv (I := fun x => x.stack.length ≤ 1) (Nat.zero_le 1) fun x e y hx hstep => by
    cases hstep with
    | @call s as c h =>
      obtain rfl := stack_of_mayCall h
      exact Nat.le_refl 1
    | act => exact hx
    | ask => exact hx
    | answer => exact hx
    | cb => exact hx
    | ret => exact Nat.le_of_succ_le hx

/-- The system as it is above `d` calls in progress. -/
def raised (d : Nat) : World σ Q A C E R := { W with atDepth := fun n => W.atDepth (n + d) }

variable {W} in
/-- **A step of calls that are made above others** is a step of the system above them. -/
theorem Step.above {s : σ} {as base : List (Activation σ Q A C R)} {e : Event Q A C E R}
    {y : Config σ Q A C R} (h : W.Step ⟨s, as ++ base⟩ e y) (has : as ≠ []) :
    ∃ as', y.stack = as' ++ base ∧ (W.raised base.length).Step ⟨s, as⟩ e ⟨y.st, as'⟩ := by
  cases as with
  | nil => exact absurd rfl has
  | cons a as =>
    rw [List.cons_append] at h
    cases h with
    | @call _ _ c hcall =>
      have hlen : (a :: (as ++ base)).length + 1 = (a :: as).length + 1 + base.length := by
        simp only [List.length_cons, List.length_append]
        omega
      rw [hlen]
      refine ⟨_ :: a :: as, rfl, .call (W := W.raised base.length) ?_⟩
      obtain ⟨i, code⟩ := a
      cases code <;> exact hcall
    | act => exact ⟨_ :: as, rfl, .act⟩
    | ask => exact ⟨_ :: as, rfl, .ask (W := W.raised base.length)⟩
    | answer ha => exact ⟨_ :: as, rfl, .answer (W := W.raised base.length) ha⟩
    | cb => exact ⟨a :: as, rfl, .cb (W := W.raised base.length)⟩
    | ret =>
      rw [List.length_append]
      exact ⟨as, rfl, .ret (W := W.raised base.length)⟩

/-- Callbacks that are `ok` where `is` are in progress lead from `s` to `t`. -/
def Calm (ok : List (Info σ Q A C) → σ → Event Q A C E R → Prop) (is : List (Info σ Q A C)) :
    σ → σ → Prop :=
  Relation.ReflTransGen fun s t => ∃ e, ok is s (.cb e) ∧ t = W.callback e s

variable {W} {ok : List (Info σ Q A C) → σ → Event Q A C E R → Prop} {is : List (Info σ Q A C)}
  {s t : σ}

theorem Calm.refl : W.Calm ok is s s := Relation.ReflTransGen.refl

theorem Calm.trans {u : σ} (h : W.Calm ok is s t) (h' : W.Calm ok is t u) : W.Calm ok is s u :=
  Relation.ReflTransGen.trans h h'

theorem Calm.single {e : E} (h : ok is s (.cb e)) : W.Calm ok is s (W.callback e s) :=
  Relation.ReflTransGen.single ⟨e, h, rfl⟩

theorem Calm.mono {ok' : List (Info σ Q A C) → σ → Event Q A C E R → Prop} (h : W.Calm ok is s t)
    (hok : ∀ s e, ok is s (.cb e) → ok' is s (.cb e)) : W.Calm ok' is s t := by
  induction h with
  | refl => exact .refl
  | tail _ hstep ih =>
    obtain ⟨e, he, rfl⟩ := hstep
    exact ih.trans (.single (hok _ e he))

/-- Callbacks that may cut in where `is` are in progress keep `P`. -/
theorem Calm.keep {P : σ → Prop} (h : W.Calm ok is s t)
    (hP : ∀ s e, ok is s (.cb e) → P s → P (W.callback e s)) (hs : P s) : P t := by
  induction h with
  | refl => exact hs
  | tail _ hstep ih =>
    obtain ⟨e, hok, rfl⟩ := hstep
    exact hP _ e hok ih

end World

/-! ## Specifications -/

/-- What a proof assumes of the steps (`ok`) and shows. -/
structure Spec (W : World σ Q A C E R) where
  /-- The steps that are considered, by the calls in progress and the data. -/
  ok : List (Info σ Q A C) → σ → Event Q A C E R → Prop
  /-- What the data may become before an awaited answer comes. -/
  during : List (Info σ Q A C) → σ → σ → Prop
  /-- Shown while an answer that waits is awaited. -/
  entry : List (Info σ Q A C) → σ → Prop
  /-- Shown where something is asked. -/
  guard : List (Info σ Q A C) → Q → σ → Prop
  /-- Shown where a call returns. -/
  post : Info σ Q A C → R → σ → Prop
  /-- Shown where no call is in progress. -/
  idle : σ → Prop

/-- The call that code belongs to, the data it found and the calls it was made in. -/
structure Around (σ Q : Type) (A : Q → Type) (C : Type) where
  call : C
  entry : σ
  below : List (Info σ Q A C)

/-- The calls in progress where the code has asked `l`. -/
def Around.infos (κ : Around σ Q A C) (l : Log Q A) : List (Info σ Q A C) :=
  ⟨κ.call, κ.entry, l⟩ :: κ.below

namespace Spec

variable {W : World σ Q A C E R} (S : Spec W)

/-- Callbacks lead from `s` to `t`. -/
abbrev Calm (is : List (Info σ Q A C)) : σ → σ → Prop := W.Calm S.ok is

/-- Callbacks keep `P`, whichever calls are in progress. -/
def Steady (P : σ → Prop) : Prop :=
  ∀ is s e, S.ok is s (.cb e) → P s → P (W.callback e s)

/-- Callbacks keep `P` where `is` are in progress. -/
def SteadyIn (is : List (Info σ Q A C)) (P : σ → Prop) : Prop :=
  ∀ s e, S.ok is s (.cb e) → P s → P (W.callback e s)

/-- What may happen before an answer comes keeps `P`. -/
def Patient (P : σ → Prop) : Prop := ∀ is s t, S.during is s t → P s → P t

variable {S} {is : List (Info σ Q A C)} {P P' : σ → Prop} {s t : σ}

theorem SteadyIn.calm (hP : S.SteadyIn is P) (h : S.Calm is s t) (hs : P s) : P t := h.keep hP hs

theorem Steady.calm (hP : S.Steady P) (h : S.Calm is s t) (hs : P s) : P t :=
  SteadyIn.calm (hP is) h hs

theorem Steady.and (hP : S.Steady P) (hP' : S.Steady P') : S.Steady fun s => P s ∧ P' s :=
  fun is s e hok h => ⟨hP is s e hok h.1, hP' is s e hok h.2⟩

variable (S)

/-- **The code does what the specification asks**, from `s` and having asked `l`, and ends with `Q`:
callbacks may cut in before every step, and the data may become what `during` allows before an
answer comes. -/
def wp (κ : Around σ Q A C) : Log Q A → Proc σ Q A α → σ → (Log Q A → α → σ → Prop) → Prop
  | l, .ret a, s, Q' => Q' l a s
  | l, .act f k, s, Q' => ∀ t, S.Calm (κ.infos l) s t → S.ok (κ.infos l) t .act →
      wp κ l (k t) (f t) Q'
  | l, .ask q k, s, Q' => ∀ t, S.Calm (κ.infos l) s t → S.ok (κ.infos l) t (.ask q) →
      S.guard (κ.infos l) q t ∧
      ∀ u, S.during (κ.infos (l.ask q)) (W.enter κ.call q t) u →
        (W.waits q = true → S.entry (κ.infos (l.ask q)) u) ∧
        ∀ a, W.answers q a u = true → S.ok (κ.infos (l.ask q)) u (.answer q a) →
          wp κ ((l.ask q).hear q a) (k a) (W.leave κ.call q a u) Q'

/-- The same where the call stands, which may be before an answer. -/
def wpCode (κ : Around σ Q A C) (l : Log Q A) : Code σ Q A R → σ → (Log Q A → R → σ → Prop) → Prop
  | .run p, s, Q' => S.wp κ l p s Q'
  | .inside q k, s, Q' => ∀ u, S.during (κ.infos l) s u →
      (W.waits q = true → S.entry (κ.infos l) u) ∧
      ∀ a, W.answers q a u = true → S.ok (κ.infos l) u (.answer q a) →
        S.wp κ (l.hear q a) (k a) (W.leave κ.call q a u) Q'

variable {S} {κ : Around σ Q A C} {l : Log Q A} {q : Q}

@[simp] theorem wp_pure {a : α} {Q' : Log Q A → α → σ → Prop} :
    S.wp κ l (pure a) s Q' ↔ Q' l a s := Iff.rfl

/-- Code in sequence. -/
theorem wp_bind {p : Proc σ Q A α} {g : α → Proc σ Q A β} {Q' : Log Q A → β → σ → Prop} :
    S.wp κ l (p >>= g) s Q' ↔ S.wp κ l p s fun l' a t => S.wp κ l' (g a) t Q' := by
  change S.wp κ l (p.bind g) s Q' ↔ _
  induction p generalizing l s with
  | ret a => exact Iff.rfl
  | act f k ih =>
    exact forall_congr' fun t => imp_congr_right fun _ => imp_congr_right fun _ => ih t
  | ask q k ih =>
    refine forall_congr' fun t => imp_congr_right fun _ => imp_congr_right fun _ =>
      and_congr_right fun _ => forall_congr' fun u => imp_congr_right fun _ =>
      and_congr_right fun _ => ?_
    exact forall_congr' fun a => imp_congr_right fun _ => imp_congr_right fun _ => ih a

/-- What is shown at the end may be weaker. -/
theorem wp_mono {p : Proc σ Q A α} {Q₁ Q₂ : Log Q A → α → σ → Prop} (h : S.wp κ l p s Q₁)
    (hQ : ∀ l a t, Q₁ l a t → Q₂ l a t) : S.wp κ l p s Q₂ := by
  induction p generalizing l s with
  | ret a => exact hQ _ _ _ h
  | act f k ih => exact fun t ht hok => ih t (h t ht hok)
  | ask q k ih =>
    intro t ht hok
    obtain ⟨hg, hd⟩ := h t ht hok
    exact ⟨hg, fun u hu => ⟨(hd u hu).1, fun a ha hok' => ih a ((hd u hu).2 a ha hok')⟩⟩

/-- What has been shown twice of code. -/
theorem wp_and {p : Proc σ Q A α} {Q₁ Q₂ : Log Q A → α → σ → Prop} (h₁ : S.wp κ l p s Q₁)
    (h₂ : S.wp κ l p s Q₂) : S.wp κ l p s fun l a t => Q₁ l a t ∧ Q₂ l a t := by
  induction p generalizing l s with
  | ret a => exact ⟨h₁, h₂⟩
  | act f k ih => exact fun t ht hok => ih t (h₁ t ht hok) (h₂ t ht hok)
  | ask q k ih =>
    intro t ht hok
    obtain ⟨hg, hd⟩ := h₁ t ht hok
    exact ⟨hg, fun u hu => ⟨(hd u hu).1, fun a ha hok' =>
      ih a ((hd u hu).2 a ha hok') (((h₂ t ht hok).2 u hu).2 a ha hok')⟩⟩

/-- Code only adds to what has been asked. -/
theorem wp_grows {p : Proc σ Q A α} {Q' : Log Q A → α → σ → Prop} (h : S.wp κ l p s Q') :
    S.wp κ l p s fun l' a t => Q' l' a t ∧ l.asked ⊆ l'.asked := by
  induction p generalizing l s with
  | ret a => exact ⟨h, fun _ h => h⟩
  | act f k ih => exact fun t ht hok => ih t (h t ht hok)
  | ask q k ih =>
    intro t ht hok
    obtain ⟨hg, hd⟩ := h t ht hok
    exact ⟨hg, fun u hu => ⟨(hd u hu).1, fun a ha hok' => wp_mono (ih a ((hd u hu).2 a ha hok'))
      fun _ _ _ h => ⟨h.1, fun q' hq' => h.2 (List.mem_cons_of_mem q hq')⟩⟩⟩

/-- Code in sequence, from what the first part is shown to end with. -/
theorem wp_seq {p : Proc σ Q A α} {g : α → Proc σ Q A β} {M : Log Q A → α → σ → Prop}
    {Q' : Log Q A → β → σ → Prop} (h : S.wp κ l p s M)
    (hQ : ∀ l a t, M l a t → S.wp κ l (g a) t Q') : S.wp κ l (p >>= g) s Q' :=
  wp_bind.mpr (wp_mono h hQ)

/-- Code that goes one of two ways. -/
theorem wp_ite {b : Prop} [Decidable b] {p p' : Proc σ Q A α} {Q' : Log Q A → α → σ → Prop}
    (h : b → S.wp κ l p s Q') (h' : ¬b → S.wp κ l p' s Q') :
    S.wp κ l (if b then p else p') s Q' := by
  split
  case isTrue hb => exact h hb
  case isFalse hb => exact h' hb

/-- What has been shown of code holds after callbacks, too. -/
theorem wp_calm {p : Proc σ Q A α} {Q' : Log Q A → α → σ → Prop} (h : S.wp κ l p s Q')
    (hst : S.Calm (κ.infos l) s t)
    (hQ : ∀ a, p = .ret a → Q' l a s → Q' l a t) : S.wp κ l p t Q' := by
  cases p with
  | ret a => exact hQ a rfl h
  | act f k => exact fun u hu => h u (hst.trans hu)
  | ask q k => exact fun u hu => h u (hst.trans hu)

/-! ### Rules

Each takes an assertion that callbacks keep where the code stands (`SteadyIn`), or everywhere. -/

theorem wp_store_in {f : σ → σ} {Q' : Log Q A → Unit → σ → Prop} (hP : S.SteadyIn (κ.infos l) P)
    (hs : P s) (h : ∀ t, P t → Q' l () (f t)) : S.wp κ l (.store f) s Q' :=
  fun t ht _ => h t (hP.calm ht hs)

theorem wp_load_in {g : σ → α} {Q' : Log Q A → α → σ → Prop} (hP : S.SteadyIn (κ.infos l) P)
    (hs : P s) (h : ∀ t, P t → Q' l (g t) t) : S.wp κ l (.load g) s Q' :=
  fun t ht _ => h t (hP.calm ht hs)

theorem wp_request_in {D : σ → Prop} {Q' : Log Q A → A q → σ → Prop}
    (hP : S.SteadyIn (κ.infos l) P) (hs : P s)
    (hguard : ∀ t, P t → S.ok (κ.infos l) t (.ask q) → S.guard (κ.infos l) q t)
    (hduring : ∀ t u, P t → S.during (κ.infos (l.ask q)) (W.enter κ.call q t) u → D u)
    (hentry : ∀ t, D t → W.waits q = true → S.entry (κ.infos (l.ask q)) t)
    (h : ∀ t a, D t → W.answers q a t = true → S.ok (κ.infos (l.ask q)) t (.answer q a) →
      Q' ((l.ask q).hear q a) a (W.leave κ.call q a t)) : S.wp κ l (.request q) s Q' := by
  intro t ht hok
  have hPt := hP.calm ht hs
  refine ⟨hguard t hPt hok, fun u hu => ?_⟩
  have hPu := hduring t u hPt hu
  exact ⟨hentry u hPu, fun a ha hok' => h u a hPu ha hok'⟩

/-- **The rule for an assignment.** -/
theorem wp_store {f : σ → σ} {Q' : Log Q A → Unit → σ → Prop} (hP : S.Steady P) (hs : P s)
    (h : ∀ t, P t → Q' l () (f t)) : S.wp κ l (.store f) s Q' :=
  wp_store_in (hP _) hs h

/-- **The rule for a value that is read.** -/
theorem wp_load {g : σ → α} {Q' : Log Q A → α → σ → Prop} (hP : S.Steady P) (hs : P s)
    (h : ∀ t, P t → Q' l (g t) t) : S.wp κ l (.load g) s Q' :=
  wp_load_in (hP _) hs h

/-- **The rule for a question**: `P` holds before it and `P'` while the answer is awaited. -/
theorem wp_request {Q' : Log Q A → A q → σ → Prop} (hP : S.Steady P) (hs : P s)
    (hguard : ∀ t, P t → S.ok (κ.infos l) t (.ask q) → S.guard (κ.infos l) q t)
    (hduring : ∀ t u, P t → S.during (κ.infos (l.ask q)) (W.enter κ.call q t) u → P' u)
    (hentry : ∀ t, P' t → W.waits q = true → S.entry (κ.infos (l.ask q)) t)
    (h : ∀ t a, P' t → W.answers q a t = true → S.ok (κ.infos (l.ask q)) t (.answer q a) →
      Q' ((l.ask q).hear q a) a (W.leave κ.call q a t)) : S.wp κ l (.request q) s Q' :=
  wp_request_in (hP _) hs hguard hduring hentry h

/-! ## Triples -/

variable (S) in
/-- Code of a call of `c` leads from `P` to `P'`, wherever the call is made. -/
def Triple (c : C) (P : σ → Prop) (p : Proc σ Q A α) (P' : α → σ → Prop) : Prop :=
  ∀ κ l s, κ.call = c → P s → S.wp κ l p s fun _ a t => P' a t

namespace Triple

variable {c : C} {p : Proc σ Q A α} {R' : α → σ → Prop}

theorem pure {a : α} (h : ∀ s, P s → R' a s) : S.Triple c P (pure a) R' :=
  fun _ _ s _ hs => h s hs

/-- Code in sequence. -/
theorem seq {M : α → σ → Prop} {g : α → Proc σ Q A β} {R : β → σ → Prop} (h : S.Triple c P p M)
    (hg : ∀ a, S.Triple c (M a) (g a) R) : S.Triple c P (p >>= g) R :=
  fun κ l s hc hs => wp_seq (h κ l s hc hs) fun l' a t ha => hg a κ l' t hc ha

theorem store {f : σ → σ} (hP : S.Steady P) (h : ∀ s, P s → P' (f s)) :
    S.Triple c P (.store f) fun _ => P' :=
  fun _ _ _ _ hs => wp_store hP hs h

theorem load {g : σ → α} (hP : S.Steady P) (h : ∀ s, P s → R' (g s) s) :
    S.Triple c P (.load g) R' :=
  fun _ _ _ _ hs => wp_load hP hs h

/-- A question: `D` holds while the answer is awaited. -/
theorem request {D : σ → Prop} {R' : A q → σ → Prop} (hP : S.Steady P) (hD : S.Patient D)
    (hguard : ∀ is s, P s → S.guard is q s) (henter : ∀ s, P s → D (W.enter c q s))
    (hentry : ∀ is s, D s → W.waits q = true → S.entry is s)
    (h : ∀ is a s, D s → W.answers q a s = true → S.ok is s (.answer q a) →
      R' a (W.leave c q a s)) : S.Triple c P (.request q) R' := by
  intro κ l s hc hs
  subst hc
  exact wp_request hP hs (fun t ht _ => hguard _ t ht)
    (fun t u ht hu => hD _ _ u hu (henter t ht)) (fun t ht => hentry _ t ht)
    fun t a ht ha hok => h _ a t ht ha hok

theorem ite {b : Prop} [Decidable b] {p' : Proc σ Q A α} (h : b → S.Triple c P p R')
    (h' : ¬ b → S.Triple c P p' R') : S.Triple c P (if b then p else p') R' := by
  split
  · exact h ‹_›
  · exact h' ‹_›

theorem mono {P₁ : σ → Prop} {R₁ : α → σ → Prop} (h : S.Triple c P p R') (hP : ∀ s, P₁ s → P s)
    (hR : ∀ a s, R' a s → R₁ a s) : S.Triple c P₁ p R₁ :=
  fun κ l s hc hs => wp_mono (h κ l s hc (hP s hs)) fun _ a t ha => hR a t ha

/-- What has been shown twice of code. -/
theorem and {D : σ → Prop} {K : α → σ → Prop} (h₁ : S.Triple c P p R') (h₂ : S.Triple c D p K) :
    S.Triple c (fun s => P s ∧ D s) p fun a s => R' a s ∧ K a s :=
  fun κ l s hc hs => wp_and (h₁ κ l s hc hs.1) (h₂ κ l s hc hs.2)

/-- A fact that does not depend on the data. -/
theorem of_and {φ : Prop} (h : φ → S.Triple c P p R') : S.Triple c (fun s => P s ∧ φ) p R' :=
  fun κ l s hc hs => h hs.2 κ l s hc hs.1

end Triple

/-! ## Code that keeps an assertion -/

/-- Of a question, that asking it and its answer keep `P`. -/
structure Unmoved (S : Spec W) (c : C) (P : σ → Prop) (q : Q) : Prop where
  guard : ∀ is s, P s → S.guard is q s
  enter : ∀ s, P s → P (W.enter c q s)
  leave : ∀ a s, P s → P (W.leave c q a s)
  entry : ∀ is s, P s → W.waits q = true → S.entry is s

/-- The same where the code stands. -/
structure UnmovedIn (S : Spec W) (κ : Around σ Q A C) (P : σ → Prop) (q : Q) : Prop where
  guard : ∀ l s, P s → S.guard (κ.infos l) q s
  enter : ∀ s, P s → P (W.enter κ.call q s)
  leave : ∀ a s, P s → P (W.leave κ.call q a s)
  entry : ∀ l s, P s → W.waits q = true → S.entry (κ.infos l) s

theorem Unmoved.within (h : S.Unmoved κ.call P q) : S.UnmovedIn κ P q :=
  ⟨fun l => h.guard (κ.infos l), h.enter, h.leave, fun l => h.entry (κ.infos l)⟩

/-- Code of which every step keeps an assertion keeps it, and asks only what it is made of; before an
answer comes, what may happen where the code stands is to keep it. -/
theorem wp_within_in {G : Q → Prop} {p : Proc σ Q A α}
    (h : p.Within (fun f => ∀ s, P s → P (f s)) fun q => S.UnmovedIn κ P q ∧ G q)
    (hP : ∀ l, S.SteadyIn (κ.infos l) P) (hP' : ∀ l s t, S.during (κ.infos l) s t → P s → P t)
    (hs : P s) : S.wp κ l p s fun l' _ t => P t ∧ l.Grows G l' := by
  induction p generalizing l s with
  | ret a => exact ⟨hs, .refl⟩
  | act f k ih => exact fun t ht _ => ih t (h.2 t) (h.1 t ((hP l).calm ht hs))
  | ask q k ih =>
    intro t ht _
    have hPt := (hP l).calm ht hs
    refine ⟨h.1.1.guard _ t hPt, fun u hu => ?_⟩
    have hPu := hP' _ _ u hu (h.1.1.enter t hPt)
    exact ⟨h.1.1.entry _ u hPu, fun a _ _ => wp_mono (ih a (h.2 a) (h.1.1.leave a u hPu))
      fun l' _ v hv => ⟨hv.1, .ask h.1.2 hv.2⟩⟩

/-- The same of an assertion that is kept wherever code stands. -/
theorem wp_within {G : Q → Prop} {p : Proc σ Q A α}
    (h : p.Within (fun f => ∀ s, P s → P (f s)) fun q => S.Unmoved κ.call P q ∧ G q)
    (hP : S.Steady P) (hP' : S.Patient P) (hs : P s) :
    S.wp κ l p s fun l' _ t => P t ∧ l.Grows G l' :=
  wp_within_in (h.mono (fun _ hf => hf) fun _ hq => ⟨hq.1.within, hq.2⟩) (fun l => hP (κ.infos l))
    (fun l => hP' (κ.infos l)) hs

/-- Nothing is asked of code and nothing shown. -/
theorem Triple.anything {c : C} {p : Proc σ Q A α} (h : ∀ q, S.Unmoved c (fun _ => True) q) :
    S.Triple c P p fun _ _ => True := by
  rintro κ l s rfl -
  induction p generalizing l s with
  | ret a => trivial
  | act f k ih => exact fun t _ _ => ih t l (f t)
  | ask q k ih =>
    exact fun t _ _ => ⟨(h q).guard _ t trivial, fun u _ =>
      ⟨(h q).entry _ u trivial, fun a _ _ => ih a _ _⟩⟩

/-- **Code of which every step keeps an assertion keeps it.** -/
theorem Triple.ofWithin {c : C} {p : Proc σ Q A α}
    (h : p.Within (fun f => ∀ s, P s → P (f s)) (S.Unmoved c P)) (hP : S.Steady P)
    (hP' : S.Patient P) : S.Triple c P p fun _ => P := by
  intro κ l s hc hs
  subst hc
  exact wp_mono (wp_within (G := fun _ => True) (h.mono (fun _ h => h) fun _ h => ⟨h, trivial⟩) hP hP' hs)
    fun _ _ _ h => h.1

/-! ## Runs -/

variable (S) in
/-- The call of `c`, made from `s` inside `is`, meets the specification and ends with `P`. -/
def Meets (is : List (Info σ Q A C)) (c : C) (s : σ) (P : σ → Prop) : Prop :=
  S.wp ⟨c, W.atDepth (is.length + 1) s, is⟩ .empty (W.body c) (W.atDepth (is.length + 1) s) fun l r t =>
    ∀ u, S.Calm (⟨c, W.atDepth (is.length + 1) s, l⟩ :: is) t u →
      S.post ⟨c, W.atDepth (is.length + 1) s, l⟩ r u ∧ P (W.atDepth is.length u)

variable (S) in
/-- Every call meets the specification: one made where none is in progress, and one made while
another waits. -/
structure Sound : Prop where
  idle_cb : ∀ s e, S.idle s → S.ok [] s (.cb e) → S.idle (W.callback e s)
  during_refl : ∀ is s, S.during is s s
  during_trans : ∀ is s t u, S.during is s t → S.during is t u → S.during is s u
  during_cb : ∀ is s e, S.ok is s (.cb e) → S.during is s (W.callback e s)
  first : ∀ c s, S.idle s → S.ok [] s (.call c) → S.Meets [] c s S.idle
  nested : ∀ c i is s, S.entry (i :: is) s → S.ok (i :: is) s (.call c) →
    S.Meets (i :: is) c s (S.during (i :: is) s)

variable (S) in
/-- A step that is considered. -/
def Step (x : Config σ Q A C R) (e : Event Q A C E R) (y : Config σ Q A C R) : Prop :=
  W.Step x e y ∧ S.ok x.infos x.st e

variable (S) in
/-- Every call in progress will do what the specification asks of the rest of it. -/
def StackOk : List (Activation σ Q A C R) → σ → Prop
  | [], s => S.idle s
  | a :: as, s => S.wpCode ⟨a.info.call, a.info.entry, as.map Activation.info⟩ a.info.log a.code s
      fun l r t => ∀ u, S.Calm (⟨a.info.call, a.info.entry, l⟩ :: as.map Activation.info) t u →
        S.post ⟨a.info.call, a.info.entry, l⟩ r u ∧ StackOk as (W.atDepth as.length u)

variable {as : List (Activation σ Q A C R)} {x y : Config σ Q A C R} {e : Event Q A C E R}
  {tr : List (Event Q A C E R)}

theorem StackOk.cb (hS : S.Sound) {e : E} (h : S.StackOk as s)
    (hok : S.ok (as.map Activation.info) s (.cb e)) : S.StackOk as (W.callback e s) := by
  cases as with
  | nil => exact hS.idle_cb s e h hok
  | cons a as =>
    obtain ⟨i, code⟩ := a
    cases code with
    | run p => exact wp_calm h (.single hok) fun _ _ hQ u hu => hQ u ((World.Calm.single hok).trans hu)
    | inside q k => exact fun u hu => h u (hS.during_trans _ _ _ u (hS.during_cb _ s e hok) hu)

/-- What a nested call does leaves the calls it was made in as they should be. -/
theorem StackOk.during (hS : S.Sound) {a : Activation σ Q A C R} (h : S.StackOk (a :: as) s)
    (hcall : W.mayCall (a :: as) = true)
    (hst : S.during ((a :: as).map Activation.info) s t) : S.StackOk (a :: as) t := by
  obtain ⟨i, code⟩ := a
  cases code with
  | run p => exact nomatch hcall
  | inside q k => exact fun u hu => h u (hS.during_trans _ _ _ u hst hu)

theorem StackOk.call (hS : S.Sound) {c : C} (h : S.StackOk as s) (hcall : W.mayCall as = true)
    (hok : S.ok (as.map Activation.info) s (.call c)) :
    S.StackOk (⟨⟨c, W.atDepth (as.length + 1) s, .empty⟩, .run (W.body c)⟩ :: as)
      (W.atDepth (as.length + 1) s) := by
  cases as with
  | nil => exact hS.first c s h hok
  | cons a as =>
    have hentry : S.entry ((a :: as).map Activation.info) s := by
      obtain ⟨i, code⟩ := a
      cases code with
      | run p => exact nomatch hcall
      | inside q k => exact (h s (hS.during_refl _ s)).1 hcall
    have hmeets := hS.nested c a.info (as.map Activation.info) s hentry hok
    unfold Meets at hmeets
    simp only [List.length_cons, List.length_map] at hmeets
    refine wp_mono hmeets fun l r t ht u hu => ?_
    obtain ⟨hpost, hd⟩ := ht u hu
    exact ⟨hpost, h.during hS hcall hd⟩

/-- One step keeps every call in progress as it should be. -/
theorem StackOk.step (hS : S.Sound) (h : S.StackOk x.stack x.st) (hstep : S.Step x e y) :
    S.StackOk y.stack y.st := by
  obtain ⟨hstep, hok⟩ := hstep
  cases hstep with
  | call hcall => exact h.call hS hcall hok
  | act => exact h _ .refl hok
  | ask => exact fun u hu => (h _ .refl hok).2 u hu
  | answer ha => exact (h _ (hS.during_refl _ _)).2 _ ha hok
  | cb => exact h.cb hS hok
  | ret => exact (h _ .refl).2

/-- **Where every call meets the specification, every run does.** -/
theorem Sound.run (hS : S.Sound) (h0 : S.idle s) (hr : Run S.Step ⟨s, []⟩ tr x) :
    S.StackOk x.stack x.st :=
  hr.inv (I := fun x => S.StackOk x.stack x.st) (show S.StackOk [] s from h0)
    fun _ _ _ h hstep => h.step hS hstep

/-- Where no call is in progress. -/
theorem Sound.idle (hS : S.Sound) (h0 : S.idle s) (hr : Run S.Step ⟨s, []⟩ tr x)
    (hx : x.stack = []) : S.idle x.st := by
  have h := hS.run h0 hr
  rw [hx] at h
  exact h

/-- Where something is asked. -/
theorem Sound.guard (hS : S.Sound) (h0 : S.idle s) (hr : Run S.Step ⟨s, []⟩ tr x)
    (hstep : S.Step x (.ask q) y) : S.guard x.infos q x.st := by
  have h := hS.run h0 hr
  obtain ⟨hstep, hok⟩ := hstep
  cases hstep with
  | ask => exact (h _ .refl hok).1

/-- Where a call returns. -/
theorem Sound.post (hS : S.Sound) {c : C} {r : R} (h0 : S.idle s) (hr : Run S.Step ⟨s, []⟩ tr x)
    (hstep : S.Step x (.ret c r) y) :
    ∃ i is, x.infos = i :: is ∧ i.call = c ∧ S.post i r x.st := by
  have h := hS.run h0 hr
  obtain ⟨hstep, -⟩ := hstep
  cases hstep with
  | @ret s as i r => exact ⟨i, as.map Activation.info, rfl, rfl, (h s .refl).1⟩

/-- A triple of a call's code, where callbacks keep what it ends with. -/
theorem Triple.meets {c : C} {P' : R → σ → Prop} {I : σ → Prop}
    (h : S.Triple c P (W.body c) P') (hP : P (W.atDepth (is.length + 1) s))
    (hP' : ∀ r, S.Steady (P' r))
    (hpost : ∀ l r t, P' r t → S.post ⟨c, W.atDepth (is.length + 1) s, l⟩ r t ∧
      I (W.atDepth is.length t)) : S.Meets is c s I :=
  wp_mono (h ⟨c, W.atDepth (is.length + 1) s, is⟩ .empty _ rfl hP) fun _ r _ ht u hu =>
    hpost _ r u ((hP' r).calm hu ht)

/-! ## Calls one at a time -/

/-- A specification of calls that are made one at a time. -/
def oneAtATime (W : World σ Q A C E R) (ok : List (Info σ Q A C) → σ → Event Q A C E R → Prop)
    (guard : List (Info σ Q A C) → Q → σ → Prop) (post : Info σ Q A C → R → σ → Prop)
    (idle : σ → Prop) : Spec W.alone where
  ok := ok
  during := W.alone.Calm ok
  entry := fun _ _ => False
  guard := guard
  post := post
  idle := idle

section alone

variable {ok : List (Info σ Q A C) → σ → Event Q A C E R → Prop}
  {guard : List (Info σ Q A C) → Q → σ → Prop} {post : Info σ Q A C → R → σ → Prop} {idle : σ → Prop}

/-- There nothing but callbacks happens before an answer comes. -/
theorem Steady.patient (h : (oneAtATime W ok guard post idle).Steady P) :
    (oneAtATime W ok guard post idle).Patient P :=
  fun _ _ _ ht hs => h.calm ht hs

/-- Every call meets the specification, which is to be shown of those made where none is in progress. -/
theorem oneAtATime_sound (idle_cb : ∀ s e, idle s → ok [] s (.cb e) → idle (W.callback e s))
    (first : ∀ c s, idle s → ok [] s (.call c) →
      (oneAtATime W ok guard post idle).Meets [] c s idle) :
    (oneAtATime W ok guard post idle).Sound where
  idle_cb := idle_cb
  during_refl _ _ := .refl
  during_trans _ _ _ _ h h' := h.trans h'
  during_cb _ _ _ h := .single h
  first := first
  nested _ _ _ _ h := h.elim

variable {ok' : List (Info σ Q A C) → σ → Event Q A C E R → Prop}

/-- What is shown of code for more steps. -/
theorem oneAtATime_wp_mono {Q' : Log Q A → α → σ → Prop} {p : Proc σ Q A α}
    (hok : ∀ l s e, ok (κ.infos l) s e → ok' (κ.infos l) s e)
    (h : (oneAtATime W ok' guard post idle).wp κ l p s Q') :
    (oneAtATime W ok guard post idle).wp κ l p s Q' := by
  have hcalm : ∀ {l s t}, W.alone.Calm ok (κ.infos l) s t → W.alone.Calm ok' (κ.infos l) s t := fun h =>
    h.mono fun s e he => hok _ s _ he
  induction p generalizing l s with
  | ret a => exact h
  | act f k ih => exact fun t ht hact => ih t (h t (hcalm ht) (hok _ _ _ hact))
  | ask q k ih =>
    intro t ht hask
    obtain ⟨hg, hd⟩ := h t (hcalm ht) (hok _ _ _ hask)
    exact ⟨hg, fun u hu => ⟨(hd u (hcalm hu)).1, fun a ha hans =>
      ih a ((hd u (hcalm hu)).2 a ha (hok _ _ _ hans))⟩⟩

/-- **A call that meets the specification for more steps of its own** meets it for fewer. -/
theorem oneAtATime_meets_mono {c : C} {I : σ → Prop}
    (hok : ∀ i s e, i.call = c → ok (i :: is) s e → ok' (i :: is) s e)
    (h : (oneAtATime W ok' guard post idle).Meets is c s I) :
    (oneAtATime W ok guard post idle).Meets is c s I := by
  refine wp_mono (oneAtATime_wp_mono (fun l t e he => hok _ t e rfl he) h) fun l r t ht u hu => ?_
  exact ht u (World.Calm.mono hu fun v e he => hok _ v _ rfl he)

/-- **Where no call is between two of its steps**, what is shown wherever something is asked, and where
no call is in progress, holds. -/
theorem oneAtATime_settled (hS : (oneAtATime W ok guard post idle).Sound)
    (hP : (oneAtATime W ok guard post idle).Steady P) (hidle : ∀ s, idle s → P s)
    (hguard : ∀ i is q s, guard (i :: is) q s → P (W.enter i.call q s)) (h0 : idle s)
    (hr : Run (oneAtATime W ok guard post idle).Step ⟨s, []⟩ tr x) (hx : x.Settled) : P x.st := by
  refine hr.inv_trace (I := fun _ x => x.Settled → P x.st) (fun _ => hidle s h0) ?_ hx
  intro tr x e y hr ih hstep hy
  have hrun {as : List (Activation σ Q A C R)} {i : Info σ Q A C}
      {p : Proc σ Q A R} {s : σ} (h : Config.Settled ⟨s, ⟨i, .run p⟩ :: as⟩) : False := by
    obtain ⟨q, k, h⟩ := h _ rfl
    exact nomatch h
  obtain ⟨hs, hok⟩ := hstep
  cases hs with
  | call => exact (hrun hy).elim
  | act => exact (hrun hy).elim
  | answer => exact (hrun hy).elim
  | ask => exact hguard _ _ _ _ (hS.guard h0 hr ⟨.ask, hok⟩)
  | cb => exact hP _ _ _ hok (ih hy)
  | @ret t as i r =>
    have hlen := World.length_stack_le (hr.mono fun _ _ _ h => h.1)
    obtain rfl : as = [] := List.length_eq_zero_iff.mp (Nat.le_zero.mp (Nat.le_of_succ_le_succ hlen))
    exact hidle _ (hS.idle h0 (hr.snoc ⟨.ret, hok⟩) rfl)

end alone

end Spec

/-! ## Runs by evaluation -/

/-- What happens to a system whose calls take their own steps at once. -/
inductive Cue (Q : Type) (A : Q → Type) (C E : Type) where
  | call (c : C)
  | answer (q : Q) (a : A q)
  | cb (e : E)

namespace World

variable (W : World σ Q A C E R) (ok : List (Info σ Q A C) → σ → Event Q A C E R → Bool)

/-- The steps of code up to the next question or the return, as far as they are all `ok`. -/
def settle (as : List (Activation σ Q A C R)) (i : Info σ Q A C) :
    Proc σ Q A R → σ → Option (List (Event Q A C E R) × Config σ Q A C R)
  | .ret r, s =>
    if ok (i :: as.map Activation.info) s (.ret i.call r) then
      some ([.ret i.call r], ⟨W.atDepth as.length s, as⟩)
    else none
  | .act f k, s =>
    if ok (i :: as.map Activation.info) s .act then
      (settle as i (k s) (f s)).map fun y => (.act :: y.1, y.2)
    else none
  | .ask q k, s =>
    if ok (i :: as.map Activation.info) s (.ask q) then
      some ([.ask q], ⟨W.enter i.call q s, ⟨{ i with log := i.log.ask q }, .inside q k⟩ :: as⟩)
    else none

variable [DecidableEq Q]

/-- What follows one cue. -/
def cue : Config σ Q A C R → Cue Q A C E → Option (List (Event Q A C E R) × Config σ Q A C R)
  | x, .call c =>
    if W.mayCall x.stack && ok x.infos x.st (.call c) then
      let s := W.atDepth (x.stack.length + 1) x.st
      (W.settle ok x.stack ⟨c, s, .empty⟩ (W.body c) s).map fun y => (.call c :: y.1, y.2)
    else none
  | ⟨s, ⟨i, .inside q k⟩ :: as⟩, .answer q' a =>
    if h : q' = q then
      if W.answers q' a s && ok (i :: as.map Activation.info) s (.answer q' a) then
        (W.settle ok as { i with log := i.log.hear q' a } (k (h ▸ a)) (W.leave i.call q' a s)).map
          fun y => (.answer q' a :: y.1, y.2)
      else none
    else none
  | _, .answer _ _ => none
  | x, .cb e => if ok x.infos x.st (.cb e) then some ([.cb e], ⟨W.callback e x.st, x.stack⟩) else none

/-- What follows one cue after another. -/
def play : Config σ Q A C R → List (Cue Q A C E) →
    Option (List (Event Q A C E R) × Config σ Q A C R)
  | x, [] => some ([], x)
  | x, c :: cs => (W.cue ok x c).bind fun y => (play y.2 cs).map fun z => (y.1 ++ z.1, z.2)

variable {W ok} {x y : Config σ Q A C R} {tr : List (Event Q A C E R)}

/-- The steps that are `ok`. -/
abbrev OkStep (W : World σ Q A C E R) (ok : List (Info σ Q A C) → σ → Event Q A C E R → Bool)
    (x : Config σ Q A C R) (e : Event Q A C E R) (y : Config σ Q A C R) : Prop :=
  W.Step x e y ∧ ok x.infos x.st e = true

omit [DecidableEq Q] in
theorem run_of_settle {as : List (Activation σ Q A C R)} {i : Info σ Q A C} {p : Proc σ Q A R} {s : σ}
    (h : W.settle ok as i p s = some (tr, y)) : Run (W.OkStep ok) ⟨s, ⟨i, .run p⟩ :: as⟩ tr y := by
  induction p generalizing s tr with
  | ret r =>
    unfold settle at h
    split at h
    case isTrue hok =>
      obtain ⟨rfl, rfl⟩ := Prod.mk.inj (Option.some.inj h)
      exact .single ⟨.ret, hok⟩
    case isFalse => exact nomatch h
  | act f k ih =>
    unfold settle at h
    split at h
    case isTrue hok =>
      obtain ⟨⟨tr', y'⟩, hk, heq⟩ := Option.map_eq_some_iff.mp h
      obtain ⟨rfl, rfl⟩ := Prod.mk.inj heq
      exact .cons ⟨.act, hok⟩ (ih s hk)
    case isFalse => exact nomatch h
  | ask q k =>
    unfold settle at h
    split at h
    case isTrue hok =>
      obtain ⟨rfl, rfl⟩ := Prod.mk.inj (Option.some.inj h)
      exact .single ⟨.ask, hok⟩
    case isFalse => exact nomatch h

theorem run_of_cue {c : Cue Q A C E} (h : W.cue ok x c = some (tr, y)) :
    Run (W.OkStep ok) x tr y := by
  unfold cue at h
  split at h
  case h_1 x c =>
    split at h
    case isTrue hok =>
      obtain ⟨hcall, hok⟩ := Bool.and_eq_true_iff.mp hok
      obtain ⟨⟨tr', y'⟩, hk, heq⟩ := Option.map_eq_some_iff.mp h
      obtain ⟨rfl, rfl⟩ := Prod.mk.inj heq
      exact .cons ⟨.call hcall, hok⟩ (run_of_settle hk)
    case isFalse => exact nomatch h
  case h_2 s i q k as q' a =>
    split at h
    case isTrue hq =>
      subst hq
      split at h
      case isTrue hok =>
        obtain ⟨ha, hok⟩ := Bool.and_eq_true_iff.mp hok
        obtain ⟨⟨tr', y'⟩, hk, heq⟩ := Option.map_eq_some_iff.mp h
        obtain ⟨rfl, rfl⟩ := Prod.mk.inj heq
        exact .cons ⟨.answer ha, hok⟩ (run_of_settle hk)
      case isFalse => exact nomatch h
    case isFalse => exact nomatch h
  case h_3 => exact nomatch h
  case h_4 x e =>
    split at h
    case isTrue hok =>
      obtain ⟨rfl, rfl⟩ := Prod.mk.inj (Option.some.inj h)
      exact .single ⟨.cb, hok⟩
    case isFalse => exact nomatch h

/-- **Runs by evaluation.** -/
theorem run_of_play {cs : List (Cue Q A C E)} (h : W.play ok x cs = some (tr, y)) :
    Run (W.OkStep ok) x tr y := by
  induction cs generalizing x tr with
  | nil =>
    obtain ⟨rfl, rfl⟩ := Prod.mk.inj (Option.some.inj h)
    exact .nil
  | cons c cs ih =>
    obtain ⟨⟨tr₁, x₁⟩, hc, h⟩ := Option.bind_eq_some_iff.mp h
    obtain ⟨⟨tr₂, x₂⟩, hcs, heq⟩ := Option.map_eq_some_iff.mp h
    obtain ⟨rfl, rfl⟩ := Prod.mk.inj heq
    exact (run_of_cue hc).trans (ih hcs)

/-- **Runs by evaluation**, to a configuration of which `p` holds. -/
theorem run_of_play_any (W : World σ Q A C E R)
    (ok : List (Info σ Q A C) → σ → Event Q A C E R → Bool) (x : Config σ Q A C R)
    (cs : List (Cue Q A C E)) (p : List (Event Q A C E R) × Config σ Q A C R → Bool)
    (h : (W.play ok x cs).any p = true) :
    ∃ tr y, Run (W.OkStep ok) x tr y ∧ p (tr, y) = true := by
  obtain ⟨⟨tr, y⟩, hplay, hp⟩ := (Option.any_eq_true p _).mp h
  exact ⟨tr, y, run_of_play hplay, hp⟩

/-- A run by evaluation, and another from where it leads. -/
theorem run_of_play_then (W : World σ Q A C E R)
    (ok ok' : List (Info σ Q A C) → σ → Event Q A C E R → Bool) (x : Config σ Q A C R)
    (cs cs' : List (Cue Q A C E)) (p : Config σ Q A C R → Config σ Q A C R → Bool)
    (h : (W.play ok x cs).any (fun r => (W.play ok' r.2 cs').any fun r' => p r.2 r'.2) = true) :
    ∃ tr y tr' z, Run (W.OkStep ok) x tr y ∧ Run (W.OkStep ok') y tr' z ∧ p y z = true := by
  obtain ⟨tr, y, hr, hy⟩ := run_of_play_any W ok x cs _ h
  obtain ⟨tr', z, hr', hz⟩ := run_of_play_any W ok' y cs' _ hy
  exact ⟨tr, y, tr', z, hr, hr', hz⟩

end World

end MmHalow.Lib
