import MmHalow.Lib.Proc

/-!
# Calls that take effect before they ask

Calls run one inside another and callbacks cut in (`Lib.Proc`). Where a call has done all it does to
some part of the data by the time it first asks for something, that part goes as if calls were made
one after another.

* `Proc.Brings`: code that has brought what `obs` sees to its place before it asks.
* `World.Commits`: every call does, and nothing else moves it.
* `World.Commits.settled`: **in every run what `obs` sees is what the calls made so far make of it, one
  after another**, wherever no call is between two of its steps.
-/

namespace MmHalow.Lib

variable {σ Q α β C E R V : Type} {A : Q → Type} {obs : σ → V} {v w : V}

namespace Proc

/-- No step of the code moves what `obs` sees. -/
abbrev Keeps (obs : σ → V) (p : Proc σ Q A α) : Prop :=
  p.Within (fun f => ∀ s, obs (f s) = obs s) fun _ => True

/-- From data of which `obs` sees the value given last, it sees `w` once the code asks for the first
time or returns, and from then on. -/
def Brings (obs : σ → V) (w : V) : Proc σ Q A α → V → Prop
  | ret _, v => v = w
  | act f k, v => ∀ s, obs s = v → (k s).Brings obs w (obs (f s))
  | ask _ k, v => v = w ∧ ∀ a, (k a).Keeps obs

theorem Keeps.brings {p : Proc σ Q A α} (h : p.Keeps obs) : p.Brings obs v v := by
  induction p with
  | ret a => rfl
  | act f k ih =>
    intro s hs
    rw [h.1 s, hs]
    exact ih s (h.2 s)
  | ask q k => exact ⟨rfl, h.2⟩

theorem brings_store {f : σ → σ} {g : Unit → Proc σ Q A β}
    (h : ∀ s, obs s = v → (g ()).Brings obs w (obs (f s))) : (store f >>= g).Brings obs w v := h

theorem brings_load {f : σ → α} {g : α → Proc σ Q A β}
    (h : ∀ s, obs s = v → (g (f s)).Brings obs w v) : (load f >>= g).Brings obs w v :=
  fun s hs => hs ▸ h s hs

end Proc

namespace World

variable {W : World σ Q A C E R} {eff : C → V → V} {s t : σ} {x y : Config σ Q A C R}
  {e : Event Q A C E R} {tr : List (Event Q A C E R)}

/-- **Every call of `c` does `eff c` before it asks**, and nothing else moves what `obs` sees. -/
structure Commits (W : World σ Q A C E R) (obs : σ → V) (eff : C → V → V) : Prop where
  body : ∀ c v, (W.body c).Brings obs (eff c v) v
  atDepth : ∀ n s, obs (W.atDepth n s) = obs s
  enter : ∀ c q s, obs (W.enter c q s) = obs s
  leave : ∀ c q a s, obs (W.leave c q a s) = obs s
  callback : ∀ e s, obs (W.callback e s) = obs s

/-- The call that an event makes. -/
def callOf : Event Q A C E R → Option C
  | .call c => some c
  | _ => none

/-- What the calls of a trace do, one after another. -/
def effects (eff : C → V → V) (tr : List (Event Q A C E R)) (v : V) : V :=
  (tr.filterMap callOf).foldl (fun v c => eff c v) v

theorem effects_snoc : effects eff (tr ++ [e]) v =
    match callOf e with
    | some c => eff c (effects eff tr v)
    | none => effects eff tr v := by
  unfold effects
  rw [List.filterMap_append, List.foldl_append]
  cases h : callOf e with
  | none => rw [List.filterMap_cons_none h]; rfl
  | some c => rw [List.filterMap_cons_some h]; rfl

/-- What the last call of a trace that sets it has set. -/
def lastSet {δ : Type} (f : C → Option δ) (tr : List (Event Q A C E R)) : Option δ :=
  ((tr.filterMap callOf).filterMap f).getLast?

/-- **What some calls set and others leave is what the last of them has set.** -/
theorem get_effects {γ δ : Type} (get : V → γ) {f : C → Option δ} {norm : δ → γ}
    (h : ∀ c v, get (eff c v) = ((f c).map norm).getD (get v)) (tr : List (Event Q A C E R)) (v : V) :
    get (effects eff tr v) = ((lastSet f tr).map norm).getD (get v) := by
  unfold effects lastSet
  induction tr.filterMap callOf using List.reverseRecOn with
  | nil => rfl
  | append_singleton cs c ih =>
    rw [List.foldl_append, List.filterMap_append]
    show get (eff c _) = _
    rw [h, ih]
    cases hc : f c with
    | none => rw [List.filterMap_cons_none hc, List.filterMap_nil, List.append_nil]; rfl
    | some d => rw [List.filterMap_cons_some hc, List.filterMap_nil, List.getLast?_concat]; rfl

/-- A call that waits goes on with code that keeps. -/
def Rests (obs : σ → V) (a : Activation σ Q A C R) : Prop :=
  match a.code with
  | .run _ => False
  | .inside _ k => ∀ a, (k a).Keeps obs

/-- Where the innermost call stands: `w` is what it brings `obs` to. -/
def Nears (obs : σ → V) (w v : V) : List (Activation σ Q A C R) → Prop
  | [] => v = w
  | ⟨_, .run p⟩ :: as => p.Brings obs w v ∧ ∀ a ∈ as, Rests obs a
  | as => v = w ∧ ∀ a ∈ as, Rests obs a

/-- Calls that rest have it there. -/
theorem Nears.of_rests {as : List (Activation σ Q A C R)} (h : ∀ a ∈ as, Rests obs a) :
    Nears obs w w as := by
  cases as with
  | nil => rfl
  | cons a as =>
    obtain ⟨i, code⟩ := a
    cases code with
    | run p => exact False.elim (h _ List.mem_cons_self)
    | inside q k => exact ⟨rfl, h⟩

/-- A callback moves nothing. -/
theorem Nears.settled {as : List (Activation σ Q A C R)} (h : Nears obs w v as)
    (hx : ∀ a ∈ as.head?, ∃ q k, a.code = .inside q k) : v = w := by
  cases as with
  | nil => exact h
  | cons a as =>
    obtain ⟨i, code⟩ := a
    cases code with
    | run p =>
      obtain ⟨q, k, hcode⟩ := hx _ rfl
      exact nomatch hcode
    | inside q k => exact h.1

/-- **A step keeps it**, with one more call where it makes one. -/
theorem Commits.step (hW : W.Commits obs eff) (h : Nears obs w (obs x.st) x.stack) (hs : W.Step x e y) :
    Nears obs (match callOf e with
      | some c => eff c w
      | none => w) (obs y.st) y.stack := by
  cases hs with
  | @call s as c hcall =>
    have hrests : obs s = w ∧ ∀ a ∈ as, Rests obs a := by
      cases as with
      | nil => exact ⟨h, fun a ha => absurd ha List.not_mem_nil⟩
      | cons a as =>
        obtain ⟨i, code⟩ := a
        cases code with
        | run p => exact absurd hcall Bool.false_ne_true
        | inside q k => exact h
    refine ⟨?_, hrests.2⟩
    rw [hW.atDepth, hrests.1]
    exact hW.body c w
  | act => exact ⟨h.1 _ rfl, h.2⟩
  | @ask s as i q k =>
    refine ⟨(hW.enter i.call q s).trans h.1.1, fun a ha => ?_⟩
    obtain rfl | ha := List.mem_cons.mp ha
    · exact h.1.2
    · exact h.2 a ha
  | @answer s as i q k a ha =>
    obtain ⟨hst, hrest⟩ := h
    refine ⟨?_, fun a ha => hrest a (List.mem_cons_of_mem _ ha)⟩
    rw [hW.leave, show obs s = w from hst]
    exact Proc.Keeps.brings (hrest _ List.mem_cons_self a)
  | @cb s as e =>
    rw [show obs (W.callback e s) = obs s from hW.callback e s]
    exact h
  | @ret s as i r =>
    rw [hW.atDepth, show obs s = w from h.1]
    exact Nears.of_rests h.2

/-- **In every run what `obs` sees is what the calls made so far make of it.** -/
theorem Commits.settled (hW : W.Commits obs eff) (h : Run W.Step ⟨s, []⟩ tr x) (hx : x.Settled) :
    obs x.st = effects eff tr (obs s) := by
  have hnears : Nears obs (effects eff tr (obs s)) (obs x.st) x.stack := by
    refine h.inv_trace (I := fun tr x => Nears obs (effects eff tr (obs s)) (obs x.st) x.stack) ?_ ?_
    · exact rfl
    · intro tr x e y _ hx hs
      rw [effects_snoc]
      exact hW.step hx hs
  exact hnears.settled hx

end World

end MmHalow.Lib
