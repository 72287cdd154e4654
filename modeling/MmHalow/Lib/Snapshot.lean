import MmHalow.Lib.Preempt

/-!
# Data that an interrupt updates and a thread reads whole

Data `σ` is updated by calls `κ` and read by calls `ν` for results `ρ`, both instruction by
instruction (`Watched`): an update stands at `π` and is told `ω` from outside, a read stands at `θ`.

* **A pass** (`WatchCall.pass`, of either context) makes any number of updates. It holds a claim, which
  one context has at a time; a pass that finds the claim taken returns.
* **A read** (`WatchCall.read`, of the thread) masks the interrupt while it goes on.
* **A store** (`WatchCall.store`, of the thread) is an update of one instruction, made without the claim.

The interrupt cuts in wherever it is not masked, inside the thread's passes included.

* `Watched.Meets`: what the instructions of one update and of one read do, by themselves.
* `Whole`: what data and contexts are at each instruction.
* `Watched.Meets.snapshots`: **each read answers what the data is after a whole number of updates,
  made between its call and its return**, and where nothing goes on all updates are in the data.
-/

namespace MmHalow.Lib

/-- The instructions of updates and reads. -/
structure Watched (σ κ ν ρ π θ ω : Type) where
  /-- Where an update begins, and its next instruction; it is made where the second part is `none`. -/
  entry : κ → π
  next : σ → π → ω → σ × Option π
  /-- Where a read begins, and its next instruction, which gives its result at the end. -/
  first : ν → θ
  peek : σ → θ → θ ⊕ ρ
  /-- The updates of one instruction. -/
  single : κ → Bool

/-- A read that has returned: how many updates had been made when it was called and when it
returned, and its result. -/
structure Answer (ν ρ : Type) where
  read : ν
  since : Nat
  till : Nat
  result : ρ
  deriving Repr, DecidableEq

/-- The data with the claim and the mask, and what has been done. -/
structure Guarded (σ κ ν ρ : Type) where
  data : σ
  owner : Option Ctx
  masked : Bool
  /-- The updates made, first to last, and the reads that have returned. No code reads them. -/
  made : List κ
  answers : List (Answer ν ρ)
  deriving Repr, DecidableEq

/-- Where a call stands. -/
inductive Place (κ ν ρ π θ : Type) where
  | claim
  | serving
  | updating (k : κ) (p : π)
  | store (k : κ)
  | mask (n : ν) (since : Nat)
  | reading (n : ν) (since : Nat) (q : θ)
  | unmask (n : ν) (since : Nat) (r : ρ)
  | leave (n : ν) (since : Nat) (r : ρ)
  deriving Repr, DecidableEq

/-- The calls. -/
inductive WatchCall (κ ν : Type) where
  | pass
  | read (n : ν)
  | store (k : κ)
  deriving Repr, DecidableEq

/-- What a step is told: the next update of a pass, if there is one, and what an update is told. -/
structure WatchSaid (κ ω : Type) where
  update : Option κ
  said : ω
  deriving Repr, DecidableEq

variable {σ κ ν ρ π θ ω : Type}

namespace Watched

variable (W : Watched σ κ ν ρ π θ ω)

/-- The calls of the two contexts. -/
def start (c : Ctx) (s : Guarded σ κ ν ρ) : WatchCall κ ν → Option (Guarded σ κ ν ρ × Place κ ν ρ π θ)
  | .pass => if c = .irq ∧ s.masked = true then none else some (s, .claim)
  | .read n => if c = .irq then none else some (s, .mask n s.made.length)
  | .store k => if c = .irq ∨ W.single k = false then none else some (s, .store k)

/-- One step of a call. -/
def step (c : Ctx) (s : Guarded σ κ ν ρ) (x : Place κ ν ρ π θ) (o : WatchSaid κ ω) :
    Guarded σ κ ν ρ × Option (Place κ ν ρ π θ) :=
  match x with
  | .claim =>
    if s.owner = none ∨ s.owner = some c then ({ s with owner := some c }, some .serving) else (s, none)
  | .serving =>
    match o.update with
    | some k => (s, some (.updating k (W.entry k)))
    | none => ({ s with owner := none }, none)
  | .updating k p =>
    match W.next s.data p o.said with
    | (d, some q) => ({ s with data := d }, some (.updating k q))
    | (d, none) => ({ s with data := d, made := s.made ++ [k] }, some .serving)
  | .store k =>
    ({ s with data := (W.next s.data (W.entry k) o.said).1, made := s.made ++ [k] }, none)
  | .mask n i => ({ s with masked := true }, some (.reading n i (W.first n)))
  | .reading n i q =>
    match W.peek s.data q with
    | .inl q' => (s, some (.reading n i q'))
    | .inr r => (s, some (.unmask n i r))
  | .unmask n i r => ({ s with masked := false }, some (.leave n i r))
  | .leave n i r => ({ s with answers := s.answers ++ [⟨n, i, s.made.length, r⟩] }, none)

/-- The two contexts. -/
def prog : Prog (Guarded σ κ ν ρ) (Place κ ν ρ π θ) (WatchCall κ ν) (WatchSaid κ ω) :=
  ⟨W.start, W.step⟩

end Watched

/-- Where nothing has been done yet. -/
def Two.fresh (s : σ) : Two (Guarded σ κ ν ρ) (Place κ ν ρ π θ) := ⟨⟨s, none, false, [], []⟩, none, none⟩

/-! ## What the instructions do -/

/-- **What the instructions do by themselves**: an update under way has the data at `Mid`, between what
it was and what `upd` makes of it, a read under way has seen what `Seen` says, and it answers `get`. -/
structure Watched.Meets (W : Watched σ κ ν ρ π θ ω) (upd : κ → σ → σ) (get : ν → σ → ρ)
    (Mid : κ → σ → σ → π → Prop) (Seen : ν → σ → θ → Prop) : Prop where
  entry : ∀ k s, Mid k s s (W.entry k)
  next : ∀ k s d p o, Mid k s d p →
    (W.next d p o).2.elim ((W.next d p o).1 = upd k s) (Mid k s (W.next d p o).1)
  single : ∀ k s o, W.single k = true → (W.next s (W.entry k) o).1 = upd k s
  first : ∀ n s, Seen n s (W.first n)
  peek : ∀ n s q, Seen n s q → (W.peek s q).elim (Seen n s) (· = get n s)

/-- The data after updates. -/
def after (upd : κ → σ → σ) (s : σ) (ks : List κ) : σ := ks.foldl (fun s k => upd k s) s

@[simp] theorem after_snoc (upd : κ → σ → σ) (s : σ) (ks : List κ) (k : κ) :
    after upd s (ks ++ [k]) = upd k (after upd s ks) := by
  simp [after]

/-- `r` is what the data is after the first `j` of the updates, or fewer but at least `i`. -/
def TakenAt (upd : κ → σ → σ) (get : ν → σ → ρ) (s : σ) (ks : List κ) (n : ν) (i j : Nat) (r : ρ) : Prop :=
  ∃ k, i ≤ k ∧ k ≤ j ∧ j ≤ ks.length ∧ r = get n (after upd s (ks.take k))

/-- The update that a context is in the middle of. -/
def Place.update? : Place κ ν ρ π θ → Option (κ × π)
  | .updating k p => some (k, p)
  | _ => none

/-- The call holds the claim there. -/
def Place.claims : Place κ ν ρ π θ → Bool
  | .serving => true
  | .updating _ _ => true
  | _ => false

/-- The call keeps the interrupt masked there. -/
def Place.masks : Place κ ν ρ π θ → Bool
  | .reading _ _ _ => true
  | .unmask _ _ _ => true
  | _ => false

/-- The call is a pass. -/
def Place.passes : Place κ ν ρ π θ → Bool
  | .claim => true
  | .serving => true
  | .updating _ _ => true
  | _ => false

variable {W : Watched σ κ ν ρ π θ ω} {upd : κ → σ → σ} {get : ν → σ → ρ} {Mid : κ → σ → σ → π → Prop}
  {Seen : ν → σ → θ → Prop} {s : σ} {ks : List κ} {k : κ} {n : ν} {i j : Nat} {r : ρ}

theorem TakenAt.now (h : i ≤ ks.length) (hr : r = get n (after upd s ks)) :
    TakenAt upd get s ks n i ks.length r := by
  refine ⟨ks.length, h, Nat.le_refl _, Nat.le_refl _, ?_⟩
  rw [List.take_length]
  exact hr

/-- Further updates take nothing back. -/
theorem TakenAt.snoc (h : TakenAt upd get s ks n i j r) : TakenAt upd get s (ks ++ [k]) n i j r := by
  obtain ⟨m, him, hmj, hj, rfl⟩ := h
  refine ⟨m, him, hmj, ?_, ?_⟩
  · rw [List.length_append]
    exact Nat.le_add_right_of_le hj
  · rw [List.take_append_of_le_length (Nat.le_trans hmj hj)]

/-- The read may return later. -/
theorem TakenAt.later (h : TakenAt upd get s ks n i j r) : TakenAt upd get s ks n i ks.length r := by
  obtain ⟨m, him, hmj, hj, rfl⟩ := h
  exact ⟨m, him, Nat.le_trans hmj hj, Nat.le_refl _, rfl⟩

/-! ## The invariant -/

/-- What the data is where the update `u` is under way, after others that made it `m`. -/
def UnderWay (Mid : κ → σ → σ → π → Prop) (m d : σ) (u : Option (κ × π)) : Prop :=
  u.elim (d = m) fun u => Mid u.1 m d u.2

/-- What a call of the thread has, wherever it stands. -/
def Place.Sound (W : Watched σ κ ν ρ π θ ω) (upd : κ → σ → σ) (get : ν → σ → ρ) (Seen : ν → σ → θ → Prop)
    (s : σ) (ks : List κ) : Place κ ν ρ π θ → Prop
  | .mask _ i => i ≤ ks.length
  | .reading n i q => i ≤ ks.length ∧ Seen n (after upd s ks) q
  | .unmask n i r => TakenAt upd get s ks n i ks.length r
  | .leave n i r => TakenAt upd get s ks n i ks.length r
  | .store k => W.single k = true
  | _ => True

/-- **What data and contexts are at each instruction.** -/
structure Whole (W : Watched σ κ ν ρ π θ ω) (upd : κ → σ → σ) (get : ν → σ → ρ)
    (Mid : κ → σ → σ → π → Prop) (Seen : ν → σ → θ → Prop) (s : σ)
    (x : Two (Guarded σ κ ν ρ) (Place κ ν ρ π θ)) : Prop where
  /-- The interrupt makes passes only, and none while it is masked. -/
  passes : ∀ y ∈ x.irq, y.passes = true
  quiet : x.shared.masked = true → x.irq = none
  masked : x.shared.masked = x.thread.any Place.masks
  /-- A context has the claim where its call does. -/
  ofThread : x.shared.owner = some .thread ↔ x.thread.any Place.claims = true
  ofIrq : x.shared.owner = some .irq ↔ x.irq.any Place.claims = true
  /-- The updates made are in the data, and one under way that either context makes. -/
  data : UnderWay Mid (after upd s x.shared.made) x.shared.data
    ((x.irq.bind Place.update?).or (x.thread.bind Place.update?))
  thread : ∀ y ∈ x.thread, y.Sound W upd get Seen s x.shared.made
  answers : ∀ a ∈ x.shared.answers, TakenAt upd get s x.shared.made a.read a.since a.till a.result

variable {a b : Guarded σ κ ν ρ} {x : Two (Guarded σ κ ν ρ) (Place κ ν ρ π θ)}
  {t q : Option (Place κ ν ρ π θ)} {p : Place κ ν ρ π θ} {o : WatchSaid κ ω}

/-- A call of the thread keeps what it has where the interrupt makes an update, which it does not
while the thread reads. -/
theorem Place.Sound.snoc (h : p.Sound W upd get Seen s ks) (hp : p.masks = false) :
    p.Sound W upd get Seen s (ks ++ [k]) := by
  cases p with
  | mask n i =>
    simp only [Place.Sound, List.length_append] at h ⊢
    exact Nat.le_add_right_of_le h
  | reading n i q => exact absurd hp (by simp [Place.masks])
  | unmask n i r => exact absurd hp (by simp [Place.masks])
  | leave n i r => exact h.snoc.later
  | store k => exact h
  | _ => trivial

/-- An update that is under way holds the claim. -/
theorem Place.update?_of_claims (h : p.claims = false) : p.update? = none := by
  cases p with
  | updating k p => exact absurd h (by simp [Place.claims])
  | _ => rfl

theorem bind_update? (h : t.any Place.claims = false) : t.bind Place.update? = none := by
  cases t with
  | none => rfl
  | some p => exact Place.update?_of_claims h

theorem Whole.fresh : Whole W upd get Mid Seen s (.fresh s) where
  passes y hy := nomatch hy
  quiet h := nomatch h
  masked := rfl
  ofThread := by simp [Two.fresh]
  ofIrq := by simp [Two.fresh]
  data := rfl
  thread y hy := nomatch hy
  answers a ha := absurd ha List.not_mem_nil

/-! ## Steps of the thread -/

/-- What the invariant says where the interrupt does nothing. -/
theorem whole_alone : Whole W upd get Mid Seen s ⟨a, t, none⟩ ↔
    a.masked = t.any Place.masks ∧
    a.owner = (if t.any Place.claims then some .thread else none) ∧
    UnderWay Mid (after upd s a.made) a.data (t.bind Place.update?) ∧
    (∀ y ∈ t, y.Sound W upd get Seen s a.made) ∧
    ∀ w ∈ a.answers, TakenAt upd get s a.made w.read w.since w.till w.result := by
  constructor
  · rintro ⟨-, -, hmask, hthread, hirq, hdata, hsound, hans⟩
    refine ⟨hmask, ?_, hdata, hsound, hans⟩
    cases hc : t.any Place.claims with
    | true => simpa using hthread.mpr hc
    | false =>
      cases ho : a.owner with
      | none => rfl
      | some c =>
        cases c with
        | thread => exact absurd (hthread.mp ho) (by simp [hc])
        | irq => exact absurd (hirq.mp ho) (by simp)
  · rintro ⟨hmask, howner, hdata, hsound, hans⟩
    refine ⟨nofun, fun _ => rfl, hmask, ?_, ?_, hdata, hsound, hans⟩
    · cases hc : t.any Place.claims <;> simp [howner, hc]
    · cases hc : t.any Place.claims <;> simp [howner, hc]

/-- One more update is made and the reads that have returned stay as they are. -/
theorem taken_snoc (h : ∀ w ∈ a.answers, TakenAt upd get s ks w.read w.since w.till w.result) :
    ∀ w ∈ a.answers, TakenAt upd get s (ks ++ [k]) w.read w.since w.till w.result :=
  fun w hw => (h w hw).snoc

/-- **A step of the thread.** -/
theorem Whole.threadStep (hm : W.Meets upd get Mid Seen)
    (h : Whole W upd get Mid Seen s ⟨a, some p, none⟩) (hs : W.step .thread a p o = (b, q)) :
    Whole W upd get Mid Seen s ⟨b, q, none⟩ := by
  rw [whole_alone] at h ⊢
  obtain ⟨hmask, howner, hdata, hsound, hans⟩ := h
  have hp := hsound p rfl
  cases p with
  | claim =>
    have hfree : a.owner = none := howner
    simp only [Watched.step, hfree, true_or, if_true] at hs
    obtain ⟨rfl, rfl⟩ := Prod.mk.inj hs
    exact ⟨hmask, rfl, hdata, by simp [Place.Sound], hans⟩
  | serving =>
    simp only [Watched.step] at hs
    cases hu : o.update with
    | some k =>
      rw [hu] at hs
      obtain ⟨rfl, rfl⟩ := Prod.mk.inj hs
      have hwhole : a.data = after upd s a.made := hdata
      refine ⟨hmask, howner, ?_, by simp [Place.Sound], hans⟩
      simp only [UnderWay, Place.update?, Option.bind_some, Option.elim]
      rw [hwhole]
      exact hm.entry k _
    | none =>
      rw [hu] at hs
      obtain ⟨rfl, rfl⟩ := Prod.mk.inj hs
      exact ⟨hmask, rfl, hdata, by simp, hans⟩
  | updating k p =>
    have hnext := hm.next k _ _ p o.said hdata
    simp only [Watched.step] at hs
    rcases hr : W.next a.data p o.said with ⟨d, _ | p'⟩
    · rw [hr] at hs hnext
      obtain ⟨rfl, rfl⟩ := Prod.mk.inj hs
      refine ⟨hmask, howner, ?_, by simp [Place.Sound], taken_snoc hans⟩
      simpa [UnderWay, Place.update?] using hnext
    · rw [hr] at hs hnext
      obtain ⟨rfl, rfl⟩ := Prod.mk.inj hs
      exact ⟨hmask, howner, hnext, by simp [Place.Sound], hans⟩
  | store k =>
    obtain ⟨rfl, rfl⟩ := Prod.mk.inj hs
    have hwhole : a.data = after upd s a.made := hdata
    refine ⟨hmask, howner, ?_, by simp, taken_snoc hans⟩
    simp only [UnderWay, Option.bind_none, Option.elim, after_snoc]
    rw [hwhole]
    exact hm.single k _ o.said hp
  | mask n i =>
    obtain ⟨rfl, rfl⟩ := Prod.mk.inj hs
    refine ⟨rfl, howner, hdata, ?_, hans⟩
    rintro y ⟨⟩
    exact ⟨hp, hm.first n _⟩
  | reading n i q' =>
    have hwhole : a.data = after upd s a.made := hdata
    have hpeek := hm.peek n _ q' hp.2
    rw [← hwhole] at hpeek
    simp only [Watched.step] at hs
    rcases hr : W.peek a.data q' with q'' | r
    · rw [hr] at hs hpeek
      obtain ⟨rfl, rfl⟩ := Prod.mk.inj hs
      refine ⟨hmask, howner, hdata, ?_, hans⟩
      rintro y ⟨⟩
      rw [hwhole] at hpeek
      exact ⟨hp.1, hpeek⟩
    · rw [hr] at hs hpeek
      obtain ⟨rfl, rfl⟩ := Prod.mk.inj hs
      refine ⟨hmask, howner, hdata, ?_, hans⟩
      rintro y ⟨⟩
      rw [hwhole] at hpeek
      exact TakenAt.now hp.1 hpeek
  | unmask n i r =>
    obtain ⟨rfl, rfl⟩ := Prod.mk.inj hs
    refine ⟨rfl, howner, hdata, ?_, hans⟩
    rintro y ⟨⟩
    exact hp
  | leave n i r =>
    obtain ⟨rfl, rfl⟩ := Prod.mk.inj hs
    refine ⟨hmask, howner, hdata, by simp, ?_⟩
    intro w hw
    rcases List.mem_append.mp hw with hw | hw
    · exact hans w hw
    · obtain rfl := List.mem_singleton.mp hw
      exact hp

/-- A call of the thread begins. -/
theorem Whole.threadCall {e : WatchCall κ ν} (h : Whole W upd get Mid Seen s ⟨a, none, none⟩)
    (hs : W.start .thread a e = some (b, p)) : Whole W upd get Mid Seen s ⟨b, some p, none⟩ := by
  rw [whole_alone] at h ⊢
  obtain ⟨hmask, howner, hdata, -, hans⟩ := h
  cases e with
  | pass =>
    obtain ⟨rfl, rfl⟩ := Prod.mk.inj (Option.some.inj hs)
    exact ⟨hmask, howner, hdata, by simp [Place.Sound], hans⟩
  | read n =>
    obtain ⟨rfl, rfl⟩ := Prod.mk.inj (Option.some.inj hs)
    exact ⟨hmask, howner, hdata, by simp [Place.Sound], hans⟩
  | store k =>
    simp only [Watched.start, reduceCtorEq, false_or] at hs
    split_ifs at hs with hk
    obtain ⟨rfl, rfl⟩ := Prod.mk.inj (Option.some.inj hs)
    refine ⟨hmask, howner, hdata, ?_, hans⟩
    rintro y ⟨⟩
    simpa [Place.Sound] using hk

/-! ## Steps of the interrupt -/

/-- A pass of the interrupt begins. -/
theorem Whole.irqCall {e : WatchCall κ ν} (h : Whole W upd get Mid Seen s ⟨a, t, none⟩)
    (hs : W.start .irq a e = some (b, p)) : Whole W upd get Mid Seen s ⟨b, t, some p⟩ := by
  cases e with
  | pass =>
    simp only [Watched.start, true_and] at hs
    split_ifs at hs with hmask
    obtain ⟨rfl, rfl⟩ := Prod.mk.inj (Option.some.inj hs)
    exact {
      passes := by simp [Place.passes]
      quiet := fun hm => absurd hm hmask
      masked := h.masked
      ofThread := h.ofThread
      ofIrq := by simpa [Place.claims] using h.ofIrq
      data := h.data
      thread := h.thread
      answers := h.answers }
  | read n => simp [Watched.start] at hs
  | store k => simp [Watched.start] at hs

/-- **A step of the interrupt**: a pass that it makes where it has the claim. -/
theorem Whole.irqStep (hm : W.Meets upd get Mid Seen)
    (h : Whole W upd get Mid Seen s ⟨a, t, some p⟩) (hs : W.step .irq a p o = (b, q)) :
    Whole W upd get Mid Seen s ⟨b, t, q⟩ := by
  have hunmasked : a.masked = false := by
    cases ha : a.masked with
    | false => rfl
    | true => exact absurd (h.quiet ha) (by simp)
  have hopen : t.any Place.masks = false := h.masked.symm.trans hunmasked
  obtain ⟨hpasses, -, hmask, hthread, hirq, hdata, hsound, hans⟩ := h
  have hquiet : ∀ {b : Guarded σ κ ν ρ} {q : Option (Place κ ν ρ π θ)}, b.masked = a.masked →
      b.masked = true → q = none := fun hb ht => by simp [hb, hunmasked] at ht
  cases p with
  | claim =>
    simp only [Watched.step] at hs
    split_ifs at hs with hfree
    · obtain ⟨rfl, rfl⟩ := Prod.mk.inj hs
      have hthr : t.any Place.claims = false := by
        rcases hfree with hfree | hfree
        · simpa [hfree] using hthread
        · simpa [hfree] using hthread
      exact ⟨by simp [Place.passes], hquiet rfl, hmask, by simp [hthr], by simp [Place.claims], hdata,
        hsound, hans⟩
    · obtain ⟨rfl, rfl⟩ := Prod.mk.inj hs
      exact ⟨nofun, hquiet rfl, hmask, hthread, by simpa [Place.claims] using hirq, hdata, hsound, hans⟩
  | serving =>
    have howner : a.owner = some .irq := hirq.mpr rfl
    have hthr : t.any Place.claims = false := by simpa [howner] using hthread
    simp only [Watched.step] at hs
    cases hu : o.update with
    | some k =>
      rw [hu] at hs
      obtain ⟨rfl, rfl⟩ := Prod.mk.inj hs
      have hwhole : a.data = after upd s a.made := by
        simpa [UnderWay, Place.update?, bind_update? hthr] using hdata
      refine ⟨by simp [Place.passes], hquiet rfl, hmask, hthread, by simpa [Place.claims] using hirq, ?_,
        hsound, hans⟩
      simp only [UnderWay, Place.update?, Option.bind_some, Option.some_or, Option.elim]
      rw [hwhole]
      exact hm.entry k _
    | none =>
      rw [hu] at hs
      obtain ⟨rfl, rfl⟩ := Prod.mk.inj hs
      exact ⟨nofun, hquiet rfl, hmask, by simp [hthr], by simp, hdata, hsound, hans⟩
  | updating k p =>
    have howner : a.owner = some .irq := hirq.mpr rfl
    have hthr : t.any Place.claims = false := by simpa [howner] using hthread
    have hnext := hm.next k _ _ p o.said hdata
    simp only [Watched.step] at hs
    rcases hr : W.next a.data p o.said with ⟨d, _ | p'⟩
    · rw [hr] at hs hnext
      obtain ⟨rfl, rfl⟩ := Prod.mk.inj hs
      refine ⟨by simp [Place.passes], hquiet rfl, hmask, hthread, by simpa [Place.claims] using hirq, ?_,
        ?_, taken_snoc hans⟩
      · simpa [UnderWay, Place.update?, bind_update? hthr] using hnext
      · rintro y rfl
        exact (hsound y rfl).snoc hopen
    · rw [hr] at hs hnext
      obtain ⟨rfl, rfl⟩ := Prod.mk.inj hs
      exact ⟨by simp [Place.passes], hquiet rfl, hmask, hthread, by simpa [Place.claims] using hirq, hnext,
        hsound, hans⟩
  | store k => exact absurd (hpasses _ rfl) (by simp [Place.passes])
  | mask n i => exact absurd (hpasses _ rfl) (by simp [Place.passes])
  | reading n i q' => exact absurd (hpasses _ rfl) (by simp [Place.passes])
  | unmask n i r => exact absurd (hpasses _ rfl) (by simp [Place.passes])
  | leave n i r => exact absurd (hpasses _ rfl) (by simp [Place.passes])

/-! ## Runs -/

/-- **One step of either context.** -/
theorem Whole.step {y : Two (Guarded σ κ ν ρ) (Place κ ν ρ π θ)}
    {e : TwoEvent (WatchCall κ ν) (WatchSaid κ ω)} (hm : W.Meets upd get Mid Seen)
    (h : Whole W upd get Mid Seen s x) (hs : W.prog.Step x e y) :
    Whole W upd get Mid Seen s y :=
  hs.inv (I := Whole W upd get Mid Seen s) h (fun _ _ _ _ hst hi => hi.threadCall hst)
    (fun _ _ _ _ _ hst hi => hi.irqCall hst) (fun _ _ _ _ _ hst _ hi => hi.threadStep hm hst)
    (fun _ _ _ _ _ _ hst hi => hi.irqStep hm hst)

/-- **Reads are whole**: in every run of the two contexts, each read that has returned gives what the
data is after a whole number of the updates made, no fewer than were made when it was called and no
more than when it returned. -/
theorem Watched.Meets.snapshots {tr : List (TwoEvent (WatchCall κ ν) (WatchSaid κ ω))}
    (hm : W.Meets upd get Mid Seen) (hr : Run W.prog.Step (.fresh s) tr x) :
    ∀ a ∈ x.shared.answers, TakenAt upd get s x.shared.made a.read a.since a.till a.result :=
  (hr.inv (I := Whole W upd get Mid Seen s) Whole.fresh fun _ _ _ hi hs => hi.step hm hs).answers

/-- Where neither context is inside a call, all updates made are in the data. -/
theorem Watched.Meets.settled {tr : List (TwoEvent (WatchCall κ ν) (WatchSaid κ ω))}
    (hm : W.Meets upd get Mid Seen) (hr : Run W.prog.Step (.fresh s) tr x) (hq : x.Quiescent) :
    x.shared.data = after upd s x.shared.made := by
  have h := (hr.inv (I := Whole W upd get Mid Seen s) Whole.fresh fun _ _ _ hi hs => hi.step hm hs).data
  rwa [hq.1, hq.2] at h

end MmHalow.Lib
