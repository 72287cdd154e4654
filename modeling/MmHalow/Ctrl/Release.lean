import MmHalow.Ctrl.Frame

/-!
# Releasing the driver while host callbacks call again (`mm_halow_deinit`)

`mm_halow_deinit` takes the interfaces down one after the other, and host callbacks may call the control
layer again while one of its steps waits. Only a nested `mm_halow_deinit` is refused: a nested
`mm_halow_wifi_set_up` may bring up an interface that the loop is past.

* `released_runs`: **as long as no nested call adds an interface that the loop is past, or that a call
  further out is adding, `mm_halow_deinit` leaves nothing behind.**
* `interface_survives`: a run in which an interface stays on lwIP's list.
-/

namespace MmHalow.Ctrl

open MmHalow.Lib

/-! ## What is released -/

/-- lwIP lists the interfaces that are up, each once, and there are some only where the driver is
initialised. -/
structure Consistent (s : State) : Prop where
  count : ∀ itf, s.lwip.list.count (.halow itf) = (s.itfState itf).toNat
  initted : ∀ itf, s.itfState itf = true → s.initted = true

/-- **Nothing is left of a session.** -/
structure Released (s : State) : Prop where
  initted : s.initted = false
  booted : s.booted = false
  itfState : ∀ itf, s.itfState itf = false
  listed : ∀ itf, s.lwip.listed itf = false
  heap : s.heap = false
  txBuf : s.txBuf = false
  scanCache : s.scanCache = false
  timerList : s.timerList = false
  taskList : s.taskList = false

/-! ## Where the loop stands -/

/-- What taking an interface down asks for first. -/
def Ask.disables : Ask → Bool
  | .mmwlan .staDisable | .mmwlan .apDisable => true
  | _ => false

/-- The interfaces that a call has been told are disabled. -/
def rounds (l : Log Ask Ask.Ans) : Nat := l.heard.countP fun a => a.1.disables

/-- **The loop of `mm_halow_deinit` is past an interface**: it was down, or it has been disabled. -/
def PastLoop (e : State) (l : Log Ask Ask.Ans) : Itf → Prop
  | .sta => (e.itfState .sta).toNat ≤ rounds l
  | .ap => (e.itfState .sta).toNat < rounds l ∨ .mmwlan (.registerRxCb false) ∈ l.asked

/-- A call of `is` is about to add the interface, or is an `mm_halow_deinit` that is past it. -/
def Barred (itf : Itf) (is : List Doing) : Prop :=
  ∃ d ∈ is, (d.call = .deinit ∧ PastLoop d.entry d.log itf) ∨ d.log.asked.head? = some (.netifAdd itf)

instance {e : State} {l : Log Ask Ask.Ans} : (itf : Itf) → Decidable (PastLoop e l itf)
  | .sta => inferInstanceAs (Decidable (_ ≤ _))
  | .ap => inferInstanceAs (Decidable (_ ∨ _))

instance {itf : Itf} {is : List Doing} : Decidable (Barred itf is) :=
  inferInstanceAs (Decidable (∃ d ∈ is, _))

/-- **No nested call adds an interface that a call it was made in is past or is adding.** -/
def Timely (is : List Doing) : Happening → Prop
  | .ask (.netifAdd itf) => ¬ Barred itf is.tail
  | _ => True

/-- What host callbacks may do while an answer is awaited. -/
structure Undisturbed (is : List Doing) (s t : State) : Prop where
  consistent : Consistent t
  initted : s.initted = true → t.initted = true
  barred : ∀ itf, Barred itf is → s.itfState itf = false → t.itfState itf = false

/-- The specification. -/
def releaseSpec (b : Build) : Spec (world b) where
  ok is _ e := Timely is e
  during is s t := Consistent s → Undisturbed is s t
  entry _ s := Consistent s
  guard _ _ _ := True
  post i _ s := i.call = .deinit → i.entry.initted = true → i.entry.inCallback = false → Released s
  idle := Consistent

/-! ## Assertions -/

variable {b : Build} {c : Call} {s t : State} {is : List Doing} {i : Bool} {u : Itf → Bool}

theorem still_consistent : Still Consistent := fun _ =>
  ⟨fun h => ⟨h.count, h.initted⟩, fun h => ⟨h.count, h.initted⟩⟩

/-- What a call that was made in `is` keeps: where `i` says so the driver stays initialised, and the
interfaces that `u` says are down stay so where they are barred. -/
structure Heeds (is : List Doing) (i : Bool) (u : Itf → Bool) (s : State) : Prop where
  consistent : Consistent s
  initted : i = true → s.initted = true
  barred : ∀ itf, Barred itf is → u itf = false → s.itfState itf = false

theorem still_heeds : Still (Heeds is i u) := fun _ =>
  ⟨fun h => ⟨(still_consistent _).mp h.consistent, h.initted, h.barred⟩,
    fun h => ⟨(still_consistent _).mpr h.consistent, h.initted, h.barred⟩⟩

theorem steady_heeds : (releaseSpec b).Steady (Heeds is i u) := fun _ _ _ _ h => still_heeds.callback h

theorem Barred.mono {itf : Itf} {d : Doing} (h : Barred itf is) : Barred itf (d :: is) := by
  obtain ⟨d', hd, h⟩ := h
  exact ⟨d', List.mem_cons_of_mem d hd, h⟩

/-- It is kept while an answer is awaited. -/
theorem Heeds.during {d : Doing} (h : Heeds is i u s) (hd : (releaseSpec b).during (d :: is) s t) :
    Heeds is i u t := by
  have hd := hd h.consistent
  exact ⟨hd.consistent, fun hi => hd.initted (h.initted hi),
    fun itf hb hu => hd.barred itf hb.mono (h.barred itf hb hu)⟩

/-- A step that leaves the interfaces alone. -/
structure Spares (s t : State) : Prop where
  initted : s.initted = true → t.initted = true
  itfState : t.itfState = s.itfState
  list : t.lwip.list = s.lwip.list

theorem Spares.refl : Spares s s := ⟨id, rfl, rfl⟩

theorem Heeds.spares (h : Heeds is i u s) (ht : Spares s t) : Heeds is i u t := by
  obtain ⟨hi, hu, hl⟩ := ht
  refine ⟨⟨fun itf => ?_, fun itf hitf => ?_⟩, fun h' => hi (h.initted h'), fun itf hb h' => ?_⟩
  · rw [hl, hu]
    exact h.consistent.count itf
  · exact hi (h.consistent.initted itf (hu ▸ hitf))
  · exact hu ▸ h.barred itf hb h'

/-- Code that leaves the interfaces alone. -/
abbrev StaysClear {α : Type} (p : Halow α) : Prop :=
  p.Within (fun f => ∀ s, Spares s (f s)) fun q => ∀ itf, q ≠ .netifAdd itf

theorem unmoved_heeds {q : Ask} (hq : ∀ itf, q ≠ .netifAdd itf) :
    (releaseSpec b).Unmoved c (Heeds is i u) q where
  guard _ _ _ := trivial
  enter s h := by
    obtain ⟨m, hm⟩ := enter_eq (b := b) (c := c) hq s
    rw [show (world b).enter c q s = _ from hm]
    exact h.spares ⟨id, rfl, rfl⟩
  leave a s h := by
    obtain ⟨m, hm⟩ := leave_eq (b := b) (c := c) hq a s
    rw [show (world b).leave c q a s = _ from hm]
    exact h.spares ⟨id, rfl, rfl⟩
  entry _ _ h _ := h.consistent

variable {κ : Around State Ask Ask.Ans Call} {l : Log Ask Ask.Ans}

/-- **Code that leaves the interfaces alone** keeps it. -/
theorem wp_clear {α : Type} {p : Halow α} (h : StaysClear p) (hs : Heeds κ.below i u s) :
    (releaseSpec b).wp κ l p s fun _ _ t => Heeds κ.below i u t :=
  Spec.wp_mono (Spec.wp_within_in (G := fun _ => True)
    (h.mono (fun _ hf s hs => hs.spares (hf s)) fun _ hq => ⟨(unmoved_heeds hq).within, trivial⟩)
    (fun _ => steady_heeds _) (fun _ _ _ hd h => h.during hd) hs) fun _ _ _ h => h.1

/-- Such code, and what follows it. -/
theorem wp_clear_seq {α β : Type} {p : Halow α} {g : α → Halow β} {Q : Log Ask Ask.Ans → β → State → Prop}
    (h : StaysClear p) (hs : Heeds κ.below i u s)
    (hg : ∀ l' a t, Heeds κ.below i u t → (releaseSpec b).wp κ l' (g a) t Q) :
    (releaseSpec b).wp κ l (p >>= g) s Q :=
  Spec.wp_seq (wp_clear h hs) hg

/-! ## Code that leaves the interfaces alone -/

theorem clear_load {α : Type} (g : State → α) : StaysClear (load g) := Proc.within_load.mpr fun _ => .refl

theorem clear_store {g : State → State} (h : ∀ s, Spares s (g s)) : StaysClear (store g) :=
  Proc.within_store.mpr h

theorem clear_ask {q : Ask} (h : ∀ itf, q ≠ .netifAdd itf) : StaysClear (Proc.request q) :=
  Proc.within_request.mpr h

theorem clear_mmwlan (f : Mmwlan) : StaysClear (mmwlan f) := clear_ask nofun

theorem clear_tell (f : Mmwlan) : StaysClear (tell f) := .bind (clear_mmwlan f) fun _ => trivial

theorem clear_onlyIf {g : Bool} {p : Halow Unit} (h : StaysClear p) : StaysClear (onlyIf g p) :=
  .ite h trivial

theorem clear_plain {α : Type} {p : Halow α} (h : Plain p) : StaysClear p :=
  h.mono (fun _ hf s => ⟨fun h => (Apart.of_rest (hf s)).initted.trans h,
    (Apart.of_rest (hf s)).itfState, congrArg Lwip.list (Apart.of_rest (hf s)).lwip⟩)
    fun _ h => h.ne_netifAdd

theorem Apart.spares (h : Apart s t) : Spares s t :=
  ⟨fun hi => h.initted.trans hi, h.itfState, congrArg Lwip.list h.lwip⟩

/-- The calls that bring no interface up or down. -/
theorem clear_body (h : c.moves = false) : StaysClear (c.body b) :=
  (within_apart h).mono (fun _ hf s => (hf s).spares) fun _ h => h.ne_netifAdd

theorem clear_setCountry {country : List UInt8} : StaysClear (setCountry b country) :=
  within_setCountry.mono (fun _ hf s => (hf s).spares) fun q h => by
    obtain ⟨l, rfl⟩ := h
    exact nofun

theorem clear_apEnable : StaysClear (apEnable b) :=
  (within_apEnable b).mono (fun f hf s => by
    obtain ⟨g, rfl⟩ := hf
    exact ⟨id, rfl, rfl⟩) fun q h => by
    obtain ⟨args, rfl⟩ := h
    exact nofun

/-! ## Adding an interface and taking one off -/

/-- The bit of an interface is set or cleared. -/
def State.setItf (itf : Itf) (v : Bool) (s : State) : State :=
  { s with itfState := Function.update s.itfState itf v }

theorem Heeds.erase {itf : Itf} (h : Heeds is i u s) :
    Heeds is i u (State.setItf itf false { s with lwip := b.lwip.tcpipDeinit b.glue itf s.lwip }) := by
  have hkept : ∀ j, Function.update s.itfState itf false j = true → s.itfState j = true := by
    intro j hj
    by_cases hji : j = itf
    · subst hji
      rw [Function.update_self] at hj
      exact absurd hj Bool.false_ne_true
    · rwa [Function.update_of_ne hji] at hj
  refine ⟨⟨fun j => ?_, fun j hj => h.consistent.initted j (hkept j hj)⟩, h.initted, fun j hb hj => ?_⟩
  · change (b.lwip.tcpipDeinit b.glue itf s.lwip).list.count (.halow j) =
      (Function.update s.itfState itf false j).toNat
    rw [b.documented.tcpipDeinit_count, Function.update_apply, h.consistent.count, h.consistent.count]
    split_ifs
    · cases s.itfState itf <;> rfl
    · rfl
  · refine Bool.eq_false_iff.mpr fun hup => ?_
    exact absurd ((h.barred j hb hj).symm.trans (hkept j hup)) Bool.false_ne_true

theorem Heeds.add {itf : Itf} (h : Heeds is true u s) (hitf : s.itfState itf = false)
    (hb : ¬ Barred itf is) :
    Heeds is true u (State.setItf itf true { s with lwip := b.lwip.netifAddEnd itf s.lwip }) := by
  refine ⟨⟨fun j => ?_, fun _ _ => h.initted rfl⟩, h.initted, fun j hbj hj => ?_⟩
  · have hzero : s.lwip.list.count (.halow itf) = 0 := by
      rw [h.consistent.count, hitf]
      rfl
    change (b.lwip.netifAddEnd itf s.lwip).list.count (.halow j) =
      (Function.update s.itfState itf true j).toNat
    rw [b.documented.end_count hzero, Function.update_apply, h.consistent.count]
    split_ifs <;> rfl
  · have hne : j ≠ itf := fun h' => hb (h' ▸ hbj)
    exact (Function.update_of_ne hne true s.itfState).trans (h.barred j hbj hj)

/-- What holds once the bit of an interface is set or cleared. -/
theorem steady_setItf {itf : Itf} {v : Bool} :
    (releaseSpec b).Steady fun s => Heeds is i u (s.setItf itf v) := fun _ _ _ _ h =>
  Still.callback (P := fun s => Heeds is i u (s.setItf itf v)) (fun _ =>
    ⟨fun h => ⟨⟨h.consistent.count, h.consistent.initted⟩, h.initted, h.barred⟩,
      fun h => ⟨⟨h.consistent.count, h.consistent.initted⟩, h.initted, h.barred⟩⟩) h

theorem steady_itfState {v : Itf → Bool} : (releaseSpec b).Steady fun s => s.itfState = v :=
  fun _ _ _ _ h => Still.callback (P := fun s => s.itfState = v) (fun _ => Iff.rfl) h

/-- **An interface is added**: while `netif_add` is out, no other call adds it. -/
theorem netifAdd_heeds {itf : Itf} (hs : Heeds κ.below true u s) (hitf : s.itfState itf = false) :
    (releaseSpec b).wp κ l (netifAdd itf) s fun _ _ t => Heeds κ.below true u (t.setItf itf true) := by
  intro t ht hok
  have hb : ¬ Barred itf κ.below := hok
  have ht' := (steady_heeds.and steady_itfState).calm ht ⟨hs, rfl⟩
  have hent : Heeds κ.below true u (enter b κ.call (.netifAdd itf) t) :=
    ht'.1.spares ⟨id, rfl, b.documented.begin_list _ _ _⟩
  refine ⟨trivial, fun v hv => ?_⟩
  have hout : Barred itf (κ.infos (l.ask (.netifAdd itf))) := ⟨_, List.mem_cons_self, .inr rfl⟩
  have hv' : Heeds κ.below true u v := hent.during hv
  exact ⟨fun _ => hv'.consistent, fun _ _ _ =>
    hv'.add ((hv hent.consistent).barred itf hout ((congrFun ht'.2 itf).trans hitf)) hb⟩

theorem tcpipInit_heeds {itf : Itf} (hs : Heeds κ.below true u s) (hitf : s.itfState itf = false) :
    (releaseSpec b).wp κ l (tcpipInit b itf) s fun _ _ t => Heeds κ.below true u (t.setItf itf true) := by
  refine Spec.wp_seq (netifAdd_heeds hs hitf) fun _ _ t ht => ?_
  exact Spec.wp_store steady_setItf ht fun t ht => ht.spares ⟨id, rfl, b.documented.afterAdd.1⟩

theorem raise_heeds {itf : Itf} (hs : Heeds κ.below true u s) :
    (releaseSpec b).wp κ l (raise b itf) s fun _ _ t => Heeds κ.below true u t := by
  refine Spec.wp_bind.mpr (Spec.wp_load steady_heeds hs fun t ht => ?_)
  refine Spec.wp_seq (M := fun _ _ t => Heeds κ.below true u t) ?_ fun _ _ t ht => ?_
  · unfold onlyIf
    split
    case isFalse => exact ht
    case isTrue hup =>
      have hup : t.itfState itf = false := by simpa using hup
      refine Spec.wp_seq (tcpipInit_heeds ht hup) fun _ _ v hv => ?_
      exact Spec.wp_store steady_setItf hv fun _ h => h
  · exact wp_clear (.bind (clear_onlyIf (clear_store fun s => ⟨id, rfl, b.documented.setLinkUp.list⟩))
      fun _ => trivial) ht

/-- Bringing an interface up from where the channel list is set. -/
theorem bringUp_heeds {itf : Itf} (hs : Heeds κ.below true u s) :
    (releaseSpec b).wp κ l (bringUp b itf) s fun _ _ t => Heeds κ.below true u t := by
  have hafter : ∀ {l' t}, Heeds κ.below true u t → (releaseSpec b).wp κ l' (bringUp.afterBoot b itf) t
      fun _ _ t => Heeds κ.below true u t := by
    intro l' t ht
    unfold bringUp.afterBoot
    split
    case isFalse => exact raise_heeds ht
    case isTrue =>
      refine wp_clear_seq clear_apEnable ht fun _ _ t ht => ?_
      split
      · exact ht
      · exact raise_heeds ht
  refine Spec.wp_bind.mpr (Spec.wp_load steady_heeds hs fun t ht => ?_)
  split
  case isFalse => exact hafter ht
  case isTrue =>
    refine wp_clear_seq (clear_mmwlan _) ht fun _ _ t ht => ?_
    split
    · exact ht
    · refine wp_clear_seq (clear_store fun _ => ⟨id, rfl, rfl⟩) ht fun _ _ t ht => ?_
      exact wp_clear_seq (clear_tell _) ht fun _ _ t ht => hafter ht

/-! ## Taking an interface down -/

/-- Its link goes down, it leaves the list, and its bit is cleared. -/
theorem remove_heeds {itf : Itf} (hs : Heeds κ.below i u s) :
    (releaseSpec b).wp κ l (do
      store fun s => { s with lwip := (b.lwip.setLinkDown itf s.lwip).2 }
      store fun s => { s with lwip := b.lwip.tcpipDeinit b.glue itf s.lwip }
      store fun s => { s with itfState := Function.update s.itfState itf false }) s
      fun l' _ t => l' = l ∧ Heeds κ.below i u t ∧ t.itfState = Function.update s.itfState itf false := by
  refine Spec.wp_bind.mpr (Spec.wp_store (steady_heeds.and steady_itfState) ⟨hs, rfl⟩ fun t ht => ?_)
  have hdown : Heeds κ.below i u { t with lwip := (b.lwip.setLinkDown itf t.lwip).2 } :=
    ht.1.spares ⟨id, rfl, b.documented.setLinkDown.list⟩
  refine Spec.wp_bind.mpr (Spec.wp_store (steady_heeds.and steady_itfState) ⟨hdown, ht.2⟩ fun t ht => ?_)
  exact Spec.wp_store (steady_setItf.and steady_itfState) ⟨ht.1.erase, ht.2⟩ fun t ht =>
    ⟨rfl, ht.1, congrArg (Function.update · itf false) ht.2⟩

theorem clear_disable {itf : Itf} : StaysClear (disable b itf) :=
  .ite (clear_tell _) (.bind (clear_tell _) fun _ => clear_store fun _ => ⟨id, rfl, rfl⟩)

/-- The transceiver is shut down. -/
theorem clear_shutdown : StaysClear (do
    store fun s => { s with teardown := true }
    tell .shutdown
    store fun s => { s with teardown := false }
    store fun s => { s with booted := false }) :=
  .bind (clear_store fun _ => ⟨id, rfl, rfl⟩) fun _ => .bind (clear_tell _) fun _ =>
    .bind (clear_store fun _ => ⟨id, rfl, rfl⟩) fun _ => clear_store fun _ => ⟨id, rfl, rfl⟩

theorem takeDown_heeds {itf : Itf} (hs : Heeds κ.below i u s) :
    (releaseSpec b).wp κ l (takeDown b itf) s fun _ _ t => Heeds κ.below i u t := by
  refine wp_clear_seq clear_disable hs fun _ _ t ht => ?_
  refine wp_clear_seq (clear_load _) ht fun _ up t ht => ?_
  refine Spec.wp_seq (M := fun _ _ t => Heeds κ.below i u t) ?_ fun _ _ t ht => ?_
  · unfold onlyIf
    split
    · exact Spec.wp_mono (remove_heeds ht) fun _ _ _ h => h.2.1
    · exact ht
  · exact wp_clear (.bind (clear_load _) fun _ => .bind (clear_onlyIf clear_shutdown) fun _ => trivial) ht

/-! ## Initialising the driver -/

/-- Where the driver is not initialised, no interface is up. -/
theorem Heeds.reset (h : Heeds is i u s) (hi : s.initted = false) :
    Heeds is i u { s with itfState := fun _ => false } := by
  have hdown : ∀ itf, s.itfState itf = false := fun itf =>
    Bool.eq_false_iff.mpr fun hup => absurd (hi.symm.trans (h.consistent.initted itf hup)) Bool.false_ne_true
  have hu : s.itfState = fun _ => false := funext hdown
  exact h.spares ⟨id, hu.symm, rfl⟩

theorem clear_osalInit : StaysClear osalInit :=
  .bind (clear_load _) fun _ => .ite trivial (.bind (clear_ask nofun) fun _ =>
    .bind (clear_store fun _ => ⟨id, rfl, rfl⟩) fun _ => trivial)

/-- The driver is initialised where `mm_halow_init` returns zero. -/
theorem initDriver_heeds (hs : Heeds κ.below i u s) :
    (releaseSpec b).wp κ l (initDriver b) s fun _ r t =>
      Heeds κ.below i u t ∧ (r = .ok → t.initted = true) := by
  refine Spec.wp_bind.mpr (Spec.wp_load steady_heeds hs fun t ht => ?_)
  split
  case isTrue hi => exact ⟨ht, fun _ => hi⟩
  case isFalse hi =>
    have hi : t.initted = false := by simpa using hi
    have hoff : (releaseSpec b).Steady fun s => s.initted = false := fun _ _ _ _ h =>
      Still.callback (P := fun s => s.initted = false) (fun _ => Iff.rfl) h
    refine Spec.wp_bind.mpr (Spec.wp_store (steady_heeds.and hoff) ⟨ht, hi⟩ fun t ht => ?_)
    refine wp_clear_seq (clear_store fun _ => ⟨id, rfl, rfl⟩) (ht.1.reset ht.2) fun _ _ t ht => ?_
    refine wp_clear_seq (clear_store fun _ => ⟨id, rfl, rfl⟩) ht fun _ _ t ht => ?_
    refine wp_clear_seq (clear_store fun _ => ⟨id, rfl, rfl⟩) ht fun _ _ t ht => ?_
    refine wp_clear_seq (clear_store fun _ => ⟨id, rfl, rfl⟩) ht fun _ _ t ht => ?_
    refine wp_clear_seq (clear_onlyIf (clear_store fun _ => ⟨id, rfl, rfl⟩)) ht fun _ _ t ht => ?_
    refine wp_clear_seq (clear_store fun _ => ⟨id, rfl, rfl⟩) ht fun _ _ t ht => ?_
    refine wp_clear_seq clear_osalInit ht fun _ pool t ht => ?_
    split
    · exact ⟨ht, nofun⟩
    refine wp_clear_seq (clear_ask nofun) ht fun _ block t ht => ?_
    refine wp_clear_seq (clear_store fun _ => ⟨id, rfl, rfl⟩) ht fun _ _ t ht => ?_
    split
    · refine wp_clear_seq ?_ ht fun _ _ t ht => ⟨ht, nofun⟩
      exact .bind (clear_store fun _ => ⟨id, rfl, rfl⟩) fun _ => clear_store fun _ => ⟨id, rfl, rfl⟩
    refine wp_clear_seq (clear_tell _) ht fun _ _ t ht => ?_
    refine wp_clear_seq (clear_plain plain_applyPm) ht fun _ _ t ht => ?_
    refine wp_clear_seq (clear_plain plain_applyRadio) ht fun _ _ t ht => ?_
    refine wp_clear_seq (clear_tell _) ht fun _ _ t ht => ?_
    refine wp_clear_seq (clear_tell _) ht fun _ _ t ht => ?_
    refine wp_clear_seq (clear_tell _) ht fun _ _ t ht => ?_
    refine wp_clear_seq (clear_tell _) ht fun _ _ t ht => ?_
    refine Spec.wp_bind.mpr (Spec.wp_store steady_heeds ht fun t ht => ?_)
    have ht : Heeds κ.below true u { t with initted := true } :=
      ⟨⟨ht.consistent.count, fun _ _ => rfl⟩, fun _ => rfl, ht.barred⟩
    refine wp_clear_seq (clear_store fun _ => ⟨id, rfl, rfl⟩) ht fun _ _ t ht => ⟨?_, fun _ => ht.initted rfl⟩
    exact ⟨ht.consistent, fun _ => ht.initted rfl, ht.barred⟩

/-! ## The calls -/

theorem setUpItf_heeds {itf : Itf} {up : Bool} {country : List UInt8} (hs : Heeds κ.below i u s) :
    (releaseSpec b).wp κ l (setUpItf b itf up country) s fun _ _ t => Heeds κ.below i u t := by
  cases up with
  | false =>
    rw [setUpItf_false]
    refine wp_clear_seq (clear_load _) hs fun _ _ t ht => ?_
    split
    · exact ht
    · exact takeDown_heeds ht
  | true =>
    refine wp_clear_seq (clear_load _) hs fun _ _ t ht => ?_
    split
    · exact ht
    have hinit : (releaseSpec b).wp κ ‹_› (ensureInit b) t fun _ r t =>
        Heeds κ.below i u t ∧ (r = .ok → t.initted = true) := by
      refine Spec.wp_bind.mpr (Spec.wp_load steady_heeds ht fun t ht => ?_)
      split
      case isTrue => exact initDriver_heeds ht
      case isFalse hi => exact ⟨ht, fun _ => by simpa using hi⟩
    refine Spec.wp_seq hinit fun _ r t ht => ?_
    split
    case isTrue => exact ht.1
    case isFalse hr =>
      have hon : Heeds κ.below true u t :=
        ⟨ht.1.consistent, fun _ => ht.2 (not_not.mp hr), ht.1.barred⟩
      have hend : ∀ {t}, Heeds κ.below true u t → Heeds κ.below i u t := fun h =>
        ⟨h.consistent, fun _ => h.initted rfl, h.barred⟩
      refine wp_clear_seq clear_setCountry hon fun _ r t ht => ?_
      split
      · exact hend ht
      · exact Spec.wp_mono (bringUp_heeds ht) fun _ _ _ h => hend h

/-- **Every call but `mm_halow_deinit`** keeps to it, wherever it is made. -/
theorem body_heeds (hc : c ≠ .deinit) (hs : Heeds κ.below i u s) :
    (releaseSpec b).wp κ l (c.body b) s fun _ _ t => Heeds κ.below i u t := by
  by_cases hm : c.moves = false
  · exact wp_clear (clear_body hm) hs
  cases c with
  | init => exact Spec.wp_mono (initDriver_heeds hs) fun _ _ _ h => h.1
  | deinit => exact absurd rfl hc
  | setUp n up country =>
    change (releaseSpec b).wp κ l (wifiSetUp b n up country) s _
    unfold wifiSetUp
    split
    · exact hs
    · exact setUpItf_heeds hs
  | _ => exact absurd rfl hm

/-! ## The loop of `mm_halow_deinit` -/

/-- The interfaces of `d` are down while the driver is initialised. -/
structure Taken (is : List Doing) (d : Itf → Bool) (s : State) : Prop where
  heeds : Heeds is true (fun _ => true) s
  down : ∀ itf, d itf = true → s.itfState itf = false

variable {d : Itf → Bool} {l' : Log Ask Ask.Ans} {e : State}

theorem steady_taken : (releaseSpec b).Steady (Taken is d) := fun _ _ _ _ h =>
  ⟨still_heeds.callback h.heeds, Still.callback (P := fun s => ∀ itf, d itf = true → s.itfState itf = false)
    (fun _ => Iff.rfl) h.down⟩

theorem Taken.spares (h : Taken is d s) (ht : Spares s t) : Taken is d t :=
  ⟨h.heeds.spares ht, fun itf hd => ht.itfState ▸ h.down itf hd⟩

/-- The loop only gets further. -/
theorem PastLoop.mono {itf : Itf} (h : PastLoop e l itf) (hr : rounds l ≤ rounds l')
    (ha : l.asked ⊆ l'.asked) : PastLoop e l' itf := by
  cases itf with
  | sta => exact Nat.le_trans h hr
  | ap => exact h.imp (fun h => Nat.lt_of_lt_of_le h hr) fun h => ha h

/-- **What has been taken down stays down** while a function of morselib is out that `mm_halow_deinit` has
called past it. -/
theorem mmwlan_taken {f : Mmwlan} (hκ : κ.call = .deinit)
    (hd : ∀ itf, d itf = true → PastLoop κ.entry (l.ask (.mmwlan f)) itf) (hs : Taken κ.below d s) :
    (releaseSpec b).wp κ l (mmwlan f) s fun l' st t => l' = (l.ask (.mmwlan f)).hear (.mmwlan f) st ∧
      ∃ v, Taken κ.below d v ∧ t = leave b κ.call (.mmwlan f) st v := by
  intro t ht _
  have ht := steady_taken.calm ht hs
  have henter : Taken κ.below d (enter b κ.call (.mmwlan f) t) := by
    obtain ⟨m, hm⟩ := enter_eq (b := b) (c := κ.call) (q := .mmwlan f) nofun t
    rw [hm]
    exact ht.spares ⟨id, rfl, rfl⟩
  refine ⟨trivial, fun v hv => ?_⟩
  have hv' : Taken κ.below d v := by
    refine ⟨henter.heeds.during hv, fun itf hitf => ?_⟩
    refine (hv henter.heeds.consistent).barred itf ⟨_, List.mem_cons_self, .inl ⟨hκ, ?_⟩⟩
      (henter.down itf hitf)
    exact hd itf hitf
  exact ⟨fun _ => hv'.heeds.consistent, fun st _ _ => ⟨rfl, v, hv', rfl⟩⟩

theorem tell_taken {f : Mmwlan} (hκ : κ.call = .deinit)
    (hd : ∀ itf, d itf = true → PastLoop κ.entry (l.ask (.mmwlan f)) itf) (hs : Taken κ.below d s) :
    (releaseSpec b).wp κ l (tell f) s fun l' _ t => l'.asked = .mmwlan f :: l.asked ∧
      rounds l' = rounds l + (Ask.disables (.mmwlan f)).toNat ∧ Taken κ.below d t := by
  refine Spec.wp_seq (mmwlan_taken hκ hd hs) fun l' st t ht => ?_
  obtain ⟨rfl, v, hv, rfl⟩ := ht
  refine ⟨rfl, ?_, hv.spares ⟨id, rfl, rfl⟩⟩
  change List.countP _ (_ :: l.heard) = _
  rw [List.countP_cons]
  cases Ask.disables (.mmwlan f) <;> rfl

/-- A step that no question belongs to. -/
theorem wp_taken_store {g : State → State} {Q : Log Ask Ask.Ans → Unit → State → Prop}
    (hg : ∀ s, Spares s (g s)) (hs : Taken κ.below d s) (h : ∀ t, Taken κ.below d t → Q l () t) :
    (releaseSpec b).wp κ l (store g) s Q :=
  Spec.wp_store steady_taken hs fun t ht => h _ (ht.spares (hg t))

variable {itf : Itf}

/-- What `mm_halow_deinit` takes down has been disabled before. -/
theorem disable_taken (hκ : κ.call = .deinit) (hd : ∀ j, d j = true → PastLoop κ.entry l j)
    (hs : Taken κ.below d s) :
    (releaseSpec b).wp κ l (disable b itf) s fun l' _ t =>
      rounds l' = rounds l + 1 ∧ l.asked ⊆ l'.asked ∧ Taken κ.below d t := by
  have htell : ∀ f : Mmwlan, (Ask.mmwlan f).disables = true →
      (releaseSpec b).wp κ l (tell f) s fun l' _ t =>
        rounds l' = rounds l + 1 ∧ l.asked ⊆ l'.asked ∧ Taken κ.below d t := by
    intro f hf
    refine Spec.wp_mono (tell_taken hκ (fun j hj => ?_) hs) fun l' _ t h => ⟨?_, ?_, h.2.2⟩
    · exact (hd j hj).mono (Nat.le_refl _) fun q hq => List.mem_cons_of_mem _ hq
    · rw [h.2.1, hf]
      rfl
    · exact h.1 ▸ fun q hq => List.mem_cons_of_mem _ hq
  unfold disable
  split
  · exact htell _ rfl
  · refine Spec.wp_seq (htell _ rfl) fun l' _ t ht => ?_
    exact wp_taken_store (fun _ => ⟨id, rfl, rfl⟩) ht.2.2 fun t h => ⟨ht.1, ht.2.1, h⟩

/-- **An interface is taken down** and stays so. -/
theorem takeDown_taken (hκ : κ.call = .deinit) (hd : ∀ j, d j = true → PastLoop κ.entry l j)
    (hitf : ∀ l' : Log Ask Ask.Ans, rounds l < rounds l' → PastLoop κ.entry l' itf)
    (hs : Taken κ.below d s) :
    (releaseSpec b).wp κ l (takeDown b itf) s fun l' _ t =>
      rounds l < rounds l' ∧ Taken κ.below (Function.update d itf true) t := by
  refine Spec.wp_seq (disable_taken hκ hd hs) fun l' _ t ht => ?_
  obtain ⟨hrounds, hasked, ht⟩ := ht
  have hlt : rounds l < rounds l' := hrounds ▸ Nat.lt_succ_self _
  have hd' : ∀ l'' : Log Ask Ask.Ans, rounds l' ≤ rounds l'' → l'.asked ⊆ l''.asked →
      ∀ j, Function.update d itf true j = true → PastLoop κ.entry l'' j := by
    intro l'' hr ha j hj
    by_cases hji : j = itf
    · exact hji ▸ hitf l'' (Nat.lt_of_lt_of_le hlt hr)
    · rw [Function.update_of_ne hji] at hj
      exact (hd j hj).mono (Nat.le_trans (Nat.le_of_lt hlt) hr) fun q hq => ha (hasked hq)
  refine Spec.wp_bind.mpr (Spec.wp_load steady_taken ht fun t ht => ?_)
  have hdown : (releaseSpec b).wp κ l' (onlyIf (t.itfState itf) do
      store fun s => { s with lwip := (b.lwip.setLinkDown itf s.lwip).2 }
      store fun s => { s with lwip := b.lwip.tcpipDeinit b.glue itf s.lwip }
      store fun s => { s with itfState := Function.update s.itfState itf false }) t
      fun l'' _ t => l'' = l' ∧ Taken κ.below (Function.update d itf true) t := by
    unfold onlyIf
    split
    case isTrue =>
      refine Spec.wp_mono (remove_heeds ht.heeds) fun l'' _ v hv => ⟨hv.1, hv.2.1, fun j hj => ?_⟩
      rw [hv.2.2]
      by_cases hji : j = itf
      · rw [hji, Function.update_self]
      · rw [Function.update_of_ne hji] at hj ⊢
        exact ht.down j hj
    case isFalse hup =>
      refine ⟨rfl, ht.heeds, fun j hj => ?_⟩
      by_cases hji : j = itf
      · exact hji ▸ Bool.eq_false_iff.mpr hup
      · rw [Function.update_of_ne hji] at hj
        exact ht.down j hj
  refine Spec.wp_seq hdown fun l'' _ t ht => ?_
  obtain ⟨rfl, ht⟩ := ht
  refine Spec.wp_bind.mpr (Spec.wp_load steady_taken ht fun t ht => ?_)
  refine Spec.wp_seq (M := fun l'' _ t => rounds l < rounds l'' ∧
    Taken κ.below (Function.update d itf true) t) ?_ fun _ _ _ h => h
  unfold onlyIf
  split
  case isFalse => exact ⟨hlt, ht⟩
  refine Spec.wp_bind.mpr (wp_taken_store (fun _ => ⟨id, rfl, rfl⟩) ht fun t ht => ?_)
  refine Spec.wp_seq (tell_taken hκ (hd' _ (Nat.le_refl _) fun q hq => List.mem_cons_of_mem _ hq) ht)
    fun l'' _ t ht => ?_
  refine Spec.wp_bind.mpr (wp_taken_store (fun _ => ⟨id, rfl, rfl⟩) ht.2.2 fun t ht' => ?_)
  exact wp_taken_store (fun _ => ⟨id, rfl, rfl⟩) ht' fun t ht' =>
    ⟨Nat.lt_of_lt_of_le hlt (ht.2.1 ▸ Nat.le_add_right _ _), ht'⟩

/-- A round of the loop, which disables the interface where it finds it up. -/
theorem deinitItf_taken (hκ : κ.call = .deinit) (hd : ∀ j, d j = true → PastLoop κ.entry l j)
    (hitf : ∀ l' : Log Ask Ask.Ans, rounds l < rounds l' → PastLoop κ.entry l' itf)
    (hs : Taken κ.below d s) :
    (releaseSpec b).wp κ l (deinitItf b itf) s fun l' _ t => rounds l ≤ rounds l' ∧
      (s.itfState itf = true → rounds l < rounds l') ∧ Taken κ.below (Function.update d itf true) t := by
  refine Spec.wp_bind.mpr (Spec.wp_load (steady_taken.and steady_itfState) ⟨hs, rfl⟩ fun t ht => ?_)
  rw [← congrFun ht.2 itf]
  have ht := ht.1
  unfold onlyIf
  split
  case isFalse hup =>
    refine ⟨Nat.le_refl _, fun h => absurd h hup, ht.heeds, fun j hj => ?_⟩
    by_cases hji : j = itf
    · exact hji ▸ Bool.eq_false_iff.mpr hup
    · rw [Function.update_of_ne hji] at hj
      exact ht.down j hj
  case isTrue =>
    refine Spec.wp_bind.mpr (Spec.wp_load steady_taken ht fun t ht => ?_)
    refine Spec.wp_seq (M := fun l' _ t => rounds l < rounds l' ∧
      Taken κ.below (Function.update d itf true) t) ?_ fun _ _ _ h => ⟨Nat.le_of_lt h.1, fun _ => h.1, h.2⟩
    rw [setUpItf_false]
    refine Spec.wp_bind.mpr (Spec.wp_load steady_taken ht fun t ht => ?_)
    rw [if_neg (by rw [ht.heeds.initted rfl]; exact Bool.false_ne_true)]
    exact takeDown_taken hκ hd hitf ht

/-! ## The rest of `mm_halow_deinit` -/

/-- What `mm_halow_deinit` clears once morselib is gone. -/
inductive Part where
  | booted
  | taskList
  | timerList
  | heap
  | txBuf
  | scanCache
  | initted
  deriving DecidableEq

/-- Whether it is there. -/
def Part.isIn : Part → State → Bool
  | booted, s => s.booted
  | taskList, s => s.taskList
  | timerList, s => s.timerList
  | heap, s => s.heap
  | txBuf, s => s.txBuf
  | scanCache, s => s.scanCache
  | initted, s => s.initted

/-- No interface is up, morselib is gone, and the parts of `A` have been cleared. -/
structure Freed (A : Part → Bool) (s : State) : Prop where
  itfState : ∀ itf, s.itfState itf = false
  count : ∀ itf, s.lwip.list.count (.halow itf) = 0
  off : s.lib.inited = false
  cleared : ∀ p, A p = true → p.isIn s = false

variable {A : Part → Bool}

/-- Once morselib is gone, no callback brings a part back. -/
theorem isIn_of_callback {e : Callback} {p : Part} (hoff : s.lib.inited = false)
    (h : p.isIn (callback b e s) = true) : p.isIn s = true := by
  have hpart : ∀ (P : State → Bool), (∀ s, P s = P (still s)) → P (callback b e s) = true → P s = true := by
    intro P hP h
    rw [hP, still_callback, ← hP] at h
    exact h
  cases p with
  | booted => exact booted_of_callback h
  | taskList =>
    cases e with
    | spawn =>
      simp only [Part.isIn, callback, hoff, Bool.false_and, Bool.or_false] at h
      exact h
    | scanRx r =>
      simp only [Part.isIn, callback, scanRxCb] at h
      split at h <;> exact h
    | _ => exact h
  | timerList =>
    cases e with
    | arm =>
      simp only [Part.isIn, callback, hoff, Bool.false_and, Bool.or_false] at h
      exact h
    | scanRx r =>
      simp only [Part.isIn, callback, scanRxCb] at h
      split at h <;> exact h
    | _ => exact h
  | heap => exact hpart State.heap (fun _ => rfl) h
  | txBuf => exact hpart State.txBuf (fun _ => rfl) h
  | scanCache => exact hpart State.scanCache (fun _ => rfl) h
  | initted => exact hpart State.initted (fun _ => rfl) h

theorem steady_freed : (releaseSpec b).Steady (Freed A) := by
  intro is s e _ h
  refine ⟨?_, ?_, ?_, fun p hp => Bool.eq_false_iff.mpr fun hin => ?_⟩
  · exact Still.callback (P := fun s => ∀ itf, s.itfState itf = false) (fun _ => Iff.rfl) h.itfState
  · exact Still.callback (P := fun s => ∀ itf, s.lwip.list.count (.halow itf) = 0) (fun _ => Iff.rfl) h.count
  · exact Still.callback (P := fun s => s.lib.inited = false) (fun _ => Iff.rfl) h.off
  · exact absurd ((h.cleared p hp).symm.trans (isIn_of_callback h.off hin)) Bool.false_ne_true

/-- A store that leaves the rest alone. -/
structure Apiece (s t : State) : Prop where
  itfState : t.itfState = s.itfState
  list : t.lwip.list = s.lwip.list
  lib : t.lib = s.lib

/-- **A part is cleared.** -/
theorem store_freed {g : State → State} {Q : Log Ask Ask.Ans → Unit → State → Prop} (p : Part)
    (hg : ∀ s, Apiece s (g s)) (hp : ∀ (s : State) (q : Part), q.isIn (g s) = (q != p && q.isIn s))
    (hs : Freed A s) (h : ∀ t, Freed (Function.update A p true) t → Q l () t) :
    (releaseSpec b).wp κ l (store g) s Q := by
  refine Spec.wp_store steady_freed hs fun t ht => h _ ?_
  obtain ⟨hi, hl, hlib⟩ := hg t
  refine ⟨fun itf => hi ▸ ht.itfState itf, fun itf => hl ▸ ht.count itf, hlib ▸ ht.off, fun q hq => ?_⟩
  rw [hp]
  by_cases hqp : q = p
  · rw [hqp, bne_self_eq_false, Bool.false_and]
  · rw [Function.update_of_ne hqp] at hq
    rw [ht.cleared q hq, Bool.and_false]

/-- Something else is stored. -/
theorem skip_freed {g : State → State} {Q : Log Ask Ask.Ans → Unit → State → Prop}
    (hg : ∀ s, Apiece s (g s)) (hp : ∀ (s : State) (q : Part), q.isIn (g s) = q.isIn s) (hs : Freed A s)
    (h : ∀ t, Freed A t → Q l () t) : (releaseSpec b).wp κ l (store g) s Q := by
  refine Spec.wp_store steady_freed hs fun t ht => h _ ?_
  obtain ⟨hi, hl, hlib⟩ := hg t
  exact ⟨fun itf => hi ▸ ht.itfState itf, fun itf => hl ▸ ht.count itf, hlib ▸ ht.off,
    fun q hq => (hp t q).trans (ht.cleared q hq)⟩

theorem Freed.released (h : Freed A s) (hA : ∀ p, A p = true) : Released s where
  initted := h.cleared .initted (hA _)
  booted := h.cleared .booted (hA _)
  itfState := h.itfState
  listed itf := decide_eq_false (List.count_eq_zero.mp (h.count itf))
  heap := h.cleared .heap (hA _)
  txBuf := h.cleared .txBuf (hA _)
  scanCache := h.cleared .scanCache (hA _)
  timerList := h.cleared .timerList (hA _)
  taskList := h.cleared .taskList (hA _)

theorem Freed.consistent (h : Freed A s) : Consistent s where
  count itf := by rw [h.count, h.itfState, Bool.toNat_false]
  initted itf hup := absurd ((h.itfState itf).symm.trans hup) Bool.false_ne_true

/-- `mmwlan_deinit`, with no interface up. -/
theorem deinit_freed (hκ : κ.call = .deinit)
    (hd : ∀ itf, (fun _ => true) itf = true → PastLoop κ.entry (l.ask (.mmwlan .deinit)) itf)
    (hs : Taken κ.below (fun _ => true) s) :
    (releaseSpec b).wp κ l (tell .deinit) s fun _ _ t => Freed (fun _ => false) t := by
  refine Spec.wp_seq (mmwlan_taken hκ hd hs) fun l' st t ht => ?_
  obtain ⟨-, v, hv, rfl⟩ := ht
  refine ⟨fun itf => hv.down itf rfl, fun itf => ?_, rfl, fun _ h => absurd h Bool.false_ne_true⟩
  exact (hv.heeds.consistent.count itf).trans (congrArg Bool.toNat (hv.down itf rfl))

theorem osalDeinit_freed {Q : Log Ask Ask.Ans → Unit → State → Prop} (hs : Freed A s)
    (h : ∀ t, Freed (Function.update (Function.update A .timerList true) .heap true) t → Q l () t) :
    (releaseSpec b).wp κ l osalDeinit s Q := by
  refine Spec.wp_bind.mpr (store_freed .timerList (fun _ => ⟨rfl, rfl, rfl⟩) (fun _ q => by cases q <;> rfl) hs
    fun t ht => ?_)
  exact store_freed .heap (fun _ => ⟨rfl, rfl, rfl⟩) (fun _ q => by cases q <;> rfl) ht h

/-- **Nothing is left** where no interface is up and none comes up. -/
theorem deinitRest_freed (hκ : κ.call = .deinit) (hsta : (κ.entry.itfState .sta).toNat ≤ rounds l)
    (hs : Taken κ.below (fun _ => true) s) :
    (releaseSpec b).wp κ l deinitRest s fun _ _ t => ∃ A, Freed A t ∧ ∀ p, A p = true := by
  have hpast : ∀ {l' : Log Ask Ask.Ans}, rounds l ≤ rounds l' →
      .mmwlan (.registerRxCb false) ∈ l'.asked → ∀ itf, (fun _ => true) itf = true →
      PastLoop κ.entry l' itf := by
    intro l' hr hrx itf _
    cases itf with
    | sta => exact Nat.le_trans hsta hr
    | ap => exact .inr hrx
  refine Spec.wp_seq (tell_taken hκ (hpast (Nat.le_refl _) List.mem_cons_self) hs) fun l₁ _ t ht => ?_
  obtain ⟨hasked, hr₁, ht⟩ := ht
  have hrx : .mmwlan (.registerRxCb false) ∈ l₁.asked := hasked ▸ List.mem_cons_self
  have hr₁ : rounds l ≤ rounds l₁ := hr₁ ▸ Nat.le_add_right _ _
  refine Spec.wp_bind.mpr (wp_taken_store (fun _ => ⟨id, rfl, rfl⟩) ht fun t ht => ?_)
  refine Spec.wp_seq (tell_taken hκ (hpast hr₁ (List.mem_cons_of_mem _ hrx)) ht) fun l₂ _ t ht => ?_
  obtain ⟨hasked₂, hr₂, ht⟩ := ht
  have hrx₂ : .mmwlan (.registerRxCb false) ∈ l₂.asked := hasked₂ ▸ List.mem_cons_of_mem _ hrx
  have hr₂ : rounds l ≤ rounds l₂ := Nat.le_trans hr₁ (hr₂ ▸ Nat.le_add_right _ _)
  refine Spec.wp_seq (deinit_freed hκ (hpast hr₂ (List.mem_cons_of_mem _ hrx₂)) ht) fun _ _ t ht => ?_
  refine Spec.wp_bind.mpr (skip_freed (fun _ => ⟨rfl, rfl, rfl⟩) (fun _ q => by cases q <;> rfl) ht
    fun t ht => ?_)
  refine Spec.wp_bind.mpr (store_freed .booted (fun _ => ⟨rfl, rfl, rfl⟩) (fun _ q => by cases q <;> rfl) ht
    fun t ht => ?_)
  refine Spec.wp_bind.mpr (skip_freed (fun _ => ⟨rfl, rfl, rfl⟩) (fun _ q => by cases q <;> rfl) ht
    fun t ht => ?_)
  refine Spec.wp_bind.mpr (store_freed .taskList (fun _ => ⟨rfl, rfl, rfl⟩) (fun _ q => by cases q <;> rfl) ht
    fun t ht => ?_)
  refine Spec.wp_bind.mpr (osalDeinit_freed ht fun t ht => ?_)
  refine Spec.wp_bind.mpr (store_freed .txBuf (fun _ => ⟨rfl, rfl, rfl⟩) (fun _ q => by cases q <;> rfl) ht
    fun t ht => ?_)
  refine Spec.wp_bind.mpr (store_freed .scanCache (fun _ => ⟨rfl, rfl, rfl⟩) (fun _ q => by cases q <;> rfl) ht
    fun t ht => ?_)
  refine Spec.wp_bind.mpr (skip_freed (fun _ => ⟨rfl, rfl, rfl⟩) (fun _ q => by cases q <;> rfl) ht
    fun t ht => ?_)
  refine Spec.wp_bind.mpr (skip_freed (fun _ => ⟨rfl, rfl, rfl⟩) (fun _ q => by cases q <;> rfl) ht
    fun t ht => ?_)
  refine Spec.wp_bind.mpr (skip_freed (fun _ => ⟨rfl, rfl, rfl⟩) (fun _ q => by cases q <;> rfl) ht
    fun t ht => ?_)
  refine Spec.wp_bind.mpr (store_freed .initted (fun _ => ⟨rfl, rfl, rfl⟩) (fun _ q => by cases q <;> rfl) ht
    fun t ht => ?_)
  refine skip_freed (fun _ => ⟨rfl, rfl, rfl⟩) (fun _ q => by cases q <;> rfl) ht
    fun t ht => ⟨_, ht, fun p => ?_⟩
  cases p <;> rfl

/-! ## Every call -/

/-- **`mm_halow_deinit`, made by itself, leaves nothing behind** once it is past its guards. -/
theorem deinitDriver_freed (hκ : κ.call = .deinit) (hinit : κ.entry.initted = true)
    (hcb : κ.entry.inCallback = false) (hs : Consistent κ.entry) (hb : κ.below = []) :
    (releaseSpec b).wp κ .empty (deinitDriver b) κ.entry fun _ _ t => ∃ A, Freed A t ∧ ∀ p, A p = true := by
  have hstart : Taken κ.below (fun _ => false) κ.entry := by
    refine ⟨⟨hs, fun _ => hinit, fun itf hbar => ?_⟩, fun _ h => absurd h Bool.false_ne_true⟩
    obtain ⟨d, hd, -⟩ := hb ▸ hbar
    exact absurd hd List.not_mem_nil
  have hcallback : (releaseSpec b).Steady fun s => s.inCallback = false := fun _ _ _ _ h =>
    Still.callback (P := fun s => s.inCallback = false) (fun _ => Iff.rfl) h
  have hsteady : (releaseSpec b).Steady fun s => Taken κ.below (fun _ => false) s ∧
      s.itfState = κ.entry.itfState ∧ s.inCallback = false :=
    steady_taken.and (steady_itfState.and hcallback)
  refine Spec.wp_bind.mpr (Spec.wp_load hsteady ⟨hstart, rfl, hcb⟩ fun t ht => ?_)
  rw [if_neg (by rw [ht.1.heeds.initted rfl]; exact Bool.false_ne_true)]
  refine Spec.wp_bind.mpr (Spec.wp_load hsteady ht fun t ht => ?_)
  rw [if_neg (by rw [ht.2.2]; exact Bool.false_ne_true)]
  obtain ⟨ht, hitf, -⟩ := ht
  have hle : ∀ v : Bool, v.toNat ≤ 1 := fun v => by cases v <;> decide
  refine Spec.wp_seq (deinitItf_taken hκ (fun _ h => absurd h Bool.false_ne_true)
    (fun l' hl => Nat.le_trans (Bool.toNat_le _) hl) ht) fun l₁ _ v hv => ?_
  obtain ⟨-, hround, hv⟩ := hv
  have hsta : (κ.entry.itfState .sta).toNat ≤ rounds l₁ := by
    rw [hitf] at hround
    cases hup : κ.entry.itfState .sta with
    | true => exact hround hup
    | false => exact Nat.zero_le _
  refine Spec.wp_seq (deinitItf_taken hκ (fun j hj => ?_)
    (fun l' hl => .inl (Nat.lt_of_le_of_lt hsta hl)) hv) fun l₂ _ v hv => ?_
  · cases j with
    | sta => exact hsta
    | ap => exact absurd hj (by decide)
  obtain ⟨hle, -, hv⟩ := hv
  have hall : Taken κ.below (fun _ => true) v := by
    refine ⟨hv.heeds, fun itf _ => hv.down itf ?_⟩
    cases itf <;> rfl
  exact Spec.wp_seq (deinitRest_freed hκ (Nat.le_trans hsta hle) hall) fun _ _ _ h => h

/-- Where it is refused, or there is nothing to release, it changes nothing. -/
theorem deinitDriver_heeds (hs : Heeds κ.below i u s)
    (hrefused : s.initted = false ∨ s.inCallback = true) :
    (releaseSpec b).wp κ l (deinitDriver b) s fun _ _ t => Heeds κ.below i u t := by
  have hP : (releaseSpec b).Steady fun s => s.initted = false ∨ s.inCallback = true := fun _ _ _ _ h =>
    Still.callback (P := fun s => s.initted = false ∨ s.inCallback = true) (fun _ => Iff.rfl) h
  refine Spec.wp_bind.mpr (Spec.wp_load (steady_heeds.and hP) ⟨hs, hrefused⟩ fun t ht => ?_)
  split
  case isTrue => exact ht.1
  case isFalse hi =>
    have hcb : t.inCallback = true := ht.2.resolve_left fun h => hi (by rw [h]; rfl)
    have hP' : (releaseSpec b).Steady fun s => s.inCallback = true := fun _ _ _ _ h =>
      Still.callback (P := fun s => s.inCallback = true) (fun _ => Iff.rfl) h
    refine Spec.wp_bind.mpr (Spec.wp_load (steady_heeds.and hP') ⟨ht.1, hcb⟩ fun v hv => ?_)
    rw [if_pos hv.2]
    exact hv.1

/-- **Every call but an `mm_halow_deinit` that is not refused** keeps the interfaces consistent, and down
where they are barred. -/
theorem call_heeds (hs : Consistent s)
    (hc : κ.call = .deinit → s.initted = false ∨ s.inCallback = true) :
    (releaseSpec b).wp κ l (κ.call.body b) s fun _ _ t => Heeds κ.below s.initted s.itfState t := by
  have hstart : Heeds κ.below s.initted s.itfState s := ⟨hs, id, fun _ _ h => h⟩
  by_cases hd : κ.call = .deinit
  · rw [hd]
    exact deinitDriver_heeds hstart (hc hd)
  · exact body_heeds hd hstart

/-- **Every call meets the specification**, wherever it is made. -/
theorem release_sound (b : Build) : (releaseSpec b).Sound where
  idle_cb _ _ h _ := still_consistent.callback h
  during_refl _ _ hs := ⟨hs, id, fun _ _ h => h⟩
  during_trans _ _ _ _ h h' hs :=
    have hst := h hs
    have htu := h' hst.consistent
    ⟨htu.consistent, fun hi => htu.initted (hst.initted hi),
      fun itf hb hu => htu.barred itf hb (hst.barred itf hb hu)⟩
  during_cb _ s e _ hs := by
    refine ⟨still_consistent.callback hs, fun hi => ?_, fun itf _ hu => ?_⟩
    · exact Still.callback (P := fun s => s.initted = true) (fun _ => Iff.rfl) hi
    · exact Still.callback (P := fun s => s.itfState itf = false) (fun _ => Iff.rfl) hu
  first c s hs _ := by
    have hs' : Consistent (atDepth 1 s) := ⟨hs.count, hs.initted⟩
    by_cases hd : c = .deinit ∧ s.initted = true
    · obtain ⟨rfl, hi⟩ := hd
      refine Spec.wp_mono (deinitDriver_freed (κ := ⟨.deinit, atDepth 1 s, []⟩) rfl hi rfl hs' rfl)
        fun l r t ht u hu => ?_
      obtain ⟨A, ht, hA⟩ := ht
      have hu := steady_freed.calm hu ht
      exact ⟨fun _ _ _ => hu.released hA, ⟨hu.consistent.count, hu.consistent.initted⟩⟩
    · refine Spec.wp_mono (call_heeds (κ := ⟨c, atDepth 1 s, []⟩) hs' fun hc => .inl ?_)
        fun l r t ht u hu => ⟨fun hc hi _ => absurd ⟨hc, hi⟩ hd, ?_⟩
      · exact (Bool.not_eq_true _).mp fun hi => hd ⟨hc, hi⟩
      · have hu := (steady_heeds.calm hu ht).consistent
        exact ⟨hu.count, hu.initted⟩
  nested c d is s hs _ := by
    have hs' : Consistent (atDepth (is.length + 2) s) := ⟨hs.count, hs.initted⟩
    have hcb : (atDepth (is.length + 2) s).inCallback = true := 
      decide_eq_true (show 1 < is.length + 2 by omega)
    refine Spec.wp_mono (call_heeds (κ := ⟨c, atDepth (is.length + 2) s, d :: is⟩) hs' fun _ => .inr hcb)
      fun l r t ht u hu => ⟨fun _ _ h => absurd (hcb.symm.trans h) (Ne.symm Bool.false_ne_true), fun _ => ?_⟩
    have hu := steady_heeds.calm hu ht
    exact ⟨⟨hu.consistent.count, hu.consistent.initted⟩, hu.initted, hu.barred⟩

/-! ## Every run -/

variable {n : Lwip} {tr : List Happening} {x y : Site}

/-- **`mm_halow_deinit` leaves nothing behind**, whatever host callbacks call while it waits, in runs in
which no call adds an interface that a call further out is past or is adding itself. -/
theorem released_runs (b : Build) (n : Lwip) (hn : n.Fresh) (tr : List Happening) (x y : Site) (r : Ret)
    (hr : Run (fun x e y => (world b).Step x e y ∧ Timely x.infos e) (start b n) tr x)
    (hy : (world b).Step x (.ret .deinit r) y)
    (hpast : ∀ d ∈ x.infos.head?, d.entry.initted = true ∧ d.entry.inCallback = false) :
    Released y.st := by
  have h0 : Consistent (State.init b n) :=
    ⟨fun itf => List.count_eq_zero.mpr (of_decide_eq_false (hn itf).1),
      fun _ h => absurd h Bool.false_ne_true⟩
  have hr' : Run (releaseSpec b).Step ⟨State.init b n, []⟩ tr x := hr
  obtain ⟨d, is, hd, hc, hpost⟩ := (release_sound b).post h0 hr' ⟨hy, trivial⟩
  have hhead : d ∈ x.infos.head? := by
    rw [hd]
    exact rfl
  have hrel : Released x.st := hpost hc (hpast d hhead).1 (hpast d hhead).2
  generalize hev : Event.ret Call.deinit r = ev at hy
  cases hy with
  | ret => exact ⟨hrel.initted, hrel.booted, hrel.itfState, hrel.listed, hrel.heap, hrel.txBuf,
      hrel.scanCache, hrel.timerList, hrel.taskList⟩
  | _ => exact nomatch hev

/-- `Timely`, to evaluate. -/
def timelyStep (is : List Doing) : Happening → Bool
  | .ask (.netifAdd itf) => !decide (Barred itf is.tail)
  | _ => true

theorem of_timelyStep {h : Happening} (hs : timelyStep is h = true) : Timely is h := by
  unfold Timely
  split
  · exact of_decide_eq_false ((Bool.not_eq_true' _).mp hs)
  · trivial

/-- An `mm_halow_deinit` that returns is past its guards. -/
def pastGuards (is : List Doing) : Happening → Bool
  | .ret .deinit _ => is.head?.all fun d => d.entry.initted && !d.entry.inCallback
  | _ => true

/-- A run ends with the return of `mm_halow_deinit`. -/
def endsReleased (tr : List Happening) : Bool :=
  match tr.getLast? with
  | some (.ret c r) => c == .deinit && r == .ok
  | _ => false

theorem of_endsReleased {tr : List Happening} (h : endsReleased tr = true) :
    tr.getLast? = some (.ret .deinit .ok) := by
  unfold endsReleased at h
  split at h
  case h_1 c r hlast =>
    obtain ⟨hc, hr⟩ := Bool.and_eq_true_iff.mp h
    rw [hlast, beq_iff_eq.mp hc, beq_iff_eq.mp hr]
  case h_2 => exact absurd h Bool.false_ne_true

theorem of_pastGuards {r : Ret} (h : pastGuards is (.ret .deinit r) = true) :
    ∀ d ∈ is.head?, d.entry.initted = true ∧ d.entry.inCallback = false := fun d hd => by
  obtain ⟨hi, hc⟩ := Bool.and_eq_true_iff.mp ((Option.all_eq_true _ _).mp h d hd)
  exact ⟨hi, (Bool.not_eq_true' _).mp hc⟩

/-- The channels of `us`. -/
def usChannels : Ask := .mmwlan (.setChannelList [⟨903500000, 1, 3, 1, 68⟩])

/-- What `mm_halow_deinit` asks for once the interfaces are down. -/
def releaseAsks : List Ask := List.map Ask.mmwlan [.registerRxCb false, .shutdown, .deinit]

/-- A host callback brings the other interface up while `mm_halow_deinit` disables the station. -/
def otherUp : Cues :=
  stationUp ++ .call .deinit :: .call (.setUp 1 true us) :: granted ([usChannels, .netifAdd .ap] ++
    List.map Ask.mmwlan [.staDisable, .staDisable, .shutdown] ++ releaseAsks)

/-- It is taken down in its turn. -/
theorem released_runs_other : ∃ tr x y, Run (world (.small false)).Step (start (.small false) noNetifs) tr x ∧
    (world (.small false)).Step x (.ret .deinit .ok) y ∧ Released y.st := by
  obtain ⟨tr, y, hr, hy⟩ := World.run_of_play_any (world (.small false))
    (fun is _ e => timelyStep is e && pastGuards is e) (start (.small false) noNetifs) otherUp
    (fun r => endsReleased r.1) rfl
  obtain ⟨tr', x, hx, hstep, hok⟩ := hr.unsnoc (of_endsReleased hy)
  refine ⟨tr', x, y, hx.mono fun _ _ _ h => h.1, hstep, ?_⟩
  exact released_runs (.small false) noNetifs fresh_noNetifs tr' x y .ok
    (hx.mono fun _ _ _ h => ⟨h.1, of_timelyStep (Bool.and_eq_true_iff.mp h.2).1⟩) hstep
    (of_pastGuards (Bool.and_eq_true_iff.mp hok).2)

/-- **A host callback brings the station up again** while the transceiver is shut down for it: the driver
is released, and the interface stays on lwIP's list. -/
theorem interface_survives : ¬ ∀ (b : Build) (n : Lwip) (tr : List Happening) (x y : Site) (r : Ret),
    n.Fresh → Run (world b).Step (start b n) tr x → (world b).Step x (.ret .deinit r) y →
    (∀ d ∈ x.infos.head?, d.entry.initted = true ∧ d.entry.inCallback = false) → Released y.st := by
  intro h
  obtain ⟨tr, y, hr, hy⟩ := World.run_of_play_any (world (.small false)) (fun is _ e => pastGuards is e)
    (start (.small false) noNetifs)
    (stationUp ++ .call .deinit :: granted [.mmwlan .staDisable] ++ .call (.setUp 0 true us) ::
      granted ([usChannels, .netifAdd .sta, .mmwlan .shutdown] ++ releaseAsks))
    (fun r => endsReleased r.1 && r.2.st.lwip.listed .sta) rfl
  obtain ⟨hlast, hlisted⟩ := Bool.and_eq_true_iff.mp hy
  obtain ⟨tr', x, hx, hstep, hok⟩ := hr.unsnoc (of_endsReleased hlast)
  have hrel := h (.small false) noNetifs tr' x y .ok fresh_noNetifs (hx.mono fun _ _ _ h => h.1) hstep
    (of_pastGuards hok)
  exact absurd ((hrel.listed .sta).symm.trans hlisted) Bool.false_ne_true

end MmHalow.Ctrl
