import MmHalow.Ctrl.Frame

/-!
# The linked pieces of control state (`mm_halow_ctrl.c`)

`initted`, `booted`, `itf_state`, the poll, the transmit buffer, the pool, lwIP's list and the scan
cache are set and cleared one by one. `Linked` is what holds of them between calls. Callbacks touch of
these only `booted` and the entries of the cache, so code is followed by what the other pieces
(`Pieces`) are: `Has J` says that they satisfy `J`.

* `linked_runs`: after every call the pieces are linked, and `netif_add` is never called on an
  interface that is listed.
-/

namespace MmHalow.Ctrl

open MmHalow.Lib

/-- **What holds between calls.** -/
structure Linked (s : State) : Prop where
  booted : s.booted = true → s.initted = true
  itfState : ∀ itf, s.itfState itf = true → s.initted = true
  initted : s.initted = true ↔ s.poll = true ∧ s.txBuf = true ∧ s.heap = true
  listed : ∀ itf, s.lwip.listed itf = s.itfState itf
  cache : s.scanCache = true → s.initted = true
  len : s.scanResults.length ≤ s.scanCacheMax

/-! ## The pieces that callbacks leave alone -/

/-- The pieces. -/
structure Pieces where
  initted : Bool
  poll : Bool
  txBuf : Bool
  heap : Bool
  cache : Bool
  max : Nat
  itf : Itf → Bool
  /-- How often each interface is on lwIP's list. -/
  counts : Itf → Nat

/-- The pieces of a state. -/
def pieces (s : State) : Pieces :=
  ⟨s.initted, s.poll, s.txBuf, s.heap, s.scanCache, s.scanCacheMax, s.itfState,
    fun i => s.lwip.list.count (.halow i)⟩

variable {b : Build} {c : Call} {J J' : Pieces → Prop} {s : State}

theorem pieces_callback (e : Callback) : pieces (callback b e s) = pieces s := by
  change pieces (still (callback b e s)) = pieces (still s)
  rw [still_callback]

/-- The pieces satisfy `J`, and what callbacks touch is as it should be. -/
structure Has (J : Pieces → Prop) (s : State) : Prop where
  pieces : J (pieces s)
  booted : s.booted = true → s.initted = true
  len : s.scanResults.length ≤ s.scanCacheMax

theorem Has.mono (h : Has J s) (hJ : ∀ v, J v → J' v) : Has J' s := ⟨hJ _ h.pieces, h.booted, h.len⟩

/-- What the pieces are between calls. -/
structure Tied (v : Pieces) : Prop where
  itf : ∀ i, v.itf i = true → v.initted = true
  poll : v.poll = v.initted
  txBuf : v.txBuf = v.initted
  heap : v.heap = v.initted
  count : ∀ i, v.counts i = (v.itf i).toNat
  cache : v.cache = true → v.initted = true
  max : v.cache = false → v.max = 0

theorem listed_of_count {n : Lwip} {i : Itf} {u : Bool} (h : n.list.count (.halow i) = u.toNat) :
    n.listed i = u := by
  unfold Lwip.listed
  cases u with
  | true => exact decide_eq_true (List.count_pos_iff.mp (h ▸ Nat.one_pos))
  | false => exact decide_eq_false (List.count_eq_zero.mp h)

theorem Has.linked (h : Has Tied s) : Linked s where
  booted := h.booted
  itfState := h.pieces.itf
  initted := by
    have hp : s.poll = s.initted := h.pieces.poll
    have ht : s.txBuf = s.initted := h.pieces.txBuf
    have hh : s.heap = s.initted := h.pieces.heap
    rw [hp, ht, hh, and_self, and_self]
  listed i := listed_of_count (h.pieces.count i)
  cache := h.pieces.cache
  len := h.len

/-- The specification: calls one at a time keep the pieces tied and add no interface twice. -/
def linkedSpec (b : Build) : Spec (oneAtATime b) :=
  .oneAtATime (world b) (fun _ _ _ => True)
    (fun _ q s => ∀ itf, q = .netifAdd itf → s.lwip.listed itf = false) (fun _ _ _ => True) (Has Tied)

theorem steady_has : (linkedSpec b).Steady (Has J) := by
  intro is s e _ h
  change Has J (callback b e s)
  have hp := pieces_callback (b := b) (s := s) e
  have hi : (callback b e s).initted = s.initted := congrArg Pieces.initted hp
  have hm : (callback b e s).scanCacheMax = s.scanCacheMax := congrArg Pieces.max hp
  exact ⟨hp ▸ h.pieces, fun hb => hi ▸ h.booted (booted_of_callback hb),
    hm ▸ length_scanResults_callback h.len⟩

/-! ## Rules for steps -/

theorem unmoved_mmwlan (f : Mmwlan) : (linkedSpec b).Unmoved c (Has J) (.mmwlan f) where
  guard _ _ _ _ h := nomatch h
  enter s h := by cases f <;> exact ⟨h.pieces, h.booted, h.len⟩
  leave _ _ h := ⟨h.pieces, h.booted, h.len⟩
  entry _ _ _ h := nomatch h

theorem unmoved_plain {q : Ask} (h : PlainAsk q) : (linkedSpec b).Unmoved c (Has J) q := by
  cases q with
  | mmwlan f => exact unmoved_mmwlan f
  | schedWait ms =>
    exact ⟨fun _ _ _ _ h => (nomatch h), fun _ h => h, fun _ _ h => h, fun _ _ _ h => (nomatch h)⟩
  | portHeapAlloc => exact h.elim
  | osalMalloc => exact h.elim
  | netifAdd itf => exact h.elim

theorem has_mmwlan (f : Mmwlan) : (linkedSpec b).Triple c (Has J) (mmwlan f) fun _ => Has J :=
  .ofWithin (Proc.within_request.mpr (unmoved_mmwlan f)) steady_has steady_has.patient

theorem has_tell (f : Mmwlan) : (linkedSpec b).Triple c (Has J) (tell f) fun _ => Has J :=
  (has_mmwlan f).seq fun _ => .pure fun _ h => h

theorem restful_has : Restful (Has J) := fun _ =>
  ⟨fun h => ⟨h.pieces, h.booted, h.len⟩, fun h => ⟨h.pieces, h.booted, h.len⟩⟩

theorem has_plain {α : Type} {p : Halow α} (h : Plain p) :
    (linkedSpec b).Triple c (Has J) p fun _ => Has J :=
  h.triple steady_has steady_has.patient restful_has fun _ => unmoved_plain

theorem unmoved_osal {q : Ask} (h : q = .portHeapAlloc ∨ q = .osalMalloc) :
    (linkedSpec b).Unmoved c (Has J) q := by
  obtain rfl | rfl := h
  all_goals exact ⟨fun _ _ _ _ h => (nomatch h), fun _ h => h, fun _ _ h => h, fun _ _ _ h => (nomatch h)⟩

theorem has_osal {q : Ask} (h : q = .portHeapAlloc ∨ q = .osalMalloc) :
    (linkedSpec b).Triple c (Has J) (.request q) fun _ => Has J :=
  .ofWithin (Proc.within_request.mpr (unmoved_osal h)) steady_has steady_has.patient

variable {v : Pieces}

/-- An assignment to the pieces: it acts on them by `g`, and leads from `v` to `v'`. -/
theorem has_store {f : State → State} (g : Pieces → Pieces) (v' : Pieces)
    (hp : ∀ s, pieces (f s) = g (pieces s)) (hg : g v = v')
    (hb : ∀ s, Has (· = v) s → (f s).booted = true → (f s).initted = true)
    (hl : ∀ s, Has (· = v) s → (f s).scanResults.length ≤ (f s).scanCacheMax) :
    (linkedSpec b).Triple c (Has (· = v)) (store f) fun _ => Has (· = v') :=
  .store steady_has fun s h => ⟨by rw [hp, h.pieces, hg], hb s h, hl s h⟩

/-- An assignment to what the pieces do not show. -/
theorem has_skip {f : State → State} (h : ∀ s, Has J s → Has J (f s)) :
    (linkedSpec b).Triple c (Has J) (store f) fun _ => Has J := .store steady_has h

/-- A piece that is read. -/
theorem has_load {α β : Type} {g : State → α} (k : Pieces → α) (hg : ∀ s, g s = k (pieces s))
    {p : α → Halow β} {R : β → State → Prop}
    (h : (linkedSpec b).Triple c (Has (· = v)) (p (k v)) R) :
    (linkedSpec b).Triple c (Has (· = v)) (load g >>= p) R := by
  intro κ l s hc hs
  refine Spec.wp_bind.mpr (Spec.wp_load steady_has hs fun t ht => ?_)
  rw [hg, ht.pieces]
  exact h κ l t hc ht

/-! ## The functions -/

/-- The pieces of a driver that is not initialised. -/
def Pieces.off (l : Itf → Nat) : Pieces := ⟨false, false, false, false, false, 0, fun _ => false, l⟩

/-- The pieces of a driver that has just been initialised. -/
def Pieces.on (l : Itf → Nat) : Pieces := ⟨true, true, true, true, false, 0, fun _ => false, l⟩

/-- The driver's interfaces are off the list. -/
def Unlisted (l : Itf → Nat) : Prop := ∀ i, l i = 0

theorem Tied.eq_off (h : Tied v) (hi : v.initted = false) : v = .off v.counts ∧ Unlisted v.counts := by
  have hp := h.poll
  have ht := h.txBuf
  have hh := h.heap
  have hc : v.cache = false := Bool.eq_false_iff.mpr fun hc => by simp [h.cache hc] at hi
  have hu : ∀ i, v.itf i = false := fun i => Bool.eq_false_iff.mpr fun hu => by simp [h.itf i hu] at hi
  have hm := h.max hc
  rw [hi] at hp ht hh
  refine ⟨?_, fun i => by rw [h.count, hu i, Bool.toNat_false]⟩
  obtain ⟨i, p, t, p', c, m, u, l⟩ := v
  simp only at hi hp ht hh hc hm hu
  subst hi hp ht hh hc hm
  simp only [Pieces.off, Pieces.mk.injEq, true_and, and_true]
  exact funext hu

theorem tied_off {l : Itf → Nat} (h : Unlisted l) : Tied (.off l) :=
  ⟨fun _ h => h, rfl, rfl, rfl, h, nofun, fun _ => rfl⟩

theorem tied_on {l : Itf → Nat} (h : Unlisted l) : Tied (.on l) :=
  ⟨nofun, rfl, rfl, rfl, h, nofun, fun _ => rfl⟩

/-- The pool is there afterwards, unless there was no memory for it. -/
theorem osalInit_has (l : Itf → Nat) : (linkedSpec b).Triple c (Has (· = .off l)) osalInit
    fun pool => Has (· = { Pieces.off l with heap := pool }) := by
  refine has_load (·.heap) (fun _ => rfl) ?_
  simp only [Pieces.off, Bool.false_eq_true, if_false]
  refine .seq (has_osal (.inl rfl)) fun pool => ?_
  refine .seq (has_store (fun v => { v with heap := pool }) { Pieces.off l with heap := pool }
    (fun _ => rfl) rfl (fun _ h => h.booted) fun _ h => h.len) fun _ => ?_
  exact .pure fun _ h => h

/-- `mm_halow_init` of a driver that is not initialised. -/
theorem init_has {l : Itf → Nat} (hl : Unlisted l) :
    (linkedSpec b).Triple c (Has (· = .off l)) (initDriver b) fun r =>
      Has fun v => Tied v ∧ (r = .ok → v.initted = true) := by
  have hfail : (linkedSpec b).Triple c (Has (· = .off l)) (pure (Ret.err .enomem)) fun r =>
      Has fun v => Tied v ∧ (r = .ok → v.initted = true) :=
    .pure fun s h => h.mono fun v hv => ⟨hv ▸ tied_off hl, fun h => nomatch h⟩
  refine has_load (·.initted) (fun _ => rfl) ?_
  simp only [Pieces.off, Bool.false_eq_true, if_false]
  change (linkedSpec b).Triple c (Has (· = .off l)) _ _
  refine .seq (has_store (fun v => { v with itf := fun _ => false }) (.off l) (fun _ => rfl) rfl
    (fun _ h => h.booted) (fun _ h => h.len)) fun _ => ?_
  refine .seq (has_skip fun _ h => ⟨h.pieces, h.booted, h.len⟩) fun _ => ?_
  refine .seq (has_store (fun v => { v with cache := false }) (.off l) (fun _ => rfl) rfl
    (fun _ h => h.booted) (fun _ h => h.len)) fun _ => ?_
  refine .seq (has_skip fun _ h => ⟨h.pieces, h.booted, Nat.zero_le _⟩) fun _ => ?_
  refine .seq (has_store (fun v => { v with max := 0 }) (.off l) (fun _ => rfl) rfl
    (fun _ h => h.booted) (fun s h => ?_)) fun _ => ?_
  · have hm : s.scanCacheMax = 0 := congrArg Pieces.max h.pieces
    exact hm ▸ h.len
  refine .seq (.ite (fun _ => has_skip fun _ h => ⟨h.pieces, h.booted, h.len⟩)
    fun _ => .pure fun _ h => h) fun _ => ?_
  refine .seq (has_skip fun _ h => ⟨h.pieces, h.booted, h.len⟩) fun _ => ?_
  refine .seq (osalInit_has l) fun pool => .ite (fun hp => ?_) fun hp => ?_
  · obtain rfl : pool = false := by simpa using hp
    exact hfail
  obtain rfl : pool = true := by simpa using hp
  -- the transmit buffer
  refine .seq (has_osal (.inr rfl)) fun block => .seq (has_store (fun v => { v with txBuf := block })
    { Pieces.off l with heap := true, txBuf := block } (fun _ => rfl) rfl (fun _ h => h.booted)
    fun _ h => h.len) fun _ => .ite (fun hb => ?_) fun hb => ?_
  · obtain rfl : block = false := by simpa using hb
    refine .seq ?_ fun _ => hfail
    refine .seq (has_skip fun _ h => ⟨h.pieces, h.booted, h.len⟩) fun _ => ?_
    exact has_store (fun v => { v with heap := false }) (.off l) (fun _ => rfl) rfl
      (fun _ h => h.booted) fun _ h => h.len
  obtain rfl : block = true := by simpa using hb
  refine .seq (has_tell _) fun _ => .seq (has_plain plain_applyPm) fun _ =>
    .seq (has_plain plain_applyRadio) fun _ => .seq (has_tell _) fun _ => .seq (has_tell _) fun _ =>
    .seq (has_tell _) fun _ => .seq (has_tell _) fun _ => ?_
  refine .seq (has_store (fun v => { v with initted := true }) { Pieces.on l with poll := false }
    (fun _ => rfl) rfl (fun _ _ _ => rfl) fun _ h => h.len) fun _ => ?_
  refine .seq (has_store (fun v => { v with poll := true }) (.on l) (fun _ => rfl) rfl
    (fun _ h => h.booted) fun _ h => h.len) fun _ => ?_
  exact .pure fun s h => h.mono fun v hv => ⟨hv ▸ tied_on hl, fun _ => hv ▸ rfl⟩

theorem ensureInit_has (hv : Tied v) :
    (linkedSpec b).Triple c (Has (· = v)) (ensureInit b) fun r =>
      Has fun v => Tied v ∧ (r = .ok → v.initted = true) := by
  refine has_load (·.initted) (fun _ => rfl) (.ite (fun hi => ?_) fun hi => ?_)
  · obtain ⟨hoff, hl⟩ := hv.eq_off (by simpa using hi)
    rw [hoff]
    exact init_has hl
  · exact .pure fun s h => h.mono fun w hw => hw ▸ ⟨hv, fun _ => by simpa using hi⟩

theorem setCountry_has (country : List UInt8) :
    (linkedSpec b).Triple c (Has J) (setCountry b country) fun _ => Has J := by
  unfold setCountry
  split
  · exact .pure fun _ h => h
  · refine .seq (has_skip fun _ h => ⟨h.pieces, h.booted, h.len⟩) fun _ => ?_
    refine .seq (has_skip fun _ h => ⟨h.pieces, h.booted, h.len⟩) fun _ => ?_
    refine .seq (has_skip fun _ h => ⟨h.pieces, h.booted, h.len⟩) fun _ => ?_
    exact .seq (has_mmwlan _) fun _ => .pure fun _ h => h

theorem apEnable_has : (linkedSpec b).Triple c (Has J) (apEnable b) fun _ => Has J :=
  .ofWithin ((within_apEnable b).mono
    (by rintro _ ⟨g, rfl⟩ _ h; exact ⟨h.pieces, h.booted, h.len⟩)
    (by rintro _ ⟨args, rfl⟩; exact unmoved_mmwlan _)) steady_has steady_has.patient

/-- The interface joins the list, on which it was not. -/
theorem tcpipInit_has {itf : Itf} (hv : v.counts itf = 0) :
    (linkedSpec b).Triple c (Has (· = v)) (tcpipInit b itf) fun _ =>
      Has (· = { v with counts := Function.update v.counts itf 1 }) := by
  refine .seq (M := fun _ => Has (· = { v with counts := Function.update v.counts itf 1 }))
    (.request steady_has (D := Has (· = v)) steady_has.patient ?_ ?_ (fun _ _ _ h => nomatch h) ?_)
    fun _ => ?_
  · rintro is s h i hi
    obtain rfl := Ask.netifAdd.inj hi
    have hcount : s.lwip.list.count (.halow itf) = v.counts itf :=
      congrFun (congrArg Pieces.counts h.pieces) itf
    exact listed_of_count (u := false) (hcount.trans hv)
  · intro s h
    have hlist : ((oneAtATime b).enter c (.netifAdd itf) s).lwip.list = s.lwip.list :=
      b.documented.begin_list _ _ _
    refine ⟨?_, h.booted, h.len⟩
    rw [← h.pieces]
    unfold pieces
    rw [hlist]
    rfl
  · intro is a s h _ _
    have hcounts : (fun i => s.lwip.list.count (.halow i)) = v.counts := congrArg Pieces.counts h.pieces
    have hzero : s.lwip.list.count (.halow itf) = 0 := (congrFun hcounts itf).trans hv
    refine ⟨?_, h.booted, h.len⟩
    have hadd : (fun i => (b.lwip.netifAddEnd itf s.lwip).list.count (.halow i)) =
        Function.update v.counts itf 1 := by
      funext i
      rw [b.documented.end_count hzero, Function.update_apply, ← hcounts]
    refine (congrArg (fun k => { pieces s with counts := k }) hadd).trans ?_
    rw [h.pieces]
  · refine has_skip fun s h => ⟨?_, h.booted, h.len⟩
    rw [← h.pieces]
    unfold pieces
    rw [b.documented.afterAdd.1]

theorem raise_has {itf : Itf} (hv : Tied v) (hi : v.initted = true) :
    (linkedSpec b).Triple c (Has (· = v)) (raise b itf) fun _ => Has Tied := by
  refine has_load (·.itf itf) (fun _ => rfl) ?_
  refine .seq (M := fun _ => Has Tied) (.ite (fun hu => ?_) fun hu => ?_) fun _ => .seq
    (M := fun _ => Has Tied) (.ite (fun _ => has_skip fun s h => ?_) fun _ => .pure fun _ h => h)
    fun _ => .pure fun _ h => h
  · have hu : v.itf itf = false := by simpa using hu
    refine .seq (tcpipInit_has (by rw [hv.count, hu, Bool.toNat_false])) fun _ => .mono
      (has_store (fun v => { v with itf := Function.update v.itf itf true })
        { v with counts := Function.update v.counts itf 1, itf := Function.update v.itf itf true }
        (fun _ => rfl) rfl (fun _ h => h.booted) fun _ h => h.len) (fun _ h => h) fun _ s h =>
      h.mono fun w hw => hw ▸ { hv with itf := fun _ _ => hi, count := fun j => ?_ }
    by_cases hj : j = itf
    · subst hj
      simp
    · simp only [Function.update_of_ne hj]
      exact hv.count j
  · exact .pure fun s h => h.mono fun w hw => hw ▸ hv
  · refine ⟨?_, h.booted, h.len⟩
    have : pieces { s with lwip := (b.lwip.setLinkUp b.glue itf s.lwip).2 } = pieces s := by
      unfold pieces
      rw [b.documented.setLinkUp.list]
    exact this ▸ h.pieces

theorem bringUp_has {itf : Itf} (hv : Tied v) (hi : v.initted = true) :
    (linkedSpec b).Triple c (Has (· = v)) (bringUp b itf) fun _ => Has Tied := by
  have hafter : (linkedSpec b).Triple c (Has (· = v)) (bringUp.afterBoot b itf) fun _ => Has Tied := by
    refine .ite (fun _ => .seq apEnable_has fun _ => .ite (fun _ => ?_) fun _ => raise_has hv hi)
      fun _ => raise_has hv hi
    exact .pure fun s h => h.mono fun w hw => hw ▸ hv
  refine .seq (.load steady_has fun _ h => h) fun _ => .ite (fun _ => ?_) fun _ => hafter
  refine .seq (has_mmwlan _) fun st => .ite (fun _ => ?_) fun _ => ?_
  · exact .pure fun s h => h.mono fun w hw => hw ▸ hv
  · refine .seq (has_skip fun s h => ⟨h.pieces, fun _ => ?_, h.len⟩) fun _ =>
      .seq (has_tell _) fun _ => hafter
    exact (congrArg Pieces.initted h.pieces).trans hi

theorem disable_has {itf : Itf} :
    (linkedSpec b).Triple c (Has J) (disable b itf) fun _ => Has J :=
  .ite (fun _ => has_tell _) fun _ => .seq (has_tell _) fun _ =>
    has_skip fun _ h => ⟨h.pieces, h.booted, h.len⟩

/-- Taking an interface down clears its bit and takes it off the list. -/
def Pieces.without (v : Pieces) (itf : Itf) : Pieces :=
  { v with counts := Function.update v.counts itf (v.counts itf - 1),
           itf := Function.update v.itf itf false }

theorem Tied.without (hv : Tied v) (itf : Itf) : Tied (v.without itf) where
  itf i hi := by
    by_cases h : i = itf
    · subst h
      simp [Pieces.without] at hi
    · exact hv.itf i (by simpa [Pieces.without, Function.update_of_ne h] using hi)
  poll := hv.poll
  txBuf := hv.txBuf
  heap := hv.heap
  count i := by
    by_cases h : i = itf
    · subst h
      have := hv.count i
      simp only [Pieces.without, Function.update_self, this]
      cases v.itf i <;> rfl
    · simp only [Pieces.without, Function.update_of_ne h]
      exact hv.count i
  cache := hv.cache
  max := hv.max

theorem takeDown_has {itf : Itf} (hv : Tied v) :
    (linkedSpec b).Triple c (Has (· = v)) (takeDown b itf) fun _ =>
      Has fun w => Tied w ∧ w.initted = v.initted ∧ ∀ i, w.itf i = true → i ≠ itf ∧ v.itf i = true := by
  refine .seq disable_has fun _ => has_load (·.itf itf) (fun _ => rfl) ?_
  refine .seq (M := fun _ => Has fun w => Tied w ∧ w.initted = v.initted ∧
    ∀ i, w.itf i = true → i ≠ itf ∧ v.itf i = true) (.ite (fun hu => ?_) fun hu => ?_) fun _ => ?_
  · refine .seq (has_skip fun s h => ?_) fun _ => ?_
    · have : pieces { s with lwip := (b.lwip.setLinkDown itf s.lwip).2 } = pieces s := by
        unfold pieces
        rw [b.documented.setLinkDown.list]
      exact ⟨this ▸ h.pieces, h.booted, h.len⟩
    have hremoved : ∀ s, pieces { s with lwip := b.lwip.tcpipDeinit b.glue itf s.lwip } =
        { pieces s with counts := Function.update (pieces s).counts itf ((pieces s).counts itf - 1) } := by
      intro s
      have hcounts : (fun i => (b.lwip.tcpipDeinit b.glue itf s.lwip).list.count (.halow i)) =
          Function.update (pieces s).counts itf ((pieces s).counts itf - 1) := by
        funext i
        rw [b.documented.tcpipDeinit_count, Function.update_apply]
        rfl
      rw [← hcounts]
      rfl
    refine .seq (has_store (fun v => { v with counts := Function.update v.counts itf (v.counts itf - 1) })
      { v with counts := Function.update v.counts itf (v.counts itf - 1) } hremoved rfl
      (fun _ h => h.booted) fun _ h => h.len) fun _ => .mono
      (has_store (fun v => { v with itf := Function.update v.itf itf false }) (v.without itf)
        (fun _ => rfl) rfl (fun _ h => h.booted) fun _ h => h.len) (fun _ h => h) fun _ s h =>
      h.mono fun w hw => hw ▸ ⟨hv.without itf, rfl, fun i hi => ?_⟩
    by_cases h : i = itf
    · subst h
      simp [Pieces.without] at hi
    · exact ⟨h, by simpa [Pieces.without, Function.update_of_ne h] using hi⟩
  · refine .pure fun s h => h.mono fun w hw => ?_
    subst hw
    exact ⟨hv, rfl, fun i hi => ⟨fun h => hu (h ▸ hi), hi⟩⟩
  -- where no interface is left, the transceiver is shut down
  refine .seq (.load steady_has fun _ h => h) fun _ => .seq (.ite (fun _ => ?_) fun _ =>
    .pure fun _ h => h) fun _ => .pure fun _ h => h
  refine .seq (has_skip fun _ h => ⟨h.pieces, h.booted, h.len⟩) fun _ => .seq (has_tell _) fun _ => ?_
  refine .seq (has_skip fun _ h => ⟨h.pieces, h.booted, h.len⟩) fun _ => ?_
  exact has_skip fun _ h => ⟨h.pieces, nofun, h.len⟩

/-- From explicit pieces to any that are tied. -/
theorem triple_of_tied {α : Type} {p : Halow α} {R : α → State → Prop}
    (h : ∀ v, Tied v → (linkedSpec b).Triple c (Has (· = v)) p R) :
    (linkedSpec b).Triple c (Has Tied) p R :=
  fun κ l s hc hs => h (pieces s) hs.pieces κ l s hc ⟨rfl, hs.booted, hs.len⟩

theorem setUpItf_has {itf : Itf} {up : Bool} {country : List UInt8} :
    (linkedSpec b).Triple c (Has Tied) (setUpItf b itf up country) fun _ => Has Tied := by
  refine .ite (fun _ => ?_) fun _ => ?_
  · refine .seq (.load steady_has fun _ h => h) fun _ => .ite (fun _ => .pure fun _ h => h) fun _ => ?_
    refine .seq (triple_of_tied fun v hv => ensureInit_has hv) fun r => .ite (fun _ => ?_) fun hr => ?_
    · exact .pure fun s h => h.mono fun v hv => hv.1
    refine .seq (setCountry_has country) fun r' => .ite (fun _ => ?_) fun _ => ?_
    · exact .pure fun s h => h.mono fun v hv => hv.1
    · exact fun κ l s hc hs => bringUp_has (v := pieces s) hs.pieces.1
        (hs.pieces.2 (by simpa using hr)) κ l s hc ⟨rfl, hs.booted, hs.len⟩
  · refine .seq (.load steady_has fun _ h => h) fun _ => .ite (fun _ => .pure fun _ h => h) fun _ => ?_
    exact triple_of_tied fun v hv => (takeDown_has hv).mono (fun _ h => h) fun _ s h =>
      h.mono fun w hw => hw.1

theorem deinitItf_has {itf : Itf} (hv : Tied v) :
    (linkedSpec b).Triple c (Has (· = v)) (deinitItf b itf) fun _ =>
      Has fun w => Tied w ∧ (v.initted = true → w.initted = true) ∧
        ∀ i, w.itf i = true → i ≠ itf ∧ v.itf i = true := by
  refine has_load (·.itf itf) (fun _ => rfl) (.ite (fun hu => ?_) fun hu => ?_)
  · refine .seq (M := fun _ => Has (· = v)) (.load steady_has fun _ h => h) fun country =>
      .seq ?_ fun _ => .pure fun _ h => h
    refine .ite (fun h => nomatch h) fun _ => has_load (·.initted) (fun _ => rfl) (.ite (fun hi => ?_)
      fun hi => ?_)
    · have := hv.itf itf hu
      simp [this] at hi
    · exact (takeDown_has hv).mono (fun _ h => h) fun _ s h =>
        h.mono fun w hw => ⟨hw.1, fun hi => hw.2.1.trans hi, hw.2.2⟩
  · refine .pure fun s h => h.mono fun w hw => ?_
    subst hw
    exact ⟨hv, id, fun i hi => ⟨fun h => hu (h ▸ hi), hi⟩⟩

/-- The driver on its way out: the transceiver is shut down, the pieces are `v`, and where `e` says so
the cache is gone and holds nothing. -/
structure Leaving (v : Pieces) (e : Bool) (s : State) : Prop where
  pieces : pieces s = v
  booted : s.booted = false
  len : s.scanResults.length ≤ s.scanCacheMax
  empty : e = true → v.cache = false ∧ s.scanResults = []

theorem steady_leaving {e : Bool} : (linkedSpec b).Steady (Leaving v e) := by
  intro is s k _ h
  change Leaving v e (callback b k s)
  have hp := pieces_callback (b := b) (s := s) k
  have hm : (callback b k s).scanCacheMax = s.scanCacheMax := congrArg Pieces.max hp
  refine ⟨hp.trans h.pieces, by rw [booted_callback, h.booted, Bool.false_and],
    hm ▸ length_scanResults_callback h.len, fun he => ⟨(h.empty he).1, ?_⟩⟩
  have hc : s.scanCache = false := (congrArg Pieces.cache h.pieces).trans (h.empty he).1
  rw [scanResults_callback_of_none hc, (h.empty he).2]

/-- A step on the way out. -/
theorem leaving_store {f : State → State} {e : Bool} (v' : Pieces) (e' : Bool)
    (h : ∀ s, Leaving v e s → Leaving v' e' (f s)) :
    (linkedSpec b).Triple c (Leaving v e) (store f) fun _ => Leaving v' e' :=
  .store steady_leaving h

theorem deinitRest_has (hv : Tied v) (hi : v.initted = true) (hu : ∀ i, v.itf i = false) :
    (linkedSpec b).Triple c (Has (· = v)) deinitRest fun _ => Has Tied := by
  have hl : Unlisted v.counts := fun i => by rw [hv.count, hu, Bool.toNat_false]
  have hp := hv.poll
  have ht := hv.txBuf
  have hh := hv.heap
  obtain ⟨i, p, t, h, ch, m, u, l⟩ := v
  simp only at hi hu hl hp ht hh
  subst hi hp ht hh
  obtain rfl : u = fun _ => false := funext hu
  refine .seq (has_tell _) fun _ => ?_
  refine .seq (has_skip fun _ h => ⟨h.pieces, h.booted, h.len⟩) fun _ => ?_
  refine .seq (has_tell _) fun _ => .seq (has_tell _) fun _ => ?_
  refine .seq (has_skip fun _ h => ⟨h.pieces, h.booted, h.len⟩) fun _ => ?_
  refine .seq (M := fun _ => Leaving ⟨true, true, true, true, ch, m, fun _ => false, l⟩ false)
    (.store steady_has fun s h => ⟨h.pieces, rfl, h.len, nofun⟩) fun _ => ?_
  refine .seq (leaving_store ⟨true, false, true, true, ch, m, fun _ => false, l⟩ false fun s h =>
    ⟨congrArg (fun v => { v with poll := false }) h.pieces, h.booted, h.len, nofun⟩) fun _ => ?_
  refine .seq (leaving_store _ _ fun s h => ⟨h.pieces, h.booted, h.len, h.empty⟩) fun _ => ?_
  refine .seq (.seq (leaving_store _ _ fun s h => ⟨h.pieces, h.booted, h.len, h.empty⟩) fun _ =>
    leaving_store ⟨true, false, true, false, ch, m, fun _ => false, l⟩ false fun s h =>
    ⟨congrArg (fun v => { v with heap := false }) h.pieces, h.booted, h.len, nofun⟩) fun _ => ?_
  refine .seq (leaving_store ⟨true, false, false, false, ch, m, fun _ => false, l⟩ false fun s h =>
    ⟨congrArg (fun v => { v with txBuf := false }) h.pieces, h.booted, h.len, nofun⟩) fun _ => ?_
  refine .seq (leaving_store ⟨true, false, false, false, false, m, fun _ => false, l⟩ false fun s h =>
    ⟨congrArg (fun v => { v with cache := false }) h.pieces, h.booted, h.len, nofun⟩) fun _ => ?_
  refine .seq (leaving_store _ true fun s h =>
    ⟨h.pieces, h.booted, Nat.zero_le _, fun _ => ⟨rfl, rfl⟩⟩) fun _ => ?_
  refine .seq (leaving_store ⟨true, false, false, false, false, 0, fun _ => false, l⟩ true fun s h =>
    ⟨congrArg (fun v => { v with max := 0 }) h.pieces, h.booted, ?_, fun he => ⟨rfl, (h.empty he).2⟩⟩)
    fun _ => ?_
  · simp [(h.empty rfl).2]
  refine .seq (leaving_store _ _ fun s h => ⟨h.pieces, h.booted, h.len, h.empty⟩) fun _ => ?_
  refine .seq (leaving_store (.off l) true fun s h =>
    ⟨congrArg (fun v => { v with initted := false }) h.pieces, h.booted, h.len, h.empty⟩) fun _ => ?_
  exact .store steady_leaving fun s h => ⟨h.pieces ▸ tied_off hl, fun hb => by simp [h.booted] at hb, h.len⟩

theorem deinit_has : (linkedSpec b).Triple c (Has Tied) (deinitDriver b) fun _ => Has Tied := by
  refine triple_of_tied fun v hv => has_load (·.initted) (fun _ => rfl) (.ite (fun _ => ?_) fun hi => ?_)
  · exact .pure fun s h => h.mono fun w hw => hw ▸ hv
  have hi : v.initted = true := by simpa using hi
  refine .seq (M := fun _ => Has (· = v)) (.load steady_has fun _ h => h) fun _ =>
    .ite (fun _ => ?_) fun _ => ?_
  · exact .pure fun s h => h.mono fun w hw => hw ▸ hv
  refine .seq (deinitItf_has hv) fun _ => .seq (M := fun _ => Has fun w => Tied w ∧
    w.initted = true ∧ ∀ i, w.itf i = false) ?_ fun _ => ?_
  · intro κ l s hc hs
    obtain ⟨hw, hwi, hws⟩ := hs.pieces
    refine (deinitItf_has hw).mono (fun _ h => h) (fun _ t ht => ht.mono fun w hw' =>
      ⟨hw'.1, hw'.2.1 (hwi hi), fun i => ?_⟩) κ l s hc ⟨rfl, hs.booted, hs.len⟩
    refine Bool.eq_false_iff.mpr fun hu => ?_
    obtain ⟨hne, hu'⟩ := hw'.2.2 i hu
    obtain ⟨hne', -⟩ := hws i hu'
    cases i with
    | sta => exact hne' rfl
    | ap => exact hne rfl
  · refine .seq ?_ fun _ => .pure fun _ h => h
    exact fun κ l s hc hs => deinitRest_has hs.pieces.1 hs.pieces.2.1 hs.pieces.2.2 κ l s hc
      ⟨rfl, hs.booted, hs.len⟩

/-- A block comes out of a pool. -/
theorem osalMalloc_has : (linkedSpec b).Triple c (Has (· = v)) osalMalloc fun block s =>
    Has (· = v) s ∧ (block = true → v.heap = true) := by
  refine .request steady_has steady_has.patient (fun _ _ _ _ h => nomatch h) (fun _ h => h)
    (fun _ _ _ h => nomatch h) fun _ block s h ha _ => ⟨h, fun hb => ?_⟩
  have hs : s.heap = v.heap := congrArg Pieces.heap h.pieces
  have ha : (!block || s.heap) = true := ha
  rw [← hs]
  simpa [hb] using ha

theorem scanCached_has {max : Nat} :
    (linkedSpec b).Triple c (Has Tied) (wifiScanCached b max) fun _ => Has Tied := by
  have hsweep : (linkedSpec b).Triple c (Has Tied) (sweep max) fun _ => Has Tied := by
    refine .seq (M := fun _ => Has Tied) ?_ fun _ => .ite (fun _ => .pure fun _ h => h) fun _ => ?_
    · refine .seq (.load steady_has fun _ h => h) fun _ => .ite (fun _ => ?_) fun _ => .pure fun _ h => h
      refine .seq (has_skip fun _ h => ⟨h.pieces, h.booted, Nat.zero_le _⟩) fun _ => ?_
      refine .seq (has_skip fun _ h => ⟨h.pieces, h.booted, h.len⟩) fun _ => .seq (has_mmwlan _) fun _ =>
        .ite (fun _ => ?_) fun _ => .pure fun _ h => h
      exact .seq (has_skip fun _ h => ⟨h.pieces, h.booted, h.len⟩) fun _ => .pure fun _ h => h
    · exact .seq (has_plain (plain_schedWaitIdle _)) fun _ => .seq (.load steady_has fun _ h => h)
        fun _ => .pure fun _ h => h
  refine .seq (M := fun _ => Has Tied) (.load steady_has fun _ h => h) fun _ =>
    .ite (fun _ => .pure fun _ h => h) fun _ => ?_
  refine triple_of_tied fun v hv => has_load (·.cache) (fun _ => rfl) (.ite (fun hc => ?_) fun _ => ?_)
  · -- a block can only come out of a pool, which an initialised driver has
    have hc : v.cache = false := by simpa using hc
    refine .seq osalMalloc_has fun block => .of_and fun hheap => .seq
      (has_store (fun v => { v with cache := block }) { v with cache := block } (fun _ => rfl) rfl
      (fun _ h => h.booted) fun _ h => h.len) fun _ => ?_
    have hv' : Tied { v with cache := block } :=
      { hv with cache := fun hb => hv.heap ▸ hheap hb, max := fun _ => hv.max hc }
    refine .ite (fun _ => .pure fun s h => h.mono fun w hw => hw ▸ hv') fun hb => ?_
    obtain rfl : block = true := by simpa using hb
    refine .seq (.store steady_has fun s h => ⟨?_, h.booted, ?_⟩) fun _ => hsweep
    · have hp : pieces { s with scanCacheMax := b.scanCacheMax % 256 } =
          { v with cache := true, max := b.scanCacheMax % 256 } :=
        congrArg (fun v => { v with max := b.scanCacheMax % 256 }) h.pieces
      exact hp ▸ { hv' with max := nofun }
    · have hm : s.scanCacheMax = 0 := (congrArg Pieces.max h.pieces).trans (hv.max hc)
      have := h.len
      simp only
      omega
  · exact fun κ l s hc hs => hsweep κ l s hc (hs.mono fun w hw => hw ▸ hv)

theorem leave_has {itf : Int} : (linkedSpec b).Triple c (Has J) (wifiLeave itf) fun _ => Has J :=
  .ite (fun _ => .seq (has_mmwlan _) fun _ => .pure fun _ h => h) fun _ =>
    .seq (has_skip fun _ h => ⟨h.pieces, h.booted, h.len⟩) fun _ =>
    .seq (has_mmwlan _) fun _ => .pure fun _ h => h

/-- Every call keeps the pieces tied. -/
theorem body_has : (linkedSpec b).Triple c (Has Tied) (c.body b) fun _ => Has Tied := by
  by_cases hplain : c.plain = true
  · exact has_plain (plain_body hplain)
  · cases c with
    | init =>
      refine triple_of_tied fun v hv => ?_
      by_cases hi : v.initted = true
      · refine has_load (·.initted) (fun _ => rfl) (.ite (fun _ => ?_) fun h => absurd hi h)
        exact .pure fun s h => h.mono fun w hw => hw ▸ hv
      · obtain ⟨hoff, hl⟩ := hv.eq_off (by simpa using hi)
        rw [hoff]
        exact (init_has hl).mono (fun _ h => h) fun _ s h => h.mono fun w hw => hw.1
    | deinit => exact deinit_has
    | setUp itf up country =>
      change (linkedSpec b).Triple _ _ (wifiSetUp b itf up country) _
      unfold wifiSetUp
      split
      · exact .pure fun _ h => h
      · exact setUpItf_has
    | scanCached max => exact scanCached_has
    | leave itf => exact leave_has
    | _ => exact absurd rfl hplain

theorem linked_sound (b : Build) : (linkedSpec b).Sound :=
  Spec.oneAtATime_sound (fun s e h _ => steady_has [] s e trivial h) fun _ _ h _ =>
    body_has.meets ⟨h.pieces, h.booted, h.len⟩ (fun _ => steady_has) fun _ _ _ h =>
      ⟨trivial, h.pieces, h.booted, h.len⟩

/-! ## Every run -/

theorem has_init {b : Build} {n : Lwip} (hn : n.Fresh) : Has Tied (State.init b n) where
  pieces := tied_off fun i => List.count_eq_zero.mpr (of_decide_eq_false (hn i).1)
  booted := nofun
  len := Nat.le_refl _

variable {n : Lwip} {tr : List Happening} {x y : Site}

theorem linked_run (hr : Run (oneAtATime b).Step (start b n) tr x) :
    Run (linkedSpec b).Step ⟨State.init b n, []⟩ tr x :=
  hr.mono fun _ _ _ h => ⟨h, trivial⟩

/-- Where a call is made, the pieces are linked. -/
theorem linked_of_call (hn : n.Fresh) (hr : Run (oneAtATime b).Step (start b n) tr x)
    (h : (oneAtATime b).Step x (.call c) y) : Linked x.st :=
  ((linked_sound b).idle (has_init hn) (linked_run hr) (World.stack_of_call h)).linked

/-- Calls are made where the pieces are linked. -/
def FromLinked (s : State) : Happening → Prop
  | .call _ => Linked s
  | _ => True

/-- They always are, where calls are made one at a time. -/
theorem fromLinked_run {p : Site → Happening → Prop} (hn : n.Fresh)
    (hr : Run (fun x e y => (oneAtATime b).Step x e y ∧ p x e) (start b n) tr x) :
    Run (fun x e y => (oneAtATime b).Step x e y ∧ p x e ∧ FromLinked x.st e) (start b n) tr x := by
  refine hr.strengthen fun tr x e y hr hstep => ⟨hstep.1, hstep.2, ?_⟩
  cases e with
  | call c => exact linked_of_call hn (hr.mono fun _ _ _ h => h.1) hstep.1
  | _ => trivial

/-- **Calls made one at a time keep the pieces linked**, whatever morselib and the heap answer and
wherever callbacks cut in, and never add an interface to lwIP's list that is on it. -/
theorem linked_runs (b : Build) (n : Lwip) (hn : n.Fresh) (tr : List Happening) (x : Site)
    (hr : Run (oneAtATime b).Step (start b n) tr x) :
    (x.stack = [] → Linked x.st) ∧
      ∀ itf y, (oneAtATime b).Step x (.ask (.netifAdd itf)) y → x.st.lwip.listed itf = false :=
  ⟨fun hx => ((linked_sound b).idle (has_init hn) (linked_run hr) hx).linked, fun itf _ hy =>
    (linked_sound b).guard (has_init hn) (linked_run hr) ⟨hy, trivial⟩ itf rfl⟩

/-- The station is brought up, and then a fatal error is reported. -/
theorem linked_runs_fatal : ∃ tr x,
    Run (oneAtATime (.small false)).Step (start (.small false) noNetifs) tr x ∧ x.stack = [] ∧
      x.st.booted = false ∧ x.st.lwip.listed .sta = true ∧ Linked x.st := by
  obtain ⟨tr, x, hr, hx⟩ := World.run_of_play_any (oneAtATime (.small false)) (fun _ _ _ => true)
    (start (.small false) noNetifs) (stationUp ++ [.cb .fatal])
    (fun r => r.2.stack.isEmpty && !r.2.st.booted && r.2.st.lwip.listed .sta) rfl
  have hr := hr.mono fun _ _ _ h => h.1
  simp only [Bool.and_eq_true, List.isEmpty_iff, Bool.not_eq_true'] at hx
  exact ⟨tr, x, hr, hx.1.1, hx.1.2, hx.2,
    (linked_runs (.small false) noNetifs fresh_noNetifs tr x hr).1 hx.1.1⟩

end MmHalow.Ctrl
