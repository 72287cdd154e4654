import MmHalow.Ctrl.Lwip
import MmHalow.Lib.Run

/-!
# The default route (`mm_halow_cb_tcpip_init`, `mm_halow_cb_tcpip_deinit`)

`netif_default` is lwIP's, and other drivers' interfaces stand on the same list. Of lwIP's functions the
driver relies on what `LwipFns.Documented` says: `netif_add` and `netif_remove` maintain the list, and
the default route goes with the interface that holds it. `mm_halow_wifi_set_up` is here as far as it
brings the interface up or down (`LwipFns.raise`, `LwipFns.takeDown`).

* `InitSpec`, `DeinitSpec`: what each of the two functions does to the list and the default route.
* `Routed.Step`: the control layer brings its interfaces up and down in any order, and between two
  such calls others change the flags, the links, the default route and their own interfaces at will.
* `default_route_borrowed`: **the driver takes the default route only where nobody has it, gives it up
  only with the interface, and then hands it to an interface that is up where one is left.**
-/

namespace MmHalow.Ctrl

open MmHalow.Lib

variable {f : LwipFns} {b : LwipBuild} {itf : Itf} {n : Lwip}

/-! ## What the functions do -/

/-- **What `mm_halow_cb_tcpip_init` does**, of an interface that is not on the list. -/
structure InitSpec (itf : Itf) (n n' : Lwip) : Prop where
  list : n'.list.Perm (.halow itf :: n.list)
  default : n'.default = if n.default = none then some (.halow itf) else n.default

/-- **What `mm_halow_cb_tcpip_deinit` does**, of an interface that is on the list. -/
structure DeinitSpec (itf : Itf) (n n' : Lwip) : Prop where
  list : n'.list.Perm (n.list.erase (.halow itf))
  kept : n.default ≠ some (.halow itf) → n'.default = n.default
  handed : n.default = some (.halow itf) →
    (n'.default = none ∧ ∀ m ∈ n'.list, n'.up m = false) ∨
      ∃ m ∈ n'.list, n'.default = some m ∧ n'.up m = true

namespace LwipFns

theorem tcpipInit_spec (hf : f.Documented) (h : .halow itf ∉ n.list) :
    InitSpec itf n (f.tcpipInit b itf n) := by
  have hbegin : ((f.netifAddBegin itf (b.added itf) n).clearFlags itf).list = n.list := hf.begin_list _ _ _
  have hroute : ((f.netifAddBegin itf (b.added itf) n).clearFlags itf).default = n.default :=
    hf.begin_default _ _ _
  have hadd : (f.netifAdd itf (b.added itf) n).list.Perm (.halow itf :: n.list) := by
    rw [← hbegin] at h ⊢
    exact hf.end_list itf _ h
  have hdef : (f.netifAdd itf (b.added itf) n).default = n.default := (hf.end_default itf _).trans hroute
  obtain ⟨hl, -, hd⟩ := @Documented.afterAdd f b itf (f.netifAdd itf (b.added itf) n) hf
  constructor
  · unfold tcpipInit
    rw [hl]
    exact hadd
  · unfold tcpipInit
    rw [hd, hdef]

theorem tcpipDeinit_spec (hf : f.Documented) (h : .halow itf ∈ n.list) :
    DeinitSpec itf n (f.tcpipDeinit b itf n) := by
  obtain ⟨n₁, hl₁, -, hd₁, heq⟩ := @Documented.stopped f b itf n hf
  rw [← hl₁] at h
  have hl₂ : (f.removeListed itf n₁.list n₁).list.Perm (n.list.erase (.halow itf)) := by
    rw [removeListed_eq, if_pos h, ← hl₁]
    exact hf.remove_list itf n₁ h
  have hd₂ : (f.removeListed itf n₁.list n₁).default =
      if n.default = some (.halow itf) then none else n.default := by
    rw [removeListed_eq, if_pos h, ← hd₁]
    exact hf.remove_default itf n₁
  rw [heq]
  generalize f.removeListed itf n₁.list n₁ = n₂ at hl₂ hd₂ ⊢
  by_cases hwas : n.default = some (.halow itf)
  · rw [if_pos hwas] at hd₂
    obtain ⟨hl₃, -, hup₃, hd₃⟩ := handOver_spec (n := n₂) hf n₂.list
    dsimp only
    rw [if_pos ⟨hwas, hd₂⟩]
    constructor
    · rw [hl₃]
      exact hl₂
    · exact fun hne => absurd hwas hne
    · intro _
      rw [hl₃, hup₃]
      rcases hd₃ with ⟨hd, hdown⟩ | ⟨m, hm, hd, hup⟩
      · exact .inl ⟨hd.trans hd₂, hdown⟩
      · exact .inr ⟨m, hm, hd, hup⟩
  · rw [if_neg hwas] at hd₂
    dsimp only
    rw [if_neg fun hand => hwas hand.1]
    exact ⟨hl₂, fun _ => hd₂, fun hw => absurd hw hwas⟩

end LwipFns

/-! ## The control layer -/

/-- lwIP, and the interfaces that `itf_state` says are up. -/
structure Routed where
  lwip : Lwip
  itfState : Itf → Bool

/-- `mm_halow_wifi_set_up(itf, true)`, from where the transceiver runs. -/
def LwipFns.raise (f : LwipFns) (b : LwipBuild) (itf : Itf) (s : Routed) : Routed :=
  let s := if !s.itfState itf then
    ⟨f.tcpipInit b itf s.lwip, Function.update s.itfState itf true⟩ else s
  if b.enableAp ∧ itf = .ap then { s with lwip := (f.setLinkUp b itf s.lwip).2 } else s

/-- `mm_halow_wifi_set_up(itf, false)`, of the interface. -/
def LwipFns.takeDown (f : LwipFns) (b : LwipBuild) (itf : Itf) (s : Routed) : Routed :=
  if s.itfState itf then
    ⟨f.tcpipDeinit b itf (f.setLinkDown itf s.lwip).2, Function.update s.itfState itf false⟩
  else s

/-- The driver brings an interface up or down, or others leave lwIP's data as `n`. -/
inductive RouteEvent where
  | up (itf : Itf)
  | down (itf : Itf)
  | others (n : Lwip)

/-- Others add and remove their own interfaces only. -/
structure Lwip.OthersMay (n n' : Lwip) : Prop where
  nodup : n'.list.Nodup
  listed : ∀ itf, .halow itf ∈ n'.list ↔ .halow itf ∈ n.list

/-- **One step.** -/
inductive Routed.Step (f : LwipFns) (b : LwipBuild) : Routed → RouteEvent → Routed → Prop
  | up {s : Routed} {itf : Itf} : Step f b s (.up itf) (f.raise b itf s)
  | down {s : Routed} {itf : Itf} : Step f b s (.down itf) (f.takeDown b itf s)
  | others {s : Routed} {n : Lwip} : s.lwip.OthersMay n → Step f b s (.others n) { s with lwip := n }

/-- The interfaces that are up are those of the driver's that are on the list. -/
structure Routed.Listed (s : Routed) : Prop where
  nodup : s.lwip.list.Nodup
  listed : ∀ itf, .halow itf ∈ s.lwip.list ↔ s.itfState itf = true

namespace Routed

variable {s : Routed}

/-- An interface is added. -/
theorem Listed.init {n' : Lwip} (h : s.Listed) (hdown : .halow itf ∉ s.lwip.list)
    (hn : InitSpec itf s.lwip n') : Listed ⟨n', Function.update s.itfState itf true⟩ := by
  constructor
  · exact hn.list.nodup_iff.mpr (List.nodup_cons.mpr ⟨hdown, h.nodup⟩)
  · intro i
    rw [hn.list.mem_iff, List.mem_cons]
    by_cases hi : i = itf
    · subst hi
      exact iff_of_true (.inl rfl) (Function.update_self ..)
    · have hne : Netif.halow i ≠ .halow itf := fun he => hi (Netif.halow.inj he)
      dsimp only
      rw [Function.update_of_ne hi, or_iff_right hne]
      exact h.listed i

/-- An interface is removed. -/
theorem Listed.deinit {n n' : Lwip} (h : Listed ⟨n, s.itfState⟩) (hn : DeinitSpec itf n n') :
    Listed ⟨n', Function.update s.itfState itf false⟩ := by
  constructor
  · exact hn.list.nodup_iff.mpr (h.nodup.erase _)
  · intro i
    rw [hn.list.mem_iff, h.nodup.mem_erase_iff]
    by_cases hi : i = itf
    · subst hi
      exact iff_of_false (fun hm => hm.1 rfl) (by simp)
    · have hne : Netif.halow i ≠ .halow itf := fun he => hi (Netif.halow.inj he)
      dsimp only
      rw [Function.update_of_ne hi, and_iff_right hne]
      exact h.listed i

/-- **An interface is brought up**: the default route is taken where nobody has it. -/
theorem Listed.raise (hf : f.Documented) (h : s.Listed) : (f.raise b itf s).Listed ∧
    ((f.raise b itf s).lwip.default ≠ s.lwip.default → s.lwip.default = none) := by
  have hinit : Listed (if !s.itfState itf then
      ⟨f.tcpipInit b itf s.lwip, Function.update s.itfState itf true⟩ else s) ∧
      ((if !s.itfState itf then
          (⟨f.tcpipInit b itf s.lwip, Function.update s.itfState itf true⟩ : Routed)
        else s).lwip.default ≠ s.lwip.default → s.lwip.default = none) := by
    cases hbit : s.itfState itf with
    | true => exact ⟨h, fun hne => absurd rfl hne⟩
    | false =>
      have hdown : .halow itf ∉ s.lwip.list := fun hm => nomatch hbit.symm.trans ((h.listed itf).mp hm)
      have hspec := LwipFns.tcpipInit_spec (b := b) hf hdown
      refine ⟨h.init hdown hspec, fun hne => by_contra fun hsome => hne ?_⟩
      exact hspec.default.trans (if_neg hsome)
  unfold LwipFns.raise
  generalize (if !s.itfState itf then
    (⟨f.tcpipInit b itf s.lwip, Function.update s.itfState itf true⟩ : Routed) else s) = s₁ at hinit ⊢
  obtain ⟨hlisted, hd⟩ := hinit
  dsimp only
  split_ifs with hap
  · constructor
    · constructor
      · rw [hf.setLinkUp.list]
        exact hlisted.nodup
      · intro i
        rw [hf.setLinkUp.list]
        exact hlisted.listed i
    · rw [hf.setLinkUp.default]
      exact hd
  · exact ⟨hlisted, hd⟩

/-- **An interface is taken down.** -/
theorem Listed.takeDown (hf : f.Documented) (h : s.Listed) (hbit : s.itfState itf = true) :
    (f.takeDown b itf s).Listed ∧ DeinitSpec itf s.lwip (f.takeDown b itf s).lwip := by
  have hlink : Listed ⟨(f.setLinkDown itf s.lwip).2, s.itfState⟩ := by
    constructor
    · rw [hf.setLinkDown.list]
      exact h.nodup
    · intro i
      rw [hf.setLinkDown.list]
      exact h.listed i
  have hspec := LwipFns.tcpipDeinit_spec (b := b) hf ((hlink.listed itf).mpr hbit)
  have htake : f.takeDown b itf s =
      ⟨f.tcpipDeinit b itf (f.setLinkDown itf s.lwip).2, Function.update s.itfState itf false⟩ :=
    if_pos hbit
  rw [htake]
  refine ⟨hlink.deinit hspec, ?_⟩
  obtain ⟨hlist, hkept, hhanded⟩ := hspec
  rw [hf.setLinkDown.list] at hlist
  rw [hf.setLinkDown.default] at hkept hhanded
  exact ⟨hlist, hkept, hhanded⟩

theorem takeDown_of_down (hbit : s.itfState itf = false) : f.takeDown b itf s = s :=
  if_neg (Bool.eq_false_iff.mp hbit)

/-- One step. -/
theorem Listed.step {e : RouteEvent} {s' : Routed} (hf : f.Documented) (h : s.Listed)
    (hs : Step f b s e s') : s'.Listed := by
  cases hs with
  | up => exact (h.raise hf).1
  | @down itf =>
    cases hbit : s.itfState itf with
    | true => exact (h.takeDown hf hbit).1
    | false =>
      rw [takeDown_of_down hbit]
      exact h
  | others hn => exact ⟨hn.nodup, fun i => (hn.listed i).trans (h.listed i)⟩

end Routed

/-! ## Every run -/

/-- **What the driver may do to the default route** where it brings the interface up or takes it down. -/
def RouteEvent.Borrows (x y : Routed) : RouteEvent → Prop
  | up _ => y.lwip.default ≠ x.lwip.default → x.lwip.default = none
  | down itf => (y.lwip.default ≠ x.lwip.default → x.lwip.default = some (.halow itf)) ∧
    (x.itfState itf = true → x.lwip.default = some (.halow itf) → .halow itf ∉ y.lwip.list ∧
      (y.lwip.default = none → ∀ m ∈ y.lwip.list, y.lwip.up m = false) ∧
      ∀ m, y.lwip.default = some m → m ∈ y.lwip.list ∧ y.lwip.up m = true)
  | others _ => True

/-- **The default route is borrowed**, in every run from a list without the driver's interfaces. -/
theorem default_route_borrowed (f : LwipFns) (hf : f.Documented) (b : LwipBuild) (n : Lwip)
    (hn : n.list.Nodup) (hfree : ∀ itf, .halow itf ∉ n.list) (tr : List RouteEvent) (x : Routed)
    (hr : Run (Routed.Step f b) ⟨n, fun _ => false⟩ tr x) (e : RouteEvent) (y : Routed)
    (hy : Routed.Step f b x e y) : e.Borrows x y := by
  have hstart : Routed.Listed ⟨n, fun _ => false⟩ :=
    ⟨hn, fun itf => iff_of_false (hfree itf) Bool.false_ne_true⟩
  have hx : x.Listed := hr.inv hstart fun _ _ _ h hs => h.step hf hs
  cases hy with
  | up => exact (hx.raise hf).2
  | @down itf =>
    cases hbit : x.itfState itf with
    | false =>
      rw [Routed.takeDown_of_down hbit]
      exact ⟨fun hne => absurd rfl hne, fun h => nomatch hbit.symm.trans h⟩
    | true =>
      obtain ⟨-, hlist, hkept, hhanded⟩ := hx.takeDown (b := b) hf hbit
      refine ⟨fun hne => by_contra fun hother => hne (hkept hother), fun _ hwas => ⟨fun hm => ?_, ?_⟩⟩
      · exact (hx.nodup.mem_erase_iff.mp (hlist.mem_iff.mp hm)).1 rfl
      · rcases hhanded hwas with ⟨hnone, hdown⟩ | ⟨m, hm, hsome, hup⟩
        · exact ⟨fun _ => hdown, fun m hm => nomatch hnone.symm.trans hm⟩
        · refine ⟨fun hnone => absurd (hnone.symm.trans hsome) nofun, fun k hk => ?_⟩
          obtain rfl : m = k := Option.some.inj (hsome.symm.trans hk)
          exact ⟨hm, hup⟩
  | others => trivial

/-! ## A run of it -/

/-- An interface that is down and one that is up, none of them the driver's. -/
def twoOthers : Lwip := ⟨[.other 0, .other 1], fun m => m = .other 1, fun _ => true, none⟩

/-- **The station takes the default route that nobody has**, and leaves it to the interface that is
up. -/
theorem default_route_borrowed_station : ∃ x y,
    Run (Routed.Step .modelled .small) ⟨twoOthers, fun _ => false⟩ [.up .sta] x ∧
      x.lwip.default = some (.halow .sta) ∧ Routed.Step .modelled .small x (.down .sta) y ∧
      y.lwip.default = some (.other 1) ∧ Netif.other 1 ∈ y.lwip.list ∧
      y.lwip.up (.other 1) = true := by
  have hrun : Run (Routed.Step .modelled .small) ⟨twoOthers, fun _ => false⟩ [.up .sta] _ := .single .up
  let up := LwipFns.modelled.raise .small .sta ⟨twoOthers, fun _ => false⟩
  have hdown : Routed.Step .modelled .small up (.down .sta) (LwipFns.modelled.takeDown .small .sta up) :=
    .down
  have hborrow := default_route_borrowed .modelled LwipFns.modelled_documented .small twoOthers
    (by decide) (fun itf => by cases itf <;> decide) _ _ hrun _ _ hdown
  obtain ⟨-, -, hto⟩ := hborrow.2 rfl rfl
  exact ⟨_, _, hrun, rfl, hdown, rfl, hto _ rfl⟩

end MmHalow.Ctrl
