import Mathlib.Data.List.Nodup
import Mathlib.Logic.Function.Basic

/-!
# The lwIP glue (`mm_halow_lwip.c`)

The driver's two interfaces as lwIP sees them: its list of network interfaces, which may hold those
of other drivers, the flags of each and the default route. What lwIP's functions do to these is a
parameter (`LwipFns`) with what the driver relies on (`LwipFns.Documented`).

| source                              | here                |
|-------------------------------------|---------------------|
| `ipconfig`                          | `LwipBuild.ipconfig` |
| `mm_halow_netif_init`               | `Lwip.clearFlags`, within `LwipFns.netifAdd` |
| `mm_halow_cb_tcpip_init`            | `LwipFns.tcpipInit`  |
| `mm_halow_cb_tcpip_deinit`          | `LwipFns.tcpipDeinit`, with its loops `removeListed` and `handOver` |
| `mm_halow_cb_tcpip_set_link_up`     | `LwipFns.setLinkUp`   |
| `mm_halow_cb_tcpip_set_link_down`   | `LwipFns.setLinkDown` |
| `mm_halow_cb_process_ethernet`      | `Lwip.processEthernet` |

The functions that callbacks reach also give the calls they make into lwIP. The addresses an interface
holds, the host name, the MAC address and lwIP's other flags are left out: nothing here reads them.
-/

namespace MmHalow.Ctrl

/-- `MM_HALOW_ITF_STA` or `MM_HALOW_ITF_AP`. -/
inductive Itf where
  | sta
  | ap
  deriving Repr, DecidableEq

/-- An `int` as an interface; `none` outside `0 ≤ itf < MM_HALOW_ITF_MAX`. -/
def Itf.ofInt (itf : Int) : Option Itf :=
  if itf = 0 then some .sta else if itf = 1 then some .ap else none

theorem Itf.ofInt_cases (itf : Int) : itf = 0 ∨ itf = 1 ∨ Itf.ofInt itf = none := by
  unfold Itf.ofInt
  split
  · exact .inl ‹_›
  · split
    · exact .inr (.inl ‹_›)
    · exact .inr (.inr rfl)

/-- A network interface on lwIP's list: one of the driver's or another driver's. -/
inductive Netif where
  | halow (itf : Itf)
  | other (n : Nat)
  deriving Repr, DecidableEq

/-- lwIP's data. -/
structure Lwip where
  /-- `netif_list`. -/
  list : List Netif
  /-- `NETIF_FLAG_UP` and `NETIF_FLAG_LINK_UP`. -/
  up : Netif → Bool
  linkUp : Netif → Bool
  /-- `netif_default`. -/
  default : Option Netif

/-- A call into lwIP. -/
inductive LwipCall where
  | input (itf : Itf)
  | setLinkUp (itf : Itf)
  | setLinkDown (itf : Itf)
  | dhcpStart (itf : Itf)
  deriving Repr, DecidableEq

namespace Lwip

/-- The interface is on lwIP's list. -/
def listed (n : Lwip) (itf : Itf) : Bool := decide (Netif.halow itf ∈ n.list)

/-- The link of the interface is up. -/
def netifIsLinkUp (n : Lwip) (itf : Itf) : Bool := n.linkUp (.halow itf)

/-- The driver's assignments of `netif->flags`, none of which sets one of these two. -/
def clearFlags (itf : Itf) (n : Lwip) : Lwip :=
  { n with up := Function.update n.up (.halow itf) false
           linkUp := Function.update n.linkUp (.halow itf) false }

/-- `mm_halow_cb_process_ethernet`; `alloc` says whether a `pbuf` could be had and filled. -/
def processEthernet (itf : Itf) (rxDeferred alloc : Bool) (n : Lwip) : List LwipCall :=
  if rxDeferred then [] else
    if !n.netifIsLinkUp itf then [] else if alloc then [.input itf] else []

end Lwip

/-! ## lwIP's functions -/

/-- `ipconfig`: an address, a netmask and a gateway. -/
structure IpConfig where
  address : UInt32
  netmask : UInt32
  gateway : UInt32
  deriving Repr, DecidableEq

/-- The build, of lwIP and of its glue. Without IPv4 there is IPv6. -/
structure LwipBuild where
  enableAp : Bool
  ipv4 : Bool
  dhcp : Bool
  dns : Bool
  netifHostname : Bool
  staAddress : UInt32
  staNetmask : UInt32
  staGateway : UInt32
  apAddress : UInt32
  apNetmask : UInt32

/-- `ipconfig` where it has been filled in. -/
def LwipBuild.ipconfig (b : LwipBuild) : Itf → IpConfig
  | .ap => ⟨b.apAddress, b.apNetmask, b.apAddress⟩
  | .sta => if b.dhcp then ⟨0, 0, 0⟩ else ⟨b.staAddress, b.staNetmask, b.staGateway⟩

/-- The addresses that `netif_add` is given. -/
def LwipBuild.added (b : LwipBuild) (itf : Itf) : Option IpConfig :=
  if b.ipv4 then some (b.ipconfig itf) else none

/-- The driver's calls of lwIP that are not about the list, the flags or the default route. -/
inductive LwipAside where
  | netifSetHostname (itf : Itf)
  | dnsSetserver (addr : UInt32)
  | dhcpSetStruct (itf : Itf)
  | dhcpStart (itf : Itf)
  | dhcpStop (itf : Itf)
  | dhcpServerInit (address netmask : UInt32)
  | dhcpServerDeinit
  deriving Repr, DecidableEq

/-- lwIP's functions. `netif_add` is given addresses where there is IPv4. -/
structure LwipFns where
  /-- `netif_add`, up to its call of `mm_halow_netif_init` and from its return on. -/
  netifAddBegin : Itf → Option IpConfig → Lwip → Lwip
  netifAddEnd : Itf → Lwip → Lwip
  netifRemove : Itf → Lwip → Lwip
  netifSetDefault : Netif → Lwip → Lwip
  netifSetUp : Itf → Lwip → Lwip
  netifSetLinkUp : Itf → Lwip → Lwip
  netifSetLinkDown : Itf → Lwip → Lwip
  aside : LwipAside → Lwip → Lwip

/-- **What the driver relies on.** -/
structure LwipFns.Documented (f : LwipFns) : Prop where
  begin_list : ∀ itf c n, (f.netifAddBegin itf c n).list = n.list
  begin_default : ∀ itf c n, (f.netifAddBegin itf c n).default = n.default
  begin_linkUp : ∀ itf c n m, m ≠ .halow itf → (f.netifAddBegin itf c n).linkUp m = n.linkUp m
  end_list : ∀ itf n, .halow itf ∉ n.list → (f.netifAddEnd itf n).list.Perm (.halow itf :: n.list)
  end_default : ∀ itf n, (f.netifAddEnd itf n).default = n.default
  end_linkUp : ∀ itf n, (f.netifAddEnd itf n).linkUp = n.linkUp
  remove_list : ∀ itf n, .halow itf ∈ n.list →
    (f.netifRemove itf n).list.Perm (n.list.erase (.halow itf))
  remove_default : ∀ itf n, (f.netifRemove itf n).default =
    if n.default = some (.halow itf) then none else n.default
  remove_linkUp : ∀ itf n m, m ≠ .halow itf → (f.netifRemove itf n).linkUp m = n.linkUp m
  setDefault_list : ∀ m n, (f.netifSetDefault m n).list = n.list
  setDefault_up : ∀ m n, (f.netifSetDefault m n).up = n.up
  setDefault_linkUp : ∀ m n, (f.netifSetDefault m n).linkUp = n.linkUp
  setDefault_default : ∀ m n, (f.netifSetDefault m n).default = some m
  setUp_list : ∀ itf n, (f.netifSetUp itf n).list = n.list
  setUp_linkUp : ∀ itf n, (f.netifSetUp itf n).linkUp = n.linkUp
  setUp_default : ∀ itf n, (f.netifSetUp itf n).default = n.default
  setLinkUp_list : ∀ itf n, (f.netifSetLinkUp itf n).list = n.list
  setLinkUp_linkUp : ∀ itf n,
    (f.netifSetLinkUp itf n).linkUp = Function.update n.linkUp (.halow itf) true
  setLinkUp_default : ∀ itf n, (f.netifSetLinkUp itf n).default = n.default
  setLinkDown_list : ∀ itf n, (f.netifSetLinkDown itf n).list = n.list
  setLinkDown_linkUp : ∀ itf n,
    (f.netifSetLinkDown itf n).linkUp = Function.update n.linkUp (.halow itf) false
  setLinkDown_default : ∀ itf n, (f.netifSetLinkDown itf n).default = n.default
  aside_list : ∀ a n, (f.aside a n).list = n.list
  aside_linkUp : ∀ a n, (f.aside a n).linkUp = n.linkUp
  aside_default : ∀ a n, (f.aside a n).default = n.default

/-! ## The glue -/

namespace LwipFns

variable (f : LwipFns) (b : LwipBuild)

/-- `netif_add`, with the driver's `mm_halow_netif_init`. -/
def netifAdd (itf : Itf) (c : Option IpConfig) (n : Lwip) : Lwip :=
  f.netifAddEnd itf ((f.netifAddBegin itf c n).clearFlags itf)

/-- `mm_halow_cb_tcpip_init`, once the interface is added. -/
def afterAdd (itf : Itf) (n : Lwip) : Lwip :=
  let n := if b.netifHostname then f.aside (.netifSetHostname itf) n else n
  let n := if n.default = none then f.netifSetDefault (.halow itf) n else n
  let n := f.netifSetUp itf n
  match itf with
  | .sta =>
    let n := if b.ipv4 ∧ b.dns ∧ (b.ipconfig itf).gateway ≠ 0 then
      f.aside (.dnsSetserver (b.ipconfig itf).gateway) n else n
    if b.ipv4 ∧ b.dhcp then f.aside (.dhcpSetStruct itf) n else n
  | .ap =>
    if b.enableAp ∧ b.ipv4 then
      f.aside (.dhcpServerInit (b.ipconfig itf).address (b.ipconfig itf).netmask) n
    else n

/-- `mm_halow_cb_tcpip_init`. -/
def tcpipInit (itf : Itf) (n : Lwip) : Lwip := f.afterAdd b itf (f.netifAdd itf (b.added itf) n)

/-- The first `NETIF_FOREACH` of `mm_halow_cb_tcpip_deinit`: it stops where the interface stands. -/
def removeListed (itf : Itf) : List Netif → Lwip → Lwip
  | [], n => n
  | m :: ms, n =>
    if m = .halow itf then (f.netifRemove itf n).clearFlags itf else removeListed itf ms n

/-- The second: it stops at an interface that is up. -/
def handOver : List Netif → Lwip → Lwip
  | [], n => n
  | m :: ms, n => if n.up m then f.netifSetDefault m n else handOver ms n

/-- `mm_halow_cb_tcpip_deinit`. -/
def tcpipDeinit (itf : Itf) (n : Lwip) : Lwip :=
  let wasDefault := n.default = some (.halow itf)
  let n := match itf with
    | .sta => if b.ipv4 ∧ b.dhcp then f.aside (.dhcpStop itf) n else n
    | .ap => if b.enableAp then f.aside .dhcpServerDeinit n else n
  let n := f.removeListed itf n.list n
  if wasDefault ∧ n.default = none then f.handOver n.list n else n

/-- `mm_halow_cb_tcpip_set_link_up`, with the calls it makes. -/
def setLinkUp (itf : Itf) (n : Lwip) : List LwipCall × Lwip :=
  if n.netifIsLinkUp itf then ([], n) else
    let n := f.netifSetLinkUp itf n
    if b.ipv4 ∧ b.dhcp ∧ itf = .sta then
      ([.setLinkUp itf, .dhcpStart itf], f.aside (.dhcpStart itf) n)
    else ([.setLinkUp itf], n)

/-- `mm_halow_cb_tcpip_set_link_down`, with the call it makes. -/
def setLinkDown (itf : Itf) (n : Lwip) : List LwipCall × Lwip :=
  if !n.netifIsLinkUp itf then ([], n) else ([.setLinkDown itf], f.netifSetLinkDown itf n)

end LwipFns

/-! ## What the glue does to the list and the links -/

/-- **A change of a link changes nothing else.** -/
structure Lwip.Relinked (itf : Itf) (up : Bool) (n n' : Lwip) : Prop where
  list : n'.list = n.list
  linkUp : n'.linkUp = Function.update n.linkUp (.halow itf) up
  default : n'.default = n.default

namespace Lwip.Relinked

variable {itf : Itf} {up : Bool} {n n' : Lwip}

/-- The link is that way already. -/
theorem refl (h : n.netifIsLinkUp itf = up) : Relinked itf up n n where
  list := rfl
  linkUp := by
    rw [← h]
    exact (Function.update_eq_self _ _).symm
  default := rfl

theorem self (h : Relinked itf up n n') : n'.netifIsLinkUp itf = up := by
  unfold netifIsLinkUp
  rw [h.linkUp]
  exact Function.update_self _ _ _

/-- The link of another interface stays. -/
theorem of_ne {m : Netif} (h : Relinked itf up n n') (hm : m ≠ .halow itf) : n'.linkUp m = n.linkUp m := by
  rw [h.linkUp]
  exact Function.update_of_ne hm _ _

end Lwip.Relinked

namespace LwipFns

variable {f : LwipFns} {b : LwipBuild} {itf : Itf} {n : Lwip}

/-- A call that is about none of them, where it is made. -/
theorem Documented.aside_if (hf : f.Documented) (c : Prop) [Decidable c] (a : LwipAside) :
    (if c then f.aside a n else n).list = n.list ∧
      (if c then f.aside a n else n).linkUp = n.linkUp ∧
      (if c then f.aside a n else n).default = n.default := by
  split_ifs with hc
  · exact ⟨hf.aside_list a n, hf.aside_linkUp a n, hf.aside_default a n⟩
  · exact ⟨rfl, rfl, rfl⟩

/-- The default route is taken where nobody has it. -/
theorem Documented.claim (hf : f.Documented) (m : Netif) :
    (if n.default = none then f.netifSetDefault m n else n).list = n.list ∧
      (if n.default = none then f.netifSetDefault m n else n).linkUp = n.linkUp ∧
      (if n.default = none then f.netifSetDefault m n else n).default =
        if n.default = none then some m else n.default := by
  split_ifs with hnone
  · exact ⟨hf.setDefault_list m n, hf.setDefault_linkUp m n, hf.setDefault_default m n⟩
  · exact ⟨rfl, rfl, rfl⟩

/-- **What follows `netif_add`** leaves the list and the links, and takes the default route where nobody
has it. -/
theorem Documented.afterAdd (hf : f.Documented) : (f.afterAdd b itf n).list = n.list ∧
    (f.afterAdd b itf n).linkUp = n.linkUp ∧
    (f.afterAdd b itf n).default = if n.default = none then some (.halow itf) else n.default := by
  unfold LwipFns.afterAdd
  dsimp only
  obtain ⟨hl₁, hk₁, hd₁⟩ := hf.aside_if (n := n) b.netifHostname (.netifSetHostname itf)
  generalize (if b.netifHostname then f.aside (.netifSetHostname itf) n else n) = n₁ at hl₁ hk₁ hd₁ ⊢
  obtain ⟨hl₂, hk₂, hd₂⟩ := hf.claim (n := n₁) (.halow itf)
  generalize (if n₁.default = none then f.netifSetDefault (.halow itf) n₁ else n₁) = n₂
    at hl₂ hk₂ hd₂ ⊢
  have hl₃ : (f.netifSetUp itf n₂).list = n.list := (hf.setUp_list itf n₂).trans (hl₂.trans hl₁)
  have hk₃ : (f.netifSetUp itf n₂).linkUp = n.linkUp := (hf.setUp_linkUp itf n₂).trans (hk₂.trans hk₁)
  have hd₃ : (f.netifSetUp itf n₂).default = if n.default = none then some (.halow itf) else n.default := by
    rw [hf.setUp_default, hd₂, hd₁]
  generalize f.netifSetUp itf n₂ = n₃ at hl₃ hk₃ hd₃ ⊢
  -- what follows is not about interfaces
  cases itf with
  | sta =>
    refine ⟨?_, ?_, ?_⟩
    · rw [(hf.aside_if _ _).1, (hf.aside_if _ _).1, hl₃]
    · rw [(hf.aside_if _ _).2.1, (hf.aside_if _ _).2.1, hk₃]
    · rw [(hf.aside_if _ _).2.2, (hf.aside_if _ _).2.2, hd₃]
  | ap =>
    refine ⟨?_, ?_, ?_⟩
    · rw [(hf.aside_if _ _).1, hl₃]
    · rw [(hf.aside_if _ _).2.1, hk₃]
    · rw [(hf.aside_if _ _).2.2, hd₃]

/-- `netif_add` puts the interface on the list once. -/
theorem Documented.end_count (hf : f.Documented) (h : n.list.count (.halow itf) = 0) (i : Itf) :
    (f.netifAddEnd itf n).list.count (.halow i) = if i = itf then 1 else n.list.count (.halow i) := by
  rw [(hf.end_list itf n (List.count_eq_zero.mp h)).count_eq]
  by_cases hi : i = itf
  · subst hi
    rw [if_pos rfl, List.count_cons_self, h]
  · have hne : Netif.halow itf ≠ .halow i := fun he => hi (Netif.halow.inj he).symm
    rw [if_neg hi, List.count_cons_of_ne hne]

/-- The interface is found where it is listed. -/
theorem removeListed_eq (l : List Netif) : f.removeListed itf l n =
    if .halow itf ∈ l then (f.netifRemove itf n).clearFlags itf else n := by
  induction l with
  | nil => rfl
  | cons m l ih =>
    unfold removeListed
    by_cases hm : m = .halow itf
    · rw [if_pos hm, if_pos (hm ▸ List.mem_cons_self)]
    · rw [if_neg hm, ih]
      exact if_congr (by simp [Ne.symm hm]) rfl rfl

/-- The default route goes to the first interface that is up. -/
theorem handOver_spec (hf : f.Documented) (l : List Netif) :
    (f.handOver l n).list = n.list ∧ (f.handOver l n).linkUp = n.linkUp ∧ (f.handOver l n).up = n.up ∧
      ((f.handOver l n).default = n.default ∧ (∀ m ∈ l, n.up m = false) ∨
        ∃ m ∈ l, (f.handOver l n).default = some m ∧ n.up m = true) := by
  induction l with
  | nil => exact ⟨rfl, rfl, rfl, .inl ⟨rfl, fun m hm => absurd hm List.not_mem_nil⟩⟩
  | cons m l ih =>
    unfold handOver
    by_cases hup : n.up m = true
    · rw [if_pos hup]
      exact ⟨hf.setDefault_list m n, hf.setDefault_linkUp m n, hf.setDefault_up m n,
        .inr ⟨m, List.mem_cons_self, hf.setDefault_default m n, hup⟩⟩
    · rw [if_neg hup]
      refine ⟨ih.1, ih.2.1, ih.2.2.1, ?_⟩
      rcases ih.2.2.2 with ⟨hd, hdown⟩ | ⟨k, hk, hd, hkup⟩
      · refine .inl ⟨hd, List.forall_mem_cons.mpr ⟨?_, hdown⟩⟩
        exact Bool.eq_false_iff.mpr hup
      · exact .inr ⟨k, List.mem_cons_of_mem m hk, hd, hkup⟩

/-- `mm_halow_cb_tcpip_deinit` from where the DHCP client or server is stopped. -/
theorem Documented.stopped (hf : f.Documented) : ∃ n₁ : Lwip, n₁.list = n.list ∧ n₁.linkUp = n.linkUp ∧
    n₁.default = n.default ∧ f.tcpipDeinit b itf n =
      let n₂ := f.removeListed itf n₁.list n₁
      if n.default = some (.halow itf) ∧ n₂.default = none then f.handOver n₂.list n₂ else n₂ := by
  cases itf with
  | sta =>
    obtain ⟨hl, hk, hd⟩ := hf.aside_if (n := n) (b.ipv4 ∧ b.dhcp) (.dhcpStop .sta)
    exact ⟨_, hl, hk, hd, rfl⟩
  | ap =>
    obtain ⟨hl, hk, hd⟩ := hf.aside_if (n := n) b.enableAp .dhcpServerDeinit
    exact ⟨_, hl, hk, hd, rfl⟩

/-- The interface leaves the list. -/
theorem Documented.tcpipDeinit_list (hf : f.Documented) :
    (f.tcpipDeinit b itf n).list.Perm (n.list.erase (.halow itf)) := by
  obtain ⟨n₁, hl₁, -, -, heq⟩ := @Documented.stopped f b itf n hf
  have hremoved : (f.removeListed itf n₁.list n₁).list.Perm (n.list.erase (.halow itf)) := by
    rw [removeListed_eq, ← hl₁]
    split_ifs with hm
    · exact hf.remove_list itf n₁ hm
    · rw [List.erase_of_not_mem hm]
  rw [heq]
  dsimp only
  split_ifs
  · rw [(handOver_spec hf _).1]
    exact hremoved
  · exact hremoved

theorem Documented.tcpipDeinit_count (hf : f.Documented) (i : Itf) :
    (f.tcpipDeinit b itf n).list.count (.halow i) =
      if i = itf then n.list.count (.halow itf) - 1 else n.list.count (.halow i) := by
  rw [hf.tcpipDeinit_list.count_eq]
  by_cases hi : i = itf
  · subst hi
    rw [if_pos rfl, List.count_erase_self]
  · have hne : Netif.halow i ≠ .halow itf := fun he => hi (Netif.halow.inj he)
    rw [if_neg hi, List.count_erase_of_ne hne]

/-- The links of the other interfaces stay. -/
theorem Documented.tcpipDeinit_linkUp (hf : f.Documented) {m : Netif} (h : m ≠ .halow itf) :
    (f.tcpipDeinit b itf n).linkUp m = n.linkUp m := by
  obtain ⟨n₁, -, hk₁, -, heq⟩ := @Documented.stopped f b itf n hf
  have hremoved : (f.removeListed itf n₁.list n₁).linkUp m = n.linkUp m := by
    rw [removeListed_eq, ← hk₁]
    split_ifs
    · exact (Function.update_of_ne h _ _).trans (hf.remove_linkUp itf n₁ m h)
    · rfl
  rw [heq]
  dsimp only
  split_ifs
  · rw [(handOver_spec hf _).2.1]
    exact hremoved
  · exact hremoved

theorem Documented.setLinkUp (hf : f.Documented) : Lwip.Relinked itf true n (f.setLinkUp b itf n).2 := by
  unfold LwipFns.setLinkUp
  dsimp only
  split_ifs with hup hdhcp
  · exact .refl hup
  · constructor
    · rw [hf.aside_list, hf.setLinkUp_list]
    · rw [hf.aside_linkUp, hf.setLinkUp_linkUp]
    · rw [hf.aside_default, hf.setLinkUp_default]
  · exact ⟨hf.setLinkUp_list itf n, hf.setLinkUp_linkUp itf n, hf.setLinkUp_default itf n⟩

theorem Documented.setLinkDown (hf : f.Documented) : Lwip.Relinked itf false n (f.setLinkDown itf n).2 := by
  unfold LwipFns.setLinkDown
  split_ifs with hup
  · exact .refl (Bool.not_eq_eq_eq_not.mp hup)
  · exact ⟨hf.setLinkDown_list itf n, hf.setLinkDown_linkUp itf n, hf.setLinkDown_default itf n⟩

end LwipFns

/-! ## lwIP to evaluate runs with -/

/-- Calls that are about neither list nor flags nor the default route leave its data alone. -/
def LwipFns.modelled : LwipFns where
  netifAddBegin itf _ n := n.clearFlags itf
  netifAddEnd itf n := { n with list := .halow itf :: n.list }
  netifRemove itf n :=
    { n with list := n.list.erase (.halow itf)
             default := if n.default = some (.halow itf) then none else n.default }
  netifSetDefault m n := { n with default := some m }
  netifSetUp itf n := { n with up := Function.update n.up (.halow itf) true }
  netifSetLinkUp itf n := { n with linkUp := Function.update n.linkUp (.halow itf) true }
  netifSetLinkDown itf n := { n with linkUp := Function.update n.linkUp (.halow itf) false }
  aside _ n := n

theorem LwipFns.modelled_documented : LwipFns.modelled.Documented where
  begin_list _ _ _ := rfl
  begin_default _ _ _ := rfl
  begin_linkUp _ _ _ _ hm := Function.update_of_ne hm _ _
  end_list _ _ _ := .refl _
  end_default _ _ := rfl
  end_linkUp _ _ := rfl
  remove_list _ _ _ := .refl _
  remove_default _ _ := rfl
  remove_linkUp _ _ _ _ := rfl
  setDefault_list _ _ := rfl
  setDefault_up _ _ := rfl
  setDefault_linkUp _ _ := rfl
  setDefault_default _ _ := rfl
  setUp_list _ _ := rfl
  setUp_linkUp _ _ := rfl
  setUp_default _ _ := rfl
  setLinkUp_list _ _ := rfl
  setLinkUp_linkUp _ _ := rfl
  setLinkUp_default _ _ := rfl
  setLinkDown_list _ _ := rfl
  setLinkDown_linkUp _ _ := rfl
  setLinkDown_default _ _ := rfl
  aside_list _ _ := rfl
  aside_linkUp _ _ := rfl
  aside_default _ _ := rfl

/-- The station with a DHCP client. -/
def LwipBuild.small : LwipBuild := ⟨true, true, true, true, false, 0, 0, 0, 3232236545, 4294967040⟩

end MmHalow.Ctrl
