import MmHalow.Ctrl.Lwip
import MmHalow.Lib.Coop

/-!
# Received frames (`mm_halow_cb_process_ethernet`)

morselib hands a received frame up in two pieces, a header on its stack and a payload. The driver copies
both into a chain of `pbuf`s, which is its own from `pbuf_alloc` on until `netif->input` accepts it, and
lwIP's after that; where it is not accepted it is freed. Inside `netif->input` lwIP runs, and other code
with it: there any number of further calls may be made and go on in any order, frames be sent, receive be
deferred, links change and `pbuf`s come and go, those of the driver's apart.

| source                             | here                         |
|------------------------------------|------------------------------|
| a chain of `pbuf`s                 | `Chain`, with its `Holder`   |
| `pbuf_alloc`, `pbuf_take` and `pbuf_take_at`, `pbuf_free` | `PbufFns` |
| `mm_halow_cb_process_ethernet`     | `receiveProg`, from `Pc.check` |
| its `return` statements            | `Exit`                       |

lwIP's lengths have 16 bits, and those that are passed are cut (`u16`). A chain is the bytes that it has
in all. What lwIP's functions for chains do is a parameter; what is relied on of them is
`PbufFns.Documented`, and what they answer, and whether lwIP accepts a chain, is told from outside
(`Said`).

* `receive_owns`: what a call does to the chains that are the driver's.
* `frames_received`: **lwIP is given each frame at most once, whole, while the link is up and receive is
  not deferred, and each chain is lwIP's or one call's that is under way**, so that none is lost, freed
  twice or touched after it was accepted.
* `alone_processEthernet`: what a call does by itself is what `Lwip.processEthernet` says.
-/

namespace MmHalow.Ctrl.Rx

open MmHalow.Lib

/-! ## Chains -/

/-- Who a chain belongs to. -/
inductive Holder where
  | driver
  | lwip
  deriving Repr, DecidableEq

/-- A chain that is allocated. -/
structure Chain where
  holder : Holder
  bytes : List UInt8
  deriving Repr, DecidableEq

/-- The driver's data, lwIP's, and the chains allocated, by the address of the first `pbuf`. -/
structure Shared where
  rxDeferred : Bool
  lwip : Lwip
  pbufs : Nat → Option Chain

/-- What a call is given. -/
structure Frame where
  itf : Itf
  header : List UInt8
  payload : List UInt8
  deriving Repr, DecidableEq

/-- A `size_t` where a `u16_t` is due. -/
def u16 (n : Nat) : Nat := n % 65536

/-- `size_t len`. -/
def Frame.len (f : Frame) : Nat := f.header.length + f.payload.length

/-- What of a frame lwIP's lengths leave. -/
def Frame.cut (f : Frame) : List UInt8 :=
  f.header.take (u16 f.header.length) ++ f.payload.take (u16 f.payload.length)

/-- What lwIP says: where there is a chain to be had and what it holds, whether it copies what fits, and
whether it accepts. -/
structure Said where
  pbuf : Option (Nat × List UInt8)
  takes : Bool
  accepts : Bool
  deriving Repr, DecidableEq

/-- The chains that are allocated. -/
abbrev Pbufs := Nat → Option Chain

/-- lwIP's functions for chains. -/
structure PbufFns where
  /-- `pbuf_alloc` of so many bytes: the chain and what it holds. -/
  alloc : Pbufs → Nat → Said → Option (Nat × List UInt8)
  /-- `pbuf_take_at` of the data at an offset, and `pbuf_take` at offset 0: the bytes after the copy,
  where it succeeds. -/
  takeAt : List UInt8 → List UInt8 → Nat → Said → Option (List UInt8)
  /-- `pbuf_free` of a chain that nobody else refers to. -/
  free : Pbufs → Nat → Pbufs

/-- **What lwIP documents of them.** -/
structure PbufFns.Documented (L : PbufFns) : Prop where
  /-- `pbuf_alloc` gives a chain that nobody has, of the length asked for. -/
  alloc : ∀ {m len o b}, L.alloc m len o = some b → m b.1 = none ∧ b.2.length = u16 len
  /-- A copy that succeeds fits, and puts the data at the offset. -/
  takeAt : ∀ {chain data offset o bytes}, L.takeAt chain data offset o = some bytes →
    u16 offset + u16 data.length ≤ chain.length ∧
      bytes = chain.take (u16 offset) ++ data.take (u16 data.length) ++
        chain.drop (u16 offset + u16 data.length)
  /-- `pbuf_free` frees the chain and no other. -/
  free : ∀ m p q, L.free m p q = if q = p then none else m q

/-- The bytes of a chain. -/
def Shared.bytes (s : Shared) (p : Nat) : List UInt8 := (s.pbufs p).elim [] Chain.bytes

/-- A chain of somebody's. -/
def Shared.put (s : Shared) (p : Nat) (c : Chain) : Shared :=
  { s with pbufs := Function.update s.pbufs p (some c) }

def Shared.free (L : PbufFns) (s : Shared) (p : Nat) : Shared := { s with pbufs := L.free s.pbufs p }

/-- The chain is the driver's. -/
def Shared.Drivers (s : Shared) (p : Nat) : Prop := ∃ bytes, s.pbufs p = some ⟨.driver, bytes⟩

/-! ## The call -/

/-- The `return` statements, and the end. -/
inductive Exit where
  | deferred
  | linkDown
  | noPbuf
  | tooLong
  | refused
  | accepted
  deriving Repr, DecidableEq

/-- The call returns there before `netif->input`. -/
def Exit.early : Exit → Bool
  | .refused => false
  | .accepted => false
  | _ => true

/-- Where a call stands. -/
inductive Pc where
  | check
  | link
  | alloc
  | take (p : Nat)
  | takeAt (p : Nat)
  | drop (p : Nat)
  | give (p : Nat)
  | inside (p : Nat) (accepted : Bool)
  | returned (e : Exit)
  deriving Repr, DecidableEq

/-- A chain that lwIP is given, and how things stand then. -/
structure Given where
  pbuf : Nat
  bytes : List UInt8
  linkUp : Bool
  rxDeferred : Bool
  deriving Repr, DecidableEq

/-- **`mm_halow_cb_process_ethernet`**, one step at a time. -/
def next (L : PbufFns) (f : Frame) (s : Shared) (pc : Pc) (o : Said) : Shared × Pc × List Given :=
  match pc with
  | .check => (s, if s.rxDeferred then .returned .deferred else .link, [])
  | .link => (s, if s.lwip.netifIsLinkUp f.itf then .alloc else .returned .linkDown, [])
  | .alloc =>
    match L.alloc s.pbufs f.len o with
    | some (p, bytes) => (s.put p ⟨.driver, bytes⟩, .take p, [])
    | none => (s, .returned .noPbuf, [])
  | .take p =>
    match L.takeAt (s.bytes p) f.header 0 o with
    | some bytes => (s.put p ⟨.driver, bytes⟩, .takeAt p, [])
    | none => (s, .drop p, [])
  | .takeAt p =>
    match L.takeAt (s.bytes p) f.payload f.header.length o with
    | some bytes => (s.put p ⟨.driver, bytes⟩, .give p, [])
    | none => (s, .drop p, [])
  | .drop p => (s.free L p, .returned .tooLong, [])
  | .give p =>
    (if o.accepts then s.put p ⟨.lwip, s.bytes p⟩ else s, .inside p o.accepts,
      [⟨p, s.bytes p, s.lwip.netifIsLinkUp f.itf, s.rxDeferred⟩])
  | .inside p accepted =>
    if accepted then (s, .returned .accepted, []) else (s.free L p, .returned .refused, [])
  | .returned e => (s, .returned e, [])

/-- Other code may run inside `netif->input` and after the call. -/
def Pc.rests : Pc → Bool
  | .inside _ _ => true
  | .returned _ => true
  | _ => false

/-- The calls. -/
def receiveProg (L : PbufFns) : Coop Shared Frame Pc Said Given := ⟨.check, next L, Pc.rests⟩

/-- The chain that a call has. -/
def Pc.holds : Pc → Option Nat
  | .take p => some p
  | .takeAt p => some p
  | .drop p => some p
  | .give p => some p
  | .inside p accepted => if accepted then none else some p
  | _ => none

variable {L : PbufFns} {f : Frame} {s t : Shared} {pc : Pc} {out : List Given} {o : Said} {p q : Nat} {c : Chain}

/-! ## What a call owns -/

theorem drivers_put : (s.put p c).Drivers q ↔ if q = p then c.holder = .driver else s.Drivers q := by
  unfold Shared.Drivers Shared.put
  by_cases hq : q = p
  · subst hq
    rw [if_pos rfl]
    simp only [Function.update_self, Option.some.injEq]
    constructor
    · rintro ⟨bytes, rfl⟩
      rfl
    · intro h
      exact ⟨c.bytes, by rw [← h]⟩
  · simp only [if_neg hq, Function.update_of_ne hq]

theorem drivers_free (hL : L.Documented) : (s.free L p).Drivers q ↔ q ≠ p ∧ s.Drivers q := by
  unfold Shared.Drivers Shared.free
  simp only [hL.free]
  by_cases hq : q = p
  · subst hq
    simp
  · simp [hq]

/-- A chain that a call has and keeps, whatever it holds. -/
theorem drivers_refill {bytes : List UInt8} :
    (s.put p ⟨.driver, bytes⟩).Drivers q ↔ some p = some q ∨ s.Drivers q ∧ some p ≠ some q := by
  rw [drivers_put]
  split_ifs with hq
  · simp [hq]
  · have hne : ¬ p = q := fun h => hq h.symm
    simp [hne]

/-- A chain that a call has and keeps as it is. -/
theorem drivers_keep (h : s.Drivers p) : s.Drivers q ↔ some p = some q ∨ s.Drivers q ∧ some p ≠ some q := by
  constructor
  · intro hq
    by_cases hpq : some p = some q
    · exact .inl hpq
    · exact .inr ⟨hq, hpq⟩
  · rintro (hpq | ⟨hq, -⟩)
    · exact Option.some.inj hpq ▸ h
    · exact hq

/-- A chain that a call has no more. -/
theorem drivers_release (hL : L.Documented) :
    (s.free L p).Drivers q ↔ none = some q ∨ s.Drivers q ∧ some p ≠ some q := by
  rw [drivers_free hL]
  constructor
  · rintro ⟨hne, hq⟩
    exact .inr ⟨hq, fun h => hne (Option.some.inj h).symm⟩
  · rintro (h | ⟨hq, hne⟩)
    · exact nomatch h
    · exact ⟨fun h => hne (congrArg some h.symm), hq⟩

/-- **What a call does to the chains that are the driver's**: it takes one that nobody has, and gives
it back where it frees it or lwIP accepts it. -/
theorem receive_owns (hL : L.Documented) : (receiveProg L).Owning Pc.holds Shared.Drivers where
  entry := rfl
  next f s pc o hown q := by
    change (next L f s pc o).1.Drivers q ↔
      (next L f s pc o).2.1.holds = some q ∨ s.Drivers q ∧ pc.holds ≠ some q
    cases pc with
    | check =>
      simp only [next]
      split_ifs <;> simp [Pc.holds]
    | link =>
      simp only [next]
      split_ifs <;> simp [Pc.holds]
    | alloc =>
      simp only [next]
      split
      · next p bytes halloc =>
        have hfree := (hL.alloc halloc).1
        have hnot : ¬ s.Drivers p := fun ⟨b, hb⟩ => nomatch hfree.symm.trans hb
        rw [drivers_put]
        split_ifs with hq
        · simp [Pc.holds, hq]
        · have hne : ¬ p = q := fun h => hq h.symm
          simp [Pc.holds, hne]
      · simp [Pc.holds]
    | take p =>
      have hp := hown p rfl
      simp only [next]
      split
      · exact drivers_refill
      · exact drivers_keep hp
    | takeAt p =>
      have hp := hown p rfl
      simp only [next]
      split
      · exact drivers_refill
      · exact drivers_keep hp
    | drop p => exact drivers_release hL
    | give p =>
      have hp := hown p rfl
      cases ho : o.accepts with
      | true =>
        simp only [next, ho, if_true, drivers_put, Pc.holds]
        split_ifs with hq
        · simp [hq]
        · have hne : ¬ p = q := fun h => hq h.symm
          simp [hne]
      | false =>
        simp only [next, ho, Bool.false_eq_true, if_false, Pc.holds]
        exact drivers_keep hp
    | inside p accepted =>
      cases accepted with
      | true => simp [next, Pc.holds]
      | false => exact drivers_release hL
    | returned e => simp [next, Pc.holds]
  takes f s pc o q h := by
    change (next L f s pc o).2.1.holds = some q at h
    cases pc with
    | check =>
      simp only [next] at h
      split_ifs at h <;> exact nomatch h
    | link =>
      simp only [next] at h
      split_ifs at h <;> exact nomatch h
    | alloc =>
      simp only [next] at h
      split at h
      · next p bytes halloc =>
        obtain rfl := Option.some.inj h
        exact .inr fun ⟨b, hb⟩ => nomatch (hL.alloc halloc).1.symm.trans hb
      · exact nomatch h
    | take p =>
      simp only [next] at h
      split at h <;> exact .inl h
    | takeAt p =>
      simp only [next] at h
      split at h <;> exact .inl h
    | drop p => exact nomatch h
    | give p =>
      simp only [next, Pc.holds] at h
      split_ifs at h
      exact .inl h
    | inside p accepted =>
      cases accepted <;> exact nomatch h
    | returned e => exact nomatch h

/-! ## What a call gives -/

theorem u16_add (a b : Nat) : u16 (a + b) ≤ u16 a + u16 b := by
  unfold u16
  omega

theorem length_take_u16 (l : List UInt8) : (l.take (u16 l.length)).length = u16 l.length :=
  List.length_take_of_le (Nat.mod_le _ _)

/-- The header comes first, and the chain keeps its length. -/
theorem takeAt_header (hL : L.Documented) {chain bytes : List UInt8}
    (h : L.takeAt chain f.header 0 o = some bytes) :
    bytes.length = chain.length ∧ ∃ rest, bytes = f.header.take (u16 f.header.length) ++ rest := by
  obtain ⟨hfit, rfl⟩ := hL.takeAt h
  have hzero : u16 0 = 0 := rfl
  rw [hzero, Nat.zero_add] at hfit
  rw [hzero, Nat.zero_add, List.take_zero, List.nil_append]
  refine ⟨?_, _, rfl⟩
  rw [List.length_append, length_take_u16, List.length_drop]
  omega

/-- **Header and payload fill the chain.** -/
theorem takeAt_payload (hL : L.Documented) {bytes rest : List UInt8}
    (hlen : (f.header.take (u16 f.header.length) ++ rest).length = u16 f.len)
    (h : L.takeAt (f.header.take (u16 f.header.length) ++ rest) f.payload f.header.length o = some bytes) :
    bytes = f.cut := by
  obtain ⟨-, rfl⟩ := hL.takeAt h
  have hle : u16 f.len ≤ u16 f.header.length + u16 f.payload.length := u16_add _ _
  rw [List.drop_eq_nil_of_le (by omega), List.append_nil, List.take_append_of_le_length
    (Nat.le_of_eq (length_take_u16 _).symm), List.take_take, Nat.min_self]
  rfl

/-- What a call has, wherever it stands. -/
def Receiving (f : Frame) (s : Shared) : Pc → List Given → Prop
  | .check, out => out = []
  | .link, out => out = [] ∧ s.rxDeferred = false
  | .alloc, out => out = [] ∧ s.rxDeferred = false ∧ s.lwip.netifIsLinkUp f.itf = true
  | .take p, out => out = [] ∧ s.rxDeferred = false ∧ s.lwip.netifIsLinkUp f.itf = true ∧
      (s.bytes p).length = u16 f.len
  | .takeAt p, out => out = [] ∧ s.rxDeferred = false ∧ s.lwip.netifIsLinkUp f.itf = true ∧
      (s.bytes p).length = u16 f.len ∧
      ∃ rest, s.bytes p = f.header.take (u16 f.header.length) ++ rest
  | .give p, out => out = [] ∧ s.rxDeferred = false ∧ s.lwip.netifIsLinkUp f.itf = true ∧
      s.bytes p = f.cut
  | .drop _, out => out = []
  | .inside p _, out => out = [⟨p, f.cut, true, false⟩]
  | .returned e, out => if e.early then out = [] else ∃ p, out = [⟨p, f.cut, true, false⟩]

theorem bytes_put : (s.put p c).bytes p = c.bytes := by
  simp [Shared.bytes, Shared.put]

/-- **One step of a call.** -/
theorem receiving_next (hL : L.Documented) (h : Receiving f s pc out) :
    Receiving f (next L f s pc o).1 (next L f s pc o).2.1 (out ++ (next L f s pc o).2.2) := by
  cases pc with
  | check =>
    obtain rfl : out = [] := h
    cases hd : s.rxDeferred with
    | true => simp [next, hd, Receiving, Exit.early]
    | false => simp [next, hd, Receiving]
  | link =>
    obtain ⟨rfl, hd⟩ := h
    cases hl : s.lwip.netifIsLinkUp f.itf with
    | true => simp [next, hl, hd, Receiving]
    | false => simp [next, hl, Receiving, Exit.early]
  | alloc =>
    obtain ⟨rfl, hd, hl⟩ := h
    simp only [next]
    split
    · next p bytes halloc =>
      refine ⟨rfl, hd, hl, ?_⟩
      rw [bytes_put]
      exact (hL.alloc halloc).2
    · rfl
  | take p =>
    obtain ⟨rfl, hd, hl, hlen⟩ := h
    simp only [next]
    split
    · next bytes htake =>
      obtain ⟨hkept, rest, hrest⟩ := takeAt_header hL htake
      refine ⟨rfl, hd, hl, ?_, rest, ?_⟩
      · rw [bytes_put, hkept, hlen]
      · rw [bytes_put, hrest]
    · rfl
  | takeAt p =>
    obtain ⟨rfl, hd, hl, hlen, rest, hrest⟩ := h
    rw [hrest] at hlen
    simp only [next, hrest]
    split
    · next bytes htake =>
      refine ⟨rfl, hd, hl, ?_⟩
      rw [bytes_put]
      exact takeAt_payload hL hlen htake
    · rfl
  | drop p =>
    obtain rfl : out = [] := h
    rfl
  | give p =>
    obtain ⟨rfl, hd, hl, hbytes⟩ := h
    simp only [next, hbytes, hd, hl]
    exact List.nil_append _
  | inside p accepted =>
    have hgiven : out = [⟨p, f.cut, true, false⟩] := h
    cases accepted with
    | true => exact ⟨p, by simpa [next] using hgiven⟩
    | false => exact ⟨p, by simpa [next] using hgiven⟩
  | returned e => simpa [next, Receiving] using h

/-- A call that rests relies on no data. -/
theorem receiving_of_rests (hrest : pc.rests = true) (h : Receiving f s pc out) : Receiving f t pc out := by
  cases pc with
  | inside p accepted => exact h
  | returned e => exact h
  | _ => exact Bool.noConfusion hrest

/-- **What a call keeps by itself.** -/
theorem keeps_receiving (hL : L.Documented) : (receiveProg L).Keeps Receiving where
  entry _ _ := rfl
  next _ _ _ _ _ h := receiving_next hL h
  rests _ _ _ _ _ hrest h := receiving_of_rests hrest h

/-- A call has given nothing, or its frame. -/
theorem Receiving.out_eq (h : Receiving f s pc out) : out = [] ∨ ∃ p, out = [⟨p, f.cut, true, false⟩] := by
  cases pc with
  | check => exact .inl h
  | link => exact .inl h.1
  | alloc => exact .inl h.1
  | take p => exact .inl h.1
  | takeAt p => exact .inl h.1
  | drop p => exact .inl h
  | give p => exact .inl h.1
  | inside p accepted => exact .inr ⟨p, h⟩
  | returned e =>
    have hret : if e.early then out = [] else ∃ p, out = [⟨p, f.cut, true, false⟩] := h
    split_ifs at hret
    · exact .inl hret
    · exact .inr hret

/-- A frame that lwIP's lengths can say is cut nowhere. -/
theorem Frame.cut_eq (h : f.len < 65536) : f.cut = f.header ++ f.payload := by
  unfold Frame.len at h
  have hh : u16 f.header.length = f.header.length := Nat.mod_eq_of_lt (by omega)
  have hp : u16 f.payload.length = f.payload.length := Nat.mod_eq_of_lt (by omega)
  rw [Frame.cut, hh, hp, List.take_length, List.take_length]

/-! ## A call by itself -/

/-- A call that goes on by itself while it is told `os`, with what it has given. -/
def alone (L : PbufFns) (f : Frame) (x : Shared × Pc × List Given) (os : List Said) :
    Shared × Pc × List Given :=
  os.foldl (fun x o =>
    ((next L f x.1 x.2.1 o).1, (next L f x.1 x.2.1 o).2.1, x.2.2 ++ (next L f x.1 x.2.1 o).2.2)) x

/-- A chain can be had and filled. -/
def filled (L : PbufFns) (f : Frame) (s : Shared) (o : Said) : Bool :=
  (L.alloc s.pbufs f.len o).any fun b => (L.takeAt b.2 f.header 0 o).any fun bytes =>
    (L.takeAt bytes f.payload f.header.length o).isSome

theorem alone_cons {x : Shared × Pc × List Given} {os : List Said} : alone L f x (o :: os) =
    alone L f ((next L f x.1 x.2.1 o).1, (next L f x.1 x.2.1 o).2.1,
      x.2.2 ++ (next L f x.1 x.2.1 o).2.2) os := rfl

/-- A call that has returned gives nothing more. -/
theorem alone_returned {e : Exit} (os : List Said) :
    alone L f (s, .returned e, out) os = (s, .returned e, out) := by
  induction os with
  | nil => rfl
  | cons o os ih =>
    rw [alone_cons]
    simpa [next] using ih

/-- A call that could not fill its chain gives nothing more. -/
theorem alone_drop {n : Nat} :
    (alone L f (s, .drop p, []) (List.replicate (n + 1) o)).2.2 = [] := by
  rw [List.replicate_succ, alone_cons]
  simp only [next, alone_returned, List.append_nil]

/-- What a call gives that has a chain. -/
theorem alone_take : ((alone L f (s, .take p, []) (List.replicate 4 o)).2.2.map fun _ =>
      LwipCall.input f.itf) =
    if (L.takeAt (s.bytes p) f.header 0 o).any fun bytes =>
      (L.takeAt bytes f.payload f.header.length o).isSome then [.input f.itf] else [] := by
  rw [List.replicate_succ, alone_cons]
  cases hhead : L.takeAt (s.bytes p) f.header 0 o with
  | none =>
    simp only [next, hhead, List.append_nil]
    rw [alone_drop]
    rfl
  | some bytes =>
    simp only [next, hhead, List.append_nil]
    rw [List.replicate_succ, alone_cons]
    simp only [next, bytes_put]
    cases hpay : L.takeAt bytes f.payload f.header.length o with
    | none =>
      simp only [List.append_nil]
      rw [alone_drop]
      simp [hpay]
    | some whole =>
      simp only [List.append_nil]
      rw [List.replicate_succ, alone_cons]
      cases haccept : o.accepts <;> simp [next, haccept, hpay, List.replicate_succ, alone]

/-- **What a call does by itself** is what `Lwip.processEthernet` says. -/
theorem alone_processEthernet :
    ((alone L f (s, .check, []) (List.replicate 7 o)).2.2.map fun _ => LwipCall.input f.itf) =
      s.lwip.processEthernet f.itf s.rxDeferred (filled L f s o) := by
  unfold Lwip.processEthernet
  rw [List.replicate_succ, alone_cons]
  cases hd : s.rxDeferred with
  | true =>
    simp only [next, hd, if_true, alone_returned]
    rfl
  | false =>
    simp only [next, hd, Bool.false_eq_true, if_false, List.append_nil]
    rw [List.replicate_succ, alone_cons]
    cases hl : s.lwip.netifIsLinkUp f.itf with
    | false =>
      simp only [next, hl, Bool.false_eq_true, if_false, alone_returned, List.append_nil]
      rfl
    | true =>
      simp only [next, hl, if_true, List.append_nil]
      rw [List.replicate_succ, alone_cons]
      cases ha : L.alloc s.pbufs f.len o with
      | none =>
        simp only [next, ha, filled, alone_returned, List.append_nil]
        rfl
      | some b =>
        simp only [next, ha, List.append_nil]
        rw [alone_take, bytes_put]
        simp [filled, ha]

/-! ## All calls -/

/-- **How received frames stand.** -/
structure Received (x : Together Shared Frame Pc Given) : Prop where
  /-- Each chain that is the driver's a call under way has, and no two calls have one. -/
  accounted : ∀ p, x.shared.Drivers p ↔ ∃ c ∈ x.calls, c.pc.holds = some p
  apart : (x.calls.filterMap fun c => c.pc.holds).Nodup
  /-- Where all calls have returned no chain is the driver's. -/
  settled : (∀ c ∈ x.calls, ∃ e, c.pc = .returned e) → ∀ p, ¬ x.shared.Drivers p
  /-- lwIP is given a frame once at most, with the link up and receive not deferred. -/
  once : ∀ c ∈ x.calls, c.out.length ≤ 1
  given : ∀ c ∈ x.calls, ∀ g ∈ c.out, g.bytes = c.call.cut ∧ g.linkUp = true ∧ g.rxDeferred = false
  whole : ∀ c ∈ x.calls, c.call.len < 65536 → ∀ g ∈ c.out, g.bytes = c.call.header ++ c.call.payload
  /-- A call that has returned has given its frame exactly where it returns from `netif->input`. -/
  returned : ∀ c ∈ x.calls, ∀ e, c.pc = .returned e → (c.out = [] ↔ e.early = true)

/-- **Received frames reach lwIP whole and no chain is lost**: in every run of calls that are made one
inside another and go on in any order where they are inside `netif->input`, while all else changes in
any way but for the chains that are the driver's. -/
theorem frames_received (L : PbufFns) (hL : L.Documented) (s : Shared) (hs : ∀ p, ¬ s.Drivers p)
    (tr : List (CoopEvent Shared Frame Said)) (x : Together Shared Frame Pc Given)
    (hr : Run ((receiveProg L).Minds Shared.Drivers) ⟨s, []⟩ tr x) : Received x := by
  have howned := (receive_owns hL).run hs hr
  have hkeeps := (keeps_receiving hL).run (hr.mono fun _ _ _ h => h.1)
  have haccount : ∀ p, x.shared.Drivers p ↔ ∃ c ∈ x.calls, c.pc.holds = some p := by
    intro p
    rw [howned.iff p]
    exact List.mem_filterMap
  have hgiven : ∀ c ∈ x.calls, ∀ g ∈ c.out,
      g.bytes = c.call.cut ∧ g.linkUp = true ∧ g.rxDeferred = false := by
    intro c hc g hg
    rcases (hkeeps c hc).out_eq with hout | ⟨p, hout⟩
    · rw [hout] at hg
      exact absurd hg List.not_mem_nil
    · rw [hout] at hg
      obtain rfl := List.mem_singleton.mp hg
      exact ⟨rfl, rfl, rfl⟩
  constructor
  case accounted => exact haccount
  case apart => exact howned.apart
  case settled =>
    intro hall p hp
    obtain ⟨c, hc, hholds⟩ := (haccount p).mp hp
    obtain ⟨e, he⟩ := hall c hc
    rw [he] at hholds
    exact nomatch hholds
  case once =>
    intro c hc
    rcases (hkeeps c hc).out_eq with hout | ⟨p, hout⟩ <;> simp [hout]
  case given => exact hgiven
  case whole =>
    intro c hc hlen g hg
    rw [(hgiven c hc g hg).1]
    exact Frame.cut_eq hlen
  case returned =>
    intro c hc e he
    have h := hkeeps c hc
    rw [he] at h
    have hret : if e.early then c.out = [] else ∃ p, c.out = [⟨p, c.call.cut, true, false⟩] := h
    split_ifs at hret with hearly
    · simp [hret, hearly]
    · obtain ⟨p, hp⟩ := hret
      simp [hp, hearly]

/-- Chains as lwIP keeps them: it gives the one that it is told of, where nobody has it and it has the
length, and copies what fits. -/
def chains : PbufFns where
  alloc m len o := o.pbuf.filter fun b => m b.1 = none ∧ b.2.length = u16 len
  takeAt chain data offset o :=
    if o.takes ∧ u16 offset + u16 data.length ≤ chain.length then
      some (chain.take (u16 offset) ++ data.take (u16 data.length) ++
        chain.drop (u16 offset + u16 data.length))
    else none
  free m p := Function.update m p none

theorem chains_documented : chains.Documented where
  alloc h := of_decide_eq_true (Option.filter_eq_some_iff.mp h).2
  takeAt h := by
    unfold chains at h
    dsimp only at h
    split_ifs at h with hfit
    exact ⟨hfit.2, (Option.some.inj h).symm⟩
  free m p q := Function.update_apply m p none q

/-- The station is up and no chain is allocated. -/
def linked : Shared :=
  ⟨false, ⟨[.halow .sta], fun _ => true, fun _ => true, some (.halow .sta)⟩, fun _ => none⟩

/-- Two frames, and what lwIP says to them: it accepts the first and has no use for the second. -/
def first : Frame := ⟨.sta, [1, 2], [3]⟩
def second : Frame := ⟨.sta, [4, 5], [6, 7]⟩
def welcome : Said := ⟨some (16, [0, 0, 0]), true, true⟩
def unwanted : Said := ⟨some (32, [0, 0, 0, 0]), true, false⟩

/-- The second frame comes while lwIP has the first, which returns before it. -/
def crossing : List (CoopEvent Shared Frame Said) :=
  [.call first] ++ List.replicate 6 (.step 0 welcome) ++ [.call second] ++
    List.replicate 6 (.step 1 unwanted) ++ [.step 0 welcome, .step 1 unwanted]

/-- Where both calls stand, what they have given, and whose the chains are. -/
def bothReturned (x : Together Shared Frame Pc Given) : Bool :=
  x.calls.map (fun c => (c.pc, c.out)) =
      [(.returned .accepted, [⟨16, [1, 2, 3], true, false⟩]),
        (.returned .refused, [⟨32, [4, 5, 6, 7], true, false⟩])] ∧
    x.shared.pbufs 16 = some ⟨.lwip, [1, 2, 3]⟩ ∧ x.shared.pbufs 32 = none

/-- A step by evaluation, in which nothing else changes the data. -/
def execCall (x : Together Shared Frame Pc Given) :
    CoopEvent Shared Frame Said → Option (Together Shared Frame Pc Given)
  | .other _ => none
  | e => (receiveProg chains).exec x e

theorem minds_of_execCall {x y : Together Shared Frame Pc Given} {e : CoopEvent Shared Frame Said}
    (h : execCall x e = some y) : (receiveProg chains).Minds Shared.Drivers x e y := by
  cases e with
  | call f => exact ⟨Coop.step_of_exec h, nofun⟩
  | step i o => exact ⟨Coop.step_of_exec h, nofun⟩
  | other t => exact nomatch h

/-- Both frames arrive and the chain of the second is freed. -/
theorem frames_received_crossing : ∃ x,
    Run ((receiveProg chains).Minds Shared.Drivers) ⟨linked, []⟩ crossing x ∧ bothReturned x = true ∧
      Received x := by
  have hrun : ∃ x, Run ((receiveProg chains).Minds Shared.Drivers) ⟨linked, []⟩ crossing x ∧
      bothReturned x = true := Run.ofFold_any (fun _ _ _ => minds_of_execCall) (by decide +kernel)
  obtain ⟨x, hr, hx⟩ := hrun
  exact ⟨x, hr, hx, frames_received chains chains_documented linked (fun p ⟨b, hb⟩ => nomatch hb) crossing x hr⟩

end MmHalow.Ctrl.Rx
