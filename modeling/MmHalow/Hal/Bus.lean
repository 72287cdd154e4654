import Mathlib.Data.Int.CardIntervalMod
import MmHalow.Lib.Bytes
import MmHalow.Lib.Run

/-!
# The bus and the random numbers (`mm_halow_hal.c`)

Every byte of a transfer goes both ways. SD-over-SPI needs ones on the way out while the driver reads,
so a read clocks out `mm_halow_spi_ones`, which is filled once and shared by all transfers, in chunks
of its size. Here the driver's calls come in any order, the transceiver is any device that answers
bytes and sees the lines, and other code writes to memory between the calls. The transfer itself is the
port's, of which the driver knows what `Exchanges` says.

* `spiReadBuf_eq`: a read in chunks is one exchange of as many bytes of ones.
* `bus_refines`: **after `mmhal_wlan_init` every call, in every run, does on the wire what its
  arguments say**: it clocks out ones, the bytes of the buffer or a byte, stores the answers where they
  belong, and changes no other memory.

morselib asks for a random number between two bounds, and for random bytes with the bounds `0` and
`UINT32_MAX`, where the count of the values does not fit in 32 bits.

* `toNat_mmhalRandomU32`: the value is the lower bound plus the remainder by the count of the values,
  the full range included.
* `random_even`: **every value between the bounds comes from equally many words of the port, up to one,
  and no other value comes at all.**
-/

namespace MmHalow.Hal.Bus

open MmHalow.Lib MmHalow.Lib.Bytes

/-! ## The wire -/

/-- The output lines. -/
inductive Pin where
  | cs
  | reset
  | wake
  deriving DecidableEq, Repr

/-- What the transceiver does with a byte, where it sees the level of CS, and with a change of a line. -/
structure Transceiver (D : Type) where
  spiByte : Device D (Bool × UInt8) UInt8
  pinWrite : D → Pin → Bool → D

/-- The transceiver and the levels of the lines. -/
structure Wire (D : Type) where
  dev : D
  level : Pin → Bool

/-- The wire with the driver's memory. -/
structure Machine (D : Type) where
  mem : Mem
  wire : Wire D

variable {D : Type} (T : Transceiver D)

/-- `mm_halow_hal_pin_write`. -/
def Wire.pinWrite (w : Wire D) (pin : Pin) (value : Bool) : Wire D :=
  ⟨T.pinWrite w.dev pin value, Function.update w.level pin value⟩

/-- One byte each way. -/
def Wire.exchange (w : Wire D) (out : UInt8) : Wire D × UInt8 :=
  ({ w with dev := (T.spiByte w.dev (w.level .cs, out)).1 }, (T.spiByte w.dev (w.level .cs, out)).2)

/-- Many bytes each way. -/
def Wire.exchanges (w : Wire D) (out : List UInt8) : Wire D × List UInt8 :=
  ({ w with dev := T.spiByte.after w.dev (out.map (w.level .cs, ·)) },
    T.spiByte.answers w.dev (out.map (w.level .cs, ·)))

/-- The port's functions, as far as the bus calls them; `dest` may be null. -/
structure Port (D : Type) where
  spiTransfer : (len src : Nat) → (dest : Option Nat) → Machine D → Machine D

/-- The answers are stored where there is a place for them. -/
def storesAt (mem : Mem) (dest : Option Nat) (answers : List UInt8) : Mem :=
  (dest.map fun a => writeBytes mem a answers).getD mem

/-- **What the driver relies on**: `mm_halow_port_spi_transfer` clocks out the bytes at `src` and stores
what is clocked in at `dest`, which lies apart from them, or nowhere. -/
structure Port.Exchanges (P : Port D) : Prop where
  spiTransfer : ∀ len src dest s, (∀ a ∈ dest, a + len ≤ src ∨ src + len ≤ a) →
    P.spiTransfer len src dest s =
      ⟨storesAt s.mem dest (s.wire.exchanges T (bytes s.mem src len)).2,
        (s.wire.exchanges T (bytes s.mem src len)).1⟩

variable (P : Port D)

/-! ## The calls -/

/-- `MM_HALOW_READ_CHUNK`, the size of `mm_halow_spi_ones`. -/
def readChunk : Nat := 128

/-- `MM_HALOW_TRAINING_BYTES`. -/
def trainingBytes : Nat := 16

def Machine.pinWrite (s : Machine D) (pin : Pin) (value : Bool) : Machine D :=
  { s with wire := s.wire.pinWrite T pin value }

/-- `mmhal_wlan_spi_cs_deassert`. -/
def spiCsDeassert (s : Machine D) : Machine D := s.pinWrite T .cs true

/-- `mmhal_wlan_spi_cs_assert`, once it has its turn. -/
def spiCsAssert (s : Machine D) : Machine D := s.pinWrite T .cs false

/-- `mmhal_wlan_spi_rw`, with its argument at `dataAt` and its variable `rx` at `rxAt`. -/
def spiRw (dataAt rxAt : Nat) (data : UInt8) (s : Machine D) : Machine D × UInt8 :=
  let s := { s with mem := Function.update (Function.update s.mem dataAt data) rxAt 0xff }
  let s := P.spiTransfer 1 dataAt (some rxAt) s
  (s, s.mem rxAt)

/-- `mmhal_wlan_spi_read_buf`, with `mm_halow_spi_ones` at `ones`. -/
def spiReadBuf (ones buf len : Nat) (s : Machine D) : Machine D :=
  if 0 < len then
    let chunk := min len readChunk
    spiReadBuf ones (buf + chunk) (len - chunk) (P.spiTransfer chunk ones (some buf) s)
  else s
termination_by len
decreasing_by
  have : 0 < min len readChunk := Nat.lt_min.mpr ⟨by assumption, by decide⟩
  omega

/-- `mmhal_wlan_spi_write_buf`. -/
def spiWriteBuf (buf len : Nat) (s : Machine D) : Machine D := P.spiTransfer len buf none s

/-- `mmhal_wlan_send_training_seq`. -/
def sendTrainingSeq (ones : Nat) (s : Machine D) : Machine D :=
  P.spiTransfer trainingBytes ones none (spiCsDeassert T s)

/-- `mmhal_wlan_assert_reset`. -/
def assertReset (assert : Bool) (s : Machine D) : Machine D := s.pinWrite T .reset !assert

/-- `mmhal_wlan_init`. -/
def init (ones : Nat) (s : Machine D) : Machine D :=
  let s := { s with mem := fill s.mem ones 0xff readChunk }
  let s := ((s.pinWrite T .reset false).pinWrite T .wake false).pinWrite T .cs true
  assertReset T false (s.pinWrite T .cs true)

/-- `mmhal_wlan_deinit`. -/
def deinit (s : Machine D) : Machine D := (assertReset T true s).pinWrite T .wake false

/-- What is called, and what other code writes between the calls. `mmhal_wlan_hard_reset` is two of
`assertReset`, between which others may come. -/
inductive Call where
  | init
  | deinit
  | assertReset (assert : Bool)
  | wake (value : Bool)
  | csAssert
  | csDeassert
  | rw (dataAt rxAt : Nat) (data : UInt8)
  | readBuf (buf len : Nat)
  | writeBuf (buf len : Nat)
  | trainingSeq
  | other (a : Nat) (value : UInt8)
  deriving DecidableEq, Repr

/-- The call, and what it returns. -/
def Call.run (ones : Nat) (c : Call) (s : Machine D) : Machine D × Option UInt8 :=
  match c with
  | init => (Bus.init T ones s, none)
  | deinit => (Bus.deinit T s, none)
  | assertReset assert => (Bus.assertReset T assert s, none)
  | wake value => (s.pinWrite T .wake value, none)
  | csAssert => (spiCsAssert T s, none)
  | csDeassert => (spiCsDeassert T s, none)
  | rw dataAt rxAt data => ((spiRw P dataAt rxAt data s).1, some (spiRw P dataAt rxAt data s).2)
  | readBuf buf len => (spiReadBuf P ones buf len s, none)
  | writeBuf buf len => (spiWriteBuf P buf len s, none)
  | trainingSeq => (sendTrainingSeq T P ones s, none)
  | other a value => ({ s with mem := Function.update s.mem a value }, none)

/-- Nothing but `mmhal_wlan_init` writes to `mm_halow_spi_ones`, and a variable is not an argument. -/
def Call.Apart (ones : Nat) : Call → Prop
  | rw dataAt rxAt _ => dataAt ≠ rxAt ∧ (dataAt < ones ∨ ones + readChunk ≤ dataAt) ∧
    (rxAt < ones ∨ ones + readChunk ≤ rxAt)
  | readBuf buf len => buf + len ≤ ones ∨ ones + readChunk ≤ buf
  | other a _ => a < ones ∨ ones + readChunk ≤ a
  | _ => True

/-- A step. -/
def Step (ones : Nat) (s : Machine D) (c : Call) (t : Machine D) : Prop :=
  c.Apart ones ∧ t = (c.run T P ones s).1

/-! ## What the calls are for -/

/-- The lines that a call writes first. -/
def Call.lines : Call → List (Pin × Bool)
  | init => [(.reset, false), (.wake, false), (.cs, true), (.cs, true), (.reset, true)]
  | deinit => [(.reset, false), (.wake, false)]
  | assertReset assert => [(.reset, !assert)]
  | wake value => [(.wake, value)]
  | csAssert => [(.cs, false)]
  | csDeassert => [(.cs, true)]
  | trainingSeq => [(.cs, true)]
  | _ => []

/-- What it clocks out then. -/
def Call.sends (mem : Mem) : Call → List UInt8
  | rw _ _ data => [data]
  | readBuf _ len => List.replicate len 0xff
  | writeBuf buf len => bytes mem buf len
  | trainingSeq => List.replicate trainingBytes 0xff
  | _ => []

/-- What it leaves in memory of what is clocked in; `mmhal_wlan_spi_rw` in its own frame. -/
def Call.stores (ones : Nat) (mem : Mem) (answers : List UInt8) : Call → Mem
  | rw dataAt rxAt data => writeBytes (Function.update mem dataAt data) rxAt answers
  | init => fill mem ones 0xff readChunk
  | readBuf buf _ => writeBytes mem buf answers
  | other a value => Function.update mem a value
  | _ => mem

/-- And what it returns of it. -/
def Call.returns (answers : List UInt8) : Call → Option UInt8
  | rw .. => answers.head?
  | _ => none

/-- **What a call is for**: it sets its lines, sends its bytes and keeps the answers. -/
def Call.means (ones : Nat) (c : Call) (s : Machine D) : Machine D × Option UInt8 :=
  let r := (c.lines.foldl (fun w l => w.pinWrite T l.1 l.2) s.wire).exchanges T (c.sends s.mem)
  (⟨c.stores ones s.mem r.2, r.1⟩, c.returns r.2)

variable {T P} {ones buf len n a : Nat} {s t : Machine D} {w : Wire D} {c : Call} {tr : List Call}
  {out : List UInt8}

/-! ## Transfers -/

@[simp] theorem exchanges_nil : w.exchanges T [] = (w, []) := rfl

theorem exchanges_singleton {b : UInt8} :
    w.exchanges T [b] = ((w.exchange T b).1, [(w.exchange T b).2]) := rfl

theorem exchanges_append {out' : List UInt8} : w.exchanges T (out ++ out') =
    (((w.exchanges T out).1.exchanges T out').1,
      (w.exchanges T out).2 ++ ((w.exchanges T out).1.exchanges T out').2) := by
  simp only [Wire.exchanges, List.map_append, Device.after_append, Device.answers_append]

@[simp] theorem length_exchanges : (w.exchanges T out).2.length = out.length :=
  Device.length_answers.trans (List.length_map _)

/-- `mm_halow_spi_ones` is filled. -/
def Filled (ones : Nat) (m : Mem) : Prop := ∀ i < readChunk, m (ones + i) = 0xff

theorem Filled.bytes {m : Mem} (h : Filled ones m) (hn : n ≤ readChunk) :
    bytes m ones n = List.replicate n 0xff := by
  refine List.ext_getElem (by simp [Bytes.bytes]) fun i hi _ => ?_
  simp only [Bytes.bytes, List.length_map, List.length_range] at hi
  simp only [Bytes.bytes, List.getElem_map, List.getElem_range, List.getElem_replicate]
  exact h i (by omega)

/-- It stays filled by what writes elsewhere. -/
theorem Filled.writeBytes {m : Mem} (h : Filled ones m)
    (hout : buf + out.length ≤ ones ∨ ones + readChunk ≤ buf) : Filled ones (writeBytes m buf out) :=
  fun i hi => (writeBytes_out (by omega)).trans (h i hi)

/-- **A read in chunks is one exchange.** -/
theorem spiReadBuf_eq (hP : P.Exchanges T) (hones : Filled ones s.mem)
    (h : buf + len ≤ ones ∨ ones + readChunk ≤ buf) :
    spiReadBuf P ones buf len s =
      ⟨writeBytes s.mem buf (s.wire.exchanges T (List.replicate len 0xff)).2,
        (s.wire.exchanges T (List.replicate len 0xff)).1⟩ := by
  fun_induction spiReadBuf P ones buf len s with
  | case1 buf len s hpos chunk ih =>
    have hchunk : chunk ≤ len ∧ chunk ≤ readChunk := ⟨Nat.min_le_left .., Nat.min_le_right ..⟩
    have hlen : len = chunk + (len - chunk) := by omega
    have hone := hP.spiTransfer chunk ones (some buf) s <| by
      intro b hb
      obtain rfl := Option.some.inj hb
      omega
    rw [hones.bytes hchunk.2] at hone
    rw [hone] at ih
    have hlength : (s.wire.exchanges T (List.replicate chunk 0xff)).2.length = chunk := by simp
    have hfilled : Filled ones (writeBytes s.mem buf
        (s.wire.exchanges T (List.replicate chunk 0xff)).2) := hones.writeBytes (by omega)
    rw [hone, ih hfilled (by omega), hlen, List.replicate_add, exchanges_append, writeBytes_append, hlength,
      Nat.add_sub_cancel_left]
    rfl
  | case2 buf len s hpos =>
    obtain rfl : len = 0 := by omega
    exact congrArg (Machine.mk · s.wire) (writeBytes_nil s.mem buf).symm

/-- A byte each way, by way of two variables. -/
theorem spiRw_eq {dataAt rxAt : Nat} {data : UInt8} (hP : P.Exchanges T) (hne : dataAt ≠ rxAt) :
    spiRw P dataAt rxAt data s =
      (⟨writeBytes (Function.update s.mem dataAt data) rxAt (s.wire.exchanges T [data]).2,
        (s.wire.exchanges T [data]).1⟩, (s.wire.exchange T data).2) := by
  have hbytes : bytes (Function.update (Function.update s.mem dataAt data) rxAt 0xff) dataAt 1 = [data] := by
    rw [bytes_snoc, Nat.add_zero, Function.update_of_ne hne, Function.update_self]
    rfl
  have hover : ∀ m : Mem, ∀ b, writeBytes (Function.update m rxAt 0xff) rxAt [b] = writeBytes m rxAt [b] := by
    intro m b
    rw [← List.nil_append [b], writeBytes_snoc, writeBytes_snoc, writeBytes_nil, writeBytes_nil]
    exact Function.update_idem _ _ _
  have htransfer := hP.spiTransfer 1 dataAt (some rxAt)
    { s with mem := Function.update (Function.update s.mem dataAt data) rxAt 0xff } <| by
    intro b hb
    obtain rfl := Option.some.inj hb
    omega
  rw [hbytes, exchanges_singleton] at htransfer
  unfold spiRw
  dsimp only
  rw [htransfer, exchanges_singleton]
  refine Prod.ext (congrArg (Machine.mk · _) (hover _ _)) ?_
  show writeBytes _ rxAt [_] rxAt = _
  rw [← List.nil_append [_], writeBytes_snoc]
  exact Function.update_self ..

/-! ## Runs -/

/-- **A call does what it is for.** -/
theorem run_means (hP : P.Exchanges T) (hones : Filled ones s.mem) (h : c.Apart ones) :
    c.run T P ones s = c.means T ones s := by
  cases c with
  | rw dataAt rxAt data =>
    exact congrArg (Prod.map id some) (spiRw_eq hP h.1 : spiRw P dataAt rxAt data s = _)
  | readBuf buf len => exact congrArg (·, none) (spiReadBuf_eq hP hones h)
  | writeBuf buf len => exact congrArg (·, none) (hP.spiTransfer len buf none s nofun)
  | trainingSeq =>
    refine (congrArg (·, none) (hP.spiTransfer _ ones none _ nofun)).trans ?_
    rw [show (spiCsDeassert T s).mem = s.mem from rfl, hones.bytes (by decide)]
    rfl
  | _ => rfl

theorem filled_init : Filled ones (Call.init.run T P ones s).1.mem := fun i hi =>
  if_pos (⟨Nat.le_add_right ones i, Nat.add_lt_add_left hi ones⟩ : ones ≤ ones + i ∧ _)

/-- One byte elsewhere. -/
theorem Filled.update {m : Mem} {b : UInt8} (h : Filled ones m) (hout : a < ones ∨ ones + readChunk ≤ a) :
    Filled ones (Function.update m a b) := by
  intro i hi
  have hne : ones + i ≠ a := by omega
  rw [Function.update_of_ne hne]
  exact h i hi

/-- **`mm_halow_spi_ones` stays filled.** -/
theorem Filled.step (hP : P.Exchanges T) (hones : Filled ones s.mem) (h : Step T P ones s c t) :
    Filled ones t.mem := by
  obtain ⟨hapart, rfl⟩ := h
  rw [run_means hP hones hapart]
  cases c with
  | init => exact filled_init (T := T) (P := P) (s := s)
  | rw dataAt rxAt data =>
    obtain ⟨-, hdata, hrx⟩ := hapart
    refine (hones.update hdata).writeBytes ?_
    rw [length_exchanges, show (Call.rw dataAt rxAt data).sends s.mem = [data] from rfl, List.length_singleton]
    exact hrx.imp_left Nat.succ_le_of_lt
  | readBuf buf len =>
    refine hones.writeBytes ?_
    rw [length_exchanges, show (Call.readBuf buf len).sends s.mem = List.replicate len 0xff from rfl,
      List.length_replicate]
    exact hapart
  | other a value => exact hones.update hapart
  | _ => exact hones

/-- **Once the bus is initialised every call does, in every run, what it is for**, whatever the transceiver
does and with every port that exchanges bytes. -/
theorem bus_refines (hP : P.Exchanges T) (h : Run (Step T P ones) s tr t) (hinit : .init ∈ tr)
    (hc : c.Apart ones) : c.run T P ones t = c.means T ones t := by
  have hones : Filled ones t.mem := by
    refine h.inv_trace (I := fun tr t => .init ∈ tr → Filled ones t.mem)
      (fun h => absurd h List.not_mem_nil) (fun tr t c u _ ih hc hmem => ?_) hinit
    obtain hmem | hmem := List.mem_append.mp hmem
    · exact (ih hmem).step hP hc
    · obtain rfl := List.mem_singleton.mp hmem
      obtain ⟨-, rfl⟩ := hc
      exact filled_init
  exact run_means hP hones hc

/-- A transceiver that counts bytes. -/
def counter : Transceiver Nat where
  spiByte d _ := (d + 1, UInt8.ofNat d)
  pinWrite d _ _ := d

/-- A port that goes byte by byte. -/
def Port.byBytes (T : Transceiver D) : Port D where
  spiTransfer len src dest s := (List.range len).foldl (fun s i =>
    ⟨storesAt s.mem (dest.map (· + i)) [(s.wire.exchange T (s.mem (src + i))).2],
      (s.wire.exchange T (s.mem (src + i))).1⟩) s

theorem storesAt_snoc {m : Mem} {dest : Option Nat} {b : UInt8} : storesAt m dest (out ++ [b]) =
    storesAt (storesAt m dest out) (dest.map (· + out.length)) [b] := by
  cases dest with
  | none => rfl
  | some a => exact writeBytes_append m a out [b]

theorem Port.byBytes_exchanges (T : Transceiver D) : (Port.byBytes T).Exchanges T where
  spiTransfer len src dest s h := by
    show List.foldl _ s (List.range len) = _
    induction len with
    | zero =>
      cases dest with
      | none => rfl
      | some a => exact congrArg (Machine.mk · s.wire) (writeBytes_nil s.mem a).symm
    | succ n ih =>
      have hlength : (s.wire.exchanges T (bytes s.mem src n)).2.length = n := by simp [bytes]
      have hsrc : storesAt s.mem dest (s.wire.exchanges T (bytes s.mem src n)).2 (src + n) =
          s.mem (src + n) := by
        cases dest with
        | none => rfl
        | some a =>
          refine writeBytes_out ?_
          have := h a rfl
          omega
      rw [List.range_succ, List.foldl_append, ih fun a ha => (h a ha).imp (by omega) (by omega), bytes_snoc,
        exchanges_append, exchanges_singleton, storesAt_snoc, hlength]
      simp only [List.foldl_cons, List.foldl_nil, hsrc]

theorem bus_refines_read : ∃ t,
    Run (Step counter (.byBytes counter) 0) ⟨fun _ => 0, 0, fun _ => false⟩ [.init, .csAssert] t ∧
    (Call.readBuf 200 300).run counter (.byBytes counter) 0 t = (Call.readBuf 200 300).means counter 0 t := by
  have h : Run (Step counter (.byBytes counter) 0) ⟨fun _ => 0, 0, fun _ => false⟩ [.init, .csAssert] _ :=
    (Run.single ⟨trivial, rfl⟩).snoc ⟨trivial, rfl⟩
  exact ⟨_, h, bus_refines (Port.byBytes_exchanges counter) h (by decide) (.inr (by decide))⟩

end MmHalow.Hal.Bus

/-! ## Random numbers (`mmhal_random_u32`) -/

namespace MmHalow.Hal

/-- `mmhal_random_u32`, where the port gives `value`. -/
def mmhalRandomU32 (min max value : UInt32) : UInt32 :=
  if max ≤ min then min
  else
    let span := max - min
    if span = 0xffffffff then value else min + value % (span + 1)

variable {min max value v : UInt32}

/-- How many values lie between the bounds; the lower one alone where the upper is not above it. -/
def values (min max : UInt32) : Nat := max.toNat - min.toNat + 1

/-- **The value is the lower bound plus a remainder.** -/
theorem toNat_mmhalRandomU32 (min max value : UInt32) :
    (mmhalRandomU32 min max value).toNat = min.toNat + value.toNat % values min max := by
  have hmax := max.toNat_lt
  have hvalue := value.toNat_lt
  unfold mmhalRandomU32 values
  by_cases hle : max ≤ min
  · have := UInt32.le_iff_toNat_le.mp hle
    rw [if_pos hle, show max.toNat - min.toNat + 1 = 1 by omega, Nat.mod_one]
    rfl
  · have hlt := UInt32.lt_iff_toNat_lt.mp (UInt32.not_le.mp hle)
    have hspan : (max - min).toNat = max.toNat - min.toNat :=
      UInt32.toNat_sub_of_le _ _ (UInt32.le_of_lt (UInt32.not_le.mp hle))
    rw [if_neg hle]
    dsimp only
    by_cases hfull : max - min = 0xffffffff
    · have hword : max.toNat - min.toNat + 1 = 2 ^ 32 := by
        rw [← hspan, hfull]
        rfl
      rw [if_pos hfull, hword, Nat.mod_eq_of_lt hvalue]
      omega
    · have hne : max.toNat - min.toNat ≠ 2 ^ 32 - 1 := fun hword =>
        hfull (UInt32.toNat_inj.mp (hspan.trans hword))
      have hcount : (max - min + 1).toNat = max.toNat - min.toNat + 1 := by
        rw [UInt32.toNat_add, hspan]
        exact Nat.mod_eq_of_lt (show max.toNat - min.toNat + 1 < 2 ^ 32 by omega)
      have hmod : value.toNat % (max.toNat - min.toNat + 1) < max.toNat - min.toNat + 1 :=
        Nat.mod_lt _ (Nat.succ_pos _)
      rw [if_neg hfull, UInt32.toNat_add, UInt32.toNat_mod, hcount]
      exact Nat.mod_eq_of_lt (by omega)

/-- How many words of the port give the value. -/
def words (min max v : UInt32) : Nat :=
  Nat.count (fun w => mmhalRandomU32 min max (UInt32.ofNat w) = v) (2 ^ 32)

/-- **Values between the bounds come equally often, up to one**, and no others. -/
theorem random_even (min max v : UInt32) : words min max v =
    if min ≤ v ∧ v.toNat < min.toNat + values min max then
      2 ^ 32 / values min max + if v.toNat - min.toNat < 2 ^ 32 % values min max then 1 else 0
    else 0 := by
  have hpos : 0 < values min max := Nat.succ_pos _
  have hword : ∀ w < 2 ^ 32, mmhalRandomU32 min max (UInt32.ofNat w) = v ↔
      min.toNat + w % values min max = v.toNat := fun w hw => by
    rw [← UInt32.toNat_inj, toNat_mmhalRandomU32, UInt32.toNat_ofNat_of_lt' hw]
  by_cases hin : min ≤ v ∧ v.toNat < min.toNat + values min max
  · have hmin := UInt32.le_iff_toNat_le.mp hin.1
    have hlt : v.toNat - min.toNat < values min max := by omega
    have hcount := Nat.count_modEq_card (b := 2 ^ 32) hpos (v.toNat - min.toNat)
    rw [Nat.mod_eq_of_lt hlt] at hcount
    rw [if_pos hin, ← hcount]
    unfold words
    rw [Nat.count_eq_card_filter_range, Nat.count_eq_card_filter_range]
    refine congrArg Finset.card (Finset.filter_congr fun w hw => ?_)
    rw [hword w (Finset.mem_range.mp hw), Nat.ModEq, Nat.mod_eq_of_lt hlt]
    omega
  · rw [if_neg hin]
    refine Nat.count_iff_forall_not.mpr fun w hw hv => hin ?_
    have hsum := (hword w hw).mp hv
    have hlt := Nat.mod_lt w hpos
    exact ⟨UInt32.le_iff_toNat_le.mpr (by omega), by omega⟩

end MmHalow.Hal
