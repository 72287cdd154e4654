import MmHalow.Ctrl.ScanCache
import MmHalow.Lib.Snapshot

/-!
# Lists that are read while PendSV writes them

`mm_halow_wifi_ap_get_stas` and the end of `mm_halow_wifi_scan_cached` copy lists out that callbacks
change in place, from PendSV where it runs the tasks. They do so in an atomic section. Here the code is
taken instruction by instruction: PendSV cuts in anywhere outside those sections, and thread context
runs callbacks too, in passes of its own under the claim.

| source                                            | here                        |
|---------------------------------------------------|-----------------------------|
| `mm_halow_ap_sta_status_cb`                       | `StaPc`, `staNext`          |
| `self->ap_sta_count = 0` in `mm_halow_ap_enable`  | `StaUpdate.emptied`         |
| `mm_halow_wifi_ap_get_stas`                       | `GetPc`, `getPeek`          |
| `mm_halow_scan_cache_add`                         | `AddPc`, `addNext`          |
| `self->scan_cache_len = 0` in `mm_halow_wifi_scan_cached` | `CacheUpdate.emptied` |
| the copy in `mm_halow_wifi_scan_cached`           | `CopyPc`, `copyPeek`        |

`memcmp` and what is copied of a list are read in one step; what is written is written byte by byte,
and an entry of the scan cache by way of anything (`CacheTold.torn`).

* `staCode_meets`, `cacheCode_meets`: the instructions do what `ApStas.staStatusCb`, `ApStas.getStas`,
  `Scanner.scanCacheAdd` and `Scanner.copy` say.
* `stations_read_whole`, `cache_read_whole`: **what is copied out is the start of the list as it stood
  after a whole number of events**, some moment between the call and its return.
-/

namespace MmHalow.Ctrl

open MmHalow.Lib MmHalow.Lib.Bytes

/-! ## The station list -/

/-- What is done to the list. -/
inductive StaUpdate where
  | status (e : StaEvent)
  | emptied
  deriving DecidableEq

/-- What an update makes of the list. -/
def StaUpdate.apply (max : Nat) : StaUpdate → ApStas → ApStas
  | .status e, s => s.staStatusCb max e.mac e.authorized
  | .emptied, s => { s with apStaCount := 0 }

/-- The same of the control layer's. -/
def StaUpdate.applyList (max : Nat) : StaUpdate → List Mac → List Mac
  | .status e, l => apStaStatusCb max e.mac e.authorized l
  | .emptied, _ => []

/-- Where `mm_halow_ap_sta_status_cb` stands: in its loop at row `i`, before `ap_sta_count--`, at byte `j`
of the `n` that `memmove` moves, before `ap_sta_count++` and at byte `j` of the `memcpy` after it. -/
inductive StaPc where
  | compare (e : StaEvent) (i : Nat)
  | shrink (i : Nat)
  | shift (i n j : Nat)
  | grow (e : StaEvent)
  | fill (e : StaEvent) (row j : Nat)
  | clear
  deriving DecidableEq

/-- `mm_halow_ap_sta_status_cb`, one instruction at a time. -/
def staNext (max : Nat) (s : ApStas) : StaPc → ApStas × Option StaPc
  | .compare e i =>
    if i < s.apStaCount.toNat then
      if s.row i = e.mac then (s, if e.authorized then none else some (.shrink i))
      else (s, some (.compare e (i + 1)))
    else (s, if e.authorized ∧ s.apStaCount.toNat < max then some (.grow e) else none)
  | .shrink i =>
    let count := s.apStaCount - 1
    ({ s with apStaCount := count }, some (.shift i ((count.toNat - i) * macAddrLen) 0))
  | .shift i n j =>
    if j < n then
      ({ s with
          apStas := Function.update s.apStas (i * macAddrLen + j) (s.apStas ((i + 1) * macAddrLen + j)) },
        some (.shift i n (j + 1)))
    else (s, none)
  | .grow e => ({ s with apStaCount := s.apStaCount + 1 }, some (.fill e s.apStaCount.toNat 0))
  | .fill e row j =>
    if h : j < e.mac.val.length then
      ({ s with apStas := Function.update s.apStas (row * macAddrLen + j) e.mac.val[j] },
        some (.fill e row (j + 1)))
    else (s, none)
  | .clear => ({ s with apStaCount := 0 }, none)

/-- Where `mm_halow_wifi_ap_get_stas` stands in its atomic section: before it reads the count, and at
byte `j` of its `memcpy` of `n` rows, with what it has copied. -/
inductive GetPc where
  | count (numStas : Nat)
  | copy (n j : Nat) (macs : List UInt8)
  deriving Repr, DecidableEq

/-- `mm_halow_wifi_ap_get_stas`, one instruction at a time: `*num_stas` and `macs` at the end. -/
def getPeek (s : ApStas) : GetPc → GetPc ⊕ (Int × List UInt8)
  | .count numStas => .inl (.copy (min numStas s.apStaCount.toNat) 0 [])
  | .copy n j macs =>
    if j < n * macAddrLen then .inl (.copy n (j + 1) (macs ++ [s.apStas j])) else .inr (n, macs)

/-- The code on the station list. -/
def staCode (max : Nat) : Watched ApStas StaUpdate Nat (Int × List UInt8) StaPc GetPc Unit where
  entry
    | .status e => .compare e 0
    | .emptied => .clear
  next s p _ := staNext max s p
  first := .count
  peek := getPeek
  single k := decide (k = .emptied)

/-- What the list is while the callback goes on. -/
def StaMid (max : Nat) (e : StaEvent) (s d : ApStas) : StaPc → Prop
  | .compare e' i => e' = e ∧ d = s ∧ e.mac.val ∉ (List.range i).map s.row
  | .shrink i => d = s ∧ s.find e.mac = some i ∧ e.authorized = false
  | .shift i n j => s.find e.mac = some i ∧ e.authorized = false ∧ j ≤ n ∧
      n = ((s.apStaCount - 1).toNat - i) * macAddrLen ∧
      d = ⟨s.apStaCount - 1, move s.apStas (i * macAddrLen) ((i + 1) * macAddrLen) j⟩
  | .grow e' => e' = e ∧ d = s ∧ s.find e.mac = none ∧ e.authorized = true ∧ s.apStaCount.toNat < max
  | .fill e' row j => e' = e ∧ s.find e.mac = none ∧ e.authorized = true ∧ s.apStaCount.toNat < max ∧
      row = s.apStaCount.toNat ∧ j ≤ e.mac.val.length ∧
      d = ⟨s.apStaCount + 1, writeBytes s.apStas (row * macAddrLen) (e.mac.val.take j)⟩
  | .clear => False

/-- What the list is while an update goes on. -/
def StaUpdate.Mid (max : Nat) : StaUpdate → ApStas → ApStas → StaPc → Prop
  | .status e, s, d, p => StaMid max e s d p
  | .emptied, s, d, p => d = s ∧ p = .clear

/-- What a call of `mm_halow_wifi_ap_get_stas` has copied. -/
def GetPc.Seen (numStas : Nat) (s : ApStas) : GetPc → Prop
  | .count n => n = numStas
  | .copy n j macs => n = min numStas s.apStaCount.toNat ∧ j ≤ n * macAddrLen ∧ macs = bytes s.apStas 0 j

variable {max : Nat} {s d : ApStas} {e : StaEvent} {i j n row : Nat}

theorem ApStas.find_eq_some (hi : i < s.apStaCount.toNat) (hrow : s.row i = e.mac)
    (hpre : e.mac.val ∉ (List.range i).map s.row) : s.find e.mac = some i := by
  refine List.find?_range_eq_some.mpr ⟨decide_eq_true hrow, List.mem_range.mpr hi, fun k hk => ?_⟩
  have hne : s.row k ≠ e.mac := fun h => hpre (List.mem_map.mpr ⟨k, List.mem_range.mpr hk, h⟩)
  simpa using hne

theorem ApStas.find_eq_none (hi : ¬ i < s.apStaCount.toNat)
    (hpre : e.mac.val ∉ (List.range i).map s.row) : s.find e.mac = none := by
  refine List.find?_eq_none.mpr fun k hk => ?_
  have hlt := List.mem_range.mp hk
  have hne : s.row k ≠ e.mac := fun h =>
    hpre (List.mem_map.mpr ⟨k, List.mem_range.mpr (by omega), h⟩)
  simpa using hne

/-- **One instruction of the callback.** -/
theorem staMid_next {p : StaPc} (h : StaMid max e s d p) :
    (staNext max d p).2.elim ((staNext max d p).1 = s.staStatusCb max e.mac e.authorized)
      (StaMid max e s (staNext max d p).1) := by
  cases p with
  | compare e' i =>
    obtain ⟨rfl, rfl, hpre⟩ := h
    simp only [staNext]
    split_ifs with hi hrow hauth hadd
    · have hf := ApStas.find_eq_some hi hrow hpre
      simp [ApStas.staStatusCb, hf, hauth]
    · exact ⟨rfl, ApStas.find_eq_some hi hrow hpre, by simpa using hauth⟩
    · refine ⟨rfl, rfl, ?_⟩
      rw [List.range_succ, List.map_append, List.mem_append, not_or]
      exact ⟨hpre, fun hm => hrow (List.mem_singleton.mp hm).symm⟩
    · exact ⟨rfl, rfl, ApStas.find_eq_none hi hpre, hadd.1, hadd.2⟩
    · have hf := ApStas.find_eq_none hi hpre
      simp [ApStas.staStatusCb, hf, hadd]
  | shrink i =>
    obtain ⟨rfl, hf, hauth⟩ := h
    refine ⟨hf, hauth, Nat.zero_le _, rfl, ?_⟩
    simp [staNext, move, bytes, writeBytes_nil]
  | shift i n j =>
    obtain ⟨hf, hauth, hj, hn, rfl⟩ := h
    simp only [staNext]
    split_ifs with hlt
    · refine ⟨hf, hauth, hlt, hn, ?_⟩
      exact congrArg _ (move_succ (Nat.mul_le_mul_right _ (Nat.le_succ i)))
    · obtain rfl : j = n := by omega
      simp [ApStas.staStatusCb, hf, hauth, hn]
  | grow e' =>
    obtain ⟨rfl, rfl, hf, hauth, hroom⟩ := h
    exact ⟨rfl, hf, hauth, hroom, rfl, Nat.zero_le _, by simp [staNext, writeBytes_nil]⟩
  | fill e' row j =>
    obtain ⟨rfl, hf, hauth, hroom, rfl, hj, rfl⟩ := h
    simp only [staNext]
    split_ifs with hlt
    · refine ⟨rfl, hf, hauth, hroom, rfl, hlt, ?_⟩
      rw [List.take_succ_eq_append_getElem hlt, writeBytes_snoc, List.length_take_of_le hj]
    · have hall : e'.mac.val.take j = e'.mac.val := List.take_of_length_le (by omega)
      simp [ApStas.staStatusCb, hf, hauth, hroom, hall]
  | clear => exact h.elim

/-- One instruction of `mm_halow_wifi_ap_get_stas`. -/
theorem seen_getPeek {numStas : Nat} {q : GetPc} (h : q.Seen numStas s) :
    (getPeek s q).elim (GetPc.Seen numStas s) (· = s.getStas numStas) := by
  cases q with
  | count n =>
    obtain rfl := h
    exact ⟨rfl, Nat.zero_le _, by simp [bytes]⟩
  | copy n j macs =>
    obtain ⟨rfl, hj, rfl⟩ := h
    simp only [getPeek]
    split_ifs with hlt
    · refine ⟨rfl, hlt, ?_⟩
      rw [bytes_snoc, Nat.zero_add]
    · obtain rfl : j = min numStas s.apStaCount.toNat * macAddrLen := by omega
      have hmin : min (numStas : Int) s.apStaCount.toNat = ↑(min numStas s.apStaCount.toNat) := by omega
      simp only [Sum.elim_inr, ApStas.getStas, hmin, Int.toNat_natCast]

/-- **The instructions do what the functions say.** -/
theorem staCode_meets (max : Nat) : (staCode max).Meets (StaUpdate.apply max)
    (fun numStas s => s.getStas numStas) (StaUpdate.Mid max) GetPc.Seen where
  entry k s := by
    cases k with
    | status e => exact ⟨rfl, rfl, by simp⟩
    | emptied => exact ⟨rfl, rfl⟩
  next k s d p o h := by
    cases k with
    | status e => exact staMid_next h
    | emptied =>
      obtain ⟨rfl, rfl⟩ := h
      rfl
  single k s o h := by
    obtain rfl := of_decide_eq_true h
    rfl
  first n s := rfl
  peek n s q h := seen_getPeek h

/-- Updates do to the rows in use what they do to the control layer's list. -/
theorem contents_updates (hmax : max < 256) (ks : List StaUpdate) :
    (after (StaUpdate.apply max) s ks).contents = after (StaUpdate.applyList max) s.contents ks := by
  induction ks using List.reverseRecOn with
  | nil => rfl
  | append_singleton ks k ih =>
    rw [after_snoc, after_snoc, ← ih]
    cases k with
    | status e => exact ApStas.contents_staStatusCb hmax e.mac.property e.authorized
    | emptied => rfl

theorem nodup_updates (ks : List StaUpdate) : (after (StaUpdate.applyList max) [] ks).Nodup := by
  induction ks using List.reverseRecOn with
  | nil => exact List.nodup_nil
  | append_singleton ks k ih =>
    rw [after_snoc]
    cases k with
    | status e => exact nodup_apStaStatusCb ih _
    | emptied => exact List.nodup_nil

/-- **Stations are read whole**: for an access point that admits less than 256, in every run of thread
context and PendSV, each call of `mm_halow_wifi_ap_get_stas` gives the first rows, as many as there is
room for and no station twice, of the list as the control layer has it after a whole number of the
events reported and emptyings made, no fewer than before the call and no more than at its return. -/
theorem stations_read_whole (hmax : max < 256) (old : Mem)
    (tr : List (TwoEvent (WatchCall StaUpdate Nat) (WatchSaid StaUpdate Unit)))
    (x : Two (Guarded ApStas StaUpdate Nat (Int × List UInt8))
      (Place StaUpdate Nat (Int × List UInt8) StaPc GetPc))
    (hr : Run (staCode max).prog.Step (.fresh ⟨0, old⟩) tr x) :
    ∀ a ∈ x.shared.answers, ∃ k, a.since ≤ k ∧ k ≤ a.till ∧ a.till ≤ x.shared.made.length ∧
      let rows := (after (StaUpdate.applyList max) [] (x.shared.made.take k)).take a.read
      a.result = (↑rows.length, rows.flatten) ∧ rows.Nodup := by
  intro a ha
  obtain ⟨k, hsince, htill, hlen, hres⟩ := (staCode_meets max).snapshots hr a ha
  refine ⟨k, hsince, htill, hlen, ?_, (nodup_updates _).take⟩
  refine hres.trans ((ApStas.getStas_prefix _ a.read).trans ?_)
  rw [contents_updates hmax]
  rfl

/-- What a step is told where it is told nothing. -/
def quietly : WatchSaid StaUpdate Unit := ⟨none, ()⟩

/-- A station that the interrupt reports, in a pass of `n` instructions. -/
def reported (e : StaEvent) (n : Nat) :
    List (TwoEvent (WatchCall StaUpdate Nat) (WatchSaid StaUpdate Unit)) :=
  [.call .irq .pass, .step .irq quietly, .step .irq ⟨some (.status e), ()⟩] ++
    List.replicate n (.step .irq quietly)

/-- Two stations are listed. The first leaves between the call and its atomic section, and a third comes
between the section and the return. -/
def leaving : List (TwoEvent (WatchCall StaUpdate Nat) (WatchSaid StaUpdate Unit)) :=
  reported ⟨macOf 1, true⟩ 10 ++ reported ⟨macOf 2, true⟩ 11 ++
    [.call .thread (.read 8)] ++ reported ⟨macOf 1, false⟩ 10 ++
    List.replicate 10 (.step .thread quietly) ++ reported ⟨macOf 3, true⟩ 11 ++
    [.step .thread quietly]

/-- The row that is left is read, neither half moved nor twice. -/
theorem stations_read_whole_leaving : ∃ x, Run (staCode 2).prog.Step (.fresh ⟨0, fun _ => 0⟩) leaving x ∧
    decide (x.shared.answers = [⟨8, 2, 4, (1, (macOf 2).val)⟩]) = true ∧
    ∀ a ∈ x.shared.answers, ∃ k, a.since ≤ k ∧ k ≤ a.till ∧ a.till ≤ x.shared.made.length ∧
      let rows := (after (StaUpdate.applyList 2) [] (x.shared.made.take k)).take a.read
      a.result = (↑rows.length, rows.flatten) ∧ rows.Nodup := by
  have hrun : ∃ x, Run (staCode 2).prog.Step (.fresh ⟨0, fun _ => 0⟩) leaving x ∧
      decide (x.shared.answers = [⟨8, 2, 4, (1, (macOf 2).val)⟩]) = true :=
    Run.ofFold_any (fun _ _ _ => Prog.step_of_exec) (by decide +kernel)
  obtain ⟨x, hr, hx⟩ := hrun
  exact ⟨x, hr, hx, stations_read_whole (by decide) _ leaving x hr⟩

/-! ## The scan cache -/

/-- What is done to the cache that there is. -/
inductive CacheUpdate where
  | add (res : ScanResult)
  | emptied
  deriving Repr, DecidableEq

/-- What an update makes of the cache. -/
def CacheUpdate.apply : CacheUpdate → Scanner → Scanner
  | .add res, s => s.scanCacheAdd res
  | .emptied, s => { s with scanCacheLen := 0 }

/-- The same of a list with room for `cap`. -/
def CacheUpdate.applyList (cap : Nat) : CacheUpdate → List ScanResult → List ScanResult
  | .add res, l => Keyed.put ScanResult.bssid cap res l
  | .emptied, _ => []

/-- What an update is told: what an entry holds while it is written, where that goes on, and which of
`scan_cache_len++` and the assignment to the entry comes first, which C leaves open. -/
structure CacheTold where
  torn : Option ScanResult
  lenFirst : Bool
  deriving Repr, DecidableEq

/-- Where `mm_halow_scan_cache_add` stands: before it asks whether there is a cache, in its loop at `i`,
before it appends, where it writes the entry at `i`, and before a `scan_cache_len++` that is left. -/
inductive AddPc where
  | check (res : ScanResult)
  | compare (res : ScanResult) (i : UInt8)
  | append (res : ScanResult)
  | write (res : ScanResult) (i : UInt8) (lenAfter : Bool)
  | grow
  | clear
  deriving Repr, DecidableEq

/-- `mm_halow_scan_cache_add`, one instruction at a time. -/
def addNext (s : Scanner) (o : CacheTold) : AddPc → Scanner × Option AddPc
  | .check res => (s, if s.scanCache then some (.compare res 0) else none)
  | .compare res i =>
    if i < s.scanCacheLen then
      if (s.cells i.toNat).bssid = res.bssid then (s, some (.write res i false))
      else (s, some (.compare res (i + 1)))
    else (s, if s.scanCacheLen < s.scanCacheMax then some (.append res) else none)
  | .append res =>
    if o.lenFirst then
      ({ s with scanCacheLen := s.scanCacheLen + 1 }, some (.write res s.scanCacheLen false))
    else (s, some (.write res s.scanCacheLen true))
  | .write res i lenAfter =>
    match o.torn with
    | some junk =>
      ({ s with cells := Function.update s.cells i.toNat junk }, some (.write res i lenAfter))
    | none =>
      ({ s with cells := Function.update s.cells i.toNat res }, if lenAfter then some .grow else none)
  | .grow => ({ s with scanCacheLen := s.scanCacheLen + 1 }, none)
  | .clear => ({ s with scanCacheLen := 0 }, none)

/-- What the copy is given: `out` and `max`. -/
structure CopyArgs where
  out : Entries
  max : Nat

/-- Where the copy stands in its atomic section: before it reads `scan_cache_len`, and at entry `i`. -/
inductive CopyPc where
  | count (args : CopyArgs)
  | copy (n i : Nat) (out : Entries)

/-- The copy at the end of `mm_halow_wifi_scan_cached`: the number of entries and `out` at the end. -/
def copyPeek (s : Scanner) : CopyPc → CopyPc ⊕ (Nat × Entries)
  | .count args =>
    .inl (.copy (if s.scanCacheLen.toNat < args.max then s.scanCacheLen.toNat else args.max) 0 args.out)
  | .copy n i out =>
    if i < n then .inl (.copy n (i + 1) (Function.update out i (s.cells i))) else .inr (n, out)

/-- The code on the scan cache. -/
def cacheCode : Watched Scanner CacheUpdate CopyArgs (Nat × Entries) AddPc CopyPc CacheTold where
  entry
    | .add res => .check res
    | .emptied => .clear
  next s p o := addNext s o p
  first := .count
  peek := copyPeek
  single k := decide (k = .emptied)

/-- The cache has a new entry at its end, where `c` is what is there so far and `len` its length. -/
structure Appending (res : ScanResult) (s d : Scanner) (i len : UInt8) (c : ScanResult) : Prop where
  cache : s.scanCache = true
  absent : s.find res.bssid 256 0 = none
  room : s.scanCacheLen < s.scanCacheMax
  at_end : i = s.scanCacheLen
  eq : d = { s with cells := Function.update s.cells i.toNat c, scanCacheLen := len }

/-- What the cache is while a result is added. -/
def AddMid (res : ScanResult) (s d : Scanner) : AddPc → Prop
  | .check r => r = res ∧ d = s
  | .compare r i => r = res ∧ d = s ∧ s.scanCache = true ∧
      s.find res.bssid 256 0 = s.find res.bssid (256 - i.toNat) i
  | .append r => r = res ∧ d = s ∧ s.scanCache = true ∧ s.find res.bssid 256 0 = none ∧
      s.scanCacheLen < s.scanCacheMax
  | .write r i lenAfter => r = res ∧ ∃ c,
      lenAfter = false ∧ s.scanCache = true ∧ s.find res.bssid 256 0 = some i ∧
          d = { s with cells := Function.update s.cells i.toNat c } ∨
        Appending res s d i (if lenAfter then s.scanCacheLen else s.scanCacheLen + 1) c
  | .grow => Appending res s d s.scanCacheLen s.scanCacheLen res
  | .clear => False

/-- What the cache is while an update goes on. -/
def CacheUpdate.Mid : CacheUpdate → Scanner → Scanner → AddPc → Prop
  | .add res, s, d, p => AddMid res s d p
  | .emptied, s, d, p => d = s ∧ p = .clear

/-- What has been copied. -/
def CopyPc.Seen (args : CopyArgs) (s : Scanner) : CopyPc → Prop
  | .count a => a = args
  | .copy n i out => n = (s.copy args.out args.max).n ∧ i ≤ n ∧ out = Scanner.copyOut s.cells args.out i

variable {c t : Scanner} {res : ScanResult}

/-- A round of the loop of `mm_halow_scan_cache_add`. -/
theorem Scanner.find_round {bssid : Mac} {i : UInt8} (hi : i < t.scanCacheLen) :
    t.find bssid (256 - i.toNat) i =
      if (t.cells i.toNat).bssid = bssid then some i else t.find bssid (256 - (i + 1).toNat) (i + 1) := by
  have hlt : i.toNat < 256 := i.toNat_lt
  have hrounds : 256 - i.toNat = 256 - (i + 1).toNat + 1 := by
    rw [Scanner.toNat_succ hi]
    omega
  rw [hrounds, Scanner.find, if_pos hi]

theorem Scanner.find_over {bssid : Mac} {fuel : Nat} {i : UInt8} (hi : ¬ i < t.scanCacheLen) :
    t.find bssid fuel i = none := by
  cases fuel with
  | zero => rfl
  | succ fuel => rw [Scanner.find, if_neg hi]

/-- **One instruction of `mm_halow_scan_cache_add`.** -/
theorem addMid_next {o : CacheTold} {p : AddPc} (h : AddMid res t c p) :
    (addNext c o p).2.elim ((addNext c o p).1 = t.scanCacheAdd res) (AddMid res t (addNext c o p).1) := by
  cases p with
  | check r =>
    obtain ⟨rfl, rfl⟩ := h
    simp only [addNext]
    split_ifs with hcache
    · exact ⟨rfl, rfl, hcache, rfl⟩
    · simp [Scanner.scanCacheAdd_absent (eq_false_of_ne_true hcache)]
  | compare r i =>
    obtain ⟨rfl, rfl, hcache, hfind⟩ := h
    simp only [addNext]
    split_ifs with hi hb hroom
    · rw [Scanner.find_round hi, if_pos hb] at hfind
      exact ⟨rfl, c.cells i.toNat, .inl ⟨rfl, hcache, hfind, by rw [Function.update_eq_self]⟩⟩
    · rw [Scanner.find_round hi, if_neg hb] at hfind
      exact ⟨rfl, rfl, hcache, hfind⟩
    · rw [Scanner.find_over hi] at hfind
      exact ⟨rfl, rfl, hcache, hfind, hroom⟩
    · rw [Scanner.find_over hi] at hfind
      simp [Scanner.scanCacheAdd, hcache, hfind, hroom]
  | append r =>
    obtain ⟨rfl, rfl, hcache, hfind, hroom⟩ := h
    simp only [addNext]
    split_ifs with hfirst
    · refine ⟨rfl, c.cells c.scanCacheLen.toNat, .inr ⟨hcache, hfind, hroom, rfl, ?_⟩⟩
      rw [Function.update_eq_self]
      rfl
    · refine ⟨rfl, c.cells c.scanCacheLen.toNat, .inr ⟨hcache, hfind, hroom, rfl, ?_⟩⟩
      rw [Function.update_eq_self]
      rfl
  | write r i lenAfter =>
    obtain ⟨rfl, x, ⟨rfl, hcache, hfind, rfl⟩ | happ⟩ := h
    · cases ho : o.torn with
      | some junk =>
        simp only [addNext, ho, Function.update_idem]
        exact ⟨rfl, junk, .inl ⟨rfl, hcache, hfind, rfl⟩⟩
      | none =>
        simp [addNext, ho, Scanner.scanCacheAdd, hcache, hfind]
    · obtain ⟨hcache, hfind, hroom, rfl, rfl⟩ := happ
      cases ho : o.torn with
      | some junk =>
        simp only [addNext, ho, Function.update_idem]
        exact ⟨rfl, junk, .inr ⟨hcache, hfind, hroom, rfl, rfl⟩⟩
      | none =>
        cases lenAfter with
        | true =>
          simp only [addNext, ho, Function.update_idem, if_true]
          exact ⟨hcache, hfind, hroom, rfl, rfl⟩
        | false => simp [addNext, ho, Scanner.scanCacheAdd, hcache, hfind, hroom]
  | grow =>
    obtain ⟨hcache, hfind, hroom, -, rfl⟩ := h
    simp [addNext, Scanner.scanCacheAdd, hcache, hfind, hroom]
  | clear => exact h.elim

/-- One instruction of the copy. -/
theorem seen_copyPeek {args : CopyArgs} {q : CopyPc} (h : q.Seen args t) :
    (copyPeek t q).elim (CopyPc.Seen args t)
      (· = ((t.copy args.out args.max).n, (t.copy args.out args.max).out)) := by
  cases q with
  | count a =>
    obtain rfl := h
    exact ⟨rfl, Nat.zero_le _, rfl⟩
  | copy n i out =>
    obtain ⟨rfl, hi, rfl⟩ := h
    simp only [copyPeek]
    split_ifs with hlt
    · exact ⟨rfl, hlt, rfl⟩
    · obtain rfl : i = (t.copy args.out args.max).n := by omega
      rfl

/-- **The instructions do what the functions say.** -/
theorem cacheCode_meets : cacheCode.Meets CacheUpdate.apply
    (fun args t => ((t.copy args.out args.max).n, (t.copy args.out args.max).out)) CacheUpdate.Mid
    CopyPc.Seen where
  entry k t := by
    cases k with
    | add res => exact ⟨rfl, rfl⟩
    | emptied => exact ⟨rfl, rfl⟩
  next k t c p o h := by
    cases k with
    | add res => exact addMid_next h
    | emptied =>
      obtain ⟨rfl, rfl⟩ := h
      rfl
  single k t o h := by
    obtain rfl := of_decide_eq_true h
    rfl
  first args t := rfl
  peek args t q h := seen_copyPeek h

/-- Updates leave the cache where it is and do to its entries what they do to a list. -/
theorem contents_cacheUpdates (hcache : t.scanCache = true) (ks : List CacheUpdate) :
    let u := after CacheUpdate.apply t ks
    u.scanCache = true ∧ u.scanCacheMax = t.scanCacheMax ∧
      u.contents = after (CacheUpdate.applyList t.scanCacheMax.toNat) t.contents ks := by
  induction ks using List.reverseRecOn with
  | nil => exact ⟨hcache, rfl, rfl⟩
  | append_singleton ks k ih =>
    obtain ⟨hthere, hmax, hcontents⟩ := ih
    rw [after_snoc, after_snoc, ← hcontents]
    cases k with
    | add res =>
      obtain ⟨cells, len, hrest⟩ := Scanner.scanCacheAdd_rest (after CacheUpdate.apply t ks) res
      have hput := Scanner.contents_scanCacheAdd res hthere
      rw [hmax] at hput
      refine ⟨?_, ?_, hput⟩
      · simp only [CacheUpdate.apply, hrest, hthere]
      · simp only [CacheUpdate.apply, hrest, hmax]
    | emptied => exact ⟨hthere, hmax, rfl⟩

/-- **The scan cache is read whole**: in every run of thread context and PendSV from where there is a
cache, each copy that `mm_halow_wifi_scan_cached` makes is the first entries, as many as there is room
for, of what the cache is after a whole number of the results delivered and emptyings made, no fewer than
before the copy and no more than after it; `out` is left alone behind them. -/
theorem cache_read_whole (t : Scanner) (hcache : t.scanCache = true)
    (tr : List (TwoEvent (WatchCall CacheUpdate CopyArgs) (WatchSaid CacheUpdate CacheTold)))
    (x : Two (Guarded Scanner CacheUpdate CopyArgs (Nat × Entries))
      (Place CacheUpdate CopyArgs (Nat × Entries) AddPc CopyPc))
    (hr : Run cacheCode.prog.Step (.fresh t) tr x) :
    ∀ a ∈ x.shared.answers, ∃ k, a.since ≤ k ∧ k ≤ a.till ∧ a.till ≤ x.shared.made.length ∧
      let l := after (CacheUpdate.applyList t.scanCacheMax.toNat) t.contents (x.shared.made.take k)
      a.result.1 = min l.length a.read.max ∧
        (List.range a.result.1).map a.result.2 = l.take a.read.max ∧
        ∀ j, a.result.1 ≤ j → a.result.2 j = a.read.out j := by
  intro a ha
  obtain ⟨k, hsince, htill, hlen, hres⟩ := cacheCode_meets.snapshots hr a ha
  obtain ⟨-, -, hcontents⟩ := contents_cacheUpdates hcache (x.shared.made.take k)
  refine ⟨k, hsince, htill, hlen, ?_⟩
  rw [hres, ← hcontents]
  exact ⟨@Scanner.copy_n _ a.read.out _, Scanner.map_copy_out, fun j hj => Scanner.copy_rest hj⟩

/-- A cache of two entries, none of them in use. -/
def roomForTwo : Scanner := { scannerAtRest with scanCache := true, scanCacheMax := 2 }

/-- What a step is told where no result comes. -/
def whole : WatchSaid CacheUpdate CacheTold := ⟨none, none, true⟩

/-- An access point that the interrupt reports: `n` instructions lead to its entry, which holds another
for an instruction. -/
def sighted (rssi : Int) (n : Nat) :
    List (TwoEvent (WatchCall CacheUpdate CopyArgs) (WatchSaid CacheUpdate CacheTold)) :=
  [.call .irq .pass, .step .irq whole,
    .step .irq ⟨some (.add (seenEntry hereMac rssi)), none, true⟩] ++
    List.replicate n (.step .irq whole) ++
    [.step .irq ⟨none, some (seenEntry thereMac 0), true⟩, .step .irq whole, .step .irq whole]

/-- The entry is refreshed between the call and the section. -/
def refreshed : List (TwoEvent (WatchCall CacheUpdate CopyArgs) (WatchSaid CacheUpdate CacheTold)) :=
  sighted (-60) 3 ++ [.call .thread (.read ⟨scannerAtRest.cells, 8⟩)] ++ sighted (-50) 2 ++
    List.replicate 6 (.step .thread whole)

/-- One entry has been copied. -/
def copiedFresh (x : Two (Guarded Scanner CacheUpdate CopyArgs (Nat × Entries))
    (Place CacheUpdate CopyArgs (Nat × Entries) AddPc CopyPc)) : Bool :=
  x.shared.answers.map (fun a => (a.since, a.till, a.result.1, a.result.2 0)) =
    [(1, 2, 1, seenEntry hereMac (-50))]

/-- What is copied is the entry as it is in the end. -/
theorem cache_read_whole_refreshed : ∃ x, Run cacheCode.prog.Step (.fresh roomForTwo) refreshed x ∧
    copiedFresh x = true ∧
    ∀ a ∈ x.shared.answers, ∃ k, a.since ≤ k ∧ k ≤ a.till ∧ a.till ≤ x.shared.made.length ∧
      let l := after (CacheUpdate.applyList roomForTwo.scanCacheMax.toNat) roomForTwo.contents
        (x.shared.made.take k)
      a.result.1 = min l.length a.read.max ∧
        (List.range a.result.1).map a.result.2 = l.take a.read.max ∧
        ∀ j, a.result.1 ≤ j → a.result.2 j = a.read.out j := by
  have hrun : ∃ x, Run cacheCode.prog.Step (.fresh roomForTwo) refreshed x ∧ copiedFresh x = true :=
    Run.ofFold_any (fun _ _ _ => Prog.step_of_exec) (by decide +kernel)
  obtain ⟨x, hr, hx⟩ := hrun
  exact ⟨x, hr, hx, cache_read_whole roomForTwo rfl refreshed x hr⟩

end MmHalow.Ctrl
