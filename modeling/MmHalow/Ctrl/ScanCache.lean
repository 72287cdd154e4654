import MmHalow.Ctrl.Stations
import MmHalow.Ctrl.System
import MmHalow.Lib.History
import MmHalow.Lib.Keyed

/-!
# The scan cache (`scan_cache`, `scan_cache_len`, `scan_cache_max`)

The cache as the array it is, with its 8-bit length: what `mm_halow_scan_cache_add` finds, overwrites
and appends, and what `mm_halow_wifi_scan_cached` copies out.

| source                            | here                            |
|-----------------------------------|---------------------------------|
| `mm_halow_scan_cache_add`         | `Scanner.find`, `Scanner.scanCacheAdd` |
| `mm_halow_scan_rx_cb`             | `MmwlanScanResult.raw`, `Scanner.scanRxCb` |
| `mm_halow_wifi_scan_cached`, `mm_halow_scan_start_locked` | `Scanner.wifiScanCached`, `Scanner.scanStartLocked` |
| `mm_halow_init`, `mm_halow_deinit`, of the cache | `Scanner.init`, `Scanner.deinit` |

`scanWorld b` runs these calls, one inside another while a sweep is requested or awaited. Between any
two of their steps results are delivered, sweeps end, and the rest of the driver writes the link status
and the channel list as it likes; memory that is not the cache's may hold anything.

* `contents_scanCacheAdd`: on the entries in use, adding a result is `Keyed.put`.
* `Depicts.scanRxCb`, `wifiScanCached_follows`: results and the call do to the cache what they do to the
  list that the control layer's state has of it.
* `scan_cache_contents`: **after any results since a sweep emptied the cache it holds an entry for each of
  the first BSSIDs that there is room for, the last one of each**, and that is what is copied out.
-/

namespace MmHalow.Ctrl

open MmHalow.Lib

/-- The array at `scan_cache`, or at `out`. -/
abbrev Entries := Nat → ScanResult

/-- `struct mmwlan_scan_result`, what is read of it; a pointer is `NULL` or the bytes it points to. -/
structure MmwlanScanResult where
  ssid : Option (List UInt8)
  ssidLen : Nat
  bssid : Option MacAddr
  rssi : Int
  channelFreqHz : UInt32
  bwMhz : UInt8
  opBwMhz : UInt8
  capabilityInfo : UInt16
  deriving Repr, DecidableEq

/-- What `mm_halow_scan_rx_cb` has of a result where it starts from zeros: a `NULL` leaves them. -/
def MmwlanScanResult.raw (r : MmwlanScanResult) : RawScanResult where
  ssid := (r.ssid.getD []).takeD r.ssidLen 0
  bssid := (r.bssid.getD ⟨List.replicate macAddrLen 0, rfl⟩).val
  rssi := r.rssi
  channelFreqHz := r.channelFreqHz
  bwMhz := r.bwMhz
  opBwMhz := r.opBwMhz
  capabilityInfo := r.capabilityInfo

/-- What of `mm_halow_t` scanning concerns. -/
structure Scanner where
  linkStatus : LinkStatus
  scanActive : Bool
  channels : Option ChannelList
  /-- `scan_cache` is not `NULL`, and the memory it points to. -/
  scanCache : Bool
  cells : Entries
  scanCacheLen : UInt8
  scanCacheMax : UInt8
  /-- The entries made of the results delivered since a sweep emptied the cache that is there, oldest
  first. No code reads it. -/
  since : Option (List ScanResult)

namespace Scanner

/-- The entries in use. -/
def contents (s : Scanner) : List ScanResult := (List.range s.scanCacheLen.toNat).map s.cells

/-- The loop of `mm_halow_scan_cache_add` from `i` on: where it finds the BSSID. -/
def find (bssid : Mac) (s : Scanner) : Nat → UInt8 → Option UInt8
  | 0, _ => none
  | fuel + 1, i =>
    if i < s.scanCacheLen then
      if (s.cells i.toNat).bssid = bssid then some i else find bssid s fuel (i + 1)
    else none

/-- `mm_halow_scan_cache_add`; 256 rounds are more than an 8-bit index has. -/
def scanCacheAdd (res : ScanResult) (s : Scanner) : Scanner :=
  if !s.scanCache then s
  else
    match s.find res.bssid 256 0 with
    | some i => { s with cells := Function.update s.cells i.toNat res }
    | none =>
      if s.scanCacheLen < s.scanCacheMax then
        { s with
          cells := Function.update s.cells s.scanCacheLen.toNat res
          scanCacheLen := s.scanCacheLen + 1 }
      else s

/-- The entry that is made of a result. -/
def entry (b : Build) (r : MmwlanScanResult) (s : Scanner) : ScanResult := scanResult b s.channels r.raw

/-- `mm_halow_scan_rx_cb`. -/
def scanRxCb (b : Build) (r : MmwlanScanResult) (s : Scanner) : Scanner :=
  { s.scanCacheAdd (s.entry b r) with since := s.since.map (· ++ [s.entry b r]) }

/-! ## The calls -/

/-- Code of the calls. -/
abbrev Code (α : Type) := Proc Scanner Ask Ask.Ans α

/-- An assignment, and a value that is read. -/
abbrev store (f : Scanner → Scanner) : Code Unit := .store f
abbrev load {α : Type} (g : Scanner → α) : Code α := .load g

/-- `mm_halow_scan_start_locked`: whether it returns 0. -/
def scanStartLocked : Code Bool := do
  store fun s => { s with scanActive := true }
  let status : Status ← .request (Ask.mmwlan .scanRequest)
  if status ≠ .success then
    store fun s => { s with scanActive := false }
    return false
  else return true

/-- What `mm_halow_wifi_scan_cached` returns and what it leaves at `out`. -/
structure Copied where
  n : Nat
  out : Entries
  /-- `since` where the entries were copied, `none` where none were. -/
  since : Option (List ScanResult)

/-- `for (size_t i = 0; i < n; i++) out[i] = scan_cache[i]`. -/
def copyOut (cells out : Entries) : Nat → Entries
  | 0 => out
  | n + 1 => Function.update (copyOut cells out n) n (cells n)

/-- The end of `mm_halow_wifi_scan_cached`, with interrupts masked. -/
def copy (out : Entries) (max : Nat) (s : Scanner) : Copied :=
  let n := if s.scanCacheLen.toNat < max then s.scanCacheLen.toNat else max
  ⟨n, copyOut s.cells out n, s.since⟩

/-- `mm_halow_wifi_scan_cached`, as far as it starts a sweep. -/
def ensureSweep : Code Bool := do
  if !(← load (·.scanActive)) then
    store fun s => { s with scanCacheLen := 0, since := some [] }
    scanStartLocked
  else return true

/-- `mm_halow_wifi_scan_cached`, from where there is a cache. -/
def sweep (out : Entries) (max : Nat) : Code (Option Copied) := do
  if !(← ensureSweep) then return some ⟨0, out, none⟩
  else
    let _ : Bool ← .request (Ask.schedWait scanMs)
    return some (← load (copy out max))

/-- **`mm_halow_wifi_scan_cached`.** -/
def wifiScanCached (b : Build) (out : Entries) (max : Nat) : Code (Option Copied) := do
  if (← load (·.linkStatus)) ≠ .down then return some ⟨0, out, none⟩
  else if !(← load (·.scanCache)) then
    let block : Bool ← .request Ask.osalMalloc
    store fun s => { s with scanCache := block }
    if !block then return some ⟨0, out, none⟩
    else
      store fun s => { s with scanCacheMax := UInt8.ofNat b.scanCacheMax }
      sweep out max
  else sweep out max

/-- `mm_halow_init`, of the cache. -/
def init : Code (Option Copied) := do
  store fun s => { s with scanActive := false }
  store fun s => { s with scanCache := false, since := none }
  store fun s => { s with scanCacheLen := 0 }
  store fun s => { s with scanCacheMax := 0 }
  return none

/-- `mm_halow_deinit`, of the cache. -/
def deinit : Code (Option Copied) := do
  store fun s => { s with scanCache := false, since := none }
  store fun s => { s with scanCacheLen := 0 }
  store fun s => { s with scanCacheMax := 0 }
  store fun s => { s with scanActive := false }
  return none

end Scanner

/-- The calls that concern the cache. -/
inductive ScanCall where
  | scanCached (out : Entries) (max : Nat)
  | init
  | deinit

/-- What may cut in. -/
inductive ScanCallback where
  /-- `mm_halow_scan_rx_cb`. -/
  | scanRx (r : MmwlanScanResult)
  /-- `mm_halow_scan_complete_cb`, or the transceiver is lost. -/
  | sweepOver
  /-- The rest of the driver. -/
  | link (st : LinkStatus)
  | channels (l : Option ChannelList)
  /-- The memory is somebody else's while there is no cache. -/
  | memory (cells : Entries)

/-- The effect of what cuts in. -/
def ScanCallback.effect (b : Build) : ScanCallback → Scanner → Scanner
  | .scanRx r, s => s.scanRxCb b r
  | .sweepOver, s => { s with scanActive := false }
  | .link st, s => { s with linkStatus := st }
  | .channels l, s => { s with channels := l }
  | .memory cells, s => if s.scanCache then s else { s with cells := cells }

/-- The code of a call. -/
def ScanCall.body (b : Build) : ScanCall → Scanner.Code (Option Scanner.Copied)
  | scanCached out max => Scanner.wifiScanCached b out max
  | init => Scanner.init
  | deinit => Scanner.deinit

/-- **The calls, and what cuts in**: anything may be answered. -/
def scanWorld (b : Build) : World Scanner Ask Ask.Ans ScanCall ScanCallback (Option Scanner.Copied) where
  body := ScanCall.body b
  atDepth _ s := s
  enter _ _ s := s
  leave _ _ _ s := s
  answers _ _ _ := true
  waits := waits
  callback := ScanCallback.effect b

/-! ## The entries in use -/

namespace Scanner

variable {b : Build} {s t : Scanner} {res : ScanResult} {bssid : Mac} {i k : UInt8} {fuel : Nat}

theorem length_contents : s.contents.length = s.scanCacheLen.toNat := by
  unfold contents
  rw [List.length_map, List.length_range]

/-- The entries before `i`, entry `i` and the `r` entries after it. -/
theorem contents_split {i r : Nat} (h : s.scanCacheLen.toNat = i + 1 + r) :
    s.contents = (List.range i).map s.cells ++
      s.cells i :: (List.range r).map fun k => s.cells (i + 1 + k) := by
  unfold contents
  rw [h, List.range_add, List.range_succ, List.map_append, List.map_append, List.map_map,
    List.append_assoc]
  rfl

/-- An index of an entry in use does not wrap. -/
theorem toNat_succ (h : i < s.scanCacheLen) : (i + 1).toNat = i.toNat + 1 := by
  have hi : i.toNat < s.scanCacheLen.toNat := UInt8.lt_iff_toNat_lt.mp h
  have hlen := s.scanCacheLen.toNat_lt
  rw [UInt8.toNat_add]
  simp
  omega

/-- The loop stops at the first entry with the BSSID. -/
theorem find_some (h : s.find bssid fuel i = some k) : k.toNat < s.scanCacheLen.toNat ∧
    (s.cells k.toNat).bssid = bssid ∧
      ∀ j, i.toNat ≤ j → j < k.toNat → (s.cells j).bssid ≠ bssid := by
  induction fuel generalizing i with
  | zero => exact nomatch h
  | succ fuel ih =>
    unfold find at h
    split_ifs at h with hi hb
    · obtain rfl := Option.some.inj h
      exact ⟨UInt8.lt_iff_toNat_lt.mp hi, hb, fun j hj hk => absurd hk (Nat.not_lt.mpr hj)⟩
    · obtain ⟨hk, hkb, hpre⟩ := ih h
      rw [toNat_succ hi] at hpre
      refine ⟨hk, hkb, fun j hj hjk => ?_⟩
      rcases Nat.eq_or_lt_of_le hj with rfl | hlt
      · exact hb
      · exact hpre j hlt hjk

/-- With a round for each entry it finds the BSSID where there is one. -/
theorem find_none (hfuel : s.scanCacheLen.toNat ≤ i.toNat + fuel) (h : s.find bssid fuel i = none) :
    ∀ j, i.toNat ≤ j → j < s.scanCacheLen.toNat → (s.cells j).bssid ≠ bssid := by
  induction fuel generalizing i with
  | zero => exact fun j hj hlt => absurd hlt (Nat.not_lt.mpr (Nat.le_trans hfuel hj))
  | succ fuel ih =>
    unfold find at h
    split_ifs at h with hi hb
    · intro j hj hlt
      rcases Nat.eq_or_lt_of_le hj with rfl | hgt
      · exact hb
      · have hnext := toNat_succ hi
        exact ih (by omega) h j (by omega) hlt
    · intro j hj hlt
      exact absurd (UInt8.lt_iff_toNat_lt.mpr (Nat.lt_of_le_of_lt hj hlt)) hi

/-- **On the entries in use, adding a result is `Keyed.put`.** -/
theorem contents_scanCacheAdd (res : ScanResult) (hcache : s.scanCache = true) :
    (s.scanCacheAdd res).contents = Keyed.put ScanResult.bssid s.scanCacheMax.toNat res s.contents := by
  unfold scanCacheAdd
  rw [if_neg (by simp [hcache])]
  cases hf : s.find res.bssid 256 0 with
  | some k =>
    obtain ⟨hk, hb, hpre⟩ := find_some hf
    obtain ⟨r, hr⟩ := Nat.exists_eq_add_of_lt hk
    rw [show k.toNat + r + 1 = k.toNat + 1 + r by omega] at hr
    have habs : res.bssid ∉ ((List.range k.toNat).map s.cells).map ScanResult.bssid := by
      intro hm
      obtain ⟨a, ha, hab⟩ := List.mem_map.mp hm
      obtain ⟨j, hj, rfl⟩ := List.mem_map.mp ha
      exact hpre j (Nat.zero_le j) (List.mem_range.mp hj) hab
    rw [contents_split hr, Keyed.put_found habs hb, contents_split (by exact hr)]
    dsimp only
    rw [Function.update_self]
    congr 1
    · refine List.map_congr_left fun j hj => Function.update_of_ne ?_ _ _
      exact Nat.ne_of_lt (List.mem_range.mp hj)
    · exact congrArg (res :: ·) (List.map_congr_left fun j _ => Function.update_of_ne (by omega) _ _)
  | none =>
    have habs : res.bssid ∉ s.contents.map ScanResult.bssid := by
      intro hm
      obtain ⟨a, ha, hab⟩ := List.mem_map.mp hm
      obtain ⟨j, hj, rfl⟩ := List.mem_map.mp ha
      have hlen := s.scanCacheLen.toNat_lt
      exact find_none (by omega) hf j (Nat.zero_le j) (List.mem_range.mp hj) hab
    rw [Keyed.put_absent habs, length_contents]
    simp only [UInt8.lt_iff_toNat_lt]
    split_ifs with hroom
    · have hlen : (s.scanCacheLen + 1).toNat = s.scanCacheLen.toNat + 1 :=
        toNat_succ (s := { s with scanCacheLen := s.scanCacheMax }) (UInt8.lt_iff_toNat_lt.mpr hroom)
      unfold contents
      simp only [hlen]
      rw [List.range_succ, List.map_append, List.map_singleton, Function.update_self]
      congr 1
      refine List.map_congr_left fun j hj => Function.update_of_ne ?_ _ _
      exact Nat.ne_of_lt (List.mem_range.mp hj)
    · rfl

/-- Without a cache there is nothing to add to. -/
theorem scanCacheAdd_absent (hcache : s.scanCache = false) : s.scanCacheAdd res = s := by
  unfold scanCacheAdd
  rw [if_pos (by simp [hcache])]

/-- It leaves all but the entries and their number alone. -/
theorem scanCacheAdd_rest (s : Scanner) (res : ScanResult) : ∃ cells len,
    s.scanCacheAdd res = { s with cells := cells, scanCacheLen := len } := by
  unfold scanCacheAdd
  split
  case isTrue => exact ⟨s.cells, s.scanCacheLen, rfl⟩
  case isFalse =>
    cases s.find res.bssid 256 0 with
    | some i => exact ⟨_, s.scanCacheLen, rfl⟩
    | none =>
      dsimp only
      split_ifs with hroom
      · exact ⟨_, _, rfl⟩
      · exact ⟨s.cells, s.scanCacheLen, rfl⟩

/-- **What is copied out.** -/
theorem copyOut_eq (cells out : Entries) (n j : Nat) :
    copyOut cells out n j = if j < n then cells j else out j := by
  induction n with
  | zero => rfl
  | succ n ih =>
    unfold copyOut
    by_cases hj : j = n
    · subst hj
      rw [Function.update_self, if_pos (Nat.lt_succ_self j)]
    · rw [Function.update_of_ne hj, ih]
      exact if_congr (by omega) rfl rfl

/-! ## What the cache is -/

/-- There is no cache. -/
structure Gone (s : Scanner) : Prop where
  scanCache : s.scanCache = false
  since : s.since = none

/-- And nothing says otherwise, as in `mm_halow_state` at the start. -/
structure Absent (s : Scanner) : Prop extends Gone s where
  scanActive : s.scanActive = false
  scanCacheLen : s.scanCacheLen = 0

/-- There is a cache, with room for as many entries as it is built for. -/
structure Sized (b : Build) (s : Scanner) : Prop where
  scanCache : s.scanCache = true
  scanCacheMax : s.scanCacheMax.toNat = b.scanCacheMax

/-- Its entries are those of the results since it was emptied. -/
def Filled (b : Build) (s : Scanner) : Prop :=
  ∃ rs, s.since = some rs ∧ Keyed.Latest ScanResult.bssid b.scanCacheMax rs s.contents

/-- **Where calls may be made**, there is no cache or a filled one. -/
def Kept (b : Build) (s : Scanner) : Prop := s.Absent ∨ s.Sized b ∧ s.Filled b

/-- A sweep that is under way has filled the cache. -/
def Ready (b : Build) (s : Scanner) : Prop := s.Sized b ∧ (s.scanActive = true → s.Filled b)

/-- There is a cache, and no sweep under way. -/
def Idle (s : Scanner) : Prop := s.scanCache = true ∧ s.scanActive = false

/-- A cache that has just been emptied. -/
theorem filled_empty (hlen : s.scanCacheLen = 0) (hsince : s.since = some []) : s.Filled b := by
  refine ⟨[], hsince, ?_⟩
  unfold contents
  rw [hlen]
  exact .nil

theorem Kept.ready (h : s.Kept b) (hcache : s.scanCache = true) : s.Ready b := by
  rcases h with habs | ⟨hsized, hfilled⟩
  · exact nomatch habs.scanCache.symm.trans hcache
  · exact ⟨hsized, fun _ => hfilled⟩

/-! ## Results and other callbacks -/

variable {e : ScanCallback}

/-- A callback leaves the cache there, with its size, and starts no sweep. -/
theorem callback_rest : (e.effect b s).scanCache = s.scanCache ∧
    (e.effect b s).scanCacheMax = s.scanCacheMax ∧
      ((e.effect b s).scanActive = true → s.scanActive = true) := by
  cases e with
  | scanRx r =>
    obtain ⟨cells, len, hadd⟩ := scanCacheAdd_rest s (s.entry b r)
    dsimp only [ScanCallback.effect, scanRxCb]
    rw [hadd]
    exact ⟨rfl, rfl, id⟩
  | sweepOver => exact ⟨rfl, rfl, nofun⟩
  | link st => exact ⟨rfl, rfl, id⟩
  | channels l => exact ⟨rfl, rfl, id⟩
  | memory cells =>
    dsimp only [ScanCallback.effect]
    split
    · exact ⟨rfl, rfl, id⟩
    · exact ⟨rfl, rfl, id⟩

/-- Where there is no cache, a result goes nowhere. -/
theorem callback_absent (hcache : s.scanCache = false) : (e.effect b s).scanCacheLen = s.scanCacheLen ∧
    (s.since = none → (e.effect b s).since = none) := by
  cases e with
  | scanRx r =>
    have hadd : s.scanCacheAdd (s.entry b r) = s := scanCacheAdd_absent hcache
    constructor
    · change (s.scanCacheAdd (s.entry b r)).scanCacheLen = s.scanCacheLen
      rw [hadd]
    · exact congrArg (Option.map _)
  | sweepOver => exact ⟨rfl, id⟩
  | link st => exact ⟨rfl, id⟩
  | channels l => exact ⟨rfl, id⟩
  | memory cells =>
    dsimp only [ScanCallback.effect]
    split
    · exact ⟨rfl, id⟩
    · exact ⟨rfl, id⟩

theorem Gone.callback (h : s.Gone) : (e.effect b s).Gone := by
  constructor
  · exact callback_rest.1.trans h.scanCache
  · exact (callback_absent h.scanCache).2 h.since

theorem scanActive_callback (h : s.scanActive = false) : (e.effect b s).scanActive = false :=
  Bool.eq_false_iff.mpr fun ha => nomatch h.symm.trans (callback_rest.2.2 ha)

theorem Absent.callback (h : s.Absent) : (e.effect b s).Absent where
  scanActive := scanActive_callback h.scanActive
  toGone := h.toGone.callback
  scanCacheLen := (callback_absent h.scanCache).1.trans h.scanCacheLen

theorem Sized.callback (h : s.Sized b) : (e.effect b s).Sized b := by
  obtain ⟨hcache, hmax, -⟩ := callback_rest (e := e) (b := b) (s := s)
  constructor
  · exact hcache.trans h.scanCache
  · rw [hmax, h.scanCacheMax]

/-- **One more result, or none.** -/
theorem Filled.callback (hsized : s.Sized b) (h : s.Filled b) : (e.effect b s).Filled b := by
  obtain ⟨rs, hsince, hl⟩ := h
  cases e with
  | scanRx r =>
    refine ⟨rs ++ [s.entry b r], congrArg (Option.map _) hsince, ?_⟩
    change Keyed.Latest ScanResult.bssid b.scanCacheMax _ (s.scanCacheAdd (s.entry b r)).contents
    rw [contents_scanCacheAdd _ hsized.scanCache, hsized.scanCacheMax]
    exact hl.put
  | sweepOver => exact ⟨rs, hsince, hl⟩
  | link st => exact ⟨rs, hsince, hl⟩
  | channels l => exact ⟨rs, hsince, hl⟩
  | memory cells =>
    dsimp only [ScanCallback.effect]
    rw [if_pos hsized.scanCache]
    exact ⟨rs, hsince, hl⟩

theorem Kept.callback (h : s.Kept b) : (e.effect b s).Kept b := by
  rcases h with habs | ⟨hsized, hfilled⟩
  · exact .inl habs.callback
  · exact .inr ⟨hsized.callback, hfilled.callback hsized⟩

theorem Ready.callback (h : s.Ready b) : (e.effect b s).Ready b := by
  obtain ⟨hsized, hfilled⟩ := h
  refine ⟨hsized.callback, fun hactive => ?_⟩
  exact (hfilled (callback_rest.2.2 hactive)).callback hsized

theorem Idle.callback (h : s.Idle) : (e.effect b s).Idle := by
  constructor
  · exact callback_rest.1.trans h.1
  · exact scanActive_callback h.2

/-- **A BSSID there is no room for disturbs nothing.** -/
theorem scanRxCb_dropped {rs : List ScanResult} {r : MmwlanScanResult} (hsized : s.Sized b)
    (hl : Keyed.Latest ScanResult.bssid b.scanCacheMax rs s.contents)
    (hr : (s.entry b r).bssid ∉
      (Keyed.firsts ScanResult.bssid (rs ++ [s.entry b r])).take b.scanCacheMax) :
    (s.scanRxCb b r).contents = s.contents := by
  change (s.scanCacheAdd (s.entry b r)).contents = s.contents
  rw [contents_scanCacheAdd _ hsized.scanCache, hsized.scanCacheMax]
  exact hl.dropped hr

end Scanner

/-! ## The calls -/

/-- **What a call has copied out**: the first `max` entries of the cache, and nothing where there was
none. -/
structure Scanner.Copied.Shows (b : Build) (out : Entries) (max : Nat) (c : Scanner.Copied) : Prop where
  nothing : c.since = none → c.n = 0
  entries : ∀ rs, c.since = some rs → ∃ l, Keyed.Latest ScanResult.bssid b.scanCacheMax rs l ∧
    c.n = min l.length max ∧ (List.range c.n).map c.out = l.take max
  rest : ∀ j, c.n ≤ j → c.out j = out j

/-- A call in progress. -/
abbrev Calling := Info Scanner Ask Ask.Ans ScanCall

/-- Host callbacks run while the innermost call waits for the answer to its last question. -/
def Asking (is : List Calling) : Prop := ∃ i ∈ is.head?, ∃ q ∈ i.log.asked.head?, waits q = true

/-- What is shown of a call that returns. -/
def ScanCall.Returns (b : Build) : ScanCall → Option Scanner.Copied → Prop
  | scanCached out max, r => ∃ c, r = some c ∧ c.Shows b out max
  | init, _ => True
  | deinit, _ => True

/-- The specification: calls made while another waits keep the cache as it should be, and nothing but
callbacks happens while a question is out that does not wait. -/
def cacheSpec (b : Build) : Spec (scanWorld b) where
  ok _ _ _ := True
  during is s t := (s.Kept b → t.Kept b) ∧
    (¬ Asking is → (scanWorld b).Calm (fun _ _ _ => True) is s t)
  entry is s := s.Kept b ∧ Asking is
  guard _ _ _ := True
  post i r _ := i.call.Returns b r
  idle s := s.Kept b

namespace Scanner

variable {b : Build} {s : Scanner} {κ : Around Scanner Ask Ask.Ans ScanCall} {l : Lib.Log Ask Ask.Ans}
  {out : Entries} {max : Nat}

theorem steady_absent : (cacheSpec b).Steady Absent := fun _ _ _ _ h => h.callback

theorem steady_gone : (cacheSpec b).Steady Gone := fun _ _ _ _ h => h.callback

theorem steady_off : (cacheSpec b).Steady fun s => s.scanActive = false :=
  fun _ _ _ _ h => scanActive_callback h

theorem steady_empty : (cacheSpec b).Steady fun s => s.Gone ∧ s.scanCacheLen = 0 :=
  fun _ _ _ _ h => ⟨h.1.callback, (callback_absent h.1.scanCache).1.trans h.2⟩

theorem steady_kept : (cacheSpec b).Steady (Kept b) := fun _ _ _ _ h => h.callback

theorem steady_ready : (cacheSpec b).Steady (Ready b) := fun _ _ _ _ h => h.callback

theorem steady_idle : (cacheSpec b).Steady Idle := fun _ _ _ _ h => h.callback

theorem steady_held : (cacheSpec b).Steady fun s => s.Sized b ∧ s.Filled b :=
  fun _ _ _ _ h => ⟨h.1.callback, h.2.callback h.1⟩

/-- A question during which calls may be made. -/
theorem request_kept {q : Ask} {P : Scanner → Prop} {Q' : Lib.Log Ask Ask.Ans → q.Ans → Scanner → Prop}
    (hP : (cacheSpec b).Steady P) (hs : P s) (hkept : ∀ t, P t → t.Kept b)
    (h : ∀ t a, t.Kept b → Q' ((l.ask q).hear q a) a t) :
    (cacheSpec b).wp κ l (.request q) s Q' :=
  Spec.wp_request_in (D := Kept b) (hP _) hs (fun _ _ _ => trivial) (fun t _ ht hu => hu.1 (hkept t ht))
    (fun _ ht hw => ⟨ht, _, rfl, q, rfl, hw⟩) fun t a ht _ _ => h t a ht

theorem copy_n : (s.copy out max).n = min s.contents.length max := by
  rw [length_contents]
  change (if s.scanCacheLen.toNat < max then s.scanCacheLen.toNat else max) = _
  split_ifs with hmax
  · exact (Nat.min_eq_left (Nat.le_of_lt hmax)).symm
  · exact (Nat.min_eq_right (Nat.not_lt.mp hmax)).symm

/-- **The entries that are copied out**, and what is left of `out`. -/
theorem map_copy_out :
    (List.range (s.copy out max).n).map (s.copy out max).out = s.contents.take max := by
  have htake : s.contents.take max = (List.range (s.copy out max).n).map s.cells := by
    rw [copy_n, length_contents]
    unfold contents
    rw [← List.map_take, List.take_range, Nat.min_comm]
  rw [htake]
  exact List.map_congr_left fun j hj => (copyOut_eq _ _ _ j).trans (if_pos (List.mem_range.mp hj))

theorem copy_rest {j : Nat} (hj : (s.copy out max).n ≤ j) : (s.copy out max).out j = out j :=
  (copyOut_eq s.cells out _ j).trans (if_neg (Nat.not_lt.mpr hj))

/-- **What is copied out of the cache.** -/
theorem Kept.copy (h : s.Kept b) : (s.copy out max).Shows b out max := by
  constructor
  · intro hnone
    rcases h with habs | ⟨-, rs, hsince, -⟩
    · rw [copy_n, length_contents, habs.scanCacheLen]
      exact Nat.zero_min max
    · exact nomatch hnone.symm.trans hsince
  · intro rs hrs
    rcases h with habs | ⟨-, rs', hsince, hl⟩
    · exact nomatch hrs.symm.trans habs.since
    · obtain rfl : rs' = rs := Option.some.inj (hsince.symm.trans hrs)
      exact ⟨s.contents, hl, copy_n, map_copy_out⟩
  · exact fun j hj => copy_rest hj

/-- Nothing was copied. -/
theorem shows_nothing : Copied.Shows b out max ⟨0, out, none⟩ :=
  ⟨fun _ => rfl, nofun, fun _ _ => rfl⟩

/-- **A sweep is under way or the cache is emptied for one.** -/
theorem ensureSweep_kept (hs : s.Ready b) :
    (cacheSpec b).wp κ l ensureSweep s fun _ _ t => t.Kept b := by
  refine Spec.wp_bind.mpr (Spec.wp_load steady_ready hs fun t ht => ?_)
  cases hactive : t.scanActive with
  | true => exact .inr ⟨ht.1, ht.2 hactive⟩
  | false =>
    refine Spec.wp_bind.mpr (Spec.wp_store steady_ready ht fun t ht => ?_)
    have hsized : Sized b { t with scanCacheLen := 0, since := some [] } := ⟨ht.1.1, ht.1.2⟩
    refine Spec.wp_bind.mpr (Spec.wp_store steady_held ⟨hsized, filled_empty rfl rfl⟩ fun t ht => ?_)
    have ht : Sized b { t with scanActive := true } ∧ Filled b { t with scanActive := true } :=
      ⟨⟨ht.1.1, ht.1.2⟩, ht.2⟩
    refine Spec.wp_bind.mpr
      (request_kept steady_held ht (fun _ h => .inr h) fun t (st : Status) ht => ?_)
    change Spec.wp _ _ _ (if st ≠ Status.success then _ else _) _ _
    split
    · refine Spec.wp_bind.mpr (Spec.wp_store steady_kept ht fun t ht => ?_)
      rcases ht with habs | ⟨hsized, hfilled⟩
      · exact .inl ⟨⟨habs.scanCache, habs.since⟩, rfl, habs.scanCacheLen⟩
      · exact .inr ⟨⟨hsized.1, hsized.2⟩, hfilled⟩
    · exact ht

theorem sweep_kept (hs : s.Ready b) : (cacheSpec b).wp κ l (sweep out max) s fun _ r t =>
    t.Kept b ∧ ∃ c, r = some c ∧ c.Shows b out max := by
  refine Spec.wp_seq (ensureSweep_kept hs) fun l' r t ht => ?_
  cases r with
  | false => exact ⟨ht, _, rfl, shows_nothing⟩
  | true =>
    refine Spec.wp_bind.mpr (request_kept steady_kept ht (fun _ h => h) fun t _ ht => ?_)
    exact Spec.wp_bind.mpr (Spec.wp_load steady_kept ht fun t ht => ⟨ht, _, rfl, ht.copy⟩)

/-- **A scan copies out what the results have made of the cache.** -/
theorem scan_kept (hb : b.scanCacheMax ≤ 255) (hs : s.Kept b) :
    (cacheSpec b).wp κ l (wifiScanCached b out max) s fun _ r t =>
      t.Kept b ∧ ∃ c, r = some c ∧ c.Shows b out max := by
  refine Spec.wp_bind.mpr (Spec.wp_load steady_kept hs fun t ht => ?_)
  split
  case isTrue => exact ⟨ht, _, rfl, shows_nothing⟩
  case isFalse =>
    refine Spec.wp_bind.mpr (Spec.wp_load steady_kept ht fun t ht => ?_)
    cases hcache : t.scanCache with
    | true => exact sweep_kept (ht.ready hcache)
    | false =>
      have habs : t.Absent := ht.resolve_right fun h => nomatch hcache.symm.trans h.1.scanCache
      refine Spec.wp_bind.mpr (Spec.wp_request_in (D := Absent) (steady_absent _) habs
        (fun _ _ _ => trivial) (fun t u ht hu => ?_) (fun _ _ h => nomatch h)
        fun t (block : Bool) ht _ _ => ?_)
      · -- no call is made while the block is asked for
        refine steady_absent.calm (hu.2 ?_) ht
        rintro ⟨i, hi, q, hq, hw⟩
        obtain rfl := Option.some.inj hi
        obtain rfl := Option.some.inj hq
        exact nomatch hw
      · refine Spec.wp_bind.mpr (Spec.wp_store steady_absent ht fun t ht => ?_)
        cases block with
        | false => exact ⟨.inl ⟨⟨rfl, ht.since⟩, ht.2, ht.3⟩, _, rfl, shows_nothing⟩
        | true =>
          have hidle : Idle { t with scanCache := true } := ⟨rfl, ht.scanActive⟩
          refine Spec.wp_bind.mpr (Spec.wp_store steady_idle hidle fun t ht => sweep_kept ?_)
          refine ⟨⟨ht.1, ?_⟩, fun hactive => nomatch ht.2.symm.trans hactive⟩
          exact UInt8.toNat_ofNat_of_lt' (Nat.lt_succ_of_le hb)

/-- Setting the driver up or down leaves no cache. -/
theorem init_kept : (cacheSpec b).wp κ l init s fun _ _ t => t.Kept b := by
  refine Spec.wp_bind.mpr
    (Spec.wp_store (P := fun _ => True) (fun _ _ _ _ _ => trivial) trivial fun t _ => ?_)
  refine Spec.wp_bind.mpr (Spec.wp_store steady_off rfl fun t ht => ?_)
  refine Spec.wp_bind.mpr (Spec.wp_store (steady_gone.and steady_off) ⟨⟨rfl, rfl⟩, ht⟩ fun t ht => ?_)
  have habs : Absent { t with scanCacheLen := 0 } := ⟨⟨ht.1.1, ht.1.2⟩, ht.2, rfl⟩
  refine Spec.wp_bind.mpr (Spec.wp_store steady_absent habs fun t ht => ?_)
  exact .inl ⟨⟨ht.1.1, ht.1.2⟩, ht.2, ht.3⟩

theorem deinit_kept : (cacheSpec b).wp κ l deinit s fun _ _ t => t.Kept b := by
  refine Spec.wp_bind.mpr
    (Spec.wp_store (P := fun _ => True) (fun _ _ _ _ _ => trivial) trivial fun t _ => ?_)
  refine Spec.wp_bind.mpr (Spec.wp_store steady_gone ⟨rfl, rfl⟩ fun t ht => ?_)
  refine Spec.wp_bind.mpr (Spec.wp_store steady_empty ⟨⟨ht.1, ht.2⟩, rfl⟩ fun t ht => ?_)
  refine Spec.wp_bind.mpr (Spec.wp_store steady_empty ⟨⟨ht.1.1, ht.1.2⟩, ht.2⟩ fun t ht => ?_)
  exact .inl ⟨⟨ht.1.1, ht.1.2⟩, rfl, ht.2⟩

end Scanner

/-! ## Every run -/

variable {b : Build} {s : Scanner}

theorem call_kept {is : List Calling} {c : ScanCall} (hb : b.scanCacheMax ≤ 255) (hs : s.Kept b) :
    (cacheSpec b).Meets is c s (Scanner.Kept b) := by
  have hbody :
      (cacheSpec b).wp ⟨c, s, is⟩ .empty (c.body b) s fun _ r t => t.Kept b ∧ c.Returns b r := by
    cases c with
    | scanCached out max => exact Scanner.scan_kept hb hs
    | init => exact Spec.wp_mono Scanner.init_kept fun _ _ _ ht => ⟨ht, trivial⟩
    | deinit => exact Spec.wp_mono Scanner.deinit_kept fun _ _ _ ht => ⟨ht, trivial⟩
  exact Spec.wp_mono hbody fun _ _ _ ht u hu => ⟨ht.2, Scanner.steady_kept.calm hu ht.1⟩

/-- **Every call keeps to it**, wherever it is made. -/
theorem cache_sound (hb : b.scanCacheMax ≤ 255) : (cacheSpec b).Sound where
  idle_cb _ _ h _ := h.callback
  during_refl _ _ := ⟨id, fun _ => .refl⟩
  during_trans _ _ _ _ h h' := ⟨fun hs => h'.1 (h.1 hs), fun hw => (h.2 hw).trans (h'.2 hw)⟩
  during_cb _ _ _ hok := ⟨fun h => h.callback, fun _ => .single hok⟩
  first _ _ hs _ := call_kept hb hs
  nested _ _ _ _ hs _ := Spec.wp_mono (call_kept hb hs.1) fun _ _ _ ht u hu =>
    ⟨(ht u hu).1, fun _ => (ht u hu).2, fun hw => absurd hs.2 hw⟩

/-- **The contents of the scan cache** in every run, from where there is none: wherever a call may be
made, `rs` being the entries of all results since a sweep emptied it, the cache holds the last entry of
each of the first BSSIDs there is room for, in the order of their first results, and a result with a
further BSSID leaves it as it is; and a scan copies out the first `max` of such entries. -/
theorem scan_cache_contents (b : Build) (hb : b.scanCacheMax ≤ 255) (s : Scanner) (hs : s.Absent)
    (tr : List (Event Ask Ask.Ans ScanCall ScanCallback (Option Scanner.Copied)))
    (x : Config Scanner Ask Ask.Ans ScanCall (Option Scanner.Copied))
    (hr : Run (scanWorld b).Step ⟨s, []⟩ tr x) :
    ((scanWorld b).mayCall x.stack = true → ∀ rs, x.st.since = some rs →
      Keyed.Latest ScanResult.bssid b.scanCacheMax rs x.st.contents ∧
        ∀ r, (x.st.entry b r).bssid ∉
          (Keyed.firsts ScanResult.bssid (rs ++ [x.st.entry b r])).take b.scanCacheMax →
            (x.st.scanRxCb b r).contents = x.st.contents) ∧
      ∀ out max r y, (scanWorld b).Step x (.ret (.scanCached out max) r) y →
        ∃ c, r = some c ∧ c.Shows b out max := by
  have hr : Run (cacheSpec b).Step ⟨s, []⟩ tr x := hr.mono fun _ _ _ h => ⟨h, trivial⟩
  constructor
  · intro hcall rs hrs
    have hkept : x.st.Kept b := by
      by_cases hx : x.stack = []
      · exact (cache_sound hb).idle (.inl hs) hr hx
      · exact ((cache_sound hb).entry (.inl hs) hr hx hcall).1
    rcases hkept with habs | ⟨hsized, rs', hrs', hl⟩
    · exact nomatch hrs.symm.trans habs.since
    · obtain rfl : rs' = rs := Option.some.inj (hrs'.symm.trans hrs)
      exact ⟨hl, fun r hr => Scanner.scanRxCb_dropped hsized hl hr⟩
  · intro out max r y hy
    obtain ⟨i, is, -, hi, hpost⟩ := (cache_sound hb).post (.inl hs) hr ⟨hy, trivial⟩
    change i.call.Returns b r at hpost
    rw [hi] at hpost
    exact hpost

/-! ## The control layer -/

/-- What of the control layer's state the cache is. -/
structure Scanner.Depicts (s : Scanner) (t : State) : Prop where
  linkStatus : s.linkStatus = t.linkStatus
  scanActive : s.scanActive = t.scanActive
  channels : s.channels = t.channels
  scanCache : s.scanCache = t.scanCache
  scanResults : s.contents = t.scanResults
  scanCacheMax : s.scanCacheMax.toNat = t.scanCacheMax

/-- A list is left at `out`. -/
def Scanner.Copied.IsList (out : Entries) (c : Option Scanner.Copied) (r : Ret) : Prop :=
  ∃ c' l, c = some c' ∧ r = .results l ∧ (List.range c'.n).map c'.out = l ∧
    ∀ j, c'.n ≤ j → c'.out j = out j

/-- `scanCacheAdd` of the control layer's state. -/
theorem scanCacheAdd_eq (cap : Nat) (res : ScanResult) (l : List ScanResult) :
    scanCacheAdd cap res l = Keyed.put ScanResult.bssid cap res l := by
  induction l generalizing cap with
  | nil => rfl
  | cons a l ih =>
    unfold scanCacheAdd Keyed.put
    rw [ih]

namespace Scanner

variable {t : State} {out : Entries} {max : Nat}

/-- A result. -/
theorem Depicts.scanRxCb (h : s.Depicts t) (r : MmwlanScanResult) :
    (s.scanRxCb b r).Depicts (Ctrl.scanRxCb b r.raw t) := by
  have hentry : s.entry b r = scanResult b t.channels r.raw :=
    congrArg (scanResult b · r.raw) h.channels
  unfold Ctrl.scanRxCb
  rw [← h.scanCache, ← hentry, scanCacheAdd_eq]
  by_cases hcache : s.scanCache = true
  · obtain ⟨cells, len, hadd⟩ := scanCacheAdd_rest s (s.entry b r)
    have hcontents := contents_scanCacheAdd (s.entry b r) hcache
    rw [if_pos hcache]
    unfold Scanner.scanRxCb
    rw [hadd] at hcontents ⊢
    constructor
    · exact h.linkStatus
    · exact h.scanActive
    · exact h.channels
    · rfl
    · rw [← h.scanResults, ← h.scanCacheMax]
      exact hcontents
    · exact h.scanCacheMax
  · have hadd : s.scanCacheAdd (s.entry b r) = s := scanCacheAdd_absent (Bool.eq_false_iff.mpr hcache)
    rw [if_neg hcache]
    unfold Scanner.scanRxCb
    rw [hadd]
    exact ⟨h.linkStatus, h.scanActive, h.channels, h.scanCache, h.scanResults, h.scanCacheMax⟩

/-- The request of a sweep. -/
theorem scanStartLocked_follows :
    Proc.Follows Depicts (fun r r' => r = true ↔ r' = .ok) scanStartLocked Ctrl.scanStartLocked := by
  refine .bind (.store fun s t h => ⟨h.1, rfl, h.3, h.4, h.5, h.6⟩) fun _ _ _ => ?_
  refine .bind (.request (q := Ask.mmwlan .scanRequest)) ?_
  rintro _ (status : Status) rfl
  refine .ite Iff.rfl (fun hst => ?_) fun _ => .ret ⟨fun _ => rfl, fun _ => rfl⟩
  refine .bind (.store fun s t h => ⟨h.1, rfl, h.3, h.4, h.5, h.6⟩) fun _ _ _ => .ret ?_
  exact ⟨nofun, fun hr => absurd (statusToErrno_eq_ok.mp hr) hst⟩

theorem ensureSweep_follows :
    Proc.Follows Depicts (fun r r' => r = true ↔ r' = .ok) ensureSweep Ctrl.ensureSweep := by
  refine .bind (.load (V := Eq) fun _ _ h => h.scanActive) ?_
  rintro _ active rfl
  refine .ite Iff.rfl (fun _ => ?_) fun _ => .ret ⟨fun _ => rfl, fun _ => rfl⟩
  exact .bind (.store fun s t h => ⟨h.1, h.2, h.3, h.4, rfl, h.6⟩) fun _ _ _ => scanStartLocked_follows

/-- Nothing is left at `out`. -/
theorem isList_nil : Copied.IsList out (some ⟨0, out, none⟩) (.results []) :=
  ⟨_, _, rfl, rfl, rfl, fun _ _ => rfl⟩

theorem sweep_follows :
    Proc.Follows Depicts (Copied.IsList out) (sweep out max) (Ctrl.sweep max) := by
  refine .bind ensureSweep_follows fun started r hr => ?_
  refine .ite (by simp [← hr]) (fun _ => .ret isList_nil) fun _ => ?_
  refine .bind (.request (q := Ask.schedWait scanMs)) ?_
  rintro _ idle rfl
  refine .bind (.load (V := fun c l => Copied.IsList out (some c) (.results l)) fun s t h => ?_)
    fun c l hcl => .ret hcl
  refine ⟨_, _, rfl, rfl, ?_, fun _ hj => copy_rest hj⟩
  rw [← h.scanResults]
  exact map_copy_out

/-- **The call does what that of the control layer does.** -/
theorem wifiScanCached_follows : Proc.Follows Depicts (Copied.IsList out) (wifiScanCached b out max)
    (Ctrl.wifiScanCached b max) := by
  refine .bind (.load (V := Eq) fun _ _ h => h.linkStatus) ?_
  rintro _ status rfl
  refine .ite Iff.rfl (fun _ => .ret isList_nil) fun _ => ?_
  refine .bind (.load (V := Eq) fun _ _ h => h.scanCache) ?_
  rintro _ cache rfl
  refine .ite Iff.rfl (fun _ => ?_) fun _ => sweep_follows
  refine .bind (.request (q := Ask.osalMalloc)) ?_
  rintro _ (block : Bool) rfl
  refine .bind (.store fun s t h => ⟨h.1, h.2, h.3, rfl, h.5, h.6⟩) fun _ _ _ => ?_
  refine .ite Iff.rfl (fun _ => .ret isList_nil) fun _ => ?_
  exact .bind (.store fun s t h => ⟨h.1, h.2, h.3, h.4, h.5, UInt8.toNat_ofNat'⟩)
    fun _ _ _ => sweep_follows

end Scanner

/-! ## A run of it -/

/-- Room for one access point. -/
def Build.single : Build := { Build.small false with scanCacheMax := 1 }

/-- A network of no name. -/
def seen (mac : MacAddr) (rssi : Int) : MmwlanScanResult := ⟨none, 0, some mac, rssi, 0, 1, 1, 0⟩

def hereMac : MacAddr := ⟨[2, 0, 0, 0, 0, 1], rfl⟩
def thereMac : MacAddr := ⟨[2, 0, 0, 0, 0, 2], rfl⟩

/-- The driver has just been set up. -/
def scannerAtRest : Scanner :=
  ⟨.down, false, none, false, fun _ => ⟨[], [], 0, 0, 0, 0, 0, false⟩, 0, 0, none⟩

/-- What `mm_halow_scan_rx_cb` makes of a result. -/
def seenEntry (mac : MacAddr) (rssi : Int) : ScanResult :=
  scannerAtRest.entry .single (seen mac rssi)

/-- The run has just ended with a scan that copied entries of the results of three sightings. -/
def copiesThree (tr : List (Event Ask Ask.Ans ScanCall ScanCallback (Option Scanner.Copied))) : Bool :=
  match tr.getLast? with
  | some (.ret (.scanCached _ 8) (some c)) =>
    c.since = some [seenEntry hereMac (-60), seenEntry thereMac (-70), seenEntry hereMac (-50)]
  | _ => false

theorem of_copiesThree {tr : List (Event Ask Ask.Ans ScanCall ScanCallback (Option Scanner.Copied))}
    (h : copiesThree tr = true) : ∃ out c, tr.getLast? = some (.ret (.scanCached out 8) (some c)) ∧
      c.since = some [seenEntry hereMac (-60), seenEntry thereMac (-70), seenEntry hereMac (-50)] := by
  unfold copiesThree at h
  split at h
  · next out c hlast => exact ⟨out, c, hlast, of_decide_eq_true h⟩
  · exact nomatch h

/-- **Another access point in between**: it is dropped, and the entry that is copied out is the last
one of the first. -/
theorem scan_cache_contents_single : ∃ tr x out c y,
    Run (scanWorld .single).Step ⟨scannerAtRest, []⟩ tr x ∧
    (scanWorld .single).Step x (.ret (.scanCached out 8) (some c)) y ∧ c.n = 1 ∧
      c.out 0 = seenEntry hereMac (-50) := by
  obtain ⟨tr, y, hr, hy⟩ := World.run_of_play_any (scanWorld .single) (fun _ _ _ => true)
    ⟨scannerAtRest, []⟩
    [.call (.scanCached scannerAtRest.cells 8), .answer .osalMalloc true,
      .answer (.mmwlan .scanRequest) Status.success, .cb (.scanRx (seen hereMac (-60))),
      .cb (.scanRx (seen thereMac (-70))), .cb (.scanRx (seen hereMac (-50))), .cb .sweepOver,
      .answer (.schedWait scanMs) true]
    (fun r => copiesThree r.1) rfl
  obtain ⟨out, c, hlast, hsince⟩ := of_copiesThree hy
  obtain ⟨tr', x, hx, hstep, -⟩ := hr.unsnoc hlast
  have hx := hx.mono fun _ _ _ h => h.1
  obtain ⟨c', hc', hshows⟩ := (scan_cache_contents .single (by decide) scannerAtRest
    ⟨⟨rfl, rfl⟩, rfl, rfl⟩ tr' x hx).2 out 8 (some c) y hstep
  obtain rfl := Option.some.inj hc'
  obtain ⟨l, hl, hn, hout⟩ := hshows.entries _ hsince
  have hlen : l.length = 1 := hl.length
  have hone : c.n = 1 := hn.trans (congrArg (min · 8) hlen)
  refine ⟨tr', x, out, c, y, hx, hstep, hone, ?_⟩
  obtain ⟨a, rfl⟩ := List.length_eq_one_iff.mp hlen
  have ha : a = seenEntry hereMac (-50) := by
    have hkey : [a.bssid] = [hereMac.val] := hl.keys
    have hlast := hl.last a (List.mem_singleton.mpr rfl)
    rw [List.singleton_inj.mp hkey] at hlast
    exact (Option.some.inj hlast).symm
  rw [hone] at hout
  exact (List.singleton_inj.mp hout).trans ha

end MmHalow.Ctrl
