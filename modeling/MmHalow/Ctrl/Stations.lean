import MmHalow.Ctrl.State
import MmHalow.Lib.Bytes

/-!
# The station list of the access point (`mm_halow_ap_sta_status_cb`)

`ap_stas` as the bytes it is made of and `ap_sta_count` as the byte it is, with the callback that
compacts the rows in place and `mm_halow_wifi_ap_get_stas`. A station is a row of
`MMWLAN_MAC_ADDR_LEN` bytes.

| source                        | here                  |
|-------------------------------|-----------------------|
| `ap_sta_count`, `ap_stas`     | `ApStas`              |
| `mm_halow_ap_sta_status_cb`   | `ApStas.staStatusCb`  |
| `mm_halow_wifi_ap_get_stas`   | `ApStas.getStas`      |

* `contents_staStatusCb`: on the rows in use the callback is `apStaStatusCb`, that of the control
  layer's state.
* `ap_stations`: **after any events since the list was emptied, it lists without repeats stations
  whose last event is an authorization, all of them but those that found it full.**

`MMWLAN_DEFAULT_AP_MAX_STAS` is morselib's; the count is a byte, so that the results are for less than
256 stations.
-/

namespace MmHalow.Ctrl

open MmHalow.Lib.Bytes

/-- `MMWLAN_MAC_ADDR_LEN`. -/
def macAddrLen : Nat := 6

/-- What lies at a `mac_addr`. -/
abbrev MacAddr := {mac : Mac // mac.length = macAddrLen}

/-- `ap_sta_count` and `ap_stas`, its first byte at 0. -/
structure ApStas where
  apStaCount : UInt8
  apStas : Mem

/-- `ap_stas[i]`. -/
def ApStas.row (s : ApStas) (i : Nat) : Mac := bytes s.apStas (i * macAddrLen) macAddrLen

/-- The row at which the loop over `ap_stas` stops. -/
def ApStas.find (mac : Mac) (s : ApStas) : Option Nat :=
  (List.range s.apStaCount.toNat).find? fun i => s.row i = mac

/-- `mm_halow_ap_sta_status_cb`, for at most `max` stations. -/
def ApStas.staStatusCb (max : Nat) (mac : Mac) (authorized : Bool) (s : ApStas) : ApStas :=
  match s.find mac with
  | some i =>
    if authorized then s
    else
      let count := s.apStaCount - 1
      ⟨count, move s.apStas (i * macAddrLen) ((i + 1) * macAddrLen) ((count.toNat - i) * macAddrLen)⟩
  | none =>
    if authorized ∧ s.apStaCount.toNat < max then
      ⟨s.apStaCount + 1, writeBytes s.apStas (s.apStaCount.toNat * macAddrLen) mac⟩
    else s

/-- `mm_halow_wifi_ap_get_stas`: what `*num_stas` becomes, and what is copied to `macs`. -/
def ApStas.getStas (numStas : Int) (s : ApStas) : Int × List UInt8 :=
  let n := min numStas s.apStaCount.toNat
  (n, bytes s.apStas 0 (n.toNat * macAddrLen))

/-- The stations listed. -/
def ApStas.contents (s : ApStas) : List Mac := (List.range s.apStaCount.toNat).map s.row

variable {max : Nat} {s : ApStas} {mac : Mac} {i j : Nat}

/-! ## The rows -/

theorem ApStas.length_contents (s : ApStas) : s.contents.length = s.apStaCount.toNat := by
  unfold contents
  rw [List.length_map, List.length_range]

/-- The rows before `i`, row `i` and the `r` rows after it. -/
theorem ApStas.contents_split {r : Nat} (h : s.apStaCount.toNat = i + 1 + r) :
    s.contents = (List.range i).map s.row ++ s.row i :: (List.range r).map fun k => s.row (i + 1 + k) := by
  unfold contents
  rw [h, List.range_add, List.range_succ, List.map_append, List.map_append, List.map_map,
    List.append_assoc]
  rfl

/-- The loop stops at the first row with the address. -/
theorem ApStas.find_some (h : s.find mac = some i) :
    i < s.apStaCount.toNat ∧ s.row i = mac ∧ mac ∉ (List.range i).map s.row := by
  obtain ⟨hrow, hi, hpre⟩ := List.find?_range_eq_some.mp h
  refine ⟨List.mem_range.mp hi, of_decide_eq_true hrow, fun hm => ?_⟩
  obtain ⟨k, hk, hkm⟩ := List.mem_map.mp hm
  simpa [hkm] using hpre k (List.mem_range.mp hk)

theorem ApStas.find_none (h : s.find mac = none) : mac ∉ s.contents := by
  intro hm
  obtain ⟨k, hk, hkm⟩ := List.mem_map.mp hm
  simpa [hkm] using List.find?_eq_none.mp h k hk

/-! ## The callback -/

/-- The rows after the one at `i` move down by one. -/
theorem ApStas.contents_remove {r : Nat} {count : UInt8} (h : count.toNat = i + r) :
    ApStas.contents ⟨count, move s.apStas (i * macAddrLen) ((i + 1) * macAddrLen) (r * macAddrLen)⟩ =
      (List.range i).map s.row ++ (List.range r).map fun k => s.row (i + 1 + k) := by
  unfold contents
  simp only [h]
  rw [List.range_add, List.map_append, List.map_map]
  congr 1
  · refine List.map_congr_left fun k hk => bytes_congr fun x _ hx => move_out (Or.inl ?_)
    have hki := Nat.mul_le_mul_right macAddrLen (show k + 1 ≤ i from List.mem_range.mp hk)
    rw [Nat.succ_mul] at hki
    omega
  · refine List.map_congr_left fun k hk => ?_
    have hkr := Nat.mul_le_mul_right macAddrLen (show k + 1 ≤ r from List.mem_range.mp hk)
    rw [Nat.succ_mul] at hkr
    simp only [Function.comp_apply, row, Nat.add_mul i, Nat.add_mul (i + 1)]
    exact bytes_move hkr

/-- A row is added after those in use. -/
theorem ApStas.contents_add {count : UInt8} (h : count.toNat = s.apStaCount.toNat + 1)
    (hmac : mac.length = macAddrLen) :
    ApStas.contents ⟨count, writeBytes s.apStas (s.apStaCount.toNat * macAddrLen) mac⟩ =
      s.contents ++ [mac] := by
  unfold contents
  simp only [h]
  rw [List.range_succ, List.map_append]
  congr 1
  · refine List.map_congr_left fun k hk => bytes_writeBytes_other (Or.inl ?_)
    have hkn := Nat.mul_le_mul_right macAddrLen (show k + 1 ≤ s.apStaCount.toNat from List.mem_range.mp hk)
    rw [Nat.succ_mul] at hkn
    exact hkn
  · have hw := bytes_writeBytes s.apStas (s.apStaCount.toNat * macAddrLen) mac
    rw [hmac] at hw
    exact congrArg (fun x => [x]) hw

/-- **On the rows in use the callback is that of the control layer's state.** -/
theorem ApStas.contents_staStatusCb (hmax : max < 256) (hmac : mac.length = macAddrLen)
    (authorized : Bool) :
    (s.staStatusCb max mac authorized).contents = apStaStatusCb max mac authorized s.contents := by
  unfold staStatusCb apStaStatusCb
  cases hf : s.find mac with
  | some i =>
    obtain ⟨hi, hrow, hpre⟩ := find_some hf
    obtain ⟨r, hr⟩ := Nat.exists_eq_add_of_lt hi
    rw [show i + r + 1 = i + 1 + r by omega] at hr
    have hsplit := contents_split hr
    have hmem : mac ∈ s.contents := by
      rw [hsplit, hrow]
      exact List.mem_append_right _ List.mem_cons_self
    rw [if_pos hmem]
    cases authorized with
    | true => rfl
    | false =>
      have hcount : (s.apStaCount - 1).toNat = i + r := by
        rw [UInt8.toNat_sub_of_le _ _ (UInt8.le_iff_toNat_le.mpr (by simp; omega))]
        simp
        omega
      have hlen : (s.apStaCount - 1).toNat - i = r := by omega
      simp only [Bool.false_eq_true, if_false, hlen]
      rw [contents_remove hcount, hsplit, hrow, List.erase_append_right _ hpre, List.erase_cons_head]
  | none =>
    rw [if_neg (find_none hf), length_contents]
    dsimp only
    split_ifs with hadd
    · refine contents_add ?_ hmac
      rw [UInt8.toNat_add]
      simp
      omega
    · rfl

/-! ## Histories -/

/-- An event that `mm_halow_ap_sta_status_cb` reports. -/
structure StaEvent where
  mac : MacAddr
  authorized : Bool
  deriving DecidableEq

/-- The list after the events, which finds it emptied over whatever `ap_stas` holds. -/
def ApStas.after (max : Nat) (old : Mem) (evs : List StaEvent) : ApStas :=
  evs.foldl (fun s e => s.staStatusCb max e.mac e.authorized) ⟨0, old⟩

/-- Whether the last event of a station was an authorization. -/
def lastEvent (evs : List StaEvent) (mac : Mac) : Option Bool :=
  (evs.reverse.find? fun e => e.mac.val = mac).map StaEvent.authorized

/-- **What the list is** after the events. -/
structure StationList (max : Nat) (old : Mem) (evs : List StaEvent) : Prop where
  count_le : (ApStas.after max old evs).apStaCount.toNat ≤ max
  nodup : (ApStas.after max old evs).contents.Nodup
  /-- Only stations whose last event is an authorization are listed. -/
  last : ∀ mac ∈ (ApStas.after max old evs).contents, lastEvent evs mac = some true
  /-- A station that is not listed, though since this authorization of it all of its events were
  authorizations, found the list full. -/
  missing : ∀ (pre : List StaEvent) (mac : MacAddr) (post : List StaEvent),
    evs = pre ++ ⟨mac, true⟩ :: post → (∀ e ∈ post, e.mac = mac → e.authorized = true) →
    mac.val ∉ (ApStas.after max old evs).contents → (ApStas.after max old pre).apStaCount.toNat = max
  /-- Where a station leaves, the others stay as they stand. -/
  leaves : ∀ (pre : List StaEvent) (mac : MacAddr) (post : List StaEvent),
    evs = pre ++ ⟨mac, false⟩ :: post → (ApStas.after max old (pre ++ [⟨mac, false⟩])).contents =
      (ApStas.after max old pre).contents.filter (· ≠ mac.val)
  getStas : ∀ numStas : Nat, (ApStas.after max old evs).getStas numStas =
    (↑((ApStas.after max old evs).contents.take numStas).length,
      ((ApStas.after max old evs).contents.take numStas).flatten)

variable {old : Mem} {evs : List StaEvent} {e : StaEvent} {l : List Mac} {m : Mac}

theorem ApStas.after_snoc : ApStas.after max old (evs ++ [e]) =
    (ApStas.after max old evs).staStatusCb max e.mac e.authorized := by
  unfold after
  rw [List.foldl_append]
  rfl

theorem lastEvent_snoc : lastEvent (evs ++ [e]) mac =
    if e.mac.val = mac then some e.authorized else lastEvent evs mac := by
  unfold lastEvent
  rw [List.reverse_append, List.reverse_singleton, List.singleton_append, List.find?_cons]
  split_ifs with h <;> simp [h]

/-- Who is listed after an event. -/
theorem mem_apStaStatusCb (hl : l.Nodup) {authorized : Bool} :
    m ∈ apStaStatusCb max mac authorized l ↔
      if m = mac then authorized = true ∧ (mac ∈ l ∨ l.length < max) else m ∈ l := by
  unfold apStaStatusCb
  by_cases hmem : mac ∈ l
  · rw [if_pos hmem]
    cases authorized with
    | true =>
      by_cases hm : m = mac
      · simp [hm, hmem]
      · simp [hm]
    | false =>
      by_cases hm : m = mac
      · simp [hm, hl.not_mem_erase]
      · simp [hm, List.mem_erase_of_ne hm]
  · rw [if_neg hmem]
    by_cases hadd : authorized = true ∧ l.length < max
    · rw [if_pos hadd]
      by_cases hm : m = mac <;> simp [hm, hadd.1, hadd.2]
    · rw [if_neg hadd]
      by_cases hm : m = mac
      · subst hm
        simpa [hmem] using hadd
      · simp [hm]

theorem nodup_apStaStatusCb (hl : l.Nodup) (authorized : Bool) :
    (apStaStatusCb max mac authorized l).Nodup := by
  unfold apStaStatusCb
  split_ifs with hmem _ hadd
  · exact hl
  · exact hl.erase mac
  · refine List.nodup_append.mpr ⟨hl, List.nodup_cons.mpr ⟨List.not_mem_nil, List.nodup_nil⟩, ?_⟩
    rintro a ha b hb rfl
    exact hmem (List.mem_singleton.mp hb ▸ ha)
  · exact hl

theorem length_apStaStatusCb (hl : l.length ≤ max) (authorized : Bool) :
    (apStaStatusCb max mac authorized l).length ≤ max := by
  unfold apStaStatusCb
  split_ifs with hmem _ hadd
  · exact hl
  · exact Nat.le_trans List.erase_sublist.length_le hl
  · rw [List.length_append]
    exact hadd.2
  · exact hl

/-- The list after one more event. -/
theorem ApStas.contents_snoc (hmax : max < 256) : (ApStas.after max old (evs ++ [e])).contents =
    apStaStatusCb max e.mac e.authorized (ApStas.after max old evs).contents := by
  rw [after_snoc, contents_staStatusCb hmax e.mac.property]

theorem ApStas.nodup_after (hmax : max < 256) : (ApStas.after max old evs).contents.Nodup := by
  induction evs using List.reverseRecOn with
  | nil => exact List.nodup_nil
  | append_singleton evs e ih =>
    rw [contents_snoc hmax]
    exact nodup_apStaStatusCb ih _

theorem ApStas.length_after (hmax : max < 256) : (ApStas.after max old evs).contents.length ≤ max := by
  induction evs using List.reverseRecOn with
  | nil => exact Nat.zero_le max
  | append_singleton evs e ih =>
    rw [contents_snoc hmax]
    exact length_apStaStatusCb ih _

theorem ApStas.last_after (hmax : max < 256) :
    ∀ mac ∈ (ApStas.after max old evs).contents, lastEvent evs mac = some true := by
  induction evs using List.reverseRecOn with
  | nil => exact fun mac h => absurd h List.not_mem_nil
  | append_singleton evs e ih =>
    intro mac h
    rw [contents_snoc hmax, mem_apStaStatusCb (nodup_after hmax)] at h
    rw [lastEvent_snoc]
    by_cases he : mac = e.mac.val
    · rw [if_pos he] at h
      rw [if_pos he.symm, h.1]
    · rw [if_neg he] at h
      rw [if_neg (Ne.symm he)]
      exact ih mac h

/-- A station stays listed until an event says otherwise. -/
theorem ApStas.mem_snoc (hmax : max < 256) (h : m ∈ (ApStas.after max old evs).contents)
    (he : e.mac.val = m → e.authorized = true) : m ∈ (ApStas.after max old (evs ++ [e])).contents := by
  rw [contents_snoc hmax, mem_apStaStatusCb (nodup_after hmax)]
  split_ifs with hm
  · exact ⟨he hm.symm, Or.inl (hm ▸ h)⟩
  · exact h

theorem ApStas.missing_after (hmax : max < 256) {pre post : List StaEvent} {mac : MacAddr}
    (hpost : ∀ e ∈ post, e.mac = mac → e.authorized = true)
    (h : mac.val ∉ (ApStas.after max old (pre ++ ⟨mac, true⟩ :: post)).contents) :
    (ApStas.after max old pre).apStaCount.toNat = max := by
  induction post using List.reverseRecOn with
  | nil =>
    rw [contents_snoc hmax, mem_apStaStatusCb (nodup_after hmax), if_pos rfl] at h
    have hlen : (ApStas.after max old pre).contents.length ≤ max := length_after hmax
    rw [length_contents] at hlen h
    by_contra hne
    exact h ⟨rfl, Or.inr (Nat.lt_of_le_of_ne hlen hne)⟩
  | append_singleton post e ih =>
    refine ih (fun e' he' => hpost e' (List.mem_append_left _ he')) fun hm => h ?_
    rw [← List.cons_append, ← List.append_assoc]
    exact mem_snoc hmax hm fun heq =>
      hpost e (List.mem_append_right _ (List.mem_singleton.mpr rfl)) (Subtype.ext heq)

theorem ApStas.leaves_after (hmax : max < 256) {mac : MacAddr} :
    (ApStas.after max old (evs ++ [⟨mac, false⟩])).contents =
      (ApStas.after max old evs).contents.filter (· ≠ mac.val) := by
  rw [contents_snoc hmax]
  unfold apStaStatusCb
  have hnd : (ApStas.after max old evs).contents.Nodup := nodup_after hmax
  by_cases hmem : mac.val ∈ (ApStas.after max old evs).contents
  · rw [if_pos hmem, if_neg Bool.false_ne_true, hnd.erase_eq_filter]
    exact List.filter_congr fun x _ => by simp [bne, Bool.beq_eq_decide_eq]
  · rw [if_neg hmem, if_neg fun h => Bool.false_ne_true h.1]
    refine (List.filter_eq_self.mpr fun x hx => decide_eq_true ?_).symm
    rintro rfl
    exact hmem hx

/-- The first rows are the first bytes. -/
theorem ApStas.flatten_rows (s : ApStas) (n : Nat) :
    ((List.range n).map s.row).flatten = bytes s.apStas 0 (n * macAddrLen) := by
  induction n with
  | zero => rfl
  | succ n ih =>
    rw [List.range_succ, List.map_append, List.flatten_append, ih, Nat.succ_mul, bytes_append, Nat.zero_add]
    exact congrArg _ (List.append_nil _)

/-- **A prefix of the list is copied.** -/
theorem ApStas.getStas_prefix (s : ApStas) (numStas : Nat) :
    s.getStas numStas = (↑(s.contents.take numStas).length, (s.contents.take numStas).flatten) := by
  have hmin : (min (numStas : Int) s.apStaCount.toNat) = ↑(min numStas s.apStaCount.toNat) := by omega
  unfold getStas
  rw [hmin, List.length_take, length_contents]
  dsimp only
  rw [Int.toNat_natCast, ← flatten_rows]
  unfold contents
  rw [← List.map_take, List.take_range]

/-- **The station list**, after any events since it was emptied, of an access point that admits less
than 256 stations. -/
theorem ap_stations (hmax : max < 256) (old : Mem) (evs : List StaEvent) : StationList max old evs where
  count_le := ApStas.length_contents _ ▸ ApStas.length_after hmax
  nodup := ApStas.nodup_after hmax
  last := ApStas.last_after hmax
  missing := by
    rintro pre mac post rfl hpost h
    exact ApStas.missing_after hmax hpost h
  leaves _ _ _ _ := ApStas.leaves_after hmax
  getStas := ApStas.getStas_prefix _

/-- An address. -/
def macOf (n : UInt8) : MacAddr := ⟨[2, 0, 0, 0, 0, n], rfl⟩

/-- One of three stations finds a list of two full, and its place is not given to it later. -/
theorem ap_stations_two :
    let evs : List StaEvent := [⟨macOf 1, true⟩, ⟨macOf 2, true⟩, ⟨macOf 3, true⟩, ⟨macOf 1, false⟩]
    StationList 2 (fun _ => 0) evs ∧
      (ApStas.after 2 (fun _ => 0) evs).contents = [(macOf 2).val] :=
  ⟨ap_stations (by decide) _ _, by decide⟩

end MmHalow.Ctrl
