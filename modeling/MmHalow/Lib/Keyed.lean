import Mathlib.Data.List.Induction
import Mathlib.Data.List.Nodup

/-!
# Bounded lists of keyed values

`put key cap a l` overwrites the value of `l` that has the key of `a`, appends `a` where there is none
and `l` has fewer than `cap` values, and otherwise drops `a`. What a list is after many values, from
nothing, is told by the history of the values, oldest first:

* `firsts`, `lastOf`: the keys of a history in order of first appearance, and the last value of a key.
* `Latest key cap h l`: `l` has one value for each of the first `cap` keys of `h`, the last of that key.
* `put_found`, `put_absent`: `put` by where the key stands.
* `Latest.put`: **putting one more value keeps `Latest`**, which `Latest.nil` gives at the start.
* `Latest.dropped`: a value with a further key changes nothing.
-/

namespace MmHalow.Lib.Keyed

variable {α κ : Type} [DecidableEq κ] {key : α → κ} {cap : Nat} {a b : α} {l l' h : List α} {k : κ}

/-- `a` in place of the value with its key, or at the end where there is room for `cap`. -/
def put (key : α → κ) (cap : Nat) (a : α) : List α → List α
  | [] => if 0 < cap then [a] else []
  | b :: l => if key b = key a then a :: l else b :: put key (cap - 1) a l

/-- The keys of a history, each where it appeared first. -/
def firsts (key : α → κ) (h : List α) : List κ :=
  h.foldl (fun ks a => if key a ∈ ks then ks else ks ++ [key a]) []

/-- The last value of a key. -/
def lastOf (key : α → κ) (h : List α) (k : κ) : Option α := h.reverse.find? fun a => key a = k

/-- **One value for each of the first `cap` keys**, in the order of the keys, the last of each. -/
structure Latest (key : α → κ) (cap : Nat) (h l : List α) : Prop where
  keys : l.map key = (firsts key h).take cap
  last : ∀ a ∈ l, lastOf key h (key a) = some a

/-! ## Histories -/

theorem firsts_snoc : firsts key (h ++ [a]) =
    if key a ∈ firsts key h then firsts key h else firsts key h ++ [key a] := by
  unfold firsts
  rw [List.foldl_append]
  rfl

theorem lastOf_snoc : lastOf key (h ++ [a]) k = if key a = k then some a else lastOf key h k := by
  unfold lastOf
  rw [List.reverse_append, List.reverse_singleton, List.singleton_append, List.find?_cons]
  split_ifs with hk <;> simp [hk]

theorem nodup_firsts : (firsts key h).Nodup := by
  induction h using List.reverseRecOn with
  | nil => exact List.nodup_nil
  | append_singleton h a ih =>
    rw [firsts_snoc]
    split_ifs with ha
    · exact ih
    · exact List.nodup_append.mpr ⟨ih, List.nodup_singleton _, fun x hx y hy hxy =>
        ha (List.mem_singleton.mp hy ▸ hxy ▸ hx)⟩

/-! ## Putting a value -/

/-- The key is there first at `b`. -/
theorem put_found {pre post : List α} (hpre : key a ∉ pre.map key) (hb : key b = key a) :
    put key cap a (pre ++ b :: post) = pre ++ a :: post := by
  induction pre generalizing cap with
  | nil => simp [put, hb]
  | cons c pre ih =>
    rw [List.map_cons, List.mem_cons, not_or] at hpre
    rw [List.cons_append, put, if_neg (Ne.symm hpre.1), ih hpre.2, List.cons_append]

/-- The key is not there. -/
theorem put_absent (ha : key a ∉ l.map key) :
    put key cap a l = if l.length < cap then l ++ [a] else l := by
  induction l generalizing cap with
  | nil => rfl
  | cons b l ih =>
    rw [List.map_cons, List.mem_cons, not_or] at ha
    rw [put, if_neg (Ne.symm ha.1), ih ha.2, List.length_cons]
    by_cases hroom : l.length < cap - 1
    · rw [if_pos hroom, if_pos (by omega), List.cons_append]
    · rw [if_neg hroom, if_neg (by omega)]

/-- The value with a key that is there, and the values around it. -/
theorem split_of_mem (hk : k ∈ l.map key) :
    ∃ pre b post, l = pre ++ b :: post ∧ k ∉ pre.map key ∧ key b = k := by
  induction l with
  | nil => exact absurd hk List.not_mem_nil
  | cons c l ih =>
    by_cases hc : key c = k
    · exact ⟨[], c, l, rfl, List.not_mem_nil, hc⟩
    · rw [List.map_cons, List.mem_cons] at hk
      obtain ⟨pre, b, post, rfl, hpre, hb⟩ := ih (hk.resolve_left (Ne.symm hc))
      refine ⟨c :: pre, b, post, rfl, ?_, hb⟩
      rw [List.map_cons, List.mem_cons, not_or]
      exact ⟨Ne.symm hc, hpre⟩

/-- The keys afterwards. -/
theorem map_key_put : (put key cap a l).map key =
    if key a ∈ l.map key ∨ cap ≤ l.length then l.map key else l.map key ++ [key a] := by
  by_cases ha : key a ∈ l.map key
  · rw [if_pos (Or.inl ha)]
    obtain ⟨pre, b, post, rfl, hpre, hb⟩ := split_of_mem ha
    simp [put_found hpre hb, hb]
  · rw [put_absent ha]
    by_cases hroom : l.length < cap
    · rw [if_pos hroom, if_neg (not_or.mpr ⟨ha, Nat.not_le.mpr hroom⟩), List.map_append,
        List.map_singleton]
    · rw [if_neg hroom, if_pos (Or.inr (Nat.not_lt.mp hroom))]

/-- A value afterwards is the new one, or an old one with another key. -/
theorem mem_put (hl : (l.map key).Nodup) (hb : b ∈ put key cap a l) :
    b = a ∨ b ∈ l ∧ key a ≠ key b := by
  by_cases ha : key a ∈ l.map key
  · obtain ⟨pre, c, post, rfl, hpre, hc⟩ := split_of_mem ha
    rw [put_found hpre hc, List.mem_append, List.mem_cons] at hb
    have hpost : key a ∉ post.map key := by
      rw [List.map_append, List.map_cons, hc] at hl
      exact (List.nodup_cons.mp hl.of_append_right).1
    rcases hb with hb | rfl | hb
    · exact .inr ⟨List.mem_append_left _ hb, fun he => hpre (List.mem_map.mpr ⟨b, hb, he.symm⟩)⟩
    · exact .inl rfl
    · refine .inr ⟨List.mem_append_right _ (List.mem_cons_of_mem _ hb), fun he => ?_⟩
      exact hpost (List.mem_map.mpr ⟨b, hb, he.symm⟩)
  · have hold : ∀ b ∈ l, key a ≠ key b := fun b hb he => ha (List.mem_map.mpr ⟨b, hb, he.symm⟩)
    rw [put_absent ha] at hb
    split_ifs at hb
    · rcases List.mem_append.mp hb with hb | hb
      · exact .inr ⟨hb, hold b hb⟩
      · exact .inl (List.mem_singleton.mp hb)
    · exact .inr ⟨hb, hold b hb⟩

/-! ## What the list is -/

theorem Latest.nil : Latest key cap [] [] := by
  constructor
  · simp [firsts]
  · exact fun a ha => absurd ha List.not_mem_nil

theorem Latest.nodup (hl : Latest key cap h l) : (l.map key).Nodup := by
  rw [hl.keys]
  exact (List.take_sublist _ _).nodup nodup_firsts

theorem Latest.length (hl : Latest key cap h l) : l.length = min cap (firsts key h).length := by
  rw [← List.length_map (f := key), hl.keys, List.length_take]

/-- **One more value.** -/
theorem Latest.put (hl : Latest key cap h l) : Latest key cap (h ++ [a]) (Keyed.put key cap a l) := by
  have hlen := hl.length
  constructor
  · rw [map_key_put, firsts_snoc, hl.keys]
    by_cases hseen : key a ∈ firsts key h
    · rw [if_pos hseen]
      by_cases hin : key a ∈ (firsts key h).take cap
      · rw [if_pos (Or.inl hin)]
      · -- a key beyond the first `cap` is known, so the list is full
        have hlong : cap ≤ (firsts key h).length := by
          by_contra hshort
          exact hin (by rwa [List.take_of_length_le (by omega)])
        rw [if_pos (Or.inr (by omega))]
    · have hin : key a ∉ (firsts key h).take cap := fun hm => hseen (List.mem_of_mem_take hm)
      rw [if_neg hseen]
      by_cases hroom : cap ≤ l.length
      · rw [if_pos (Or.inr hroom), List.take_append_of_le_length (by omega)]
      · rw [if_neg (not_or.mpr ⟨hin, hroom⟩), List.take_of_length_le (by omega),
          List.take_of_length_le (by rw [List.length_append, List.length_singleton]; omega)]
  · intro b hb
    rw [lastOf_snoc]
    rcases mem_put hl.nodup hb with rfl | ⟨hb, hne⟩
    · exact if_pos rfl
    · rw [if_neg hne]
      exact hl.last b hb

/-- **A further key is dropped.** -/
theorem Latest.dropped (hl : Latest key cap h l) (ha : key a ∉ (firsts key (h ++ [a])).take cap) :
    Keyed.put key cap a l = l := by
  have hput := (hl.put (a := a)).keys
  have habs : key a ∉ l.map key := by
    intro hm
    rw [← hput, map_key_put, if_pos (Or.inl hm)] at ha
    exact ha hm
  rw [put_absent habs]
  refine if_neg fun hroom => ha ?_
  rw [← hput, map_key_put, if_neg (not_or.mpr ⟨habs, Nat.not_le.mpr hroom⟩)]
  exact List.mem_append_right _ (List.mem_singleton.mpr rfl)

end MmHalow.Lib.Keyed
