import Mathlib.Data.List.Basic
import Mathlib.Logic.Function.Basic

/-!
# Bounded rings

A ring of `cap` cells with the index `head` of the oldest element, the index `tail` of the next
free cell and the number of elements. The indices advance modulo `cap`, so a ring of no cells never
advances them.

* `contents`: the elements, oldest first.
* `contents_push`, `contents_pop`: a push appends, a pop takes the head off.
* `WF`: the bounds of the indices; `WF.push` and `WF.pop` keep them.
-/

namespace MmHalow.Lib.Fifo

variable {α : Type}

/-- The indices of a ring. -/
structure Ring where
  cap : Nat
  head : Nat
  tail : Nat
  count : Nat
  deriving Repr, DecidableEq

/-- The indices are inside the ring, and the tail is `count` cells after the head. -/
structure WF (r : Ring) : Prop where
  count_le : r.count ≤ r.cap
  head_lt : 0 < r.cap → r.head < r.cap
  tail_eq : 0 < r.cap → r.tail = (r.head + r.count) % r.cap

/-- The cell of the `i`-th element. -/
def slot (r : Ring) (i : Nat) : Nat := (r.head + i) % r.cap

/-- The elements, oldest first. -/
def contents (r : Ring) (cell : Nat → α) : List α :=
  (List.range r.count).map fun i => cell (slot r i)

def push (r : Ring) : Ring := { r with tail := (r.tail + 1) % r.cap, count := r.count + 1 }

def pop (r : Ring) : Ring := { r with head := (r.head + 1) % r.cap, count := r.count - 1 }

variable {r : Ring} {cell cell' : Nat → α}

theorem WF.tail_lt (h : WF r) (hc : 0 < r.cap) : r.tail < r.cap := by
  rw [h.tail_eq hc]
  exact Nat.mod_lt _ hc

theorem WF.push (h : WF r) (hc : r.count < r.cap) : WF (push r) := by
  refine ⟨hc, h.head_lt, fun h0 => ?_⟩
  show (r.tail + 1) % r.cap = (r.head + (r.count + 1)) % r.cap
  rw [h.tail_eq h0, Nat.mod_add_mod, Nat.add_assoc]

theorem WF.pop (h : WF r) (hc : 0 < r.count) : WF (pop r) := by
  have := h.count_le
  refine ⟨?_, fun h0 => Nat.mod_lt _ h0, fun h0 => ?_⟩
  · show r.count - 1 ≤ r.cap
    omega
  · show r.tail = ((r.head + 1) % r.cap + (r.count - 1)) % r.cap
    rw [h.tail_eq h0, Nat.mod_add_mod, Nat.add_assoc, Nat.add_sub_cancel' hc]

/-- Two elements of a ring are in two cells. -/
theorem slot_inj (h : WF r) {i j : Nat} (hi : i < r.cap) (hj : j < r.cap) (he : slot r i = slot r j) :
    i = j := by
  have h0 : 0 < r.cap := by omega
  have hh := h.head_lt h0
  unfold slot at he
  rcases Nat.lt_or_ge (r.head + i) r.cap with hi' | hi' <;>
    rcases Nat.lt_or_ge (r.head + j) r.cap with hj' | hj'
  · rw [Nat.mod_eq_of_lt hi', Nat.mod_eq_of_lt hj'] at he
    omega
  · rw [Nat.mod_eq_of_lt hi', Nat.mod_eq_sub_mod hj', Nat.mod_eq_of_lt (by omega)] at he
    omega
  · rw [Nat.mod_eq_sub_mod hi', Nat.mod_eq_of_lt (by omega), Nat.mod_eq_of_lt hj'] at he
    omega
  · rw [Nat.mod_eq_sub_mod hi', Nat.mod_eq_of_lt (by omega), Nat.mod_eq_sub_mod hj',
      Nat.mod_eq_of_lt (by omega)] at he
    omega

/-- **A push appends** what was put in the tail's cell, whatever that cell held. -/
theorem contents_push (h : WF r) (hc : r.count < r.cap) (ho : ∀ i, i ≠ r.tail → cell' i = cell i) :
    contents (push r) cell' = contents r cell ++ [cell' r.tail] := by
  have h0 : 0 < r.cap := by omega
  have htail : slot r r.count = r.tail := (h.tail_eq h0).symm
  show (List.range (r.count + 1)).map (fun i => cell' (slot r i)) = _
  rw [List.range_succ, List.map_append]
  congr 1
  · refine List.map_congr_left fun i hi => ho _ fun he => ?_
    have hi := List.mem_range.mp hi
    have := slot_inj h (by omega) hc (he.trans htail.symm)
    omega
  · rw [List.map_singleton, htail]

/-- **A pop takes the head off.** -/
theorem contents_pop (h : WF r) (hc : 0 < r.count) :
    contents r cell = cell r.head :: contents (pop r) cell := by
  have h0 : 0 < r.cap := Nat.lt_of_lt_of_le hc h.count_le
  obtain ⟨n, hn⟩ := Nat.exists_eq_add_of_lt hc
  have hn : r.count = n + 1 := by omega
  have hhead : slot r 0 = r.head := Nat.mod_eq_of_lt (h.head_lt h0)
  unfold contents
  rw [hn, List.range_succ_eq_map, List.map_cons, hhead, List.map_map]
  congr 1
  show _ = (List.range (r.count - 1)).map _
  rw [hn, Nat.add_sub_cancel]
  refine List.map_congr_left fun i _ => congrArg cell ?_
  show (r.head + (i + 1)) % r.cap = ((r.head + 1) % r.cap + i) % r.cap
  rw [Nat.mod_add_mod]
  congr 1
  omega

theorem length_contents (r : Ring) (cell : Nat → α) : (contents r cell).length = r.count := by
  simp [contents]

/-- An empty ring. -/
theorem WF.empty (cap : Nat) : WF ⟨cap, 0, 0, 0⟩ :=
  ⟨Nat.zero_le _, fun h => h, fun _ => (Nat.zero_mod _).symm⟩

end MmHalow.Lib.Fifo
