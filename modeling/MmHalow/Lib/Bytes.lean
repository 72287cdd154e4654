import Mathlib.Data.List.GetD
import Mathlib.Logic.Function.Basic
import Mathlib.Tactic.Ring

/-!
# Byte-addressed memory

A memory is a total map from addresses to bytes. Words are stored little-endian over a given
number of bytes, so a structure in memory is a set of words at fixed offsets, and two accesses
interfere exactly when their byte ranges meet.

* `load_store`: a word that fits reads back as written.
* `load_store_other`, `store_out`: an access outside the written range sees the old memory.
* `load_congr`: a load reads only its own bytes.
* `copy`, `fill`: `memcpy` of disjoint ranges and `memset`.
* `bytes`, `writeBytes`: a block as a list of bytes; `bytes_writeBytes` reads back what was written.
* `move`: `memmove`, of ranges that may overlap; `bytes_move` reads the moved block.
-/

namespace MmHalow.Lib.Bytes

/-- A memory: one byte for each address. -/
abbrev Mem := Nat → UInt8

/-- The `k`-byte little-endian word at `a`. -/
def load (m : Mem) (a : Nat) : Nat → Nat
  | 0 => 0
  | k + 1 => (m a).toNat + 256 * load m (a + 1) k

/-- Write `v` as a `k`-byte little-endian word at `a`. -/
def store (m : Mem) (a : Nat) : Nat → Nat → Mem
  | 0, _ => m
  | k + 1, v => store (Function.update m a (UInt8.ofNat v)) (a + 1) k (v / 256)

/-- `memcpy` of `n` bytes between ranges that do not overlap. -/
def copy (m : Mem) (dst src n : Nat) : Mem :=
  fun x => if dst ≤ x ∧ x < dst + n then m (src + (x - dst)) else m x

/-- `memset` of `n` bytes. -/
def fill (m : Mem) (dst : Nat) (b : UInt8) (n : Nat) : Mem :=
  fun x => if dst ≤ x ∧ x < dst + n then b else m x

/-! ## Loads -/

/-- A load reads only the bytes of its range. -/
theorem load_congr {m m' : Mem} :
    ∀ {k a : Nat}, (∀ x, a ≤ x → x < a + k → m' x = m x) → load m' a k = load m a k
  | 0, _, _ => rfl
  | k + 1, a, h => by
    have h0 : m' a = m a := h a (le_refl a) (by omega)
    have hrest : load m' (a + 1) k = load m (a + 1) k :=
      load_congr fun x h1 h2 => h x (by omega) (by omega)
    simp only [load, h0, hrest]

theorem load_lt (m : Mem) : ∀ (k a : Nat), load m a k < 256 ^ k
  | 0, _ => by simp [load]
  | k + 1, a => by
    have ih := load_lt m k (a + 1)
    have hb : (m a).toNat < 256 := (m a).toNat_lt
    simp only [load, pow_succ]
    omega

/-! ## Stores -/

/-- A store changes only the bytes of its range. -/
theorem store_out {x : Nat} :
    ∀ {k : Nat} {m : Mem} {a v : Nat}, (x < a ∨ a + k ≤ x) → store m a k v x = m x
  | 0, _, _, _, _ => rfl
  | k + 1, m, a, v, h => by
    have hne : x ≠ a := by omega
    rw [store, store_out (by omega), Function.update_of_ne hne]

/-- **A word that fits reads back as it was written.** -/
theorem load_store :
    ∀ {k : Nat} {m : Mem} {a v : Nat}, v < 256 ^ k → load (store m a k v) a k = v
  | 0, _, _, v, h => by
    have : v = 0 := by simpa using h
    simp [load, this]
  | k + 1, m, a, v, h => by
    have hdiv : v / 256 < 256 ^ k := by
      rw [pow_succ] at h
      exact Nat.div_lt_of_lt_mul (by rwa [Nat.mul_comm])
    have hfirst : store m a (k + 1) v a = UInt8.ofNat v := by
      rw [store, store_out (by omega), Function.update_self]
    have hrest : load (store m a (k + 1) v) (a + 1) k = v / 256 := by
      rw [store]
      exact load_store hdiv
    rw [load, hfirst, hrest, UInt8.toNat_ofNat']
    omega

/-- A load that does not meet the written range reads the old word. -/
theorem load_store_other {m : Mem} {a k v b j : Nat} (h : b + j ≤ a ∨ a + k ≤ b) :
    load (store m a k v) b j = load m b j :=
  load_congr fun x h1 h2 => store_out (by omega)

/-! ## Block transfers -/

theorem copy_in {m : Mem} {dst src n x : Nat} (h1 : dst ≤ x) (h2 : x < dst + n) :
    copy m dst src n x = m (src + (x - dst)) := by
  unfold copy
  rw [if_pos ⟨h1, h2⟩]

theorem copy_out {m : Mem} {dst src n x : Nat} (h : x < dst ∨ dst + n ≤ x) :
    copy m dst src n x = m x := by
  unfold copy
  rw [if_neg (by omega)]

theorem fill_out {m : Mem} {dst n x : Nat} {b : UInt8} (h : x < dst ∨ dst + n ≤ x) :
    fill m dst b n x = m x := by
  unfold fill
  rw [if_neg (by omega)]

/-! ## Blocks of bytes -/

/-- The `n` bytes at `a`. -/
def bytes (m : Mem) (a n : Nat) : List UInt8 := (List.range n).map fun i => m (a + i)

/-- The bytes `l` written at `a`. -/
def writeBytes (m : Mem) (a : Nat) (l : List UInt8) : Mem :=
  fun x => if a ≤ x then l.getD (x - a) (m x) else m x

theorem bytes_congr {m m' : Mem} {a n : Nat} (h : ∀ x, a ≤ x → x < a + n → m' x = m x) :
    bytes m' a n = bytes m a n := by
  refine List.map_congr_left fun i hi => ?_
  have := List.mem_range.mp hi
  exact h _ (by omega) (by omega)

theorem writeBytes_out {m : Mem} {a x : Nat} {l : List UInt8} (h : x < a ∨ a + l.length ≤ x) :
    writeBytes m a l x = m x := by
  unfold writeBytes
  by_cases hx : a ≤ x
  · rw [if_pos hx]
    exact List.getD_eq_default _ _ (by omega)
  · rw [if_neg hx]

/-- What was written is read back. -/
theorem bytes_writeBytes (m : Mem) (a : Nat) (l : List UInt8) :
    bytes (writeBytes m a l) a l.length = l := by
  refine List.ext_getElem (by simp [bytes]) fun i h1 h2 => ?_
  simp only [bytes, List.getElem_map, List.getElem_range, writeBytes]
  rw [if_pos (by omega), Nat.add_sub_cancel_left]
  exact List.getD_eq_getElem _ _ h2

/-- A write leaves a block it does not meet. -/
theorem bytes_writeBytes_other {m : Mem} {a b n : Nat} {l : List UInt8}
    (h : b + n ≤ a ∨ a + l.length ≤ b) : bytes (writeBytes m a l) b n = bytes m b n :=
  bytes_congr fun x h1 h2 => writeBytes_out (by omega)

theorem writeBytes_nil (m : Mem) (a : Nat) : writeBytes m a [] = m :=
  funext fun x => by
    unfold writeBytes
    split_ifs <;> rfl

/-- A write in two parts. -/
theorem writeBytes_append (m : Mem) (a : Nat) (l l' : List UInt8) :
    writeBytes m a (l ++ l') = writeBytes (writeBytes m a l) (a + l.length) l' := by
  funext x
  unfold writeBytes
  by_cases h : a + l.length ≤ x
  · have hl : l.getD (x - a) (m x) = m x := List.getD_eq_default _ _ (by omega)
    rw [if_pos h, if_pos (by omega), if_pos (by omega), hl, List.getD_append_right _ _ _ _ (by omega),
      Nat.sub_sub]
  · rw [if_neg h]
    split_ifs with ha
    · exact List.getD_append _ _ _ _ (by omega)
    · rfl

theorem writeBytes_snoc (m : Mem) (a : Nat) (l : List UInt8) (b : UInt8) :
    writeBytes m a (l ++ [b]) = Function.update (writeBytes m a l) (a + l.length) b := by
  rw [writeBytes_append]
  funext x
  by_cases hx : x = a + l.length
  · subst hx
    rw [Function.update_self]
    simp [writeBytes]
  · rw [Function.update_of_ne hx]
    exact writeBytes_out (by simp only [List.length_singleton]; omega)

/-- A block in two parts. -/
theorem bytes_append (m : Mem) (a n k : Nat) :
    bytes m a (n + k) = bytes m a n ++ bytes m (a + n) k := by
  unfold bytes
  rw [List.range_add, List.map_append, List.map_map]
  refine congrArg _ (List.map_congr_left fun i _ => ?_)
  exact congrArg m (Nat.add_assoc a n i).symm

theorem bytes_snoc (m : Mem) (a n : Nat) : bytes m a (n + 1) = bytes m a n ++ [m (a + n)] :=
  bytes_append m a n 1

/-- `memmove`, of which the ranges may overlap. -/
def move (m : Mem) (dst src n : Nat) : Mem := writeBytes m dst (bytes m src n)

theorem move_out {m : Mem} {dst src n x : Nat} (h : x < dst ∨ dst + n ≤ x) :
    move m dst src n x = m x :=
  writeBytes_out (by simpa [bytes] using h)

theorem move_in {m : Mem} {dst src n i : Nat} (h : i < n) :
    move m dst src n (dst + i) = m (src + i) := by
  unfold move writeBytes
  rw [if_pos (Nat.le_add_right dst i), Nat.add_sub_cancel_left,
    List.getD_eq_getElem _ _ (by simpa [bytes] using h)]
  simp [bytes]

/-- One more byte moved down, which the bytes moved before have left alone. -/
theorem move_succ {m : Mem} {dst src n : Nat} (h : dst ≤ src) :
    Function.update (move m dst src n) (dst + n) (move m dst src n (src + n)) = move m dst src (n + 1) := by
  have hread : move m dst src n (src + n) = m (src + n) := move_out (Or.inr (by omega))
  have hlen : (bytes m src n).length = n := by simp [bytes]
  have hw := writeBytes_snoc m dst (bytes m src n) (m (src + n))
  rw [hlen] at hw
  rw [hread]
  unfold move
  rw [bytes_snoc, hw]

/-- A moved block. -/
theorem bytes_move {m : Mem} {dst src n i k : Nat} (h : i + k ≤ n) :
    bytes (move m dst src n) (dst + i) k = bytes m (src + i) k := by
  refine List.map_congr_left fun j hj => ?_
  have := List.mem_range.mp hj
  rw [Nat.add_assoc, move_in (by omega), Nat.add_assoc]

end MmHalow.Lib.Bytes
