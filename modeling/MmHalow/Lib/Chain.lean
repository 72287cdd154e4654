import Mathlib.Data.List.Nodup

/-!
# Singly linked lists through `next` fields

Nodes of a type `α` that are linked by a pointer each, from one first pointer. A `Cell` is where such a
pointer is stored, so that code which keeps the address of the link it came by can be said as it is.
`Linked l c as` says that from the cell `c` the pointers lead through `as` and end there.

* `Linked.unique`, `Linked.nodup`: **what a chain that ends passes is determined and has no repeats.**
* `Linked.lastCell`: the walk to the last link ends and finds it.
* `Linked.append`: a node is appended by writing the last link.
* `Linked.remove`: a node is removed by writing the link it was reached by.
* `Linked.next_eq`: the node after one of the chain.
-/

namespace MmHalow.Lib

/-- The first pointer and those of the nodes. -/
structure Links (α : Type) where
  head : Option α
  next : α → Option α

/-- Where a pointer is stored. -/
inductive Cell (α : Type) where
  | head
  | next (a : α)
  deriving Repr, DecidableEq

variable {α : Type}

/-- The pointer in a cell. -/
def Links.read (l : Links α) : Cell α → Option α
  | .head => l.head
  | .next a => l.next a

/-- From `c` the pointers lead through the nodes and end. -/
def Linked (l : Links α) : Cell α → List α → Prop
  | c, [] => l.read c = none
  | c, a :: as => l.read c = some a ∧ Linked l (.next a) as

/-- The last cell of a chain from `c`. -/
def lastOf : Cell α → List α → Cell α
  | c, [] => c
  | _, a :: as => lastOf (.next a) as

/-- The cells of a chain from `c`. -/
def cells (c : Cell α) (as : List α) : List (Cell α) := c :: as.map .next

/-- The walk to the last cell, in at most so many steps. -/
def Links.lastCell (l : Links α) : Nat → Cell α → Option (Cell α)
  | 0, _ => none
  | n + 1, c =>
    match l.read c with
    | none => some c
    | some a => l.lastCell n (.next a)

/-! ## What a chain passes -/

variable {l : Links α} {c : Cell α} {a b : α} {as bs : List α}

/-- **The chain from a cell is determined.** -/
theorem Linked.unique (h : Linked l c as) (h' : Linked l c bs) : as = bs := by
  induction as generalizing c bs with
  | nil =>
    cases bs with
    | nil => rfl
    | cons b bs => exact absurd (h.symm.trans h'.1) (Option.some_ne_none b).symm
  | cons a as ih =>
    cases bs with
    | nil => exact absurd (h'.symm.trans h.1) (Option.some_ne_none a).symm
    | cons b bs =>
      obtain rfl := Option.some.inj (h.1.symm.trans h'.1)
      rw [ih h.2 h'.2]

/-- The chain from a later link. -/
theorem Linked.drop (h : Linked l c (as ++ bs)) : Linked l (lastOf c as) bs := by
  induction as generalizing c with
  | nil => exact h
  | cons a as ih => exact ih h.2

theorem lastOf_append : lastOf c (as ++ [a]) = .next a := by
  induction as generalizing c with
  | nil => rfl
  | cons b as ih => exact ih

theorem lastOf_mem : lastOf c as ∈ cells c as := by
  induction as generalizing c with
  | nil => exact List.mem_cons_self
  | cons a as ih => exact List.mem_cons_of_mem c ih

/-- **A chain that ends has no repeats**: from a node that came twice it would not end. -/
theorem Linked.nodup (h : Linked l c as) : as.Nodup := by
  induction as generalizing c with
  | nil => exact List.nodup_nil
  | cons a as ih =>
    refine List.nodup_cons.mpr ⟨fun ha => ?_, ih h.2⟩
    obtain ⟨xs, ys, rfl⟩ := List.append_of_mem ha
    have hrest : Linked l (.next a) ys := by
      have hsplit : Linked l (.next a) ((xs ++ [a]) ++ ys) := by simpa using h.2
      have hlast := hsplit.drop
      rwa [lastOf_append] at hlast
    have hlen := congrArg List.length (h.2.unique hrest)
    simp at hlen
    omega

/-- The node after one of the chain. -/
theorem Linked.next_eq (h : Linked l c (as ++ a :: bs)) : l.next a = bs.head? := by
  have hrest : Linked l (lastOf c as) (a :: bs) := h.drop
  cases bs with
  | nil => exact hrest.2
  | cons b bs => exact hrest.2.1

theorem Linked.read_eq (h : Linked l c as) : l.read c = as.head? := by
  cases as with
  | nil => exact h
  | cons a as => exact h.1

/-- The walk to the last link ends where the chain does. -/
theorem Linked.lastCell (h : Linked l c as) {n : Nat} (hn : as.length < n) :
    l.lastCell n c = some (lastOf c as) := by
  induction as generalizing c n with
  | nil =>
    obtain ⟨m, rfl⟩ : ∃ m, n = m + 1 := ⟨n - 1, by simp at hn; omega⟩
    have hread : l.read c = none := h
    simp [Links.lastCell, hread, lastOf]
  | cons a as ih =>
    obtain ⟨m, rfl⟩ : ∃ m, n = m + 1 := ⟨n - 1, by simp at hn; omega⟩
    simp only [Links.lastCell, h.1]
    exact ih h.2 (by simpa using hn)

/-- The cells of a chain from the first pointer are distinct. -/
theorem nodup_cells (h : as.Nodup) : (cells .head as).Nodup := by
  refine List.nodup_cons.mpr ⟨fun hmem => ?_, h.map fun a b hab => Cell.next.inj hab⟩
  obtain ⟨a, _, ha⟩ := List.mem_map.mp hmem
  exact nomatch ha

/-! ## Writing links -/

variable [DecidableEq α] {d : Cell α} {v : Option α}

/-- A pointer is written. -/
def Links.write (l : Links α) (v : Option α) : Cell α → Links α
  | .head => { l with head := v }
  | .next a => { l with next := Function.update l.next a v }

@[simp] theorem read_write_self : (l.write v d).read d = v := by
  cases d with
  | head => rfl
  | next a => exact Function.update_self ..

theorem read_write_of_ne (h : c ≠ d) : (l.write v d).read c = l.read c := by
  cases d with
  | head =>
    cases c with
    | head => exact absurd rfl h
    | next a => rfl
  | next a =>
    cases c with
    | head => rfl
    | next b => exact Function.update_of_ne (fun hb => h (congrArg Cell.next hb)) ..

/-- A chain stays where no cell of it is written. -/
theorem Linked.write (h : Linked l c as) (hd : d ∉ cells c as) : Linked (l.write v d) c as := by
  induction as generalizing c with
  | nil =>
    have hc : c ≠ d := fun hc => hd (hc ▸ List.mem_cons_self)
    exact (read_write_of_ne hc).trans h
  | cons a as ih =>
    have hc : c ≠ d := fun hc => hd (hc ▸ List.mem_cons_self)
    exact ⟨(read_write_of_ne hc).trans h.1, ih h.2 fun hmem => hd (List.mem_cons_of_mem c hmem)⟩

/-- **A node is appended** by writing the last link. -/
theorem Linked.append (h : Linked l c as) (hc : (cells c as).Nodup) (ha : Cell.next a ∉ cells c as)
    (hnext : l.next a = none) : Linked (l.write (some a) (lastOf c as)) c (as ++ [a]) := by
  induction as generalizing c with
  | nil =>
    have hne : Cell.next a ≠ c := fun hac => ha (hac ▸ List.mem_cons_self)
    exact ⟨read_write_self, (read_write_of_ne hne).trans hnext⟩
  | cons b as ih =>
    obtain ⟨hnot, hrest⟩ := List.nodup_cons.mp hc
    have hne : c ≠ lastOf (.next b) as := fun hcb => hnot (hcb ▸ lastOf_mem)
    refine ⟨(read_write_of_ne hne).trans h.1, ih h.2 hrest fun hmem => ?_⟩
    exact ha (List.mem_cons_of_mem c hmem)

/-- **A node is removed** by writing the link that it was reached by; its own is cleared. -/
theorem Linked.remove (h : Linked l c (as ++ a :: bs)) (hc : (cells c (as ++ a :: bs)).Nodup) :
    Linked ((l.write (l.next a) (lastOf c as)).write none (.next a)) c (as ++ bs) := by
  induction as generalizing c with
  | nil =>
    obtain ⟨hnot, hrest⟩ := List.nodup_cons.mp hc
    have hca : c ≠ .next a := fun hca => hnot (hca ▸ List.mem_cons_self)
    have hbs : Linked l (.next a) bs := h.2
    have hread : ((l.write (l.next a) c).write none (.next a)).read c = bs.head? := by
      rw [read_write_of_ne hca, read_write_self]
      exact hbs.read_eq
    cases bs with
    | nil => exact hread
    | cons b bs =>
      refine ⟨hread, (hbs.2.write fun hmem => ?_).write fun hmem => ?_⟩
      · exact hnot (List.mem_cons_of_mem _ hmem)
      · exact (List.nodup_cons.mp hrest).1 hmem
  | cons b as ih =>
    obtain ⟨hnot, hrest⟩ := List.nodup_cons.mp hc
    have hlast : lastOf (.next b) as ∈ cells (.next b) (as ++ a :: bs) := by
      have hsub : cells (.next b) as ⊆ cells (.next b) (as ++ a :: bs) := by
        intro x hx
        simp only [cells, List.map_append, List.mem_cons, List.mem_append] at hx ⊢
        rcases hx with hx | hx
        · exact .inl hx
        · exact .inr (.inl hx)
      exact hsub lastOf_mem
    have hne : c ≠ lastOf (.next b) as := fun hcb => hnot (hcb ▸ hlast)
    have hca : c ≠ .next a := fun hca => hnot (by simp [hca])
    refine ⟨?_, ih h.2 hrest⟩
    rw [read_write_of_ne hca]
    exact (read_write_of_ne hne).trans h.1

end MmHalow.Lib
