import Mathlib.Data.List.Chain
import Mathlib.Tactic.Ring

/-!
# First-fit allocation over a tiled interval

An interval of addresses is cut into segments, each a header of `hdr` bytes followed by `size`
bytes of payload. A segment's address is not stored: it is the sum of what stands before it, so a
list of segments tiles its interval by construction.

* `alloc` takes the first free segment that is large enough and carves the request out of it.
* `mark` gives one segment back, `coalesce` then joins every run of free neighbours.

`Tiled` is the invariant: the segments fill the interval, no two free ones are neighbours, and
every address is aligned. `Tiled.alloc` and `Tiled.release` keep it. `mem_place_alloc` and
`used_release` say what each operation does to the used segments, and `place_pairwise` that
segments never overlap. `alloc_lowest` and `alloc_none_iff_place` say which segment first fit
takes, and `eq_of_used` that a coalesced list is determined by its used segments.
-/

namespace MmHalow.Lib.FirstFit

/-- A segment: the bytes of its payload, and whether it is handed out. -/
structure Seg where
  size : Nat
  used : Bool
  deriving Repr, DecidableEq

variable (hdr align : Nat)

/-- The bytes a list of segments takes, headers included. -/
def span : List Seg → Nat
  | [] => 0
  | s :: l => hdr + s.size + span l

/-- The segments with their addresses, the first one standing at `a`. -/
def place : Nat → List Seg → List (Nat × Seg)
  | _, [] => []
  | a, s :: l => (a, s) :: place (a + hdr + s.size) l

/-- What a request of `n` bytes makes of a free segment: the remainder is split off when it can
hold a header and `align` bytes. -/
def carve (n : Nat) (s : Seg) : List Seg :=
  if n + hdr + align ≤ s.size then [⟨n, true⟩, ⟨s.size - n - hdr, false⟩] else [⟨s.size, true⟩]

/-- First fit: the address of the segment taken and the new list. -/
def alloc (n : Nat) : Nat → List Seg → Option (Nat × List Seg)
  | _, [] => none
  | a, s :: l =>
    if s.used ∨ s.size < n then
      (alloc n (a + hdr + s.size) l).map fun r => (r.1, s :: r.2)
    else some (a, carve hdr align n s ++ l)

/-- The segment standing at `p` marked free. -/
def mark (p : Nat) : Nat → List Seg → List Seg
  | _, [] => []
  | a, s :: l => if a = p then { s with used := false } :: l else s :: mark p (a + hdr + s.size) l

/-- Every run of free neighbours joined into one segment. -/
def coalesce : List Seg → List Seg
  | [] => []
  | [s] => [s]
  | s :: t :: l =>
    if s.used = false ∧ t.used = false then coalesce (⟨s.size + (hdr + t.size), false⟩ :: l)
    else s :: coalesce (t :: l)
termination_by l => l.length

/-- Two neighbours are not both free. -/
def Apart (s t : Seg) : Prop := s.used = true ∨ t.used = true

/-- **The invariant of a tiled interval** of `len` bytes at `a`. -/
structure Tiled (a len : Nat) (l : List Seg) : Prop where
  span_eq : span hdr l = len
  apart : l.IsChain Apart
  aligned : ∀ e ∈ place hdr a l, e.1 % align = 0

variable {hdr align}

/-! ## Addresses -/

theorem span_append : ∀ (l₁ l₂ : List Seg), span hdr (l₁ ++ l₂) = span hdr l₁ + span hdr l₂
  | [], l₂ => by simp [span]
  | s :: l₁, l₂ => by
    rw [List.cons_append, span, span, span_append l₁ l₂]
    omega

theorem place_append : ∀ (a : Nat) (l₁ l₂ : List Seg),
    place hdr a (l₁ ++ l₂) = place hdr a l₁ ++ place hdr (a + span hdr l₁) l₂
  | a, [], l₂ => by simp [place, span]
  | a, s :: l₁, l₂ => by
    rw [List.cons_append, place, place, place_append _ l₁ l₂, List.cons_append, span]
    congr 3
    omega

/-- A placed segment stands behind the segments before it. -/
theorem mem_place_iff {a p : Nat} {s : Seg} {l : List Seg} :
    (p, s) ∈ place hdr a l ↔ ∃ pre post, l = pre ++ s :: post ∧ p = a + span hdr pre := by
  constructor
  · induction l generalizing a with
    | nil => intro h; exact absurd h List.not_mem_nil
    | cons t l ih =>
      intro h
      rcases List.mem_cons.mp h with h | h
      · obtain ⟨rfl, rfl⟩ := Prod.mk.injEq .. ▸ h
        exact ⟨[], l, rfl, by simp [span]⟩
      · obtain ⟨pre, post, rfl, hp⟩ := ih h
        exact ⟨t :: pre, post, rfl, by rw [span]; omega⟩
  · rintro ⟨pre, post, rfl, rfl⟩
    rw [place_append]
    exact List.mem_append_right _ List.mem_cons_self

/-- Every segment lies inside the interval. -/
theorem mem_place_bounds {a p : Nat} {s : Seg} {l : List Seg} (h : (p, s) ∈ place hdr a l) :
    a ≤ p ∧ p + hdr + s.size ≤ a + span hdr l := by
  obtain ⟨pre, post, rfl, rfl⟩ := mem_place_iff.mp h
  rw [span_append, span]
  omega

/-- **Segments stand in address order and do not overlap.** -/
theorem place_pairwise : ∀ (a : Nat) (l : List Seg),
    (place hdr a l).Pairwise fun e f => e.1 + hdr + e.2.size ≤ f.1
  | _, [] => List.Pairwise.nil
  | a, s :: l => by
    rw [place]
    refine List.Pairwise.cons (fun e he => ?_) (place_pairwise _ l)
    exact (mem_place_bounds (p := e.1) (s := e.2) he).1

/-- Distinct segments are disjoint. -/
theorem place_disjoint {a : Nat} {l : List Seg} {e f : Nat × Seg} (he : e ∈ place hdr a l)
    (hf : f ∈ place hdr a l) (hne : e ≠ f) :
    e.1 + hdr + e.2.size ≤ f.1 ∨ f.1 + hdr + f.2.size ≤ e.1 := by
  induction l generalizing a with
  | nil => exact absurd he List.not_mem_nil
  | cons s l ih =>
    rcases List.mem_cons.mp he with rfl | he <;> rcases List.mem_cons.mp hf with rfl | hf
    · exact absurd rfl hne
    · exact Or.inl (mem_place_bounds (p := f.1) (s := f.2) hf).1
    · exact Or.inr (mem_place_bounds (p := e.1) (s := e.2) he).1
    · exact ih he hf

/-- One address holds one segment. -/
theorem place_unique (hh : 0 < hdr) {a p : Nat} {s t : Seg} {l : List Seg}
    (hs : (p, s) ∈ place hdr a l) (ht : (p, t) ∈ place hdr a l) : s = t := by
  by_contra hne
  have := place_disjoint hs ht fun e => hne (Prod.mk.inj e).2
  simp only at this
  omega

/-- Neighbours in the list are neighbours in the interval. -/
theorem place_isChain (hdr : Nat) : ∀ (a : Nat) {l : List Seg}, l.IsChain Apart →
    (place hdr a l).IsChain fun e f => e.1 + hdr + e.2.size = f.1 ∧ Apart e.2 f.2
  | _, [], _ => List.isChain_nil
  | _, [_], _ => List.isChain_singleton _
  | a, s :: t :: l, h => by
    rw [List.isChain_cons_cons] at h
    exact List.isChain_cons_cons.mpr ⟨⟨rfl, h.1⟩, place_isChain hdr _ h.2⟩

/-- The last segment ends where the interval ends. -/
theorem place_getLast (hdr : Nat) : ∀ (a : Nat) (l : List Seg), ∀ e ∈ (place hdr a l).getLast?,
    e.1 + hdr + e.2.size = a + span hdr l
  | _, [], e, he => by simp [place] at he
  | a, [s], e, he => by
    obtain rfl : (a, s) = e := by simpa [place] using he
    simp only [span]
    omega
  | a, s :: t :: l, e, he => by
    rw [place, place, List.getLast?_cons_cons] at he
    have := place_getLast hdr (a + hdr + s.size) (t :: l) e he
    rw [this]
    simp only [span]
    omega

/-! ## Allocation -/

theorem span_carve (hdr align n : Nat) (s : Seg) : span hdr (carve hdr align n s) = hdr + s.size := by
  unfold carve
  split <;> simp only [span] <;> omega

/-- The carved list starts with a used segment of at least `n` bytes. -/
theorem carve_head (hdr align : Nat) {n : Nat} {s : Seg} (hn : n ≤ s.size) :
    ∃ k rest, carve hdr align n s = ⟨k, true⟩ :: rest ∧ n ≤ k ∧ k ≤ s.size ∧
      ∀ t ∈ rest, t.used = false := by
  unfold carve
  split
  · exact ⟨n, _, rfl, le_refl n, hn, by simp⟩
  · exact ⟨s.size, [], rfl, hn, le_refl _, by simp⟩

/-- **What first fit takes**: the first free segment of at least `n` bytes. -/
theorem alloc_some {n a p : Nat} {l l' : List Seg} (h : alloc hdr align n a l = some (p, l')) :
    ∃ pre s post, l = pre ++ s :: post ∧ p = a + span hdr pre ∧
      (∀ t ∈ pre, t.used = true ∨ t.size < n) ∧ s.used = false ∧ n ≤ s.size ∧
      l' = pre ++ (carve hdr align n s ++ post) := by
  induction l generalizing a l' with
  | nil => simp [alloc] at h
  | cons s l ih =>
    rw [alloc] at h
    split at h
    · rename_i hskip
      obtain ⟨⟨q, r⟩, hr, he⟩ := Option.map_eq_some_iff.mp h
      obtain ⟨rfl, rfl⟩ := Prod.mk.inj he
      obtain ⟨pre, t, post, rfl, hq, hpre, hfree, hsize, rfl⟩ := ih hr
      refine ⟨s :: pre, t, post, rfl, by simp only [span]; omega, ?_, hfree, hsize, rfl⟩
      intro u hu
      rcases List.mem_cons.mp hu with rfl | hu
      · exact hskip
      · exact hpre u hu
    · rename_i htake
      obtain ⟨rfl, rfl⟩ := Prod.mk.inj (Option.some.inj h)
      have ht : s.used = false ∧ n ≤ s.size := by simpa using htake
      exact ⟨[], s, l, rfl, by simp [span], by simp, ht.1, ht.2, rfl⟩

/-- **First fit is complete**: it fails only when no free segment is large enough. -/
theorem alloc_none_iff {n a : Nat} {l : List Seg} :
    alloc hdr align n a l = none ↔ ∀ t ∈ l, t.used = true ∨ t.size < n := by
  induction l generalizing a with
  | nil => simp [alloc]
  | cons s l ih =>
    rw [alloc]
    split
    · rename_i hskip
      rw [Option.map_eq_none_iff, ih, List.forall_mem_cons]
      exact ⟨fun h => ⟨hskip, h⟩, fun h => h.2⟩
    · rename_i htake
      simp only [reduceCtorEq, false_iff]
      exact fun h => htake (h s List.mem_cons_self)

/-- Segments after the request: the one taken, a free remainder at most, and the old ones. -/
theorem mem_place_alloc {n a p : Nat} {l l' : List Seg}
    (h : alloc hdr align n a l = some (p, l')) :
    ∃ s k, (p, s) ∈ place hdr a l ∧ s.used = false ∧ n ≤ k ∧ k ≤ s.size ∧
      (p, ⟨k, true⟩) ∈ place hdr a l' ∧
      ∀ q t, t.used = true →
        ((q, t) ∈ place hdr a l' ↔ (q, t) = (p, ⟨k, true⟩) ∨ (q, t) ∈ place hdr a l) := by
  obtain ⟨pre, s, post, rfl, rfl, -, hfree, hsize, rfl⟩ := alloc_some h
  obtain ⟨k, rest, hc, hnk, hks, hrest⟩ := carve_head hdr align hsize
  have hspan := span_carve hdr align n s
  refine ⟨s, k, mem_place_iff.mpr ⟨pre, post, rfl, rfl⟩, hfree, hnk, hks,
    mem_place_iff.mpr ⟨pre, rest ++ post, by rw [hc]; rfl, rfl⟩, fun q t ht => ?_⟩
  have hnot : ∀ b, (q, t) ∉ place hdr b rest := fun b hm => by
    obtain ⟨pre', post', rfl, -⟩ := mem_place_iff.mp hm
    have := hrest t (by simp)
    rw [ht] at this
    exact Bool.noConfusion this
  have hs : t ≠ s := fun e => by rw [← e, ht] at hfree; exact Bool.noConfusion hfree
  rw [hc] at hspan
  have htail : place hdr (a + span hdr pre + span hdr (⟨k, true⟩ :: rest)) post =
      place hdr (a + span hdr pre + hdr + s.size) post := by
    rw [hspan]
    congr 1
    omega
  rw [hc, place_append, place_append, htail, place_append, place, place, List.mem_append,
    List.mem_append, List.mem_append, List.mem_cons, List.mem_cons]
  simp only [hnot, or_false, Prod.mk.injEq, hs, and_false, false_or]
  tauto

theorem span_alloc {n a p : Nat} {l l' : List Seg} (h : alloc hdr align n a l = some (p, l')) :
    span hdr l' = span hdr l := by
  obtain ⟨pre, s, post, rfl, -, -, -, -, rfl⟩ := alloc_some h
  simp only [span_append, span_carve, span]

/-- A used segment may stand anywhere. -/
theorem isChain_used {pre post : List Seg} {s t : Seg} (h : (pre ++ s :: post).IsChain Apart)
    (ht : t.used = true) : (pre ++ t :: post).IsChain Apart := by
  rw [List.isChain_append] at h ⊢
  refine ⟨h.1, ?_, fun x _ y hy => ?_⟩
  · cases post with
    | nil => exact List.isChain_singleton t
    | cons u post => exact List.isChain_cons_cons.mpr ⟨Or.inl ht, (List.isChain_cons_cons.mp h.2.1).2⟩
  · obtain rfl : t = y := by simpa using hy
    exact Or.inr ht

/-- **An allocation keeps the tiling.** -/
theorem Tiled.alloc {n a len p : Nat} {l l' : List Seg} (ht : Tiled hdr align a len l)
    (hh : hdr % align = 0) (hn : n % align = 0) (h : alloc hdr align n a l = some (p, l')) :
    Tiled hdr align a len l' := by
  refine ⟨(span_alloc h).trans ht.span_eq, ?_, ?_⟩
  · obtain ⟨pre, s, post, rfl, -, -, hfree, -, rfl⟩ := alloc_some h
    have happ := ht.apart
    unfold carve
    split
    · have h1 := isChain_used (t := ⟨n, true⟩) happ rfl
      have hpost : ((⟨s.size - n - hdr, false⟩ : Seg) :: post).IsChain Apart := by
        -- the free remainder stands where the free segment stood
        have h2 := (List.isChain_append.mp happ).2.1
        cases post with
        | nil => exact List.isChain_singleton _
        | cons u post =>
          rw [List.isChain_cons_cons] at h2 ⊢
          refine ⟨Or.inr ?_, h2.2⟩
          rcases h2.1 with hu | hu
          · rw [hfree] at hu
            exact absurd hu Bool.false_ne_true
          · exact hu
      rw [List.isChain_append] at h1 ⊢
      exact ⟨h1.1, List.isChain_cons_cons.mpr ⟨Or.inl rfl, hpost⟩, by simpa using h1.2.2⟩
    · exact isChain_used (t := ⟨s.size, true⟩) happ rfl
  · obtain ⟨pre, s, post, rfl, -, -, -, -, rfl⟩ := alloc_some h
    have hal := ht.aligned
    have htail : place hdr (a + span hdr pre + span hdr (carve hdr align n s)) post =
        place hdr (a + span hdr pre + hdr + s.size) post := by
      rw [span_carve]
      congr 1
      omega
    rw [place_append, place] at hal
    rw [place_append, place_append, htail]
    intro e he
    rw [List.mem_append, List.mem_append] at he
    rcases he with he | he | he
    · exact hal e (List.mem_append_left _ he)
    · have hp : (a + span hdr pre) % align = 0 :=
        hal (a + span hdr pre, s) (List.mem_append_right _ List.mem_cons_self)
      unfold carve at he
      split at he
      · simp only [place, List.mem_cons, List.not_mem_nil, or_false] at he
        rcases he with rfl | rfl
        · exact hp
        · simp only [Nat.add_mod, hp, hh, hn, Nat.zero_mod, Nat.add_zero]
      · simp only [place, List.mem_cons, List.not_mem_nil, or_false] at he
        rw [he]
        exact hp
    · exact hal e (List.mem_append_right _ (List.mem_cons_of_mem _ he))

/-! ## Release -/

/-- `mark` reaches the segment at its address. -/
theorem mark_append (hh : 0 < hdr) {a : Nat} {s : Seg} {post : List Seg} :
    ∀ {pre : List Seg}, mark hdr (a + span hdr pre) a (pre ++ s :: post) =
      pre ++ { s with used := false } :: post
  | [] => by simp [mark, span]
  | t :: pre => by
    have hne : ¬ a = a + span hdr (t :: pre) := by rw [span]; omega
    have heq : a + span hdr (t :: pre) = a + hdr + t.size + span hdr pre := by rw [span]; omega
    rw [List.cons_append, mark, if_neg hne, heq, mark_append hh, List.cons_append]

theorem span_mark (hdr p : Nat) : ∀ (a : Nat) (l : List Seg), span hdr (mark hdr p a l) = span hdr l
  | _, [] => rfl
  | a, s :: l => by
    rw [mark]
    split
    · rfl
    · rw [span, span, span_mark hdr p _ l]

/-- Marking moves no segment. -/
theorem place_mark_fst {p : Nat} : ∀ (a : Nat) (l : List Seg),
    (place hdr a (mark hdr p a l)).map Prod.fst = (place hdr a l).map Prod.fst
  | _, [] => rfl
  | a, s :: l => by
    rw [mark]
    split
    · rfl
    · simp only [place, List.map_cons, place_mark_fst _ l]

theorem mem_mark_used (hh : 0 < hdr) {a p q : Nat} {s t : Seg} {l : List Seg}
    (hs : (p, s) ∈ place hdr a l) (ht : t.used = true) :
    (q, t) ∈ place hdr a (mark hdr p a l) ↔ (q, t) ∈ place hdr a l ∧ q ≠ p := by
  obtain ⟨pre, post, rfl, rfl⟩ := mem_place_iff.mp hs
  have hfree : t ≠ { s with used := false } := fun e => by
    rw [e] at ht
    exact Bool.noConfusion ht
  rw [mark_append hh, place_append, place, place_append, place, List.mem_append, List.mem_append,
    List.mem_cons, List.mem_cons, Prod.mk.injEq, Prod.mk.injEq]
  constructor
  · rintro (h | h | h)
    · have hb := mem_place_bounds h
      exact ⟨Or.inl h, by omega⟩
    · exact absurd h.2 hfree
    · have hb := mem_place_bounds h
      exact ⟨Or.inr (Or.inr h), by omega⟩
  · rintro ⟨h | h | h, hne⟩
    · exact Or.inl h
    · exact absurd h.1 hne
    · exact Or.inr (Or.inr h)

theorem span_coalesce : ∀ l : List Seg, span hdr (coalesce hdr l) = span hdr l := by
  intro l
  induction l using coalesce.induct hdr with
  | case1 => rw [coalesce]
  | case2 s => rw [coalesce]
  | case3 s t l h ih =>
    rw [coalesce, if_pos h, ih]
    simp only [span]
    omega
  | case4 s t l h ih =>
    rw [coalesce, if_neg h, span, ih]
    rfl

/-- The first segment of a coalesced list: free only if the first one was. -/
theorem coalesce_head {l : List Seg} {t : Seg} (h : (coalesce hdr l).head? = some t) :
    ∃ s, l.head? = some s ∧ t.used = s.used := by
  induction l using coalesce.induct hdr with
  | case1 => rw [coalesce] at h; simp at h
  | case2 s =>
    rw [coalesce] at h
    exact ⟨s, rfl, by rw [Option.some.inj h]⟩
  | case3 s t' l hst ih =>
    rw [coalesce, if_pos hst] at h
    obtain ⟨u, hu, he⟩ := ih h
    obtain rfl := Option.some.inj hu
    exact ⟨s, rfl, he.trans hst.1.symm⟩
  | case4 s t' l hst ih =>
    rw [coalesce, if_neg hst] at h
    exact ⟨s, rfl, by rw [Option.some.inj h]⟩

/-- **No two free neighbours are left.** -/
theorem coalesce_apart : ∀ l : List Seg, (coalesce hdr l).IsChain Apart := by
  intro l
  induction l using coalesce.induct hdr with
  | case1 => rw [coalesce]; exact List.isChain_nil
  | case2 s => rw [coalesce]; exact List.isChain_singleton s
  | case3 s t l h ih => rw [coalesce, if_pos h]; exact ih
  | case4 s t l h ih =>
    rw [coalesce, if_neg h, List.isChain_cons]
    refine ⟨fun u hu => ?_, ih⟩
    obtain ⟨v, hv, he⟩ := coalesce_head hu
    obtain rfl := Option.some.inj hv
    unfold Apart
    rw [he]
    by_contra hc
    simp only [not_or, Bool.not_eq_true] at hc
    exact h hc

/-- Coalescing keeps every used segment where it stands. -/
theorem mem_coalesce_used {q : Nat} {u : Seg} (hu : u.used = true) :
    ∀ (l : List Seg) (a : Nat), (q, u) ∈ place hdr a (coalesce hdr l) ↔ (q, u) ∈ place hdr a l := by
  intro l
  induction l using coalesce.induct hdr with
  | case1 => intro a; rw [coalesce]
  | case2 s => intro a; rw [coalesce]
  | case3 s t l h ih =>
    intro a
    have hne : ∀ v : Seg, v.used = false → u ≠ v := fun v hv e => by
      rw [← e, hu] at hv
      exact Bool.noConfusion hv
    have ha : a + hdr + (s.size + (hdr + t.size)) = a + hdr + s.size + hdr + t.size := by omega
    rw [coalesce, if_pos h, ih]
    simp only [place, List.mem_cons, Prod.mk.injEq, hne s h.1, hne t h.2, hne ⟨_, false⟩ rfl,
      and_false, false_or, ha]
  | case4 s t l h ih =>
    intro a
    rw [coalesce, if_neg h, place, place, List.mem_cons, List.mem_cons, ih]

/-- Coalescing puts no segment at a new address. -/
theorem place_coalesce_fst {q : Nat} : ∀ (l : List Seg) (a : Nat),
    q ∈ (place hdr a (coalesce hdr l)).map Prod.fst → q ∈ (place hdr a l).map Prod.fst := by
  intro l
  induction l using coalesce.induct hdr with
  | case1 => intro a h; rw [coalesce] at h; exact h
  | case2 s => intro a h; rw [coalesce] at h; exact h
  | case3 s t l h ih =>
    intro a hq
    rw [coalesce, if_pos h] at hq
    have := ih a hq
    have ha : a + hdr + (s.size + (hdr + t.size)) = a + hdr + s.size + hdr + t.size := by omega
    simp only [place, List.map_cons, List.mem_cons, ha] at this ⊢
    tauto
  | case4 s t l h ih =>
    intro a hq
    rw [coalesce, if_neg h, place, List.map_cons, List.mem_cons] at hq
    rw [place, List.map_cons, List.mem_cons]
    exact hq.imp id (ih _)

/-- **A release keeps the tiling.** -/
theorem Tiled.release {a len p : Nat} {l : List Seg} (ht : Tiled hdr align a len l) :
    Tiled hdr align a len (coalesce hdr (mark hdr p a l)) := by
  refine ⟨by rw [span_coalesce, span_mark, ht.span_eq], coalesce_apart _, fun e he => ?_⟩
  have h1 : e.1 ∈ (place hdr a (mark hdr p a l)).map Prod.fst :=
    place_coalesce_fst _ _ (List.mem_map_of_mem he)
  rw [place_mark_fst] at h1
  obtain ⟨f, hf, he'⟩ := List.mem_map.mp h1
  rw [← he']
  exact ht.aligned f hf

/-- **A release gives back one segment** and leaves every other used one in its place. -/
theorem used_release (hh : 0 < hdr) {a p q : Nat} {s t : Seg} {l : List Seg}
    (hs : (p, s) ∈ place hdr a l) (ht : t.used = true) :
    (q, t) ∈ place hdr a (coalesce hdr (mark hdr p a l)) ↔ (q, t) ∈ place hdr a l ∧ q ≠ p := by
  rw [mem_coalesce_used ht, mem_mark_used hh hs ht]

/-! ## What the used segments determine -/

/-- Where first fit fails: no placed free segment is large enough. -/
theorem alloc_none_iff_place {n a : Nat} {l : List Seg} :
    alloc hdr align n a l = none ↔
      ∀ e ∈ place hdr a l, e.2.used = false → e.2.size < n := by
  rw [alloc_none_iff]
  constructor
  · intro h e he hfree
    obtain ⟨pre, post, rfl, -⟩ := mem_place_iff.mp (show (e.1, e.2) ∈ place hdr a l from he)
    rcases h e.2 (List.mem_append_right _ List.mem_cons_self) with hu | hs
    · rw [hfree] at hu
      exact absurd hu Bool.false_ne_true
    · exact hs
  · intro h t ht
    obtain ⟨pre, post, rfl⟩ := List.append_of_mem ht
    by_cases hu : t.used = true
    · exact Or.inl hu
    · exact Or.inr (h _ (mem_place_iff.mpr ⟨pre, post, rfl, rfl⟩) (by simpa using hu))

/-- Where first fit succeeds: it takes the free segment of lowest address that is large enough. -/
theorem alloc_lowest {n a p : Nat} {l l' : List Seg} (h : alloc hdr align n a l = some (p, l')) :
    ∃ s, (p, s) ∈ place hdr a l ∧ s.used = false ∧ n ≤ s.size ∧
      ∀ e ∈ place hdr a l, e.2.used = false → n ≤ e.2.size → p ≤ e.1 := by
  obtain ⟨pre, s, post, rfl, rfl, hpre, hfree, hsize, -⟩ := alloc_some h
  refine ⟨s, mem_place_iff.mpr ⟨pre, post, rfl, rfl⟩, hfree, hsize, fun e he hef hes => ?_⟩
  rw [place_append] at he
  rcases List.mem_append.mp he with he | he
  · -- a segment in front was passed over
    obtain ⟨pre', post', rfl, -⟩ := mem_place_iff.mp (show (e.1, e.2) ∈ place hdr a pre from he)
    rcases hpre e.2 (List.mem_append_right _ List.mem_cons_self) with hu | hs
    · rw [hef] at hu
      exact absurd hu Bool.false_ne_true
    · omega
  · exact (mem_place_bounds (p := e.1) (s := e.2) he).1

/-- A used segment at the start of the interval is the first one. -/
theorem used_head (hh : 0 < hdr) {a : Nat} {s t : Seg} {l : List Seg}
    (h : (a, t) ∈ place hdr a (s :: l)) : t = s := by
  rcases List.mem_cons.mp h with h | h
  · exact (Prod.mk.inj h).2
  · have := (mem_place_bounds h).1
    omega

/-- A free first segment reaches at least to where that of another coalesced list with the same
used segments ends. -/
theorem free_head_le {a : Nat} {s s' : Seg} {l l' : List Seg}
    (hspan : span hdr (s :: l) = span hdr (s' :: l')) (happ : (s :: l).IsChain Apart)
    (hs : s.used = false) (hs' : s'.used = false)
    (hused : ∀ q t, t.used = true → (q, t) ∈ place hdr a (s :: l) → (q, t) ∈ place hdr a (s' :: l')) :
    s'.size ≤ s.size := by
  simp only [span] at hspan
  cases l with
  | nil =>
    simp only [span] at hspan
    omega
  | cons t l =>
    have ht : t.used = true := by
      rcases (List.isChain_cons_cons.mp happ).1 with h | h
      · rw [hs] at h
        exact absurd h Bool.false_ne_true
      · exact h
    -- the used neighbour stands behind both free heads
    have hmem := hused (a + hdr + s.size) t ht (by simp [place])
    rcases List.mem_cons.mp hmem with h | h
    · rw [(Prod.mk.inj h).2, hs'] at ht
      exact absurd ht Bool.false_ne_true
    · have := (mem_place_bounds h).1
      omega

/-- The used segments behind the first one. -/
theorem used_tail (hh : 0 < hdr) {a : Nat} {s : Seg} {l l' : List Seg}
    (hused : ∀ q t, t.used = true → (q, t) ∈ place hdr a (s :: l) → (q, t) ∈ place hdr a (s :: l'))
    (q : Nat) (t : Seg) (ht : t.used = true) (h : (q, t) ∈ place hdr (a + hdr + s.size) l) :
    (q, t) ∈ place hdr (a + hdr + s.size) l' := by
  have hq := (mem_place_bounds h).1
  rcases List.mem_cons.mp (hused q t ht (List.mem_cons_of_mem _ h)) with he | he
  · have := (Prod.mk.inj he).1
    omega
  · exact he

/-- **A coalesced list is determined by its used segments.** -/
theorem eq_of_used (hh : 0 < hdr) : ∀ {l l' : List Seg} {a : Nat}, span hdr l = span hdr l' →
    l.IsChain Apart → l'.IsChain Apart →
    (∀ q t, t.used = true → ((q, t) ∈ place hdr a l ↔ (q, t) ∈ place hdr a l')) → l = l'
  | [], [], _, _, _, _, _ => rfl
  | [], s' :: l', _, hspan, _, _, _ => by
    simp only [span] at hspan
    omega
  | s :: l, [], _, hspan, _, _, _ => by
    simp only [span] at hspan
    omega
  | s :: l, s' :: l', a, hspan, happ, happ', hused => by
    have hhead : s = s' := by
      by_cases hs : s.used = true
      · exact used_head hh ((hused a s hs).mp List.mem_cons_self)
      by_cases hs' : s'.used = true
      · exact (used_head hh ((hused a s' hs').mpr List.mem_cons_self)).symm
      rw [Bool.not_eq_true] at hs hs'
      have h1 := free_head_le hspan happ hs hs' fun q t ht => (hused q t ht).mp
      have h2 := free_head_le hspan.symm happ' hs' hs fun q t ht => (hused q t ht).mpr
      cases s
      cases s'
      simp only at h1 h2 hs hs'
      rw [hs, hs', Nat.le_antisymm h2 h1]
    subst hhead
    have hspan' : span hdr l = span hdr l' := by
      simp only [span] at hspan
      omega
    rw [eq_of_used hh hspan' happ.tail happ'.tail fun q t ht =>
      ⟨used_tail hh (fun q t ht => (hused q t ht).mp) q t ht,
        used_tail hh (fun q t ht => (hused q t ht).mpr) q t ht⟩]

end MmHalow.Lib.FirstFit
