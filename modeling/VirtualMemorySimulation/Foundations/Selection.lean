import VirtualMemorySimulation.Foundations.Execution

/-!
# Bounded arrays and rotating partitions

An array is a list that is read and written at checked integer indices. A
partition from both ends compares every element but one with a pivot: smaller
ones stay in place, the others change places with the last element not yet seen.
When no element is smaller than the pivot, all that such a pass does is to rotate
its range by one place, and how often that can happen in a row is bounded by how
far the first minimum lies behind the head.
-/

namespace VirtualMemorySimulation.Selection

open Execution

section Arrays

variable {α : Type}

def readAt (xs : List α) (i : ℤ) : Except Stop α :=
  if i < 0 then .error .outOfBounds else
    match xs[i.toNat]? with
    | some x => .ok x
    | none => .error .outOfBounds

def writeAt (xs : List α) (i : ℤ) (x : α) : Except Stop (List α) :=
  if 0 ≤ i ∧ i < xs.length then .ok (xs.set i.toNat x) else .error .outOfBounds

def fillNext (capacity : ℕ) (xs : List α) (x : α) : Except Stop (List α) :=
  if xs.length < capacity then .ok (xs ++ [x]) else .error .outOfBounds

theorem readAt_append {i : ℤ} (pre : List α) (x : α) (post : List α) (hi : i = pre.length) :
    readAt (pre ++ x :: post) i = .ok x := by
  subst hi
  simp [readAt]

theorem writeAt_append {i : ℤ} (pre : List α) (x y : α) (post : List α) (hi : i = pre.length) :
    writeAt (pre ++ x :: post) i y = .ok (pre ++ y :: post) := by
  subst hi
  rw [writeAt, if_pos ⟨by omega, by simp⟩]
  simp

theorem fillNext_of_lt {capacity : ℕ} {xs : List α} (x : α) (h : xs.length < capacity) :
    fillNext capacity xs x = .ok (xs ++ [x]) := if_pos h

theorem foldlM_fillNext {β : Type} {capacity : ℕ} (f : β → α) {l : List β} {xs : List α}
    (h : xs.length + l.length ≤ capacity) :
    l.foldlM (fun xs b => fillNext capacity xs (f b)) xs = .ok (xs ++ l.map f) := by
  induction l generalizing xs with
  | nil => exact congrArg Except.ok (List.append_nil xs).symm
  | cons b l ih =>
    rw [List.length_cons] at h
    rw [List.foldlM_cons, fillNext_of_lt (f b) (by omega), ok_bind, ih (by simp; omega)]
    simp

end Arrays

section Partition

variable {α κ : Type} [LinearOrder κ]

/-- What a pass from both ends makes of a range: the elements smaller than the pivot, the
one it does not compare, and the others. -/
inductive Split (key : α → κ) (mid : κ) : List α → List α → α → List α → Prop
  | stop {z} : Split key mid [z] [] z []
  | skip {x range small z large} : key x < mid → range ≠ [] → Split key mid range small z large →
      Split key mid (x :: range) (x :: small) z large
  | swap {x y range small z large} : mid ≤ key x → Split key mid (y :: range) small z large →
      Split key mid (x :: (range ++ [y])) small z (large ++ [x])

variable {key : α → κ} {mid : κ} {range small large left right : List α} {x z : α}

theorem Split.exists (hne : range ≠ []) : ∃ small z large, Split key mid range small z large := by
  induction hlen : range.length using Nat.strong_induction_on generalizing range with
  | _ n ih =>
    subst hlen
    obtain ⟨x, rest, rfl⟩ := List.exists_cons_of_ne_nil hne
    rcases List.eq_nil_or_concat rest with rfl | ⟨init, y, rfl⟩
    · exact ⟨[], x, [], .stop⟩
    · rw [List.concat_eq_append]
      by_cases hx : key x < mid
      · obtain ⟨small, z, large, h⟩ := ih (init ++ [y]).length (by simp) (by simp) rfl
        exact ⟨x :: small, z, large, .skip hx (by simp) h⟩
      · obtain ⟨small, z, large, h⟩ := ih (y :: init).length (by simp) (by simp) rfl
        exact ⟨small, z, large ++ [x], .swap (not_lt.mp hx) h⟩

theorem Split.perm (h : Split key mid range small z large) :
    (small ++ z :: large).Perm range := by
  induction h with
  | stop => simp
  | skip _ _ _ ih => exact ih.cons _
  | @swap x y range small z large _ _ ih =>
    have hlast : (small ++ z :: (large ++ [x])).Perm (x :: y :: range) := by
      rw [← List.cons_append, ← List.append_assoc]
      exact (List.perm_append_singleton x _).trans (ih.cons x)
    exact hlast.trans ((List.perm_append_singleton y range).symm.cons x)

theorem Split.small_lt (h : Split key mid range small z large) : ∀ x ∈ small, key x < mid := by
  induction h with
  | stop => simp
  | skip hx _ _ ih => exact List.forall_mem_cons.mpr ⟨hx, ih⟩
  | swap _ _ ih => exact ih

theorem Split.le_large (h : Split key mid range small z large) : ∀ x ∈ large, mid ≤ key x := by
  induction h with
  | stop => simp
  | skip _ _ _ ih => exact ih
  | swap hx _ ih =>
    intro v hv
    rcases List.mem_append.mp hv with hv | hv
    · exact ih v hv
    · exact List.mem_singleton.mp hv ▸ hx

theorem Split.eq_of_large_nil (h : Split key mid range small z large) (hnil : large = []) :
    range = small ++ [z] := by
  induction h with
  | stop => rfl
  | skip _ _ _ ih => simp [ih hnil]
  | swap => simp at hnil

/-- A pass over elements that are not smaller than the pivot rotates them. -/
theorem Split.rotate (h : Split key mid range small z large) (hall : ∀ x ∈ range, mid ≤ key x) :
    small = [] ∧ z :: large = range.rotate 1 := by
  induction h with
  | stop => exact ⟨rfl, by simp⟩
  | skip hx => exact absurd hx (not_lt.mpr (hall _ (by simp)))
  | @swap x y range small z large _ _ ih =>
    obtain ⟨hsmall, hrotate⟩ := ih fun v hv => hall v (by simp at hv ⊢; tauto)
    refine ⟨hsmall, ?_⟩
    rw [← List.cons_append, hrotate]
    simp

/-- A range has been cut into two parts in order, the right one not empty. A pass that
cuts nothing off has rotated the range and brought no minimum to its head. -/
structure Pass (key : α → κ) (range left right : List α) : Prop where
  perm : (left ++ right).Perm range
  ordered : ∀ x ∈ left, ∀ y ∈ right, key x ≤ key y
  right_ne : right ≠ []
  stalled : left = [] → right = range.rotate 1 ∧
    ∃ z rest, right = z :: rest ∧ ∃ y ∈ range, key y < key z

/-- The element that was not compared goes to the side it belongs to. -/
theorem Split.pass (h : Split key mid range small z large)
    (hpivot : ∃ pre p post, range = pre ++ p :: post ∧ post ≠ [] ∧ key p = mid) :
    (mid < key z → Pass key range small (z :: large)) ∧
      (¬ mid < key z → Pass key range (small ++ [z]) large) := by
  obtain ⟨pre, p, post, hrange, hpost, hp⟩ := hpivot
  have hmem : p ∈ range := by simp [hrange]
  constructor
  · intro hz
    refine ⟨h.perm, fun x hx y hy => ?_, by simp, fun hnil => ⟨?_, z, large, rfl, p, hmem, ?_⟩⟩
    · have hlow := h.small_lt x hx
      rcases List.mem_cons.mp hy with rfl | hy
      · exact (hlow.trans hz).le
      · exact hlow.le.trans (h.le_large y hy)
    · refine (h.rotate fun x hx => ?_).2
      have hx := h.perm.mem_iff.mpr hx
      rw [hnil, List.nil_append, List.mem_cons] at hx
      rcases hx with rfl | hx
      · exact hz.le
      · exact h.le_large x hx
    · rwa [hp]
  · intro hz
    refine ⟨by simpa using h.perm, fun x hx y hy => ?_, fun hnil => ?_, by simp⟩
    · refine le_trans ?_ (h.le_large y hy)
      rcases List.mem_append.mp hx with hx | hx
      · exact (h.small_lt x hx).le
      · exact List.mem_singleton.mp hx ▸ not_lt.mp hz
    · have heq := (h.eq_of_large_nil hnil).symm.trans hrange
      obtain ⟨init, last, rfl⟩ := (List.eq_nil_or_concat post).resolve_left hpost
      rw [List.concat_eq_append, ← List.cons_append, ← List.append_assoc] at heq
      have hsmall := (List.append_inj' heq rfl).1
      exact absurd (h.small_lt p (by simp [hsmall])) (by simp [hp])

/-- How far the first minimum is behind the head, where the head itself comes last. -/
def firstLeast (key : α → κ) (range : List α) : ℕ :=
  (range.rotate 1).findIdx fun x => ∀ y ∈ range, key x ≤ key y

theorem exists_least (key : α → κ) (hne : range ≠ []) : ∃ x ∈ range, ∀ y ∈ range, key x ≤ key y := by
  cases h : range.argmin key with
  | none => exact absurd (List.argmin_eq_none.mp h) hne
  | some x => exact ⟨x, List.argmin_mem h, fun y hy => List.le_of_mem_argmin hy h⟩

/-- After a pass that cuts nothing off the first minimum is one place nearer. -/
theorem Pass.firstLeast_lt (h : Pass key range [] right) :
    firstLeast key right < firstLeast key range := by
  obtain ⟨hrotate, z, rest, hright, y, hy, hlt⟩ := h.stalled rfl
  have hmem : ∀ x, x ∈ right ↔ x ∈ range := fun x => by rw [hrotate, List.mem_rotate]
  have hz : ¬ ∀ y ∈ range, key z ≤ key y := fun hall => absurd hlt (not_lt.mpr (hall y hy))
  obtain ⟨x, hx, hleast⟩ := exists_least key h.right_ne
  have hrest : ∃ x ∈ rest, ∀ y ∈ range, key x ≤ key y := by
    simp only [hmem] at hleast
    rw [hright, List.mem_cons] at hx
    rcases hx with rfl | hx
    · exact absurd hleast hz
    · exact ⟨x, hx, hleast⟩
  simp only [firstLeast, hmem, ← hrotate]
  rw [hright, List.findIdx_cons]
  simp [List.findIdx_append, hz, hrest]

/-- The right part of a pass is shorter than its range, or its first minimum is nearer. -/
theorem Pass.right_lex (h : Pass key range left right) :
    Prod.Lex (· < ·) (· < ·) (right.length, firstLeast key right)
      (range.length, firstLeast key range) := by
  have hlen := h.perm.length_eq
  rw [List.length_append] at hlen
  by_cases hleft : left = []
  · subst hleft
    rw [← hlen, List.length_nil, zero_add]
    exact Prod.Lex.right _ h.firstLeast_lt
  · have := List.length_pos_iff.mpr hleft
    exact Prod.Lex.left _ _ (by omega)

/-- The elements before a range are not larger than those in it or behind it, and those
in it not larger than those behind it; the element sought is in the range. -/
structure Narrowed (key : α → κ) (k : ℕ) (pre range post : List α) : Prop where
  low : ∀ x ∈ pre, ∀ y ∈ range ++ post, key x ≤ key y
  high : ∀ x ∈ range, ∀ y ∈ post, key x ≤ key y
  lower : pre.length ≤ k
  upper : k < pre.length + range.length

variable {k : ℕ} {pre post xs : List α}

theorem Narrowed.keepLeft (h : Narrowed key k pre range post) (hp : Pass key range left right)
    (hk : k < pre.length + left.length) : Narrowed key k pre left (right ++ post) := by
  have hmem : ∀ x, x ∈ left ∨ x ∈ right ↔ x ∈ range := fun x => by
    rw [← List.mem_append, hp.perm.mem_iff]
  refine ⟨fun x hx y hy => h.low x hx y ?_, fun x hx y hy => ?_, h.lower, hk⟩
  · rw [← List.append_assoc] at hy
    rwa [List.mem_append, hp.perm.mem_iff, ← List.mem_append] at hy
  · rcases List.mem_append.mp hy with hy | hy
    · exact hp.ordered x hx y hy
    · exact h.high x ((hmem x).mp (Or.inl hx)) y hy

theorem Narrowed.keepRight (h : Narrowed key k pre range post) (hp : Pass key range left right)
    (hk : pre.length + left.length ≤ k) : Narrowed key k (pre ++ left) right post := by
  have hmem : ∀ x, x ∈ left ∨ x ∈ right ↔ x ∈ range := fun x => by
    rw [← List.mem_append, hp.perm.mem_iff]
  have hlen := hp.perm.length_eq
  have hupper := h.upper
  simp only [List.length_append] at hlen
  refine ⟨fun x hx y hy => ?_, fun x hx y hy => h.high x ((hmem x).mp (Or.inr hx)) y hy,
    by simpa using hk, by simp only [List.length_append]; omega⟩
  rcases List.mem_append.mp hx with hx | hx
  · apply h.low x hx y
    rcases List.mem_append.mp hy with hy | hy
    · exact List.mem_append_left _ ((hmem y).mp (Or.inr hy))
    · exact List.mem_append_right _ hy
  · rcases List.mem_append.mp hy with hy | hy
    · exact hp.ordered x hx y hy
    · exact h.high x ((hmem x).mp (Or.inl hx)) y hy

/-- At most `k` elements are smaller than `e`, and at least `k + 1` are not larger. -/
def Selects (key : α → κ) (k : ℕ) (xs : List α) (e : α) : Prop :=
  xs.countP (fun x => key x < key e) ≤ k ∧ k + 1 ≤ xs.countP fun x => key x ≤ key e

theorem Narrowed.selects (h : Narrowed key k pre [z] post)
    (hperm : (pre ++ z :: post).Perm xs) : Selects key k xs z := by
  have hlower := h.lower
  have hupper := h.upper
  simp only [List.length_singleton] at hupper
  obtain rfl : k = pre.length := by omega
  constructor
  · rw [← hperm.countP_eq, List.countP_append, List.countP_cons_of_neg (by simp)]
    have hpost : post.countP (fun x => key x < key z) = 0 := by
      rw [List.countP_eq_zero]
      intro y hy
      simpa using h.high z (by simp) y hy
    have := List.countP_le_length (p := fun x => decide (key x < key z)) (l := pre)
    omega
  · rw [← hperm.countP_eq, List.countP_append, List.countP_cons_of_pos (by simp)]
    have hpre : pre.countP (fun x => key x ≤ key z) = pre.length := by
      rw [List.countP_eq_length]
      intro x hx
      simpa using h.low x hx z (by simp)
    omega

theorem Selects.key_eq (h : Selects key k xs x) (hz : z ∈ xs)
    (hrank : (xs.countP fun y => key y < key z) = k) : key x = key z := by
  apply le_antisymm
  · by_contra hlt
    obtain ⟨before, after, rfl⟩ := List.append_of_mem hz
    have hbefore := List.countP_mono_left (l := before) (p := fun y => key y < key z)
      (q := fun y => key y < key x) fun y _ hy => by
        simpa using (of_decide_eq_true hy).trans (not_le.mp hlt)
    have hafter := List.countP_mono_left (l := after) (p := fun y => key y < key z)
      (q := fun y => key y < key x) fun y _ hy => by
        simpa using (of_decide_eq_true hy).trans (not_le.mp hlt)
    have hless := h.1
    rw [List.countP_append, List.countP_cons_of_pos (by simpa using hlt)] at hless
    rw [List.countP_append, List.countP_cons_of_neg (by simp)] at hrank
    omega
  · by_contra hlt
    have hmono := List.countP_mono_left (l := xs) (p := fun y => key y ≤ key x)
      (q := fun y => key y < key z) fun y _ hy => by
        simpa using (of_decide_eq_true hy).trans_lt (not_le.mp hlt)
    have hmore := h.2
    omega

end Partition

section Filling

variable {α κ : Type} [LinearOrder κ]

theorem mem_take_filter {p : α → Bool} {l : List α} {k : ℕ} {x : α} :
    x ∈ (l.filter p).take k ↔
      p x ∧ ∃ between post, l = between ++ x :: post ∧ between.countP p < k := by
  induction l generalizing k with
  | nil => simp
  | cons y l ih =>
    constructor
    · intro hx
      by_cases hy : p y
      · rw [List.filter_cons_of_pos hy] at hx
        cases k with
        | zero => simp at hx
        | succ k =>
          rw [List.take_succ_cons, List.mem_cons] at hx
          rcases hx with rfl | hx
          · exact ⟨hy, [], l, rfl, by simp⟩
          · obtain ⟨hpx, between, post, rfl, hcount⟩ := ih.mp hx
            exact ⟨hpx, y :: between, post, rfl, by rw [List.countP_cons_of_pos hy]; omega⟩
      · rw [List.filter_cons_of_neg hy] at hx
        obtain ⟨hpx, between, post, rfl, hcount⟩ := ih.mp hx
        exact ⟨hpx, y :: between, post, rfl, by rwa [List.countP_cons_of_neg hy]⟩
    · rintro ⟨hpx, between, post, hsplit, hcount⟩
      cases between with
      | nil =>
        obtain ⟨rfl, rfl⟩ := List.cons.inj hsplit
        obtain ⟨k, rfl⟩ : ∃ j, k = j + 1 := ⟨k - 1, by rw [List.countP_nil] at hcount; omega⟩
        rw [List.filter_cons_of_pos hpx, List.take_succ_cons]
        exact List.mem_cons_self
      | cons z between =>
        obtain ⟨rfl, rfl⟩ := List.cons.inj hsplit
        by_cases hy : p y
        · rw [List.countP_cons_of_pos hy] at hcount
          obtain ⟨k, rfl⟩ : ∃ j, k = j + 1 := ⟨k - 1, by omega⟩
          rw [List.filter_cons_of_pos hy, List.take_succ_cons]
          exact List.mem_cons_of_mem _ (ih.mpr ⟨hpx, between, post, rfl, by omega⟩)
        · rw [List.countP_cons_of_neg hy] at hcount
          rw [List.filter_cons_of_neg hy]
          exact ih.mpr ⟨hpx, between, post, rfl, hcount⟩

def notAfter (key : α → κ) (pivot x : α) : Bool := key x ≤ key pivot

/-- The pivot, and behind it the first `k` elements after the head that are not larger. -/
def pickNotAfter (key : α → κ) (pivot : α) (k : ℕ) (l : List α) : List α :=
  pivot :: (l.tail.filter (notAfter key pivot)).take k

/-- So many different elements, and no smaller one is left out. -/
structure Least (key : α → κ) (l : List α) (m : ℕ) (chosen : List α) : Prop where
  length : chosen.length = m
  nodup : chosen.Nodup
  least : ∀ x ∈ l, x ∉ chosen → ∀ y ∈ chosen, ¬ key x < key y

/-- Behind the head, at least `k` elements that are not larger come before the pivot unless it
is the head, and fewer than `k` before each smaller one, which is not the head. -/
structure Fits (key : α → κ) (l : List α) (k : ℕ) (pivot : α) : Prop where
  once : ∀ pre post, l = pre ++ pivot :: post →
    pre = [] ∨ k ≤ pre.tail.countP (notAfter key pivot)
  smaller : ∀ pre x post, l = pre ++ x :: post → key x < key pivot →
    pre ≠ [] ∧ pre.tail.countP (notAfter key pivot) < k

variable {key : α → κ} {l : List α} {k : ℕ} {pivot : α}

theorem notAfter_iff {x : α} : notAfter key pivot x = true ↔ key x ≤ key pivot := by
  rw [notAfter, decide_eq_true_iff]

theorem split_unique {pre pre' post post' : List α} {x : α} (hnodup : (pre ++ x :: post).Nodup)
    (h : pre ++ x :: post = pre' ++ x :: post') : pre = pre' := by
  obtain ⟨_, hpost, hpre⟩ := List.nodup_append.mp hnodup
  have hpost' := (List.nodup_cons.mp hpost).1
  have hpre' : x ∉ pre := fun hx => hpre x hx x List.mem_cons_self rfl
  exact ((List.append_cons_inj_of_notMem hpre' hpost').mp h).1

theorem mem_pickNotAfter {x : α} : x ∈ pickNotAfter key pivot k l ↔ x = pivot ∨
    key x ≤ key pivot ∧ ∃ between post, l.tail = between ++ x :: post ∧
      between.countP (notAfter key pivot) < k := by
  rw [pickNotAfter, List.mem_cons, mem_take_filter, notAfter_iff]

theorem key_le_of_mem_pickNotAfter {x : α} (hx : x ∈ pickNotAfter key pivot k l) :
    key x ≤ key pivot := by
  rcases mem_pickNotAfter.mp hx with rfl | ⟨hle, _⟩
  · exact le_rfl
  · exact hle

theorem mem_of_mem_pickNotAfter (hpivot : pivot ∈ l) {x : α} (hx : x ∈ pickNotAfter key pivot k l) :
    x ∈ l := by
  rcases mem_pickNotAfter.mp hx with rfl | ⟨_, between, post, htail, _⟩
  · exact hpivot
  · apply List.mem_of_mem_tail
    rw [htail]
    simp

/-- The pivot and the elements behind the head that are not larger are the least `k + 1` of all
exactly if the pivot fits its place. -/
theorem pickNotAfter_least_iff (hnodup : l.Nodup) (hpivot : pivot ∈ l)
    (hrank : k + 1 ≤ l.countP (notAfter key pivot)) :
    Least key l (k + 1) (pickNotAfter key pivot k l) ↔ Fits key l k pivot := by
  constructor
  · intro h
    have hnot : pivot ∉ (l.tail.filter (notAfter key pivot)).take k :=
      (List.nodup_cons.mp h.nodup).1
    constructor
    · intro pre post hsplit
      cases pre with
      | nil => exact Or.inl rfl
      | cons first between =>
        right
        by_contra hcount
        apply hnot
        apply mem_take_filter.mpr
        exact ⟨notAfter_iff.mpr le_rfl, between, post, by rw [hsplit]; rfl, by simpa using hcount⟩
    · intro pre x post hsplit hlt
      have hmem : x ∈ pickNotAfter key pivot k l := by
        by_contra hx
        exact h.least x (by simp [hsplit]) hx pivot List.mem_cons_self hlt
      rcases mem_pickNotAfter.mp hmem with rfl | ⟨_, between, post', htail, hcount⟩
      · exact absurd hlt (lt_irrefl _)
      · cases l with
        | nil => simp at hpivot
        | cons first rest =>
          have htail' : rest = between ++ x :: post' := htail
          have hpre : pre = first :: between := by
            rw [hsplit] at hnodup
            apply split_unique hnodup
            rw [← hsplit, htail', List.cons_append]
          subst hpre
          exact ⟨by simp, hcount⟩
  · intro h
    obtain ⟨pre, post, hsplit⟩ := List.append_of_mem hpivot
    have hnot : pivot ∉ (l.tail.filter (notAfter key pivot)).take k := by
      intro hmem
      obtain ⟨_, between, post', htail, hcount⟩ := mem_take_filter.mp hmem
      cases l with
      | nil => simp at hpivot
      | cons first rest =>
        have htail' : rest = between ++ pivot :: post' := htail
        rcases h.once (first :: between) post' (by rw [htail']; rfl) with hnil | hle
        · cases hnil
        · exact absurd hcount (not_lt.mpr hle)
    constructor
    · have hmany : k ≤ (l.tail.filter (notAfter key pivot)).length := by
        rw [← List.countP_eq_length_filter]
        rcases h.once pre post hsplit with rfl | hle
        · rw [hsplit, List.nil_append, List.countP_cons_of_pos (notAfter_iff.mpr le_rfl)] at hrank
          rw [hsplit]
          exact Nat.succ_le_succ_iff.mp hrank
        · cases pre with
          | nil => simp at hle; omega
          | cons first between =>
            rw [hsplit, List.cons_append, List.tail_cons, List.countP_append]
            exact hle.trans (Nat.le_add_right _ _)
      rw [pickNotAfter, List.length_cons, List.length_take, min_eq_left hmany]
    · apply List.nodup_cons.mpr
      exact ⟨hnot, ((hnodup.sublist (List.tail_sublist l)).filter _).sublist (List.take_sublist _ _)⟩
    · intro x hx hout y hy hlt
      have hlt' : key x < key pivot := hlt.trans_le (key_le_of_mem_pickNotAfter hy)
      obtain ⟨pre', post', hsplit'⟩ := List.append_of_mem hx
      obtain ⟨hne, hcount⟩ := h.smaller pre' x post' hsplit' hlt'
      apply hout
      apply mem_pickNotAfter.mpr
      right
      refine ⟨hlt'.le, pre'.tail, post', ?_, hcount⟩
      rw [hsplit', List.tail_append_of_ne_nil hne]

section Distinct

variable {pre post : List α}

theorem countP_notAfter (hinj : ∀ x ∈ l, key x = key pivot → x = pivot) {t : List α}
    (hsub : ∀ x ∈ t, x ∈ l) (hnot : pivot ∉ t) :
    t.countP (notAfter key pivot) = t.countP fun x => key x < key pivot := by
  apply List.countP_congr
  intro x hx
  rw [notAfter_iff, decide_eq_true_iff]
  constructor
  · intro hle
    apply lt_of_le_of_ne hle
    intro heq
    exact hnot (hinj x (hsub x hx) heq ▸ hx)
  · exact le_of_lt

theorem fits_head (hnodup : (pivot :: post).Nodup)
    (hinj : ∀ x ∈ pivot :: post, key x = key pivot → x = pivot)
    (hrank : ((pivot :: post).countP fun x => key x < key pivot) = k) :
    Fits key (pivot :: post) k pivot := by
  constructor
  · intro pre' post' hsplit
    have hnodup' : ([] ++ pivot :: post).Nodup := hnodup
    exact Or.inl (split_unique hnodup' hsplit).symm
  · intro pre' x post' hsplit hlt
    cases pre' with
    | nil =>
      obtain ⟨rfl, -⟩ := List.cons.inj hsplit
      exact absurd hlt (lt_irrefl _)
    | cons y between =>
      obtain ⟨rfl, rfl⟩ := List.cons.inj hsplit
      have hbetween : pivot ∉ between :=
        fun hx => (List.nodup_cons.mp hnodup).1 (List.mem_append_left _ hx)
      have hsub : ∀ z ∈ between, z ∈ pivot :: (between ++ x :: post') :=
        fun z hz => List.mem_cons_of_mem _ (List.mem_append_left _ hz)
      refine ⟨by simp, ?_⟩
      rw [List.tail_cons, countP_notAfter hinj hsub hbetween, ← hrank]
      simp [hlt]

/-- Behind the head, a pivot that is told from the others by its key fits exactly if all that
are smaller stand between the head and it. -/
theorem fits_behind_iff {first : α} {between : List α}
    (hnodup : (first :: between ++ pivot :: post).Nodup)
    (hinj : ∀ x ∈ first :: between ++ pivot :: post, key x = key pivot → x = pivot)
    (hrank : ((first :: between ++ pivot :: post).countP fun x => key x < key pivot) = k) :
    Fits key (first :: between ++ pivot :: post) k pivot ↔
      ∀ x ∈ first :: between ++ pivot :: post, key x < key pivot → x ∈ between := by
  have hpivot : pivot ∉ first :: between :=
    fun hx => (List.nodup_append.mp hnodup).2.2 _ hx _ List.mem_cons_self rfl
  have hcount := countP_notAfter hinj (t := between) (by simp; tauto)
    (fun hx => hpivot (List.mem_cons_of_mem _ hx))
  have hsum : [first].countP (fun x => key x < key pivot) +
      between.countP (fun x => key x < key pivot) + post.countP (fun x => key x < key pivot) = k := by
    rw [← hrank, List.countP_append, List.countP_cons_of_neg (a := pivot)
      (by simp), ← List.countP_append, List.singleton_append]
  constructor
  · intro h x hx hlt
    have hle := (h.once (first :: between) post rfl).resolve_left (by simp)
    rw [List.tail_cons, hcount] at hle
    have hfirst : [first].countP (fun x => key x < key pivot) = 0 := by omega
    have hpost : post.countP (fun x => key x < key pivot) = 0 := by omega
    rw [List.countP_eq_zero] at hfirst hpost
    simp only [List.cons_append, List.mem_cons, List.mem_append] at hx
    rcases hx with rfl | hx | rfl | hx
    · exact absurd hlt (by simpa using hfirst x)
    · exact hx
    · exact absurd hlt (lt_irrefl _)
    · exact absurd hlt (by simpa using hpost x hx)
  · intro hall
    have hdisjoint := (List.nodup_append.mp hnodup).2.2
    have hfirst : [first].countP (fun x => key x < key pivot) = 0 := by
      rw [List.countP_eq_zero]
      intro x hx hlt
      obtain rfl := List.mem_singleton.mp hx
      exact (List.nodup_cons.mp (List.nodup_append.mp hnodup).1).1
        (hall x (by simp) (of_decide_eq_true hlt))
    have hpost : post.countP (fun x => key x < key pivot) = 0 := by
      rw [List.countP_eq_zero]
      intro x hx hlt
      have hbetween := hall x (by simp [hx]) (of_decide_eq_true hlt)
      exact hdisjoint x (List.mem_cons_of_mem _ hbetween) x (List.mem_cons_of_mem _ hx) rfl
    constructor
    · intro pre' post' hsplit
      obtain rfl := split_unique hnodup hsplit
      right
      rw [List.tail_cons, hcount]
      omega
    · intro pre' x post' hsplit hlt
      have hx : x ∈ between := hall x (by simp [hsplit]) hlt
      obtain ⟨before, after, rfl⟩ := List.append_of_mem hx
      have hsplit' : pre' ++ x :: post' = (first :: before) ++ x :: (after ++ pivot :: post) := by
        rw [← hsplit]
        simp
      obtain rfl := split_unique (by rwa [← hsplit]) hsplit'
      refine ⟨by simp, ?_⟩
      rw [List.tail_cons, countP_notAfter hinj (by simp; tauto)
        (fun hx => hpivot (by simp [hx])), ← hsum, hfirst, hpost]
      simp [hlt]

end Distinct

end Filling

end VirtualMemorySimulation.Selection
