import Mathlib.Data.Prod.Lex
import VirtualMemorySimulation.Foundations.Selection

/-!
# Selecting a thread by its start time

`quick_select` narrows an array of control blocks down to the one that has `k`
others before it in the order of `initial_start_time`. It copies control blocks
as a whole and looks at nothing else of them, so their type is left open. The
array comes from the 8 MB that `my_allocate` hands out, so no index overflows.
-/

namespace VirtualMemorySimulation.Scheduler.QuickSelect

open Execution Selection

structure Timeval where
  tvSec : ℤ
  tvUsec : ℤ
  deriving DecidableEq, Repr

/-- The macro `timercmp`, whose comparison is an argument. -/
def timercmp (a b : Timeval) (cmp : ℤ → ℤ → Bool) : Bool :=
  if a.tvSec = b.tvSec then cmp a.tvUsec b.tvUsec else cmp a.tvSec b.tvSec

def Timeval.key (a : Timeval) : ℤ ×ₗ ℤ := toLex (a.tvSec, a.tvUsec)

theorem key_injective {a b : Timeval} (h : a.key = b.key) : a = b := by
  cases a
  cases b
  simpa [Timeval.key] using h

theorem timercmp_lt (a b : Timeval) : timercmp a b (· < ·) = true ↔ a.key < b.key := by
  unfold timercmp Timeval.key
  rw [Prod.Lex.toLex_lt_toLex]
  split_ifs with h <;> simp [h]

theorem timercmp_le (a b : Timeval) : timercmp a b (· ≤ ·) = true ↔ a.key ≤ b.key := by
  unfold timercmp Timeval.key
  rw [Prod.Lex.toLex_le_toLex]
  split_ifs with h
  · simp [h]
  · simp [h, lt_iff_le_and_ne]

theorem timercmp_ge (a b : Timeval) : timercmp a b (· ≥ ·) = true ↔ b.key ≤ a.key := by
  rw [← timercmp_le]
  unfold timercmp
  simp only [eq_comm, ge_iff_le]

theorem timercmp_gt (a b : Timeval) : timercmp a b (· > ·) = true ↔ b.key < a.key := by
  rw [← timercmp_lt]
  unfold timercmp
  simp only [eq_comm, gt_iff_lt]

variable {τ : Type} (initialStartTime : τ → Timeval)

/-- The inner loop: larger values change places with the last one not yet seen. -/
def partitionLoop (mid : τ) : ℕ → ℤ → ℤ → List τ → Except Stop (ℤ × List τ)
  | 0, _, _, _ => .error .outOfFuel
  | fuel + 1, r, w, tcbArray =>
    if r < w then do
      let curr ← readAt tcbArray r
      if timercmp (initialStartTime curr) (initialStartTime mid) (· ≥ ·) then
        let tmp ← readAt tcbArray w
        let tcbArray ← writeAt tcbArray w curr
        let tcbArray ← writeAt tcbArray r tmp
        partitionLoop mid fuel r (w - 1) tcbArray
      else partitionLoop mid fuel (r + 1) w tcbArray
    else .ok (r, tcbArray)

/-- The outer loop: the range that the element sought lies in, down to one element. -/
def quickSelectLoop (k : ℤ) : ℕ → ℤ → ℤ → List τ → Except Stop (List τ)
  | 0, _, _, _ => .error .outOfFuel
  | fuel + 1, fromIdx, toIdx, tcbArray =>
    if fromIdx < toIdx then do
      let mid ← readAt tcbArray ((fromIdx + toIdx).tdiv 2)
      let (r, tcbArray) ← partitionLoop initialStartTime mid fuel fromIdx toIdx tcbArray
      let curr ← readAt tcbArray r
      let r := if timercmp (initialStartTime curr) (initialStartTime mid) (· > ·) then r - 1 else r
      if k ≤ r then quickSelectLoop k fuel fromIdx r tcbArray
      else quickSelectLoop k fuel (r + 1) toIdx tcbArray
    else .ok tcbArray

/-- `quick_select`: the control block it returns and the array it leaves. -/
def quickSelect (tcbArray : List τ) (len k : ℤ) (fuel : ℕ) : Except Stop (τ × List τ) := do
  let tcbArray ← quickSelectLoop initialStartTime k fuel 0 (len - 1) tcbArray
  let selected ← readAt tcbArray k
  .ok (selected, tcbArray)

def startKey (x : τ) : ℤ ×ₗ ℤ := (initialStartTime x).key

section Refinement

variable {initialStartTime} {mid z : τ} {range small large : List τ}

/-- The inner loop makes a split of its range and leaves the rest of the array alone. -/
theorem partitionLoop_splits
    (h : Split (startKey initialStartTime) (startKey initialStartTime mid) range small z large)
    {r w : ℤ} (pre post : List τ) (hr : r = pre.length) (hw : w + 1 = pre.length + range.length) :
    Settles (fun n => partitionLoop initialStartTime mid n r w (pre ++ range ++ post))
      (.ok (pre.length + small.length, pre ++ small ++ z :: large ++ post)) := by
  induction h generalizing r w pre post with
  | @stop z =>
    refine Settles.succ rfl (fun n => ?_) (Settles.const _)
    simp only [List.length_singleton] at hw
    rw [partitionLoop, if_neg (by omega)]
    simp [hr]
  | @skip x range small z large hx hne _ ih =>
    have hlen := List.length_pos_iff.mpr hne
    simp only [List.length_cons, Nat.cast_add, Nat.cast_one] at hw
    have hnot : ¬ timercmp (initialStartTime x) (initialStartTime mid) (· ≥ ·) = true := by
      rw [timercmp_ge]
      exact not_le.mpr hx
    have hrest := ih (r := r + 1) (w := w) (pre ++ [x]) post (by simp [hr]) (by simp; omega)
    have harray : pre ++ x :: range ++ post = pre ++ [x] ++ range ++ post := by simp
    have hresult : ((pre ++ [x]).length + small.length : ℤ) = pre.length + (x :: small).length := by
      simp
      ring
    have harray' : pre ++ [x] ++ small ++ z :: large ++ post =
        pre ++ x :: small ++ z :: large ++ post := by simp
    rw [hresult, harray'] at hrest
    refine Settles.succ rfl (fun n => ?_) hrest
    rw [partitionLoop, if_pos (by omega), harray, List.append_assoc, List.append_assoc,
      List.singleton_append, readAt_append _ _ _ hr, ok_bind, if_neg hnot]
  | @swap x y range small z large hx _ ih =>
    simp only [List.length_cons, List.length_append, List.length_nil, Nat.cast_add, Nat.cast_one,
      Nat.cast_zero] at hw
    have hge : timercmp (initialStartTime x) (initialStartTime mid) (· ≥ ·) = true :=
      (timercmp_ge _ _).mpr hx
    have hrest := ih (r := r) (w := w - 1) pre (x :: post) hr (by simp; omega)
    have harray : pre ++ small ++ z :: large ++ x :: post =
        pre ++ small ++ z :: (large ++ [x]) ++ post := by simp
    have hlast : pre ++ x :: (range ++ [y]) ++ post = (pre ++ x :: range) ++ y :: post := by simp
    have hswapped : (pre ++ x :: range) ++ x :: post = pre ++ x :: (range ++ x :: post) := by simp
    rw [harray] at hrest
    refine Settles.succ rfl (fun n => ?_) hrest
    rw [partitionLoop, if_pos (by omega), List.append_assoc, List.cons_append,
      readAt_append _ _ _ hr, ok_bind, if_pos hge, ← List.cons_append, ← List.append_assoc, hlast,
      readAt_append _ _ _ (by simp; omega), ok_bind, writeAt_append _ _ _ _ (by simp; omega),
      ok_bind, hswapped, writeAt_append _ _ _ _ hr, ok_bind]
    simp

/-- What is left to do after a pass of the outer loop. -/
def Resumes (initialStartTime : τ → Timeval) (k : ℕ) (pre left right post : List τ)
    (res : Except Stop (List τ)) : Prop :=
  (k < pre.length + left.length → Settles (fun n => quickSelectLoop initialStartTime k n pre.length
    (pre.length + left.length - 1) (pre ++ left ++ (right ++ post))) res) ∧
  (pre.length + left.length ≤ k → Settles (fun n => quickSelectLoop initialStartTime k n
    (pre.length + left.length) (pre.length + left.length + right.length - 1)
    (pre ++ left ++ right ++ post)) res)

theorem quickSelectLoop_cut {k : ℕ} {pre post left right : List τ} {r : ℤ}
    {res : Except Stop (List τ)} (h : Resumes initialStartTime k pre left right post res)
    (hlen : left.length + right.length = range.length) (hr : r + 1 = pre.length + left.length) :
    Settles (fun n => if (k : ℤ) ≤ r then
        quickSelectLoop initialStartTime k n pre.length r (pre ++ left ++ right ++ post)
      else quickSelectLoop initialStartTime k n (r + 1) (pre.length + range.length - 1)
        (pre ++ left ++ right ++ post)) res := by
  by_cases hk : (k : ℤ) ≤ r
  · simp only [if_pos hk]
    have hleft := h.1 (by omega)
    rwa [← List.append_assoc, show (pre.length + left.length - 1 : ℤ) = r by omega] at hleft
  · simp only [if_neg hk]
    have hright := h.2 (by omega)
    rwa [← hr, show (r + 1 + right.length - 1 : ℤ) = pre.length + range.length - 1 by omega]
      at hright

theorem quickSelectLoop_pass {k : ℕ} (pre post : List τ) (hlen : 1 < range.length) :
    ∃ left right, Pass (startKey initialStartTime) range left right ∧
      ∀ res, Resumes initialStartTime k pre left right post res →
        Settles (fun n => quickSelectLoop initialStartTime k n pre.length
          (pre.length + range.length - 1) (pre ++ range ++ post)) res := by
  obtain ⟨before, mid, after, hrange, hbefore⟩ : ∃ before mid after,
      range = before ++ mid :: after ∧ before.length = (range.length - 1) / 2 :=
    ⟨range.take ((range.length - 1) / 2), range[(range.length - 1) / 2],
      range.drop ((range.length - 1) / 2 + 1), by simp, by simp; omega⟩
  have hafter : after ≠ [] := by
    rintro rfl
    have := congrArg List.length hrange
    simp at this
    omega
  have hne : range ≠ [] := List.length_pos_iff.mp (by omega)
  obtain ⟨small, z, large, hsplit⟩ : ∃ small z large, Split (startKey initialStartTime)
      (startKey initialStartTime mid) range small z large := Split.exists hne
  obtain ⟨hgt, hle⟩ := hsplit.pass ⟨before, mid, after, hrange, hafter, rfl⟩
  have hsize := hsplit.perm.length_eq
  simp only [List.length_append, List.length_cons] at hsize
  have hstep : ∀ n, quickSelectLoop initialStartTime k (n + 1) pre.length
      (pre.length + range.length - 1) (pre ++ range ++ post) =
        partitionLoop initialStartTime mid n pre.length (pre.length + range.length - 1)
          (pre ++ range ++ post) >>= _ := fun n => by
    rw [quickSelectLoop, if_pos (by omega),
      show pre ++ range ++ post = (pre ++ before) ++ mid :: (after ++ post) by simp [hrange],
      readAt_append _ _ _ (by
        rw [Int.tdiv_eq_ediv_of_nonneg (by omega), List.length_append, hbefore]
        omega), ok_bind]
  have hinner := partitionLoop_splits hsplit pre post rfl (w := pre.length + range.length - 1)
    (by omega)
  have hread : readAt (pre ++ small ++ z :: large ++ post) (pre.length + small.length) = .ok z := by
    rw [List.append_assoc, List.cons_append]
    exact readAt_append _ _ _ (by simp)
  by_cases hz : startKey initialStartTime mid < startKey initialStartTime z
  · refine ⟨small, z :: large, hgt hz, fun res hres => ?_⟩
    refine Settles.succ rfl hstep (hinner.bind ?_)
    simp only [hread, ok_bind, (timercmp_gt _ _).mpr hz, if_true]
    exact quickSelectLoop_cut hres (by simpa using hsize) (by ring)
  · refine ⟨small ++ [z], large, hle hz, fun res hres => ?_⟩
    refine Settles.succ rfl hstep (hinner.bind ?_)
    have hnot : ¬ timercmp (initialStartTime z) (initialStartTime mid) (· > ·) = true :=
      mt (timercmp_gt _ _).mp hz
    simp only [hread, ok_bind, if_neg hnot]
    rw [show pre ++ small ++ z :: large ++ post = pre ++ (small ++ [z]) ++ large ++ post by simp]
    exact quickSelectLoop_cut hres (by simp; omega) (by simp; ring)

/-- The outer loop ends with the range down to one element. Each pass makes the range
shorter or brings its first minimum nearer. -/
theorem quickSelectLoop_narrows {k : ℕ} {pre range post : List τ}
    (h : Narrowed (startKey initialStartTime) k pre range post) :
    ∃ before selected after, (before ++ selected :: after).Perm (pre ++ range ++ post) ∧
      Narrowed (startKey initialStartTime) k before [selected] after ∧
      Settles (fun n => quickSelectLoop initialStartTime k n pre.length
        (pre.length + range.length - 1) (pre ++ range ++ post))
        (.ok (before ++ selected :: after)) := by
  have hlower := h.lower
  have hupper := h.upper
  by_cases hlen : range.length = 1
  · obtain ⟨selected, rfl⟩ := List.length_eq_one_iff.mp hlen
    refine ⟨pre, selected, post, by simp, h, Settles.succ rfl (fun n => ?_) (Settles.const _)⟩
    rw [quickSelectLoop, if_neg (by simp), List.append_assoc]
    rfl
  · obtain ⟨left, right, hpass, hresumes⟩ :=
      quickSelectLoop_pass (k := k) pre post (by omega : 1 < range.length)
    have hsize := hpass.perm.length_eq
    have hright := List.length_pos_iff.mpr hpass.right_ne
    rw [List.length_append] at hsize
    have hperm : (pre ++ (left ++ right) ++ post).Perm (pre ++ range ++ post) :=
      (hpass.perm.append_left pre).append_right post
    by_cases hk : k < pre.length + left.length
    · have hshorter : left.length < range.length := by omega
      obtain ⟨before, selected, after, hperm', hnarrowed, hsettles⟩ :=
        quickSelectLoop_narrows (h.keepLeft hpass hk)
      refine ⟨before, selected, after, hperm'.trans (by simpa using hperm), hnarrowed,
        hresumes _ ⟨fun _ => hsettles, fun hle => absurd hk (by omega)⟩⟩
    · obtain ⟨before, selected, after, hperm', hnarrowed, hsettles⟩ :=
        quickSelectLoop_narrows (h.keepRight hpass (by omega))
      refine ⟨before, selected, after, hperm'.trans (by simpa using hperm), hnarrowed,
        hresumes _ ⟨fun hlt => absurd hlt hk, fun _ => by simpa using hsettles⟩⟩
termination_by (range.length, firstLeast (startKey initialStartTime) range)
decreasing_by
  · exact Prod.Lex.left _ _ hshorter
  · exact hpass.right_lex

end Refinement

theorem quickSelect_returns (tcbArray : List τ) {k : ℕ} (hlen : k < tcbArray.length) :
    ∃ before selected after, (before ++ selected :: after).Perm tcbArray ∧
      Selects (startKey initialStartTime) k tcbArray selected ∧
      Settles (quickSelect initialStartTime tcbArray tcbArray.length k)
        (.ok (selected, before ++ selected :: after)) := by
  have hstart : Narrowed (startKey initialStartTime) k [] tcbArray [] :=
    ⟨by simp, by simp, by simp, by simpa using hlen⟩
  obtain ⟨before, selected, after, hperm, hnarrowed, hsettles⟩ := quickSelectLoop_narrows hstart
  simp only [List.nil_append, List.append_nil] at hperm
  have hat : k = before.length := by
    have hlower := hnarrowed.lower
    have hupper := hnarrowed.upper
    simp only [List.length_singleton] at hupper
    omega
  refine ⟨before, selected, after, hperm, hnarrowed.selects hperm, ?_⟩
  have hloop : Settles (fun n => quickSelectLoop initialStartTime k n 0 (tcbArray.length - 1)
      tcbArray) (.ok (before ++ selected :: after)) := by simpa using hsettles
  refine hloop.bind ((Settles.const _).congr fun n => ?_)
  rw [readAt_append _ _ _ (by rw [hat]), ok_bind]

/-- `quick_select` ends without leaving the array, permutes it, and returns an element that
at most `k` others are before and that at least `k + 1` are not after. -/
theorem quickSelect_selects (tcbArray : List τ) {k : ℤ} (hk : 0 ≤ k) (hlen : k < tcbArray.length) :
    ∃ selected sorted, Settles (quickSelect initialStartTime tcbArray tcbArray.length k)
        (.ok (selected, sorted)) ∧ sorted.Perm tcbArray ∧
      (tcbArray.countP fun x =>
        timercmp (initialStartTime x) (initialStartTime selected) (· < ·)) ≤ k ∧
      k + 1 ≤ tcbArray.countP fun x =>
        timercmp (initialStartTime x) (initialStartTime selected) (· ≤ ·) := by
  lift k to ℕ using hk
  obtain ⟨before, selected, after, hperm, ⟨hless, hmore⟩, hsettles⟩ :=
    quickSelect_returns initialStartTime tcbArray (by simpa using hlen)
  refine ⟨selected, before ++ selected :: after, hsettles, hperm, ?_, ?_⟩
  · have hcount : (tcbArray.countP fun x => timercmp (initialStartTime x)
        (initialStartTime selected) (· < ·)) = tcbArray.countP fun x =>
          startKey initialStartTime x < startKey initialStartTime selected :=
      List.countP_congr fun x _ => (timercmp_lt _ _).trans decide_eq_true_iff.symm
    rw [hcount]
    exact_mod_cast hless
  · have hcount : (tcbArray.countP fun x => timercmp (initialStartTime x)
        (initialStartTime selected) (· ≤ ·)) = tcbArray.countP fun x =>
          startKey initialStartTime x ≤ startKey initialStartTime selected :=
      List.countP_congr fun x _ => (timercmp_le _ _).trans decide_eq_true_iff.symm
    rw [hcount]
    exact_mod_cast hmore

theorem quickSelect_selects_three :
    ∃ selected sorted, Settles (quickSelect id [⟨2, 0⟩, ⟨1, 5⟩, ⟨2, 0⟩] (3 : ℕ) 1)
        (.ok (selected, sorted)) ∧ sorted.Perm [⟨2, 0⟩, ⟨1, 5⟩, ⟨2, 0⟩] ∧
      ([⟨2, 0⟩, ⟨1, 5⟩, ⟨2, 0⟩].countP fun x => timercmp x selected (· < ·) : ℤ) ≤ 1 ∧
      (1 + 1 : ℤ) ≤ [⟨2, 0⟩, ⟨1, 5⟩, ⟨2, 0⟩].countP fun x => timercmp x selected (· ≤ ·) :=
  quickSelect_selects id [⟨2, 0⟩, ⟨1, 5⟩, ⟨2, 0⟩] (by decide) (by decide)

end VirtualMemorySimulation.Scheduler.QuickSelect
