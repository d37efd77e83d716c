import VirtualMemorySimulation.Scheduler.ChangePriority
import VirtualMemorySimulation.Scheduler.QuickSelect

/-!
# Choosing the oldest threads

`scheduler_maintenance` copies the scheduled control blocks, level after level, and asks
`quick_select` for the last one of those to be promoted. Behind it come the copies that
have not started later, in the order of the levels; but the loop over them begins with
the second copy, and it may come to the selected one again. The allocations are taken to
succeed, and the size of `oldest_tcb_array` is an argument.
-/

namespace VirtualMemorySimulation.Scheduler

open Execution LinkedQueue Selection QuickSelect

/-- What is read of a copied control block. -/
structure TcbCopy where
  tid : ℕ
  initialStartTime : Timeval
  deriving DecidableEq, Repr

/-- `*tcb_node`, with the start times of the control blocks. -/
def State.copy {σ : Type} (s : State σ) (initialStartTime : TcbPtr → Timeval) (p : TcbPtr) :
    TcbCopy := ⟨(s.tcbs p).tid, initialStartTime p⟩

def forEachScheduled {β : Type} (visit : β → TcbPtr → Except Stop β) (fuel : ℕ) (L : TcbLinks) :
    List ℤ → β → Except Stop β
  | [], b => .ok b
  | i :: levels, b => do
    let b ← Links.forEach L.next visit fuel (L.queue (.level i)).head b
    forEachScheduled visit fuel L levels b

def getNumScheduledTcb (fuel : ℕ) (s : State TcbLinks) : Except Stop ℕ :=
  if s.scheduler then
    forEachScheduled (fun count _ => .ok (count + 1)) fuel s.queues [0, 1, 2] 0
  else .error .nullDereference

def foldMlpqToArray (initialStartTime : TcbPtr → Timeval) (fuel : ℕ) (s : State TcbLinks) :
    Except Stop (List TcbCopy) := do
  let numTcb ← getNumScheduledTcb fuel s
  forEachScheduled (fun tcbArray p => fillNext numTcb tcbArray (s.copy initialStartTime p)) fuel
    s.queues [0, 1, 2] []

/-- The loop that fills `oldest_tcb_array` behind its first entry. -/
def oldestLoop (tcbArray : List TcbCopy) (numScheduled : ℤ) (size : ℕ) :
    ℕ → ℤ → List TcbCopy → Except Stop (List TcbCopy)
  | 0, _, _ => .error .outOfFuel
  | fuel + 1, i, oldest =>
    if i < numScheduled ∧ oldest.length < size then do
      let tcb ← readAt tcbArray i
      let first ← readAt oldest 0
      if timercmp tcb.initialStartTime first.initialStartTime (· ≤ ·) then do
        let oldest ← fillNext size oldest tcb
        oldestLoop tcbArray numScheduled size fuel (i + 1) oldest
      else oldestLoop tcbArray numScheduled size fuel (i + 1) oldest
    else .ok oldest

/-- `scheduler_maintenance` up to the change of priorities: the entries of `oldest_tcb_array`
that it has written. -/
def oldestTcbArray (initialStartTime : TcbPtr → Timeval) (size fuel : ℕ) (s : State TcbLinks) :
    Except Stop (List TcbCopy) := do
  let tcbArray ← foldMlpqToArray initialStartTime fuel s
  let numScheduled ← getNumScheduledTcb fuel s
  -- `quick_select` permutes a copy of the array, which is given back
  let (oldestTcb, _) ←
    quickSelect TcbCopy.initialStartTime tcbArray numScheduled (size - 1) fuel
  let oldest ← fillNext size [] oldestTcb
  oldestLoop tcbArray numScheduled size fuel 1 oldest

/-- Maintenance chooses `m` scheduled threads, so that all the entries it reads have been
written, and leaves out none that started before one of them. -/
structure ChoosesOldest (s : State TcbLinks) (initialStartTime : TcbPtr → Timeval)
    (A : ℤ → List TcbPtr) (m : ℕ) (oldest : List TcbCopy) : Prop where
  settles : Settles (fun n => oldestTcbArray initialStartTime m n s) (.ok oldest)
  written : oldest.length = m
  distinct : (oldest.map TcbCopy.tid).Nodup
  scheduled : ∀ e ∈ oldest, ∃ p ∈ A 0 ++ A 1 ++ A 2, s.copy initialStartTime p = e
  oldest : ∀ p ∈ A 0 ++ A 1 ++ A 2, (s.tcbs p).tid ∉ oldest.map TcbCopy.tid →
    ∀ e ∈ oldest, ¬ timercmp (initialStartTime p) e.initialStartTime (· < ·)

/-- The copies of the scheduled control blocks, in the order of the levels. -/
def State.copies {σ : Type} (s : State σ) (initialStartTime : TcbPtr → Timeval)
    (A : ℤ → List TcbPtr) : List TcbCopy := (A 0 ++ A 1 ++ A 2).map (s.copy initialStartTime)

section Arrays

variable {s : State TcbLinks} {A : ℤ → List TcbPtr} {initialStartTime : TcbPtr → Timeval}

theorem forEachScheduled_settles {β : Type} (visit : β → TcbPtr → Except Stop β) {L : TcbLinks}
    {levels : List ℤ} (hden : ∀ i ∈ levels, Chain L.next (L.queue (.level i)).head (A i)) (b : β) :
    Settles (fun n => forEachScheduled visit n L levels b)
      ((levels.flatMap A).foldlM visit b) := by
  induction levels generalizing b with
  | nil => exact Settles.const _
  | cons i levels ih =>
    have hlevel := (hden i (by simp)).forEach visit b
    rw [List.flatMap_cons, List.foldlM_append]
    cases hb : (A i).foldlM visit b with
    | error e =>
      rw [hb] at hlevel
      exact hlevel.bind_error
    | ok b' =>
      rw [hb] at hlevel
      exact hlevel.bind (ih (fun j hj => hden j (by simp [hj])) b')

theorem Mlpq.forEachScheduled {β : Type} (h : Mlpq s A) (visit : β → TcbPtr → Except Stop β)
    (b : β) : Settles (fun n => forEachScheduled visit n s.queues [0, 1, 2] b)
      ((A 0 ++ A 1 ++ A 2).foldlM visit b) := by
  have hmem : ∀ i ∈ [(0 : ℤ), 1, 2], 0 ≤ i ∧ i ≤ 2 := by decide
  have hlevels : [(0 : ℤ), 1, 2].flatMap A = A 0 ++ A 1 ++ A 2 := by simp
  rw [← hlevels]
  apply forEachScheduled_settles
  exact fun i hi => (h.denotes i (hmem i hi).1 (hmem i hi).2).chain

theorem foldlM_count (l : List TcbPtr) (count : ℕ) :
    l.foldlM (fun count _ => (.ok (count + 1) : Except Stop ℕ)) count = .ok (count + l.length) := by
  induction l generalizing count with
  | nil => rfl
  | cons p l ih =>
    rw [List.foldlM_cons, ok_bind, ih, List.length_cons]
    congr 1
    omega

theorem getNumScheduledTcb_settles (h : Mlpq s A) :
    Settles (fun n => getNumScheduledTcb n s) (.ok (A 0 ++ A 1 ++ A 2).length) := by
  simp only [getNumScheduledTcb, if_pos h.scheduler]
  have hcount := h.forEachScheduled (fun count _ => .ok (count + 1)) 0
  rwa [foldlM_count, zero_add] at hcount

theorem foldMlpqToArray_settles (h : Mlpq s A) (initialStartTime : TcbPtr → Timeval) :
    Settles (fun n => foldMlpqToArray initialStartTime n s)
      (.ok (s.copies initialStartTime A)) := by
  have hfill := h.forEachScheduled (fun tcbArray p => fillNext (A 0 ++ A 1 ++ A 2).length tcbArray
    (s.copy initialStartTime p)) []
  rw [foldlM_fillNext _ (by simp)] at hfill
  exact (getNumScheduledTcb_settles h).bind hfill

theorem oldestLoop_settles (pivot : TcbCopy) {size : ℕ} (pre rest acc : List TcbCopy) {i : ℤ}
    (hi : i = pre.length) (hsize : acc.length < size) :
    Settles (fun n => oldestLoop (pre ++ rest) (pre ++ rest).length size n i (pivot :: acc))
      (.ok (pivot :: (acc ++ (rest.filter (notAfter (startKey TcbCopy.initialStartTime) pivot)).take
        (size - 1 - acc.length)))) := by
  induction rest generalizing pre acc i with
  | nil =>
    refine Settles.succ rfl (fun n => ?_) (Settles.const _)
    rw [oldestLoop, if_neg (by simp [hi])]
    simp
  | cons x rest ih =>
    by_cases hfull : acc.length + 1 < size
    · have hnext : pre ++ x :: rest = (pre ++ [x]) ++ rest := by simp
      have hread : readAt (pre ++ x :: rest) i = .ok x := readAt_append pre x rest hi
      have hfirst : readAt (pivot :: acc) 0 = .ok pivot := rfl
      have hindex : i < (pre ++ x :: rest).length ∧ (pivot :: acc).length < size := by
        constructor
        · simp [hi]
        · simpa using hfull
      by_cases hle : timercmp x.initialStartTime pivot.initialStartTime (· ≤ ·) = true
      · have hpass : notAfter (startKey TcbCopy.initialStartTime) pivot x = true :=
          notAfter_iff.mpr ((timercmp_le _ _).mp hle)
        obtain ⟨k, hk⟩ : ∃ k, size - 1 - acc.length = k + 1 := ⟨size - 2 - acc.length, by omega⟩
        have hk' : size - 1 - (acc ++ [x]).length = k := by
          rw [List.length_append, List.length_singleton]
          omega
        have hrest := ih (i := i + 1) (pre ++ [x]) (acc ++ [x]) (by simp [hi]) (by simpa using hfull)
        rw [← hnext, hk', List.append_assoc, List.singleton_append] at hrest
        rw [List.filter_cons_of_pos hpass, hk, List.take_succ_cons]
        refine Settles.succ rfl (fun n => ?_) hrest
        rw [oldestLoop, if_pos hindex, hread, ok_bind, hfirst, ok_bind, if_pos hle,
          fillNext_of_lt x hindex.2, ok_bind, List.cons_append]
      · have hfail : ¬ notAfter (startKey TcbCopy.initialStartTime) pivot x = true :=
          fun hkey => hle ((timercmp_le _ _).mpr (notAfter_iff.mp hkey))
        have hrest := ih (i := i + 1) (pre ++ [x]) acc (by simp [hi]) hsize
        rw [← hnext] at hrest
        rw [List.filter_cons_of_neg hfail]
        refine Settles.succ rfl (fun n => ?_) hrest
        rw [oldestLoop, if_pos hindex, hread, ok_bind, hfirst, ok_bind, if_neg hle]
    · have hnone : size - 1 - acc.length = 0 := by omega
      refine Settles.succ rfl (fun n => ?_) (Settles.const _)
      rw [oldestLoop, if_neg (fun hindex => hfull (by simpa using hindex.2)), hnone]
      simp

/-- What `scheduler_maintenance` has chosen is the pick behind the thread that `quick_select`
returns. -/
theorem oldestTcbArray_settles (h : Mlpq s A) {m : ℕ} (hm : 1 ≤ m)
    {pivot : TcbCopy} {sorted : List TcbCopy}
    (hpivot : Settles (quickSelect TcbCopy.initialStartTime (s.copies initialStartTime A)
      (s.copies initialStartTime A).length (m - 1)) (.ok (pivot, sorted))) :
    Settles (fun n => oldestTcbArray initialStartTime m n s)
      (.ok (pickNotAfter (startKey TcbCopy.initialStartTime) pivot (m - 1)
        (s.copies initialStartTime A))) := by
  have hcount : (A 0 ++ A 1 ++ A 2).length = (s.copies initialStartTime A).length := by
    simp [State.copies]
  have hloop : Settles (fun n => oldestLoop (s.copies initialStartTime A)
      (s.copies initialStartTime A).length m n 1 [pivot])
      (.ok (pickNotAfter (startKey TcbCopy.initialStartTime) pivot (m - 1)
        (s.copies initialStartTime A))) := by
    cases hcopies : s.copies initialStartTime A with
    | nil =>
      refine Settles.succ rfl (fun n => ?_) (Settles.const _)
      rw [oldestLoop, if_neg (by simp)]
      simp [pickNotAfter]
    | cons first rest =>
      have hrest := oldestLoop_settles pivot [first] rest [] rfl hm
      simpa [pickNotAfter] using hrest
  have hfirst : fillNext m [] pivot = .ok [pivot] := fillNext_of_lt pivot hm
  apply (foldMlpqToArray_settles h initialStartTime).bind
  apply (getNumScheduledTcb_settles h).bind
  rw [hcount]
  apply hpivot.bind
  simp only [hfirst, ok_bind]
  exact hloop

end Arrays

section Choice

variable {s : State TcbLinks} {A : ℤ → List TcbPtr} {initialStartTime : TcbPtr → Timeval}
  {m : ℕ} {oldest : List TcbCopy}

theorem Mlpq.copies_tids (h : Mlpq s A) (initialStartTime : TcbPtr → Timeval) :
    ((s.copies initialStartTime A).map TcbCopy.tid).Nodup := by
  have htids : (s.copies initialStartTime A).map TcbCopy.tid =
      (A 0 ++ A 1 ++ A 2).map fun p => (s.tcbs p).tid := List.map_map
  rw [htids]
  exact h.tids

theorem Mlpq.copies_nodup (h : Mlpq s A) (initialStartTime : TcbPtr → Timeval) :
    (s.copies initialStartTime A).Nodup := (h.copies_tids initialStartTime).of_map _

theorem mem_copies {e : TcbCopy} : e ∈ s.copies initialStartTime A ↔
    ∃ p ∈ A 0 ++ A 1 ++ A 2, s.copy initialStartTime p = e := List.mem_map

theorem Mlpq.mem_of_tid (h : Mlpq s A) (hsub : ∀ e ∈ oldest, e ∈ s.copies initialStartTime A)
    {e : TcbCopy} (he : e ∈ s.copies initialStartTime A) :
    e.tid ∈ oldest.map TcbCopy.tid ↔ e ∈ oldest := by
  constructor
  · intro htid
    obtain ⟨e', he', heq⟩ := List.mem_map.mp htid
    obtain rfl := List.inj_on_of_nodup_map (h.copies_tids initialStartTime) (hsub e' he') he heq
    exact he'
  · exact List.mem_map_of_mem

theorem choosesOldest_iff_least (h : Mlpq s A)
    (hsettles : Settles (fun n => oldestTcbArray initialStartTime m n s) (.ok oldest))
    (hsub : ∀ e ∈ oldest, e ∈ s.copies initialStartTime A) :
    ChoosesOldest s initialStartTime A m oldest ↔
      Least (startKey TcbCopy.initialStartTime) (s.copies initialStartTime A) m oldest := by
  constructor
  · intro hc
    refine ⟨hc.written, hc.distinct.of_map _, fun x hx hout y hy hlt => ?_⟩
    obtain ⟨p, hp, rfl⟩ := mem_copies.mp hx
    have htid : (s.tcbs p).tid ∉ oldest.map TcbCopy.tid := mt (h.mem_of_tid hsub hx).mp hout
    exact hc.oldest p hp htid y hy ((timercmp_lt _ _).mpr hlt)
  · intro hl
    refine ⟨hsettles, hl.length, ?_, fun e he => mem_copies.mp (hsub e he), ?_⟩
    · apply List.Nodup.map_on _ hl.nodup
      intro x hx y hy heq
      exact List.inj_on_of_nodup_map (h.copies_tids initialStartTime) (hsub x hx) (hsub y hy) heq
    · intro p hp htid e he hlt
      have hcopy : s.copy initialStartTime p ∈ s.copies initialStartTime A :=
        mem_copies.mpr ⟨p, hp, rfl⟩
      have hout : s.copy initialStartTime p ∉ oldest := mt (h.mem_of_tid hsub hcopy).mpr htid
      exact hl.least _ hcopy hout e he ((timercmp_lt _ _).mp hlt)

/-- The thread that `quick_select` returns fits its place in the order of the levels. -/
def PivotFits (copies : List TcbCopy) (m : ℕ) : Prop :=
  ∃ pivot sorted,
    Settles (quickSelect TcbCopy.initialStartTime copies copies.length (m - 1))
      (.ok (pivot, sorted)) ∧
    Fits (startKey TcbCopy.initialStartTime) copies (m - 1) pivot

theorem pivotFits_iff {copies sorted : List TcbCopy} {pivot : TcbCopy}
    (hreturn : Settles (quickSelect TcbCopy.initialStartTime copies copies.length (m - 1))
      (.ok (pivot, sorted))) :
    PivotFits copies m ↔ Fits (startKey TcbCopy.initialStartTime) copies (m - 1) pivot := by
  constructor
  · rintro ⟨pivot', sorted', hreturn', hfits⟩
    obtain ⟨rfl, -⟩ := Prod.mk.inj (Except.ok.inj (hreturn.unique hreturn'))
    exact hfits
  · exact fun hfits => ⟨pivot, sorted, hreturn, hfits⟩

/-- Where one thread is to be chosen, it always fits. -/
theorem pivotFits_one {copies : List TcbCopy} (hne : copies ≠ []) : PivotFits copies 1 := by
  obtain ⟨before, pivot, after, _, ⟨hless, _⟩, hreturn⟩ :=
    quickSelect_returns TcbCopy.initialStartTime copies (List.length_pos_iff.mpr hne)
  have hleast := List.countP_eq_zero.mp (Nat.le_zero.mp hless)
  refine ⟨pivot, _, hreturn, fun pre post _ => Or.inr (Nat.zero_le _), ?_⟩
  intro pre e post hsplit hlt
  exact absurd (decide_eq_true hlt) (hleast e (by simp [hsplit]))

/-- With different start times the thread is the one with `m - 1` older ones, and it fits if it
is the first of all, or if all the older ones stand between the first and it. -/
theorem pivotFits_iff_of_distinct {pre post : List TcbCopy} {pivot : TcbCopy}
    (hstart : ((pre ++ pivot :: post).map TcbCopy.initialStartTime).Nodup)
    (hrank : ((pre ++ pivot :: post).countP fun e =>
      timercmp e.initialStartTime pivot.initialStartTime (· < ·)) + 1 = m) :
    PivotFits (pre ++ pivot :: post) m ↔ pre = [] ∨ ∀ e ∈ pre ++ pivot :: post,
      timercmp e.initialStartTime pivot.initialStartTime (· < ·) → e ∈ pre.tail := by
  have hnodup := hstart.of_map
  have hinj : ∀ e ∈ pre ++ pivot :: post, startKey TcbCopy.initialStartTime e =
      startKey TcbCopy.initialStartTime pivot → e = pivot :=
    fun e he heq => List.inj_on_of_nodup_map hstart he (by simp) (key_injective heq)
  have hrank' : ((pre ++ pivot :: post).countP fun e => startKey TcbCopy.initialStartTime e <
      startKey TcbCopy.initialStartTime pivot) = m - 1 := by
    have hcongr := List.countP_congr (l := pre ++ pivot :: post) fun e _ =>
      (timercmp_lt e.initialStartTime pivot.initialStartTime).trans decide_eq_true_iff.symm
    rw [hcongr] at hrank
    exact Nat.eq_sub_of_add_eq hrank
  have hlen : m - 1 < (pre ++ pivot :: post).length := by
    rw [← hrank', List.countP_lt_length_iff]
    exact ⟨pivot, by simp, by simp⟩
  have hcast : ((m - 1 : ℕ) : ℤ) = m - 1 := by omega
  obtain ⟨before, selected, after, hperm, hselects, hreturn⟩ :=
    quickSelect_returns TcbCopy.initialStartTime (pre ++ pivot :: post) hlen
  rw [hcast] at hreturn
  obtain rfl : selected = pivot :=
    hinj selected (hperm.mem_iff.mp (by simp)) (hselects.key_eq (by simp) hrank')
  rw [pivotFits_iff hreturn]
  cases pre with
  | nil => exact ⟨fun _ => Or.inl rfl, fun _ => fits_head hnodup hinj hrank'⟩
  | cons first between =>
    rw [fits_behind_iff hnodup hinj hrank']
    simp only [timercmp_lt, List.tail_cons, reduceCtorEq, false_or]
    rfl

/-- `scheduler_maintenance` chooses the oldest threads exactly if the one that `quick_select`
returns is the first of all, or comes behind enough others that are not younger, and each
older one is neither the first nor behind too many of these. -/
theorem oldestTcbArray_chooses_iff (h : Mlpq s A) (initialStartTime : TcbPtr → Timeval)
    (hm : 1 ≤ m) (hn : m ≤ (A 0 ++ A 1 ++ A 2).length) :
    (∃ oldest, ChoosesOldest s initialStartTime A m oldest) ↔
      PivotFits (s.copies initialStartTime A) m := by
  have hlen : m - 1 < (s.copies initialStartTime A).length := by
    rw [State.copies, List.length_map]
    omega
  have hcast : ((m - 1 : ℕ) : ℤ) = m - 1 := by omega
  have hsucc : m - 1 + 1 = m := by omega
  obtain ⟨before, pivot, after, hperm, ⟨_, hrank⟩, hpivot⟩ :=
    quickSelect_returns TcbCopy.initialStartTime (s.copies initialStartTime A) hlen
  rw [hcast] at hpivot
  have hmem : pivot ∈ s.copies initialStartTime A := hperm.mem_iff.mp (by simp)
  have hsettles := oldestTcbArray_settles h hm hpivot
  have hleast := pickNotAfter_least_iff (h.copies_nodup initialStartTime) hmem hrank
  rw [hsucc] at hleast
  have hchooses := (choosesOldest_iff_least h hsettles
    fun e he => mem_of_mem_pickNotAfter hmem he).trans hleast
  rw [pivotFits_iff hpivot]
  constructor
  · rintro ⟨oldest, hc⟩
    obtain rfl := Except.ok.inj (hc.settles.unique hsettles)
    exact hchooses.mp hc
  · exact fun hfits => ⟨_, hchooses.mpr hfits⟩

end Choice

section Runs

def sevenThreads : State TcbLinks :=
  { State.initial
      ⟨fun q => if q = .level 0 then ⟨some 1, some 7, 7⟩ else ⟨none, none, 0⟩,
        fun p => if p < 7 then some (p + 1) else none⟩
      (fun p => { zeroedTcb with tid := p }) with
    scheduler := true }

def sevenLevels (i : ℤ) : List TcbPtr := if i = 0 then [1, 2, 3, 4, 5, 6, 7] else []

theorem sevenThreads_mlpq : Mlpq sevenThreads sevenLevels := by
  refine ⟨rfl, fun i hlow hhigh => ?_, by decide⟩
  interval_cases i
  · exact ⟨.cons (.cons (.cons (.cons (.cons (.cons (.cons .nil)))))), rfl, rfl⟩
  · exact ⟨.nil, rfl, rfl⟩
  · exact ⟨.nil, rfl, rfl⟩

/-- The first thread is the younger one of the two oldest. -/
theorem oldestTcbArray_chooses_iff_seven : ∃ oldest, ChoosesOldest sevenThreads
    (fun p => if p = 1 then ⟨2, 0⟩ else if p = 2 then ⟨1, 0⟩ else ⟨p, 0⟩) sevenLevels 2 oldest := by
  apply (oldestTcbArray_chooses_iff sevenThreads_mlpq _ (by decide) (by decide)).mpr
  exact (@pivotFits_iff_of_distinct _ [] _ _ (by decide) (by decide)).mpr (Or.inl rfl)

/-- The threads stand in the order of their ages: the second is chosen twice, and the oldest
not at all. -/
theorem oldestTcbArray_repeats :
    oldestTcbArray (fun p => ⟨p, 0⟩) 2 20 sevenThreads = .ok [⟨2, ⟨2, 0⟩⟩, ⟨2, ⟨2, 0⟩⟩] ∧
    ¬ ∃ oldest, ChoosesOldest sevenThreads (fun p => ⟨p, 0⟩) sevenLevels 2 oldest := by
  have hrun : oldestTcbArray (fun p => ⟨p, 0⟩) 2 20 sevenThreads =
      .ok [⟨2, ⟨2, 0⟩⟩, ⟨2, ⟨2, 0⟩⟩] := by decide +kernel
  refine ⟨hrun, ?_⟩
  rintro ⟨oldest, hc⟩
  obtain rfl := Except.ok.inj (hc.settles.eq_of_ok hrun)
  exact absurd hc.distinct (by decide)

end Runs

end VirtualMemorySimulation.Scheduler
