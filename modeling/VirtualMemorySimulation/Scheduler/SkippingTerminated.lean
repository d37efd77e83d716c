import VirtualMemorySimulation.Scheduler.LevelRotation

/-!
# Skipping terminated threads

The helper passes a terminated thread, or one that has yielded, to the end of its
level and calls itself. `HAS_RUN` only counts dispatches, so the recursion never
leaves a level again: it ends when the level it comes to has a thread that has not
terminated, at the latest once each thread that has yielded has been passed, and
goes on forever otherwise.
-/

namespace VirtualMemorySimulation.Scheduler

open Execution LinkedQueue

/-- `setcontext` went to a thread that has not terminated. -/
def DispatchesLive {σ : Type} (s s' : State σ) : Prop :=
  ∃ p, s'.dispatches = s.dispatches ++ [p] ∧ s'.currentTcb = some p ∧
    (s.tcbs p).state ≠ .terminated

/-- The recursion of the helper ends, whatever fuel is left, in such a dispatch. -/
def ReachesLive {σ : Type} [QueueStore σ QueuePtr TcbPtr] (start : Time) (s : State σ) : Prop :=
  ∃ N, ∀ n, N ≤ n → ∃ s', yieldHelper start n s = .ok s' ∧ DispatchesLive s s'

/-- The running thread is at the head of its level, and every thread's priority is its level. -/
structure HeadRuns (t : State TcbLists) (c : ℤ) (p : TcbPtr) (l : List TcbPtr) : Prop where
  low : 0 ≤ c
  high : c ≤ 2
  list : t.queues (.level c) = p :: l
  priority : ∀ i, 0 ≤ i → i ≤ 2 → ∀ q ∈ t.queues (.level i), (t.tcbs q).priority = i
  current : t.currentTcb = some p

/-- The level that the helper takes its next thread from: the level itself until `HAS_RUN` has
counted it, then the next level in use. -/
def State.turnLevel (t : State TcbLists) (c : ℤ) : ℤ :=
  if t.hasRun < (t.queues (.level c)).length then c else nextQueued t.queues c

/-- The head of level `c` has gone to its tail, ready unless it has terminated. -/
@[simps] def State.passed (t : State TcbLists) (c : ℤ) (p : TcbPtr) (l : List TcbPtr) :
    State TcbLists :=
  { t with
    queues := t.queues.set (.level c) (l ++ [p])
    tcbs := Function.update t.tcbs p
      { t.tcbs p with
        state := if (t.tcbs p).state = .terminated then .terminated else .ready
        priority := c } }

section Passing

variable {t t' : State TcbLists} {c d : ℤ} {p r x q : TcbPtr} {l m pre post : List TcbPtr}
  {start : Time}

/-- A thread that the helper does not dispatch when it comes to it. -/
def State.Skips (t : State TcbLists) (r : TcbPtr) : Prop :=
  (t.tcbs r).state = .yield ∨ (t.tcbs r).state = .terminated

instance (t : State TcbLists) (r : TcbPtr) : Decidable (t.Skips r) :=
  inferInstanceAs (Decidable (_ ∨ _))

theorem passed_terminated (t : State TcbLists) (c : ℤ) (p : TcbPtr) (l : List TcbPtr) (r : TcbPtr) :
    ((t.passed c p l).tcbs r).state = .terminated ↔ (t.tcbs r).state = .terminated := by
  by_cases hr : r = p
  · subst hr
    simp only [State.passed_tcbs, Function.update_self]
    split_ifs <;> simp_all
  · rw [State.passed_tcbs, Function.update_of_ne hr]

theorem passed_priority (hprio : ∀ r ∈ t.queues (.level d), (t.tcbs r).priority = d)
    (hq : t.queues (.level d) = p :: l) :
    ∀ r ∈ (t.passed d p l).queues (.level d), ((t.passed d p l).tcbs r).priority = d := by
  intro r hr
  by_cases hrp : r = p
  · subst hrp
    simp
  · rw [State.passed_tcbs, Function.update_of_ne hrp]
    apply hprio r
    rw [State.passed_queues, Lists.set_self, List.mem_append] at hr
    rw [hq]
    exact List.mem_cons_of_mem _ (hr.resolve_right (by simpa using hrp))

/-- A round begins by passing the head, whatever its state. -/
theorem yieldHelper_passes (hprio : (t.tcbs p).priority = c) (hcur : t.currentTcb = some p)
    (hc : 0 ≤ c) (hc' : c ≤ 2) (hq : t.queues (.level c) = p :: l) (start : Time) (fuel : ℕ) :
    yieldHelper start (fuel + 1) t =
      runNext start (yieldHelper start fuel) c (t.passed c p l) := by
  have hdeq := Lists.dequeue_cons hq
  rw [yieldHelper_succ hcur, hprio, hdeq, ok_bind]
  dsimp only
  by_cases hdead : (t.tcbs p).state = .terminated
  · have hpreempt : ({ t with queues := t.queues.set (.level c) l } : State TcbLists).preempt p =
        { t with queues := t.queues.set (.level c) l } := if_neg (not_not_intro hdead)
    have hsame : { t.tcbs p with state := .terminated, priority := c } =
        { t.tcbs p with priority := c } := by rw [← hdead]
    rw [hpreempt]
    simp only [hprio]
    rw [scheduleThread_level _ _ hc hc', ok_bind, State.passed, if_pos hdead, hsame]
    simp [State.setTcb]
  · have hpreempt : ({ t with queues := t.queues.set (.level c) l } : State TcbLists).preempt p =
        { t with
          queues := t.queues.set (.level c) l
          tcbs := Function.update t.tcbs p { t.tcbs p with state := .ready } } := if_pos hdead
    rw [hpreempt]
    simp only [Function.update_self, hprio]
    rw [scheduleThread_level _ _ hc hc', ok_bind]
    simp [State.passed, State.setTcb, hdead]

theorem runNext_selected {n : ℕ} (hsel : selectNext c t = .ok (t.select n (some r)))
    (start : Time) (again : State TcbLists → Except Stop (State TcbLists)) :
    runNext start again c t =
      if (t.tcbs r).state = .yield then
        again ((t.select n (some r)).setTcb r { t.tcbs r with state := .ready })
      else if (t.tcbs r).state = .terminated then again (t.select n (some r))
      else .ok (t.runs start r (n + 1)) := by
  rw [runNext, hsel, ok_bind]
  simp [State.runs, State.setTcb, State.select]

theorem runNext_terminated {n : ℕ} (hsel : selectNext c t = .ok (t.select n (some r)))
    (hdead : (t.tcbs r).state = .terminated) (start : Time)
    (again : State TcbLists → Except Stop (State TcbLists)) :
    runNext start again c t = again (t.select n (some r)) := by
  rw [runNext_selected hsel, if_neg (by rw [hdead]; decide), if_pos hdead]

theorem runNext_skips {n : ℕ} (hsel : selectNext c t = .ok (t.select n (some r)))
    (hskip : t.Skips r) (hd : 0 ≤ d) (hd' : d ≤ 2) (hprio : (t.tcbs r).priority = d)
    (hq : t.queues (.level d) = r :: m) (start : Time) (fuel : ℕ) :
    runNext start (yieldHelper start (fuel + 1)) c t =
      runNext start (yieldHelper start fuel) d ((t.select n (some r)).passed d r m) := by
  rw [runNext_selected hsel]
  by_cases hyield : (t.tcbs r).state = .yield
  · have hpassed : ((t.select n (some r)).setTcb r { t.tcbs r with state := .ready }).passed d r m =
        (t.select n (some r)).passed d r m := by
      simp [State.passed, State.setTcb, State.select, hyield]
    rw [if_pos hyield, ← hpassed]
    apply yieldHelper_passes _ _ hd hd'
    · exact hq
    · simp [hprio]
    · simp
  · rw [if_neg hyield, if_pos (hskip.resolve_left hyield)]
    exact yieldHelper_passes (t := t.select n (some r)) hprio rfl hd hd' hq start fuel

theorem runNext_skips_exhausted {n : ℕ} (hsel : selectNext c t = .ok (t.select n (some r)))
    (hskip : t.Skips r) (start : Time) :
    runNext start (yieldHelper start 0) c t = .error .outOfFuel := by
  rw [runNext_selected hsel]
  rcases hskip with hstate | hstate <;> simp [hstate, yieldHelper]

/-- The rest of a call that has come to level `c`, when it ends. -/
def Ends (start : Time) (c : ℤ) (t : State TcbLists) : Prop :=
  ∃ t', Settles (fun n => runNext start (yieldHelper start n) c t) (.ok t') ∧ DispatchesLive t t'

theorem ends_of_not_skips {n : ℕ} (hsel : selectNext c t = .ok (t.select n (some r)))
    (hskip : ¬ t.Skips r) : Ends start c t := by
  obtain ⟨hyield, hlive⟩ := not_or.mp hskip
  refine ⟨t.runs start r (n + 1), (Settles.const _).congr fun fuel => ?_, r, rfl, rfl, hlive⟩
  rw [runNext_selected hsel, if_neg hyield, if_neg hlive]

theorem ends_of_skips {n : ℕ} (hsel : selectNext c t = .ok (t.select n (some r)))
    (hskip : t.Skips r) (hd : 0 ≤ d) (hd' : d ≤ 2) (hprio : (t.tcbs r).priority = d)
    (hq : t.queues (.level d) = r :: m)
    (h : Ends start d ((t.select n (some r)).passed d r m)) : Ends start c t := by
  obtain ⟨t', hsettles, p, hdispatches, hcur, hlive⟩ := h
  refine ⟨t', hsettles.succ (runNext_skips_exhausted hsel hskip start)
    (runNext_skips hsel hskip hd hd' hprio hq start), p, hdispatches, hcur, ?_⟩
  exact fun hdead => hlive ((passed_terminated (t.select n (some r)) d r m p).mpr hdead)

end Passing

section WithinLevel

variable {t : State TcbLists} {c : ℤ} {p r x q : TcbPtr} {l m pre post : List TcbPtr}
  {start : Time}

/-- A level that `HAS_RUN` has not counted, of threads with its priority. -/
structure Uncounted (t : State TcbLists) (c : ℤ) : Prop where
  low : 0 ≤ c
  high : c ≤ 2
  priority : ∀ q ∈ t.queues (.level c), (t.tcbs q).priority = c
  hasRun : t.hasRun < (t.queues (.level c)).length

theorem Uncounted.select (h : Uncounted t c) (hq : t.queues (.level c) = r :: m) :
    selectNext c t = .ok (t.select t.hasRun (some r)) :=
  selectNext_within hq (hq ▸ h.hasRun)

theorem Uncounted.selected (h : Uncounted t c) (r : TcbPtr) :
    Uncounted (t.select t.hasRun (some r)) c := ⟨h.low, h.high, h.priority, h.hasRun⟩

theorem Uncounted.passed (h : Uncounted t c) (hq : t.queues (.level c) = r :: m) :
    Uncounted (t.passed c r m) c := by
  have hrun := h.hasRun
  rw [hq] at hrun
  exact ⟨h.low, h.high, passed_priority h.priority hq, by simpa using hrun⟩

theorem Uncounted.ends_head (h : Uncounted t c) (hq : t.queues (.level c) = r :: m)
    (hnext : t.Skips r → Ends start c ((t.select t.hasRun (some r)).passed c r m)) :
    Ends start c t := by
  by_cases hskip : t.Skips r
  · exact ends_of_skips (h.select hq) hskip h.low h.high (h.priority r (by simp [hq])) hq
      (hnext hskip)
  · exact ends_of_not_skips (h.select hq) hskip

/-- A thread that is not skipped is dispatched at the latest when the helper comes to it. -/
theorem Uncounted.ends_of_ready (h : Uncounted t c) (hq : t.queues (.level c) = pre ++ q :: post)
    (hready : ¬ t.Skips q) : Ends start c t := by
  induction pre generalizing t post with
  | nil => exact h.ends_head hq fun hskip => absurd hskip hready
  | cons x pre ih =>
    apply h.ends_head hq
    intro hskip
    have hpassed : ((t.select t.hasRun (some x)).passed c x (pre ++ q :: post)).queues (.level c) =
        pre ++ q :: (post ++ [x]) := by simp
    apply ih ((h.selected x).passed hq) hpassed
    have hne : q ≠ x := fun heq => hready (heq ▸ hskip)
    unfold State.Skips
    rw [State.passed_tcbs, Function.update_of_ne hne]
    exact hready

/-- A thread that has yielded is passed once, and then not skipped any more. -/
theorem Uncounted.ends (h : Uncounted t c) (hq : t.queues (.level c) = pre ++ q :: post)
    (hlive : (t.tcbs q).state ≠ .terminated) : Ends start c t := by
  induction pre generalizing t post with
  | nil =>
    apply h.ends_head hq
    intro _
    have hpassed : ((t.select t.hasRun (some q)).passed c q post).queues (.level c) =
        post ++ q :: [] := by simp
    apply ((h.selected q).passed hq).ends_of_ready hpassed
    unfold State.Skips
    simp [hlive]
  | cons x pre ih =>
    apply h.ends_head hq
    intro _
    have hpassed : ((t.select t.hasRun (some x)).passed c x (pre ++ q :: post)).queues (.level c) =
        pre ++ q :: (post ++ [x]) := by simp
    apply ih ((h.selected x).passed hq) hpassed
    exact fun hdead => hlive ((passed_terminated (t.select t.hasRun (some x)) c x _ q).mp hdead)

/-- With only terminated threads the head is passed forever. -/
theorem Uncounted.endless (h : Uncounted t c) (hcur : t.currentTcb = some p)
    (hq : t.queues (.level c) = p :: l)
    (hdead : ∀ q ∈ t.queues (.level c), (t.tcbs q).state = .terminated) (start : Time) (fuel : ℕ) :
    yieldHelper start fuel t = .error .outOfFuel := by
  induction fuel generalizing t p l with
  | zero => rfl
  | succ fuel ih =>
    have hpassed := h.passed hq
    have hdead' : ∀ q ∈ (t.passed c p l).queues (.level c),
        ((t.passed c p l).tcbs q).state = .terminated := by
      intro q hmem
      apply (passed_terminated t c p l q).mpr
      apply hdead q
      rw [hq]
      simpa [or_comm] using hmem
    obtain ⟨r, m, hnext⟩ := List.exists_cons_of_ne_nil (l := (t.passed c p l).queues (.level c))
      (by simp)
    have hr := hdead' r (by rw [hnext]; exact List.mem_cons_self)
    rw [yieldHelper_passes (h.priority p (by simp [hq])) hcur h.low h.high hq,
      runNext_terminated (hpassed.select hnext) hr]
    exact ih (hpassed.selected r) rfl hnext hdead'

end WithinLevel

section WholeCall

variable {t u : State TcbLists} {c d : ℤ} {p q r : TcbPtr} {l m : List TcbPtr} {n : ℕ}

/-- After the head has been passed, the next thread is taken from the head of level `d`, which
`HAS_RUN` has not counted then. -/
structure Arrives (t u : State TcbLists) (c d : ℤ) (r : TcbPtr) (m : List TcbPtr) (n : ℕ) :
    Prop where
  low : 0 ≤ d
  high : d ≤ 2
  list : u.queues (.level d) = r :: m
  members : ∀ q, q ∈ r :: m ↔ q ∈ t.queues (.level d)
  priority : ∀ q ∈ u.queues (.level d), (u.tcbs q).priority = d
  uncounted : n < (r :: m).length
  select : selectNext c u = .ok (u.select n (some r))

theorem HeadRuns.priority_passed (h : HeadRuns t c p l) (hd : 0 ≤ d) (hd' : d ≤ 2)
    (hq : q ∈ t.queues (.level d)) : ((t.passed c p l).tcbs q).priority = d := by
  by_cases hqp : q = p
  · subst hqp
    rw [State.passed_tcbs, Function.update_self, ← h.priority d hd hd' q hq,
      h.priority c h.low h.high q (by simp [h.list])]
  · rw [State.passed_tcbs, Function.update_of_ne hqp]
    exact h.priority d hd hd' q hq

theorem HeadRuns.mem_passed (h : HeadRuns t c p l) (d : ℤ) (q : TcbPtr) :
    q ∈ (t.passed c p l).queues (.level d) ↔ q ∈ t.queues (.level d) := by
  rw [State.passed_queues]
  by_cases hd : d = c
  · subst hd
    rw [Lists.set_self, h.list]
    exact (List.perm_append_singleton p l).mem_iff
  · rw [Lists.set_of_ne (by simpa using hd)]

theorem nextQueued_bounds (A : TcbLists) (hc : 0 ≤ c) (hc' : c ≤ 2) :
    0 ≤ nextQueued A c ∧ nextQueued A c ≤ 2 := by
  unfold nextQueued nextLevel numberLevels
  split_ifs <;> omega

theorem nextQueued_ne_nil {A : TcbLists} (h : A (.level c) ≠ []) :
    A (.level (nextQueued A c)) ≠ [] := by
  unfold nextQueued
  split_ifs with h1 h2
  · exact h1
  · exact h2
  · exact h

theorem nextQueued_congr {A B : TcbLists} (h : ∀ i, A (.level i) = [] ↔ B (.level i) = []) :
    nextQueued A c = nextQueued B c := by
  simp only [nextQueued, ne_eq, h]

theorem HeadRuns.passed_nil (h : HeadRuns t c p l) (i : ℤ) :
    (t.passed c p l).queues (.level i) = [] ↔ t.queues (.level i) = [] := by
  simp only [List.eq_nil_iff_forall_not_mem, h.mem_passed]

theorem HeadRuns.arrives (h : HeadRuns t c p l) :
    ∃ r m n, Arrives t (t.passed c p l) c (t.turnLevel c) r m n := by
  have hpassed : (t.passed c p l).queues (.level c) ≠ [] := by simp
  have hlength : ((t.passed c p l).queues (.level c)).length = (t.queues (.level c)).length := by
    simp [h.list]
  unfold State.turnLevel
  split_ifs with hrun
  · obtain ⟨r, m, hq⟩ := List.exists_cons_of_ne_nil hpassed
    rw [← hlength, hq] at hrun
    refine ⟨r, m, t.hasRun, h.low, h.high, hq, fun q => ?_, fun q hmem => ?_, hrun,
      selectNext_within hq hrun⟩
    · rw [← hq, h.mem_passed]
    · exact h.priority_passed h.low h.high ((h.mem_passed c q).mp hmem)
  · rw [← nextQueued_congr h.passed_nil]
    obtain ⟨hlow, hhigh⟩ := nextQueued_bounds (t.passed c p l).queues h.low h.high
    obtain ⟨r, m, hq⟩ := List.exists_cons_of_ne_nil (nextQueued_ne_nil hpassed)
    refine ⟨r, m, 0, hlow, hhigh, hq, fun q => ?_, fun q hmem => ?_, by simp,
      selectNext_wraps h.low h.high (by rw [hlength]; exact not_lt.mp hrun) hq⟩
    · rw [← hq, h.mem_passed]
    · exact h.priority_passed hlow hhigh ((h.mem_passed _ q).mp hmem)

theorem Arrives.uncounted_select (h : Arrives t u c d r m n) :
    Uncounted (u.select n (some r)) d :=
  ⟨h.low, h.high, h.priority, by rw [State.select_queues, h.list]; exact h.uncounted⟩

theorem Arrives.ends (h : Arrives t u c d r m n) (hq : q ∈ t.queues (.level d))
    (hlive : (u.tcbs q).state ≠ .terminated) (start : Time) : Ends start c u := by
  by_cases hskip : u.Skips r
  · apply ends_of_skips h.select hskip h.low h.high (h.priority r (by simp [h.list])) h.list
    have hmem : q ∈ m ++ [r] :=
      (List.perm_append_singleton r m).mem_iff.mpr ((h.members q).mpr hq)
    obtain ⟨pre, post, hsplit⟩ := List.append_of_mem hmem
    have hpassed : ((u.select n (some r)).passed d r m).queues (.level d) = pre ++ q :: post := by
      rw [State.passed_queues, Lists.set_self, hsplit]
    apply (h.uncounted_select.passed h.list).ends hpassed
    exact fun hdead => hlive ((passed_terminated (u.select n (some r)) d r m q).mp hdead)
  · exact ends_of_not_skips h.select hskip

theorem HeadRuns.endless (h : HeadRuns t c p l)
    (hdead : ∀ q ∈ t.queues (.level (t.turnLevel c)), (t.tcbs q).state = .terminated)
    (start : Time) (fuel : ℕ) : yieldHelper start fuel t = .error .outOfFuel := by
  cases fuel with
  | zero => rfl
  | succ fuel =>
    obtain ⟨r, m, n, harrives⟩ := h.arrives
    have hdead' : ∀ q ∈ (t.passed c p l).queues (.level (t.turnLevel c)),
        ((t.passed c p l).tcbs q).state = .terminated := fun q hmem =>
      (passed_terminated t c p l q).mpr (hdead q ((h.mem_passed _ q).mp hmem))
    have hr := hdead' r (by rw [harrives.list]; exact List.mem_cons_self)
    rw [yieldHelper_passes (h.priority c h.low h.high p (by simp [h.list])) h.current h.low h.high
      h.list, runNext_terminated harrives.select hr]
    exact harrives.uncounted_select.endless rfl harrives.list hdead' start fuel

theorem HeadRuns.settles (h : HeadRuns t c p l) (hq : q ∈ t.queues (.level (t.turnLevel c)))
    (hlive : (t.tcbs q).state ≠ .terminated) (start : Time) :
    ∃ t', Settles (fun fuel => yieldHelper start fuel t) (.ok t') ∧ DispatchesLive t t' := by
  obtain ⟨r, m, n, harrives⟩ := h.arrives
  obtain ⟨t', hsettles, x, hdispatches, hcur, hx⟩ := harrives.ends hq
    (fun hdead => hlive ((passed_terminated t c p l q).mp hdead)) start
  refine ⟨t', hsettles.succ rfl fun fuel => ?_, x, hdispatches, hcur, fun hdead => ?_⟩
  · exact yieldHelper_passes (h.priority c h.low h.high p (by simp [h.list])) h.current h.low
      h.high h.list start fuel
  · exact hx ((passed_terminated t c p l x).mpr hdead)

/-- On linked queues as on lists, the recursion ends in the dispatch of a live thread exactly
when the level that it takes its next thread from has one. -/
theorem yieldHelper_reaches_iff {s : State TcbLinks} (hr : Refines s t) (h : HeadRuns t c p l)
    (start : Time) : ReachesLive start s ↔
      ∃ q ∈ t.queues (.level (t.turnLevel c)), (t.tcbs q).state ≠ .terminated := by
  obtain ⟨L, hL, rfl⟩ := hr
  constructor
  · rintro ⟨N, hN⟩
    by_contra! hnone
    obtain ⟨s', hs', -⟩ := hN N le_rfl
    have hendless := (yieldHelper_refines start N L t hL).error_iff.mpr (h.endless hnone start N)
    rw [hendless] at hs'
    cases hs'
  · rintro ⟨q, hq, hlive⟩
    obtain ⟨t', ⟨-, N, hN⟩, x, hdispatches, hcur, hx⟩ := h.settles hq hlive start
    refine ⟨N, fun n hn => ?_⟩
    obtain ⟨s', hs', L', -, rfl⟩ := (yieldHelper_refines start n L t hL).of_ok_right (hN n hn)
    exact ⟨_, hs', x, hdispatches, hcur, hx⟩

end WholeCall

section Sample

/-- Two threads on level 0 and one on level 2, of which some have terminated. -/
def partlyTerminated (dead : List TcbPtr) (hasRun : ℕ) : State TcbLists :=
  { State.initial twoLevels fun p =>
      { zeroedTcb with
        priority := if p = 2 then 2 else 0
        state := if p ∈ dead then .terminated else .ready } with
    currentTcb := some 0
    hasRun }

theorem partlyTerminated_headRuns (dead : List TcbPtr) (hasRun : ℕ) :
    HeadRuns (partlyTerminated dead hasRun) 0 0 [1] where
  low := le_rfl
  high := by decide
  list := rfl
  priority := by
    intro i hi hi' q hq
    obtain rfl | rfl | rfl : i = 0 ∨ i = 1 ∨ i = 2 := by omega
    · have hq' : q ∈ [0, 1] := hq
      simp only [List.mem_cons, List.not_mem_nil, or_false] at hq'
      rcases hq' with rfl | rfl <;> rfl
    · cases hq
    · obtain rfl := List.mem_singleton.mp hq
      rfl
  current := rfl

theorem yieldHelper_reaches_second :
    ReachesLive ⟨1, 0⟩ ((partlyTerminated [0] 0).withQueues twoLevelsLinks) ↔
      ∃ q ∈ twoLevels (.level 0), ((partlyTerminated [0] 0).tcbs q).state ≠ .terminated :=
  yieldHelper_reaches_iff (.of_agrees twoLevels_agrees) (partlyTerminated_headRuns [0] 0) ⟨1, 0⟩

/-- Both threads of level 0 have terminated and `HAS_RUN` has not counted them: the helper
never comes to the ready thread on level 2. -/
theorem yieldHelper_stays_on_level :
    ((partlyTerminated [0, 1] 1).tcbs 2).state = .ready ∧ 2 ∈ twoLevels (.level 2) ∧
      ¬ ReachesLive ⟨1, 0⟩ ((partlyTerminated [0, 1] 1).withQueues twoLevelsLinks) ∧
      ∀ fuel, yieldHelper ⟨1, 0⟩ fuel ((partlyTerminated [0, 1] 1).withQueues twoLevelsLinks) =
        .error .outOfFuel := by
  have hhead := partlyTerminated_headRuns [0, 1] 1
  have hdead : ∀ q ∈ twoLevels (.level 0),
      ((partlyTerminated [0, 1] 1).tcbs q).state = .terminated := by
    decide
  have hendless := fun fuel =>
    (yieldHelper_refines ⟨1, 0⟩ fuel _ (partlyTerminated [0, 1] 1) twoLevels_agrees).error_iff.mpr
      (hhead.endless hdead ⟨1, 0⟩ fuel)
  refine ⟨rfl, by decide, ?_, hendless⟩
  rintro ⟨N, hN⟩
  obtain ⟨s', hs', -⟩ := hN N le_rfl
  rw [hendless] at hs'
  cases hs'

end Sample

end VirtualMemorySimulation.Scheduler
