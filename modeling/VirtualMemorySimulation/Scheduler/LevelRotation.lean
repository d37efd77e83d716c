import VirtualMemorySimulation.Scheduler.RoundRobin

/-!
# Round robin over three levels

As long as no thread yields or terminates, the helper rotates the level of the
running thread until `HAS_RUN` has counted the whole level, and then goes on to
the next level in use. A run of as many rounds as there are threads comes back
to where it started.
-/

namespace VirtualMemorySimulation.Scheduler

open Execution LinkedQueue

/-- A thread of level `i` that the helper dispatches when it comes to it. -/
structure CanRun (tcbs : TcbPtr → Tcb) (i : ℤ) (p : TcbPtr) : Prop where
  priority : (tcbs p).priority = i
  noYield : (tcbs p).state ≠ .yield
  live : (tcbs p).state ≠ .terminated

def Fit (A : TcbLists) (tcbs : TcbPtr → Tcb) : Prop :=
  ∀ i, 0 ≤ i → i ≤ 2 → ∀ p ∈ A (.level i), CanRun tcbs i p

@[simps] def State.turned (t : State TcbLists) (c : ℤ) (p : TcbPtr) (l : List TcbPtr) :
    State TcbLists :=
  { t with
    queues := t.queues.set (.level c) (l ++ [p])
    tcbs := Function.update t.tcbs p { t.tcbs p with state := .ready, priority := c } }

@[simps] def State.runs (t : State TcbLists) (start : Time) (p : TcbPtr) (n : ℕ) :
    State TcbLists :=
  { t with
    tcbs := Function.update t.tcbs p { t.tcbs p with state := .running, recentStartTime := start }
    currentTcb := some p
    hasRun := n
    cpu := (t.tcbs p).context
    dispatches := t.dispatches ++ [p] }

/-- The level in use that comes after a level, the level itself last. -/
def nextQueued (A : TcbLists) (c : ℤ) : ℤ :=
  if A (.level (nextLevel c)) ≠ [] then nextLevel c
  else if A (.level (nextLevel (nextLevel c))) ≠ [] then nextLevel (nextLevel c)
  else c

section Round

variable {t : State TcbLists} {A : TcbLists} {tcbs : TcbPtr → Tcb} {c d : ℤ} {p r : TcbPtr}
  {l m : List TcbPtr}

theorem Fit.update (h : Fit A tcbs) {tcb : Tcb} (hpriority : tcb.priority = (tcbs p).priority)
    (hyield : tcb.state ≠ .yield) (hlive : tcb.state ≠ .terminated) :
    Fit A (Function.update tcbs p tcb) := by
  intro i hi hi' q hq
  have hcan := h i hi hi' q hq
  by_cases hqp : q = p
  · subst hqp
    constructor
    · rw [Function.update_self, hpriority, hcan.priority]
    · rwa [Function.update_self]
    · rwa [Function.update_self]
  · constructor
    · rw [Function.update_of_ne hqp, hcan.priority]
    · rw [Function.update_of_ne hqp]
      exact hcan.noYield
    · rw [Function.update_of_ne hqp]
      exact hcan.live

theorem scheduleThread_level (t : State TcbLists) (p : TcbPtr) (hc : 0 ≤ c) (hc' : c ≤ 2) :
    scheduleThread (some p) c t = .ok
      { t.setTcb p { t.tcbs p with priority := c } with
        queues := t.queues.set (.level c) (t.queues (.level c) ++ [p]) } := by
  rw [scheduleThread, if_neg (by unfold numberLevels; omega)]
  rfl

theorem yieldHelper_turns (hcan : CanRun t.tcbs c p) (hcur : t.currentTcb = some p) (hc : 0 ≤ c)
    (hc' : c ≤ 2) (hq : t.queues (.level c) = p :: l) (start : Time) (fuel : ℕ) :
    yieldHelper start (fuel + 1) t =
      runNext start (yieldHelper start fuel) c (t.turned c p l) := by
  have hdeq := Lists.dequeue_cons hq
  have hpreempt : ({ t with queues := t.queues.set (.level c) l } : State TcbLists).preempt p =
      { t with
        queues := t.queues.set (.level c) l
        tcbs := Function.update t.tcbs p { t.tcbs p with state := .ready } } :=
    if_pos hcan.live
  rw [yieldHelper_succ hcur, hcan.priority, hdeq, ok_bind]
  dsimp only
  rw [hpreempt]
  simp only [Function.update_self, hcan.priority]
  rw [scheduleThread_level _ _ hc hc', ok_bind]
  simp [State.turned, State.setTcb]

theorem runNext_runs {n : ℕ} (hcan : CanRun t.tcbs d r)
    (hsel : selectNext c t = .ok { t with hasRun := n, currentTcb := some r })
    (start : Time) (again : State TcbLists → Except Stop (State TcbLists)) :
    runNext start again c t = .ok (t.runs start r (n + 1)) := by
  rw [runNext, hsel, ok_bind]
  dsimp only
  rw [if_neg hcan.noYield, if_neg hcan.live]
  simp [State.runs, State.setTcb]

/-- Inside a level the new head is next. -/
theorem selectNext_within (hq : t.queues (.level c) = r :: m)
    (hrun : t.hasRun < (r :: m).length) :
    selectNext c t = .ok { t with hasRun := t.hasRun, currentTcb := some r } := by
  rw [selectNext, size_level, hq, if_neg (by omega), peek_level, hq]
  rfl

/-- At the end of a level the head of the next level in use is next. -/
theorem selectNext_wraps (hc : 0 ≤ c) (hc' : c ≤ 2)
    (hrun : (t.queues (.level c)).length ≤ t.hasRun)
    (hq : t.queues (.level (nextQueued t.queues c)) = r :: m) :
    selectNext c t = .ok { t with hasRun := 0, currentTcb := some r } := by
  rw [selectNext, size_level, if_pos hrun]
  simp only [peek_level]
  unfold nextQueued at hq
  by_cases h1 : t.queues (.level (nextLevel c)) = []
  · by_cases h2 : t.queues (.level (nextLevel (nextLevel c))) = []
    · rw [if_neg (not_not_intro h1), if_neg (not_not_intro h2)] at hq
      have hfirst : firstQueued t.queues = some r := by
        rw [firstQueued]
        obtain rfl | rfl | rfl : c = 0 ∨ c = 1 ∨ c = 2 := by omega
        all_goals simp_all [nextLevel, numberLevels, size_level, peek_level]
      rw [h1, h2, hfirst]
      rfl
    · rw [if_neg (not_not_intro h1), if_pos h2] at hq
      rw [h1, hq]
      rfl
  · rw [if_pos h1] at hq
    rw [hq]
    rfl

end Round

def yieldHelpers {σ : Type} [QueueStore σ QueuePtr TcbPtr] (fuel : ℕ) :
    List Time → State σ → Except Stop (State σ) :=
  runAll fun start => yieldHelper start (fuel + 1)

theorem yieldHelpers_append {fuel : ℕ} {starts starts' : List Time} {t t' t'' : State TcbLists}
    (h : yieldHelpers fuel starts t = .ok t') (h' : yieldHelpers fuel starts' t' = .ok t'') :
    yieldHelpers fuel (starts ++ starts') t = .ok t'' := by
  rw [yieldHelpers, runAll_append]
  exact (congrArg (· >>= _) h).trans h'

/-- The turn of `p` in its level: the threads `pre` have had theirs, `post` are to come. -/
structure Turn (A : TcbLists) (c : ℤ) (pre : List TcbPtr) (p : TcbPtr) (post : List TcbPtr)
    (t : State TcbLists) : Prop where
  low : 0 ≤ c
  high : c ≤ 2
  list : A (.level c) = pre ++ p :: post
  queues : t.queues = A.set (.level c) (p :: post ++ pre)
  fit : Fit A t.tcbs
  current : t.currentTcb = some p
  hasRun : t.hasRun = pre.length + 1

namespace Turn

variable {t : State TcbLists} {A : TcbLists} {c : ℤ} {p r : TcbPtr} {pre post m : List TcbPtr}

theorem canRun (h : Turn A c pre p post t) : CanRun t.tcbs c p :=
  h.fit c h.low h.high p (by simp [h.list])

theorem level (h : Turn A c pre p post t) : t.queues (.level c) = p :: (post ++ pre) := by
  rw [h.queues, Lists.set_self, List.cons_append]

theorem fit_runs (h : Turn A c pre p post t) (l : List TcbPtr) (start : Time) (r : TcbPtr) (n : ℕ) :
    Fit A ((t.turned c p l).runs start r n).tcbs :=
  Fit.update (h.fit.update h.canRun.priority.symm (by simp) (by simp)) rfl (by simp) (by simp)

theorem next (h : Turn A c pre p (r :: post) t) (start : Time) (fuel : ℕ) :
    ∃ t', yieldHelper start (fuel + 1) t = .ok t' ∧ Turn A c (pre ++ [p]) r post t' ∧
      t'.dispatches = t.dispatches ++ [r] := by
  have hlevel : (t.turned c p (r :: post ++ pre)).queues (.level c) =
      r :: (post ++ pre ++ [p]) := by simp
  have hcan : CanRun (t.turned c p (r :: post ++ pre)).tcbs c r :=
    h.fit.update h.canRun.priority.symm (by simp) (by simp) c h.low h.high r (by simp [h.list])
  have hrun : (t.turned c p (r :: post ++ pre)).hasRun < (r :: (post ++ pre ++ [p])).length := by
    simp [h.hasRun]
  have hround := (yieldHelper_turns h.canRun h.current h.low h.high h.level start fuel).trans
    (runNext_runs hcan (selectNext_within hlevel hrun) start (yieldHelper start fuel))
  refine ⟨_, hround, ⟨h.low, h.high, ?_, ?_, h.fit_runs _ start r _, rfl, ?_⟩, rfl⟩
  · simp [h.list]
  · simp [h.queues]
  · simp [h.hasRun]

theorem wraps (h : Turn A c pre p [] t) (hq : A (.level (nextQueued A c)) = r :: m) (start : Time)
    (fuel : ℕ) : ∃ t', yieldHelper start (fuel + 1) t = .ok t' ∧
      Turn A (nextQueued A c) [] r m t' ∧ t'.dispatches = t.dispatches ++ [r] := by
  have hlow := h.low
  have hhigh := h.high
  have hback : (t.turned c p pre).queues = A := by
    simp [h.queues, ← h.list]
  have hd : 0 ≤ nextQueued A c ∧ nextQueued A c ≤ 2 := by
    unfold nextQueued nextLevel numberLevels
    split_ifs <;> omega
  have hcan : CanRun (t.turned c p pre).tcbs (nextQueued A c) r :=
    h.fit.update h.canRun.priority.symm (by simp) (by simp) _ hd.1 hd.2 r (by simp [hq])
  have hrun : ((t.turned c p pre).queues (.level c)).length ≤ (t.turned c p pre).hasRun := by
    simp [h.hasRun]
  have hround := (yieldHelper_turns h.canRun h.current hlow hhigh h.level start fuel).trans
    (runNext_runs hcan (selectNext_wraps hlow hhigh hrun (by rw [hback, hq])) start
      (yieldHelper start fuel))
  refine ⟨_, hround, ⟨hd.1, hd.2, hq, ?_, h.fit_runs _ start r _, rfl, rfl⟩, rfl⟩
  rw [List.append_nil, ← hq, Lists.set_eq_self]
  exact hback

theorem finishes (h : Turn A c pre p post t) (fuel : ℕ) (starts : List Time)
    (hlen : starts.length = post.length) : ∃ pre' p' t', yieldHelpers fuel starts t = .ok t' ∧
      Turn A c pre' p' [] t' ∧ t'.dispatches = t.dispatches ++ post := by
  induction post generalizing pre p t starts with
  | nil =>
    obtain rfl := List.length_eq_zero_iff.mp hlen
    exact ⟨pre, p, t, rfl, h, by simp⟩
  | cons r post ih =>
    obtain ⟨start, starts, rfl⟩ := List.exists_cons_of_length_eq_add_one hlen
    obtain ⟨t', ht', hturn, hdispatches⟩ := h.next start fuel
    obtain ⟨pre', p', t'', ht'', hturn', hdispatches'⟩ := ih hturn starts (by simpa using hlen)
    refine ⟨pre', p', t'', ?_, hturn', by simp [hdispatches', hdispatches]⟩
    rw [yieldHelpers, runAll, ht']
    exact ht''

theorem passes (h : Turn A c pre p post t) (hq : A (.level (nextQueued A c)) = r :: m) (fuel : ℕ)
    (starts : List Time) (hlen : starts.length = post.length + 1) :
    ∃ t', yieldHelpers fuel starts t = .ok t' ∧ Turn A (nextQueued A c) [] r m t' ∧
      t'.dispatches = t.dispatches ++ (post ++ [r]) := by
  obtain ⟨front, start, rfl⟩ : ∃ front start, starts = front ++ [start] :=
    ⟨_, _, (List.dropLast_append_getLast (List.length_pos_iff.mp (by omega))).symm⟩
  obtain ⟨pre', p', t', ht', hturn, hdispatches⟩ := h.finishes fuel front (by simpa using hlen)
  obtain ⟨t'', ht'', hturn', hdispatches'⟩ := hturn.wraps hq start fuel
  refine ⟨t'', ?_, hturn', by simp [hdispatches', hdispatches]⟩
  apply yieldHelpers_append ht'
  rw [yieldHelpers, runAll, ht'']
  rfl

end Turn

section Period

variable {t : State TcbLists} {A : TcbLists} {c : ℤ} {p : TcbPtr} {l : List TcbPtr}

theorem nextLevel_cycle (hc : 0 ≤ c) (hc' : c ≤ 2) : nextLevel (nextLevel (nextLevel c)) = c := by
  obtain rfl | rfl | rfl : c = 0 ∨ c = 1 ∨ c = 2 := by omega
  all_goals rfl

def restOfLevels (A : TcbLists) (c : ℤ) : List TcbPtr :=
  A (.level (nextLevel c)) ++ A (.level (nextLevel (nextLevel c)))

/-- After as many rounds as there are threads the turn comes back. -/
theorem Turn.period (h : Turn A c [] p l t) (fuel : ℕ) (starts : List Time)
    (hlen : starts.length = l.length + (restOfLevels A c).length + 1) :
    ∃ t', yieldHelpers fuel starts t = .ok t' ∧ Turn A c [] p l t' ∧
      t'.dispatches = t.dispatches ++ (l ++ restOfLevels A c ++ [p]) := by
  have hcycle := nextLevel_cycle h.low h.high
  have hlist : A (.level c) = p :: l := h.list
  unfold restOfLevels at hlen ⊢
  cases h1 : A (.level (nextLevel c)) with
  | nil =>
    cases h2 : A (.level (nextLevel (nextLevel c))) with
    | nil =>
      have hd : nextQueued A c = c := by simp [nextQueued, h1, h2]
      obtain ⟨t', ht', hturn, hdispatches⟩ := h.passes (by rw [hd, hlist]) fuel starts
        (by simpa [h1, h2] using hlen)
      rw [hd] at hturn
      exact ⟨t', ht', hturn, by simpa using hdispatches⟩
    | cons r m =>
      have hd : nextQueued A c = nextLevel (nextLevel c) := by simp [nextQueued, h1, h2]
      have hd' : nextQueued A (nextLevel (nextLevel c)) = c := by
        simp [nextQueued, hcycle, hlist]
      rw [← List.take_append_drop (l.length + 1) starts]
      obtain ⟨u, hu, hturn, hdispatches⟩ := h.passes (by rw [hd, h2]) fuel
        (starts.take (l.length + 1)) (by simp; omega)
      rw [hd] at hturn
      obtain ⟨t', ht', hturn', hdispatches'⟩ := hturn.passes (by rw [hd', hlist]) fuel
        (starts.drop (l.length + 1)) (by simp [hlen, h1, h2])
      rw [hd'] at hturn'
      exact ⟨t', yieldHelpers_append hu ht', hturn', by simp [hdispatches', hdispatches]⟩
  | cons q n =>
    have hd : nextQueued A c = nextLevel c := by simp [nextQueued, h1]
    rw [← List.take_append_drop (l.length + 1) starts]
    obtain ⟨u, hu, hturn, hdispatches⟩ := h.passes (by rw [hd, h1]) fuel
      (starts.take (l.length + 1)) (by simp; omega)
    rw [hd] at hturn
    cases h2 : A (.level (nextLevel (nextLevel c))) with
    | nil =>
      have hd' : nextQueued A (nextLevel c) = c := by simp [nextQueued, h2, hcycle, hlist]
      obtain ⟨t', ht', hturn', hdispatches'⟩ := hturn.passes (by rw [hd', hlist]) fuel
        (starts.drop (l.length + 1)) (by simp [hlen, h1, h2])
      rw [hd'] at hturn'
      exact ⟨t', yieldHelpers_append hu ht', hturn', by simp [hdispatches', hdispatches]⟩
    | cons r m =>
      have hd' : nextQueued A (nextLevel c) = nextLevel (nextLevel c) := by simp [nextQueued, h2]
      have hd'' : nextQueued A (nextLevel (nextLevel c)) = c := by
        simp [nextQueued, hcycle, hlist]
      rw [← List.take_append_drop (n.length + 1) (starts.drop (l.length + 1))]
      obtain ⟨v, hv, hturn', hdispatches'⟩ := hturn.passes (by rw [hd', h2]) fuel
        ((starts.drop (l.length + 1)).take (n.length + 1)) (by simp [hlen, h1, h2])
      rw [hd'] at hturn'
      obtain ⟨t', ht', hturn'', hdispatches''⟩ := hturn'.passes (by rw [hd'', hlist]) fuel
        ((starts.drop (l.length + 1)).drop (n.length + 1)) (by simp [hlen, h1, h2]; omega)
      rw [hd''] at hturn''
      exact ⟨t', yieldHelpers_append hu (yieldHelpers_append hv ht'), hturn'',
        by simp [hdispatches'', hdispatches', hdispatches]⟩

/-- A running thread at the head of its level at the start of its level's round, where no
thread has yielded or terminated and every thread's priority is its level. -/
structure AtHead (t : State TcbLists) (c : ℤ) (p : TcbPtr) (l : List TcbPtr) : Prop where
  low : 0 ≤ c
  high : c ≤ 2
  list : t.queues (.level c) = p :: l
  fit : Fit t.queues t.tcbs
  current : t.currentTcb = some p
  hasRun : t.hasRun = 1

theorem AtHead.turn (h : AtHead t c p l) : Turn t.queues c [] p l t :=
  ⟨h.low, h.high, h.list, by rw [List.append_nil, ← h.list, Lists.set_eq_self], h.fit, h.current,
    h.hasRun⟩

theorem yieldHelpers_refines {s : State TcbLinks} (hr : Refines s t) (fuel : ℕ)
    (starts : List Time) :
    Matches Refines (yieldHelpers fuel starts s) (yieldHelpers fuel starts t) := by
  induction starts generalizing s t with
  | nil => exact .ok hr
  | cons start starts ih =>
    obtain ⟨L, h, rfl⟩ := hr
    exact (yieldHelper_refines start (fuel + 1) L t h).bind fun s' t' hr' => ih hr'

theorem mem_levels (hc : 0 ≤ c) (hc' : c ≤ 2) (r : TcbPtr) :
    (r ∈ A (.level c) ∨ r ∈ restOfLevels A c) ↔
      r ∈ A (.level 0) ∨ r ∈ A (.level 1) ∨ r ∈ A (.level 2) := by
  obtain rfl | rfl | rfl : c = 0 ∨ c = 1 ∨ c = 2 := by omega
  all_goals
    simp only [restOfLevels, nextLevel, numberLevels, List.mem_append]
    norm_num
    try tauto

theorem length_levels (hc : 0 ≤ c) (hc' : c ≤ 2) :
    (A (.level c)).length + (restOfLevels A c).length =
      (A (.level 0)).length + (A (.level 1)).length + (A (.level 2)).length := by
  obtain rfl | rfl | rfl : c = 0 ∨ c = 1 ∨ c = 2 := by omega
  all_goals
    simp only [restOfLevels, nextLevel, numberLevels, List.length_append]
    norm_num
    try omega

theorem nodup_levels (h : A.Distinct) (hc : 0 ≤ c) (hc' : c ≤ 2) :
    (A (.level c) ++ restOfLevels A c).Nodup := by
  have happart : ∀ i j, i ≠ j → (A (.level i)).Disjoint (A (.level j)) :=
    fun i j hij r hi hj => hij (by simpa using h.apart _ _ r hi hj)
  have hne : c ≠ nextLevel c ∧ c ≠ nextLevel (nextLevel c) ∧
      nextLevel c ≠ nextLevel (nextLevel c) := by
    obtain rfl | rfl | rfl : c = 0 ∨ c = 1 ∨ c = 2 := by omega
    all_goals decide
  refine (h.nodup _).append ((h.nodup _).append (h.nodup _) (happart _ _ hne.2.2)) ?_
  exact List.disjoint_append_right.mpr ⟨happart _ _ hne.1, happart _ _ hne.2.1⟩

/-- As many runs of the helper as there are threads dispatch every thread once: the rest of
the running thread's level in order, then the other levels in cyclic order, then the
thread itself. The queues, `HAS_RUN` and `current_tcb` come back to what they were. -/
theorem yieldHelper_periodic {s : State TcbLinks} (hr : Refines s t) (h : AtHead t c p l)
    (starts : List Time) (hlen : starts.length = (t.queues (.level 0)).length +
      (t.queues (.level 1)).length + (t.queues (.level 2)).length) (fuel : ℕ) :
    ∃ s' t', yieldHelpers fuel starts s = .ok s' ∧ Refines s' t' ∧ t'.queues = t.queues ∧
      s'.hasRun = s.hasRun ∧ s'.currentTcb = s.currentTcb ∧
      ∃ order, s'.dispatches = s.dispatches ++ order ∧
        order = l ++ restOfLevels t.queues c ++ [p] ∧ order.Nodup ∧
        ∀ r, r ∈ order ↔ r ∈ t.queues (.level 0) ∨ r ∈ t.queues (.level 1) ∨
          r ∈ t.queues (.level 2) := by
  have hcount := length_levels (A := t.queues) h.low h.high
  rw [h.list, List.length_cons] at hcount
  obtain ⟨t', ht', hturn, hdispatches⟩ := h.turn.period fuel starts (by omega)
  obtain ⟨s', hres, L', hagrees', rfl⟩ := (yieldHelpers_refines hr fuel starts).of_ok_right ht'
  obtain ⟨L, hagrees, rfl⟩ := hr
  have hback : t'.queues = t.queues := by
    rw [hturn.queues, List.append_nil, ← h.list, Lists.set_eq_self]
  have hperm : (p :: l ++ restOfLevels t.queues c).Perm (l ++ restOfLevels t.queues c ++ [p]) :=
    (List.perm_append_singleton p _).symm
  have hnodup := nodup_levels hagrees.distinct h.low h.high
  rw [h.list] at hnodup
  refine ⟨_, t', hres, ⟨L', hagrees', rfl⟩, hback, hturn.hasRun.trans h.hasRun.symm,
    hturn.current.trans h.current.symm, _, hdispatches, rfl, hperm.nodup_iff.mp hnodup,
    fun r => ?_⟩
  rw [← mem_levels h.low h.high, ← hperm.mem_iff, List.mem_append, h.list]

end Period

section Sample

/-- Two threads on level 0 and one on level 2. -/
def twoLevels : TcbLists := (noLists.set (.level 0) [0, 1]).set (.level 2) [2]

def twoLevelsLinks : TcbLinks :=
  ⟨Function.update (Function.update (fun _ => ⟨none, none, 0⟩) (.level 0) ⟨some 0, some 1, 2⟩)
    (.level 2) ⟨some 2, some 2, 1⟩, fun p => if p = 0 then some 1 else none⟩

theorem twoLevels_agrees : Agrees twoLevelsLinks twoLevels := by
  have hempty : (noLists.set (.level 0) [0, 1]).Distinct :=
    noLinks_agrees.distinct.set (by simp) (by simp [noLists])
  have hlevel : Agrees ⟨Function.update noLinks.queue (.level 0) ⟨some 0, some 1, 2⟩,
      fun p => if p = 0 then some 1 else none⟩ (noLists.set (.level 0) [0, 1]) :=
    noLinks_agrees.update ⟨.cons (.cons .nil), rfl, rfl⟩ (by simp [noLists]) hempty
  refine hlevel.update ⟨.cons .nil, rfl, rfl⟩ (fun _ _ _ _ => rfl)
    (hempty.set (by simp) fun p hp q hq => ?_)
  by_cases h : q = .level 0
  · subst h
    simp [List.mem_singleton.mp hp] at hq
  · rw [Lists.set_of_ne h] at hq
    cases hq

def twoLevelsState : State TcbLists :=
  { State.initial twoLevels
      (fun p => { zeroedTcb with priority := if p = 2 then 2 else 0, state := .ready }) with
    currentTcb := some 0
    hasRun := 1 }

theorem twoLevelsState_atHead : AtHead twoLevelsState 0 0 [1] where
  low := le_rfl
  high := by decide
  list := rfl
  fit := by
    intro i hi hi' p hp
    obtain rfl | rfl | rfl : i = 0 ∨ i = 1 ∨ i = 2 := by omega
    · have hp' : p ∈ [0, 1] := hp
      simp only [List.mem_cons, List.not_mem_nil, or_false] at hp'
      rcases hp' with rfl | rfl <;> constructor <;> decide
    · cases hp
    · obtain rfl := List.mem_singleton.mp hp
      constructor <;> decide
  current := rfl
  hasRun := rfl

theorem yieldHelper_periodic_two : ∃ s' t',
    yieldHelpers 0 [⟨1, 0⟩, ⟨2, 0⟩, ⟨3, 0⟩] (twoLevelsState.withQueues twoLevelsLinks) = .ok s' ∧
      Refines s' t' ∧ t'.queues = twoLevels ∧ s'.hasRun = 1 ∧ s'.currentTcb = some 0 ∧
      ∃ order, s'.dispatches = [] ++ order ∧ order = [1] ++ restOfLevels twoLevels 0 ++ [0] ∧
        order.Nodup ∧ ∀ r, r ∈ order ↔ r ∈ twoLevels (.level 0) ∨ r ∈ twoLevels (.level 1) ∨
          r ∈ twoLevels (.level 2) :=
  yieldHelper_periodic (.of_agrees twoLevels_agrees) twoLevelsState_atHead
    [⟨1, 0⟩, ⟨2, 0⟩, ⟨3, 0⟩] (by decide) 0

end Sample

end VirtualMemorySimulation.Scheduler
