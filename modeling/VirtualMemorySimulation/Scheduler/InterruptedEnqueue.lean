import VirtualMemorySimulation.Foundations.InterruptedQueue
import VirtualMemorySimulation.Scheduler.LevelRotation

/-!
# A signal between two assignments of `enqueue`

`schedule_thread` enqueues with `SIGALRM` unmasked when it is called by
`my_pthread_mutex_unlock` and `my_pthread_create`. The handler then turns the
queue that is being extended.
-/

namespace VirtualMemorySimulation.Scheduler

open Execution LinkedQueue

def Leveled (A : TcbLists) (tcbs : TcbPtr → Tcb) : Prop :=
  ∀ i, ∀ p ∈ A (.level i), 0 ≤ i ∧ i ≤ 2 ∧ (tcbs p).priority = i

/-- The queues still hold, in some order, what the lists hold. -/
def Carries (R : TcbLinks → TcbLists → Prop) (A : TcbLists) (s : State TcbLinks) : Prop :=
  ∃ B, R s.queues B ∧ (∀ q, (B q).Perm (A q)) ∧ Leveled B s.tcbs

section Turning

variable {R : TcbLinks → TcbLists → Prop} {A : TcbLists} {s s' : State TcbLinks} {i c : ℤ}
  {p cur : TcbPtr} {l : List TcbPtr} {start : Time} {M : TcbLinks}

theorem Leveled.congr {tcbs tcbs' : TcbPtr → Tcb} (h : Leveled A tcbs)
    (heq : ∀ p, (tcbs' p).priority = (tcbs p).priority) : Leveled A tcbs' := by
  intro i p hp
  rw [heq]
  exact h i p hp

theorem perm_turned (hq : A (.level i) = p :: l) (q : QueuePtr) :
    ((A.set (.level i) (l ++ [p])) q).Perm (A q) := by
  by_cases hqq : q = .level i
  · subst hqq
    simp [hq, List.perm_append_singleton]
  · rw [Lists.set_of_ne hqq]

theorem Leveled.turned {tcbs : TcbPtr → Tcb} (h : Leveled A tcbs) (hq : A (.level i) = p :: l) :
    Leveled (A.set (.level i) (l ++ [p])) tcbs :=
  fun j r hr => h j r ((perm_turned hq _).mem_iff.mp hr)

theorem Carries.congr (h : Carries R A s) (hqueues : s'.queues = s.queues)
    (heq : ∀ p, (s'.tcbs p).priority = (s.tcbs p).priority) : Carries R A s' := by
  obtain ⟨B, hR, hperm, hlevel⟩ := h
  exact ⟨B, hqueues ▸ hR, hperm, hlevel.congr heq⟩

theorem preempt_priority {σ : Type} (s : State σ) (p r : TcbPtr) :
    ((s.preempt p).tcbs r).priority = (s.tcbs r).priority := by
  unfold State.preempt
  split_ifs
  · by_cases hr : r = p
    · simp [hr]
    · simp [hr]
  · rfl

theorem yieldHelper_turn (hcur : s.currentTcb = some cur) (hi : (s.tcbs cur).priority = i)
    (hturn : Links.Turns (.level i) p s.queues M) (hp : (s.tcbs p).priority = i) (hlow : 0 ≤ i)
    (hhigh : i ≤ 2) (start : Time) (fuel : ℕ) :
    ∃ u : State TcbLinks, yieldHelper start (fuel + 1) s =
        runNext start (yieldHelper start fuel) i u ∧ u.queues = M ∧
      ∀ r, (u.tcbs r).priority = (s.tcbs r).priority := by
  obtain ⟨L₁, hdeq, henq⟩ := hturn
  set v : State TcbLinks := { s with queues := L₁ } with hv
  have hprio : ((v.preempt p).tcbs p).priority = i := by
    rw [preempt_priority]
    exact hp
  refine ⟨{ (v.preempt p).setTcb p { (v.preempt p).tcbs p with priority := i } with queues := M },
    ?_, rfl, fun r => ?_⟩
  · have hdeq' : QueueStore.dequeue (QueuePtr.level i) s.queues = .ok (some p, L₁) := hdeq
    have henq' : QueueStore.enqueue (QueuePtr.level i) (some p) (v.preempt p).queues = .ok M := by
      rw [preempt_queues]
      exact henq
    rw [yieldHelper_succ hcur, hi, hdeq', ok_bind]
    simp only [← hv, hprio]
    rw [scheduleThread, if_neg (by unfold numberLevels; omega)]
    simp only [State.setTcb_queues, henq', ok_bind]
  · by_cases hr : r = p
    · simp [hr, hp]
    · simp only [State.setTcb_tcbs, Function.update_of_ne hr, preempt_priority]
      rfl

theorem selectNext_frame (h : selectNext i s = .ok s') :
    s'.queues = s.queues ∧ s'.tcbs = s.tcbs := by
  unfold selectNext at h
  split_ifs at h
  · obtain rfl := Except.ok.inj h
    exact ⟨rfl, rfl⟩
  · cases hpeek : QueueStore.peek (QueuePtr.level i) s.queues with
    | none => simp [hpeek] at h
    | some p =>
      rw [hpeek] at h
      obtain rfl := Except.ok.inj h
      exact ⟨rfl, rfl⟩

theorem runNext_carries {again : State TcbLinks → Except Stop (State TcbLinks)}
    (hagain : ∀ s s', Carries R A s → again s = .ok s' → Carries R A s') (h : Carries R A s)
    (hs' : runNext start again i s = .ok s') : Carries R A s' := by
  obtain ⟨u, hu, hnext⟩ := bind_eq_ok.mp hs'
  obtain ⟨hqueues, htcbs⟩ := selectNext_frame hu
  have hcarries : Carries R A u := h.congr hqueues fun p => by rw [htcbs]
  have hpriority : ∀ (v : State TcbLinks) (p : TcbPtr) (tcb : Tcb),
      tcb.priority = (v.tcbs p).priority →
        ∀ r, ((v.setTcb p tcb).tcbs r).priority = (v.tcbs r).priority := by
    intro v p tcb heq r
    by_cases hr : r = p
    · simp [hr, heq]
    · simp [hr]
  cases hcurrent : u.currentTcb with
  | none =>
    simp only [hcurrent, Except.ok.injEq] at hnext
    exact hnext ▸ hcarries
  | some p =>
    simp only [hcurrent] at hnext
    split_ifs at hnext
    · refine hagain _ _ ?_ hnext
      exact hcarries.congr rfl (hpriority u p _ rfl)
    · exact hagain _ _ hcarries hnext
    · obtain rfl := Except.ok.inj hnext
      exact hcarries.congr rfl (hpriority u p _ rfl)

theorem yieldHelper_carries (hR : Rotating R) {fuel : ℕ} (h : Carries R A s)
    (hs' : yieldHelper start fuel s = .ok s') : Carries R A s' := by
  induction fuel generalizing s s' with
  | zero => cases hs'
  | succ fuel ih =>
    obtain ⟨B, hRB, hperm, hlevel⟩ := h
    cases hcur : s.currentTcb with
    | none =>
      rw [yieldHelper_null hcur] at hs'
      cases hs'
    | some cur =>
      cases hq : B (.level (s.tcbs cur).priority) with
      | nil =>
        have hdeq : QueueStore.dequeue (QueuePtr.level (s.tcbs cur).priority) s.queues =
            .ok (none, s.queues) := hR.empty hRB hq
        rw [yieldHelper_succ hcur, hdeq] at hs'
        cases hs'
      | cons p l =>
        obtain ⟨M, hturn, hRM⟩ := hR.head hRB hq
        obtain ⟨hlow, hhigh, hp⟩ := hlevel (s.tcbs cur).priority p (by simp [hq])
        obtain ⟨u, hround, hqueues, hpriority⟩ :=
          yieldHelper_turn hcur rfl hturn hp hlow hhigh start fuel
        rw [hround] at hs'
        refine runNext_carries (fun _ _ => ih) ⟨_, hqueues ▸ hRM, fun q => ?_, ?_⟩ hs'
        · exact (perm_turned hq q).trans (hperm q)
        · exact (hlevel.turned hq).congr hpriority

end Turning

section Interruption

variable {R : TcbLinks → TcbLists → Prop} {A : TcbLists} {s s' : State TcbLinks} {c : ℤ}
  {times : Time × Time}

/-- A signal on which `signal_handler` calls `my_pthread_yield_helper`, with the running
thread's level `c`, and which comes to an end. -/
def HelperRun (c : ℤ) (s : State TcbLinks) (times : Time × Time) (s' : State TcbLinks) : Prop :=
  ∃ cur fuel, s.currentTcb = some cur ∧ (s.tcbs cur).priority = c ∧ s.afterUnlockPriority = -1 ∧
    PastSlice s cur times.1 ∧ tick times.1 times.2 fuel s = .ok s'

theorem HelperRun.yields (h : HelperRun c s times s') : ∃ u cur fuel, u.currentTcb = some cur ∧
    (u.tcbs cur).priority = c ∧ u.queues = s.queues ∧
    (∀ r, (u.tcbs r).priority = (s.tcbs r).priority) ∧ yieldHelper times.2 fuel u = .ok s' := by
  obtain ⟨cur, fuel, hcur, hc, hafter, hpast, htick⟩ := h
  have hcur' : s.interrupt.currentTcb = some cur := hcur
  have hpast' : PastSlice s.interrupt cur times.1 := hpast
  rw [tick, signalHandler_past hcur' hpast', if_neg (by simp [hafter])] at htick
  have hpriority : ∀ r, ((s.interrupt.save cur).tcbs r).priority = (s.tcbs r).priority := by
    intro r
    by_cases hr : r = cur
    · simp [State.save, hr]
    · simp [State.save, hr]
  exact ⟨s.interrupt.save cur, cur, fuel, hcur, (hpriority cur).trans hc, rfl, hpriority, htick⟩

theorem HelperRun.carries (hR : Rotating R) (h : Carries R A s) (hs : HelperRun c s times s') :
    Carries R A s' := by
  obtain ⟨u, cur, fuel, -, -, hqueues, hpriority, hyield⟩ := hs.yields
  exact yieldHelper_carries hR (h.congr hqueues hpriority) hyield

theorem helperRuns_carry (hR : Rotating R) (h : Carries R A s) {ticks : List (Time × Time)}
    (hs : Run (HelperRun c) s ticks s') : Carries R A s' :=
  hs.invariant (I := fun _ => Carries R A) h fun _ _ _ _ hcarries hrun => hrun.carries hR hcarries

variable {L L' : TcbLinks} {tcbs : TcbPtr → Tcb} {k : ℕ} {p x : TcbPtr} {l : List TcbPtr}

/-- The first signal at a point where the new thread is not safe yet takes it back. -/
theorem HelperRun.forgets (h : Agrees L A) (hlevel : Leveled A s.tcbs) (hx : ∀ q, x ∉ A q)
    (hq : A (.level c) = p :: l) (hk : k = 1 ∨ l = [] ∧ (k = 2 ∨ k = 3))
    (hupTo : Links.enqueueUpTo (.level c) x k L = .ok s.queues) (hs : HelperRun c s times s') :
    Carries Agrees A s' := by
  obtain ⟨u, cur, fuel, hcur, hc, hqueues, hpriority, hyield⟩ := hs.yields
  obtain ⟨M, hturn, hagrees⟩ := h.forgets hx hq hk hupTo
  obtain ⟨hlow, hhigh, hp⟩ := hlevel c p (by simp [hq])
  rw [← hqueues] at hturn
  cases fuel with
  | zero => cases hyield
  | succ fuel =>
    obtain ⟨v, hround, hqueues', hpriority'⟩ :=
      yieldHelper_turn hcur hc hturn ((hpriority p).trans hp) hlow hhigh times.2 fuel
    rw [hround] at hyield
    refine runNext_carries (fun _ _ => yieldHelper_carries Agrees.rotating)
      ⟨_, hqueues' ▸ hagrees, perm_turned hq, ?_⟩ hyield
    exact (hlevel.turned hq).congr fun r => (hpriority' r).trans (hpriority r)

/-- On an empty queue the helper dereferences the null pointer it has dequeued. -/
theorem HelperRun.not_empty (h : Agrees L A) (hq : A (.level c) = [])
    (hk : k = 1 ∨ k = 2 ∨ k = 3) (hupTo : Links.enqueueUpTo (.level c) x k L = .ok s.queues) :
    ¬ HelperRun c s times s' := by
  intro hs
  obtain ⟨u, cur, fuel, hcur, hc, hqueues, -, hyield⟩ := hs.yields
  cases fuel with
  | zero => cases hyield
  | succ fuel =>
    have hdeq : QueueStore.dequeue (QueuePtr.level c) u.queues = .ok (none, u.queues) := by
      rw [hqueues]
      exact h.still_empty hq hk hupTo
    rw [yieldHelper_succ hcur, hc, hdeq] at hyield
    cases hyield

/-- With the rest of the enqueue the queues are well formed and hold what they did, and the
new thread once more. -/
def Whole (A : TcbLists) (c : ℤ) (x : TcbPtr) (k count : ℕ) (L : TcbLinks) : Prop :=
  ∃ L' B, Links.enqueueFrom (.level c) x k count L = .ok L' ∧ Agrees L' B ∧
    ∀ q, (B q).Perm ((A.set (.level c) (A (.level c) ++ [x])) q)

theorem Leveled.of_enqueue {tcbs : TcbPtr → Tcb}
    (h : Leveled (A.set (.level c) (A (.level c) ++ [x])) tcbs) : Leveled A tcbs :=
  fun i p hp => h i p (Lists.mem_enqueue.mpr (Or.inl hp))

/-- Signals before the first assignment or after the last do no harm. -/
theorem enqueue_serial (h : Agrees L A)
    (hlevel : Leveled (A.set (.level c) (A (.level c) ++ [x])) s.tcbs) (hx : ∀ q, x ∉ A q)
    (hk : k = 0 ∨ k = 4) (hupTo : Links.enqueueUpTo (.level c) x k L = .ok s.queues)
    {ticks : List (Time × Time)} (hs : Run (HelperRun c) s ticks s') :
    Whole A c x k (L.queue (.level c)).size s'.queues := by
  rcases hk with rfl | rfl
  · obtain rfl : L = s.queues := Except.ok.inj hupTo
    obtain ⟨B, hagrees, hperm, -⟩ := helperRuns_carry Agrees.rotating
      ⟨A, h, fun _ => .refl _, hlevel.of_enqueue⟩ hs
    have hnew : ∀ p, some x = some p → ∀ q, p ∉ B q := by
      rintro p ⟨⟩ q hq
      exact hx q ((hperm q).mem_iff.mp hq)
    have henq := hagrees.enqueue (.level c) hnew
    have hcount : (s.queues.queue (.level c)).size = (s'.queues.queue (.level c)).size := by
      rw [(h.denotes _).size, (hagrees.denotes _).size, (hperm _).length_eq]
    obtain ⟨L', hres, hagrees'⟩ := henq.of_ok_right rfl
    refine ⟨_, _, ?_, hagrees', fun q => ?_⟩
    · rw [hcount]
      exact (Links.enqueueFrom_all (.level c) x s'.queues).trans hres
    · by_cases hq : q = .level c
      · subst hq
        simpa using (hperm _).append_right [x]
      · rw [Lists.set_of_ne hq, Lists.set_of_ne hq]
        exact hperm q
  · have hnew : ∀ p, some x = some p → ∀ q, p ∉ A q := by
      rintro p ⟨⟩
      exact hx
    have henq := h.enqueue (.level c) hnew
    rw [Links.enqueueUpTo_all] at hupTo
    change Matches _ (Links.enqueue (.level c) (some x) L) _ at henq
    rw [hupTo] at henq
    cases henq with
    | ok hagrees =>
      obtain ⟨B, hagrees', hperm, -⟩ := helperRuns_carry Agrees.rotating
        ⟨_, hagrees, fun _ => .refl _, hlevel⟩ hs
      refine ⟨s'.queues, B, ?_, hagrees', hperm⟩
      unfold Links.enqueueFrom Links.assignments
      split_ifs <;> rfl

/-- A point where the new thread is not safe yet: after a signal the queue is broken. -/
theorem enqueue_broken (h : Agrees L A) (hlevel : Leveled A s.tcbs) (hx : ∀ q, x ∉ A q)
    (hk : k = 1 ∨ k = 2 ∨ k = 3) (hpoint : ¬ (2 ≤ (A (.level c)).length ∧ 2 ≤ k))
    (hupTo : Links.enqueueUpTo (.level c) x k L = .ok s.queues) {ticks : List (Time × Time)}
    (hticks : ticks ≠ []) (hs : Run (HelperRun c) s ticks s') {L' : TcbLinks}
    (hL' : Links.enqueueFrom (.level c) x k (L.queue (.level c)).size s'.queues = .ok L') :
    ¬ ∃ B, Agrees L' B := by
  obtain ⟨times, ticks, rfl⟩ := List.exists_cons_of_ne_nil hticks
  obtain ⟨s₁, hfirst, hrest⟩ := hs.uncons
  cases hq : A (.level c) with
  | nil => exact absurd hfirst (HelperRun.not_empty h hq hk hupTo)
  | cons p l =>
    have hone : k = 1 ∨ l = [] ∧ (k = 2 ∨ k = 3) := by
      rw [hq, List.length_cons] at hpoint
      have hlen := List.length_eq_zero_iff (l := l)
      by_cases hl : l = []
      · tauto
      · have := List.length_pos_iff.mpr hl
        omega
    obtain ⟨B, hagrees, hperm, -⟩ := helperRuns_carry Agrees.rotating
      (hfirst.forgets h hlevel hx hq hone hupTo) hrest
    refine hagrees.not_resumed (fun hmem => hx _ ((hperm _).mem_iff.mp hmem)) ?_ hk hL'
    rw [(h.denotes _).size, hq]
    simp

/-- Signals between two assignments leave a whole queue exactly when two threads were
queued and the tail has been set. -/
theorem enqueue_interrupted (h : Agrees L A)
    (hlevel : Leveled (A.set (.level c) (A (.level c) ++ [x])) s.tcbs) (hx : ∀ q, x ∉ A q)
    (hk : k = 1 ∨ k = 2 ∨ k = 3) (hupTo : Links.enqueueUpTo (.level c) x k L = .ok s.queues)
    {ticks : List (Time × Time)} (hticks : ticks ≠ []) (hs : Run (HelperRun c) s ticks s') :
    Whole A c x k (L.queue (.level c)).size s'.queues ↔ 2 ≤ (A (.level c)).length ∧ 2 ≤ k := by
  constructor
  · rintro ⟨L', B, hL', hagrees, -⟩
    by_contra hpoint
    exact enqueue_broken h hlevel.of_enqueue hx hk hpoint hupTo hticks hs hL' ⟨B, hagrees⟩
  · rintro ⟨hlen, hk2⟩
    have hlags := h.lags hx hlen hk2 (by omega) hupTo
    obtain ⟨B, hlags', hperm, -⟩ := helperRuns_carry (Lagging.rotating _ k)
      ⟨_, hlags, fun _ => .refl _, hlevel⟩ hs
    have hcount : (L.queue (.level c)).size ≠ 0 := by
      rw [(h.denotes _).size]
      omega
    obtain ⟨L', hL', hagrees⟩ := hlags'.resumes hcount hk2 (by omega)
    exact ⟨L', B, hL', hagrees, hperm⟩

end Interruption

section Sample

/-- Thread 3 is being enqueued on level 0, behind threads 0 and 1. -/
def enqueuingThird (k : ℕ) : State TcbLinks :=
  twoLevelsState.withQueues
    ((Links.enqueueUpTo (.level 0) 3 k twoLevelsLinks).toOption.getD twoLevelsLinks)

theorem twoLevels_leveled :
    Leveled (twoLevels.set (.level 0) (twoLevels (.level 0) ++ [3])) twoLevelsState.tcbs := by
  intro i p hp
  rcases Lists.mem_enqueue.mp hp with hp | ⟨hi, rfl⟩
  · by_cases h2 : i = 2
    · subst h2
      obtain rfl := List.mem_singleton.mp hp
      decide
    · have hne : QueuePtr.level i ≠ .level 2 := by simpa using h2
      rw [twoLevels, Lists.set_of_ne hne] at hp
      by_cases h0 : i = 0
      · subst h0
        have hp' : p ∈ [0, 1] := hp
        simp only [List.mem_cons, List.not_mem_nil, or_false] at hp'
        rcases hp' with rfl | rfl <;> decide
      · rw [Lists.set_of_ne (by simpa using h0)] at hp
        cases hp
  · obtain rfl : i = 0 := by simpa using hi
    decide

theorem twoLevels_new (q : QueuePtr) : 3 ∉ twoLevels q := by
  unfold twoLevels
  by_cases h2 : q = .level 2
  · simp [h2]
  · rw [Lists.set_of_ne h2]
    by_cases h0 : q = .level 0
    · simp [h0]
    · rw [Lists.set_of_ne h0]
      simp [noLists]

theorem enqueuingThird_ticks (k : ℕ)
    (h : ((tick ⟨1, 0⟩ ⟨1, 0⟩ 2 (enqueuingThird k)).map fun s => s.dispatches) = .ok [1]) :
    ∃ s, Run (HelperRun 0) (enqueuingThird k) [(⟨1, 0⟩, ⟨1, 0⟩)] s := by
  cases htick : tick ⟨1, 0⟩ ⟨1, 0⟩ 2 (enqueuingThird k) with
  | error e => simp [htick, Except.map] at h
  | ok s =>
    have hpast : PastSlice (enqueuingThird k) 0 ⟨1, 0⟩ := by
      change timeCompare ⟨0, 0⟩ ⟨1, 0⟩ (priorityTimeSlice 0) ≠ -1
      decide
    exact ⟨s, .single ⟨0, 2, rfl, rfl, rfl, hpast, htick⟩⟩

theorem enqueue_interrupted_third : ∃ s,
    Run (HelperRun 0) (enqueuingThird 2) [(⟨1, 0⟩, ⟨1, 0⟩)] s ∧
      (Whole twoLevels 0 3 2 (twoLevelsLinks.queue (.level 0)).size s.queues ↔
        2 ≤ (twoLevels (.level 0)).length ∧ 2 ≤ 2) := by
  obtain ⟨s, hs⟩ := enqueuingThird_ticks 2 (by decide +kernel)
  exact ⟨s, hs, enqueue_interrupted twoLevels_agrees twoLevels_leveled twoLevels_new
    (by decide) rfl (by decide) hs⟩

/-- A signal after `q->tail->next_tcb = tcb_node`: the new thread is not linked any more. -/
theorem enqueue_loses_third : ∃ s, Agrees twoLevelsLinks twoLevels ∧
    Links.enqueueUpTo (.level 0) 3 1 twoLevelsLinks = .ok (enqueuingThird 1).queues ∧
    Run (HelperRun 0) (enqueuingThird 1) [(⟨1, 0⟩, ⟨1, 0⟩)] s ∧
    ¬ Whole twoLevels 0 3 1 (twoLevelsLinks.queue (.level 0)).size s.queues := by
  obtain ⟨s, hs⟩ := enqueuingThird_ticks 1 (by decide +kernel)
  refine ⟨s, twoLevels_agrees, rfl, hs, ?_⟩
  rintro ⟨L', B, hL', hagrees, -⟩
  exact enqueue_broken twoLevels_agrees twoLevels_leveled.of_enqueue twoLevels_new
    (Or.inl rfl) (by decide) rfl (by decide) hs hL' ⟨B, hagrees⟩

end Sample

end VirtualMemorySimulation.Scheduler
