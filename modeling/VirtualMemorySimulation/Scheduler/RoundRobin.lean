import VirtualMemorySimulation.Scheduler.Refinement

/-!
# Round robin on one level

Every call schedules at level 0, so the search over the levels always comes back
to it. A signal past the time slice then rotates level 0 over threads that have
terminated and dispatches the first one that has not. What the handler leaves
alone is stated once, as a frame.
-/

namespace VirtualMemorySimulation.Scheduler

open Execution LinkedQueue

def State.contextOf {σ : Type} (s : State σ) (p : TcbPtr) : Context :=
  if s.cpu.owner = p then s.cpu else (s.tcbs p).context

theorem contextOf_self {σ : Type} (s : State σ) : s.contextOf s.cpu.owner = s.cpu := if_pos rfl

theorem contextOf_eq_tcb {σ : Type} {s : State σ} {p : TcbPtr} (h : s.cpu.owner ≠ p) :
    s.contextOf p = (s.tcbs p).context := if_neg h

/-- The context on the processor is also the saved one. -/
def State.Saved {σ : Type} (s : State σ) : Prop := (s.tcbs s.cpu.owner).context = s.cpu

theorem State.Saved.contextOf {σ : Type} {s : State σ} (h : s.Saved) (p : TcbPtr) :
    s.contextOf p = (s.tcbs p).context := by
  unfold State.contextOf
  split_ifs with hp
  · exact hp ▸ h.symm
  · rfl

structure OneLevel (t : State TcbLists) : Prop where
  levels : ∀ i, i ≠ 0 → t.queues (.level i) = []
  priority : ∀ p ∈ t.queues (.level 0), (t.tcbs p).priority = 0
  noYield : ∀ p ∈ t.queues (.level 0), (t.tcbs p).state ≠ .yield

/-- The head of level 0 becomes its tail, ready unless it has terminated. -/
def State.rotate (t : State TcbLists) (p : TcbPtr) (l : List TcbPtr) : State TcbLists :=
  ({ t with queues := t.queues.set (.level 0) (l ++ [p]) } : State TcbLists).preempt p

@[simps] def State.select (t : State TcbLists) (n : ℕ) (currentTcb : Option TcbPtr) :
    State TcbLists := { t with hasRun := n, currentTcb }

/-- The processor goes to the thread at the head of level 0. -/
@[simps] def State.dispatch (t : State TcbLists) (start : Time) (p : TcbPtr) (l : List TcbPtr)
    (n : ℕ) : State TcbLists :=
  { t with
    queues := t.queues.set (.level 0) (p :: l)
    tcbs := Function.update t.tcbs p { t.tcbs p with state := .running, recentStartTime := start }
    currentTcb := some p
    hasRun := n
    cpu := (t.tcbs p).context
    dispatches := t.dispatches ++ [p] }

def State.live (t : State TcbLists) (p : TcbPtr) : Bool := (t.tcbs p).state ≠ .terminated

theorem live_iff {t : State TcbLists} {p : TcbPtr} :
    t.live p = true ↔ (t.tcbs p).state ≠ .terminated := decide_eq_true_iff

/-- The first thread of level 0 that has not terminated has been dispatched, and level 0
rotated up to it. -/
def Dispatched (start : Time) (t t' : State TcbLists) : Prop :=
  ∃ p l n, (p :: l).Perm (t.queues (.level 0)) ∧ (t.queues (.level 0)).find? t.live = some p ∧
    t' = t.dispatch start p l n

section Rotation

variable {t t' : State TcbLists} {p : TcbPtr} {l : List TcbPtr}

theorem preempt_state (t : State TcbLists) (p r : TcbPtr) :
    ((t.preempt p).tcbs r).state =
      if r = p ∧ (t.tcbs p).state ≠ .terminated then .ready else (t.tcbs r).state := by
  unfold State.preempt
  by_cases hr : r = p
  · subst hr
    split_ifs <;> simp_all
  · split_ifs <;> simp_all

theorem preempt_tcb (t : State TcbLists) (p r : TcbPtr) :
    ∃ state, (t.preempt p).tcbs r = { t.tcbs r with state } := by
  unfold State.preempt
  split_ifs
  · by_cases hr : r = p
    · subst hr
      exact ⟨.ready, Function.update_self ..⟩
    · exact ⟨(t.tcbs r).state, Function.update_of_ne hr ..⟩
  · exact ⟨(t.tcbs r).state, rfl⟩

theorem preempt_terminated (h : (t.tcbs p).state = .terminated) : t.preempt p = t := by
  unfold State.preempt
  rw [if_neg (not_not_intro h)]

@[simp] theorem rotate_level : (t.rotate p l).queues (.level 0) = l ++ [p] := by
  simp [State.rotate]

@[simp] theorem rotate_afterUnlock (t : State TcbLists) (p : TcbPtr) (l : List TcbPtr) :
    (t.rotate p l).afterUnlockPriority = t.afterUnlockPriority := by
  unfold State.rotate State.preempt
  split_ifs <;> rfl

@[simp] theorem rotate_dispatches (t : State TcbLists) (p : TcbPtr) (l : List TcbPtr) :
    (t.rotate p l).dispatches = t.dispatches := by
  unfold State.rotate State.preempt
  split_ifs <;> rfl

@[simp] theorem rotate_threads (t : State TcbLists) (p : TcbPtr) (l : List TcbPtr) :
    (t.rotate p l).threads = t.threads := by
  unfold State.rotate State.preempt
  split_ifs <;> rfl

theorem OneLevel.rotate (h : OneLevel t) (hq : t.queues (.level 0) = p :: l) :
    OneLevel (t.rotate p l) := by
  have hmem : ∀ r ∈ l ++ [p], r ∈ t.queues (.level 0) := by
    intro r hr
    rw [hq]
    exact (List.perm_append_singleton p l).mem_iff.mp hr
  refine ⟨fun i hi => ?_, fun r hr => ?_, fun r hr => ?_⟩
  · simp only [State.rotate, preempt_queues]
    rw [Lists.set_of_ne (by simpa using hi)]
    exact h.levels i hi
  · rw [rotate_level] at hr
    obtain ⟨state, heq⟩ := preempt_tcb { t with queues := t.queues.set (.level 0) (l ++ [p]) } p r
    rw [State.rotate, heq]
    exact h.priority r (hmem r hr)
  · rw [rotate_level] at hr
    rw [State.rotate, preempt_state]
    split_ifs
    · simp
    · exact h.noYield r (hmem r hr)

theorem OneLevel.select (h : OneLevel t) (n : ℕ) (currentTcb : Option TcbPtr) :
    OneLevel (t.select n currentTcb) := ⟨h.levels, h.priority, h.noYield⟩

theorem rotate_terminated (h : (t.tcbs p).state = .terminated) :
    t.rotate p l = { t with queues := t.queues.set (.level 0) (l ++ [p]) } :=
  preempt_terminated h

/-- Passing over a terminated thread changes the order of level 0 only. -/
theorem Dispatched.of_skip {start : Time} {n : ℕ} {currentTcb : Option TcbPtr}
    (hq : t.queues (.level 0) = p :: l) (hp : (t.tcbs p).state = .terminated)
    (h : Dispatched start ((t.select n currentTcb).rotate p l) t') : Dispatched start t t' := by
  obtain ⟨r, l', k, hperm, hr, rfl⟩ := h
  rw [rotate_level] at hperm hr
  have hp' : ((t.select n currentTcb).tcbs p).state = .terminated := hp
  have hdead : t.live p = false := by simpa [State.live] using hp
  rw [rotate_terminated hp'] at hr ⊢
  refine ⟨r, l', k, ?_, ?_, ?_⟩
  · rw [hq]
    exact hperm.trans (List.perm_append_singleton p l)
  · have hr' : (l ++ [p]).find? t.live = some r := hr
    rw [List.find?_append, List.find?_singleton, hdead] at hr'
    rw [hq, List.find?_cons_of_neg (by simp [hdead])]
    simpa using hr'
  · simp [State.dispatch, State.select]

end Rotation

section Helpers

variable {t t' : State TcbLists} {p cur : TcbPtr} {l : List TcbPtr}

theorem peek_level (t : State TcbLists) (i : ℤ) :
    QueueStore.peek (QueuePtr.level i) t.queues = (t.queues (.level i)).head? := rfl

theorem size_level (t : State TcbLists) (i : ℤ) :
    QueueStore.size (QueuePtr.level i) t.queues = (t.queues (.level i)).length := rfl

theorem firstQueued_head (hq : t.queues (.level 0) = p :: l) : firstQueued t.queues = some p := by
  have hsize : 0 < QueueStore.size (QueuePtr.level 0) t.queues := by simp [size_level, hq]
  rw [firstQueued, List.find?_cons_of_pos (by simpa using hsize)]
  simp [peek_level, hq]

theorem firstQueued_none (h : OneLevel t) (hq : t.queues (.level 0) = []) :
    firstQueued t.queues = none := by
  have hsize : ∀ i ∈ ([0, 1, 2] : List ℤ), QueueStore.size (QueuePtr.level i) t.queues = 0 := by
    intro i _
    rcases eq_or_ne i 0 with rfl | hi
    · simp [size_level, hq]
    · simp [size_level, h.levels i hi]
  rw [firstQueued, List.find?_eq_none.mpr fun i hi => by simp [hsize i hi]]

/-- Whatever the count of threads that have run, the head of level 0 is selected. -/
theorem selectNext_head (h : OneLevel t) (hq : t.queues (.level 0) = p :: l) :
    ∃ n, selectNext 0 t = .ok (t.select n (some p)) := by
  have h1 : nextLevel 0 = 1 := rfl
  have h2 : nextLevel 1 = 2 := rfl
  simp only [selectNext, h1, h2, peek_level, h.levels 1 (by decide), h.levels 2 (by decide),
    firstQueued_head hq, hq]
  split_ifs
  · exact ⟨0, rfl⟩
  · exact ⟨t.hasRun, rfl⟩

theorem selectNext_none (h : OneLevel t) (hq : t.queues (.level 0) = []) :
    selectNext 0 t = .ok (t.select 0 none) := by
  have h1 : nextLevel 0 = 1 := rfl
  have h2 : nextLevel 1 = 2 := rfl
  have hsize : QueueStore.size (QueuePtr.level 0) t.queues ≤ t.hasRun := by simp [size_level, hq]
  rw [selectNext, if_pos hsize]
  simp [h1, h2, peek_level, h.levels 1 (by decide), h.levels 2 (by decide), firstQueued_none h hq,
    State.select]

theorem runNextSending_head (h : OneLevel t) (hq : t.queues (.level 0) = p :: l) (start : Time) :
    ∃ n, ∀ again : State TcbLists → Except Stop (List TcbPtr × State TcbLists),
      runNextSending start again 0 t =
        if (t.tcbs p).state = .terminated then again (t.select n (some p))
        else .ok ([], t.dispatch start p l (n + 1)) := by
  obtain ⟨n, hn⟩ := selectNext_head h hq
  have hself : t.queues.set (.level 0) (p :: l) = t.queues := by
    rw [← hq]
    exact Lists.set_eq_self ..
  have hyield : (t.tcbs p).state ≠ .yield := h.noYield p (by simp [hq])
  refine ⟨n, fun again => ?_⟩
  rw [runNextSending, hn, ok_bind]
  change (if (t.tcbs p).state = .yield then _ else if (t.tcbs p).state = .terminated then
    again (t.select n (some p)) else _) = _
  rw [if_neg hyield]
  split_ifs
  · rfl
  · simp [State.dispatch, State.setTcb, State.select, hself]

theorem runNext_head (h : OneLevel t) (hq : t.queues (.level 0) = p :: l) (start : Time) :
    ∃ n, ∀ again : State TcbLists → Except Stop (State TcbLists), runNext start again 0 t =
      if (t.tcbs p).state = .terminated then again (t.select n (some p))
      else .ok (t.dispatch start p l (n + 1)) := by
  obtain ⟨n, hn⟩ := runNextSending_head h hq start
  refine ⟨n, fun again => ?_⟩
  have hagain : ∀ s, ((again s).map (Prod.mk ([] : List TcbPtr))).map Prod.snd = again s := by
    intro s
    cases again s <;> rfl
  rw [← runNextSending_snd start hagain, hn]
  split_ifs
  · exact hagain _
  · rfl

theorem runNext_none (h : OneLevel t) (hq : t.queues (.level 0) = []) (start : Time)
    (again : State TcbLists → Except Stop (State TcbLists)) :
    runNext start again 0 t = .ok (t.select 0 none) := by
  rw [runNext, selectNext_none h hq]
  rfl

theorem scheduled_eq (hp : (t.tcbs p).priority = 0) : t.scheduled p =
    { t with queues := t.queues.set (.level 0) (t.queues (.level 0) ++ [p]) } := by
  have htcb : { t.tcbs p with priority := 0 } = t.tcbs p := by rw [← hp]
  simp [State.scheduled, htcb, State.setTcb]

theorem reschedule_rotates (hp : (t.tcbs p).priority = 0) :
    scheduleThread (some p)
        ((({ t with queues := t.queues.set (.level 0) l } : State TcbLists).preempt p).tcbs p).priority
        (({ t with queues := t.queues.set (.level 0) l } : State TcbLists).preempt p) =
      .ok (t.rotate p l) := by
  set u : State TcbLists := { t with queues := t.queues.set (.level 0) l } with hu
  have hprio : ((u.preempt p).tcbs p).priority = 0 := by
    obtain ⟨state, heq⟩ := preempt_tcb u p p
    rw [heq]
    exact hp
  rw [hprio, scheduleThread_first, scheduled_eq hprio]
  unfold State.rotate State.preempt
  simp only [hu]
  split_ifs <;> simp [State.setTcb]

theorem yieldHelperSending_rotates (h : OneLevel t) (hcur : t.currentTcb = some cur)
    (hprio : (t.tcbs cur).priority = 0) (hq : t.queues (.level 0) = p :: l) (start : Time)
    (fuel : ℕ) : yieldHelperSending start (fuel + 1) t =
      (runNextSending start (yieldHelperSending start fuel) 0 (t.rotate p l)).map
        fun res => (p :: res.1, res.2) := by
  have hdeq := Lists.dequeue_cons hq
  have hp : (t.tcbs p).priority = 0 := h.priority p (by simp [hq])
  rw [yieldHelperSending_succ hcur, hprio, hdeq, ok_bind]
  dsimp only
  rw [reschedule_rotates hp, ok_bind]

theorem yieldHelper_rotates (h : OneLevel t) (hcur : t.currentTcb = some cur)
    (hprio : (t.tcbs cur).priority = 0) (hq : t.queues (.level 0) = p :: l) (start : Time)
    (fuel : ℕ) : yieldHelper start (fuel + 1) t =
      runNext start (yieldHelper start fuel) 0 (t.rotate p l) := by
  rw [← yieldHelperSending_snd, yieldHelperSending_rotates h hcur hprio hq,
    ← runNextSending_snd start (yieldHelperSending_snd start fuel)]
  cases runNextSending start (yieldHelperSending start fuel) 0 (t.rotate p l) <;> rfl

theorem yieldHelper_empty (hcur : t.currentTcb = some cur) (hprio : (t.tcbs cur).priority = 0)
    (hq : t.queues (.level 0) = []) (start : Time) (fuel : ℕ) :
    yieldHelper start (fuel + 1) t = .error .nullDereference := by
  have hdeq := Lists.dequeue_nil hq
  rw [yieldHelper_succ hcur, hprio, hdeq]
  rfl

/-- A helper that comes back has rotated level 0 at least once and dispatched. -/
theorem yieldHelper_dispatches {start : Time} {fuel : ℕ} (h : OneLevel t)
    (hcur : t.currentTcb = some cur) (hprio : (t.tcbs cur).priority = 0)
    (ht' : yieldHelper start fuel t = .ok t') :
    ∃ p l, t.queues (.level 0) = p :: l ∧ Dispatched start (t.rotate p l) t' := by
  induction fuel generalizing t cur with
  | zero => cases ht'
  | succ fuel ih =>
    cases hq : t.queues (.level 0) with
    | nil =>
      rw [yieldHelper_empty hcur hprio hq] at ht'
      cases ht'
    | cons p l =>
      refine ⟨p, l, rfl, ?_⟩
      have hrot := h.rotate hq
      obtain ⟨r, l', hr⟩ : ∃ r l', (t.rotate p l).queues (.level 0) = r :: l' := by
        rw [rotate_level]
        exact List.exists_cons_of_ne_nil (by simp)
      rw [yieldHelper_rotates h hcur hprio hq] at ht'
      obtain ⟨n, hn⟩ := runNext_head hrot hr start
      rw [hn] at ht'
      split_ifs at ht' with hterm
      · have hr0 : ((t.rotate p l).tcbs r).priority = 0 := hrot.priority r (by simp [hr])
        obtain ⟨r', l'', hq', hd⟩ := ih (hrot.select n (some r)) rfl hr0 ht'
        obtain ⟨rfl, rfl⟩ := List.cons.inj (hq'.symm.trans hr)
        exact hd.of_skip hr hterm
      · obtain rfl := Except.ok.inj ht'
        exact ⟨r, l', n + 1, by rw [hr], by
          rw [hr, List.find?_cons_of_pos (live_iff.mpr hterm)], rfl⟩

/-- The selection of the next thread, with the rounds of the helper that it may lead to. -/
theorem runNext_dispatches {start : Time} {fuel : ℕ} (h : OneLevel t)
    (hq : t.queues (.level 0) = p :: l)
    (ht' : runNext start (yieldHelper start fuel) 0 t = .ok t') : Dispatched start t t' := by
  obtain ⟨n, hn⟩ := runNext_head h hq start
  rw [hn] at ht'
  split_ifs at ht' with hterm
  · have hp : (t.tcbs p).priority = 0 := h.priority p (by simp [hq])
    obtain ⟨p', l', hq', hd⟩ := yieldHelper_dispatches (h.select n (some p)) rfl hp ht'
    obtain ⟨rfl, rfl⟩ := List.cons.inj (hq'.symm.trans hq)
    exact hd.of_skip hq hterm
  · obtain rfl := Except.ok.inj ht'
    exact ⟨p, l, n + 1, by rw [hq], by
      rw [hq, List.find?_cons_of_pos (live_iff.mpr hterm)], rfl⟩

end Helpers

section Handler

/-- What a signal can lead to. -/
inductive Handled (now start : Time) (t : State TcbLists) : State TcbLists → Prop
  /-- Inside the time slice nothing changes. -/
  | within {cur : TcbPtr} : t.currentTcb = some cur → ¬ PastSlice t cur now → Handled now start t t
  | rotated {cur p : TcbPtr} {l : List TcbPtr} {t' : State TcbLists} : t.currentTcb = some cur →
      PastSlice t cur now → t.afterUnlockPriority = -1 → t.queues (.level 0) = p :: l →
      Dispatched start ((t.save cur).rotate p l) t' → Handled now start t t'
  /-- After an unlock the head is dispatched without a rotation. -/
  | resumed {cur p : TcbPtr} {l : List TcbPtr} {t' : State TcbLists} : t.currentTcb = some cur →
      PastSlice t cur now → t.afterUnlockPriority = 0 → t.queues (.level 0) = p :: l →
      Dispatched start { t.save cur with afterUnlockPriority := -1 } t' → Handled now start t t'
  /-- With nothing to run `current_tcb` becomes `NULL`, and the handler returns. -/
  | idle {cur : TcbPtr} : t.currentTcb = some cur → PastSlice t cur now →
      t.afterUnlockPriority = 0 → t.queues (.level 0) = [] →
      Handled now start t (({ t.save cur with afterUnlockPriority := -1 }).select 0 none)

variable {t t' : State TcbLists} {cur : TcbPtr}

theorem save_tcb (t : State TcbLists) (cur r : TcbPtr) :
    ∃ context, (t.save cur).tcbs r = { t.tcbs r with context } := by
  by_cases hr : r = cur
  · subst hr
    exact ⟨t.cpu, Function.update_self ..⟩
  · exact ⟨(t.tcbs r).context, Function.update_of_ne hr ..⟩

theorem OneLevel.save (h : OneLevel t) (cur : TcbPtr) : OneLevel (t.save cur) := by
  refine ⟨h.levels, fun p hp => ?_, fun p hp => ?_⟩
  · obtain ⟨context, heq⟩ := save_tcb t cur p
    rw [heq]
    exact h.priority p hp
  · obtain ⟨context, heq⟩ := save_tcb t cur p
    rw [heq]
    exact h.noYield p hp

/-- A handler that comes back has done one of these. -/
theorem signalHandler_handled {now start : Time} {fuel : ℕ} (h : OneLevel t)
    (hprio : ∀ cur, t.currentTcb = some cur → (t.tcbs cur).priority = 0)
    (hafter : t.afterUnlockPriority = -1 ∨ t.afterUnlockPriority = 0)
    (ht' : signalHandler now start fuel t = .ok t') : Handled now start t t' := by
  cases hcur : t.currentTcb with
  | none =>
    rw [signalHandler_null hcur] at ht'
    cases ht'
  | some cur =>
    by_cases hpast : PastSlice t cur now
    · rw [signalHandler_past hcur hpast] at ht'
      have hsave := h.save cur
      rcases hafter with hafter | hafter
      · rw [if_neg (by simp [hafter])] at ht'
        have hprio' : ((t.save cur).tcbs cur).priority = 0 := by
          obtain ⟨context, heq⟩ := save_tcb t cur cur
          rw [heq]
          exact hprio cur hcur
        obtain ⟨p, l, hq, hd⟩ := yieldHelper_dispatches hsave hcur hprio' ht'
        exact .rotated hcur hpast hafter hq hd
      · rw [if_pos (by simp [hafter]), hafter] at ht'
        have hsave' : OneLevel { t.save cur with afterUnlockPriority := -1 } :=
          ⟨hsave.levels, hsave.priority, hsave.noYield⟩
        cases hq : t.queues (.level 0) with
        | nil =>
          rw [runNext_none hsave' hq] at ht'
          obtain rfl := Except.ok.inj ht'
          exact .idle hcur hpast hafter hq
        | cons p l => exact .resumed hcur hpast hafter hq (runNext_dispatches hsave' hq ht')
    · rw [signalHandler_within hcur hpast] at ht'
      obtain rfl := Except.ok.inj ht'
      exact .within hcur hpast

end Handler

section Frame

/-- What a signal leaves alone of a control block. -/
structure Kept (a b : Tcb) : Prop where
  tid : b.tid = a.tid
  priority : b.priority = a.priority
  returnValue : b.returnValue = a.returnValue
  terminated : b.state = .terminated ↔ a.state = .terminated
  noYield : a.state ≠ .yield → b.state ≠ .yield

theorem Kept.refl (a : Tcb) : Kept a a := ⟨rfl, rfl, rfl, .rfl, id⟩

theorem Kept.trans {a b c : Tcb} (h : Kept a b) (h' : Kept b c) : Kept a c :=
  ⟨h'.tid.trans h.tid, h'.priority.trans h.priority, h'.returnValue.trans h.returnValue,
    h'.terminated.trans h.terminated, fun ha => h'.noYield (h.noYield ha)⟩

/-- What a signal leaves alone. -/
structure Frame (t t' : State TcbLists) : Prop where
  queues : ∀ q, (t'.queues q).Perm (t.queues q)
  tcbs : ∀ p, Kept (t.tcbs p) (t'.tcbs p)
  context : ∀ p, t'.contextOf p = t.contextOf p
  threads : t'.threads = t.threads
  handles : t'.handles = t.handles
  frontier : t'.frontier = t.frontier
  scheduler : t'.scheduler = t.scheduler
  schedulerInit : t'.schedulerInit = t.schedulerInit
  tid : t'.tid = t.tid
  mutexes : t'.mutexes = t.mutexes

variable {t t' t'' : State TcbLists} {p cur : TcbPtr} {l : List TcbPtr} {start : Time} {n : ℕ}

theorem Frame.refl (t : State TcbLists) : Frame t t :=
  ⟨fun _ => .refl _, fun _ => .refl _, fun _ => rfl, rfl, rfl, rfl, rfl, rfl, rfl, rfl⟩

theorem Frame.trans (h : Frame t t') (h' : Frame t' t'') : Frame t t'' where
  queues q := (h'.queues q).trans (h.queues q)
  tcbs p := (h.tcbs p).trans (h'.tcbs p)
  context p := (h'.context p).trans (h.context p)
  threads := h'.threads.trans h.threads
  handles := h'.handles.trans h.handles
  frontier := h'.frontier.trans h.frontier
  scheduler := h'.scheduler.trans h.scheduler
  schedulerInit := h'.schedulerInit.trans h.schedulerInit
  tid := h'.tid.trans h.tid
  mutexes := h'.mutexes.trans h.mutexes

theorem Frame.select (t : State TcbLists) (n : ℕ) (currentTcb : Option TcbPtr) :
    Frame t (t.select n currentTcb) := { Frame.refl t with }

theorem Frame.afterUnlock (t : State TcbLists) (afterUnlockPriority : ℤ) :
    Frame t { t with afterUnlockPriority } := { Frame.refl t with }

theorem Frame.save (h : t.cpu.owner = cur) : Frame t (t.save cur) := by
  refine { Frame.refl t with tcbs := fun p => ?_, context := fun p => ?_ }
  · obtain ⟨context, heq⟩ := save_tcb t cur p
    rw [heq]
    exact ⟨rfl, rfl, rfl, .rfl, id⟩
  · unfold State.contextOf
    by_cases hp : t.cpu.owner = p
    · rw [if_pos hp]
      exact if_pos hp
    · rw [if_neg hp]
      refine (if_neg hp).trans ?_
      exact congrArg Tcb.context (Function.update_of_ne (h ▸ Ne.symm hp) ..)

theorem save_saved (h : t.cpu.owner = cur) : (t.save cur).Saved := by
  subst h
  unfold State.Saved
  simp [State.save]

theorem preempt_context (t : State TcbLists) (p r : TcbPtr) :
    ((t.preempt p).tcbs r).context = (t.tcbs r).context := by
  obtain ⟨state, heq⟩ := preempt_tcb t p r
  rw [heq]

@[simp] theorem preempt_cpu (t : State TcbLists) (p : TcbPtr) : (t.preempt p).cpu = t.cpu := by
  unfold State.preempt
  split_ifs <;> rfl

theorem preempt_kept (t : State TcbLists) (p r : TcbPtr) :
    Kept (t.tcbs r) ((t.preempt p).tcbs r) := by
  have hstate := preempt_state t p r
  obtain ⟨state, heq⟩ := preempt_tcb t p r
  rw [heq] at hstate ⊢
  dsimp only at hstate
  refine ⟨rfl, rfl, rfl, ?_, ?_⟩
  · simp only [hstate]
    split_ifs with h
    · simp [h.1, h.2]
    · rfl
  · intro h
    simp only [hstate]
    split_ifs
    · simp
    · exact h

theorem Frame.rotate (hq : t.queues (.level 0) = p :: l) : Frame t (t.rotate p l) := by
  have hframe : Frame t { t with queues := t.queues.set (.level 0) (l ++ [p]) } := by
    refine { Frame.refl t with queues := fun q => ?_ }
    by_cases h : q = .level 0
    · subst h
      simp [hq, List.perm_append_singleton]
    · simp [Lists.set_of_ne h]
  apply hframe.trans
  set u : State TcbLists := { t with queues := t.queues.set (.level 0) (l ++ [p]) } with hu
  change Frame u (u.preempt p)
  have hcontext : ∀ r, (u.preempt p).contextOf r = u.contextOf r := by
    intro r
    simp only [State.contextOf, preempt_cpu, preempt_context]
  have hother : (u.preempt p).queues = u.queues ∧ (u.preempt p).threads = u.threads ∧
      (u.preempt p).handles = u.handles ∧
      (u.preempt p).frontier = u.frontier ∧ (u.preempt p).scheduler = u.scheduler ∧
      (u.preempt p).schedulerInit = u.schedulerInit ∧ (u.preempt p).tid = u.tid ∧
      (u.preempt p).mutexes = u.mutexes := by
    unfold State.preempt
    split_ifs <;> exact ⟨rfl, rfl, rfl, rfl, rfl, rfl, rfl, rfl⟩
  obtain ⟨hqueues, hthreads, hhandles, hfrontier, hscheduler, hinit, htid, hmutexes⟩ := hother
  exact ⟨fun q => by rw [hqueues], preempt_kept u p, hcontext, hthreads, hhandles, hfrontier,
    hscheduler, hinit, htid, hmutexes⟩

theorem rotate_saved (h : t.Saved) : (t.rotate p l).Saved := by
  unfold State.Saved at *
  rw [State.rotate, preempt_context, preempt_cpu]
  exact h

theorem Frame.dispatched (h : t.Saved)
    (howner : ∀ p ∈ t.queues (.level 0), (t.contextOf p).owner = p)
    (hd : Dispatched start t t') : Frame t t' := by
  obtain ⟨p, l, n, hperm, hfind, rfl⟩ := hd
  have hstate : (t.tcbs p).state ≠ .terminated := live_iff.mp (List.find?_some hfind)
  have hp : p ∈ t.queues (.level 0) := hperm.mem_iff.mp (by simp)
  have hpowner : ((t.tcbs p).context).owner = p := by
    rw [← h.contextOf]
    exact howner p hp
  refine { Frame.refl t with queues := fun q => ?_, tcbs := fun r => ?_, context := fun r => ?_ }
  · by_cases hq : q = .level 0
    · subst hq
      simpa using hperm
    · simp [Lists.set_of_ne hq]
  · by_cases hr : r = p
    · subst hr
      rw [State.dispatch_tcbs, Function.update_self]
      exact ⟨rfl, rfl, rfl, by simp [hstate], by simp⟩
    · rw [State.dispatch_tcbs, Function.update_of_ne hr]
      exact .refl _
  · rw [h.contextOf r]
    unfold State.contextOf
    split_ifs with hr
    · rw [← hr]
      simp [hpowner]
    · have hrp : r ≠ p := by
        rintro rfl
        exact hr hpowner
      rw [State.dispatch_tcbs, Function.update_of_ne hrp]

end Frame

end VirtualMemorySimulation.Scheduler
