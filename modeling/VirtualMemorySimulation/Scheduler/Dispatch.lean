import VirtualMemorySimulation.Scheduler.Threads

/-!
# The signal handler and the two yield helpers

Both helpers end in the same selection of the thread to run. A terminated thread
at the head sends control back into `my_pthread_yield_helper`, whose recursion
spends fuel: with only terminated threads left it does not end. `setcontext`
loads the processor with the saved context.
-/

namespace VirtualMemorySimulation.Scheduler

open Execution LinkedQueue

variable {σ : Type} [QueueStore σ QueuePtr TcbPtr]

/-- `schedule_thread`; a priority out of range is refused without effect. -/
def scheduleThread (node : Option TcbPtr) (priority : ℤ) (s : State σ) :
    Except Stop (State σ) :=
  if priority < 0 ∨ numberLevels - 1 < priority then .ok s
  else
    match node with
    | none => .error .nullDereference
    | some p => do
      let s := s.setTcb p { s.tcbs p with priority }
      let queues ← QueueStore.enqueue (.level priority) (some p) s.queues
      .ok { s with queues }

/-- The level that the search for a non-empty one looks at next. -/
def nextLevel (c : ℤ) : ℤ := if c = numberLevels - 1 then 0 else c + 1

/-- The head of the first level whose count is positive. -/
def firstQueued (queues : σ) : Option TcbPtr :=
  match [0, 1, 2].find? fun i => 0 < QueueStore.size (.level i) queues with
  | some i => QueueStore.peek (.level i) queues
  | none => none

/-- The part of both helpers that sets `current_tcb`. When every thread of the level
has run, the two levels after it are tried, and then all levels. -/
def selectNext (currentPriority : ℤ) (s : State σ) : Except Stop (State σ) :=
  if QueueStore.size (.level currentPriority) s.queues ≤ s.hasRun then
    let c := nextLevel currentPriority
    let next := (QueueStore.peek (.level c) s.queues).or
      (QueueStore.peek (.level (nextLevel c)) s.queues)
    .ok { s with hasRun := 0, currentTcb := next.or (firstQueued s.queues) }
  else
    match QueueStore.peek (.level currentPriority) s.queues with
    | some p => .ok { s with currentTcb := some p }
    | none => .error .nullDereference

/-- The end of both helpers: run the selected thread, or yield `again` in its place. -/
def runNext (start : Time) (again : State σ → Except Stop (State σ)) (currentPriority : ℤ)
    (s : State σ) : Except Stop (State σ) := do
  let s ← selectNext currentPriority s
  match s.currentTcb with
  | none => .ok s
  | some p =>
    if (s.tcbs p).state = .yield then again (s.setTcb p { s.tcbs p with state := .ready })
    else if (s.tcbs p).state = .terminated then again s
    else
      let s := s.setTcb p { s.tcbs p with state := .running, recentStartTime := start }
      .ok { s with
        hasRun := s.hasRun + 1
        cpu := (s.tcbs p).context
        dispatches := s.dispatches ++ [p] }

/-- The thread that gives up the processor is ready again unless it has terminated. -/
def State.preempt (s : State σ) (p : TcbPtr) : State σ :=
  if (s.tcbs p).state ≠ .terminated then s.setTcb p { s.tcbs p with state := .ready } else s

/-- `my_pthread_yield_helper`. -/
def yieldHelper (start : Time) : ℕ → State σ → Except Stop (State σ)
  | 0, _ => .error .outOfFuel
  | fuel + 1, s => do
    let cur ← s.current
    let currentPriority := (s.tcbs cur).priority
    let (node, queues) ← QueueStore.dequeue (.level currentPriority) s.queues
    match node with
    | none => .error .nullDereference
    | some p =>
      let s := { s with queues }.preempt p
      let s ← scheduleThread (some p) (s.tcbs p).priority s
      runNext start (yieldHelper start fuel) currentPriority s

/-- `my_pthread_yield_after_unlock_helper`. -/
def yieldAfterUnlockHelper (start : Time) (fuel : ℕ) (s : State σ) : Except Stop (State σ) :=
  let currentPriority := s.afterUnlockPriority
  runNext start (yieldHelper start fuel) currentPriority { s with afterUnlockPriority := -1 }

def PastSlice (s : State σ) (cur : TcbPtr) (now : Time) : Prop :=
  timeCompare (s.tcbs cur).recentStartTime now (priorityTimeSlice (s.tcbs cur).priority) ≠ -1

instance (s : State σ) (cur : TcbPtr) (now : Time) : Decidable (PastSlice s cur now) :=
  inferInstanceAs (Decidable (_ ≠ _))

/-- `signal_handler`. Inside the time slice it returns to the interrupted context. -/
def signalHandler (now start : Time) (fuel : ℕ) (s : State σ) : Except Stop (State σ) := do
  let cur ← s.current
  if PastSlice s cur now then
    let s := s.setTcb cur { s.tcbs cur with context := s.cpu }
    if s.afterUnlockPriority ≠ -1 then yieldAfterUnlockHelper start fuel s
    else yieldHelper start fuel s
  else .ok s

/-- A delivery of `SIGALRM`. -/
def tick (now start : Time) (fuel : ℕ) (s : State σ) : Except Stop (State σ) :=
  signalHandler now start fuel s.interrupt

section Equations

variable {s : State σ} {cur : TcbPtr}

theorem yieldHelper_succ (h : s.currentTcb = some cur) (start : Time) (fuel : ℕ) :
    yieldHelper start (fuel + 1) s =
      QueueStore.dequeue (.level (s.tcbs cur).priority) s.queues >>= fun res =>
        match res.1 with
        | none => .error .nullDereference
        | some p =>
          scheduleThread (some p) (({ s with queues := res.2 }.preempt p).tcbs p).priority
              ({ s with queues := res.2 }.preempt p) >>=
            runNext start (yieldHelper start fuel) (s.tcbs cur).priority := by
  rw [yieldHelper, State.current_eq_ok.mpr h]
  rfl

theorem yieldHelper_null (h : s.currentTcb = none) (start : Time) (fuel : ℕ) :
    yieldHelper start (fuel + 1) s = .error .nullDereference := by
  rw [yieldHelper, State.current, h]
  rfl

def State.save (s : State σ) (cur : TcbPtr) : State σ :=
  s.setTcb cur { s.tcbs cur with context := s.cpu }

theorem signalHandler_past {now : Time} (h : s.currentTcb = some cur) (hpast : PastSlice s cur now)
    (start : Time) (fuel : ℕ) : signalHandler now start fuel s =
      if s.afterUnlockPriority ≠ -1 then
        runNext start (yieldHelper start fuel) s.afterUnlockPriority
          { s.save cur with afterUnlockPriority := -1 }
      else yieldHelper start fuel (s.save cur) := by
  rw [signalHandler, State.current_eq_ok.mpr h, ok_bind, if_pos hpast]
  rfl

theorem signalHandler_within {now : Time} (h : s.currentTcb = some cur)
    (hpast : ¬ PastSlice s cur now) (start : Time) (fuel : ℕ) :
    signalHandler now start fuel s = .ok s := by
  rw [signalHandler, State.current_eq_ok.mpr h, ok_bind, if_neg hpast]

theorem signalHandler_null (h : s.currentTcb = none) (now start : Time) (fuel : ℕ) :
    signalHandler now start fuel s = .error .nullDereference := by
  rw [signalHandler, State.current, h]
  rfl

end Equations

end VirtualMemorySimulation.Scheduler
