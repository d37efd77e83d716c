import VirtualMemorySimulation.Scheduler.Dispatch

/-!
# Threads sent back

The handler and the helpers once more, each with the list of the threads that it sends
to the end of their level. What holds of these runs holds of the plain ones, of which
they say the rest.
-/

namespace VirtualMemorySimulation.Scheduler

open Execution LinkedQueue

variable {σ : Type} [QueueStore σ QueuePtr TcbPtr]

/-- `runNext`, with the threads that the rounds to come send back. -/
def runNextSending (start : Time) (again : State σ → Except Stop (List TcbPtr × State σ))
    (currentPriority : ℤ) (s : State σ) : Except Stop (List TcbPtr × State σ) := do
  let s ← selectNext currentPriority s
  match s.currentTcb with
  | none => .ok ([], s)
  | some p =>
    if (s.tcbs p).state = .yield then again (s.setTcb p { s.tcbs p with state := .ready })
    else if (s.tcbs p).state = .terminated then again s
    else
      let s := s.setTcb p { s.tcbs p with state := .running, recentStartTime := start }
      .ok ([], { s with
        hasRun := s.hasRun + 1
        cpu := (s.tcbs p).context
        dispatches := s.dispatches ++ [p] })

/-- `my_pthread_yield_helper`: the node that it schedules comes first. -/
def yieldHelperSending (start : Time) : ℕ → State σ → Except Stop (List TcbPtr × State σ)
  | 0, _ => .error .outOfFuel
  | fuel + 1, s => do
    let cur ← s.current
    let currentPriority := (s.tcbs cur).priority
    let (node, queues) ← QueueStore.dequeue (.level currentPriority) s.queues
    match node with
    | none => .error .nullDereference
    | some p =>
      let s := { s with queues }.preempt p
      let s ← scheduleThread (some p) (s.tcbs p).priority s
      (runNextSending start (yieldHelperSending start fuel) currentPriority s).map
        fun res => (p :: res.1, res.2)

def signalHandlerSending (now start : Time) (fuel : ℕ) (s : State σ) :
    Except Stop (List TcbPtr × State σ) := do
  let cur ← s.current
  if PastSlice s cur now then
    let s := s.setTcb cur { s.tcbs cur with context := s.cpu }
    if s.afterUnlockPriority ≠ -1 then
      runNextSending start (yieldHelperSending start fuel) s.afterUnlockPriority
        { s with afterUnlockPriority := -1 }
    else yieldHelperSending start fuel s
  else .ok ([], s)

def tickSending (now start : Time) (fuel : ℕ) (s : State σ) :
    Except Stop (List TcbPtr × State σ) := signalHandlerSending now start fuel s.interrupt

section Equations

variable {s : State σ} {cur : TcbPtr}

theorem yieldHelperSending_succ (h : s.currentTcb = some cur) (start : Time) (fuel : ℕ) :
    yieldHelperSending start (fuel + 1) s =
      QueueStore.dequeue (.level (s.tcbs cur).priority) s.queues >>= fun res =>
        match res.1 with
        | none => .error .nullDereference
        | some p =>
          scheduleThread (some p) (({ s with queues := res.2 }.preempt p).tcbs p).priority
              ({ s with queues := res.2 }.preempt p) >>= fun s' =>
            (runNextSending start (yieldHelperSending start fuel) (s.tcbs cur).priority s').map
              fun res => (p :: res.1, res.2) := by
  rw [yieldHelperSending, State.current_eq_ok.mpr h]
  rfl

theorem yieldHelperSending_null (h : s.currentTcb = none) (start : Time) (fuel : ℕ) :
    yieldHelperSending start (fuel + 1) s = .error .nullDereference := by
  rw [yieldHelperSending, State.current, h]
  rfl

theorem signalHandlerSending_past {now : Time} (h : s.currentTcb = some cur)
    (hpast : PastSlice s cur now) (start : Time) (fuel : ℕ) :
    signalHandlerSending now start fuel s =
      if s.afterUnlockPriority ≠ -1 then
        runNextSending start (yieldHelperSending start fuel) s.afterUnlockPriority
          { s.save cur with afterUnlockPriority := -1 }
      else yieldHelperSending start fuel (s.save cur) := by
  rw [signalHandlerSending, State.current_eq_ok.mpr h, ok_bind, if_pos hpast]
  rfl

theorem signalHandlerSending_within {now : Time} (h : s.currentTcb = some cur)
    (hpast : ¬ PastSlice s cur now) (start : Time) (fuel : ℕ) :
    signalHandlerSending now start fuel s = .ok ([], s) := by
  rw [signalHandlerSending, State.current_eq_ok.mpr h, ok_bind, if_neg hpast]

theorem signalHandlerSending_null (h : s.currentTcb = none) (now start : Time) (fuel : ℕ) :
    signalHandlerSending now start fuel s = .error .nullDereference := by
  rw [signalHandlerSending, State.current, h]
  rfl

end Equations

section Projection

theorem runNextSending_snd (start : Time)
    {again : State σ → Except Stop (List TcbPtr × State σ)}
    {again' : State σ → Except Stop (State σ)}
    (hagain : ∀ s, (again s).map Prod.snd = again' s) (i : ℤ) (s : State σ) :
    (runNextSending start again i s).map Prod.snd = runNext start again' i s := by
  unfold runNextSending runNext
  cases selectNext i s with
  | error e => rfl
  | ok s =>
    rw [ok_bind, ok_bind]
    cases s.currentTcb with
    | none => rfl
    | some p =>
      dsimp only
      split_ifs
      · exact hagain _
      · exact hagain _
      · rfl

theorem yieldHelperSending_snd (start : Time) (fuel : ℕ) (s : State σ) :
    (yieldHelperSending start fuel s).map Prod.snd = yieldHelper start fuel s := by
  induction fuel generalizing s with
  | zero => rfl
  | succ fuel ih =>
    cases hcur : s.currentTcb with
    | none =>
      rw [yieldHelperSending_null hcur, yieldHelper_null hcur]
      rfl
    | some cur =>
      rw [yieldHelperSending_succ hcur, yieldHelper_succ hcur]
      cases QueueStore.dequeue (QueuePtr.level (s.tcbs cur).priority) s.queues with
      | error e => rfl
      | ok res =>
        obtain ⟨node, queues⟩ := res
        cases node with
        | none => rfl
        | some p =>
          rw [ok_bind, ok_bind]
          dsimp only
          cases scheduleThread (some p) (({ s with queues }.preempt p).tcbs p).priority
              ({ s with queues }.preempt p) with
          | error e => rfl
          | ok u =>
            rw [ok_bind, ok_bind, ← runNextSending_snd start ih]
            cases runNextSending start (yieldHelperSending start fuel) (s.tcbs cur).priority u <;>
              rfl

theorem signalHandlerSending_snd (now start : Time) (fuel : ℕ) (s : State σ) :
    (signalHandlerSending now start fuel s).map Prod.snd = signalHandler now start fuel s := by
  cases hcur : s.currentTcb with
  | none =>
    rw [signalHandlerSending_null hcur, signalHandler_null hcur]
    rfl
  | some cur =>
    by_cases hpast : PastSlice s cur now
    · rw [signalHandlerSending_past hcur hpast, signalHandler_past hcur hpast]
      split_ifs
      · exact runNextSending_snd start (yieldHelperSending_snd start fuel) _ _
      · exact yieldHelperSending_snd start fuel _
    · rw [signalHandlerSending_within hcur hpast, signalHandler_within hcur hpast]
      rfl

theorem tickSending_snd (now start : Time) (fuel : ℕ) (s : State σ) :
    (tickSending now start fuel s).map Prod.snd = tick now start fuel s :=
  signalHandlerSending_snd now start fuel s.interrupt

end Projection

end VirtualMemorySimulation.Scheduler
