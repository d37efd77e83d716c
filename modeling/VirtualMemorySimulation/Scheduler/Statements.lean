import VirtualMemorySimulation.Scheduler.Conservation

/-!
# Single statements

Calls taken apart at the points where a signal matters. The thread on the
processor makes a call, and its program counter then goes through the statements
of lock, unlock, join and `thread_function_wrapper`. A signal may come between any
two of them; what it interrupts in a `pause` goes on after the `pause`.
-/

namespace VirtualMemorySimulation.Scheduler

open Execution LinkedQueue

/-- What client code may do. -/
inductive ClientCall where
  | create (mainContext nodeContext : Bool) (routine : Routine)
  | mutexInit (mutex : MutexPtr)
  | lock (mutex : MutexPtr)
  | unlock (mutex : MutexPtr)
  | exit (value : Value)
  | join (tid : ℕ)
  | functionReturn (value : Value)
  deriving DecidableEq, Repr

inductive Event where
  | tick (now start : Time)
  | call (call : ClientCall)
  | next
  deriving DecidableEq, Repr

section Machine

variable {σ : Type} [QueueStore σ QueuePtr TcbPtr]

/-- The program's main thread is on the processor. No wrapper has started it. -/
def State.onMain (s : State σ) : Prop := ∀ p ∈ s.threads.head?, p = s.cpu.owner

instance (s : State σ) : Decidable s.onMain := inferInstanceAs (Decidable (∀ _ ∈ _, _))

/-- A call up to its first statement of interest. A mutex is unlocked only by a thread that
holds it, and the end of the main function ends the process. -/
def ClientCall.run : ClientCall → ℕ → State σ → Except Stop (State σ)
  | .create mainContext nodeContext routine, _, s => do
    let (_, s) ← myPthreadCreate mainContext nodeContext routine s
    .ok s
  | .mutexInit mutex, _, s => myPthreadMutexInit mutex s
  | .lock mutex, _, s => do
    let cur ← s.current
    .ok (s.setPc (.lockTest mutex (s.tcbs cur).priority))
  | .unlock mutex, _, s =>
    if mutex ∈ s.cpu.held then .ok (s.setPc (.unlockRelease mutex)) else .error .notEnabled
  | .exit value, _, s => myPthreadExit value s
  | .join tid, fuel, s => do
    match ← getTcb tid fuel s with
    | none => .ok s
    | some p => .ok (s.setPc (.joinWait p))
  | .functionReturn value, _, s =>
    if s.onMain then .error .exit else .ok (s.setPc (.returned value))

def afterTest (mutex : MutexPtr) (priority : ℤ) : MutexState → Pc
  | .unlocked => .lockWon mutex
  | .locked => .lockMove mutex priority

/-- The statement that the thread on the processor has reached. -/
def statement (s : State σ) : Except Stop (State σ) :=
  let p := s.cpu.owner
  match s.cpu.pc with
  | .start _ => .ok ((s.setTcb p { s.tcbs p with state := .running }).setPc .body)
  | .lockTest mutex priority => do
    let (found, s) ← testAndSet mutex s
    .ok (s.setPc (afterTest mutex priority found))
  | .lockMove mutex priority => do
    let s ← moveHead mutex priority s
    .ok (s.setPc (.lockPark mutex priority))
  | .lockPark mutex priority => .ok (s.setPc (.lockPause mutex priority))
  | .lockWon mutex =>
    .ok { s with cpu := { s.cpu with pc := .body, held := mutex :: s.cpu.held } }
  | .unlockRelease mutex => do
    let s ← release mutex s
    .ok { s with cpu := { s.cpu with pc := .unlockDequeue mutex, held := s.cpu.held.erase mutex } }
  | .unlockDequeue mutex => do
    let (node, s) ← dequeueWaiter mutex s
    .ok (s.setPc (.unlockSchedule mutex node))
  | .unlockSchedule mutex node => do
    let s ← scheduleWaiter node s
    .ok (s.setPc (.unlockMark mutex))
  | .unlockMark _ => do
    let s ← markUnlock s
    .ok (s.setPc .body)
  | .joinWait node => do
    let _ ← awaitTermination node s
    .ok (s.setPc .body)
  | .returned value =>
    if (s.tcbs p).state = .terminated then .ok (s.setPc (.exitPause value))
    else .ok (s.setPc (.storing value))
  | .storing value => .ok ((s.setTcb p { s.tcbs p with returnValue := value }).setPc .terminating)
  | .terminating => .ok ((s.setTcb p { s.tcbs p with state := .terminated }).setPc .finalPause)
  | .ended => .error .exit
  | .body | .lockPause .. | .exitPause _ | .finalPause => .error .notEnabled

def Event.run : Event → ℕ → State σ → Except Stop (State σ)
  | .tick now start, fuel, s => Scheduler.tick now start fuel s
  | .call c, fuel, s => if s.cpu.pc = .body then c.run fuel s else .error .notEnabled
  | .next, _, s => statement s

def EventStep (s : State σ) (e : Event) (s' : State σ) : Prop := ∃ fuel, e.run fuel s = .ok s'

theorem Event.run_step (fuel : ℕ) (s : State σ) (e : Event) (s' : State σ)
    (h : e.run fuel s = .ok s') : EventStep s e s' := ⟨fuel, h⟩

end Machine

section Refinement

variable {L : TcbLinks} {t : State TcbLists}

/-- A waiter that an unlock has dequeued and not yet scheduled. -/
def State.inTransit {σ : Type} (s : State σ) (w : TcbPtr) : Prop :=
  ∃ p ∈ s.threads, ∃ m, (s.contextOf p).pc = .unlockSchedule m (some w)

theorem Refines.setPc {s : State TcbLinks} (h : Refines s t) (pc : Pc) :
    Refines (s.setPc pc) (t.setPc pc) := by
  obtain ⟨L, hL, rfl⟩ := h
  exact ⟨L, hL, rfl⟩

theorem ClientCall.run_refines (h : Agrees L t.queues) (hfresh : Allocated t) (c : ClientCall)
    (fuel : ℕ) : Matches Refines (c.run fuel (t.withQueues L)) (c.run fuel t) := by
  cases c with
  | create mainContext nodeContext routine =>
    refine (myPthreadCreate_refines h hfresh mainContext nodeContext routine).bind ?_
    exact fun a b hab => .ok hab.2
  | mutexInit mutex => exact myPthreadMutexInit_refines h mutex
  | lock mutex =>
    simp only [ClientCall.run, State.current, State.withQueues_currentTcb]
    cases t.currentTcb with
    | none => exact .error
    | some cur => exact .ok ⟨L, h, rfl⟩
  | unlock mutex =>
    simp only [ClientCall.run, State.withQueues_cpu]
    split_ifs
    · exact .ok ⟨L, h, rfl⟩
    · exact .error
  | exit value => exact myPthreadExit_refines h value
  | join tid =>
    simp only [ClientCall.run, getTcb_refines h]
    cases getTcb tid fuel t with
    | error e => exact .error
    | ok found =>
      cases found with
      | none => exact .ok ⟨L, h, rfl⟩
      | some p => exact .ok ⟨L, h, rfl⟩
  | functionReturn value =>
    have hmain : (t.withQueues L).onMain ↔ t.onMain := .rfl
    simp only [ClientCall.run, hmain]
    split_ifs
    · exact .error
    · exact .ok ⟨L, h, rfl⟩

/-- Every statement gives matching results on linked control blocks and on lists, as long as
a waiter in transit is in no queue. -/
theorem statement_refines (h : Agrees L t.queues)
    (htransit : ∀ m w, t.cpu.pc = .unlockSchedule m (some w) → Unqueued t w) :
    Matches Refines (statement (t.withQueues L)) (statement t) := by
  unfold statement
  simp only [State.withQueues_cpu]
  cases hpc : t.cpu.pc with
  | lockTest mutex priority =>
    simp only [testAndSet, State.withQueues_mutexes]
    cases t.mutexes mutex with
    | none => exact .error
    | some found => exact .ok ⟨L, h, rfl⟩
  | lockMove mutex priority =>
    exact (moveHead_refines h mutex priority).bind fun s t' hr => .ok (hr.setPc _)
  | unlockRelease mutex =>
    simp only [release, State.withQueues_mutexes]
    cases t.mutexes mutex with
    | none => exact .error
    | some found => exact .ok ⟨L, h, rfl⟩
  | unlockDequeue mutex =>
    refine (dequeueWaiter_refines h mutex).bind ?_
    rintro ⟨node, s'⟩ ⟨node', t'⟩ ⟨hnode, hr, -⟩
    obtain rfl : node = node' := hnode
    exact .ok (hr.setPc _)
  | unlockSchedule mutex node =>
    refine (scheduleWaiter_refines h fun w hw => ?_).bind fun s t' hr => .ok (hr.setPc _)
    exact htransit mutex w (hw ▸ hpc)
  | unlockMark mutex =>
    exact (markUnlock_refines h).bind fun s t' hr => .ok (hr.setPc _)
  | joinWait node =>
    simp only [awaitTermination, State.withQueues_tcbs]
    split_ifs
    · exact .ok ⟨L, h, rfl⟩
    · exact .error
  | returned value =>
    simp only [State.withQueues_tcbs]
    split_ifs
    · exact .ok ⟨L, h, rfl⟩
    · exact .ok ⟨L, h, rfl⟩
  | body => exact .error
  | lockPause mutex priority => exact .error
  | exitPause value => exact .error
  | finalPause => exact .error
  | ended => exact .error
  | _ => exact .ok ⟨L, h, rfl⟩

theorem EventStep.refines {s s' : State TcbLinks} {e : Event} (hr : Refines s t)
    (hfresh : Allocated t)
    (htransit : ∀ m w, t.cpu.pc = .unlockSchedule m (some w) → Unqueued t w)
    (hs : EventStep s e s') : ∃ t', EventStep t e t' ∧ Refines s' t' := by
  obtain ⟨L, h, rfl⟩ := hr
  obtain ⟨fuel, hrun⟩ := hs
  have hmatch : Matches Refines (e.run fuel (t.withQueues L)) (e.run fuel t) := by
    cases e with
    | tick now start => exact tick_refines h now start fuel
    | call c =>
      simp only [Event.run, State.withQueues_cpu]
      split_ifs
      · exact c.run_refines h hfresh fuel
      · exact .error
    | next => exact statement_refines h htransit
  obtain ⟨t', ht', hr'⟩ := hmatch.of_ok hrun
  exact ⟨t', ⟨fuel, ht'⟩, hr'⟩

end Refinement

end VirtualMemorySimulation.Scheduler
