import VirtualMemorySimulation.Foundations.LinkedQueue

/-!
# Threads and scheduler state

A thread control block keeps the saved context of its thread. A context is the
point a thread has reached in the library or in client code; the thread it
belongs to and the mutexes it holds are history variables. The queues are a
family addressed by level or by mutex, so that the same functions run on linked
control blocks and on plain lists.
-/

namespace VirtualMemorySimulation.Scheduler

open Execution LinkedQueue

abbrev TcbPtr := ℕ

abbrev MutexPtr := ℕ

/-- A `void *` that is passed around and never looked into. -/
abbrev Value := ℤ

/-- `struct timeval`. -/
structure Time where
  sec : ℤ
  usec : ℤ
  deriving DecidableEq, Repr

inductive ThreadState where
  | running
  | ready
  | waiting
  | yield
  | terminated
  deriving DecidableEq, Repr

inductive MutexState where
  | unlocked
  | locked
  deriving DecidableEq, Repr

/-- The function that a thread runs, with its argument. -/
structure Routine where
  function : Value
  argument : Value
  deriving DecidableEq, Repr

/-- The point that a thread has reached. -/
inductive Pc where
  /-- Client code. -/
  | body
  /-- The entry of `thread_function_wrapper`. -/
  | start (routine : Routine)
  /-- The test-and-set of `my_pthread_mutex_lock`, with its local priority. -/
  | lockTest (mutex : MutexPtr) (priority : ℤ)
  /-- The test-and-set has failed. -/
  | lockMove (mutex : MutexPtr) (priority : ℤ)
  /-- A control block has been moved, `pause` not yet called. -/
  | lockPark (mutex : MutexPtr) (priority : ℤ)
  | lockPause (mutex : MutexPtr) (priority : ℤ)
  /-- The test-and-set has won. -/
  | lockWon (mutex : MutexPtr)
  | unlockRelease (mutex : MutexPtr)
  | unlockDequeue (mutex : MutexPtr)
  | unlockSchedule (mutex : MutexPtr) (node : Option TcbPtr)
  | unlockMark (mutex : MutexPtr)
  /-- The loop of `my_pthread_join`. -/
  | joinWait (node : TcbPtr)
  /-- The thread's function has returned, the wrapper's test of the state is next. -/
  | returned (value : Value)
  /-- The `pause` of a thread that has called `my_pthread_exit`. -/
  | exitPause (value : Value)
  | storing (value : Value)
  | terminating
  /-- The `pause` at the end of the wrapper. -/
  | finalPause
  /-- The wrapper has returned. -/
  | ended
  deriving DecidableEq, Repr

/-- Where a `pause` that a signal interrupts goes on. -/
def Pc.interrupted : Pc → Pc
  | .lockPause mutex priority => .lockTest mutex priority
  | .exitPause value => .storing value
  | .finalPause => .ended
  | pc => pc

/-- What `ucontext_t` saves of a thread. -/
structure Context where
  owner : TcbPtr
  pc : Pc
  held : List MutexPtr
  deriving DecidableEq, Repr

/-- `struct threadControlBlock`, less the link and the fields that nothing reads. -/
structure Tcb where
  tid : ℕ
  context : Context
  state : ThreadState
  priority : ℤ
  recentStartTime : Time
  returnValue : Value
  deriving DecidableEq, Repr

/-- Storage that holds zeros. -/
def zeroedTcb : Tcb := ⟨0, ⟨0, .body, []⟩, .running, 0, ⟨0, 0⟩, 0⟩

inductive QueuePtr where
  | level (priority : ℤ)
  | wait (mutex : MutexPtr)
  deriving DecidableEq, Repr

abbrev TcbLinks := Links QueuePtr TcbPtr

abbrev TcbLists := Lists QueuePtr TcbPtr

/-- The globals of `my_pthread.c`, the control blocks and mutexes, and the processor.
`threads` lists the control blocks of the threads so far, `handles` the ids that successful
creations have stored in `*thread`, `dispatches` the threads that `setcontext` went to. -/
structure State (σ : Type) where
  queues : σ
  tcbs : TcbPtr → Tcb
  frontier : TcbPtr
  scheduler : Bool
  currentTcb : Option TcbPtr
  schedulerInit : Bool
  tid : ℕ
  hasRun : ℕ
  afterUnlockPriority : ℤ
  mutexes : MutexPtr → Option MutexState
  cpu : Context
  threads : List TcbPtr
  handles : List (ℕ × TcbPtr)
  dispatches : List TcbPtr

/-- The program's start: control blocks hold whatever their storage holds. -/
def State.initial {σ : Type} (queues : σ) (storage : TcbPtr → Tcb) : State σ where
  queues
  tcbs := storage
  frontier := 0
  scheduler := false
  currentTcb := none
  schedulerInit := false
  tid := 0
  hasRun := 0
  afterUnlockPriority := -1
  mutexes _ := none
  cpu := ⟨0, .body, []⟩
  threads := []
  handles := []
  dispatches := []

def noLinks : TcbLinks := ⟨fun _ => ⟨none, none, 0⟩, fun _ => none⟩

def noLists : TcbLists := ⟨fun _ => []⟩

theorem noLinks_agrees : Agrees noLinks noLists :=
  ⟨fun _ => ⟨.nil, rfl, rfl⟩, ⟨fun _ => .nil, fun _ _ _ h => absurd h List.not_mem_nil⟩⟩

namespace State

variable {σ : Type}

/-- `SCHEDULER->current_tcb`, dereferenced. -/
def current (s : State σ) : Except Stop TcbPtr :=
  match s.currentTcb with
  | some p => .ok p
  | none => .error .nullDereference

@[simps] def setTcb (s : State σ) (p : TcbPtr) (tcb : Tcb) : State σ :=
  { s with tcbs := Function.update s.tcbs p tcb }

@[simps] def setPc (s : State σ) (pc : Pc) : State σ := { s with cpu := { s.cpu with pc } }

/-- What a signal finds on the processor. -/
@[simps] def interrupt (s : State σ) : State σ :=
  { s with cpu := { s.cpu with pc := s.cpu.pc.interrupted } }

theorem current_eq_ok {s : State σ} {p : TcbPtr} : s.current = .ok p ↔ s.currentTcb = some p := by
  unfold current
  cases s.currentTcb <;> simp

end State

theorem update_kept {β : Type} (f : Tcb → β) {tcbs : TcbPtr → Tcb} {p : TcbPtr} {tcb : Tcb}
    (h : f tcb = f (tcbs p)) (r : TcbPtr) : f (Function.update tcbs p tcb r) = f (tcbs r) := by
  by_cases hr : r = p
  · subst hr
    rw [Function.update_self, h]
  · rw [Function.update_of_ne hr]

/-- The difference of two fields of a time, read as `int` and subtracted in 32 bits. -/
def intDifference (a b : ℤ) : ℤ :=
  (a.bmod 4294967296 - b.bmod 4294967296).bmod 4294967296

/-- `time_compare`: the gap between two times against one in microseconds. -/
def timeCompare (start stop : Time) (gap : ℤ) : ℤ :=
  let gapSecond := if 999999 < gap then gap - gap % 1000000 else 0
  let gapMicrosecond := if 999999 < gap then gap % 1000000 else gap
  if gapSecond < intDifference stop.sec start.sec then 1
  else if intDifference stop.sec start.sec = gapSecond then
    if gapMicrosecond < intDifference stop.usec start.usec then 1
    else if intDifference stop.usec start.usec = gapMicrosecond then 0
    else -1
  else -1

def numberLevels : ℤ := 3

/-- `SCHEDULER->priority_time_slices[i]`, as `init_scheduler` fills it. -/
def priorityTimeSlice (i : ℤ) : ℤ := 5000 * (i + 1)

end VirtualMemorySimulation.Scheduler
