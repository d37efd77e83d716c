import VirtualMemorySimulation.Scheduler.Dispatch

/-!
# The calls of `my_pthread.c`

The pieces of lock and unlock between which a signal may come are functions of
their own, so that whole calls and single statements are made of the same code.
Storage from `my_allocate` is fresh: control blocks are numbered as allocated.
-/

namespace VirtualMemorySimulation.Scheduler

open Execution LinkedQueue

variable {σ : Type} [QueueStore σ QueuePtr TcbPtr]

def initScheduler (s : State σ) : State σ :=
  { s with
    scheduler := true
    queues := QueueStore.init (.level 2)
      (QueueStore.init (.level 1) (QueueStore.init (.level 0) s.queues))
    currentTcb := none }

/-- A fresh control block with a tid, its other fields as the storage has them. -/
def State.allocateTcb (s : State σ) (tid : ℕ) : State σ :=
  { s with frontier := s.frontier + 1, tid }.setTcb s.frontier
    { s.tcbs s.frontier with tid }

/-- The control block gets its context and is ready. -/
def State.readyTcb (s : State σ) (p : TcbPtr) (context : Context) : State σ :=
  s.setTcb p { s.tcbs p with context, state := .ready }

/-- The first part of `my_pthread_create`: the control block of the calling context.
`contextOk` tells whether `getcontext` succeeds. -/
def createMain (contextOk : Bool) (s : State σ) : Except Stop (Bool × State σ) :=
  let p := s.frontier
  let context := { s.cpu with owner := p }
  let s := s.allocateTcb s.tid
  if contextOk then do
    let s ← scheduleThread (some p) 0 (s.readyTcb p context)
    .ok (true, { s with currentTcb := some p, cpu := context, threads := s.threads ++ [p] })
  else .ok (false, s)

/-- The second part of `my_pthread_create`: the control block of the new thread. -/
def createNode (contextOk : Bool) (routine : Routine) (s : State σ) : Except Stop (Bool × State σ) :=
  let p := s.frontier
  let s := s.allocateTcb (s.tid + 1)
  if contextOk then do
    let s ← scheduleThread (some p) 0 (s.readyTcb p ⟨p, .start routine, []⟩)
    .ok (true, { s with
      threads := s.threads ++ [p]
      handles := s.handles ++ [(s.tid, p)] })
  else .ok (false, s)

/-- `my_pthread_create` once the scheduler is there. The first call takes in the calling
context as well. -/
def createThreads (mainContext nodeContext : Bool) (routine : Routine) (s : State σ) :
    Except Stop (Bool × State σ) := do
  let (ok, s) ← if s.tid = 0 then createMain mainContext s else Except.ok (true, s)
  if ok then createNode nodeContext routine s else .ok (false, s)

/-- `my_pthread_create`: whether it returns 0. What it stores in `*thread` is `TID`. -/
def myPthreadCreate (mainContext nodeContext : Bool) (routine : Routine) (s : State σ) :
    Except Stop (Bool × State σ) :=
  createThreads mainContext nodeContext routine
    (if s.schedulerInit then s else initScheduler { s with schedulerInit := true })

def myPthreadExit (value : Value) (s : State σ) : Except Stop (State σ) := do
  let cur ← s.current
  .ok (s.setTcb cur { s.tcbs cur with returnValue := value, state := .terminated })

/-- `my_pthread_mutex_init`, once for each mutex. -/
def myPthreadMutexInit (mutex : MutexPtr) (s : State σ) : Except Stop (State σ) :=
  if (s.mutexes mutex).isSome then .error .notEnabled
  else
    let s := if s.schedulerInit then s else initScheduler s
    .ok { s with
      queues := QueueStore.init (.wait mutex) s.queues
      mutexes := Function.update s.mutexes mutex (some .unlocked) }

/-- `__sync_lock_test_and_set` of an initialised mutex, with the state it finds. -/
def testAndSet (mutex : MutexPtr) (s : State σ) : Except Stop (MutexState × State σ) :=
  match s.mutexes mutex with
  | none => .error .notEnabled
  | some found =>
    .ok (found, { s with mutexes := Function.update s.mutexes mutex (some .locked) })

/-- The failed branch of the lock loop: the head of the level goes to the wait queue. -/
def moveHead (mutex : MutexPtr) (priority : ℤ) (s : State σ) : Except Stop (State σ) := do
  let (node, queues) ← QueueStore.dequeue (.level priority) s.queues
  let queues ← QueueStore.enqueue (.wait mutex) node queues
  .ok { s with queues }

/-- One pass of the loop of `my_pthread_mutex_lock`, up to `pause`. -/
def lockPass (mutex : MutexPtr) (priority : ℤ) (s : State σ) : Except Stop (State σ) := do
  let (found, s) ← testAndSet mutex s
  match found with
  | .unlocked => .ok s
  | .locked => moveHead mutex priority s

/-- `my_pthread_mutex_lock`, up to its first `pause`. -/
def myPthreadMutexLock (mutex : MutexPtr) (s : State σ) : Except Stop (State σ) := do
  let cur ← s.current
  lockPass mutex (s.tcbs cur).priority s

/-- `__sync_lock_release` of an initialised mutex. -/
def release (mutex : MutexPtr) (s : State σ) : Except Stop (State σ) :=
  match s.mutexes mutex with
  | none => .error .notEnabled
  | some _ => .ok { s with mutexes := Function.update s.mutexes mutex (some .unlocked) }

def dequeueWaiter (mutex : MutexPtr) (s : State σ) : Except Stop (Option TcbPtr × State σ) := do
  let (node, queues) ← QueueStore.dequeue (.wait mutex) s.queues
  .ok (node, { s with queues })

def scheduleWaiter (node : Option TcbPtr) (s : State σ) : Except Stop (State σ) :=
  match node with
  | none => .ok s
  | some p => scheduleThread (some p) 0 s

def markUnlock (s : State σ) : Except Stop (State σ) := do
  let cur ← s.current
  .ok { s with afterUnlockPriority := (s.tcbs cur).priority }

def myPthreadMutexUnlock (mutex : MutexPtr) (s : State σ) : Except Stop (State σ) := do
  let s ← release mutex s
  let (node, s) ← dequeueWaiter mutex s
  let s ← scheduleWaiter node s
  markUnlock s

def getTcbLoop (found : TcbPtr → Bool) (fuel : ℕ) (queues : σ) :
    List ℤ → Except Stop (Option TcbPtr)
  | [] => .ok none
  | i :: levels => do
    match ← QueueStore.search (.level i) found fuel queues with
    | some p => .ok (some p)
    | none => getTcbLoop found fuel queues levels

def getTcb (tid : ℕ) (fuel : ℕ) (s : State σ) : Except Stop (Option TcbPtr) :=
  if s.scheduler then getTcbLoop (fun p => (s.tcbs p).tid = tid) fuel s.queues [0, 1, 2]
  else .error .nullDereference

/-- The loop of `my_pthread_join`, which ends when the thread has terminated, and the
value handed over after it. -/
def awaitTermination (p : TcbPtr) (s : State σ) : Except Stop Value :=
  if (s.tcbs p).state = .terminated then .ok (s.tcbs p).returnValue else .error .notEnabled

/-- `my_pthread_join`: `none` for `-1`, otherwise the value it hands over. The call
does not come back while it waits. -/
def myPthreadJoin (tid : ℕ) (fuel : ℕ) (s : State σ) : Except Stop (Option Value) := do
  match ← getTcb tid fuel s with
  | none => .ok none
  | some p => do
    let value ← awaitTermination p s
    .ok (some value)

/-- The current thread's function returns, and its wrapper goes on up to `pause`. A
thread that has called `my_pthread_exit` stores the value only if its `pause` comes back. -/
def functionReturn (value : Value) (resumed : Bool) (s : State σ) : Except Stop (State σ) := do
  let cur ← s.current
  if (s.tcbs cur).state = .terminated ∧ resumed = false then .ok s
  else .ok (s.setTcb cur { s.tcbs cur with returnValue := value, state := .terminated })

/-- The calls and signals, each taken as one step. -/
inductive Call where
  | create (mainContext nodeContext : Bool) (routine : Routine)
  | tick (now start : Time)
  | mutexInit (mutex : MutexPtr)
  | lock (mutex : MutexPtr)
  /-- A later pass of the lock loop, with the priority read at the call. -/
  | relock (mutex : MutexPtr) (priority : ℤ)
  | unlock (mutex : MutexPtr)
  | exit (value : Value)
  | functionReturn (value : Value) (resumed : Bool)
  | join (tid : ℕ)
  deriving DecidableEq, Repr

def Call.run : Call → ℕ → State σ → Except Stop (State σ)
  | .create mainContext nodeContext routine, _, s => do
    let (_, s) ← myPthreadCreate mainContext nodeContext routine s
    .ok s
  | .tick now start, fuel, s => Scheduler.tick now start fuel s
  | .mutexInit mutex, _, s => myPthreadMutexInit mutex s
  | .lock mutex, _, s => myPthreadMutexLock mutex s
  | .relock mutex priority, _, s => lockPass mutex priority s
  | .unlock mutex, _, s => myPthreadMutexUnlock mutex s
  | .exit value, _, s => myPthreadExit value s
  | .functionReturn value resumed, _, s => Scheduler.functionReturn value resumed s
  | .join tid, fuel, s => do
    let _ ← myPthreadJoin tid fuel s
    .ok s

/-- A call with the thread that `SCHEDULER->current_tcb` names when it is made. -/
structure CallBy where
  caller : Option TcbPtr
  call : Call
  deriving DecidableEq, Repr

def CallStep (s : State σ) (c : CallBy) (s' : State σ) : Prop :=
  c.caller = s.currentTcb ∧ ∃ fuel, c.call.run fuel s = .ok s'

/-- A call executed, if it is its caller's turn. -/
def CallBy.exec (fuel : ℕ) (c : CallBy) (s : State σ) : Except Stop (State σ) :=
  if c.caller = s.currentTcb then c.call.run fuel s else .error .notEnabled

theorem CallBy.exec_step (fuel : ℕ) (s : State σ) (c : CallBy) (s' : State σ)
    (h : c.exec fuel s = .ok s') : CallStep s c s' := by
  unfold CallBy.exec at h
  split_ifs at h with hcaller
  exact ⟨hcaller, fuel, h⟩

end VirtualMemorySimulation.Scheduler
