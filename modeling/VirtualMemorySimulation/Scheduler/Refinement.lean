import VirtualMemorySimulation.Scheduler.Api
import VirtualMemorySimulation.Scheduler.SentBack

/-!
# Linked control blocks refine lists

Every function of the scheduler gives matching results on linked control blocks
and on the lists they denote, as long as what it enqueues is in no queue: a
control block just dequeued, or one beyond the allocation frontier.
-/

namespace VirtualMemorySimulation.Scheduler

open Execution LinkedQueue

@[simps] def State.withQueues {σ τ : Type} (s : State σ) (queues : τ) : State τ where
  queues
  tcbs := s.tcbs
  frontier := s.frontier
  scheduler := s.scheduler
  currentTcb := s.currentTcb
  schedulerInit := s.schedulerInit
  tid := s.tid
  hasRun := s.hasRun
  afterUnlockPriority := s.afterUnlockPriority
  mutexes := s.mutexes
  cpu := s.cpu
  threads := s.threads
  handles := s.handles
  dispatches := s.dispatches

/-- The linked state differs from the list state in its queues only, and these agree. -/
def Refines (s : State TcbLinks) (t : State TcbLists) : Prop :=
  ∃ L, Agrees L t.queues ∧ s = t.withQueues L

theorem Refines.of_agrees {L : TcbLinks} {t : State TcbLists} (h : Agrees L t.queues) :
    Refines (t.withQueues L) t := ⟨L, h, rfl⟩

def Unqueued (t : State TcbLists) (p : TcbPtr) : Prop := ∀ q, p ∉ t.queues q

def Allocated (t : State TcbLists) : Prop := ∀ q, ∀ p ∈ t.queues q, p < t.frontier

section Dispatch

variable {L : TcbLinks} {t : State TcbLists}

theorem scheduleThread_refines (h : Agrees L t.queues) {node : Option TcbPtr} (priority : ℤ)
    (hnode : ∀ p, node = some p → Unqueued t p) :
    Matches Refines (scheduleThread node priority (t.withQueues L))
      (scheduleThread node priority t) := by
  unfold scheduleThread
  split_ifs
  · exact .ok (.of_agrees h)
  · cases node with
    | none => exact .error
    | some p =>
      exact (h.enqueue (.level priority) fun r hr => hnode r hr).bind fun L' A' hL' =>
        .ok ⟨L', hL', rfl⟩

theorem firstQueued_refines (h : Agrees L t.queues) : firstQueued L = firstQueued t.queues := by
  simp only [firstQueued, h.size, h.peek]

theorem selectNext_refines (h : Agrees L t.queues) (currentPriority : ℤ) :
    Matches Refines (selectNext currentPriority (t.withQueues L))
      (selectNext currentPriority t) := by
  simp only [selectNext, State.withQueues_queues, State.withQueues_hasRun, h.size, h.peek,
    firstQueued_refines h]
  split_ifs
  · exact .ok ⟨L, h, rfl⟩
  · cases QueueStore.peek (QueuePtr.level currentPriority) t.queues with
    | none => exact .error
    | some p => exact .ok ⟨L, h, rfl⟩

/-- The same list of threads sent back, and refining states. -/
def Reflects (a : List TcbPtr × State TcbLinks) (b : List TcbPtr × State TcbLists) : Prop :=
  a.1 = b.1 ∧ Refines a.2 b.2

theorem runNextSending_refines (start : Time)
    {again : State TcbLinks → Except Stop (List TcbPtr × State TcbLinks)}
    {again' : State TcbLists → Except Stop (List TcbPtr × State TcbLists)}
    (hagain : ∀ L t, Agrees L t.queues → Matches Reflects (again (t.withQueues L)) (again' t))
    (h : Agrees L t.queues) (currentPriority : ℤ) :
    Matches Reflects (runNextSending start again currentPriority (t.withQueues L))
      (runNextSending start again' currentPriority t) := by
  refine (selectNext_refines h currentPriority).bind ?_
  rintro _ t' ⟨L', h', rfl⟩
  simp only [State.withQueues_currentTcb, State.withQueues_tcbs]
  cases t'.currentTcb with
  | none => exact .ok ⟨rfl, .of_agrees h'⟩
  | some p =>
    dsimp only
    split_ifs
    · exact hagain L' (t'.setTcb p { t'.tcbs p with state := .ready }) h'
    · exact hagain L' t' h'
    · exact .ok ⟨rfl, L', h', rfl⟩

theorem preempt_withQueues (t : State TcbLists) (L : TcbLinks) (p : TcbPtr) :
    (t.withQueues L).preempt p = (t.preempt p).withQueues L := by
  unfold State.preempt
  simp only [State.withQueues_tcbs]
  split_ifs <;> rfl

@[simp] theorem preempt_queues {σ : Type} (s : State σ) (p : TcbPtr) :
    (s.preempt p).queues = s.queues := by
  unfold State.preempt
  split_ifs <;> rfl

theorem reschedule_refines (h : Agrees L t.queues) {p : TcbPtr} (hp : Unqueued t p) :
    Matches Refines
      (scheduleThread (some p) (((t.withQueues L).preempt p).tcbs p).priority
        ((t.withQueues L).preempt p))
      (scheduleThread (some p) ((t.preempt p).tcbs p).priority (t.preempt p)) := by
  rw [preempt_withQueues]
  refine scheduleThread_refines (by rwa [preempt_queues]) _ fun r hr q => ?_
  rw [preempt_queues, ← Option.some.inj hr]
  exact hp q

theorem yieldHelperSending_refines (start : Time) (fuel : ℕ) (L : TcbLinks) (t : State TcbLists)
    (h : Agrees L t.queues) : Matches Reflects (yieldHelperSending start fuel (t.withQueues L))
      (yieldHelperSending start fuel t) := by
  induction fuel generalizing L t with
  | zero => exact .error
  | succ fuel ih =>
    cases hcur : t.currentTcb with
    | none =>
      rw [yieldHelperSending_null (s := t) hcur, yieldHelperSending_null (s := t.withQueues L) hcur]
      exact .error
    | some cur =>
      rw [yieldHelperSending_succ (s := t) hcur, yieldHelperSending_succ (s := t.withQueues L) hcur]
      refine (h.dequeue (.level (t.tcbs cur).priority)).bind ?_
      rintro ⟨node, L'⟩ ⟨_, A'⟩ ⟨rfl, h', hnode⟩
      cases node with
      | none => exact .error
      | some p =>
        refine (reschedule_refines (t := { t with queues := A' }) h' (hnode p rfl)).bind ?_
        rintro _ t' ⟨L'', h'', rfl⟩
        refine (runNextSending_refines start ih h'' _).map fun a b hab => ?_
        exact ⟨congrArg (p :: ·) hab.1, hab.2⟩

theorem yieldHelper_refines (start : Time) (fuel : ℕ) (L : TcbLinks) (t : State TcbLists)
    (h : Agrees L t.queues) :
    Matches Refines (yieldHelper start fuel (t.withQueues L)) (yieldHelper start fuel t) := by
  rw [← yieldHelperSending_snd, ← yieldHelperSending_snd]
  exact (yieldHelperSending_refines start fuel L t h).map fun _ _ hab => hab.2

theorem signalHandlerSending_refines (h : Agrees L t.queues) (now start : Time) (fuel : ℕ) :
    Matches Reflects (signalHandlerSending now start fuel (t.withQueues L))
      (signalHandlerSending now start fuel t) := by
  cases hcur : t.currentTcb with
  | none =>
    rw [signalHandlerSending_null (s := t) hcur,
      signalHandlerSending_null (s := t.withQueues L) hcur]
    exact .error
  | some cur =>
    by_cases hpast : PastSlice t cur now
    · rw [signalHandlerSending_past (s := t) hcur hpast,
        signalHandlerSending_past (s := t.withQueues L) hcur hpast]
      simp only [State.withQueues_afterUnlockPriority]
      split_ifs
      · exact runNextSending_refines (t := { t.save cur with afterUnlockPriority := -1 }) start
          (yieldHelperSending_refines start fuel) h _
      · exact yieldHelperSending_refines start fuel L (t.save cur) h
    · rw [signalHandlerSending_within (s := t) hcur hpast,
        signalHandlerSending_within (s := t.withQueues L) hcur hpast]
      exact .ok ⟨rfl, L, h, rfl⟩

theorem tickSending_refines (h : Agrees L t.queues) (now start : Time) (fuel : ℕ) :
    Matches Reflects (tickSending now start fuel (t.withQueues L)) (tickSending now start fuel t) :=
  signalHandlerSending_refines (t := t.interrupt) h now start fuel

theorem tick_refines (h : Agrees L t.queues) (now start : Time) (fuel : ℕ) :
    Matches Refines (tick now start fuel (t.withQueues L)) (tick now start fuel t) := by
  rw [← tickSending_snd, ← tickSending_snd]
  exact (tickSending_refines h now start fuel).map fun _ _ hab => hab.2

end Dispatch

section Calls

variable {L : TcbLinks} {t : State TcbLists}

theorem initScheduler_refines (h : Agrees L t.queues) :
    Refines (initScheduler (t.withQueues L)) (initScheduler t) :=
  ⟨_, ((h.init (.level 0)).init (.level 1)).init (.level 2), rfl⟩

theorem moveHead_refines (h : Agrees L t.queues) (mutex : MutexPtr) (priority : ℤ) :
    Matches Refines (moveHead mutex priority (t.withQueues L)) (moveHead mutex priority t) := by
  refine (h.dequeue (.level priority)).bind ?_
  rintro ⟨node, L'⟩ ⟨_, A'⟩ ⟨rfl, h', hnode⟩
  refine (h'.enqueue (.wait mutex) hnode).bind ?_
  exact fun L'' A'' h'' => .ok ⟨L'', h'', rfl⟩

theorem lockPass_refines (h : Agrees L t.queues) (mutex : MutexPtr) (priority : ℤ) :
    Matches Refines (lockPass mutex priority (t.withQueues L)) (lockPass mutex priority t) := by
  simp only [lockPass, testAndSet, State.withQueues_mutexes]
  cases t.mutexes mutex with
  | none => exact .error
  | some found =>
    cases found with
    | unlocked => exact .ok ⟨L, h, rfl⟩
    | locked =>
      exact moveHead_refines
        (t := { t with mutexes := Function.update t.mutexes mutex (some .locked) }) h mutex priority

theorem dequeueWaiter_refines (h : Agrees L t.queues) (mutex : MutexPtr) :
    Matches (fun a b => a.1 = b.1 ∧ Refines a.2 b.2 ∧ ∀ p, b.1 = some p → Unqueued b.2 p)
      (dequeueWaiter mutex (t.withQueues L)) (dequeueWaiter mutex t) := by
  refine (h.dequeue (.wait mutex)).bind ?_
  rintro ⟨node, L'⟩ ⟨_, A'⟩ ⟨rfl, h', hnode⟩
  exact .ok ⟨rfl, ⟨L', h', rfl⟩, hnode⟩

theorem scheduleWaiter_refines (h : Agrees L t.queues) {node : Option TcbPtr}
    (hnode : ∀ p, node = some p → Unqueued t p) :
    Matches Refines (scheduleWaiter node (t.withQueues L)) (scheduleWaiter node t) := by
  cases node with
  | none => exact .ok (.of_agrees h)
  | some p => exact scheduleThread_refines h 0 hnode

theorem markUnlock_refines (h : Agrees L t.queues) :
    Matches Refines (markUnlock (t.withQueues L)) (markUnlock t) := by
  simp only [markUnlock, State.current, State.withQueues_currentTcb]
  cases t.currentTcb with
  | none => exact .error
  | some cur => exact .ok ⟨L, h, rfl⟩

theorem myPthreadMutexUnlock_refines (h : Agrees L t.queues) (mutex : MutexPtr) :
    Matches Refines (myPthreadMutexUnlock mutex (t.withQueues L))
      (myPthreadMutexUnlock mutex t) := by
  simp only [myPthreadMutexUnlock, release, State.withQueues_mutexes]
  cases t.mutexes mutex with
  | none => exact .error
  | some found =>
    simp only [ok_bind]
    refine (dequeueWaiter_refines (t := { t with
      mutexes := Function.update t.mutexes mutex (some .unlocked) }) h mutex).bind ?_
    rintro ⟨node, s'⟩ ⟨node', t'⟩ ⟨hnode, ⟨L', h', hs'⟩, hun⟩
    obtain rfl : node = node' := hnode
    obtain rfl : s' = t'.withQueues L' := hs'
    refine (scheduleWaiter_refines h' hun).bind ?_
    rintro _ t'' ⟨L'', h'', rfl⟩
    exact markUnlock_refines h''

theorem getTcb_refines (h : Agrees L t.queues) (tid fuel : ℕ) :
    getTcb tid fuel (t.withQueues L) = getTcb tid fuel t := by
  have hloop : ∀ (found : TcbPtr → Bool) (levels : List ℤ),
      getTcbLoop found fuel L levels = getTcbLoop found fuel t.queues levels := by
    intro found levels
    induction levels with
    | nil => rfl
    | cons i levels ih => simp only [getTcbLoop, h.search, ih]
  simp only [getTcb, State.withQueues_scheduler, State.withQueues_queues, State.withQueues_tcbs,
    hloop]

theorem myPthreadJoin_refines (h : Agrees L t.queues) (tid fuel : ℕ) :
    myPthreadJoin tid fuel (t.withQueues L) = myPthreadJoin tid fuel t := by
  simp only [myPthreadJoin, awaitTermination, getTcb_refines h, State.withQueues_tcbs]

end Calls

section Creation

/-- What `schedule_thread` does at level 0. -/
@[simps] def State.scheduled (t : State TcbLists) (p : TcbPtr) : State TcbLists :=
  { t.setTcb p { t.tcbs p with priority := 0 } with
    queues := t.queues.set (.level 0) (t.queues (.level 0) ++ [p]) }

theorem scheduleThread_first (t : State TcbLists) (p : TcbPtr) :
    scheduleThread (some p) 0 t = .ok (t.scheduled p) := by
  rw [scheduleThread, if_neg (by decide)]
  rfl

variable {L : TcbLinks} {t : State TcbLists}

theorem Allocated.unqueued (h : Allocated t) {p : TcbPtr} (hp : t.frontier ≤ p) : Unqueued t p :=
  fun q hq => absurd (h q p hq) (not_lt.mpr hp)

theorem Allocated.initScheduler (h : Allocated t) : Allocated (initScheduler t) := by
  intro q p hp
  apply h q p
  change p ∈ (((t.queues.set (.level 0) []).set (.level 1) []).set (.level 2) []) q at hp
  by_cases h2 : q = .level 2
  · simp [h2] at hp
  by_cases h1 : q = .level 1
  · simp [h1, Lists.set_of_ne] at hp
  by_cases h0 : q = .level 0
  · simp [h0, Lists.set_of_ne] at hp
  rwa [Lists.set_of_ne h2, Lists.set_of_ne h1, Lists.set_of_ne h0] at hp

def State.created (t : State TcbLists) (tid : ℕ) (context : Context) : State TcbLists :=
  { t with
    queues := t.queues.set (.level 0) (t.queues (.level 0) ++ [t.frontier])
    tcbs := Function.update t.tcbs t.frontier
      { t.tcbs t.frontier with tid, context, state := .ready, priority := 0 }
    frontier := t.frontier + 1
    tid
    threads := t.threads ++ [t.frontier] }

theorem created_tcb_frontier (t : State TcbLists) (tid : ℕ) (context : Context) :
    (t.created tid context).tcbs t.frontier =
      { t.tcbs t.frontier with tid, context, state := .ready, priority := 0 } :=
  Function.update_self ..

theorem created_tcb_of_ne {t : State TcbLists} {p : TcbPtr} (h : p ≠ t.frontier) (tid : ℕ)
    (context : Context) : (t.created tid context).tcbs p = t.tcbs p := Function.update_of_ne h ..

def State.withMain (t : State TcbLists) : State TcbLists :=
  { t.created t.tid { t.cpu with owner := t.frontier } with
    currentTcb := some t.frontier
    cpu := { t.cpu with owner := t.frontier } }

/-- A new thread waits for its first turn. -/
def State.withNode (t : State TcbLists) (routine : Routine) : State TcbLists :=
  { t.created (t.tid + 1) ⟨t.frontier, .start routine, []⟩ with
    handles := t.handles ++ [(t.tid + 1, t.frontier)] }

theorem createMain_lists (contextOk : Bool) (t : State TcbLists) : createMain contextOk t =
    .ok (contextOk, if contextOk then t.withMain else t.allocateTcb t.tid) := by
  cases contextOk with
  | false => rfl
  | true =>
    simp only [createMain, if_true, scheduleThread_first, ok_bind]
    simp [State.withMain, State.created, State.scheduled, State.readyTcb, State.allocateTcb,
      State.setTcb]

theorem createNode_lists (contextOk : Bool) (routine : Routine) (t : State TcbLists) :
    createNode contextOk routine t =
    .ok (contextOk, if contextOk then t.withNode routine else t.allocateTcb (t.tid + 1)) := by
  cases contextOk with
  | false => rfl
  | true =>
    simp only [createNode, if_true, scheduleThread_first, ok_bind]
    simp [State.withNode, State.created, State.scheduled, State.readyTcb, State.allocateTcb,
      State.setTcb]

theorem Allocated.createMain (h : Allocated t) {contextOk ok : Bool} {t' : State TcbLists}
    (ht : createMain contextOk t = .ok (ok, t')) : Allocated t' := by
  have hnew : Allocated (t.allocateTcb t.tid) := fun q p hp => Nat.lt_succ_of_lt (h q p hp)
  rw [createMain_lists] at ht
  obtain ⟨rfl, rfl⟩ := ht
  cases contextOk with
  | false => exact hnew
  | true =>
    intro q p hp
    rcases Lists.mem_enqueue.mp hp with hp | ⟨-, rfl⟩
    · exact hnew q p hp
    · exact Nat.lt_succ_self _

theorem createMain_refines (h : Agrees L t.queues) (hfresh : Allocated t) (contextOk : Bool) :
    Matches (fun a b => a.1 = b.1 ∧ Refines a.2 b.2)
      (createMain contextOk (t.withQueues L)) (createMain contextOk t) := by
  cases contextOk with
  | false => exact .ok ⟨rfl, L, h, rfl⟩
  | true =>
    refine (scheduleThread_refines
      (t := (t.allocateTcb t.tid).readyTcb t.frontier { t.cpu with owner := t.frontier })
      h 0 ?_).bind ?_
    · rintro p ⟨⟩
      exact hfresh.unqueued le_rfl
    · rintro _ t' ⟨L', h', rfl⟩
      exact .ok ⟨rfl, L', h', rfl⟩

theorem createNode_refines (h : Agrees L t.queues) (hfresh : Allocated t) (contextOk : Bool)
    (routine : Routine) :
    Matches (fun a b => a.1 = b.1 ∧ Refines a.2 b.2)
      (createNode contextOk routine (t.withQueues L)) (createNode contextOk routine t) := by
  cases contextOk with
  | false => exact .ok ⟨rfl, L, h, rfl⟩
  | true =>
    refine (scheduleThread_refines
      (t := (t.allocateTcb (t.tid + 1)).readyTcb t.frontier ⟨t.frontier, .start routine, []⟩)
      h 0 ?_).bind ?_
    · rintro p ⟨⟩
      exact hfresh.unqueued le_rfl
    · rintro _ t' ⟨L', h', rfl⟩
      exact .ok ⟨rfl, L', h', rfl⟩

theorem createThreads_refines (h : Agrees L t.queues) (hfresh : Allocated t)
    (mainContext nodeContext : Bool) (routine : Routine) :
    Matches (fun a b => a.1 = b.1 ∧ Refines a.2 b.2)
      (createThreads mainContext nodeContext routine (t.withQueues L))
      (createThreads mainContext nodeContext routine t) := by
  simp only [createThreads, State.withQueues_tid]
  split_ifs
  · refine (createMain_refines h hfresh mainContext).bind_of_ok ?_
    rintro ⟨ok, s'⟩ ⟨ok', t'⟩ ht' ⟨hok, L', h', hs'⟩
    obtain rfl : ok = ok' := hok
    obtain rfl : s' = t'.withQueues L' := hs'
    dsimp only
    split_ifs
    · exact createNode_refines h' (hfresh.createMain ht') nodeContext routine
    · exact .ok ⟨rfl, L', h', rfl⟩
  · exact createNode_refines h hfresh nodeContext routine

theorem myPthreadCreate_refines (h : Agrees L t.queues) (hfresh : Allocated t)
    (mainContext nodeContext : Bool) (routine : Routine) :
    Matches (fun a b => a.1 = b.1 ∧ Refines a.2 b.2)
      (myPthreadCreate mainContext nodeContext routine (t.withQueues L))
      (myPthreadCreate mainContext nodeContext routine t) := by
  simp only [myPthreadCreate, State.withQueues_schedulerInit]
  split_ifs
  · exact createThreads_refines h hfresh mainContext nodeContext routine
  · obtain ⟨L', h', heq⟩ := initScheduler_refines (t := { t with schedulerInit := true }) h
    change Matches _ (createThreads mainContext nodeContext routine
      (initScheduler ({ t with schedulerInit := true }.withQueues L))) _
    rw [heq]
    exact createThreads_refines h' (Allocated.initScheduler hfresh) mainContext nodeContext routine

end Creation

section Steps

variable {L : TcbLinks} {t : State TcbLists}

theorem myPthreadMutexInit_refines (h : Agrees L t.queues) (mutex : MutexPtr) :
    Matches Refines (myPthreadMutexInit mutex (t.withQueues L)) (myPthreadMutexInit mutex t) := by
  simp only [myPthreadMutexInit, State.withQueues_mutexes, State.withQueues_schedulerInit]
  split_ifs
  · exact .error
  · exact .ok ⟨_, h.init (.wait mutex), rfl⟩
  · exact .ok ⟨_, (((h.init (.level 0)).init (.level 1)).init (.level 2)).init (.wait mutex), rfl⟩

theorem myPthreadMutexLock_refines (h : Agrees L t.queues) (mutex : MutexPtr) :
    Matches Refines (myPthreadMutexLock mutex (t.withQueues L)) (myPthreadMutexLock mutex t) := by
  simp only [myPthreadMutexLock, State.current, State.withQueues_currentTcb]
  cases t.currentTcb with
  | none => exact .error
  | some p => exact lockPass_refines h mutex _

theorem myPthreadExit_refines (h : Agrees L t.queues) (value : Value) :
    Matches Refines (myPthreadExit value (t.withQueues L)) (myPthreadExit value t) := by
  simp only [myPthreadExit, State.current, State.withQueues_currentTcb]
  cases t.currentTcb with
  | none => exact .error
  | some p => exact .ok ⟨L, h, rfl⟩

theorem functionReturn_refines (h : Agrees L t.queues) (value : Value) (resumed : Bool) :
    Matches Refines (functionReturn value resumed (t.withQueues L))
      (functionReturn value resumed t) := by
  simp only [functionReturn, State.current, State.withQueues_currentTcb]
  cases t.currentTcb with
  | none => exact .error
  | some p =>
    simp only [ok_bind, State.withQueues_tcbs]
    split_ifs
    · exact .ok ⟨L, h, rfl⟩
    · exact .ok ⟨L, h, rfl⟩

/-- Every call gives matching results on linked control blocks and on lists. -/
theorem Call.run_refines (h : Agrees L t.queues) (hfresh : Allocated t) (c : Call) (fuel : ℕ) :
    Matches Refines (c.run fuel (t.withQueues L)) (c.run fuel t) := by
  cases c with
  | create mainContext nodeContext routine =>
    refine (myPthreadCreate_refines h hfresh mainContext nodeContext routine).bind ?_
    exact fun a b hab => .ok hab.2
  | tick now start => exact tick_refines h now start fuel
  | mutexInit mutex => exact myPthreadMutexInit_refines h mutex
  | lock mutex => exact myPthreadMutexLock_refines h mutex
  | relock mutex priority => exact lockPass_refines h mutex priority
  | unlock mutex => exact myPthreadMutexUnlock_refines h mutex
  | exit value => exact myPthreadExit_refines h value
  | functionReturn value resumed => exact functionReturn_refines h value resumed
  | join tid =>
    simp only [Call.run, myPthreadJoin_refines h]
    cases myPthreadJoin tid fuel t with
    | error e => exact .error
    | ok value => exact .ok (.of_agrees h)

/-- The list state follows each call of the linked state. -/
theorem CallStep.refines {s s' : State TcbLinks} {c : CallBy} (hr : Refines s t)
    (hfresh : Allocated t) (hs : CallStep s c s') : ∃ t', CallStep t c t' ∧ Refines s' t' := by
  obtain ⟨L, h, rfl⟩ := hr
  obtain ⟨hcaller, fuel, hrun⟩ := hs
  obtain ⟨t', ht', hr'⟩ := (c.call.run_refines h hfresh fuel).of_ok hrun
  exact ⟨t', ⟨hcaller, fuel, ht'⟩, hr'⟩

end Steps

end VirtualMemorySimulation.Scheduler
