import VirtualMemorySimulation.Scheduler.WaitQueues

/-!
# No lost wake-up

A failed test-and-set and the move to the wait queue are separate steps. A thread that is
preempted between them may move itself after the mutex has been released, and after the unlock
has looked for a waiter. Otherwise a mutex that is unlocked and has waiters is about to be tried
again: by a thread on its way to the test-and-set, or by one that an unlock will wake.
-/

namespace VirtualMemorySimulation.Scheduler

open Execution LinkedQueue

/-- Inside `my_pthread_mutex_lock` on the mutex with the test-and-set ahead, or inside the
`my_pthread_mutex_unlock` that will wake a waiter of it. -/
def Pc.rousing (mutex : MutexPtr) : Pc → Bool
  | .lockTest m _ => m = mutex
  | .lockPark m _ => m = mutex
  | .lockPause m _ => m = mutex
  | .unlockDequeue m => m = mutex
  | .unlockSchedule m (some _) => m = mutex
  | _ => false

/-- The mutex to whose wait queue the next step moves the caller. -/
def Pc.moving : Pc → Option MutexPtr
  | .lockMove m _ => some m
  | _ => none

section Statement

/-- The thread is in a run queue and will try the mutex again, or will wake a waiter. -/
def Rouses (s : State TcbLinks) (m : MutexPtr) (p : TcbPtr) : Prop :=
  (∃ priority, InQueue s.queues (.level priority) p) ∧ (s.contextOf p).pc.rousing m = true

/-- No thread sleeps on a mutex that nobody holds and nobody will release. -/
def NoLostWakeUp (s : State TcbLinks) : Prop :=
  ∀ m p, s.mutexes m = some .unlocked → InQueue s.queues (.wait m) p → ∃ r, Rouses s m r

/-- A thread that moves to the wait queue finds the mutex still locked, or another thread
will wake it. -/
def MovesInTime (s : State TcbLinks) : Event → Prop
  | .next => ∀ m priority, s.cpu.pc = .lockMove m priority → s.mutexes m = some .unlocked →
      ∃ r, r ≠ s.cpu.owner ∧ Rouses s m r
  | _ => True

def State.Rouses (t : State TcbLists) (m : MutexPtr) (p : TcbPtr) : Prop :=
  (∃ priority, p ∈ t.queues (.level priority)) ∧ (t.contextOf p).pc.rousing m = true

def State.movesInTime (t : State TcbLists) : Event → Prop
  | .next => ∀ m priority, t.cpu.pc = .lockMove m priority → t.mutexes m = some .unlocked →
      ∃ r, r ≠ t.cpu.owner ∧ t.Rouses m r
  | _ => True

/-- Some thread will see to the waiters of every mutex that is unlocked. -/
def State.Wakeful (t : State TcbLists) : Prop :=
  ∀ m, t.mutexes m = some .unlocked → t.queues (.wait m) ≠ [] → ∃ r, t.Rouses m r

end Statement

section Points

variable {pc : Pc} {m m' : MutexPtr}

theorem Pc.rousing_of_waiting (h : pc.waiting m = true) : pc.rousing m = true := by
  cases pc <;> first | exact h | cases h

theorem Pc.rousing_interrupted (pc : Pc) (m : MutexPtr) :
    pc.interrupted.rousing m = pc.rousing m := by
  cases pc <;> rfl

end Points

section Steps

variable {t t' : State TcbLists} {m : MutexPtr}

theorem State.Rouses.local {r : TcbPtr} (h : t.Rouses m r) (hl : Local t t')
    (hne : r ≠ t.cpu.owner)
    (hlevel : ∀ priority, ∀ p ∈ t.queues (.level priority), p ≠ t.cpu.owner →
      p ∈ t'.queues (.level priority)) : t'.Rouses m r := by
  obtain ⟨⟨priority, hr⟩, hpc⟩ := h
  refine ⟨⟨priority, hlevel priority r hr hne⟩, ?_⟩
  rw [hl.contextOf hne]
  exact hpc

theorem Queued.rouses (h : Queued t) (hl : Local t t') (hmem : t.cpu.owner ∈ t.threads)
    (hpc : t.cpu.pc.parked = false) (hlevel : t'.queues (.level 0) = t.queues (.level 0))
    (hpc' : t'.cpu.pc.rousing m = true) : t'.Rouses m t.cpu.owner := by
  refine ⟨⟨0, ?_⟩, ?_⟩
  · rw [hlevel]
    exact List.mem_of_mem_head? (h.head hmem hpc)
  · rw [← hl.owner, contextOf_self]
    exact hpc'

theorem State.Wakeful.local (h : t.Wakeful) (hl : Local t t')
    (hlevel : ∀ priority, ∀ p ∈ t.queues (.level priority), p ≠ t.cpu.owner →
      p ∈ t'.queues (.level priority))
    (hmutex : ∀ m, t'.mutexes m = some .unlocked → t'.queues (.wait m) ≠ [] →
      (∃ r, t'.Rouses m r) ∨ t.mutexes m = some .unlocked ∧ t.queues (.wait m) ≠ [] ∧
        (t.cpu.pc.rousing m = true → t.Rouses m t.cpu.owner → ∃ r, t'.Rouses m r)) :
    t'.Wakeful := by
  intro m hunlocked hwait
  rcases hmutex m hunlocked hwait with hrouses | ⟨hunlocked', hwait', howner⟩
  · exact hrouses
  obtain ⟨r, hr⟩ := h m hunlocked' hwait'
  by_cases hro : r = t.cpu.owner
  · subst hro
    have hpc := hr.2
    rw [contextOf_self] at hpc
    exact howner hpc hr
  · exact ⟨r, hr.local hl hro hlevel⟩

theorem State.Wakeful.quiet (h : t.Wakeful) (hl : Local t t') (hqueues : t'.queues = t.queues)
    (hmutexes : t'.mutexes = t.mutexes) (hpc : ∀ m, t.cpu.pc.rousing m = false) : t'.Wakeful := by
  refine h.local hl (fun _ _ hp _ => hqueues ▸ hp) fun m hunlocked hwait => Or.inr ?_
  rw [hmutexes] at hunlocked
  rw [hqueues] at hwait
  exact ⟨hunlocked, hwait, fun hrousing => by cases (hpc m).symm.trans hrousing⟩

theorem State.Wakeful.on (h : t.Wakeful) (hl : Local t t') (m : MutexPtr)
    (hlevel : ∀ priority, ∀ p ∈ t.queues (.level priority), p ≠ t.cpu.owner →
      p ∈ t'.queues (.level priority))
    (hmutexes : ∀ m', m' ≠ m → t'.mutexes m' = t.mutexes m')
    (hwaits : ∀ m', m' ≠ m → t'.queues (.wait m') = t.queues (.wait m'))
    (hpc : ∀ m', m' ≠ m → t.cpu.pc.rousing m' = false)
    (hmutex : t'.mutexes m = some .unlocked → t'.queues (.wait m) ≠ [] → ∃ r, t'.Rouses m r) :
    t'.Wakeful := by
  refine h.local hl hlevel fun m' hunlocked hwait => ?_
  by_cases hm : m' = m
  · subst hm
    exact Or.inl (hmutex hunlocked hwait)
  · rw [hmutexes m' hm] at hunlocked
    rw [hwaits m' hm] at hwait
    exact Or.inr ⟨hunlocked, hwait, fun hrousing => by cases (hpc m' hm).symm.trans hrousing⟩

/-- The caller moves to the wait queue, and leaves the other threads where they are. -/
theorem State.Wakeful.move {priority : ℤ} {p : TcbPtr} {l : List TcbPtr} (h : t.Wakeful)
    (hs : Steady t) (hq : Queued t) (hcond : t.movesInTime .next)
    (heq : t.cpu.pc = .lockMove m priority) (hlevel : t.queues (.level priority) = p :: l)
    (hl : Local t t') (hmutexes : t'.mutexes = t.mutexes)
    (hqueues : t'.queues = t.queues.move (.level priority) (.wait m) p l) : t'.Wakeful := by
  obtain rfl : p = t.cpu.owner := hq.head_of_lockMove hs heq hlevel
  have hstays : ∀ i, ∀ r ∈ t.queues (.level i), r ≠ t.cpu.owner → r ∈ t'.queues (.level i) := by
    intro i r hr hne
    rw [hqueues]
    exact (hs.distinct.mem_move hlevel).mpr (Or.inl ⟨hr, hne⟩)
  refine h.on hl m hstays (fun _ _ => by rw [hmutexes]) (fun m' hm => ?_)
    (fun _ _ => by rw [heq]; rfl) fun hunlocked _ => ?_
  · rw [hqueues]
    exact Lists.move_of_ne (by simp) (by simpa using hm)
  · rw [hmutexes] at hunlocked
    obtain ⟨r, hne, hr⟩ := hcond m priority heq hunlocked
    exact ⟨r, hr.local hl hne hstays⟩

theorem State.Wakeful.wake {w : TcbPtr} (h : t.Wakeful) (hs : Steady t) (hq : Queued t)
    (heq : t.cpu.pc = .unlockSchedule m (some w)) (hl : Local t t')
    (hmutexes : t'.mutexes = t.mutexes)
    (hqueues : t'.queues = t.queues.set (.level 0) (t.queues (.level 0) ++ [w])) :
    t'.Wakeful := by
  have hlevel : t'.queues (.level 0) = t.queues (.level 0) ++ [w] := by
    rw [hqueues, Lists.set_self]
  refine h.on hl m (fun i p hp _ => ?_) (fun _ _ => by rw [hmutexes]) (fun m' _ => ?_)
    (fun m' hm => ?_) fun _ _ => ⟨w, ⟨0, ?_⟩, ?_⟩
  · obtain rfl := hs.level i p hp
    rw [hlevel]
    exact List.mem_append_left _ hp
  · rw [hqueues]
    exact Lists.set_of_ne (by simp)
  · rw [heq]
    exact decide_eq_false (Ne.symm hm)
  · rw [hlevel]
    exact List.mem_append_right _ List.mem_cons_self
  · have hown := hs.owner_mem (by rw [heq]; simp)
    have hpc : (t.contextOf t.cpu.owner).pc = .unlockSchedule m (some w) := by
      rw [contextOf_self]
      exact heq
    have hwaiting := hq.transit _ hown m w hpc
    have hne : w ≠ t.cpu.owner := by
      rintro rfl
      rw [hpc] at hwaiting
      cases hwaiting
    rw [hl.contextOf hne]
    exact Pc.rousing_of_waiting hwaiting

theorem State.Wakeful.executes (h : t.Wakeful) (hs : Steady t) (hq : Queued t)
    (hcond : t.movesInTime .next) (he : Executes t t') : t'.Wakeful := by
  have hown := hs.owner_mem he.not_body
  have hl := he.local
  cases he with
  | @test m priority found heq hm =>
    refine h.on hl m (fun _ _ hp _ => hp) (fun _ hm' => Function.update_of_ne hm' ..)
      (fun _ _ => rfl) (fun m' hm' => ?_) fun hunlocked _ => ?_
    · rw [heq]
      exact decide_eq_false (Ne.symm hm')
    · -- the test-and-set leaves the mutex locked
      have hlocked : Function.update t.mutexes m (some MutexState.locked) m = some .locked :=
        Function.update_self ..
      cases hlocked.symm.trans hunlocked
  | @move m priority p l heq hlevel => exact h.move hs hq hcond heq hlevel hl rfl rfl
  | @park m priority heq =>
    refine h.local hl (fun _ _ hp _ => hp) fun m' hunlocked hwait =>
      Or.inr ⟨hunlocked, hwait, fun hrousing hr => ⟨t.cpu.owner, hr.1, ?_⟩⟩
    rw [heq] at hrousing
    rw [show (t.setPc (.lockPause m priority)).contextOf t.cpu.owner = _ from
      contextOf_self (t.setPc (.lockPause m priority))]
    exact hrousing
  | @release m heq hm =>
    exact h.on hl m (fun _ _ hp _ => hp) (fun _ hm' => Function.update_of_ne hm' ..)
      (fun _ _ => rfl) (fun _ _ => by rw [heq]; rfl) fun _ _ =>
        ⟨_, hq.rouses hl hown (by rw [heq]; rfl) rfl (decide_eq_true rfl)⟩
  | @noWaiter m heq hnone =>
    refine h.on hl m (fun _ _ hp _ => hp) (fun _ _ => rfl) (fun _ _ => rfl) (fun m' hm' => ?_)
      fun _ hwait => absurd hnone hwait
    rw [heq]
    exact decide_eq_false (Ne.symm hm')
  | @waiter m w l heq hwaiters =>
    have hlevel : ∀ priority, (t.queues.set (.wait m) l) (.level priority) =
        t.queues (.level priority) := fun priority => Lists.set_of_ne (by simp)
    refine h.on hl m (fun priority p hp _ => (hlevel priority).symm ▸ hp) (fun _ _ => rfl)
      (fun _ hm' => Lists.set_of_ne (by simpa using hm')) (fun m' hm' => ?_) fun _ _ =>
        ⟨_, hq.rouses hl hown (by rw [heq]; rfl) (hlevel 0) (decide_eq_true rfl)⟩
    rw [heq]
    exact decide_eq_false (Ne.symm hm')
  | @wake m w heq => exact h.wake hs hq heq hl rfl rfl
  | start heq => exact h.quiet hl rfl rfl fun _ => by rw [heq]; rfl
  | acquire heq => exact h.quiet hl rfl rfl fun _ => by rw [heq]; rfl
  | pass heq => exact h.quiet hl rfl rfl fun _ => by rw [heq]; rfl
  | mark heq => exact h.quiet hl rfl rfl fun _ => by rw [heq]; rfl
  | joined heq => exact h.quiet hl rfl rfl fun _ => by rw [heq]; rfl
  | exited heq => exact h.quiet hl rfl rfl fun _ => by rw [heq]; rfl
  | notExited heq => exact h.quiet hl rfl rfl fun _ => by rw [heq]; rfl
  | store heq => exact h.quiet hl rfl rfl fun _ => by rw [heq]; rfl
  | terminate heq => exact h.quiet hl rfl rfl fun _ => by rw [heq]; rfl

theorem State.Wakeful.keep (h : t.Wakeful) (hp : Placed t)
    (hmutex : ∀ m, t'.mutexes m = some .unlocked → t'.queues (.wait m) ≠ [] →
      t.mutexes m = some .unlocked ∧ t.queues (.wait m) ≠ [])
    (hlevel : ∀ priority, ∀ p ∈ t.queues (.level priority), p ∈ t'.queues (.level priority))
    (hrousing : ∀ p ∈ t.threads, ∀ m,
      (t'.contextOf p).pc.rousing m = (t.contextOf p).pc.rousing m) : t'.Wakeful := by
  intro m hunlocked hwait
  obtain ⟨hunlocked', hwait'⟩ := hmutex m hunlocked hwait
  obtain ⟨r, ⟨priority, hr⟩, hpc⟩ := h m hunlocked' hwait'
  refine ⟨r, ⟨priority, hlevel priority r hr⟩, ?_⟩
  rw [hrousing r (hp.known _ r hr)]
  exact hpc

/-- A signal moves threads within their queues, and ends a `pause`. -/
theorem State.Wakeful.tick {now start : Time} {fuel : ℕ} (h : t.Wakeful) (hs : Steady t)
    (ht : Scheduler.tick now start fuel t = .ok t') : t'.Wakeful := by
  obtain ⟨-, hf, -⟩ := tick_outcome hs.toPlaced ht
  refine h.keep hs.toPlaced (fun m hunlocked hwait => ⟨?_, fun hnil => hwait ?_⟩)
    (fun _ p hp => (hf.queues _).mem_iff.mpr hp) fun p _ m => ?_
  · rw [hf.mutexes] at hunlocked
    exact hunlocked
  · have hperm : (t'.queues (.wait m)).Perm (t.queues (.wait m)) := hf.queues _
    rw [hnil] at hperm
    exact hperm.eq_nil
  · rw [hf.context]
    rcases interrupt_contextOf t p with heq | heq
    · rw [heq]
    · rw [heq]
      exact Pc.rousing_interrupted _ m

theorem State.Wakeful.congr (h : t.Wakeful) (hp : Placed t) (hmutexes : t'.mutexes = t.mutexes)
    (hwait : ∀ m, t'.queues (.wait m) = t.queues (.wait m))
    (hlevel : ∀ priority, ∀ p ∈ t.queues (.level priority), p ∈ t'.queues (.level priority))
    (hcontext : ∀ p ∈ t.threads, t'.contextOf p = t.contextOf p) : t'.Wakeful := by
  refine h.keep hp (fun m hunlocked hne => ⟨hmutexes ▸ hunlocked, hwait m ▸ hne⟩) hlevel
    fun p hmem m => ?_
  rw [hcontext p hmem]

theorem State.Wakeful.withNode (h : t.Wakeful) (hp : Placed t) (routine : Routine) :
    (t.withNode routine).Wakeful := by
  refine h.congr hp rfl (fun m => Lists.set_of_ne (by simp)) (fun priority p hmem => ?_)
    fun r hr => created_contextOf_of_ne (hp.allocated r hr).ne _ _
  obtain rfl := hp.level priority p hmem
  change p ∈ (t.queues.set (.level 0) (t.queues (.level 0) ++ [t.frontier])) (.level 0)
  rw [Lists.set_self]
  exact List.mem_append_left _ hmem

theorem State.Wakeful.withMain (hp : Placed t) (hnone : t.threads = []) :
    t.withMain.Wakeful := by
  intro m _ hwait
  have hnil : t.withMain.queues (.wait m) = t.queues (.wait m) := Lists.set_of_ne (by simp)
  rw [hnil, hp.queues_nil hnone] at hwait
  exact absurd rfl hwait

theorem State.Wakeful.creates {ok : Bool} (h : t.Wakeful) (hs : Steady t)
    (hinit : t.schedulerInit = true) (hc : Creates t ok t') : t'.Wakeful := by
  apply hs.toPlaced.creates_induction hinit hs.counted hc h
  · exact fun _ hnone => .withMain hs.toPlaced hnone
  · intro u tid hplaced _ hu
    exact hu.congr hplaced rfl (fun _ => rfl) (fun _ _ hmem => hmem)
      fun r hr => allocateTcb_contextOf hplaced hr tid
  · exact fun u routine hplaced _ hu => hu.withNode hplaced routine

theorem State.Wakeful.called {c : ClientCall} (h : t.Wakeful) (hs : Steady t)
    (hpc : t.cpu.pc = .body) (hc : Called t c t') : t'.Wakeful := by
  have hrousing : ∀ m, t.cpu.pc.rousing m = false := fun _ => by rw [hpc]; rfl
  have hset : ∀ pc, (t.setPc pc).Wakeful := by
    intro pc
    exact h.quiet (.setPc t pc) rfl rfl hrousing
  cases hc with
  | create hcreate =>
    obtain ⟨-, -, hcpu, htcbs, hqueues, hmutexes, -⟩ := hs.toPlaced.begun_threads
    have hbegun : t.begun.Wakeful := by
      refine h.congr hs.toPlaced hmutexes (fun _ => by rw [hqueues]) (fun _ _ hp => ?_) fun p _ => ?_
      · rw [hqueues]
        exact hp
      · simp only [State.contextOf, hcpu, htcbs]
    exact hbegun.creates hs.begun hs.toPlaced.begun.2 hcreate
  | @mutexInit m u hm hu =>
    have hu' : u.queues = t.queues ∧ ∀ p, u.contextOf p = t.contextOf p := by
      rcases hu with rfl | ⟨-, rfl⟩
      · exact ⟨rfl, fun _ => rfl⟩
      · exact ⟨rfl, fun _ => rfl⟩
    obtain ⟨hqueues, hcontext⟩ := hu'
    refine h.keep hs.toPlaced (fun m' hunlocked hwait => ?_) (fun _ p hp => hqueues ▸ hp)
      fun p _ m' => congrArg (fun c => c.pc.rousing m') (hcontext p)
    have hmutexes : Function.update t.mutexes m (some .unlocked) m' = some .unlocked := hunlocked
    have hwait' : t.queues (.wait m') ≠ [] := hqueues ▸ hwait
    -- a mutex without a state has no waiters yet
    have hm' : m' ≠ m := fun heq => hwait' (hs.waits m' (heq ▸ hm))
    rw [Function.update_of_ne hm'] at hmutexes
    exact ⟨hmutexes, hwait'⟩
  | @exit value cur =>
    exact h.congr hs.toPlaced rfl (fun _ => rfl) (fun _ _ hp => hp)
      fun p _ => terminated_contextOf t cur value p
  | lock => exact hset _
  | unlock => exact hset _
  | notFound => exact h
  | join => exact hset _
  | functionReturn => exact hset _

/-- Every event leaves somebody to see to the waiters, if no thread moves too late. -/
theorem State.Wakeful.event {e : Event} (h : t.Wakeful) (hs : Steady t) (hq : Queued t)
    (hcond : t.movesInTime e) (he : EventStep t e t') : t'.Wakeful := by
  cases he.happens hs.toPlaced with
  | tick ht => exact h.tick hs ht
  | call hpc hc => exact h.called hs hpc hc
  | next hx => exact h.executes hs hq hcond hx

end Steps

section Runs

variable {t : State TcbLists} {m : MutexPtr} {p : TcbPtr}

theorem rouses_iff {L : TcbLinks} (hL : Agrees L t.queues) :
    Rouses (t.withQueues L) m p ↔ t.Rouses m p :=
  and_congr (exists_congr fun _ => inQueue_iff hL) Iff.rfl

theorem MovesInTime.refines {s : State TcbLinks} (hr : Refines s t) {e : Event}
    (h : MovesInTime s e) : t.movesInTime e := by
  obtain ⟨L, hL, rfl⟩ := hr
  cases e with
  | next =>
    intro m priority hpc hunlocked
    obtain ⟨r, hne, hr⟩ := h m priority hpc hunlocked
    exact ⟨r, hne, (rouses_iff hL).mp hr⟩
  | call c => trivial
  | tick now start => trivial

theorem State.Wakeful.noLostWakeUp {L : TcbLinks} (h : t.Wakeful) (hL : Agrees L t.queues) :
    NoLostWakeUp (t.withQueues L) := by
  intro m p hunlocked hp
  obtain ⟨r, hr⟩ := h m hunlocked (List.ne_nil_of_mem ((inQueue_iff hL).mp hp))
  exact ⟨r, (rouses_iff hL).mpr hr⟩

/-- In a run in which every thread moves to the wait queue in time, and no `pause` of the lock
loop returns to a thread that is still there, no wake-up is lost. -/
theorem no_lost_wake_up {storage : TcbPtr → Tcb} {events : List Event} {s : State TcbLinks}
    (h : Run (Guarded (fun s e => MovesInTime s e ∧ SwitchesInLock s e) EventStep)
      (State.initial noLinks storage) events s) : NoLostWakeUp s := by
  have hinv := h.invariant
    (I := fun _ s => ∃ t, Refines s t ∧ Steady t ∧ Queued t ∧ t.Wakeful)
    ⟨State.initial noLists storage, ⟨noLinks, noLinks_agrees, rfl⟩, .initial storage,
      .of_none (.initial storage) rfl, fun _ _ hwait => absurd rfl hwait⟩
    fun _ s e s' hs hstep => by
      obtain ⟨t, hr, hsteady, hqueued, hwakeful⟩ := hs
      obtain ⟨⟨hmoves, hswitches⟩, he⟩ := hstep
      obtain ⟨t', ht', hr', hsteady'⟩ := he.simulates hr hsteady
      exact ⟨t', hr', hsteady', hqueued.event hsteady (hswitches.refines hr) ht',
        hwakeful.event hsteady hqueued (hmoves.refines hr) ht'⟩
  obtain ⟨t, ⟨L, hL, rfl⟩, -, -, hwakeful⟩ := hinv
  exact hwakeful.noLostWakeUp hL

/-- `MovesInTime` with the mutex locked, and without a look at the queues. -/
def MovesLocked (s : State TcbLinks) : Event → Prop
  | .next => ∀ m ∈ s.cpu.pc.moving, s.mutexes m = some .locked
  | _ => True

instance (s : State TcbLinks) (e : Event) : Decidable (MovesLocked s e) :=
  match e with
  | .next => inferInstanceAs (Decidable (∀ m ∈ s.cpu.pc.moving, s.mutexes m = some .locked))
  | .call _ | .tick .. => isTrue trivial

theorem MovesLocked.inTime {s : State TcbLinks} {e : Event} (h : MovesLocked s e) :
    MovesInTime s e := by
  cases e with
  | next =>
    intro m priority hpc hunlocked
    have hlocked := h m (by rw [hpc]; rfl)
    rw [hunlocked] at hlocked
    cases hlocked
  | call c => trivial
  | tick now start => trivial

/-- Main creates thread 1 and locks mutex 0; thread 1 finds it locked. -/
def lockedAhead : List Event :=
  [.call (.create true true ⟨1, 0⟩), .call (.mutexInit 0), .call (.lock 0), .next, .next,
    .tick ⟨1, 0⟩ ⟨1, 0⟩, .next, .call (.lock 0), .next]

/-- Thread 1 blocks, and main releases the mutex. -/
def timelyMove : List Event :=
  lockedAhead ++ [.next, .next, .tick ⟨2, 0⟩ ⟨2, 0⟩, .call (.unlock 0), .next]

theorem no_lost_wake_up_timelyMove : ∃ s : State TcbLinks,
    Run (Guarded (fun s e => MovesInTime s e ∧ SwitchesInLock s e) EventStep)
      (State.initial noLinks fun _ => zeroedTcb) timelyMove s ∧
        (s.mutexes 0, (s.queues.queue (.wait 0)).head) = (some .unlocked, some 1) ∧
          NoLostWakeUp s := by
  obtain ⟨s, hrun, hs⟩ := Run.of_runAll
    (guardedExec_step (fun s e => MovesLocked s e ∧ SwitchesParked s e) (Event.run_step 5))
    timelyMove (State.initial noLinks fun _ => zeroedTcb)
    (fun s => (s.mutexes 0, (s.queues.queue (.wait 0)).head)) (b := (some .unlocked, some 1))
    (by decide +kernel)
  have hguarded : Run (Guarded (fun s e => MovesInTime s e ∧ SwitchesInLock s e) EventStep)
      (State.initial noLinks fun _ => zeroedTcb) timelyMove s :=
    hrun.mono fun s e s' hs => ⟨⟨hs.1.1.inTime, hs.1.2.inLock⟩, hs.2⟩
  exact ⟨s, hguarded, hs, no_lost_wake_up hguarded⟩

/-- Thread 1 is preempted before it moves. Main unlocks, finds no waiter and goes on; then
thread 1 moves itself. -/
def lateMove : List Event :=
  lockedAhead ++ [.tick ⟨2, 0⟩ ⟨2, 0⟩, .call (.unlock 0), .next, .next, .next, .next,
    .tick ⟨3, 0⟩ ⟨3, 0⟩, .tick ⟨4, 0⟩ ⟨4, 0⟩, .next]

/-- Thread 1 sleeps on a mutex that is unlocked, and no unlock is under way. -/
theorem lateMove_lost : ¬ ∀ (storage : TcbPtr → Tcb) (events : List Event) (s : State TcbLinks),
    Run EventStep (State.initial noLinks storage) events s → NoLostWakeUp s := by
  intro h
  obtain ⟨s, hrun, hs⟩ := Run.of_runAll (Event.run_step 5) lateMove
    (State.initial noLinks fun _ => zeroedTcb)
    (fun s => (s.threads, (s.mutexes 0, (s.queues.queue (.wait 0)).head), (s.contextOf 0).pc))
    (b := ([0, 1], (some .unlocked, some 1), .body)) (by decide +kernel)
  have hlost := h _ _ s hrun
  obtain ⟨t, -, ⟨L, hL, rfl⟩, hsteady⟩ := run_steady hrun
  simp only [Prod.mk.injEq] at hs
  obtain ⟨hthreads, ⟨hunlocked, hhead⟩, hpc⟩ := hs
  have hwait : 1 ∈ t.queues (.wait 0) :=
    List.mem_of_mem_head? ((hL.peek (.wait 0)).symm.trans hhead)
  obtain ⟨r, ⟨priority, hr⟩, hrousing⟩ := hlost 0 1 hunlocked ((inQueue_iff hL).mpr hwait)
  have hlevel := (inQueue_iff hL).mp hr
  have hmem : r ∈ [0, 1] := hthreads ▸ hsteady.known _ r hlevel
  rcases List.mem_cons.mp hmem with rfl | hmem
  · rw [hpc] at hrousing
    cases hrousing
  · obtain rfl := List.mem_singleton.mp hmem
    cases hsteady.distinct.apart _ _ _ hwait hlevel

end Runs

end VirtualMemorySimulation.Scheduler
