import VirtualMemorySimulation.Scheduler.Statements

/-!
# Invariants of every interleaving

What a single statement does, stated once, and what every interleaving keeps: the
placement of the threads, contexts that belong to their threads, and waiters in
transit that are in no queue and in the hands of one unlocker only.
-/

namespace VirtualMemorySimulation.Scheduler

open Execution LinkedQueue

/-- The effect of a statement on list states. -/
inductive Executes (t : State TcbLists) : State TcbLists → Prop
  | start {routine} : t.cpu.pc = .start routine →
      Executes t ((t.setTcb t.cpu.owner { t.tcbs t.cpu.owner with state := .running }).setPc .body)
  | test {m priority found} : t.cpu.pc = .lockTest m priority → t.mutexes m = some found →
      Executes t ({ t with mutexes := Function.update t.mutexes m (some .locked) }.setPc
        (afterTest m priority found))
  | move {m priority p l} : t.cpu.pc = .lockMove m priority →
      t.queues (.level priority) = p :: l →
      Executes t ((t.withQueues (t.queues.move (.level priority) (.wait m) p l)).setPc
        (.lockPark m priority))
  | park {m priority} : t.cpu.pc = .lockPark m priority →
      Executes t (t.setPc (.lockPause m priority))
  | acquire {m} : t.cpu.pc = .lockWon m →
      Executes t { t with cpu := { t.cpu with pc := .body, held := m :: t.cpu.held } }
  | release {m} : t.cpu.pc = .unlockRelease m → t.mutexes m ≠ none →
      Executes t { t with
        mutexes := Function.update t.mutexes m (some .unlocked)
        cpu := { t.cpu with pc := .unlockDequeue m, held := t.cpu.held.erase m } }
  | noWaiter {m} : t.cpu.pc = .unlockDequeue m → t.queues (.wait m) = [] →
      Executes t (t.setPc (.unlockSchedule m none))
  | waiter {m w l} : t.cpu.pc = .unlockDequeue m → t.queues (.wait m) = w :: l →
      Executes t ((t.withQueues (t.queues.set (.wait m) l)).setPc (.unlockSchedule m (some w)))
  | pass {m} : t.cpu.pc = .unlockSchedule m none → Executes t (t.setPc (.unlockMark m))
  | wake {m w} : t.cpu.pc = .unlockSchedule m (some w) →
      Executes t ((t.scheduled w).setPc (.unlockMark m))
  | mark {m cur} : t.cpu.pc = .unlockMark m → t.currentTcb = some cur →
      Executes t ({ t with afterUnlockPriority := (t.tcbs cur).priority }.setPc .body)
  | joined {node} : t.cpu.pc = .joinWait node → Executes t (t.setPc .body)
  | exited {value} : t.cpu.pc = .returned value →
      (t.tcbs t.cpu.owner).state = .terminated → Executes t (t.setPc (.exitPause value))
  | notExited {value} : t.cpu.pc = .returned value →
      (t.tcbs t.cpu.owner).state ≠ .terminated → Executes t (t.setPc (.storing value))
  | store {value} : t.cpu.pc = .storing value →
      Executes t ((t.setTcb t.cpu.owner
        { t.tcbs t.cpu.owner with returnValue := value }).setPc .terminating)
  | terminate : t.cpu.pc = .terminating →
      Executes t ((t.setTcb t.cpu.owner
        { t.tcbs t.cpu.owner with state := .terminated }).setPc .finalPause)

section Inversion

variable {t t' : State TcbLists}

theorem statement_executes (h : statement t = .ok t') : Executes t t' := by
  unfold statement at h
  cases hpc : t.cpu.pc with
  | start routine =>
    rw [hpc] at h
    obtain rfl := Except.ok.inj h
    exact .start hpc
  | lockTest m priority =>
    rw [hpc] at h
    obtain ⟨⟨found, u⟩, htas, h⟩ := bind_eq_ok.mp h
    obtain ⟨hm, rfl⟩ := testAndSet_ok htas
    obtain rfl := Except.ok.inj h
    exact .test hpc hm
  | lockMove m priority =>
    rw [hpc] at h
    obtain ⟨u, hmove, h⟩ := bind_eq_ok.mp h
    obtain ⟨p, l, hq, rfl⟩ := moveHead_ok hmove
    obtain rfl := Except.ok.inj h
    exact .move hpc hq
  | lockPark m priority =>
    rw [hpc] at h
    obtain rfl := Except.ok.inj h
    exact .park hpc
  | lockWon m =>
    rw [hpc] at h
    obtain rfl := Except.ok.inj h
    exact .acquire hpc
  | unlockRelease m =>
    rw [hpc] at h
    obtain ⟨u, hrelease, h⟩ := bind_eq_ok.mp h
    obtain ⟨hm, rfl⟩ := release_ok hrelease
    obtain rfl := Except.ok.inj h
    exact .release hpc hm
  | unlockDequeue m =>
    rw [hpc] at h
    obtain ⟨⟨node, u⟩, hdeq, h⟩ := bind_eq_ok.mp h
    obtain rfl := Except.ok.inj h
    rcases dequeueWaiter_ok hdeq with ⟨rfl, rfl, hq⟩ | ⟨w, l, rfl, hq, rfl⟩
    · exact .noWaiter hpc hq
    · exact .waiter hpc hq
  | unlockSchedule m node =>
    rw [hpc] at h
    obtain ⟨u, hsched, h⟩ := bind_eq_ok.mp h
    obtain rfl := Except.ok.inj h
    rcases scheduleWaiter_ok hsched with ⟨rfl, rfl⟩ | ⟨w, rfl, rfl⟩
    · exact .pass hpc
    · exact .wake hpc
  | unlockMark m =>
    rw [hpc] at h
    obtain ⟨u, hmark, h⟩ := bind_eq_ok.mp h
    obtain ⟨cur, hcur, rfl⟩ := markUnlock_ok hmark
    obtain rfl := Except.ok.inj h
    exact .mark hpc hcur
  | joinWait node =>
    rw [hpc] at h
    obtain ⟨value, -, h⟩ := bind_eq_ok.mp h
    obtain rfl := Except.ok.inj h
    exact .joined hpc
  | returned value =>
    rw [hpc] at h
    dsimp only at h
    split_ifs at h with hdead
    · obtain rfl := Except.ok.inj h
      exact .exited hpc hdead
    · obtain rfl := Except.ok.inj h
      exact .notExited hpc hdead
  | storing value =>
    rw [hpc] at h
    obtain rfl := Except.ok.inj h
    exact .store hpc
  | terminating =>
    rw [hpc] at h
    obtain rfl := Except.ok.inj h
    exact .terminate hpc
  | body => simp [hpc] at h
  | lockPause m priority => simp [hpc] at h
  | exitPause value => simp [hpc] at h
  | finalPause => simp [hpc] at h
  | ended => simp [hpc] at h

inductive Called (t : State TcbLists) : ClientCall → State TcbLists → Prop
  | create {mainContext nodeContext routine ok t'} : Creates t.begun ok t' →
      Called t (.create mainContext nodeContext routine) t'
  | mutexInit {m u} : t.mutexes m = none →
      (u = t ∨ t.threads = [] ∧ u = { t with scheduler := true, currentTcb := none }) →
      Called t (.mutexInit m) { u with mutexes := Function.update t.mutexes m (some .unlocked) }
  | lock {m cur} : t.currentTcb = some cur →
      Called t (.lock m) (t.setPc (.lockTest m (t.tcbs cur).priority))
  | unlock {m} : m ∈ t.cpu.held → Called t (.unlock m) (t.setPc (.unlockRelease m))
  | exit {value cur} : t.currentTcb = some cur → Called t (.exit value)
      (t.setTcb cur { t.tcbs cur with returnValue := value, state := .terminated })
  | notFound {tid} : Called t (.join tid) t
  | join {tid node} : t.threads ≠ [] → Called t (.join tid) (t.setPc (.joinWait node))
  | functionReturn {value} : ¬ t.onMain →
      Called t (.functionReturn value) (t.setPc (.returned value))

theorem getTcbLoop_mem {found : TcbPtr → Bool} {fuel : ℕ} {levels : List ℤ} {p : TcbPtr}
    (h : getTcbLoop found fuel t.queues levels = .ok (some p)) :
    ∃ i, p ∈ t.queues (.level i) := by
  induction levels with
  | nil => cases h
  | cons i levels ih =>
    obtain ⟨r, hr, h⟩ := bind_eq_ok.mp h
    cases r with
    | none => exact ih h
    | some r =>
      obtain rfl := Option.some.inj (Except.ok.inj h)
      have hfind := Except.ok.inj ((Lists.walk_settles found _).eq_of_ok hr)
      exact ⟨i, List.mem_of_find?_eq_some hfind⟩

theorem getTcb_mem {tid fuel : ℕ} {p : TcbPtr} (hc : Placed t)
    (h : getTcb tid fuel t = .ok (some p)) : p ∈ t.threads := by
  unfold getTcb at h
  split_ifs at h
  obtain ⟨i, hp⟩ := getTcbLoop_mem h
  exact hc.known _ p hp

theorem ClientCall.called {c : ClientCall} {fuel : ℕ} (h : Placed t)
    (hrun : c.run fuel t = .ok t') : Called t c t' := by
  cases c with
  | create mainContext nodeContext routine =>
    obtain ⟨⟨ok, u⟩, hcreate, hu⟩ := bind_eq_ok.mp hrun
    obtain rfl := Except.ok.inj hu
    exact .create (myPthreadCreate_creates hcreate)
  | mutexInit m =>
    obtain ⟨hm, u, hu, rfl⟩ := h.mutexInit_ok hrun
    exact .mutexInit hm hu
  | lock m =>
    obtain ⟨cur, hcur, hlock⟩ := bind_eq_ok.mp hrun
    obtain rfl := Except.ok.inj hlock
    exact .lock (State.current_eq_ok.mp hcur)
  | unlock m =>
    change (if m ∈ t.cpu.held then _ else _) = _ at hrun
    split_ifs at hrun with hheld
    obtain rfl := Except.ok.inj hrun
    exact .unlock hheld
  | exit value =>
    obtain ⟨cur, hcur, rfl⟩ := myPthreadExit_ok hrun
    exact .exit hcur
  | join tid =>
    obtain ⟨found, hfound, hjoin⟩ := bind_eq_ok.mp hrun
    cases found with
    | none =>
      obtain rfl := Except.ok.inj hjoin
      exact .notFound
    | some node =>
      obtain rfl := Except.ok.inj hjoin
      exact .join (List.ne_nil_of_mem (getTcb_mem h hfound))
  | functionReturn value =>
    change (if t.onMain then _ else _) = _ at hrun
    split_ifs at hrun with hmain
    obtain rfl := Except.ok.inj hrun
    exact .functionReturn hmain

end Inversion

section Placement

variable {t t' : State TcbLists} {p : TcbPtr} {pc : Pc}

theorem Placed.setPc (h : Placed t) (pc : Pc) : Placed (t.setPc pc) := h.withCpu rfl

/-- What a program counter takes for granted. -/
def SoundPc (t : State TcbLists) : Pc → Prop
  | .lockTest _ priority => priority = 0
  | .lockMove m priority => t.mutexes m ≠ none ∧ priority = 0
  | .lockPark _ priority => priority = 0
  | .lockPause _ priority => priority = 0
  | .unlockSchedule _ (some w) => w ∈ t.threads ∧ Unqueued t w
  | _ => True

theorem SoundPc.mono (h : SoundPc t pc) (hmutexes : ∀ m, t.mutexes m ≠ none → t'.mutexes m ≠ none)
    (hthreads : t.threads ⊆ t'.threads)
    (hun : ∀ m w, pc = .unlockSchedule m (some w) → Unqueued t w → Unqueued t' w) :
    SoundPc t' pc := by
  cases pc with
  | lockMove m priority => exact ⟨hmutexes m h.1, h.2⟩
  | unlockSchedule m node =>
    cases node with
    | none => trivial
    | some w => exact ⟨hthreads h.1, hun m w rfl h.2⟩
  | lockTest m priority => exact h
  | lockPark m priority => exact h
  | lockPause m priority => exact h
  | _ => trivial

theorem Placed.executes (h : Placed t) (hpc : SoundPc t t.cpu.pc) (he : Executes t t') :
    Placed t' := by
  cases he with
  | start =>
    have h' : Placed (t.setTcb t.cpu.owner { t.tcbs t.cpu.owner with state := .running }) :=
      h.setTcb rfl rfl fun _ => by simp
    exact h'.setPc _
  | @test m => exact (h.withMutex m .locked).setPc _
  | move heq hq =>
    rw [heq] at hpc
    obtain ⟨h', hun⟩ := h.dequeued hq
    have hknown := h.known _ _ (hq ▸ List.mem_cons_self)
    exact (h'.parked hpc.1 hknown hun).setPc _
  | park => exact h.setPc _
  | acquire => exact h.withCpu rfl
  | @release m => exact (h.withMutex m .unlocked).withCpu rfl
  | noWaiter => exact h.setPc _
  | waiter _ hq => exact (h.dequeued hq).1.setPc _
  | pass => exact h.setPc _
  | wake heq =>
    rw [heq] at hpc
    exact (h.scheduled hpc.1 hpc.2).setPc _
  | @mark m cur _ hcur =>
    have h' : Placed { t with afterUnlockPriority := (t.tcbs cur).priority } :=
      { h with afterUnlock := Or.inr (h.priority cur (h.current cur hcur).1) }
    exact h'.setPc _
  | joined => exact h.setPc _
  | exited => exact h.setPc _
  | notExited => exact h.setPc _
  | @store value =>
    have h' : Placed (t.setTcb t.cpu.owner { t.tcbs t.cpu.owner with returnValue := value }) :=
      h.setTcb rfl rfl id
    exact h'.setPc _
  | terminate =>
    have h' : Placed (t.setTcb t.cpu.owner { t.tcbs t.cpu.owner with state := .terminated }) :=
      h.setTcb rfl rfl fun _ => by simp
    exact h'.setPc _

end Placement

section Locality

variable {t t' : State TcbLists} {p : TcbPtr}

/-- A step of the thread on the processor: the other threads' contexts stay. -/
structure Local (t t' : State TcbLists) : Prop where
  owner : t'.cpu.owner = t.cpu.owner
  contexts : ∀ p, (t'.tcbs p).context = (t.tcbs p).context
  threads : t'.threads = t.threads
  tid : t'.tid = t.tid
  frontier : t'.frontier = t.frontier
  mutexes : ∀ m, t.mutexes m ≠ none → t'.mutexes m ≠ none
  dispatches : t'.dispatches = t.dispatches
  currentTcb : t'.currentTcb = t.currentTcb

theorem Local.contextOf (h : Local t t') (hp : p ≠ t.cpu.owner) :
    t'.contextOf p = t.contextOf p := by
  rw [contextOf_eq_tcb (Ne.symm hp), contextOf_eq_tcb (h.owner ▸ Ne.symm hp), h.contexts]

theorem setTcb_context {tcb : Tcb} (h : tcb.context = (t.tcbs p).context) (r : TcbPtr) :
    ((t.setTcb p tcb).tcbs r).context = (t.tcbs r).context := by
  by_cases hr : r = p
  · subst hr
    exact (congrArg Tcb.context (Function.update_self ..)).trans h
  · exact congrArg Tcb.context (Function.update_of_ne hr ..)

theorem setTcb_contextOf {tcb : Tcb} (h : tcb.context = (t.tcbs p).context) (r : TcbPtr) :
    (t.setTcb p tcb).contextOf r = t.contextOf r := by
  unfold State.contextOf
  rw [setTcb_context h]
  rfl

theorem terminated_contextOf (t : State TcbLists) (cur : TcbPtr) (value : Value) (r : TcbPtr) :
    (t.setTcb cur { t.tcbs cur with returnValue := value, state := .terminated }).contextOf r =
      t.contextOf r := by
  apply setTcb_contextOf
  rfl

theorem Local.setPc (t : State TcbLists) (pc : Pc) : Local t (t.setPc pc) :=
  ⟨rfl, fun _ => rfl, rfl, rfl, rfl, fun _ => id, rfl, rfl⟩

theorem update_mutex_ne_none (m : MutexPtr) (s : MutexState) (m' : MutexPtr)
    (h : t.mutexes m' ≠ none) : Function.update t.mutexes m (some s) m' ≠ none := by
  by_cases hm : m' = m
  · subst hm
    simp
  · rwa [Function.update_of_ne hm]

theorem Executes.not_body (he : Executes t t') : t.cpu.pc ≠ .body := by
  intro hbody
  cases he <;> simp_all

theorem Executes.local (he : Executes t t') : Local t t' := by
  have hsame : ∀ cpu : Context, cpu.owner = t.cpu.owner → Local t { t with cpu } :=
    fun cpu hcpu => ⟨hcpu, fun _ => rfl, rfl, rfl, rfl, fun _ => id, rfl, rfl⟩
  cases he with
  | start => exact { hsame _ rfl with contexts := setTcb_context rfl }
  | @test m => exact { hsame _ rfl with mutexes := update_mutex_ne_none m .locked }
  | @release m => exact { hsame _ rfl with mutexes := update_mutex_ne_none m .unlocked }
  | @wake m w => exact { hsame _ rfl with contexts := setTcb_context rfl }
  | store => exact { hsame _ rfl with contexts := setTcb_context rfl }
  | terminate => exact { hsame _ rfl with contexts := setTcb_context rfl }
  | acquire => exact hsame _ rfl
  | _ => exact { hsame _ rfl with }

/-- Only the waiter in transit that is scheduled comes back to a queue. -/
theorem Executes.unqueued {w : TcbPtr} (he : Executes t t') (h : Placed t) (hw : Unqueued t w)
    (hne : ∀ m, t.cpu.pc ≠ .unlockSchedule m (some w)) : Unqueued t' w := by
  intro q hq
  cases he with
  | move _ heq =>
    rcases (h.distinct.mem_move heq).mp hq with ⟨hq, -⟩ | ⟨-, rfl⟩
    · exact hw q hq
    · exact hw _ (heq ▸ List.mem_cons_self)
  | waiter _ heq => exact hw q ((h.distinct.mem_dequeue heq).mp hq).1
  | @wake m w' heq =>
    rcases Lists.mem_enqueue.mp hq with hq | ⟨-, rfl⟩
    · exact hw q hq
    · exact hne m heq
  | _ => exact hw q hq

theorem Executes.soundPc (he : Executes t t') (h : Placed t) (hpc : SoundPc t t.cpu.pc) :
    SoundPc t' t'.cpu.pc := by
  cases he with
  | @test m priority found heq =>
    rw [heq] at hpc
    cases found with
    | unlocked => trivial
    | locked => exact ⟨by simp, hpc⟩
  | move heq =>
    rw [heq] at hpc
    exact hpc.2
  | park heq =>
    rw [heq] at hpc
    exact hpc
  | waiter _ hq => exact ⟨h.known _ _ (hq ▸ List.mem_cons_self), (h.dequeued hq).2⟩
  | _ => trivial

theorem Executes.taken {m : MutexPtr} {w : TcbPtr} (he : Executes t t')
    (hpc : t'.cpu.pc = .unlockSchedule m (some w)) : w ∈ t.queues (.wait m) := by
  cases he with
  | @test m priority found =>
    cases found <;> cases hpc
  | waiter _ hq =>
    cases hpc
    rw [hq]
    exact List.mem_cons_self
  | _ => cases hpc

end Locality

/-- Program counters are sound, and a waiter in transit is in one thread's hands. -/
structure Coherent (t : State TcbLists) : Prop where
  sound : ∀ p ∈ t.threads, SoundPc t (t.contextOf p).pc
  single : ∀ p ∈ t.threads, ∀ r ∈ t.threads, ∀ m m' w,
    (t.contextOf p).pc = .unlockSchedule m (some w) →
    (t.contextOf r).pc = .unlockSchedule m' (some w) → p = r

theorem Coherent.inTransit {t : State TcbLists} {w : TcbPtr} (h : Coherent t)
    (hw : t.inTransit w) : w ∈ t.threads ∧ Unqueued t w := by
  obtain ⟨p, hp, m, hpc⟩ := hw
  have hsound := h.sound p hp
  rwa [hpc] at hsound

/-- What every interleaving keeps. -/
structure Steady (t : State TcbLists) : Prop extends Placed t, Coherent t where
  counted : t.tid = 0 ↔ t.threads = []
  idle : t.threads = [] → t.cpu.pc = .body ∧ t.cpu.held = []

section Signals

variable {t t' : State TcbLists} {p : TcbPtr}

theorem SoundPc.interrupted {pc : Pc} (h : SoundPc t pc) : SoundPc t pc.interrupted := by
  cases pc with
  | exitPause value => trivial
  | finalPause => trivial
  | _ => exact h

/-- An interrupted program counter is in an unlock only if it has been there. -/
theorem interrupted_transit {pc : Pc} {m : MutexPtr} {node : Option TcbPtr}
    (h : pc.interrupted = .unlockSchedule m node) : pc = .unlockSchedule m node := by
  cases pc <;> first | exact h | cases h

theorem interrupt_contextOf (t : State TcbLists) (p : TcbPtr) :
    t.interrupt.contextOf p = t.contextOf p ∨
      t.interrupt.contextOf p = { t.contextOf p with pc := (t.contextOf p).pc.interrupted } := by
  by_cases hp : t.cpu.owner = p
  · subst hp
    exact Or.inr (by rw [contextOf_self]; exact contextOf_self t.interrupt)
  · exact Or.inl (by rw [contextOf_eq_tcb hp]; exact contextOf_eq_tcb (s := t.interrupt) hp)

theorem Coherent.interrupt (h : Coherent t) : Coherent t.interrupt := by
  have htransit : ∀ p m w, (t.interrupt.contextOf p).pc = .unlockSchedule m (some w) →
      (t.contextOf p).pc = .unlockSchedule m (some w) := by
    intro p m w heq
    rcases interrupt_contextOf t p with hp | hp
    · rwa [hp] at heq
    · rw [hp] at heq
      exact interrupted_transit heq
  constructor
  · intro p hp
    have hsound : SoundPc t (t.interrupt.contextOf p).pc := by
      rcases interrupt_contextOf t p with heq | heq
      · rw [heq]
        exact h.sound p hp
      · rw [heq]
        exact (h.sound p hp).interrupted
    exact hsound.mono (fun _ => id) (fun _ => id) fun _ _ _ => id
  · intro p hp r hr m m' w hp' hr'
    exact h.single p hp r hr m m' w (htransit p m w hp') (htransit r m' w hr')

theorem Coherent.of_frame (h : Coherent t) (hf : Frame t t') : Coherent t' := by
  constructor
  · intro p hp
    rw [hf.context]
    refine (h.sound p (hf.threads ▸ hp)).mono (fun m hm => by rwa [hf.mutexes])
      (by rw [hf.threads]; exact fun _ => id) fun m w _ hun q hq => ?_
    exact hun q ((hf.queues q).mem_iff.mp hq)
  · intro p hp r hr m m' w hp' hr'
    rw [hf.threads] at hp hr
    rw [hf.context] at hp' hr'
    exact h.single p hp r hr m m' w hp' hr'

theorem tick_current {now start : Time} {fuel : ℕ} (ht : tick now start fuel t = .ok t') :
    ∃ cur, t.currentTcb = some cur := by
  cases hcur : t.currentTcb with
  | none =>
    have hnull := signalHandler_null (s := t.interrupt) hcur now start fuel
    rw [tick, hnull] at ht
    cases ht
  | some cur => exact ⟨cur, rfl⟩

end Signals

namespace Steady

variable {t t' : State TcbLists} {p : TcbPtr}

theorem initial (storage : TcbPtr → Tcb) : Steady (State.initial noLists storage) where
  toPlaced := .initial storage
  toCoherent := ⟨fun p hp => absurd hp List.not_mem_nil, fun p hp => absurd hp List.not_mem_nil⟩
  counted := by simp [State.initial]
  idle _ := ⟨rfl, rfl⟩

theorem owner_mem (h : Steady t) (hpc : t.cpu.pc ≠ .body) : t.cpu.owner ∈ t.threads :=
  h.running fun hnone => hpc (h.idle hnone).1

theorem soundPc (h : Steady t) (hpc : t.cpu.pc ≠ .body) : SoundPc t t.cpu.pc := by
  have hsound := h.sound _ (h.owner_mem hpc)
  rwa [contextOf_self] at hsound

theorem executes (h : Steady t) (he : Executes t t') : Steady t' := by
  have hbody := he.not_body
  have hown := h.owner_mem hbody
  have hpc := h.soundPc hbody
  have hlocal := he.local
  -- a waiter in another thread's hands is not the one that this step schedules
  have hother : ∀ p ∈ t.threads, p ≠ t.cpu.owner → ∀ m w,
      (t.contextOf p).pc = .unlockSchedule m (some w) → Unqueued t w → Unqueued t' w := by
    intro p hp hne m w heq hun
    refine he.unqueued h.toPlaced hun fun m' heq' => hne ?_
    exact h.single p hp _ hown m m' w heq (by rwa [contextOf_self])
  refine ⟨h.toPlaced.executes hpc he, ⟨?_, ?_⟩, ?_, ?_⟩
  · intro p hp
    rw [hlocal.threads] at hp
    by_cases hne : p = t.cpu.owner
    · rw [hne, ← hlocal.owner, contextOf_self]
      exact he.soundPc h.toPlaced hpc
    · rw [hlocal.contextOf hne]
      exact (h.sound p hp).mono hlocal.mutexes (by rw [hlocal.threads]; exact fun _ => id)
        (hother p hp hne)
  · -- two hands on one waiter: one of them has just taken it from its queue
    have htaken : ∀ r ∈ t.threads, r ≠ t.cpu.owner → ∀ m m' w,
        t'.cpu.pc = .unlockSchedule m (some w) →
        (t'.contextOf r).pc = .unlockSchedule m' (some w) → False := by
      intro r hr hne m m' w hpc' hr'
      rw [hlocal.contextOf hne] at hr'
      exact (h.inTransit ⟨r, hr, m', hr'⟩).2 _ (he.taken hpc')
    intro p hp r hr m m' w hp' hr'
    rw [hlocal.threads] at hp hr
    by_cases hpo : p = t.cpu.owner <;> by_cases hro : r = t.cpu.owner
    · rw [hpo, hro]
    · rw [hpo, ← hlocal.owner, contextOf_self] at hp'
      exact (htaken r hr hro m m' w hp' hr').elim
    · rw [hro, ← hlocal.owner, contextOf_self] at hr'
      exact (htaken p hp hpo m' m w hr' hp').elim
    · rw [hlocal.contextOf hpo] at hp'
      rw [hlocal.contextOf hro] at hr'
      exact h.single p hp r hr m m' w hp' hr'
  · rw [hlocal.tid, hlocal.threads]
    exact h.counted
  · intro hnone
    rw [hlocal.threads] at hnone
    exact absurd (h.idle hnone).1 hbody

theorem tick {now start : Time} {fuel : ℕ} (h : Steady t)
    (ht : tick now start fuel t = .ok t') : Steady t' := by
  obtain ⟨-, hf, -⟩ := tick_outcome h.toPlaced ht
  refine ⟨h.toPlaced.tick ht, h.toCoherent.interrupt.of_frame hf, ?_, ?_⟩
  · rw [hf.tid, hf.threads]
    exact h.counted
  · intro hnone
    obtain ⟨cur, hcur⟩ := tick_current ht
    have hmem := (h.current cur hcur).1
    rw [hf.threads] at hnone
    simp [show t.threads = [] from hnone] at hmem

end Steady

section Calls

variable {t t' : State TcbLists} {p : TcbPtr}

theorem Coherent.congr (h : Coherent t) (hthreads : t'.threads = t.threads)
    (hcontext : ∀ p ∈ t.threads, t'.contextOf p = t.contextOf p)
    (hmutexes : ∀ m, t.mutexes m ≠ none → t'.mutexes m ≠ none)
    (hun : ∀ w, Unqueued t w → Unqueued t' w) : Coherent t' := by
  constructor
  · intro p hp
    rw [hthreads] at hp
    rw [hcontext p hp]
    exact (h.sound p hp).mono hmutexes (by rw [hthreads]; exact fun _ => id) fun _ w _ => hun w
  · intro p hp r hr m m' w hp' hr'
    rw [hthreads] at hp hr
    rw [hcontext p hp] at hp'
    rw [hcontext r hr] at hr'
    exact h.single p hp r hr m m' w hp' hr'

theorem Coherent.setPc (h : Coherent t) {pc : Pc} (hpc : SoundPc t pc)
    (hnode : ∀ m w, pc ≠ .unlockSchedule m (some w)) : Coherent (t.setPc pc) := by
  have hcontext : ∀ p, (t.setPc pc).contextOf p =
      if t.cpu.owner = p then { t.cpu with pc } else t.contextOf p := by
    intro p
    by_cases hp : t.cpu.owner = p
    · rw [if_pos hp]
      exact if_pos hp
    · rw [if_neg hp, contextOf_eq_tcb hp]
      exact if_neg hp
  have hsound : ∀ pc', SoundPc t pc' → SoundPc (t.setPc pc) pc' :=
    fun pc' hpc' => hpc'.mono (fun _ => id) (fun _ => id) fun _ _ _ => id
  constructor
  · intro p hp
    rw [hcontext]
    split_ifs
    · exact hsound pc hpc
    · exact hsound _ (h.sound p hp)
  · intro p hp r hr m m' w hp' hr'
    rw [hcontext] at hp' hr'
    split_ifs at hp' hr'
    · exact absurd hp' (hnode m w)
    · exact absurd hp' (hnode m w)
    · exact absurd hr' (hnode m' w)
    · exact h.single p hp r hr m m' w hp' hr'

theorem allocateTcb_contextOf (hc : Placed t) (hp : p ∈ t.threads) (tid : ℕ) :
    (t.allocateTcb tid).contextOf p = t.contextOf p := by
  unfold State.contextOf
  have htcb : (t.allocateTcb tid).tcbs p = t.tcbs p :=
    Function.update_of_ne (hc.allocated p hp).ne ..
  rw [htcb]
  rfl

theorem Coherent.allocateTcb (hc : Placed t) (h : Coherent t) (tid : ℕ) :
    Coherent (t.allocateTcb tid) :=
  h.congr rfl (fun _ hp => allocateTcb_contextOf hc hp tid) (fun _ => id) fun _ => id

theorem Coherent.created (h : Coherent t) (hc : Placed t) (tid : ℕ) (context : Context)
    (hcontext : (t'.contextOf t.frontier).pc = .body ∨ 
      ∃ routine, (t'.contextOf t.frontier).pc = .start routine)
    (hold : ∀ p ∈ t.threads, t'.contextOf p = t.contextOf p)
    (hthreads : t'.threads = t.threads ++ [t.frontier])
    (hqueues : t'.queues = (t.created tid context).queues) (hmutexes : t'.mutexes = t.mutexes) :
    Coherent t' := by
  have hmem : ∀ p ∈ t'.threads, p ∈ t.threads ∨ p = t.frontier := by
    intro p hp
    rw [hthreads] at hp
    simpa using hp
  have hnew : ∀ m node, (t'.contextOf t.frontier).pc ≠ .unlockSchedule m node := by
    intro m node heq
    rcases hcontext with hpc | ⟨routine, hpc⟩ <;> cases hpc.symm.trans heq
  constructor
  · intro p hp
    rcases hmem p hp with hp | rfl
    · rw [hold p hp]
      refine (h.sound p hp).mono (fun m hm => by rwa [hmutexes])
        (by rw [hthreads]; exact List.subset_append_left _ _) fun m w heq hun q hq => ?_
      rw [hqueues] at hq
      rcases Lists.mem_enqueue.mp hq with hq | ⟨-, rfl⟩
      · exact hun q hq
      · exact (hc.allocated _ (h.inTransit ⟨p, hp, m, heq⟩).1).false
    · rcases hcontext with hpc | ⟨routine, hpc⟩ <;> rw [hpc] <;> trivial
  · intro p hp r hr m m' w hp' hr'
    rcases hmem p hp with hp | rfl
    · rcases hmem r hr with hr | rfl
      · rw [hold p hp] at hp'
        rw [hold r hr] at hr'
        exact h.single p hp r hr m m' w hp' hr'
      · exact absurd hr' (hnew m' _)
    · exact absurd hp' (hnew m _)

theorem Coherent.withMain (hc : Placed t) (h : Coherent t) (hnone : t.threads = [])
    (hpc : t.cpu.pc = .body) : Coherent t.withMain := by
  refine h.created hc t.tid { t.cpu with owner := t.frontier }
    (Or.inl ?_) (fun p hp => ?_) rfl rfl rfl
  · rw [show t.withMain.contextOf t.frontier = t.withMain.cpu from contextOf_self t.withMain]
    exact hpc
  · simp [hnone] at hp

theorem Coherent.withNode (hc : Placed t) (h : Coherent t) (routine : Routine)
    (hsome : t.threads ≠ []) : Coherent (t.withNode routine) := by
  have hne : t.cpu.owner ≠ t.frontier := (hc.allocated _ (hc.running hsome)).ne
  refine h.created hc (t.tid + 1) ⟨t.frontier, .start routine, []⟩
    (Or.inr ⟨routine, ?_⟩) (fun p hp => ?_) rfl rfl rfl
  · exact congrArg Context.pc
      (created_contextOf_frontier hne (t.tid + 1) ⟨t.frontier, .start routine, []⟩)
  · exact created_contextOf_of_ne (hc.allocated p hp).ne _ _

theorem Steady.begun (h : Steady t) : Steady t.begun := by
  obtain ⟨hthreads, htid, hcpu, htcbs, hqueues, hmutexes, -⟩ := h.toPlaced.begun_threads
  refine ⟨h.toPlaced.begun.1, h.toCoherent.congr hthreads (fun p _ => ?_) (fun m hm => ?_)
    (fun w hun => ?_), ?_, ?_⟩
  · simp only [State.contextOf, hcpu, htcbs]
  · rwa [hmutexes]
  · intro q
    rw [hqueues]
    exact hun q
  · rw [htid, hthreads]
    exact h.counted
  · rw [hthreads, hcpu]
    exact h.idle

theorem Steady.creates {ok : Bool} (h : Steady t) (hinit : t.schedulerInit = true)
    (hc : Creates t ok t') : Steady t' := by
  obtain ⟨hplaced, hcount⟩ := h.toPlaced.creates hinit h.counted hc
  have hkept : Coherent t' ∧ (t'.threads = [] → t'.cpu.pc = .body ∧ t'.cpu.held = []) := by
    apply h.toPlaced.creates_induction hinit h.counted hc ⟨h.toCoherent, h.idle⟩
    · intro _ hnone
      exact ⟨.withMain h.toPlaced h.toCoherent hnone (h.idle hnone).1, fun _ => h.idle hnone⟩
    · exact fun u tid hu _ ⟨hcoherent, hidle⟩ => ⟨.allocateTcb hu hcoherent tid, hidle⟩
    · intro u routine hu hne ⟨hcoherent, _⟩
      exact ⟨.withNode hu hcoherent routine hne, fun hnone => by
        simp [State.withNode, State.created] at hnone⟩
  exact ⟨hplaced, hkept.1, hcount, hkept.2⟩

theorem Steady.creates_induction {I : State TcbLists → Prop} {ok : Bool} (h : Steady t)
    (hinit : t.schedulerInit = true) (hpc : t.cpu.pc = .body) (hc : Creates t ok t') (hI : I t)
    (hmain : t.threads = [] → I t.withMain)
    (hallocate : ∀ u tid, Placed u → Coherent u → u.cpu.pc = .body → I u → I (u.allocateTcb tid))
    (hnode : ∀ u routine, Placed u → Coherent u → u.threads ≠ [] → u.cpu.pc = .body → I u →
      I (u.withNode routine)) : I t' := by
  have hkept : I t' ∧ Coherent t' ∧ t'.cpu.pc = .body := by
    apply h.toPlaced.creates_induction hinit h.counted hc ⟨hI, h.toCoherent, hpc⟩
    · intro _ hnone
      exact ⟨hmain hnone, .withMain h.toPlaced h.toCoherent hnone hpc, hpc⟩
    · intro u tid hu _ ⟨hI', hcoherent, hbody⟩
      exact ⟨hallocate u tid hu hcoherent hbody hI', .allocateTcb hu hcoherent tid, hbody⟩
    · intro u routine hu hne ⟨hI', hcoherent, hbody⟩
      exact ⟨hnode u routine hu hcoherent hne hbody hI', .withNode hu hcoherent routine hne, hbody⟩
  exact hkept.1

theorem Steady.called {c : ClientCall} (h : Steady t) (hpc : t.cpu.pc = .body)
    (hc : Called t c t') : Steady t' := by
  -- a call that only moves the program counter
  have hset : ∀ pc, SoundPc t pc → (∀ m w, pc ≠ .unlockSchedule m (some w)) → t.threads ≠ [] →
      Steady (t.setPc pc) := fun pc hsound hnode hne =>
    ⟨h.toPlaced.setPc pc, h.toCoherent.setPc hsound hnode, h.counted, fun hnone =>
      absurd hnone hne⟩
  cases hc with
  | create hcreate => exact h.begun.creates h.toPlaced.begun.2 hcreate
  | @mutexInit m u hm hu =>
    have hu' : Steady u := by
      rcases hu with rfl | ⟨hnone, rfl⟩
      · exact h
      · have hplaced : Placed { t with scheduler := true, currentTcb := none } :=
          { h.toPlaced with current := fun p hp => by cases hp }
        exact ⟨hplaced, h.toCoherent.congr rfl (fun _ _ => rfl) (fun _ => id) fun _ => id,
          h.counted, h.idle⟩
    have hmutexes : u.mutexes = t.mutexes := by rcases hu with rfl | ⟨-, rfl⟩ <;> rfl
    rw [← hmutexes]
    exact ⟨hu'.toPlaced.withMutex m .unlocked, hu'.toCoherent.congr rfl (fun _ _ => rfl)
      (update_mutex_ne_none m .unlocked) fun _ => id, hu'.counted, hu'.idle⟩
  | @lock m cur hcur =>
    have hmem := (h.current cur hcur).1
    exact hset _ (h.priority cur hmem) (by simp) (List.ne_nil_of_mem hmem)
  | unlock hheld =>
    refine hset _ trivial (by simp) fun hnone => ?_
    simp [(h.idle hnone).2] at hheld
  | @exit value cur hcur =>
    exact ⟨h.toPlaced.terminate cur value, h.toCoherent.congr rfl
      (fun p _ => terminated_contextOf t cur value p) (fun _ => id) fun _ => id, h.counted, h.idle⟩
  | notFound => exact h
  | join hne => exact hset _ trivial (by simp) hne
  | functionReturn hmain =>
    refine hset _ trivial (by simp) fun hnone => hmain ?_
    simp [State.onMain, hnone]

inductive Happens (t : State TcbLists) : Event → State TcbLists → Prop
  | tick {now start fuel u} : Scheduler.tick now start fuel t = .ok u →
      Happens t (.tick now start) u
  | call {c u} : t.cpu.pc = .body → Called t c u → Happens t (.call c) u
  | next {u} : Executes t u → Happens t .next u

theorem EventStep.happens {e : Event} (h : Placed t) (hs : EventStep t e t') :
    Happens t e t' := by
  obtain ⟨fuel, hrun⟩ := hs
  cases e with
  | tick now start => exact .tick hrun
  | call c =>
    change (if t.cpu.pc = .body then _ else _) = _ at hrun
    split_ifs at hrun with hpc
    exact .call hpc (ClientCall.called h hrun)
  | next => exact .next (statement_executes hrun)

/-- Every event keeps the invariants. -/
theorem Steady.event {e : Event} (h : Steady t) (hs : EventStep t e t') : Steady t' := by
  cases hs.happens h.toPlaced with
  | tick ht => exact h.tick ht
  | call hpc hc => exact h.called hpc hc
  | next he => exact h.executes he

end Calls

/-- A step of the linked state is one of the steady list state. -/
theorem EventStep.simulates {s s' : State TcbLinks} {t : State TcbLists} {e : Event}
    (hr : Refines s t) (ht : Steady t) (hs : EventStep s e s') :
    ∃ t', EventStep t e t' ∧ Refines s' t' ∧ Steady t' := by
  have htransit : ∀ m w, t.cpu.pc = .unlockSchedule m (some w) → Unqueued t w := by
    intro m w hpc
    have hsound := ht.soundPc (by simp [hpc])
    rw [hpc] at hsound
    exact hsound.2
  obtain ⟨t', hstep, hr'⟩ := hs.refines hr ht.toPlaced.fresh htransit
  exact ⟨t', hstep, hr', ht.event hstep⟩

theorem run_steady {storage : TcbPtr → Tcb} {events : List Event} {s : State TcbLinks}
    (h : Run EventStep (State.initial noLinks storage) events s) :
    ∃ t, Run EventStep (State.initial noLists storage) events t ∧ Refines s t ∧ Steady t :=
  Run.simulation (R := fun s t => Refines s t ∧ Steady t)
    (fun _ _ _ _ hrel hs => hs.simulates hrel.1 hrel.2)
    ⟨⟨noLinks, noLinks_agrees, rfl⟩, .initial storage⟩ h

/-- Runs whose steps meet a condition that lists reflect are such runs of the lists. -/
theorem run_guarded {C : State TcbLinks → Event → Prop} {D : State TcbLists → Event → Prop}
    (hcond : ∀ s t e, Refines s t → C s e → D t e) {s s' : State TcbLinks} {t : State TcbLists}
    (hr : Refines s t) (ht : Steady t) {events : List Event}
    (h : Run (Guarded C EventStep) s events s') :
    ∃ t', Run (Guarded D EventStep) t events t' ∧ Refines s' t' ∧ Steady t' := by
  refine Run.simulation (R := fun s t => Refines s t ∧ Steady t) ?_ ⟨hr, ht⟩ h
  rintro s e s' t ⟨hr, ht⟩ ⟨hc, hs⟩
  obtain ⟨t', hstep, hrel⟩ := hs.simulates hr ht
  exact ⟨t', ⟨hcond s t e hr hc, hstep⟩, hrel⟩

end VirtualMemorySimulation.Scheduler
