import VirtualMemorySimulation.Scheduler.MutualExclusion
import VirtualMemorySimulation.Scheduler.Termination

/-!
# Who is in a wait queue

The lock loop dequeues the head of the caller's level. That is the caller as long as no
`pause` returns to a thread that is still in a wait queue: then a thread on the processor
is at the head of level 0, or has just moved itself and is on its way to the `pause`.
-/

namespace VirtualMemorySimulation.Scheduler

open Execution LinkedQueue

/-- In the loop of `my_pthread_mutex_lock` on the mutex, its test-and-set not won. -/
def Pc.locking (mutex : MutexPtr) : Pc → Bool
  | .lockTest m _ => m = mutex
  | .lockMove m _ => m = mutex
  | .lockPark m _ => m = mutex
  | .lockPause m _ => m = mutex
  | _ => false

/-- A point of the loop at which the thread may be in the wait queue of the mutex. -/
def Pc.waiting (mutex : MutexPtr) : Pc → Bool
  | .lockTest m _ => m = mutex
  | .lockPark m _ => m = mutex
  | .lockPause m _ => m = mutex
  | _ => false

/-- Between the move to the wait queue and the end of the `pause`. -/
def Pc.parked : Pc → Bool
  | .lockPark .. => true
  | .lockPause .. => true
  | _ => false

section Statement

variable {σ : Type} [QueueStore σ QueuePtr TcbPtr]

/-- What the wait queues hold: threads that have called `my_pthread_mutex_lock` themselves and
have not acquired the mutex. The lock loop finds its level not empty. -/
structure OnlyCallerBlocks (s : State TcbLinks) : Prop where
  caller : ∀ m p, InQueue s.queues (.wait m) p →
    p ∈ s.threads ∧ (s.contextOf p).pc.locking m = true
  holder : ∀ m p, Holds s m p ∨ HasWon s m p → ¬ InQueue s.queues (.wait m) p
  head : ∀ m priority, s.cpu.pc = .lockMove m priority →
    QueueStore.peek (.level priority) s.queues ≠ none

def LocksOnce (s : State σ) : Event → Prop
  | .call (.lock m) => m ∉ s.cpu.held
  | _ => True

instance (s : State σ) (e : Event) : Decidable (LocksOnce s e) :=
  match e with
  | .call (.lock m) => inferInstanceAs (Decidable (m ∉ s.cpu.held))
  | .call (.create ..) | .call (.mutexInit _) | .call (.unlock _) | .call (.exit _)
  | .call (.join _) | .call (.functionReturn _) | .tick .. | .next => isTrue trivial

/-- A signal that reaches a `pause` of the lock loop, with the thread still in the wait queue,
does not return to it. -/
def SwitchesInLock (s : State TcbLinks) : Event → Prop
  | .tick now _ => ∀ m priority, s.cpu.pc = .lockPause m priority →
      InQueue s.queues (.wait m) s.cpu.owner → Switches s now
  | _ => True

/-- `SwitchesInLock` on lists. -/
def State.switchesInLock (t : State TcbLists) : Event → Prop
  | .tick now _ => ∀ m priority, t.cpu.pc = .lockPause m priority →
      t.cpu.owner ∈ t.queues (.wait m) → Switches t now
  | _ => True

end Statement

section Points

variable {pc : Pc} {m m' : MutexPtr} {priority : ℤ}

theorem Pc.locking_of_waiting (h : pc.waiting m = true) : pc.locking m = true := by
  cases pc <;> first | exact h | cases h

theorem Pc.locking_interrupted (pc : Pc) (m : MutexPtr) :
    pc.interrupted.locking m = pc.locking m := by
  cases pc <;> rfl

theorem Pc.waiting_interrupted (pc : Pc) (m : MutexPtr) :
    pc.interrupted.waiting m = pc.waiting m := by
  cases pc <;> rfl

end Points

/-- The thread does not hold the mutex that it is locking. -/
def Context.LocksOnce (c : Context) : Prop := ∀ m, c.pc.locking m = true → m ∉ c.held

def State.LocksOnce {σ : Type} (s : State σ) : Prop := ∀ p ∈ s.threads, (s.contextOf p).LocksOnce

/-- Where the threads of the wait queues are, those that an unlock has taken from them, and the
thread on the processor. -/
structure Queued (t : State TcbLists) : Prop where
  waiter : ∀ m, ∀ p ∈ t.queues (.wait m), (t.contextOf p).pc.waiting m = true
  transit : ∀ p ∈ t.threads, ∀ m w, (t.contextOf p).pc = .unlockSchedule m (some w) →
    (t.contextOf w).pc.waiting m = true
  front : t.cpu.owner ∈ t.threads → (t.queues (.level 0)).head? = some t.cpu.owner ∨
    t.cpu.pc.parked = true ∧ ∃ m, t.cpu.owner ∈ t.queues (.wait m)

section Steps

variable {t t' : State TcbLists} {p : TcbPtr} {m : MutexPtr}

theorem Queued.head (h : Queued t) (hmem : t.cpu.owner ∈ t.threads)
    (hpc : t.cpu.pc.parked = false) : (t.queues (.level 0)).head? = some t.cpu.owner := by
  rcases h.front hmem with hhead | ⟨hparked, -⟩
  · exact hhead
  · cases hpc.symm.trans hparked

theorem Queued.queued (h : Queued t) (hmem : t.cpu.owner ∈ t.threads) :
    ∃ q, t.cpu.owner ∈ t.queues q := by
  rcases h.front hmem with hhead | ⟨-, m, hwait⟩
  · exact ⟨_, List.mem_of_mem_head? hhead⟩
  · exact ⟨_, hwait⟩

theorem Queued.not_waiting (h : Queued t) (hp : Placed t) (hpc : t.cpu.pc.parked = false)
    (m : MutexPtr) : t.cpu.owner ∉ t.queues (.wait m) := by
  intro hwait
  have hhead := h.head (hp.known _ _ hwait) hpc
  cases hp.distinct.apart _ _ _ hwait (List.mem_of_mem_head? hhead)

/-- The head of the level that the lock loop dequeues is the caller. -/
theorem Queued.head_of_lockMove {priority : ℤ} {l : List TcbPtr} (h : Queued t) (hs : Steady t)
    (heq : t.cpu.pc = .lockMove m priority) (hq : t.queues (.level priority) = p :: l) :
    p = t.cpu.owner := by
  have hbody : t.cpu.pc ≠ .body := by rw [heq]; simp
  have hsound := hs.soundPc hbody
  rw [heq] at hsound
  obtain ⟨-, rfl⟩ := hsound
  have hhead := h.head (hs.owner_mem hbody) (by rw [heq]; rfl)
  rw [hq] at hhead
  exact Option.some.inj hhead

theorem Queued.local (h : Queued t) (hs : Steady t) (hl : Local t t')
    (hwait : ∀ m, ∀ p ∈ t'.queues (.wait m), p ≠ t.cpu.owner → p ∈ t.queues (.wait m))
    (howner : ∀ m, t.cpu.owner ∈ t'.queues (.wait m) → t'.cpu.pc.waiting m = true)
    (htaken : ∀ m w, t'.cpu.pc = .unlockSchedule m (some w) →
      w ∈ t.queues (.wait m) ∧ w ≠ t.cpu.owner)
    (hfront : t.cpu.owner ∈ t.threads → (t'.queues (.level 0)).head? = some t.cpu.owner ∨
      t'.cpu.pc.parked = true ∧ ∃ m, t.cpu.owner ∈ t'.queues (.wait m)) : Queued t' := by
  refine ⟨fun m p hp => ?_, fun p hp m w heq => ?_, ?_⟩
  · by_cases hpo : p = t.cpu.owner
    · rw [hpo] at hp ⊢
      rw [← hl.owner, contextOf_self]
      exact howner m hp
    · rw [hl.contextOf hpo]
      exact h.waiter m p (hwait m p hp hpo)
  · rw [hl.threads] at hp
    by_cases hpo : p = t.cpu.owner
    · rw [hpo, ← hl.owner, contextOf_self] at heq
      obtain ⟨hw, hne⟩ := htaken m w heq
      rw [hl.contextOf hne]
      exact h.waiter m w hw
    · rw [hl.contextOf hpo] at heq
      have hw := h.transit p hp m w heq
      -- a waiter in transit is in no queue, the thread on the processor is in one
      have hne : w ≠ t.cpu.owner := by
        rintro rfl
        obtain ⟨hmem, hnone⟩ := hs.inTransit ⟨p, hp, m, heq⟩
        obtain ⟨q, hq⟩ := h.queued hmem
        exact hnone q hq
      rwa [hl.contextOf hne]
  · rw [hl.owner, hl.threads]
    exact hfront

theorem Queued.quiet (h : Queued t) (hs : Steady t) (hl : Local t t')
    (hqueues : t'.queues = t.queues) (hpc : t.cpu.pc.parked = false)
    (hpc' : ∀ m w, t'.cpu.pc ≠ .unlockSchedule m (some w)) : Queued t' := by
  refine h.local hs hl (fun m p hp _ => hqueues ▸ hp) (fun m hp => ?_)
    (fun m w heq => absurd heq (hpc' m w)) fun hmem => Or.inl ?_
  · rw [hqueues] at hp
    exact absurd hp (h.not_waiting hs.toPlaced hpc m)
  · rw [hqueues]
    exact h.head hmem hpc

theorem Queued.executes (h : Queued t) (hs : Steady t) (he : Executes t t') : Queued t' := by
  have hbody := he.not_body
  have hown := hs.owner_mem hbody
  have hl := he.local
  cases he with
  | @move m priority p l heq hq =>
    obtain rfl : p = t.cpu.owner := h.head_of_lockMove hs heq hq
    have hmem : ∀ {q r}, r ∈ (t.queues.move (.level priority) (.wait m) t.cpu.owner l) q ↔
        r ∈ t.queues q ∧ r ≠ t.cpu.owner ∨ q = .wait m ∧ r = t.cpu.owner :=
      hs.distinct.mem_move hq
    refine h.local hs hl (fun m' r hr hne => ?_) (fun m' hr => ?_) (fun m' w hpc => ?_)
      fun _ => Or.inr ⟨rfl, m, hmem.mpr (Or.inr ⟨rfl, rfl⟩)⟩
    · exact ((hmem.mp hr).resolve_right fun hr' => hne hr'.2).1
    · have hm := (hmem.mp hr).resolve_left fun hr' => hr'.2 rfl
      obtain rfl := QueuePtr.wait.inj hm.1
      exact decide_eq_true rfl
    · cases hpc
  | @park m priority heq =>
    refine h.local hs hl (fun _ _ hp _ => hp) (fun m' hp => ?_) (fun m' w hpc => ?_) fun _ => ?_
    · have hwaiting := h.waiter m' _ hp
      rw [contextOf_self, heq] at hwaiting
      exact hwaiting
    · cases hpc
    · exact (h.front hown).imp_right fun hparked => ⟨rfl, hparked.2⟩
  | @waiter m w l heq hq =>
    have hmem : ∀ {q r}, r ∈ (t.queues.set (.wait m) l) q ↔ r ∈ t.queues q ∧ r ≠ w :=
      hs.distinct.mem_dequeue hq
    have hnot := h.not_waiting hs.toPlaced (by rw [heq]; rfl)
    refine h.local hs hl (fun m' r hr _ => (hmem.mp hr).1) (fun m' hr => ?_) (fun m' w' hpc => ?_)
      fun _ => Or.inl ?_
    · exact absurd (hmem.mp hr).1 (hnot m')
    · cases hpc
      have hw : w ∈ t.queues (.wait m) := hq ▸ List.mem_cons_self
      exact ⟨hw, fun hw' => hnot m (hw' ▸ hw)⟩
    · change ((t.queues.set (.wait m) l) (.level 0)).head? = _
      rw [Lists.set_of_ne (by simp)]
      exact h.head hown (by rw [heq]; rfl)
  | @wake m w heq =>
    have hwait : ∀ m', (t.scheduled w).queues (.wait m') = t.queues (.wait m') :=
      fun m' => Lists.set_of_ne (by simp)
    refine h.local hs hl (fun m' r hr _ => (hwait m') ▸ hr) (fun m' hr => ?_) (fun m' w' hpc => ?_)
      fun _ => Or.inl ?_
    · exact absurd ((hwait m') ▸ hr) (h.not_waiting hs.toPlaced (by rw [heq]; rfl) m')
    · cases hpc
    · have hhead := h.head hown (by rw [heq]; rfl)
      change ((t.queues.set (.level 0) (t.queues (.level 0) ++ [w])) (.level 0)).head? = _
      rw [Lists.set_self, List.head?_append, hhead, Option.some_or]
  | @test m priority found heq =>
    refine h.quiet hs hl rfl (by rw [heq]; rfl) fun m' w => ?_
    cases found <;> exact fun hpc => by cases hpc
  | start heq => exact h.quiet hs hl rfl (by rw [heq]; rfl) fun _ _ hpc => by cases hpc
  | acquire heq => exact h.quiet hs hl rfl (by rw [heq]; rfl) fun _ _ hpc => by cases hpc
  | release heq => exact h.quiet hs hl rfl (by rw [heq]; rfl) fun _ _ hpc => by cases hpc
  | noWaiter heq => exact h.quiet hs hl rfl (by rw [heq]; rfl) fun _ _ hpc => by cases hpc
  | pass heq => exact h.quiet hs hl rfl (by rw [heq]; rfl) fun _ _ hpc => by cases hpc
  | mark heq => exact h.quiet hs hl rfl (by rw [heq]; rfl) fun _ _ hpc => by cases hpc
  | joined heq => exact h.quiet hs hl rfl (by rw [heq]; rfl) fun _ _ hpc => by cases hpc
  | exited heq => exact h.quiet hs hl rfl (by rw [heq]; rfl) fun _ _ hpc => by cases hpc
  | notExited heq => exact h.quiet hs hl rfl (by rw [heq]; rfl) fun _ _ hpc => by cases hpc
  | store heq => exact h.quiet hs hl rfl (by rw [heq]; rfl) fun _ _ hpc => by cases hpc
  | terminate heq => exact h.quiet hs hl rfl (by rw [heq]; rfl) fun _ _ hpc => by cases hpc

/-- A signal that leaves the processor to a thread has not interrupted its `pause` while the
thread was in a wait queue. -/
theorem Queued.stays {now start : Time} {fuel : ℕ} (h : Queued t) (hs : Steady t)
    (hcond : t.switchesInLock (.tick now start)) (ht : Scheduler.tick now start fuel t = .ok t')
    (hdispatches : t'.dispatches = t.dispatches) (hparked : t.cpu.pc.parked = true)
    (hwait : t.cpu.owner ∈ t.queues (.wait m)) : t.cpu.pc.interrupted = t.cpu.pc := by
  cases hpc : t.cpu.pc with
  | lockPause m' priority =>
    have hwaiting := h.waiter m _ hwait
    rw [contextOf_self, hpc] at hwaiting
    obtain rfl : m' = m := of_decide_eq_true hwaiting
    obtain ⟨r, -, hswitched⟩ := tick_switched hs.toPlaced (hcond m' priority hpc hwait) ht
    have hlonger := hswitched.dispatches
    rw [hdispatches] at hlonger
    simp at hlonger
  | lockPark m' priority => rfl
  | _ => simp [hpc, Pc.parked] at hparked

theorem Queued.tick {now start : Time} {fuel : ℕ} (h : Queued t) (hs : Steady t)
    (hcond : t.switchesInLock (.tick now start)) (ht : Scheduler.tick now start fuel t = .ok t') :
    Queued t' := by
  obtain ⟨-, hf, houtcome⟩ := tick_outcome hs.toPlaced ht
  have hcontext : ∀ p, (t'.contextOf p).pc = (t.contextOf p).pc ∨
      (t'.contextOf p).pc = (t.contextOf p).pc.interrupted := by
    intro p
    rw [hf.context]
    exact (interrupt_contextOf t p).imp (congrArg Context.pc) (congrArg Context.pc)
  have hwaiting : ∀ p m, (t'.contextOf p).pc.waiting m = (t.contextOf p).pc.waiting m := by
    intro p m
    rcases hcontext p with heq | heq
    · rw [heq]
    · rw [heq, Pc.waiting_interrupted]
  refine ⟨fun m p hp => ?_, fun p hp m w heq => ?_, fun hmem => ?_⟩
  · rw [hwaiting]
    exact h.waiter m p ((hf.queues _).mem_iff.mp hp)
  · rw [hwaiting]
    have hpc : (t.contextOf p).pc = .unlockSchedule m (some w) := by
      rcases hcontext p with heq' | heq'
      · exact heq'.symm.trans heq
      · exact interrupted_transit (heq'.symm.trans heq)
    exact h.transit p (hf.threads ▸ hp) m w hpc
  · rcases houtcome with rfl | ⟨r, -, hswitched⟩ | hidle
    · refine (h.front hmem).imp_right fun ⟨hparked, m, hwait⟩ => ⟨?_, m, hwait⟩
      change t.cpu.pc.interrupted.parked = true
      rwa [h.stays hs hcond ht rfl hparked hwait]
    · exact Or.inl (by rw [hswitched.owner]; exact hswitched.head)
    · have hempty : t.queues (.level 0) = [] := hidle.empty
      rw [hf.threads, hidle.cpu] at hmem
      rcases h.front hmem with hhead | ⟨hparked, m, hwait⟩
      · rw [hempty] at hhead
        cases hhead
      · rw [hidle.cpu]
        refine Or.inr ⟨?_, m, (hf.queues _).mem_iff.mpr hwait⟩
        change t.cpu.pc.interrupted.parked = true
        rwa [h.stays hs hcond ht hidle.dispatches hparked hwait]

theorem Queued.withNode (h : Queued t) (hp : Placed t) (hc : Coherent t) (hne : t.threads ≠ [])
    (hpc : t.cpu.pc = .body) (routine : Routine) : Queued (t.withNode routine) := by
  have hown := hp.running hne
  have hfresh : ∀ r ∈ t.threads, r ≠ t.frontier := fun r hr => (hp.allocated r hr).ne
  have hcontext : ∀ r ∈ t.threads, (t.withNode routine).contextOf r = t.contextOf r :=
    fun r hr => created_contextOf_of_ne (hfresh r hr) _ _
  have hwait : ∀ m, (t.withNode routine).queues (.wait m) = t.queues (.wait m) :=
    fun m => Lists.set_of_ne (by simp)
  refine ⟨fun m r hr => ?_, fun r hr m w heq => ?_, fun _ => Or.inl ?_⟩
  · rw [hwait] at hr
    rw [hcontext r (hp.known _ r hr)]
    exact h.waiter m r hr
  · rcases List.mem_append.mp hr with hr | hr
    · rw [hcontext r hr] at heq
      rw [hcontext w (hc.inTransit ⟨r, hr, m, heq⟩).1]
      exact h.transit r hr m w heq
    · obtain rfl := List.mem_singleton.mp hr
      have hnew : (t.withNode routine).contextOf t.frontier = ⟨t.frontier, .start routine, []⟩ :=
        created_contextOf_frontier (hfresh _ hown) _ _
      rw [hnew] at heq
      cases heq
  · have hhead := h.head hown (by rw [hpc]; rfl)
    change ((t.queues.set (.level 0) (t.queues (.level 0) ++ [t.frontier])) (.level 0)).head? = _
    rw [Lists.set_self, List.head?_append, hhead, Option.some_or]
    rfl

theorem Queued.congr (h : Queued t) (hqueues : t'.queues = t.queues)
    (hcontext : ∀ p, t'.contextOf p = t.contextOf p) (hcpu : t'.cpu = t.cpu)
    (hthreads : t'.threads = t.threads) : Queued t' := by
  refine ⟨fun m p hp => ?_, fun p hp m w heq => ?_, ?_⟩
  · rw [hcontext]
    exact h.waiter m p (hqueues ▸ hp)
  · rw [hcontext] at heq ⊢
    exact h.transit p (hthreads ▸ hp) m w heq
  · rw [hcpu, hqueues, hthreads]
    exact h.front

theorem Queued.allocateTcb (h : Queued t) (hp : Placed t) (hc : Coherent t) (tid : ℕ) :
    Queued (t.allocateTcb tid) := by
  have hcontext : ∀ r ∈ t.threads, (t.allocateTcb tid).contextOf r = t.contextOf r :=
    fun r hr => allocateTcb_contextOf hp hr tid
  refine ⟨fun m r hr => ?_, fun r hr m w heq => ?_, h.front⟩
  · rw [hcontext r (hp.known _ r hr)]
    exact h.waiter m r hr
  · rw [hcontext r hr] at heq
    rw [hcontext w (hc.inTransit ⟨r, hr, m, heq⟩).1]
    exact h.transit r hr m w heq

theorem Queued.of_none (hp : Placed t) (hnone : t.threads = []) : Queued t := by
  refine ⟨fun m p hw => ?_, fun p hmem => ?_, fun hmem => ?_⟩
  · rw [hp.queues_nil hnone] at hw
    exact absurd hw List.not_mem_nil
  · rw [hnone] at hmem
    exact absurd hmem List.not_mem_nil
  · rw [hnone] at hmem
    exact absurd hmem List.not_mem_nil

theorem Queued.withMain (hp : Placed t) (hnone : t.threads = []) (hpc : t.cpu.pc = .body) :
    Queued t.withMain := by
  have hlevel : t.withMain.queues (.level 0) = [t.frontier] := by
    simp [State.withMain, State.created, hp.queues_nil hnone]
  have hcpu : t.withMain.contextOf t.frontier = { t.cpu with owner := t.frontier } :=
    contextOf_self t.withMain
  refine ⟨fun m p hw => ?_, fun p hmem m w heq => ?_, fun _ => Or.inl ?_⟩
  · have hwait : t.withMain.queues (.wait m) = t.queues (.wait m) := Lists.set_of_ne (by simp)
    rw [hwait, hp.queues_nil hnone] at hw
    exact absurd hw List.not_mem_nil
  · have hmem' : p ∈ t.threads ++ [t.frontier] := hmem
    rw [hnone] at hmem'
    obtain rfl : p = t.frontier := by simpa using hmem'
    rw [hcpu] at heq
    exact absurd (hpc.symm.trans heq) (by simp)
  · rw [hlevel]
    rfl

theorem Queued.creates {ok : Bool} (h : Queued t) (hs : Steady t)
    (hinit : t.schedulerInit = true) (hpc : t.cpu.pc = .body) (hc : Creates t ok t') :
    Queued t' := by
  apply hs.creates_induction hinit hpc hc h
  · exact fun hnone => .withMain hs.toPlaced hnone hpc
  · exact fun u tid hplaced hcoherent _ hu => hu.allocateTcb hplaced hcoherent tid
  · exact fun u routine hplaced hcoherent hne hbody hu =>
      hu.withNode hplaced hcoherent hne hbody routine

theorem Queued.called {c : ClientCall} (h : Queued t) (hs : Steady t) (hpc : t.cpu.pc = .body)
    (hc : Called t c t') : Queued t' := by
  have hparked : t.cpu.pc.parked = false := by rw [hpc]; rfl
  -- a call that only moves the program counter
  have hset : ∀ pc, (∀ m w, pc ≠ .unlockSchedule m (some w)) → Queued (t.setPc pc) := by
    intro pc hnode
    exact h.quiet hs (.setPc t pc) rfl hparked hnode
  cases hc with
  | create hcreate =>
    obtain ⟨hthreads, -, hcpu, htcbs, hqueues, -⟩ := hs.toPlaced.begun_threads
    have hbegun : Queued t.begun :=
      h.congr hqueues (fun p => by simp only [State.contextOf, hcpu, htcbs]) hcpu hthreads
    exact hbegun.creates hs.begun hs.toPlaced.begun.2 (by rw [hcpu]; exact hpc) hcreate
  | mutexInit _ hu =>
    rcases hu with rfl | ⟨-, rfl⟩
    · exact h.congr rfl (fun _ => rfl) rfl rfl
    · exact h.congr rfl (fun _ => rfl) rfl rfl
  | @exit value cur => exact h.congr rfl (terminated_contextOf t cur value) rfl rfl
  | lock => exact hset _ fun _ _ heq => by cases heq
  | unlock => exact hset _ fun _ _ heq => by cases heq
  | notFound => exact h
  | join => exact hset _ fun _ _ heq => by cases heq
  | functionReturn => exact hset _ fun _ _ heq => by cases heq

/-- Every event keeps the queues in order, if no `pause` returns to a thread that waits. -/
theorem Queued.event {e : Event} (h : Queued t) (hs : Steady t) (hcond : t.switchesInLock e)
    (he : EventStep t e t') : Queued t' := by
  cases he.happens hs.toPlaced with
  | tick ht => exact h.tick hs hcond ht
  | call hpc hc => exact h.called hs hpc hc
  | next hx => exact h.executes hs hx

end Steps

section Once

variable {t t' : State TcbLists}

theorem Context.LocksOnce.of_not {c : Context} (h : ∀ m, c.pc.locking m = false) : c.LocksOnce :=
  fun m hm => by cases (h m).symm.trans hm

theorem State.LocksOnce.local (h : t.LocksOnce) (hl : Local t t') (howner : t'.cpu.LocksOnce) :
    t'.LocksOnce := by
  intro p hp
  rw [hl.threads] at hp
  by_cases hpo : p = t.cpu.owner
  · rw [hpo, ← hl.owner, contextOf_self]
    exact howner
  · rw [hl.contextOf hpo]
    exact h p hp

theorem State.LocksOnce.executes (h : t.LocksOnce) (hs : Steady t) (he : Executes t t') :
    t'.LocksOnce := by
  have hbody := he.not_body
  have hown := h _ (hs.owner_mem hbody)
  rw [contextOf_self] at hown
  apply h.local he.local
  cases he with
  | @test m priority found heq =>
    cases found with
    | unlocked => exact .of_not fun _ => rfl
    | locked => exact fun m' hm' => hown m' (by rw [heq]; exact hm')
  | move heq => exact fun m' hm' => hown m' (by rw [heq]; exact hm')
  | park heq => exact fun m' hm' => hown m' (by rw [heq]; exact hm')
  | _ => exact .of_not fun _ => rfl

theorem State.LocksOnce.tick {now start : Time} {fuel : ℕ} (h : t.LocksOnce) (hs : Steady t)
    (ht : Scheduler.tick now start fuel t = .ok t') : t'.LocksOnce := by
  obtain ⟨-, hf, -⟩ := tick_outcome hs.toPlaced ht
  intro p hp
  have hp' := h p (hf.threads ▸ hp)
  rw [hf.context]
  rcases interrupt_contextOf t p with heq | heq
  · rwa [heq]
  · rw [heq]
    exact fun m hm => hp' m ((Pc.locking_interrupted _ m).symm.trans hm)

theorem State.LocksOnce.withNode (h : t.LocksOnce) (hp : Placed t) (hne : t.threads ≠ [])
    (routine : Routine) : (t.withNode routine).LocksOnce := by
  intro r hr
  rcases List.mem_append.mp hr with hr | hr
  · rw [show (t.withNode routine).contextOf r = t.contextOf r from
      created_contextOf_of_ne (hp.allocated r hr).ne _ _]
    exact h r hr
  · rw [List.mem_singleton.mp hr, show (t.withNode routine).contextOf t.frontier =
      ⟨t.frontier, .start routine, []⟩ from
        created_contextOf_frontier (hp.allocated _ (hp.running hne)).ne _ _]
    exact .of_not fun _ => rfl

theorem State.LocksOnce.creates {ok : Bool} (h : t.LocksOnce) (hs : Steady t)
    (hinit : t.schedulerInit = true) (hpc : t.cpu.pc = .body) (hc : Creates t ok t') :
    t'.LocksOnce := by
  apply hs.creates_induction hinit hpc hc h
  · intro hnone r hr
    have hr' : r ∈ t.threads ++ [t.frontier] := hr
    rw [hnone] at hr'
    obtain rfl : r = t.frontier := by simpa using hr'
    rw [show t.withMain.contextOf t.frontier = t.withMain.cpu from contextOf_self t.withMain]
    refine .of_not fun m => ?_
    change t.cpu.pc.locking m = false
    rw [hpc]
    rfl
  · intro u tid hplaced _ _ hu r hr
    rw [allocateTcb_contextOf hplaced hr]
    exact hu r hr
  · exact fun u routine hplaced _ hne _ hu => hu.withNode hplaced hne routine

theorem State.LocksOnce.called {c : ClientCall} (h : t.LocksOnce) (hs : Steady t)
    (hpc : t.cpu.pc = .body) (hcond : Scheduler.LocksOnce t (.call c)) (hc : Called t c t') :
    t'.LocksOnce := by
  have hset : ∀ pc : Pc, Context.LocksOnce { t.cpu with pc } → (t.setPc pc).LocksOnce := by
    intro pc hpc'
    exact h.local (.setPc t pc) hpc'
  cases hc with
  | create hcreate =>
    obtain ⟨hthreads, -, hcpu, htcbs, -⟩ := hs.toPlaced.begun_threads
    have hbegun : t.begun.LocksOnce := by
      intro p hp
      simp only [State.contextOf, hcpu, htcbs]
      exact h p (hthreads ▸ hp)
    exact hbegun.creates hs.begun hs.toPlaced.begun.2 (by rw [hcpu]; exact hpc) hcreate
  | mutexInit _ hu =>
    rcases hu with rfl | ⟨-, rfl⟩
    · exact h
    · exact h
  | @exit value cur =>
    intro p hp
    rw [terminated_contextOf]
    exact h p hp
  | @lock m cur hcur =>
    refine hset _ fun m' hm' => ?_
    obtain rfl : m = m' := of_decide_eq_true hm'
    exact hcond
  | unlock => exact hset _ (.of_not fun _ => rfl)
  | notFound => exact h
  | join => exact hset _ (.of_not fun _ => rfl)
  | functionReturn => exact hset _ (.of_not fun _ => rfl)

theorem State.LocksOnce.event {e : Event} (h : t.LocksOnce) (hs : Steady t)
    (hcond : Scheduler.LocksOnce t e) (he : EventStep t e t') : t'.LocksOnce := by
  cases he.happens hs.toPlaced with
  | tick ht => exact h.tick hs ht
  | call hpc hc => exact h.called hs hpc hcond hc
  | next hx => exact h.executes hs hx

end Once

section Runs

variable {t : State TcbLists}

theorem SwitchesInLock.refines {s : State TcbLinks} (hr : Refines s t) {e : Event}
    (h : SwitchesInLock s e) : t.switchesInLock e := by
  obtain ⟨L, hL, rfl⟩ := hr
  cases e with
  | tick now start =>
    exact fun m priority hpc hwait =>
      (Switches.refines hL).mp (h m priority hpc ((inQueue_iff hL).mpr hwait))
  | call c => trivial
  | next => trivial

theorem Queued.onlyCallerBlocks {L : TcbLinks} (h : Queued t) (hs : Steady t) (honce : t.LocksOnce)
    (hL : Agrees L t.queues) : OnlyCallerBlocks (t.withQueues L) := by
  have hlocking : ∀ {m p}, p ∈ t.queues (.wait m) → (t.contextOf p).pc.locking m = true :=
    fun hp => Pc.locking_of_waiting (h.waiter _ _ hp)
  refine ⟨fun m p hp => ?_, fun m p hheld hp => ?_, fun m priority hpc => ?_⟩
  · have hp' := (inQueue_iff hL).mp hp
    exact ⟨hs.known _ p hp', hlocking hp'⟩
  · have hwait := hlocking ((inQueue_iff hL).mp hp)
    rcases hheld with ⟨hmem, hheld⟩ | ⟨-, hwon⟩
    · exact honce p hmem m hwait hheld
    · rw [show (t.contextOf p).pc = .lockWon m from hwon] at hwait
      cases hwait
  · have hpc' : t.cpu.pc = .lockMove m priority := hpc
    have hsound := hs.soundPc (by rw [hpc']; simp)
    rw [hpc'] at hsound
    obtain ⟨-, rfl⟩ := hsound
    have hhead := h.head (hs.owner_mem (by rw [hpc']; simp)) (by rw [hpc']; rfl)
    have hpeek : QueueStore.peek (QueuePtr.level 0) L = some t.cpu.owner :=
      (hL.peek (.level 0)).trans hhead
    rw [State.withQueues_queues, hpeek]
    simp

/-- In a run in which no thread locks a mutex that it holds, and no `pause` of the lock loop
returns to a thread that is still in the wait queue, only callers of the lock loop block. -/
theorem only_caller_blocks {storage : TcbPtr → Tcb} {events : List Event} {s : State TcbLinks}
    (h : Run (Guarded (fun s e => LocksOnce s e ∧ SwitchesInLock s e) EventStep)
      (State.initial noLinks storage) events s) : OnlyCallerBlocks s := by
  have hinv := h.invariant
    (I := fun _ s => ∃ t, Refines s t ∧ Steady t ∧ Queued t ∧ t.LocksOnce)
    ⟨State.initial noLists storage, ⟨noLinks, noLinks_agrees, rfl⟩, .initial storage,
      .of_none (.initial storage) rfl, fun p hp => absurd hp List.not_mem_nil⟩
    fun _ s e s' hs hstep => by
      obtain ⟨t, hr, hsteady, hqueued, honce⟩ := hs
      obtain ⟨⟨hlocks, hswitches⟩, he⟩ := hstep
      have hlocks' : LocksOnce t e := by
        obtain ⟨L, -, rfl⟩ := hr
        exact hlocks
      obtain ⟨t', ht', hr', hsteady'⟩ := he.simulates hr hsteady
      exact ⟨t', hr', hsteady', hqueued.event hsteady (hswitches.refines hr) ht',
        honce.event hsteady hlocks' ht'⟩
  obtain ⟨t, ⟨L, hL, rfl⟩, hsteady, hqueued, honce⟩ := hinv
  exact hqueued.onlyCallerBlocks hsteady honce hL

/-- `SwitchesInLock` without a look at the wait queues. -/
def SwitchesParked (s : State TcbLinks) : Event → Prop
  | .tick now _ => s.cpu.pc.parked = true → Switches s now
  | _ => True

instance (s : State TcbLinks) (e : Event) : Decidable (SwitchesParked s e) :=
  match e with
  | .tick now _ => inferInstanceAs (Decidable (s.cpu.pc.parked = true → Switches s now))
  | .call _ | .next => isTrue trivial

theorem SwitchesParked.inLock {s : State TcbLinks} {e : Event} (h : SwitchesParked s e) :
    SwitchesInLock s e := by
  cases e with
  | tick now start => exact fun m priority hpc _ => h (by rw [hpc]; rfl)
  | call c => trivial
  | next => trivial

/-- Main holds mutex 0, thread 1 has blocked on it, and main goes on. -/
def blockedCaller : List Event :=
  [.call (.create true true ⟨1, 0⟩), .call (.mutexInit 0), .call (.lock 0), .next, .next,
    .tick ⟨1, 0⟩ ⟨1, 0⟩, .next, .call (.lock 0), .next, .next, .next, .tick ⟨2, 0⟩ ⟨2, 0⟩]

theorem only_caller_blocks_blockedCaller : ∃ s : State TcbLinks,
    Run (Guarded (fun s e => LocksOnce s e ∧ SwitchesInLock s e) EventStep)
      (State.initial noLinks fun _ => zeroedTcb) blockedCaller s ∧
        (s.queues.queue (.wait 0)).head = some 1 ∧ OnlyCallerBlocks s := by
  obtain ⟨s, hrun, hhead⟩ := Run.of_runAll
    (guardedExec_step (fun s e => LocksOnce s e ∧ SwitchesParked s e) (Event.run_step 5))
    blockedCaller (State.initial noLinks fun _ => zeroedTcb)
    (fun s => (s.queues.queue (.wait 0)).head) (b := some 1) (by decide +kernel)
  have hguarded : Run (Guarded (fun s e => LocksOnce s e ∧ SwitchesInLock s e) EventStep)
      (State.initial noLinks fun _ => zeroedTcb) blockedCaller s :=
    hrun.mono fun s e s' hs => ⟨⟨hs.1.1, hs.1.2.inLock⟩, hs.2⟩
  exact ⟨s, hguarded, hhead, only_caller_blocks hguarded⟩

/-- The `pause` of thread 1 returns inside its time slice, and thread 2 has not run yet. -/
def earlySignal : List Event :=
  [.call (.create true true ⟨1, 0⟩), .call (.create true true ⟨2, 0⟩), .call (.mutexInit 0),
    .call (.lock 0), .next, .next, .tick ⟨1, 0⟩ ⟨1, 0⟩, .next, .call (.lock 0), .next, .next,
    .next, .tick ⟨1, 0⟩ ⟨1, 0⟩, .next, .next]

/-- Thread 2 is blocked though it has not called anything. -/
theorem earlySignal_blocks_other : ¬ ∀ (storage : TcbPtr → Tcb) (events : List Event)
    (s : State TcbLinks), Run (Guarded LocksOnce EventStep) (State.initial noLinks storage)
      events s → OnlyCallerBlocks s := by
  intro h
  obtain ⟨s, hrun, hs⟩ := Run.of_runAll (guardedExec_step LocksOnce (Event.run_step 5)) earlySignal
    (State.initial noLinks fun _ => zeroedTcb)
    (fun s => ([(s.queues.queue (.wait 0)).head, s.queues.next 1, s.queues.next 2],
      s.cpu.owner, (s.tcbs 2).context.pc))
    (b := ([some 1, some 2, none], 1, .start ⟨2, 0⟩)) (by decide +kernel)
  simp only [Prod.mk.injEq, List.cons.injEq] at hs
  obtain ⟨⟨hhead, hnext, hlast, -⟩, howner, hpc⟩ := hs
  have hchain : Chain s.queues.next (s.queues.queue (.wait 0)).head [1, 2] :=
    .link hhead (.link hnext (.last hlast))
  have hlocking := ((h _ _ s hrun).caller 0 2 ⟨[1, 2], hchain, by simp⟩).2
  rw [contextOf_eq_tcb (by simp [howner]), hpc] at hlocking
  cases hlocking

end Runs

end VirtualMemorySimulation.Scheduler
