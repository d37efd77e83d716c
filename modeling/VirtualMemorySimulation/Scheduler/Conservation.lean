import VirtualMemorySimulation.Scheduler.Placement

/-!
# Every thread is in one queue

Each call and each signal taken as one step keeps every thread in exactly one
queue. The invariant is proved on lists and carried over to the linked control
blocks by the refinement.
-/

namespace VirtualMemorySimulation.Scheduler

open Execution LinkedQueue

def Homed (t : State TcbLists) : Prop := ∀ p ∈ t.threads, ∃ q, p ∈ t.queues q

structure Conserved (t : State TcbLists) : Prop extends Placed t where
  counted : t.tid = 0 ↔ t.threads = []
  homed : Homed t

section Steps

variable {t t' : State TcbLists} {p : TcbPtr} {m : MutexPtr}

theorem Homed.of_frame (h : Homed t) (hf : Frame t t') : Homed t' := by
  intro p hp
  rw [hf.threads] at hp
  obtain ⟨q, hq⟩ := h p hp
  exact ⟨q, (hf.queues q).mem_iff.mpr hq⟩

theorem Homed.move (h : Homed t) (hd : t.queues.Distinct) {q : QueuePtr} {l : List TcbPtr}
    (hq : t.queues q = p :: l) (q' : QueuePtr) :
    Homed { t with queues := t.queues.move q q' p l } := by
  intro r hr
  by_cases hrp : r = p
  · exact ⟨q', (hd.mem_move hq).mpr (Or.inr ⟨rfl, hrp⟩)⟩
  · obtain ⟨q'', hr'⟩ := h r hr
    exact ⟨q'', (hd.mem_move hq).mpr (Or.inl ⟨hr', hrp⟩)⟩

theorem Homed.created (h : Homed t) (tid : ℕ) (context : Context) :
    Homed (t.created tid context) := by
  intro r hr
  rcases List.mem_append.mp hr with hr | hr
  · obtain ⟨q, hq⟩ := h r hr
    exact ⟨q, Lists.mem_enqueue.mpr (Or.inl hq)⟩
  · exact ⟨.level 0, Lists.mem_enqueue.mpr (Or.inr ⟨rfl, List.mem_singleton.mp hr⟩)⟩

theorem Conserved.initial (storage : TcbPtr → Tcb) :
    Conserved (State.initial noLists storage) where
  toPlaced := .initial storage
  counted := by simp [State.initial]
  homed p hp := absurd hp List.not_mem_nil

theorem Conserved.tick {now start : Time} {fuel : ℕ} (h : Conserved t)
    (ht : tick now start fuel t = .ok t') : Conserved t' := by
  obtain ⟨-, hf, -⟩ := tick_outcome h.toPlaced ht
  refine ⟨h.toPlaced.tick ht, ?_, Homed.of_frame (t := t.interrupt) h.homed hf⟩
  rw [hf.tid, hf.threads]
  exact h.counted

theorem Conserved.begun (h : Conserved t) : Conserved t.begun := by
  have hplaced := h.toPlaced.begun.1
  rcases h.toPlaced.begun_eq with ⟨-, heq⟩ | ⟨-, heq⟩
  · rwa [heq]
  · rw [heq] at hplaced ⊢
    exact ⟨hplaced, h.counted, h.homed⟩

theorem Conserved.create {mainContext nodeContext ok : Bool} {routine : Routine} (h : Conserved t)
    (ht : myPthreadCreate mainContext nodeContext routine t = .ok (ok, t')) : Conserved t' := by
  have hbegun := h.begun
  have hinit := h.toPlaced.begun.2
  have hcreates := myPthreadCreate_creates ht
  obtain ⟨hplaced, hcounted⟩ := hbegun.toPlaced.creates hinit hbegun.counted hcreates
  refine ⟨hplaced, hcounted, hbegun.toPlaced.creates_induction hinit hbegun.counted hcreates
    hbegun.homed (fun _ _ => ?_) (fun u tid _ _ hu => ?_) fun u routine _ _ hu => ?_⟩
  · exact hbegun.homed.created t.begun.tid { t.begun.cpu with owner := t.begun.frontier }
  · exact hu
  · exact hu.created (u.tid + 1) ⟨u.frontier, .start routine, []⟩

theorem Conserved.mutexInit (h : Conserved t) (ht : myPthreadMutexInit m t = .ok t') :
    Conserved t' := by
  have hplaced := h.toPlaced.mutexInit ht
  obtain ⟨-, u, rfl | ⟨-, rfl⟩, rfl⟩ := h.toPlaced.mutexInit_ok ht
  · exact ⟨hplaced, h.counted, h.homed⟩
  · exact ⟨hplaced, h.counted, h.homed⟩

theorem Conserved.lockPass {priority : ℤ} (h : Conserved t)
    (ht : lockPass m priority t = .ok t') : Conserved t' := by
  have hplaced := h.toPlaced.lockPass ht
  rcases lockPass_ok ht with ⟨-, rfl⟩ | ⟨-, p, l, hq, rfl⟩
  · exact ⟨hplaced, h.counted, h.homed⟩
  · exact ⟨hplaced, h.counted, h.homed.move h.distinct hq _⟩

theorem Conserved.unlock (h : Conserved t) (ht : myPthreadMutexUnlock m t = .ok t') :
    Conserved t' := by
  have hplaced := h.toPlaced.unlock ht
  rcases h.toPlaced.unlock_ok ht with ⟨-, rfl⟩ | ⟨p, l, hq, rfl⟩
  · exact ⟨hplaced, h.counted, h.homed⟩
  · exact ⟨hplaced, h.counted, h.homed.move h.distinct hq _⟩

theorem Conserved.terminate (h : Conserved t) (p : TcbPtr) (value : Value) :
    Conserved (t.setTcb p { t.tcbs p with returnValue := value, state := .terminated }) :=
  ⟨h.toPlaced.terminate p value, h.counted, h.homed⟩

/-- The effect of a call or a signal on list states. -/
inductive Performed (t : State TcbLists) : CallBy → State TcbLists → Prop
  | create {caller mainContext nodeContext routine ok u} :
      myPthreadCreate mainContext nodeContext routine t = .ok (ok, u) →
        Performed t ⟨caller, .create mainContext nodeContext routine⟩ u
  | tick {caller now start fuel u} : Scheduler.tick now start fuel t = .ok u →
      Performed t ⟨caller, .tick now start⟩ u
  | mutexInit {caller mutex u} : myPthreadMutexInit mutex t = .ok u →
      Performed t ⟨caller, .mutexInit mutex⟩ u
  | lock {caller mutex cur u} : t.currentTcb = some cur →
      lockPass mutex (t.tcbs cur).priority t = .ok u → Performed t ⟨caller, .lock mutex⟩ u
  | relock {caller mutex priority u} : lockPass mutex priority t = .ok u →
      Performed t ⟨caller, .relock mutex priority⟩ u
  | unlock {caller mutex u} : myPthreadMutexUnlock mutex t = .ok u →
      Performed t ⟨caller, .unlock mutex⟩ u
  | exit {cur value} : t.currentTcb = some cur → Performed t ⟨some cur, .exit value⟩
      (t.setTcb cur { t.tcbs cur with returnValue := value, state := .terminated })
  | exited {caller value resumed} : Performed t ⟨caller, .functionReturn value resumed⟩ t
  | functionReturn {cur value resumed} : t.currentTcb = some cur →
      Performed t ⟨some cur, .functionReturn value resumed⟩
        (t.setTcb cur { t.tcbs cur with returnValue := value, state := .terminated })
  | join {caller tid} : Performed t ⟨caller, .join tid⟩ t

theorem CallStep.performed {c : CallBy} (hs : CallStep t c t') : Performed t c t' := by
  obtain ⟨hcaller, fuel, hrun⟩ := hs
  obtain ⟨caller, call⟩ := c
  dsimp only at hcaller
  cases call with
  | create mainContext nodeContext routine =>
    obtain ⟨⟨ok, u⟩, hcreate, hu⟩ := bind_eq_ok.mp hrun
    obtain rfl := Except.ok.inj hu
    exact .create hcreate
  | tick now start => exact .tick hrun
  | mutexInit mutex => exact .mutexInit hrun
  | lock mutex =>
    obtain ⟨cur, hcur, hpass⟩ := bind_eq_ok.mp hrun
    exact .lock (State.current_eq_ok.mp hcur) hpass
  | relock mutex priority => exact .relock hrun
  | unlock mutex => exact .unlock hrun
  | exit value =>
    obtain ⟨cur, hcur, rfl⟩ := myPthreadExit_ok hrun
    rw [hcur] at hcaller
    subst hcaller
    exact .exit hcur
  | functionReturn value resumed =>
    obtain ⟨cur, hcur, hreturn⟩ := bind_eq_ok.mp hrun
    rw [State.current_eq_ok] at hcur
    rw [hcur] at hcaller
    subst hcaller
    split_ifs at hreturn
    · obtain rfl := Except.ok.inj hreturn
      exact .exited
    · obtain rfl := Except.ok.inj hreturn
      exact .functionReturn hcur
  | join tid =>
    obtain ⟨value, -, hjoin⟩ := bind_eq_ok.mp hrun
    obtain rfl := Except.ok.inj hjoin
    exact .join

theorem Conserved.call {c : CallBy} (h : Conserved t) (hs : CallStep t c t') : Conserved t' := by
  cases hs.performed with
  | create hcreate => exact h.create hcreate
  | tick ht => exact h.tick ht
  | mutexInit hinit => exact h.mutexInit hinit
  | lock _ hpass => exact h.lockPass hpass
  | relock hpass => exact h.lockPass hpass
  | unlock hunlock => exact h.unlock hunlock
  | @exit cur value => exact h.terminate cur value
  | exited => exact h
  | @functionReturn cur value => exact h.terminate cur value
  | join => exact h

end Steps

/-- The control block is met by following the links of the queue. -/
def InQueue (L : TcbLinks) (q : QueuePtr) (p : TcbPtr) : Prop :=
  ∃ l, Chain L.next (L.queue q).head l ∧ p ∈ l

theorem inQueue_iff {L : TcbLinks} {A : TcbLists} (h : Agrees L A) {q : QueuePtr} {p : TcbPtr} :
    InQueue L q p ↔ p ∈ A q := by
  constructor
  · rintro ⟨l, hl, hp⟩
    rwa [(h.denotes q).chain.unique hl]
  · exact fun hp => ⟨A q, (h.denotes q).chain, hp⟩

/-- A queue record with the nodes that its links lead to. -/
structure WellFormed (next : TcbPtr → Option TcbPtr) (q : Queue TcbPtr) (l : List TcbPtr) :
    Prop where
  chain : Chain next q.head l
  acyclic : l.Nodup
  size : q.size = l.length
  tail : q.tail = l.getLast?
  last : ∀ p, q.tail = some p → next p = none

/-- Every created thread is once in one queue, no other control block is queued, the queues
are well formed, and priorities are levels. -/
structure ThreadsConserved (s : State TcbLinks) (contents : QueuePtr → List TcbPtr) : Prop where
  wellFormed : ∀ q, WellFormed s.queues.next (s.queues.queue q) (contents q)
  once : ∀ p ∈ s.threads, ∃ q, (contents q).count p = 1 ∧ ∀ q', q' ≠ q → p ∉ contents q'
  created : ∀ q, ∀ p ∈ contents q, p ∈ s.threads
  priority : ∀ i, ∀ p ∈ contents (.level i), (s.tcbs p).priority = i

theorem Conserved.threadsConserved {s : State TcbLinks} {t : State TcbLists} (h : Conserved t)
    (hr : Refines s t) : ThreadsConserved s t.queues := by
  obtain ⟨L, hL, rfl⟩ := hr
  constructor
  · intro q
    obtain ⟨hchain, htail, hsize⟩ := hL.denotes q
    exact ⟨hchain, h.distinct.nodup q, hsize, htail, fun p hp => hchain.next_last (htail ▸ hp)⟩
  · intro p hp
    obtain ⟨q, hq⟩ := h.homed p hp
    refine ⟨q, List.count_eq_one_of_mem (h.distinct.nodup q) hq, fun q' hne hq' => ?_⟩
    exact hne (h.distinct.apart q' q p hq' hq)
  · exact fun q p hp => h.known q p hp
  · intro i p hp
    rw [h.level i p hp]
    exact h.priority p (h.known _ p hp)

/-- The linked state of every run is that of a conserved list state. -/
theorem run_conserved {storage : TcbPtr → Tcb} {calls : List CallBy} {s : State TcbLinks}
    (h : Run CallStep (State.initial noLinks storage) calls s) :
    ∃ t, Run CallStep (State.initial noLists storage) calls t ∧ Refines s t ∧ Conserved t := by
  refine Run.simulation (R := fun s t => Refines s t ∧ Conserved t) ?_ ?_ h
  · rintro s c s' t ⟨hr, ht⟩ hs
    obtain ⟨t', hstep, hr'⟩ := hs.refines hr ht.toPlaced.fresh
    exact ⟨t', hstep, hr', ht.call hstep⟩
  · exact ⟨⟨noLinks, noLinks_agrees, rfl⟩, .initial storage⟩

theorem threads_conserved {storage : TcbPtr → Tcb} {calls : List CallBy} {s : State TcbLinks}
    (h : Run CallStep (State.initial noLinks storage) calls s) :
    ∃ contents, ThreadsConserved s contents := by
  obtain ⟨t, -, hr, ht⟩ := run_conserved h
  exact ⟨t.queues, ht.threadsConserved hr⟩

/-- The main thread locks a mutex that a second thread then waits for. -/
def contention : List CallBy :=
  [⟨none, .create true true ⟨1, 0⟩⟩, ⟨some 0, .mutexInit 7⟩, ⟨some 0, .lock 7⟩,
    ⟨some 0, .tick ⟨1, 0⟩ ⟨1, 0⟩⟩, ⟨some 1, .lock 7⟩, ⟨some 1, .tick ⟨2, 0⟩ ⟨2, 0⟩⟩]

theorem threads_conserved_contention : ∃ s contents,
    Run CallStep (State.initial noLinks fun _ => zeroedTcb) contention s ∧
      s.threads = [0, 1] ∧ (s.queues.queue (.wait 7)).head = some 1 ∧
      ThreadsConserved s contents := by
  obtain ⟨s, hrun, hs⟩ := Run.of_runAll (CallBy.exec_step 5) contention
    (State.initial noLinks fun _ => zeroedTcb)
    (fun s => (s.threads, (s.queues.queue (.wait 7)).head)) (b := ([0, 1], some 1)) rfl
  obtain ⟨contents, hcontents⟩ := threads_conserved hrun
  exact ⟨s, contents, hrun, congrArg Prod.fst hs, congrArg Prod.snd hs, hcontents⟩

end VirtualMemorySimulation.Scheduler
