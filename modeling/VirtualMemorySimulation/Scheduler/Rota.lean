import VirtualMemorySimulation.Foundations.TurnQueue
import VirtualMemorySimulation.Scheduler.ContextIntegrity
import VirtualMemorySimulation.Scheduler.Termination
import VirtualMemorySimulation.Scheduler.TurnOrder

/-!
# The scheduler keeps a rota

Of the levels, the counts and the states of the threads a run shows nothing but a rota:
level 0 is the line of the ready threads, a mutex has a waiting line, and a thread in the
middle of an unlock may hold a waiter in hand. Every step of every interleaving is a
step of the rota.
-/

namespace VirtualMemorySimulation.Scheduler

open Execution LinkedQueue TurnQueue

/-- The waiter that a thread in the middle of an unlock has dequeued. -/
def Pc.inHand : Pc → List TcbPtr
  | .unlockSchedule _ (some w) => [w]
  | _ => []

section Statement

variable {σ : Type} [QueueStore σ QueuePtr TcbPtr]

/-- What a step shows of itself. -/
def OpenEvent.shows (s : State σ) (o : OpenEvent) (s' : State σ) : Happening TcbPtr MutexPtr :=
  match o with
  | .event (.tick _ _) =>
    match s'.currentTcb with
    | none => .idle
    | some p => if s'.dispatches = s.dispatches then .quiet else .turn p
  | .event (.call (.create ..)) => .enrol (s'.threads.drop s.threads.length)
  | .event (.call (.exit _)) => .finish s.cpu.owner
  | .event .next =>
    match s.cpu.pc with
    | .lockMove m priority =>
      (QueueStore.peek (.level priority) s.queues).elim .quiet (.block m)
    | .unlockDequeue m => (QueueStore.peek (.wait m) s.queues).elim .quiet (.take m s.cpu.owner)
    | .unlockSchedule _ (some w) => .wake s.cpu.owner w
    | .unlockMark _ => .stay
    | .terminating => .finish s.cpu.owner
    | _ => .quiet
  | _ => .quiet

def ShowingStep (x : State σ × List (Happening TcbPtr MutexPtr)) (o : OpenEvent)
    (y : State σ × List (Happening TcbPtr MutexPtr)) : Prop :=
  OpenStep x.1 o y.1 ∧ y.2 = x.2 ++ [o.shows x.1 y.1]

def OpenEvent.showing (fuel : ℕ) (o : OpenEvent) (x : State σ × List (Happening TcbPtr MutexPtr)) :
    Except Stop (State σ × List (Happening TcbPtr MutexPtr)) := do
  let s' ← o.run fuel x.1
  .ok (s', x.2 ++ [o.shows x.1 s'])

theorem OpenEvent.showing_step (fuel : ℕ) (x : State σ × List (Happening TcbPtr MutexPtr))
    (o : OpenEvent) (y : State σ × List (Happening TcbPtr MutexPtr))
    (h : o.showing fuel x = .ok y) : ShowingStep x o y := by
  obtain ⟨s', hs', h⟩ := bind_eq_ok.mp h
  obtain rfl := Except.ok.inj h
  exact ⟨⟨fuel, hs'⟩, rfl⟩

theorem run_showing {s₀ s : State σ} {os : List OpenEvent} (h : Run OpenStep s₀ os s) :
    ∃ es, Run ShowingStep (s₀, []) os (s, es) := by
  induction h with
  | nil => exact ⟨[], .nil⟩
  | @snoc os s o s' _ hs ih =>
    obtain ⟨es, hes⟩ := ih
    exact ⟨es ++ [o.shows s s'], hes.snoc ⟨hs, rfl⟩⟩

/-- The linked state is one of the rota: its lines are the chains of level 0 and of the wait
queues, its hands are program counters, and the lower levels are empty. -/
structure Follows (s : State TcbLinks) (r : Rota TcbPtr MutexPtr) : Prop where
  members : r.members = s.threads
  ready : Chain s.queues.next (s.queues.queue (.level 0)).head (r.places .ready)
  lower : ∀ i ≠ 0, (s.queues.queue (.level i)).head = none
  waiting : ∀ m, Chain s.queues.next (s.queues.queue (.wait m)).head (r.places (.waiting m))
  hand : ∀ p, r.places (.hand p) = if p ∈ s.threads then (s.contextOf p).pc.inHand else []
  finished : ∀ p, p ∈ r.finished ↔ p ∈ s.threads ∧ (s.tcbs p).state = .terminated
  stays : r.stays = true ↔ s.afterUnlockPriority ≠ -1
  running : r.running = if s.threads = [] then none else some s.cpu.owner

end Statement

def State.hand {σ : Type} (s : State σ) (p : TcbPtr) : List TcbPtr :=
  if p ∈ s.threads then (s.contextOf p).pc.inHand else []

def State.rota (t : State TcbLists) : Rota TcbPtr MutexPtr where
  members := t.threads
  places := ⟨fun
    | .ready => t.queues (.level 0)
    | .waiting m => t.queues (.wait m)
    | .hand p => t.hand p⟩
  finished := { p | p ∈ t.threads ∧ (t.tcbs p).state = .terminated }
  stays := t.afterUnlockPriority ≠ -1
  running := if t.threads = [] then none else some t.cpu.owner

section Rotas

variable {t t' : State TcbLists} {r : Rota TcbPtr MutexPtr}

theorem State.rota_eq (hmembers : t.threads = r.members)
    (hready : t.queues (.level 0) = r.places .ready)
    (hwait : ∀ m, t.queues (.wait m) = r.places (.waiting m))
    (hhand : ∀ p, t.hand p = r.places (.hand p))
    (hfinished : ∀ p, p ∈ r.finished ↔ p ∈ t.threads ∧ (t.tcbs p).state = .terminated)
    (hstays : r.stays = true ↔ t.afterUnlockPriority ≠ -1)
    (hrunning : r.running = if t.threads = [] then none else some t.cpu.owner) : t.rota = r := by
  obtain ⟨members, places, finished, stays, running⟩ := r
  dsimp only at *
  unfold State.rota
  congr 1
  · refine Lists.ext (funext fun x => ?_)
    cases x with
    | ready => exact hready
    | waiting m => exact hwait m
    | hand p => exact hhand p
  · exact Set.ext fun p => (hfinished p).symm
  · exact Bool.eq_iff_iff.mpr (by simp [hstays])
  · exact hrunning.symm

@[simp] theorem rota_ready (t : State TcbLists) : t.rota.places .ready = t.queues (.level 0) := rfl

@[simp] theorem rota_waiting (t : State TcbLists) (m : MutexPtr) :
    t.rota.places (.waiting m) = t.queues (.wait m) := rfl

@[simp] theorem rota_hand (t : State TcbLists) (p : TcbPtr) :
    t.rota.places (.hand p) = t.hand p := rfl

structure Alike (t t' : State TcbLists) : Prop where
  threads : t'.threads = t.threads
  queues : t'.queues = t.queues
  hand : ∀ p ∈ t.threads, (t'.contextOf p).pc.inHand = (t.contextOf p).pc.inHand
  finished : ∀ p ∈ t.threads, (t'.tcbs p).state = .terminated ↔ (t.tcbs p).state = .terminated
  afterUnlock : t'.afterUnlockPriority = t.afterUnlockPriority
  owner : t'.cpu.owner = t.cpu.owner

theorem Alike.handEq (h : Alike t t') (p : TcbPtr) : t'.hand p = t.hand p := by
  unfold State.hand
  rw [h.threads]
  split_ifs with hp
  · exact h.hand p hp
  · rfl

theorem Alike.rota (h : Alike t t') : t'.rota = t.rota := by
  refine State.rota_eq h.threads (congrArg (· (.level 0)) h.queues)
    (fun m => congrArg (· (.wait m)) h.queues) h.handEq (fun p => ?_) ?_ ?_
  · rw [h.threads]
    exact and_congr_right fun hp => (h.finished p hp).symm
  · rw [h.afterUnlock]
    exact decide_eq_true_iff
  · rw [h.threads, h.owner]
    rfl

theorem Pc.inHand_interrupted (pc : Pc) : pc.interrupted.inHand = pc.inHand := by
  cases pc <;> rfl

theorem interrupt_inHand (t : State TcbLists) (p : TcbPtr) :
    (t.interrupt.contextOf p).pc.inHand = (t.contextOf p).pc.inHand := by
  rcases interrupt_contextOf t p with heq | heq <;> rw [heq]
  exact Pc.inHand_interrupted _

theorem Local.handOf (h : Local t t') (hmem : t.cpu.owner ∈ t.threads) (p : TcbPtr) :
    t'.hand p = if p = t.cpu.owner then t'.cpu.pc.inHand else t.hand p := by
  unfold State.hand
  rw [h.threads]
  by_cases hp : p = t.cpu.owner
  · rw [if_pos hp, hp, if_pos hmem, ← h.owner, contextOf_self]
  · rw [if_neg hp, h.contextOf hp]

theorem State.hand_owner (hmem : t.cpu.owner ∈ t.threads) :
    t.hand t.cpu.owner = t.cpu.pc.inHand := by
  unfold State.hand
  rw [if_pos hmem, contextOf_self]

end Rotas

section Starts

variable {t t' : State TcbLists} {now start : Time} {fuel : ℕ}

/-- A thread that has not entered its wrapper has not terminated. -/
def Unstarted (t : State TcbLists) : Prop :=
  ∀ p ∈ t.threads, ∀ routine, (t.contextOf p).pc = .start routine → (t.tcbs p).state ≠ .terminated

theorem Unstarted.initial (storage : TcbPtr → Tcb) : Unstarted (State.initial noLists storage) :=
  fun _ hp => absurd hp List.not_mem_nil

theorem Unstarted.local (h : Unstarted t) (hl : Local t t')
    (hpc : ∀ routine, t'.cpu.pc ≠ .start routine)
    (hstate : ∀ p ∈ t.threads, p ≠ t.cpu.owner → (t'.tcbs p).state = (t.tcbs p).state) :
    Unstarted t' := by
  intro p hp routine heq
  rw [hl.threads] at hp
  by_cases hpo : p = t.cpu.owner
  · rw [hpo, ← hl.owner, contextOf_self] at heq
    exact absurd heq (hpc routine)
  · rw [hl.contextOf hpo] at heq
    rw [hstate p hp hpo]
    exact h p hp routine heq

theorem Unstarted.executes (h : Unstarted t) (he : Executes t t') : Unstarted t' := by
  refine h.local he.local ?_ fun p _ hp => (he.undisturbed hp).state
  intro routine hpc
  cases he with
  | @test m priority found => cases found <;> cases hpc
  | _ => cases hpc

theorem Unstarted.setPc (h : Unstarted t) {pc : Pc} (hpc : ∀ routine, pc ≠ .start routine) :
    Unstarted (t.setPc pc) := h.local (.setPc t pc) hpc fun _ _ _ => rfl

theorem Unstarted.tick (h : Unstarted t) (hp : Placed t)
    (ht : Scheduler.tick now start fuel t = .ok t') : Unstarted t' := by
  obtain ⟨-, hf, -⟩ := tick_outcome hp ht
  intro p hmem routine heq hdead
  rw [hf.context] at heq
  refine h p (hf.threads ▸ hmem) routine ?_ ((hf.tcbs p).terminated.mp hdead)
  rcases interrupt_contextOf t p with hsame | hpc
  · rw [← hsame, heq]
  · rw [hpc] at heq
    cases hpc' : (t.contextOf p).pc <;> rw [hpc'] at heq <;> first | exact heq | cases heq

theorem Unstarted.allocateTcb (h : Unstarted t) (hp : Placed t) (tid : ℕ) :
    Unstarted (t.allocateTcb tid) := by
  intro p hmem routine heq
  rw [allocateTcb_contextOf hp hmem] at heq
  have htcb : (t.allocateTcb tid).tcbs p = t.tcbs p :=
    Function.update_of_ne (hp.allocated p hmem).ne ..
  rw [htcb]
  exact h p hmem routine heq

theorem Unstarted.withMain (hnone : t.threads = []) : Unstarted t.withMain := by
  intro p hmem routine _
  obtain rfl : p = t.frontier := by simpa [State.withMain, State.created, hnone] using hmem
  have hready : (t.withMain.tcbs t.frontier).state = .ready :=
    congrArg Tcb.state (created_tcb_frontier t t.tid { t.cpu with owner := t.frontier })
  simp [hready]

theorem Unstarted.withNode (h : Unstarted t) (hp : Placed t) (routine : Routine) :
    Unstarted (t.withNode routine) := by
  intro p hmem routine' heq
  rcases List.mem_append.mp hmem with hmem | hmem
  · have hne := (hp.allocated p hmem).ne
    have htcb : (t.withNode routine).tcbs p = t.tcbs p := created_tcb_of_ne hne ..
    rw [htcb]
    exact h p hmem routine' ((congrArg Context.pc (created_contextOf_of_ne hne _ _)).symm.trans heq)
  · obtain rfl := List.mem_singleton.mp hmem
    have hready : ((t.withNode routine).tcbs t.frontier).state = .ready :=
      congrArg Tcb.state
        (created_tcb_frontier t (t.tid + 1) ⟨t.frontier, .start routine, []⟩)
    simp [hready]

theorem Unstarted.begun (h : Unstarted t) (hp : Placed t) : Unstarted t.begun := by
  obtain ⟨hthreads, -, hcpu, htcbs, -⟩ := hp.begun_threads
  intro p hmem routine heq
  rw [hthreads] at hmem
  simp only [State.contextOf, hcpu, htcbs] at heq ⊢
  exact h p hmem routine heq

theorem Unstarted.called {c : ClientCall} (h : Unstarted t) (hs : Steady t)
    (hpc : t.cpu.pc = .body) (hc : Called t c t') : Unstarted t' := by
  cases hc with
  | create hcreate =>
    have hbody : t.begun.cpu.pc = .body := by
      obtain ⟨-, -, hcpu, -⟩ := hs.toPlaced.begun_threads
      rwa [hcpu]
    refine hs.begun.creates_induction hs.toPlaced.begun.2 hbody hcreate (h.begun hs.toPlaced)
      Unstarted.withMain ?_ ?_
    · exact fun u tid hu _ _ h' => h'.allocateTcb hu tid
    · exact fun u routine hu _ _ _ h' => h'.withNode hu routine
  | mutexInit _ hu => rcases hu with rfl | ⟨-, rfl⟩ <;> exact h
  | lock => exact h.setPc (by simp)
  | unlock => exact h.setPc (by simp)
  | @exit value cur hcur =>
    obtain ⟨-, rfl⟩ := hs.current cur hcur
    intro p hmem routine heq
    rw [terminated_contextOf] at heq
    by_cases hp : p = t.cpu.owner
    · rw [hp, contextOf_self, hpc] at heq
      cases heq
    · have htcb : (t.setTcb t.cpu.owner { t.tcbs t.cpu.owner with
          returnValue := value, state := .terminated }).tcbs p = t.tcbs p :=
        Function.update_of_ne hp ..
      rw [htcb]
      exact h p hmem routine heq
  | notFound => exact h
  | join => exact h.setPc (by simp)
  | functionReturn => exact h.setPc (by simp)

theorem Unstarted.step {o : OpenEvent} (h : Unstarted t) (hr : Regular t) (hs : OpenStep t o t') :
    Unstarted t' := by
  cases hr.stepped hs with
  | tick hsteady ht => exact h.tick hsteady.toPlaced ht
  | call hsteady hpc hc => exact h.called hsteady hpc (ClientCall.called hsteady.toPlaced hc)
  | unlock => exact h.setPc (by simp)
  | next he => exact h.executes he

end Starts

section Statements

variable {t t' : State TcbLists}

theorem Local.alike (hl : Local t t') (hqueues : t'.queues = t.queues)
    (hpc : t'.cpu.pc.inHand = t.cpu.pc.inHand)
    (hfinished : ∀ p ∈ t.threads, (t'.tcbs p).state = .terminated ↔ (t.tcbs p).state = .terminated)
    (hafter : t'.afterUnlockPriority = t.afterUnlockPriority) : Alike t t' := by
  refine ⟨hl.threads, hqueues, fun p _ => ?_, hfinished, hafter, hl.owner⟩
  by_cases hp : p = t.cpu.owner
  · rw [hp, contextOf_self, ← hpc, ← hl.owner, contextOf_self]
  · rw [hl.contextOf hp]

/-- With a thread there, nobody is stranded. -/
theorem Regular.steady_of (h : Regular t) (hsome : t.threads ≠ []) : Steady t := by
  cases h with
  | steady h => exact h
  | stranded h => exact absurd h.noThread hsome

theorem Steady.running_rota (h : Steady t) (hsome : t.threads ≠ []) :
    t.rota.running = some t.cpu.owner ∧ t.cpu.owner ∈ t.threads :=
  ⟨if_neg hsome, h.running hsome⟩

theorem setTcb_state {p r : TcbPtr} {tcb : Tcb} :
    ((t.setTcb p tcb).tcbs r).state = if r = p then tcb.state else (t.tcbs r).state := by
  by_cases hr : r = p
  · subst hr
    rw [if_pos rfl]
    exact congrArg Tcb.state (Function.update_self ..)
  · rw [if_neg hr]
    exact congrArg Tcb.state (Function.update_of_ne hr ..)

theorem Executes.blocks {m : MutexPtr} {priority : ℤ} {p : TcbPtr} {l : List TcbPtr} (h : Regular t)
    (heq : t.cpu.pc = .lockMove m priority) (hq : t.queues (.level priority) = p :: l) :
    Rota.Step t.rota (OpenEvent.shows t (.event .next) t')
      ((t.withQueues (t.queues.move (.level priority) (.wait m) p l)).setPc
        (.lockPark m priority)).rota := by
  have hknown := h.placed.known _ p (hq ▸ List.mem_cons_self)
  have hsteady := h.steady_of (List.ne_nil_of_mem hknown)
  obtain ⟨-, hmem⟩ := hsteady.running_rota (List.ne_nil_of_mem hknown)
  have hsound := hsteady.soundPc (by rw [heq]; simp)
  rw [heq] at hsound
  obtain ⟨-, rfl⟩ := hsound
  have hshows : OpenEvent.shows t (.event .next) t' = .block m p := by
    simp only [OpenEvent.shows, heq, peek_level, hq]
    rfl
  have hlocal := (Executes.move heq hq).local
  have hrota : ((t.withQueues (t.queues.move (.level 0) (.wait m) p l)).setPc
      (.lockPark m 0)).rota = t.rota.move .ready (.waiting m) p l := by
    refine State.rota_eq rfl ?_ (fun m' => ?_) (fun r => ?_) (fun r => .rfl) decide_eq_true_iff rfl
    · simp [Rota.move, Lists.move_source]
    · by_cases hm : m' = m
      · subst hm
        simp [Rota.move, Lists.move_target]
      · simp [Rota.move, Lists.move_of_ne, hm]
    · rw [hlocal.handOf hmem]
      split_ifs with hr
      · subst hr
        simp [Rota.move, Lists.move_of_ne, State.hand_owner hmem, heq, Pc.inHand]
      · simp [Rota.move, Lists.move_of_ne]
  rw [hshows, hrota]
  exact .block hq

theorem Executes.takes {m : MutexPtr} {w : TcbPtr} {l : List TcbPtr} (h : Regular t)
    (heq : t.cpu.pc = .unlockDequeue m) (hq : t.queues (.wait m) = w :: l) :
    Rota.Step t.rota (OpenEvent.shows t (.event .next) t')
      ((t.withQueues (t.queues.set (.wait m) l)).setPc (.unlockSchedule m (some w))).rota := by
  have hknown := h.placed.known _ w (hq ▸ List.mem_cons_self)
  have hsteady := h.steady_of (List.ne_nil_of_mem hknown)
  obtain ⟨hrunning, hmem⟩ := hsteady.running_rota (List.ne_nil_of_mem hknown)
  have hshows : OpenEvent.shows t (.event .next) t' = .take m t.cpu.owner w := by
    have hpeek : QueueStore.peek (.wait m) t.queues = some w := congrArg List.head? hq
    simp only [OpenEvent.shows, heq, hpeek]
    rfl
  have hlocal := (Executes.waiter heq hq).local
  have hempty : t.hand t.cpu.owner = [] := (State.hand_owner hmem).trans (by rw [heq]; rfl)
  have hrota : ((t.withQueues (t.queues.set (.wait m) l)).setPc (.unlockSchedule m (some w))).rota =
      t.rota.move (.waiting m) (.hand t.cpu.owner) w l := by
    refine State.rota_eq rfl ?_ (fun m' => ?_) (fun r => ?_) (fun r => .rfl) decide_eq_true_iff rfl
    · simp [Rota.move, Lists.move_of_ne, Lists.set_of_ne]
    · by_cases hm : m' = m
      · subst hm
        simp [Rota.move, Lists.move_source]
      · simp [Rota.move, Lists.move_of_ne, Lists.set_of_ne, hm]
    · rw [hlocal.handOf hmem]
      split_ifs with hr
      · subst hr
        simp [Rota.move, Lists.move_target, hempty, Pc.inHand]
      · simp [Rota.move, Lists.move_of_ne, hr]
  rw [hshows, hrota]
  exact .take hrunning hempty hq

theorem Executes.wakes {m : MutexPtr} {w : TcbPtr} (h : Regular t)
    (heq : t.cpu.pc = .unlockSchedule m (some w)) :
    Rota.Step t.rota (OpenEvent.shows t (.event .next) t')
      ((t.scheduled w).setPc (.unlockMark m)).rota := by
  have hsteady : Steady t := by
    cases h with
    | steady h => exact h
    | stranded h => exact absurd heq (h.no_transit m w)
  have hmem := hsteady.owner_mem (by rw [heq]; simp)
  obtain ⟨hrunning, -⟩ := hsteady.running_rota (List.ne_nil_of_mem hmem)
  have hsound := hsteady.soundPc (by rw [heq]; simp)
  rw [heq] at hsound
  have hshows : OpenEvent.shows t (.event .next) t' = .wake t.cpu.owner w := by
    simp only [OpenEvent.shows, heq]
  have hhand : t.hand t.cpu.owner = [w] := (State.hand_owner hmem).trans (by rw [heq]; rfl)
  have hlocal := (Executes.wake heq).local
  have hrota : ((t.scheduled w).setPc (.unlockMark m)).rota =
      t.rota.move (.hand t.cpu.owner) .ready w [] := by
    rw [scheduled_eq (hsteady.priority w hsound.1)] at hlocal ⊢
    refine State.rota_eq rfl ?_ (fun m' => ?_) (fun r => ?_) (fun r => .rfl) decide_eq_true_iff rfl
    · simp [Rota.move, Lists.move_target]
    · simp [Rota.move, Lists.move_of_ne, Lists.set_of_ne]
    · rw [hlocal.handOf hmem]
      split_ifs with hr
      · subst hr
        simp [Rota.move, Lists.move_source, Pc.inHand]
      · simp [Rota.move, Lists.move_of_ne, hr]
  rw [hshows, hrota]
  exact .wake hrunning hhand

theorem Steady.finishes (h : Steady t) (hsome : t.threads ≠ []) (hl : Local t t')
    (hqueues : t'.queues = t.queues) (hpc : t'.cpu.pc.inHand = t.cpu.pc.inHand)
    (hdead : (t'.tcbs t.cpu.owner).state = .terminated)
    (hstate : ∀ p ∈ t.threads, p ≠ t.cpu.owner → (t'.tcbs p).state = (t.tcbs p).state)
    (hafter : t'.afterUnlockPriority = t.afterUnlockPriority) :
    Rota.Step t.rota (.finish t.cpu.owner) t'.rota := by
  obtain ⟨hrunning, hmem⟩ := h.running_rota hsome
  have hrota : t'.rota = { t.rota with finished := insert t.cpu.owner t.rota.finished } := by
    refine State.rota_eq hl.threads (congrArg (· (.level 0)) hqueues)
      (fun m => congrArg (· (.wait m)) hqueues) (fun p => ?_) (fun p => ?_) ?_ ?_
    · rw [hl.handOf hmem]
      split_ifs with hp
      · subst hp
        rw [hpc, ← State.hand_owner hmem]
        rfl
      · rfl
    · rw [hl.threads, Set.mem_insert_iff]
      by_cases hp : p = t.cpu.owner
      · subst hp
        exact iff_of_true (Or.inl rfl) ⟨hmem, hdead⟩
      · rw [or_iff_right hp]
        exact and_congr_right fun hp' => by rw [hstate p hp' hp]
    · rw [hafter]
      exact decide_eq_true_iff
    · rw [hl.threads, hl.owner]
      rfl
  rw [hrota]
  exact .finish hrunning

theorem Regular.executes_rota (h : Regular t) (hu : Unstarted t) (he : Executes t t') :
    Rota.Step t.rota (OpenEvent.shows t (.event .next) t') t'.rota := by
  have hlocal := he.local
  have hsteady : t.cpu.pc.withoutWaiter = false → Steady t := by
    intro hpc
    cases h with
    | steady h => exact h
    | stranded h => cases hpc.symm.trans h.unlocking
  -- a statement that moves no thread and ends none
  have hquiet : OpenEvent.shows t (.event .next) t' = .quiet → t'.queues = t.queues →
      t'.cpu.pc.inHand = t.cpu.pc.inHand → (∀ p ∈ t.threads,
        (t'.tcbs p).state = .terminated ↔ (t.tcbs p).state = .terminated) →
      t'.afterUnlockPriority = t.afterUnlockPriority →
      Rota.Step t.rota (OpenEvent.shows t (.event .next) t') t'.rota := by
    intro hshows hqueues hpc hfinished hafter
    rw [hshows, (hlocal.alike hqueues hpc hfinished hafter).rota]
    exact .quiet
  cases he with
  | @start routine heq =>
    have hs := hsteady (by rw [heq]; rfl)
    have hmem := hs.owner_mem (by rw [heq]; simp)
    have hlive := hu _ hmem routine (by rw [contextOf_self, heq])
    refine hquiet (by simp only [OpenEvent.shows, heq]) rfl (by rw [heq]; rfl) (fun p _ => ?_) rfl
    change ((t.setTcb t.cpu.owner { t.tcbs t.cpu.owner with state := .running }).tcbs p).state =
      .terminated ↔ _
    rw [setTcb_state]
    split_ifs with hp
    · subst hp
      exact iff_of_false (by simp) hlive
    · rfl
  | @test m priority found heq =>
    refine hquiet (by simp only [OpenEvent.shows, heq]) rfl ?_ (fun _ _ => .rfl) rfl
    rw [heq]
    cases found <;> rfl
  | move heq hq => exact Executes.blocks h heq hq
  | park heq =>
    exact hquiet (by simp only [OpenEvent.shows, heq]) rfl (by rw [heq]; rfl) (fun _ _ => .rfl) rfl
  | acquire heq =>
    exact hquiet (by simp only [OpenEvent.shows, heq]) rfl (by rw [heq]; rfl) (fun _ _ => .rfl) rfl
  | release heq =>
    exact hquiet (by simp only [OpenEvent.shows, heq]) rfl (by rw [heq]; rfl) (fun _ _ => .rfl) rfl
  | @noWaiter m heq hq =>
    have hpeek : QueueStore.peek (.wait m) t.queues = none := congrArg List.head? hq
    refine hquiet ?_ rfl (by rw [heq]; rfl) (fun _ _ => .rfl) rfl
    simp only [OpenEvent.shows, heq, hpeek]
    rfl
  | waiter heq hq => exact Executes.takes h heq hq
  | pass heq =>
    exact hquiet (by simp only [OpenEvent.shows, heq]) rfl (by rw [heq]; rfl) (fun _ _ => .rfl) rfl
  | wake heq => exact Executes.wakes h heq
  | @mark m cur heq hcur =>
    obtain ⟨hmem, -⟩ := h.placed.current cur hcur
    have hsome := List.ne_nil_of_mem hmem
    have hrota : ({ t with afterUnlockPriority := (t.tcbs cur).priority }.setPc .body).rota =
        { t.rota with stays := true } := by
      have hpriority := h.placed.priority cur hmem
      refine State.rota_eq rfl rfl (fun _ => rfl) (fun p => ?_) (fun _ => .rfl) ?_ rfl
      · rw [hlocal.handOf (h.placed.running hsome)]
        split_ifs with hp
        · subst hp
          exact ((State.hand_owner (h.placed.running hsome)).trans (by rw [heq]; rfl)).symm
        · rfl
      · simp [hpriority]
    have hshows : ∀ u, OpenEvent.shows t (.event .next) u = .stay := fun u => by
      simp only [OpenEvent.shows, heq]
    rw [hshows, hrota]
    refine .stay ?_
    rw [((h.steady_of hsome).running_rota hsome).1]
    simp
  | joined heq =>
    exact hquiet (by simp only [OpenEvent.shows, heq]) rfl (by rw [heq]; rfl) (fun _ _ => .rfl) rfl
  | exited heq =>
    exact hquiet (by simp only [OpenEvent.shows, heq]) rfl (by rw [heq]; rfl) (fun _ _ => .rfl) rfl
  | notExited heq =>
    exact hquiet (by simp only [OpenEvent.shows, heq]) rfl (by rw [heq]; rfl) (fun _ _ => .rfl) rfl
  | @store value heq =>
    refine hquiet (by simp only [OpenEvent.shows, heq]) rfl (by rw [heq]; rfl) (fun p _ => ?_) rfl
    change ((t.setTcb t.cpu.owner { t.tcbs t.cpu.owner with returnValue := value }).tcbs p).state =
      .terminated ↔ _
    rw [setTcb_state]
    split_ifs with hp
    · rw [hp]
    · rfl
  | terminate heq =>
    have hs := hsteady (by rw [heq]; rfl)
    have hmem := hs.owner_mem (by rw [heq]; simp)
    have hshows : ∀ u, OpenEvent.shows t (.event .next) u = .finish t.cpu.owner := fun u => by
      simp only [OpenEvent.shows, heq]
    rw [hshows]
    refine hs.finishes (List.ne_nil_of_mem hmem) hlocal rfl (by rw [heq]; rfl) ?_ (fun p _ hp => ?_)
      rfl
    · exact setTcb_state.trans (if_pos rfl)
    · exact setTcb_state.trans (if_neg hp)

end Statements

section Creations

variable {t t' : State TcbLists}

theorem allocateTcb_rota (h : Placed t) (tid : ℕ) : (t.allocateTcb tid).rota = t.rota := by
  have htcb : ∀ p ∈ t.threads, (t.allocateTcb tid).tcbs p = t.tcbs p :=
    fun p hp => Function.update_of_ne (h.allocated p hp).ne ..
  refine Alike.rota ⟨rfl, rfl, fun p hp => ?_, fun p hp => ?_, rfl, rfl⟩
  · rw [allocateTcb_contextOf h hp]
  · rw [htcb p hp]

theorem withMain_rota (hnone : t.threads = []) (hpc : t.cpu.pc = .body) :
    t.withMain.rota = t.rota.enrol [t.frontier] := by
  have hthreads : t.withMain.threads = [t.frontier] := by
    simp [State.withMain, State.created, hnone]
  have hempty : ∀ p, t.hand p = [] := fun p => if_neg (by simp [hnone])
  refine State.rota_eq rfl ?_ (fun m => ?_) (fun p => ?_) (fun p => ?_) decide_eq_true_iff ?_
  · exact Lists.set_self.trans Lists.set_self.symm
  · simp [State.withMain, State.created, Rota.enrol, Lists.set_of_ne]
  · have hnew : t.withMain.contextOf t.frontier = t.withMain.cpu := contextOf_self t.withMain
    have hhand : t.withMain.hand p = [] := by
      unfold State.hand
      rw [hthreads]
      split_ifs with hp
      · rw [List.mem_singleton.mp hp, hnew]
        exact (congrArg Pc.inHand hpc)
      · rfl
    simp [hhand, Rota.enrol, Lists.set_of_ne, hempty]
  · refine iff_of_false (fun hp => ?_) fun hp => ?_
    · exact absurd hp.1 (by simp [hnone])
    · obtain ⟨hmem, hdead⟩ := hp
      rw [hthreads, List.mem_singleton] at hmem
      subst hmem
      have hready : (t.withMain.tcbs t.frontier).state = .ready :=
        congrArg Tcb.state (created_tcb_frontier t t.tid { t.cpu with owner := t.frontier })
      rw [hready] at hdead
      cases hdead
  · simp [Rota.enrol, State.rota, hnone, State.withMain, State.created]

theorem withNode_rota (h : Placed t) (hsome : t.threads ≠ []) (routine : Routine) :
    (t.withNode routine).rota = t.rota.enrol [t.frontier] := by
  have hold : ∀ p ∈ t.threads, p ≠ t.frontier := fun p hp => (h.allocated p hp).ne
  have hnew : ((t.withNode routine).contextOf t.frontier).pc = .start routine :=
    congrArg Context.pc (created_contextOf_frontier (hold _ (h.running hsome)) _ _)
  have hthreads : (t.withNode routine).threads = t.threads ++ [t.frontier] := rfl
  refine State.rota_eq rfl ?_ (fun m => ?_) (fun p => ?_) (fun p => ?_) decide_eq_true_iff ?_
  · exact Lists.set_self.trans Lists.set_self.symm
  · simp [State.withNode, State.created, Rota.enrol, Lists.set_of_ne]
  · have hhand : (t.withNode routine).hand p = t.hand p := by
      unfold State.hand
      rw [hthreads]
      by_cases hp : p ∈ t.threads
      · rw [if_pos hp, if_pos (List.mem_append_left _ hp)]
        exact congrArg (fun c => c.pc.inHand) (created_contextOf_of_ne (hold p hp) _ _)
      · rw [if_neg hp]
        split_ifs with hp'
        · obtain rfl : p = t.frontier := by simpa [hp] using hp'
          rw [hnew]
          rfl
        · rfl
    simp [hhand, Rota.enrol, Lists.set_of_ne]
  · rw [hthreads, List.mem_append, List.mem_singleton]
    by_cases hp : p = t.frontier
    · subst hp
      have hready : ((t.withNode routine).tcbs t.frontier).state = .ready := congrArg Tcb.state
        (created_tcb_frontier t (t.tid + 1) ⟨t.frontier, .start routine, []⟩)
      refine iff_of_false (fun hdead => hold _ hdead.1 rfl) fun hdead => ?_
      rw [hready] at hdead
      cases hdead.2
    · have htcb : (t.withNode routine).tcbs p = t.tcbs p := created_tcb_of_ne hp ..
      rw [htcb, or_iff_left hp]
      rfl
  · simp [Rota.enrol, State.rota, hsome, State.withNode, State.created]

theorem Steady.creates_rota {ok : Bool} (h : Steady t) (hinit : t.schedulerInit = true)
    (hpc : t.cpu.pc = .body) (hc : Creates t ok t') :
    ∃ ps, t'.threads = t.threads ++ ps ∧ t'.rota = t.rota.enrol ps := by
  refine h.creates_induction (I := fun u => ∃ ps, u.threads = t.threads ++ ps ∧
    u.rota = t.rota.enrol ps) hinit hpc hc ⟨[], by simp, (Rota.enrol_nil _).symm⟩ ?_ ?_ ?_
  · exact fun hnone => ⟨[t.frontier], rfl, withMain_rota hnone hpc⟩
  · rintro u tid hu - - ⟨ps, hps, hrota⟩
    exact ⟨ps, hps, (allocateTcb_rota hu tid).trans hrota⟩
  · rintro u routine hu - hsome - ⟨ps, hps, hrota⟩
    refine ⟨ps ++ [u.frontier], ?_, ?_⟩
    · rw [← List.append_assoc, ← hps]
      rfl
    · rw [withNode_rota hu hsome, hrota, Rota.enrol_enrol]

theorem Placed.begun_rota (h : Placed t) : t.begun.rota = t.rota := by
  obtain ⟨hthreads, -, hcpu, htcbs, hqueues, -⟩ := h.begun_threads
  have hcontext : ∀ p, t.begun.contextOf p = t.contextOf p := fun p => by
    simp only [State.contextOf, hcpu, htcbs]
  have hafter : t.begun.afterUnlockPriority = t.afterUnlockPriority := by
    rcases h.begun_eq with ⟨-, heq⟩ | ⟨-, heq⟩ <;> rw [heq]
  refine Alike.rota ⟨hthreads, hqueues, fun p _ => ?_, fun p _ => ?_, hafter, by rw [hcpu]⟩
  · rw [hcontext]
  · rw [htcbs]

theorem Steady.called_rota {c : ClientCall} (h : Steady t) (hpc : t.cpu.pc = .body)
    (hc : Called t c t') :
    Rota.Step t.rota (OpenEvent.shows t (.event (.call c)) t') t'.rota := by
  -- a call that only moves the program counter
  have hset : ∀ pc, Pc.inHand pc = [] → (t.setPc pc).rota = t.rota := fun pc hpc' =>
    ((Local.setPc t pc).alike rfl (by rw [hpc]; exact hpc') (fun _ _ => .rfl) rfl).rota
  cases hc with
  | @create mainContext nodeContext routine ok _ hcreate =>
    obtain ⟨hthreads, -, hcpu, -⟩ := h.toPlaced.begun_threads
    obtain ⟨ps, hps, hrota⟩ := h.begun.creates_rota h.toPlaced.begun.2 (by rwa [hcpu]) hcreate
    have hnodup := (h.begun.creates h.toPlaced.begun.2 hcreate).nodup
    rw [hps, hthreads] at hnodup
    have hshows : OpenEvent.shows t (.event (.call (.create mainContext nodeContext routine))) t' =
        .enrol ps := by
      simp only [OpenEvent.shows, hps, hthreads, List.drop_left]
    rw [hshows, hrota, h.toPlaced.begun_rota]
    obtain ⟨-, hps', hdisjoint⟩ := List.nodup_append.mp hnodup
    exact .enrol hps' fun p hp hmem => hdisjoint p hmem p hp rfl
  | @mutexInit m u _ hu =>
    have halike : Alike t u := by
      rcases hu with rfl | ⟨-, rfl⟩ <;>
        exact ⟨rfl, rfl, fun _ _ => rfl, fun _ _ => .rfl, rfl, rfl⟩
    have hrota : State.rota { u with
        mutexes := Function.update t.mutexes m (some .unlocked) } = t.rota := halike.rota
    rw [hrota]
    exact .quiet
  | lock =>
    rw [hset _ rfl]
    exact .quiet
  | unlock =>
    rw [hset _ rfl]
    exact .quiet
  | @exit value cur hcur =>
    obtain ⟨hmem, rfl⟩ := h.current cur hcur
    have hlocal : Local t (t.setTcb t.cpu.owner { t.tcbs t.cpu.owner with
        returnValue := value, state := .terminated }) :=
      { Local.setPc t t.cpu.pc with contexts := setTcb_context rfl }
    refine h.finishes (List.ne_nil_of_mem hmem) hlocal rfl rfl ?_ (fun p _ hp => ?_) rfl
    · exact setTcb_state.trans (if_pos rfl)
    · exact setTcb_state.trans (if_neg hp)
  | notFound => exact .quiet
  | join =>
    rw [hset _ rfl]
    exact .quiet
  | functionReturn =>
    rw [hset _ rfl]
    exact .quiet

end Creations

section Signals

variable {t t' : State TcbLists} {now start : Time} {fuel : ℕ}

theorem rotate_wait (t : State TcbLists) (p : TcbPtr) (l : List TcbPtr) (m : MutexPtr) :
    (t.rotate p l).queues (.wait m) = t.queues (.wait m) := by
  unfold State.rotate State.preempt
  split_ifs <;> exact Lists.set_of_ne (by simp)

theorem Dispatched.wait (hd : Dispatched start t t') (m : MutexPtr) :
    t'.queues (.wait m) = t.queues (.wait m) := by
  obtain ⟨p, l, n, -, -, rfl⟩ := hd
  exact Lists.set_of_ne (by simp)

theorem Handled.wait (hh : Handled now start t t') (m : MutexPtr) :
    t'.queues (.wait m) = t.queues (.wait m) := by
  cases hh with
  | within => rfl
  | rotated _ _ _ _ hd => exact (hd.wait m).trans (rotate_wait _ _ _ m)
  | resumed _ _ _ _ hd => exact hd.wait m
  | idle => rfl

theorem Frame.hand (hf : Frame t.interrupt t') (p : TcbPtr) : t'.hand p = t.hand p := by
  have hthreads : t'.threads = t.threads := hf.threads
  unfold State.hand
  rw [hthreads, hf.context, interrupt_inHand]

theorem shows_within {cur : TcbPtr} (hcur : t.currentTcb = some cur) :
    OpenEvent.shows t (.event (.tick now start)) t.interrupt = .quiet := by
  have hcur' : t.interrupt.currentTcb = some cur := hcur
  simp only [OpenEvent.shows, hcur']
  exact if_pos rfl

theorem Idled.shows (h : Idled t.interrupt t') :
    OpenEvent.shows t (.event (.tick now start)) t' = .idle := by
  simp only [OpenEvent.shows, h.current]

theorem Turned.shows {p : TcbPtr} {l : List TcbPtr} (h : Turned t t' p l) :
    OpenEvent.shows t (.event (.tick now start)) t' = .turn p := by
  have hmore : t'.dispatches ≠ t.dispatches := by
    rw [h.dispatches]
    simp
  simp only [OpenEvent.shows, h.current]
  exact if_neg hmore

theorem Steady.tick_rota (h : Steady t) (ht : Scheduler.tick now start fuel t = .ok t') :
    Rota.Step t.rota (OpenEvent.shows t (.event (.tick now start)) t') t'.rota := by
  obtain ⟨hh, hf, -⟩ := tick_outcome h.toPlaced ht
  have hthreads : t'.threads = t.threads := hf.threads
  have hfinished : ∀ p, p ∈ t.rota.finished ↔ p ∈ t'.threads ∧ (t'.tcbs p).state = .terminated := by
    intro p
    rw [hthreads]
    exact and_congr_right fun _ => (hf.tcbs p).terminated.symm
  rcases h.toPlaced.ticked ht with ⟨⟨cur, hcur, -⟩, rfl⟩ | ⟨⟨cur, hcur, -⟩, hidle | hturn⟩
  · have hrota : t.interrupt.rota = t.rota :=
      Alike.rota ⟨rfl, rfl, fun p _ => interrupt_inHand t p, fun _ _ => .rfl, rfl, rfl⟩
    rw [hrota, shows_within hcur]
    exact .quiet
  · have hempty : t.queues (.level 0) = [] := hidle.empty
    have hempty' : t'.queues (.level 0) = [] := List.perm_nil.mp (hempty ▸ hf.queues (.level 0))
    have hrota : t'.rota = { t.rota with stays := false } := by
      refine State.rota_eq hthreads (hempty'.trans hempty.symm) hh.wait hf.hand hfinished ?_ ?_
      · simp [hidle.afterUnlock]
      · rw [hthreads, hidle.cpu]
        rfl
    rw [hrota, hidle.shows]
    exact .idle hempty (decide_eq_true hidle.pending)
  · obtain ⟨dead, p, rest, hfirst, hturned⟩ := hturn
    have hsome : t.threads ≠ [] := List.ne_nil_of_mem (h.current cur hcur).1
    have hrota : t'.rota = t.rota.giveTurn p (rest ++ dead) := by
      refine State.rota_eq hthreads (hturned.level.trans Lists.set_self.symm) (fun m => ?_)
        (fun r => ?_) hfinished ?_ ?_
      · simpa [Rota.giveTurn, Lists.set_of_ne] using hh.wait m
      · simpa [Rota.giveTurn, Lists.set_of_ne] using hf.hand r
      · simp [Rota.giveTurn, hturned.afterUnlock]
      · rw [hthreads, if_neg hsome, hturned.owner]
        rfl
    have hlineup : t.rota.lineup = dead ++ p :: rest := by
      rw [← hfirst.split]
      by_cases hafter : t.afterUnlockPriority = -1 <;>
        simp [Rota.lineup, State.lineup, State.rota, hafter]
    have hmem : ∀ r ∈ t.rota.lineup, r ∈ t.threads := fun r hr =>
      h.known _ r (t.rota.lineup_perm.mem_iff.mp hr)
    rw [hrota, hturned.shows]
    refine .turn hlineup (fun q hq => ⟨hmem q ?_, hfirst.dead q hq⟩) fun hp => hfirst.live hp.2
    rw [hlineup]
    exact List.mem_append_left _ hq

/-- Every step of every interleaving is a step of the rota, and shows which. -/
theorem Regular.step_rota {o : OpenEvent} (h : Regular t) (hu : Unstarted t)
    (hs : OpenStep t o t') : Rota.Step t.rota (o.shows t t') t'.rota := by
  cases h.stepped hs with
  | tick hsteady ht => exact hsteady.tick_rota ht
  | call hsteady hpc hc => exact hsteady.called_rota hpc (ClientCall.called hsteady.toPlaced hc)
  | @unlock m _ hpc =>
    have hrota : (t.setPc (.unlockRelease m)).rota = t.rota :=
      ((Local.setPc t (.unlockRelease m)).alike rfl (by rw [hpc]; rfl) (fun _ _ => .rfl) rfl).rota
    rw [hrota]
    exact .quiet
  | next he => exact h.executes_rota hu he

end Signals

section Runs

variable {s s' : State TcbLinks} {t t' : State TcbLists} {o : OpenEvent}

theorem Refines.shows (hr : Refines s t) (hr' : Refines s' t') : o.shows s s' = o.shows t t' := by
  obtain ⟨L, hL, rfl⟩ := hr
  obtain ⟨L', hL', rfl⟩ := hr'
  have hpeek : ∀ q, QueueStore.peek q L = QueueStore.peek q t.queues := hL.peek
  cases o with
  | unlock m => rfl
  | event e =>
    cases e with
    | tick now start => rfl
    | call c => cases c <;> rfl
    | next =>
      simp only [OpenEvent.shows, State.withQueues_cpu, State.withQueues_queues, hpeek]

theorem Placed.follows {L : TcbLinks} (h : Placed t) (hL : Agrees L t.queues) :
    Follows (t.withQueues L) t.rota where
  members := rfl
  ready := (hL.denotes (.level 0)).chain
  lower i hi := by
    have hchain := (hL.denotes (.level i)).chain
    rw [h.levels hi] at hchain
    exact hchain.head_eq
  waiting m := (hL.denotes (.wait m)).chain
  hand _ := rfl
  finished _ := .rfl
  stays := decide_eq_true_iff
  running := rfl

theorem shows_next (t t' : State TcbLists) :
    (OpenEvent.shows t (.event .next) t').turned = none := by
  cases hpc : t.cpu.pc with
  | lockMove m priority =>
    simp only [OpenEvent.shows, hpc]
    cases QueueStore.peek (.level priority) t.queues <;> rfl
  | unlockDequeue m =>
    simp only [OpenEvent.shows, hpc]
    cases QueueStore.peek (.wait m) t.queues <;> rfl
  | unlockSchedule m node =>
    cases node <;> simp only [OpenEvent.shows, hpc] <;> rfl
  | _ =>
    simp only [OpenEvent.shows, hpc]
    rfl

theorem Regular.shows_dispatches (h : Regular t) (hs : OpenStep t o t') :
    t'.dispatches = t.dispatches ++ (o.shows t t').turned.toList := by
  have hquiet : (o.shows t t').turned = none → t'.dispatches = t.dispatches →
      t'.dispatches = t.dispatches ++ (o.shows t t').turned.toList := by
    intro hnone hsame
    rw [hnone, hsame]
    exact (List.append_nil _).symm
  cases h.stepped hs with
  | tick hsteady ht =>
    rcases hsteady.toPlaced.ticked ht with ⟨⟨cur, hcur, -⟩, rfl⟩ | ⟨-, hidle | hturn⟩
    · exact hquiet (by rw [shows_within hcur]; rfl) rfl
    · exact hquiet (by rw [hidle.shows]; rfl) hidle.dispatches
    · obtain ⟨dead, p, rest, -, hturned⟩ := hturn
      rw [hturned.shows]
      exact hturned.dispatches
  | @call c _ _ hsteady hpc hc =>
    have hcalled := ClientCall.called hsteady.toPlaced hc
    refine hquiet (by cases c <;> rfl) ?_
    cases hcalled with
    | create hcreate =>
      obtain ⟨-, -, hcpu, -, -, -, -, hdispatches⟩ := hsteady.toPlaced.begun_threads
      refine hsteady.begun.creates_induction (I := fun u => u.dispatches = t.dispatches)
        hsteady.toPlaced.begun.2 (by rwa [hcpu]) hcreate hdispatches (fun _ => hdispatches) ?_ ?_
      · exact fun _ _ _ _ _ hu => hu
      · exact fun _ _ _ _ _ _ hu => hu
    | mutexInit _ hu => rcases hu with rfl | ⟨-, rfl⟩ <;> rfl
    | _ => rfl
  | unlock => exact hquiet rfl rfl
  | next he => exact hquiet (shows_next t t') he.local.dispatches

/-- A run of the linked scheduler, from a state that lists describe, is a run of the rota. -/
theorem run_rota {C : State TcbLinks × List (Happening TcbPtr MutexPtr) → OpenEvent → Prop}
    {D : Rota TcbPtr MutexPtr → Happening TcbPtr MutexPtr → Prop}
    (hcond : ∀ L t es o t', Agrees L t.queues → Regular t → OpenStep t o t' →
      C (t.withQueues L, es) o → D t.rota (o.shows t t'))
    {x₀ x : State TcbLinks × List (Happening TcbPtr MutexPtr)} {os : List OpenEvent}
    (h : Run (Guarded C ShowingStep) x₀ os x) {t₀ : State TcbLists} (hr₀ : Refines x₀.1 t₀)
    (hreg₀ : Regular t₀) (hun₀ : Unstarted t₀) :
    ∃ t es, Refines x.1 t ∧ Regular t ∧ Unstarted t ∧ x.2 = x₀.2 ++ es ∧
      t.dispatches = t₀.dispatches ++ es.filterMap Happening.turned ∧
        Run (Guarded D Rota.Step) t₀.rota es t.rota := by
  induction h with
  | nil => exact ⟨t₀, [], hr₀, hreg₀, hun₀, by simp, by simp, .nil⟩
  | @snoc os x o y _ hs ih =>
    obtain ⟨t, es, hr, hreg, hun, hes, hdispatches, hrun⟩ := ih
    obtain ⟨hC, hstep, hshown⟩ := hs
    obtain ⟨t', hstep', hr', hreg'⟩ := hstep.simulates hr hreg
    have hshows : o.shows x.1 y.1 = o.shows t t' := hr.shows hr'
    have hD : D t.rota (o.shows t t') := by
      obtain ⟨s, shown⟩ := x
      obtain ⟨L, hL, rfl⟩ := hr
      exact hcond L t shown o t' hL hreg hstep' hC
    refine ⟨t', es ++ [o.shows t t'], hr', hreg', hun.step hreg hstep', ?_, ?_, ?_⟩
    · rw [hshown, hshows, hes, List.append_assoc]
    · rw [hreg.shows_dispatches hstep', hdispatches, List.filterMap_append, List.append_assoc]
      cases hturned : (o.shows t t').turned <;> simp [hturned]
    · exact hrun.snoc ⟨hD, hreg.step_rota hun hstep'⟩

theorem run_rota_initial {storage : TcbPtr → Tcb} {os : List OpenEvent} {s : State TcbLinks}
    {es : List (Happening TcbPtr MutexPtr)}
    (h : Run ShowingStep (State.initial noLinks storage, []) os (s, es)) :
    ∃ t, Refines s t ∧ Regular t ∧ Unstarted t ∧
      s.dispatches = es.filterMap Happening.turned ∧ Run Rota.Step Rota.empty es t.rota := by
  have hguarded : Run (Guarded (fun _ _ => True) ShowingStep) (State.initial noLinks storage, [])
      os (s, es) := h.mono fun _ _ _ hs => ⟨trivial, hs⟩
  have hr₀ : Refines (State.initial noLinks storage) (State.initial noLists storage) :=
    ⟨noLinks, noLinks_agrees, rfl⟩
  obtain ⟨t, es', hr, hreg, hun, hes, hdispatches, hrun⟩ := run_rota (D := fun _ _ => True)
    (fun _ _ _ _ _ _ _ _ _ => trivial) hguarded hr₀ (.steady (.initial storage))
    (.initial storage)
  obtain rfl : es = es' := hes
  have hempty : (State.initial noLists storage).rota = Rota.empty := by
    refine State.rota_eq rfl rfl (fun _ => rfl) (fun _ => rfl) (fun p => ?_) ?_ rfl
    · exact iff_of_false (Set.notMem_empty p) fun hp => absurd hp.1 List.not_mem_nil
    · simp [Rota.empty, State.initial]
  rw [hempty] at hrun
  refine ⟨t, hr, hreg, hun, ?_, hrun.mono fun _ _ _ hs => hs.2⟩
  obtain ⟨L, -, rfl⟩ := hr
  exact hdispatches

end Runs

/-- Every interleaving of the linked scheduler is a run of the rota, with the same turns. -/
theorem scheduler_keeps_rota {storage : TcbPtr → Tcb} {os : List OpenEvent} {s : State TcbLinks}
    {es : List (Happening TcbPtr MutexPtr)}
    (h : Run ShowingStep (State.initial noLinks storage, []) os (s, es)) :
    ∃ r, Run Rota.Step Rota.empty es r ∧ Follows s r ∧
      s.dispatches = es.filterMap Happening.turned := by
  obtain ⟨t, ⟨L, hL, rfl⟩, hreg, -, hdispatches, hrun⟩ := run_rota_initial h
  exact ⟨t.rota, hrun, hreg.placed.follows hL, hdispatches⟩

/-- Thread 1 waits for a mutex that main has locked, and main wakes it. -/
def waitAndWake : List OpenEvent :=
  [.event (.call (.create true true ⟨1, 0⟩)), .event (.call (.mutexInit 7)),
    .event (.call (.lock 7)), .event .next, .event .next, .event (.tick ⟨1, 0⟩ ⟨1, 0⟩),
    .event .next, .event (.call (.lock 7)), .event .next, .event .next, .event .next,
    .event (.tick ⟨2, 0⟩ ⟨2, 0⟩), .event (.call (.unlock 7)), .event .next, .event .next,
    .event .next, .event .next]

def shownByWaitAndWake : List (Happening TcbPtr MutexPtr) :=
  [.enrol [0, 1], .quiet, .quiet, .quiet, .quiet, .turn 1, .quiet, .quiet, .quiet, .block 7 1,
    .quiet, .turn 0, .quiet, .quiet, .take 7 0 1, .wake 0 1, .stay]

theorem scheduler_keeps_rota_waitAndWake : ∃ (s : State TcbLinks) (r : Rota TcbPtr MutexPtr),
    Run ShowingStep (State.initial noLinks fun _ => zeroedTcb, []) waitAndWake
        (s, shownByWaitAndWake) ∧
      Run Rota.Step Rota.empty shownByWaitAndWake r ∧ Follows s r ∧ s.dispatches = [1, 0] := by
  obtain ⟨⟨s, es⟩, hrun, rfl⟩ := Run.of_runAll (OpenEvent.showing_step 5) waitAndWake
    (State.initial noLinks fun _ => zeroedTcb, []) Prod.snd (b := shownByWaitAndWake)
    (by decide +kernel)
  obtain ⟨r, hr, hfollows, hdispatches⟩ := scheduler_keeps_rota hrun
  exact ⟨s, r, hrun, hr, hfollows, hdispatches⟩

end VirtualMemorySimulation.Scheduler
