import VirtualMemorySimulation.Scheduler.Conservation

/-!
# Thread states and places

`READY` is written when a thread gives the processor up and `RUNNING` when it gets
it, but blocking on a mutex writes nothing. The states therefore agree with the
places of the threads as long as no thread blocks before it has terminated.
-/

namespace VirtualMemorySimulation.Scheduler

open Execution LinkedQueue

/-- What the comments of `enum thread_state` say. -/
structure StatesAgree (s : State TcbLinks) : Prop where
  running : ∀ p ∈ s.threads, (s.tcbs p).state = .running → s.currentTcb = some p
  ready : ∀ i p, InQueue s.queues (.level i) p → (s.tcbs p).state ≠ .terminated →
    s.currentTcb ≠ some p → (s.tcbs p).state = .ready
  waiting : ∀ m p, InQueue s.queues (.wait m) p →
    (s.tcbs p).state ≠ .running ∧ (s.tcbs p).state ≠ .ready

section Condition

variable {σ : Type} [QueueStore σ QueuePtr TcbPtr]

/-- A pass of the lock loop at this level blocks no thread that has not terminated. -/
def BlocksNoLive (mutex : MutexPtr) (priority : ℤ) (s : State σ) : Prop :=
  s.mutexes mutex = some .locked →
    ∀ p ∈ QueueStore.peek (QueuePtr.level priority) s.queues, (s.tcbs p).state = .terminated

instance (mutex : MutexPtr) (priority : ℤ) (s : State σ) :
    Decidable (BlocksNoLive mutex priority s) := inferInstanceAs (Decidable (_ → _))

/-- The call, if it is a pass of the lock loop, blocks no thread that has not terminated. -/
def Unblocking (s : State σ) (c : CallBy) : Prop :=
  match c.call with
  | .lock mutex => ∀ cur ∈ s.currentTcb, BlocksNoLive mutex (s.tcbs cur).priority s
  | .relock mutex priority => BlocksNoLive mutex priority s
  | _ => True

instance (s : State σ) (c : CallBy) : Decidable (Unblocking s c) :=
  match c with
  | ⟨_, .lock mutex⟩ =>
    inferInstanceAs (Decidable (∀ cur ∈ s.currentTcb, BlocksNoLive mutex (s.tcbs cur).priority s))
  | ⟨_, .relock mutex priority⟩ => inferInstanceAs (Decidable (BlocksNoLive mutex priority s))
  | ⟨_, .create ..⟩ => isTrue trivial
  | ⟨_, .tick ..⟩ => isTrue trivial
  | ⟨_, .mutexInit _⟩ => isTrue trivial
  | ⟨_, .unlock _⟩ => isTrue trivial
  | ⟨_, .exit _⟩ => isTrue trivial
  | ⟨_, .functionReturn ..⟩ => isTrue trivial
  | ⟨_, .join _⟩ => isTrue trivial

end Condition

/-- The agreement on lists: what is blocked has terminated, and a live current thread is at
the head of level 0. -/
structure Agreeing (t : State TcbLists) : Prop where
  running : ∀ p ∈ t.threads, (t.tcbs p).state = .running → t.currentTcb = some p
  ready : ∀ p ∈ t.queues (.level 0), (t.tcbs p).state ≠ .terminated → t.currentTcb ≠ some p →
    (t.tcbs p).state = .ready
  blocked : ∀ m, ∀ p ∈ t.queues (.wait m), (t.tcbs p).state = .terminated
  head : ∀ p, t.currentTcb = some p → (t.tcbs p).state ≠ .terminated →
    (t.queues (.level 0)).head? = some p

section Steps

variable {t t' : State TcbLists} {now start : Time} {cur p : TcbPtr} {l : List TcbPtr} {m : MutexPtr}

theorem Agreeing.initial (storage : TcbPtr → Tcb) : Agreeing (State.initial noLists storage) where
  running p hp := absurd hp List.not_mem_nil
  ready p hp := absurd hp List.not_mem_nil
  blocked m p hp := absurd hp List.not_mem_nil
  head p hp := by cases hp

theorem dispatch_state (t : State TcbLists) (start : Time) (p : TcbPtr) (l : List TcbPtr) (n : ℕ)
    (r : TcbPtr) : ((t.dispatch start p l n).tcbs r).state =
      if r = p then .running else (t.tcbs r).state := by
  rw [State.dispatch_tcbs]
  split_ifs with h
  · rw [h, Function.update_self]
  · rw [Function.update_of_ne h]

theorem save_state (t : State TcbLists) (cur r : TcbPtr) :
    ((t.save cur).tcbs r).state = (t.tcbs r).state := by
  obtain ⟨context, heq⟩ := save_tcb t cur r
  rw [heq]

theorem rotate_state (t : State TcbLists) (p r : TcbPtr) (l : List TcbPtr) :
    ((t.rotate p l).tcbs r).state =
      if r = p ∧ (t.tcbs p).state ≠ .terminated then .ready else (t.tcbs r).state :=
  preempt_state _ p r

/-- Whoever is running, or neither ready nor terminated, is next to be dispatched. -/
structure Poised (u : State TcbLists) : Prop where
  running : ∀ p ∈ u.threads, (u.tcbs p).state = .running →
    (u.queues (.level 0)).find? u.live = some p
  ready : ∀ p ∈ u.queues (.level 0), (u.tcbs p).state ≠ .terminated →
    (u.queues (.level 0)).find? u.live = some p ∨ (u.tcbs p).state = .ready
  blocked : ∀ m, ∀ p ∈ u.queues (.wait m), (u.tcbs p).state = .terminated

theorem Poised.dispatched (h : Poised t) (hd : Dispatched start t t') : Agreeing t' := by
  obtain ⟨p, l, n, hperm, hfind, rfl⟩ := hd
  have hnext : ∀ r, r ≠ p → (t.queues (.level 0)).find? t.live ≠ some r :=
    fun r hr heq => hr (Option.some.inj (heq.symm.trans hfind))
  constructor
  · intro r hr hrun
    rw [dispatch_state] at hrun
    split_ifs at hrun with hrp
    · rw [hrp]
      rfl
    · exact absurd (h.running r hr hrun) (hnext r hrp)
  · intro r hr hlive hcur
    have hrp : r ≠ p := fun hrp => hcur (by rw [hrp]; rfl)
    rw [dispatch_state, if_neg hrp] at hlive ⊢
    have hr' : r ∈ t.queues (.level 0) := hperm.mem_iff.mp (by simpa using hr)
    exact (h.ready r hr' hlive).resolve_left (hnext r hrp)
  · intro m r hr
    have hr' : r ∈ t.queues (.wait m) := by simpa [Lists.set_of_ne] using hr
    have hdead := h.blocked m r hr'
    have hrp : r ≠ p := by
      rintro rfl
      exact live_iff.mp (List.find?_some hfind) hdead
    rwa [dispatch_state, if_neg hrp]
  · intro r hr _
    obtain rfl := Option.some.inj hr
    simp

theorem Agreeing.first (h : Agreeing t) (hcur : t.currentTcb = some p)
    (hlive : (t.tcbs p).state ≠ .terminated) : (t.queues (.level 0)).find? t.live = some p := by
  obtain ⟨l, hl⟩ := List.head?_eq_some_iff.mp (h.head p hcur hlive)
  rw [hl, List.find?_cons_of_pos (live_iff.mpr hlive)]

theorem Agreeing.rotated (h : Agreeing t) (hq : t.queues (.level 0) = p :: l) (cur : TcbPtr) :
    Poised ((t.save cur).rotate p l) := by
  have hstate : ∀ r, (((t.save cur).rotate p l).tcbs r).state =
      if r = p ∧ (t.tcbs p).state ≠ .terminated then .ready else (t.tcbs r).state := by
    intro r
    rw [rotate_state, save_state, save_state]
  -- a live current thread is the one that is rotated
  have hrotated : ∀ r, t.currentTcb = some r → (t.tcbs r).state ≠ .terminated → r = p := by
    intro r hcur hlive
    have hhead := h.head r hcur hlive
    rw [hq] at hhead
    exact (Option.some.inj hhead).symm
  constructor
  · intro r hr hrun
    rw [hstate] at hrun
    split_ifs at hrun with hrp
    have hr' : r ∈ t.threads := by rwa [rotate_threads] at hr
    have hlive : (t.tcbs r).state ≠ .terminated := by simp [hrun]
    obtain rfl := hrotated r (h.running r hr' hrun) hlive
    exact absurd ⟨rfl, hlive⟩ hrp
  · intro r hr hlive
    rw [rotate_level] at hr
    have hr' : r ∈ t.queues (.level 0) := by
      rw [hq]
      exact (List.perm_append_singleton p l).mem_iff.mp hr
    apply Or.inr
    rw [hstate] at hlive ⊢
    split_ifs at hlive ⊢ with hrp
    · rfl
    · refine h.ready r hr' hlive fun hcur => ?_
      obtain rfl := hrotated r hcur hlive
      exact hrp ⟨rfl, hlive⟩
  · intro m r hr
    have hr' : r ∈ t.queues (.wait m) := by
      simpa [State.rotate, State.save, Lists.set_of_ne] using hr
    have hdead := h.blocked m r hr'
    rw [hstate, if_neg]
    · exact hdead
    · rintro ⟨rfl, hlive⟩
      exact hlive hdead

theorem Agreeing.resumed (h : Agreeing t) (cur : TcbPtr) :
    Poised { t.save cur with afterUnlockPriority := -1 } := by
  have hlive : State.live { t.save cur with afterUnlockPriority := -1 } = t.live := by
    funext r
    simp only [State.live, save_state]
  constructor
  · intro r hr hrun
    change ((t.save cur).tcbs r).state = _ at hrun
    rw [save_state] at hrun
    rw [hlive]
    exact h.first (h.running r hr hrun) (by simp [hrun])
  · intro r hr hr'
    change ((t.save cur).tcbs r).state ≠ _ at hr'
    change _ ∨ ((t.save cur).tcbs r).state = _
    rw [save_state] at hr' ⊢
    rw [hlive]
    by_cases hcur : t.currentTcb = some r
    · exact Or.inl (h.first hcur hr')
    · exact Or.inr (h.ready r hr hr' hcur)
  · intro m r hr
    change ((t.save cur).tcbs r).state = _
    rw [save_state]
    exact h.blocked m r hr

theorem Agreeing.tick {fuel : ℕ} (hc : Conserved t) (h : Agreeing t)
    (ht : tick now start fuel t = .ok t') : Agreeing t' := by
  have hi : Agreeing t.interrupt := ⟨h.running, h.ready, h.blocked, h.head⟩
  obtain ⟨hhandled, -, -⟩ := tick_outcome hc.toPlaced ht
  cases hhandled with
  | within => exact hi
  | rotated _ _ _ hq hd => exact (hi.rotated hq _).dispatched hd
  | resumed _ _ _ _ hd => exact (hi.resumed _).dispatched hd
  | idle _ _ _ hq =>
    -- every thread is blocked, and so has terminated
    have hdead : ∀ p ∈ t.threads, (t.tcbs p).state = .terminated := by
      intro p hp
      obtain ⟨q, hpq⟩ := hc.homed p hp
      cases q with
      | level i =>
        obtain rfl := hc.level i p hpq
        simp [show t.queues (.level 0) = [] from hq] at hpq
      | wait m => exact h.blocked m p hpq
    constructor
    · intro p hp hrun
      change ((t.interrupt.save _).tcbs p).state = _ at hrun
      rw [save_state] at hrun
      cases (hdead p hp).symm.trans hrun
    · intro p hp
      change p ∈ t.queues (.level 0) at hp
      simp [show t.queues (.level 0) = [] from hq] at hp
    · intro m p hp
      change ((t.interrupt.save _).tcbs p).state = _
      rw [save_state]
      exact h.blocked m p hp
    · intro p hp
      cases hp

theorem Agreeing.created (hc : Placed t) (h : Agreeing t) (tid : ℕ) (context : Context) :
    Agreeing (t.created tid context) := by
  have hold : ∀ r ∈ t.threads, ((t.created tid context).tcbs r).state = (t.tcbs r).state :=
    fun r hr => by rw [created_tcb_of_ne (hc.allocated r hr).ne]
  have hnew : ((t.created tid context).tcbs t.frontier).state = .ready := by
    rw [created_tcb_frontier]
  constructor
  · intro r hr hrun
    rcases List.mem_append.mp hr with hr | hr
    · rw [hold r hr] at hrun
      exact h.running r hr hrun
    · rw [List.mem_singleton.mp hr, hnew] at hrun
      cases hrun
  · intro r hr hlive hcur
    rcases Lists.mem_enqueue.mp hr with hr | ⟨-, rfl⟩
    · rw [hold r (hc.known _ r hr)] at hlive ⊢
      exact h.ready r hr hlive hcur
    · exact hnew
  · intro m r hr
    rcases Lists.mem_enqueue.mp hr with hr | ⟨hq, -⟩
    · rw [hold r (hc.known _ r hr)]
      exact h.blocked m r hr
    · cases hq
  · intro r hcur hlive
    rw [hold r (hc.current r hcur).1] at hlive
    have hhead := h.head r hcur hlive
    change ((t.queues.set _ _) _).head? = _
    rw [Lists.set_self, List.head?_append, hhead]
    rfl

theorem Agreeing.withMain (hc : Placed t) (hnone : t.threads = []) : Agreeing t.withMain := by
  have hnew : (t.withMain.tcbs t.frontier).state = .ready :=
    congrArg Tcb.state (created_tcb_frontier t t.tid { t.cpu with owner := t.frontier })
  have hqueue : ∀ q r, r ∈ t.withMain.queues q → q = .level 0 ∧ r = t.frontier := by
    intro q r hr
    rcases Lists.mem_enqueue.mp hr with hr | hr
    · simp [hc.queues_nil hnone] at hr
    · exact hr
  constructor
  · intro r hr hrun
    have hr' : r ∈ t.threads ++ [t.frontier] := hr
    obtain rfl : r = t.frontier := by simpa [hnone] using hr'
    cases hnew.symm.trans hrun
  · intro r hr _ _
    rw [(hqueue _ r hr).2]
    exact hnew
  · intro m r hr
    cases (hqueue _ r hr).1
  · intro r hcur _
    obtain rfl := Option.some.inj hcur
    change ((t.queues.set _ _) _).head? = _
    simp [hc.queues_nil hnone]

theorem Agreeing.empty (hc : Placed t) (hnone : t.threads = []) : Agreeing t where
  running p hp := by simp [hnone] at hp
  ready p hp := by simp [hc.queues_nil hnone] at hp
  blocked m p hp := by simp [hc.queues_nil hnone] at hp
  head p hp := by
    have := (hc.current p hp).1
    simp [hnone] at this

theorem Agreeing.congr (h : Agreeing t) (hstate : ∀ p, (t'.tcbs p).state = (t.tcbs p).state)
    (hqueues : t'.queues = t.queues) (hthreads : t'.threads = t.threads)
    (hcurrent : t'.currentTcb = t.currentTcb) : Agreeing t' := by
  constructor
  · simpa only [hstate, hthreads, hcurrent] using h.running
  · simpa only [hstate, hqueues, hcurrent] using h.ready
  · simpa only [hstate, hqueues] using h.blocked
  · simpa only [hstate, hqueues, hcurrent] using h.head

theorem Agreeing.allocateTcb (h : Agreeing t) (tid : ℕ) : Agreeing (t.allocateTcb tid) := by
  refine h.congr (fun p => ?_) rfl rfl rfl
  change (Function.update t.tcbs t.frontier { t.tcbs t.frontier with tid } p).state = _
  by_cases hp : p = t.frontier
  · rw [hp, Function.update_self]
  · rw [Function.update_of_ne hp]

theorem Agreeing.create {mainContext nodeContext ok : Bool} {routine : Routine}
    (hc : Conserved t) (h : Agreeing t)
    (ht : myPthreadCreate mainContext nodeContext routine t = .ok (ok, t')) : Agreeing t' := by
  obtain ⟨hplaced, hinit⟩ := hc.toPlaced.begun
  have hcount := hc.begun.counted
  have hagree : Agreeing t.begun := by
    rcases hc.toPlaced.begun_eq with ⟨-, heq⟩ | ⟨hnone, heq⟩
    · rwa [heq]
    · exact .empty hplaced (by rw [heq]; exact hnone)
  apply hplaced.creates_induction hinit hcount (myPthreadCreate_creates ht) hagree
  · exact fun _ hnone => .withMain hplaced hnone
  · exact fun u tid _ _ hu => hu.allocateTcb tid
  · intro u routine hplaced' _ hu
    have hcreated := hu.created hplaced' (u.tid + 1) ⟨u.frontier, .start routine, []⟩
    exact { hcreated with }

theorem Agreeing.mutexInit (hc : Conserved t) (h : Agreeing t)
    (ht : myPthreadMutexInit m t = .ok t') : Agreeing t' := by
  have hplaced := hc.toPlaced.mutexInit ht
  obtain ⟨-, u, rfl | ⟨hnone, rfl⟩, rfl⟩ := hc.toPlaced.mutexInit_ok ht
  · exact h.congr (fun _ => rfl) rfl rfl rfl
  · exact .empty hplaced hnone

theorem Agreeing.lockPass {priority : ℤ} (hc : Conserved t) (h : Agreeing t)
    (hblock : BlocksNoLive m priority t) (ht : lockPass m priority t = .ok t') : Agreeing t' := by
  rcases lockPass_ok ht with ⟨-, rfl⟩ | ⟨hm, p, l, hq, rfl⟩
  · exact h.congr (fun _ => rfl) rfl rfl rfl
  · have hdead : (t.tcbs p).state = .terminated :=
      hblock hm p (by rw [peek_level, hq]; rfl)
    obtain rfl : priority = 0 := hc.level priority p (by rw [hq]; exact List.mem_cons_self)
    constructor
    · exact h.running
    · intro r hr
      rcases (hc.distinct.mem_move hq).mp hr with ⟨hr, -⟩ | ⟨hq', -⟩
      · exact h.ready r hr
      · cases hq'
    · intro m' r hr
      rcases (hc.distinct.mem_move hq).mp hr with ⟨hr, -⟩ | ⟨-, rfl⟩
      · exact h.blocked m' r hr
      · exact hdead
    · intro r hcur hlive
      have hhead := h.head r hcur hlive
      rw [hq] at hhead
      obtain rfl := Option.some.inj hhead
      exact absurd hdead hlive

theorem Agreeing.unlock (hc : Conserved t) (h : Agreeing t)
    (ht : myPthreadMutexUnlock m t = .ok t') : Agreeing t' := by
  rcases hc.toPlaced.unlock_ok ht with ⟨-, rfl⟩ | ⟨p, l, hq, rfl⟩
  · exact h.congr (fun _ => rfl) rfl rfl rfl
  · have hdead : (t.tcbs p).state = .terminated :=
      h.blocked m p (by rw [hq]; exact List.mem_cons_self)
    constructor
    · exact h.running
    · intro r hr hlive
      rcases (hc.distinct.mem_move hq).mp hr with ⟨hr, -⟩ | ⟨-, rfl⟩
      · exact h.ready r hr hlive
      · exact absurd hdead hlive
    · intro m' r hr
      rcases (hc.distinct.mem_move hq).mp hr with ⟨hr, -⟩ | ⟨hq', -⟩
      · exact h.blocked m' r hr
      · cases hq'
    · intro r hcur hlive
      change ((t.queues.move (.wait m) (.level 0) p l) (.level 0)).head? = some r
      rw [Lists.move_target (by simp), List.head?_append, h.head r hcur hlive]
      rfl

theorem Agreeing.terminate (h : Agreeing t) (hcur : t.currentTcb = some p) (value : Value) :
    Agreeing (t.setTcb p { t.tcbs p with returnValue := value, state := .terminated }) := by
  set t' := t.setTcb p { t.tcbs p with returnValue := value, state := .terminated } with ht'
  have hself : (t'.tcbs p).state = .terminated := by simp [ht', State.setTcb]
  have hother : ∀ r, r ≠ p → (t'.tcbs r).state = (t.tcbs r).state := by
    intro r hr
    simp [ht', State.setTcb, Function.update_of_ne hr]
  constructor
  · intro r hr hrun
    by_cases hrp : r = p
    · rw [hrp, hself] at hrun
      cases hrun
    · rw [hother r hrp] at hrun
      exact h.running r hr hrun
  · intro r hr hlive hcur'
    by_cases hrp : r = p
    · rw [hrp] at hlive
      exact absurd hself hlive
    · rw [hother r hrp] at hlive ⊢
      exact h.ready r hr hlive hcur'
  · intro m r hr
    by_cases hrp : r = p
    · rw [hrp, hself]
    · rw [hother r hrp]
      exact h.blocked m r hr
  · intro r hr hlive
    obtain rfl : p = r := Option.some.inj (hcur.symm.trans hr)
    exact absurd hself hlive

/-- Every call that blocks no live thread keeps the agreement. -/
theorem Agreeing.call {c : CallBy} (hc : Conserved t) (h : Agreeing t) (hcond : Unblocking t c)
    (hs : CallStep t c t') : Agreeing t' := by
  cases hs.performed with
  | create hcreate => exact h.create hc hcreate
  | tick ht => exact h.tick hc ht
  | mutexInit hinit => exact h.mutexInit hc hinit
  | lock hcur hpass => exact h.lockPass hc (hcond _ hcur) hpass
  | relock hpass => exact h.lockPass hc hcond hpass
  | unlock hunlock => exact h.unlock hc hunlock
  | exit hcur => exact h.terminate hcur _
  | exited => exact h
  | functionReturn hcur => exact h.terminate hcur _
  | join => exact h

end Steps

theorem Agreeing.statesAgree {s : State TcbLinks} {t : State TcbLists} (hc : Conserved t)
    (h : Agreeing t) (hr : Refines s t) : StatesAgree s := by
  obtain ⟨L, hL, rfl⟩ := hr
  refine ⟨h.running, fun i p hp hlive hcur => ?_, fun m p hp => ?_⟩
  · have hp' := (inQueue_iff hL).mp hp
    obtain rfl := hc.level i p hp'
    exact h.ready p hp' hlive hcur
  · have hdead : (t.tcbs p).state = .terminated := h.blocked m p ((inQueue_iff hL).mp hp)
    simp [hdead]

theorem BlocksNoLive.refines {L : TcbLinks} {t : State TcbLists} (hL : Agrees L t.queues)
    {m : MutexPtr} {priority : ℤ} (h : BlocksNoLive m priority (t.withQueues L)) :
    BlocksNoLive m priority t :=
  fun hm p hp => h hm p ((hL.peek _).trans hp)

theorem Unblocking.refines {s : State TcbLinks} {t : State TcbLists} {c : CallBy}
    (hr : Refines s t) (h : Unblocking s c) : Unblocking t c := by
  obtain ⟨L, hL, rfl⟩ := hr
  obtain ⟨caller, call⟩ := c
  cases call with
  | lock mutex => exact fun cur hcur => BlocksNoLive.refines hL (h cur hcur)
  | relock mutex priority => exact BlocksNoLive.refines hL h
  | _ => trivial

/-- The list state of a run in which no live thread is blocked. -/
theorem run_agreeing {storage : TcbPtr → Tcb} {calls : List CallBy} {s : State TcbLinks}
    (h : Run (Guarded Unblocking CallStep) (State.initial noLinks storage) calls s) :
    ∃ t, Run (Guarded Unblocking CallStep) (State.initial noLists storage) calls t ∧
      Refines s t ∧ Conserved t ∧ Agreeing t := by
  refine Run.simulation (R := fun s t => Refines s t ∧ Conserved t ∧ Agreeing t) ?_ ?_ h
  · rintro s c s' t ⟨hr, hc, ht⟩ ⟨hcond, hs⟩
    obtain ⟨t', hstep, hr'⟩ := hs.refines hr hc.toPlaced.fresh
    have hcond' := hcond.refines hr
    exact ⟨t', ⟨hcond', hstep⟩, hr', hc.call hstep, ht.call hc hcond' hstep⟩
  · exact ⟨⟨noLinks, noLinks_agrees, rfl⟩, .initial storage, .initial storage⟩

/-- In a run in which no live thread is blocked, states and places agree. -/
theorem states_agree {storage : TcbPtr → Tcb} {calls : List CallBy} {s : State TcbLinks}
    (h : Run (Guarded Unblocking CallStep) (State.initial noLinks storage) calls s) :
    StatesAgree s := by
  obtain ⟨t, -, hr, hc, ht⟩ := run_agreeing h
  exact ht.statesAgree hc hr

/-- Two threads take turns at a mutex without meeting. -/
def turns : List CallBy :=
  [⟨none, .create true true ⟨1, 0⟩⟩, ⟨some 0, .mutexInit 7⟩, ⟨some 0, .lock 7⟩, ⟨some 0, .unlock 7⟩,
    ⟨some 0, .tick ⟨1, 0⟩ ⟨1, 0⟩⟩, ⟨some 0, .tick ⟨2, 0⟩ ⟨2, 0⟩⟩, ⟨some 1, .lock 7⟩,
    ⟨some 1, .exit 5⟩, ⟨some 1, .tick ⟨3, 0⟩ ⟨3, 0⟩⟩]

theorem states_agree_turns : ∃ s,
    Run (Guarded Unblocking CallStep) (State.initial noLinks fun _ => zeroedTcb) turns s ∧
      s.dispatches = [0, 1, 0] ∧ StatesAgree s := by
  obtain ⟨s, hrun, hs⟩ := Run.of_runAll
    (guardedExec_step Unblocking (CallBy.exec_step 5)) turns
    (State.initial noLinks fun _ => zeroedTcb) (fun s => s.dispatches) (b := [0, 1, 0]) rfl
  exact ⟨s, hrun, hs, states_agree hrun⟩

/-- The thread that waits for the mutex stays `RUNNING` in the wait queue, next to the one
that runs. -/
theorem contention_disagrees : ∃ s,
    Run CallStep (State.initial noLinks fun _ => zeroedTcb) contention s ∧
      s.dispatches = [1, 0] ∧ InQueue s.queues (.wait 7) 1 ∧ (s.tcbs 1).state = .running ∧
      (s.tcbs 0).state = .running ∧ ¬ StatesAgree s := by
  obtain ⟨s, hrun, hs⟩ := Run.of_runAll (CallBy.exec_step 5) contention
    (State.initial noLinks fun _ => zeroedTcb)
    (fun s => (s.dispatches, (s.queues.queue (.wait 7)).head, s.queues.next 1,
      (s.tcbs 1).state, (s.tcbs 0).state))
    (b := ([1, 0], some 1, none, .running, .running)) rfl
  simp only [Prod.mk.injEq] at hs
  obtain ⟨hdispatches, hhead, hnext, hone, hmain⟩ := hs
  have hqueue : InQueue s.queues (.wait 7) 1 :=
    ⟨[1], .link hhead (.last hnext), by simp⟩
  exact ⟨s, hrun, hdispatches, hqueue, hone, hmain, fun h => (h.waiting 7 1 hqueue).1 hone⟩

end VirtualMemorySimulation.Scheduler
