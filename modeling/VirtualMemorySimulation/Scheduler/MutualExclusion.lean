import VirtualMemorySimulation.Scheduler.Interleaving

/-!
# Mutual exclusion

The mutexes rest on the test-and-set and the release alone. Here a signal may hand
the processor to any thread, let any `pause` return and leave anything in the
queues, which may themselves be any implementation. The machine refines a table of
owners, one at most for each mutex. The interleavings under the real scheduler are
among these.
-/

namespace VirtualMemorySimulation.Scheduler

open Execution LinkedQueue

abbrev Owners := MutexPtr → Option TcbPtr

/-- A free mutex gets an owner, or an owner gives it up. -/
inductive Owners.Step (a : Owners) : Owners → Prop
  | stay : Owners.Step a a
  | acquire {m p} : a m = none → Owners.Step a (Function.update a m (some p))
  | release {m p} : a m = some p → Owners.Step a (Function.update a m none)

/-- The thread has won the test-and-set of the mutex and not yet released it. -/
def Context.Owns (c : Context) (m : MutexPtr) : Prop := m ∈ c.held ∨ c.pc = .lockWon m

/-- A thread wins only what it does not hold and releases only what it holds. -/
structure Context.Sound (c : Context) : Prop where
  nodup : c.held.Nodup
  won : ∀ m, c.pc = .lockWon m → m ∉ c.held
  releasing : ∀ m, c.pc = .unlockRelease m → m ∈ c.held

def Context.Idle (c : Context) : Prop := c.held = [] ∧ (c.pc = .body ∨ ∃ p, c.pc = .joinWait p)

section Machine

variable {σ : Type}

/-- The thread has returned from `my_pthread_mutex_lock` and not yet executed the release in
`my_pthread_mutex_unlock`. -/
def Holds (s : State σ) (m : MutexPtr) (p : TcbPtr) : Prop :=
  p ∈ s.threads ∧ m ∈ (s.contextOf p).held

def HasWon (s : State σ) (m : MutexPtr) (p : TcbPtr) : Prop :=
  p ∈ s.threads ∧ (s.contextOf p).pc = .lockWon m

structure MutuallyExclusive (s : State σ) : Prop where
  exclusive : ∀ m p r, Holds s m p → Holds s m r → p = r
  locked : ∀ m, s.mutexes m = some .locked ↔ ∃ p, Holds s m p ∨ HasWon s m p

/-- A signal under a free scheduler: any thread has the processor, any `pause` may have
returned, and only the threads, their contexts and the mutexes are as before. -/
structure Rescheduled (s s' : State σ) : Prop where
  threads : s'.threads = s.threads
  frontier : s'.frontier = s.frontier
  tid : s'.tid = s.tid
  mutexes : s'.mutexes = s.mutexes
  owner : s'.cpu.owner ∈ s'.threads
  contexts : ∀ p ∈ s.threads, s'.contextOf p = s.contextOf p ∨
    s'.contextOf p = { s.contextOf p with pc := (s.contextOf p).pc.interrupted }

/-- An event under a free scheduler. -/
def FreeStep [QueueStore σ QueuePtr TcbPtr] (s : State σ) (e : Event) (s' : State σ) : Prop :=
  match e with
  | .tick _ _ => Rescheduled s s'
  | .call _ => EventStep s e s'
  | .next => EventStep s e s'

/-- The owners of the mutexes are those of the table. -/
structure Owned (s : State σ) (a : Owners) : Prop where
  running : s.threads ≠ [] → s.cpu.owner ∈ s.threads
  idle : s.threads = [] → s.currentTcb = none ∧ s.cpu.Idle
  allocated : ∀ p ∈ s.threads, p < s.frontier
  sound : ∀ p ∈ s.threads, (s.contextOf p).Sound
  owns : ∀ p ∈ s.threads, ∀ m, (s.contextOf p).Owns m ↔ a m = some p
  owners : ∀ m p, a m = some p → p ∈ s.threads
  locked : ∀ m, s.mutexes m = some .locked ↔ a m ≠ none

theorem Owned.mutuallyExclusive {s : State σ} {a : Owners} (h : Owned s a) :
    MutuallyExclusive s := by
  have howns : ∀ {m p}, Holds s m p ∨ HasWon s m p → a m = some p := by
    rintro m p (⟨hp, hheld⟩ | ⟨hp, hwon⟩)
    · exact (h.owns p hp m).mp (Or.inl hheld)
    · exact (h.owns p hp m).mp (Or.inr hwon)
  constructor
  · intro m p r hp hr
    exact Option.some.inj ((howns (Or.inl hp)).symm.trans (howns (Or.inl hr)))
  · intro m
    rw [h.locked]
    constructor
    · intro hm
      obtain ⟨p, hp⟩ := Option.ne_none_iff_exists'.mp hm
      have hmem := h.owners m p hp
      rcases (h.owns p hmem m).mpr hp with hheld | hwon
      · exact ⟨p, Or.inl ⟨hmem, hheld⟩⟩
      · exact ⟨p, Or.inr ⟨hmem, hwon⟩⟩
    · rintro ⟨p, hp⟩
      simp [howns hp]

theorem Owned.initial (queues : σ) (storage : TcbPtr → Tcb) :
    Owned (State.initial queues storage) fun _ => none where
  running h := absurd rfl h
  idle _ := ⟨rfl, rfl, Or.inl rfl⟩
  allocated p hp := absurd hp List.not_mem_nil
  sound p hp := absurd hp List.not_mem_nil
  owns p hp := absurd hp List.not_mem_nil
  owners m p h := by cases h
  locked m := by simp [State.initial]

section Contexts

variable {c : Context} {m : MutexPtr}

theorem interrupted_won {pc : Pc} : pc.interrupted = .lockWon m ↔ pc = .lockWon m := by
  cases pc <;> simp [Pc.interrupted]

theorem interrupted_releasing {pc : Pc} :
    pc.interrupted = .unlockRelease m ↔ pc = .unlockRelease m := by
  cases pc <;> simp [Pc.interrupted]

theorem Context.Sound.interrupted (h : c.Sound) : Context.Sound { c with pc := c.pc.interrupted } :=
  ⟨h.nodup, fun m hm => h.won m (interrupted_won.mp hm),
    fun m hm => h.releasing m (interrupted_releasing.mp hm)⟩

theorem Context.owns_interrupted :
    Context.Owns { c with pc := c.pc.interrupted } m ↔ c.Owns m :=
  or_congr .rfl interrupted_won

theorem Context.Idle.sound (h : c.Idle) : c.Sound := by
  obtain ⟨hheld, hpc⟩ := h
  refine ⟨by simp [hheld], fun m hm => ?_, fun m hm => ?_⟩ <;>
    rcases hpc with hpc | ⟨p, hpc⟩ <;> cases hpc.symm.trans hm

theorem Context.Idle.not_owns (h : c.Idle) : ¬ c.Owns m := by
  rintro (hheld | hwon)
  · simp [h.1] at hheld
  · rcases h.2 with hpc | ⟨p, hpc⟩ <;> cases hpc.symm.trans hwon

end Contexts

theorem Owned.rescheduled {s s' : State σ} {a : Owners} (h : Owned s a)
    (hr : Rescheduled s s') : Owned s' a where
  running _ := hr.owner
  idle hnone := absurd hr.owner (by simp [hnone])
  allocated p hp := by
    rw [hr.threads] at hp
    rw [hr.frontier]
    exact h.allocated p hp
  sound p hp := by
    rw [hr.threads] at hp
    rcases hr.contexts p hp with heq | heq
    · rw [heq]
      exact h.sound p hp
    · rw [heq]
      exact (h.sound p hp).interrupted
  owns p hp m := by
    rw [hr.threads] at hp
    rcases hr.contexts p hp with heq | heq
    · rw [heq]
      exact h.owns p hp m
    · rw [heq, Context.owns_interrupted]
      exact h.owns p hp m
  owners m p hp := by
    rw [hr.threads]
    exact h.owners m p hp
  locked m := by
    rw [hr.mutexes]
    exact h.locked m

section Acts

variable {s s' u : State σ} {a : Owners}

/-- Only queues and the fields of control blocks that are not contexts change. -/
structure Aside (s s' : State σ) : Prop where
  context : ∀ p, (s'.tcbs p).context = (s.tcbs p).context
  cpu : s'.cpu = s.cpu
  threads : s'.threads = s.threads
  tid : s'.tid = s.tid
  frontier : s'.frontier = s.frontier
  mutexes : s'.mutexes = s.mutexes
  currentTcb : s'.currentTcb = s.currentTcb

/-- Only the thread on the processor goes on. -/
structure ByOwner (s s' : State σ) : Prop where
  context : ∀ p, (s'.tcbs p).context = (s.tcbs p).context
  owner : s'.cpu.owner = s.cpu.owner
  threads : s'.threads = s.threads
  tid : s'.tid = s.tid
  frontier : s'.frontier = s.frontier
  currentTcb : s.currentTcb = none → s'.currentTcb = none

/-- What the thread on the processor does to the mutexes. -/
inductive Acts (s s' : State σ) : Prop
  | quiet : s'.mutexes = s.mutexes → s'.cpu.held = s.cpu.held → (∀ m, s.cpu.pc ≠ .lockWon m) →
      (∀ m, s'.cpu.pc ≠ .lockWon m) → (∀ m, s'.cpu.pc = .unlockRelease m → m ∈ s.cpu.held) →
      Acts s s'
  | win {m priority} : s.cpu.pc = .lockTest m priority → s.mutexes m = some .unlocked →
      s'.mutexes = Function.update s.mutexes m (some .locked) →
      s'.cpu = { s.cpu with pc := .lockWon m } → Acts s s'
  | enter {m} : s.cpu.pc = .lockWon m → s'.mutexes = s.mutexes →
      s'.cpu = { s.cpu with pc := .body, held := m :: s.cpu.held } → Acts s s'
  | release {m} : s.cpu.pc = .unlockRelease m →
      s'.mutexes = Function.update s.mutexes m (some .unlocked) →
      s'.cpu = { s.cpu with pc := .unlockDequeue m, held := s.cpu.held.erase m } → Acts s s'

theorem Aside.refl (s : State σ) : Aside s s := ⟨fun _ => rfl, rfl, rfl, rfl, rfl, rfl, rfl⟩

theorem Aside.setTcb {p : TcbPtr} {tcb : Tcb} (h : tcb.context = (s.tcbs p).context) :
    Aside s (s.setTcb p tcb) := by
  refine ⟨fun r => ?_, rfl, rfl, rfl, rfl, rfl, rfl⟩
  by_cases hr : r = p
  · subst hr
    rwa [State.setTcb_tcbs, Function.update_self]
  · rw [State.setTcb_tcbs, Function.update_of_ne hr]

theorem Aside.withQueues (h : Aside s s') (queues : σ) : Aside s { s' with queues } :=
  ⟨h.context, h.cpu, h.threads, h.tid, h.frontier, h.mutexes, h.currentTcb⟩

theorem Aside.setPc (h : Aside s s') (pc : Pc) : ByOwner s (s'.setPc pc) where
  context := h.context
  owner := by simp [h.cpu]
  threads := h.threads
  tid := h.tid
  frontier := h.frontier
  currentTcb hnone := h.currentTcb.trans hnone

theorem Acts.of_aside {pc : Pc} (h : Aside s s') (hpc : ∀ m, s.cpu.pc ≠ .lockWon m)
    (hwon : ∀ m, pc ≠ .lockWon m) (hrelease : ∀ m, pc ≠ .unlockRelease m) :
    Acts s (s'.setPc pc) :=
  .quiet h.mutexes (by simp [h.cpu]) hpc hwon fun m hm => absurd hm (hrelease m)

variable [QueueStore σ QueuePtr TcbPtr]

theorem scheduleThread_aside {node : Option TcbPtr} {priority : ℤ}
    (h : scheduleThread node priority s = .ok s') : Aside s s' := by
  unfold scheduleThread at h
  split_ifs at h
  · obtain rfl := Except.ok.inj h
    exact .refl s
  · cases node with
    | none => cases h
    | some p =>
      obtain ⟨queues, -, h⟩ := bind_eq_ok.mp h
      obtain rfl := Except.ok.inj h
      have haside : Aside s (s.setTcb p { s.tcbs p with priority }) := .setTcb rfl
      exact haside.withQueues queues

theorem moveHead_aside {m : MutexPtr} {priority : ℤ} (h : moveHead m priority s = .ok s') :
    Aside s s' := by
  obtain ⟨⟨node, queues⟩, -, h⟩ := bind_eq_ok.mp h
  obtain ⟨queues', -, h⟩ := bind_eq_ok.mp h
  obtain rfl := Except.ok.inj h
  exact (Aside.refl s).withQueues queues'

theorem dequeueWaiter_aside {m : MutexPtr} {node : Option TcbPtr}
    (h : dequeueWaiter m s = .ok (node, s')) : Aside s s' := by
  obtain ⟨⟨node', queues⟩, -, h⟩ := bind_eq_ok.mp h
  obtain ⟨-, rfl⟩ := h
  exact (Aside.refl s).withQueues queues

theorem scheduleWaiter_aside {node : Option TcbPtr} (h : scheduleWaiter node s = .ok s') :
    Aside s s' := by
  cases node with
  | none =>
    obtain rfl := Except.ok.inj h
    exact .refl s
  | some p =>
    change scheduleThread (some p) 0 s = _ at h
    exact scheduleThread_aside h

omit [QueueStore σ QueuePtr TcbPtr] in
theorem markUnlock_aside (h : markUnlock s = .ok s') : Aside s s' := by
  obtain ⟨cur, -, h⟩ := bind_eq_ok.mp h
  obtain rfl := Except.ok.inj h
  exact ⟨fun _ => rfl, rfl, rfl, rfl, rfl, rfl, rfl⟩

theorem statement_acts (h : statement s = .ok s') : ByOwner s s' ∧ Acts s s' := by
  -- a statement that does nothing to mutexes and contexts but go on
  have haside : ∀ {u : State σ} {pc : Pc}, Aside s u → (∀ m, s.cpu.pc ≠ .lockWon m) →
      (∀ m, pc ≠ .lockWon m) → (∀ m, pc ≠ .unlockRelease m) →
      ByOwner s (u.setPc pc) ∧ Acts s (u.setPc pc) :=
    fun hu hpc hwon hrelease => ⟨hu.setPc _, .of_aside hu hpc hwon hrelease⟩
  have hmutex : ∀ {mutexes : MutexPtr → Option MutexState} {cpu : Context},
      cpu.owner = s.cpu.owner → ByOwner s { s with mutexes, cpu } :=
    fun howner => ⟨fun _ => rfl, howner, rfl, rfl, rfl, id⟩
  unfold statement at h
  cases hpc : s.cpu.pc with
  | start routine =>
    rw [hpc] at h
    obtain rfl := Except.ok.inj h
    exact haside (.setTcb rfl) (by simp [hpc]) (by simp) (by simp)
  | lockTest m priority =>
    rw [hpc] at h
    obtain ⟨⟨found, u⟩, htas, h⟩ := bind_eq_ok.mp h
    obtain ⟨hm, rfl⟩ := testAndSet_ok htas
    obtain rfl := Except.ok.inj h
    cases found with
    | unlocked => exact ⟨hmutex rfl, .win hpc hm rfl rfl⟩
    | locked =>
      refine ⟨hmutex rfl, .quiet ?_ rfl (by simp [hpc]) (by simp [afterTest]) (by simp [afterTest])⟩
      rw [← hm]
      exact Function.update_eq_self ..
  | lockMove m priority =>
    rw [hpc] at h
    obtain ⟨u, hmove, h⟩ := bind_eq_ok.mp h
    obtain rfl := Except.ok.inj h
    exact haside (moveHead_aside hmove) (by simp [hpc]) (by simp) (by simp)
  | lockPark m priority =>
    rw [hpc] at h
    obtain rfl := Except.ok.inj h
    exact haside (.refl s) (by simp [hpc]) (by simp) (by simp)
  | lockWon m =>
    rw [hpc] at h
    obtain rfl := Except.ok.inj h
    exact ⟨hmutex rfl, .enter hpc rfl rfl⟩
  | unlockRelease m =>
    rw [hpc] at h
    obtain ⟨u, hrelease, h⟩ := bind_eq_ok.mp h
    obtain ⟨-, rfl⟩ := release_ok hrelease
    obtain rfl := Except.ok.inj h
    exact ⟨hmutex rfl, .release hpc rfl rfl⟩
  | unlockDequeue m =>
    rw [hpc] at h
    obtain ⟨⟨node, u⟩, hdeq, h⟩ := bind_eq_ok.mp h
    obtain rfl := Except.ok.inj h
    exact haside (dequeueWaiter_aside hdeq) (by simp [hpc]) (by simp) (by simp)
  | unlockSchedule m node =>
    rw [hpc] at h
    obtain ⟨u, hsched, h⟩ := bind_eq_ok.mp h
    obtain rfl := Except.ok.inj h
    exact haside (scheduleWaiter_aside hsched) (by simp [hpc]) (by simp) (by simp)
  | unlockMark m =>
    rw [hpc] at h
    obtain ⟨u, hmark, h⟩ := bind_eq_ok.mp h
    obtain rfl := Except.ok.inj h
    exact haside (markUnlock_aside hmark) (by simp [hpc]) (by simp) (by simp)
  | joinWait node =>
    rw [hpc] at h
    obtain ⟨value, -, h⟩ := bind_eq_ok.mp h
    obtain rfl := Except.ok.inj h
    exact haside (.refl s) (by simp [hpc]) (by simp) (by simp)
  | returned value =>
    rw [hpc] at h
    dsimp only at h
    split_ifs at h
    · obtain rfl := Except.ok.inj h
      exact haside (.refl s) (by simp [hpc]) (by simp) (by simp)
    · obtain rfl := Except.ok.inj h
      exact haside (.refl s) (by simp [hpc]) (by simp) (by simp)
  | storing value =>
    rw [hpc] at h
    obtain rfl := Except.ok.inj h
    exact haside (.setTcb rfl) (by simp [hpc]) (by simp) (by simp)
  | terminating =>
    rw [hpc] at h
    obtain rfl := Except.ok.inj h
    exact haside (.setTcb rfl) (by simp [hpc]) (by simp) (by simp)
  | body => simp [hpc] at h
  | lockPause m priority => simp [hpc] at h
  | exitPause value => simp [hpc] at h
  | finalPause => simp [hpc] at h
  | ended => simp [hpc] at h

end Acts

section Steps

variable {s s' u : State σ} {a a' : Owners}

theorem ByOwner.contextOf (h : ByOwner s s') {p : TcbPtr} (hp : p ≠ s.cpu.owner) :
    s'.contextOf p = s.contextOf p := by
  rw [contextOf_eq_tcb (Ne.symm hp), contextOf_eq_tcb (h.owner ▸ Ne.symm hp), h.context]

theorem Owned.byOwner (h : Owned s a) (hmem : s.cpu.owner ∈ s.threads) (hf : ByOwner s s')
    (hsound : s'.cpu.Sound) (howns : ∀ m, s'.cpu.Owns m ↔ a' m = some s.cpu.owner)
    (hothers : ∀ m p, p ≠ s.cpu.owner → (a' m = some p ↔ a m = some p))
    (hlocked : ∀ m, s'.mutexes m = some .locked ↔ a' m ≠ none) : Owned s' a' where
  running _ := by
    rw [hf.owner, hf.threads]
    exact hmem
  idle hnone := by
    rw [hf.threads] at hnone
    exact absurd hmem (by simp [hnone])
  allocated p hp := by
    rw [hf.threads] at hp
    rw [hf.frontier]
    exact h.allocated p hp
  sound p hp := by
    rw [hf.threads] at hp
    by_cases hpo : p = s.cpu.owner
    · rw [hpo, ← hf.owner, contextOf_self]
      exact hsound
    · rw [hf.contextOf hpo]
      exact h.sound p hp
  owns p hp m := by
    rw [hf.threads] at hp
    by_cases hpo : p = s.cpu.owner
    · rw [hpo, ← hf.owner, contextOf_self, hf.owner]
      exact howns m
    · rw [hf.contextOf hpo, hothers m p hpo]
      exact h.owns p hp m
  owners m p hp := by
    rw [hf.threads]
    by_cases hpo : p = s.cpu.owner
    · rw [hpo]
      exact hmem
    · exact h.owners m p ((hothers m p hpo).mp hp)
  locked := hlocked

theorem Owned.owner_sound (h : Owned s a) (hmem : s.cpu.owner ∈ s.threads) : s.cpu.Sound := by
  have hsound := h.sound _ hmem
  rwa [contextOf_self] at hsound

theorem Owned.owner_owns (h : Owned s a) (hmem : s.cpu.owner ∈ s.threads) (m : MutexPtr) :
    s.cpu.Owns m ↔ a m = some s.cpu.owner := by
  have howns := h.owns _ hmem m
  rwa [contextOf_self] at howns

theorem Owned.quiet (h : Owned s a) (hmem : s.cpu.owner ∈ s.threads) (hf : ByOwner s s')
    (hmutexes : s'.mutexes = s.mutexes) (hheld : s'.cpu.held = s.cpu.held)
    (hpc : ∀ m, s.cpu.pc ≠ .lockWon m) (hwon : ∀ m, s'.cpu.pc ≠ .lockWon m)
    (hrelease : ∀ m, s'.cpu.pc = .unlockRelease m → m ∈ s.cpu.held) : Owned s' a := by
  refine h.byOwner hmem hf ⟨hheld ▸ (h.owner_sound hmem).nodup, fun m hm => absurd hm (hwon m),
    fun m hm => hheld ▸ hrelease m hm⟩ (fun m => ?_) (fun _ _ _ => .rfl) fun m => ?_
  · rw [← h.owner_owns hmem m, Context.Owns, Context.Owns, hheld]
    exact or_congr .rfl (iff_of_false (hwon m) (hpc m))
  · rw [hmutexes]
    exact h.locked m

/-- An act changes the table in one of the three ways. -/
theorem Owned.acts (h : Owned s a) (hmem : s.cpu.owner ∈ s.threads) (hf : ByOwner s s')
    (ha : Acts s s') : ∃ a', a.Step a' ∧ Owned s' a' := by
  have hsound := h.owner_sound hmem
  have howns := h.owner_owns hmem
  cases ha with
  | quiet hmutexes hheld hpc hwon hrelease =>
    exact ⟨a, .stay, h.quiet hmem hf hmutexes hheld hpc hwon hrelease⟩
  | @win m priority hpc hm hmutexes hcpu =>
    have hfree : a m = none := by
      by_contra hne
      rw [(h.locked m).mpr hne] at hm
      cases hm
    have hheld : ∀ m', m' ∈ s.cpu.held ↔ a m' = some s.cpu.owner := fun m' => by
      rw [← howns m', Context.Owns]
      simp [hpc]
    refine ⟨_, .acquire (p := s.cpu.owner) hfree, h.byOwner hmem hf ?_ (fun m' => ?_)
      (fun m' p hp => ?_) fun m' => ?_⟩
    · rw [hcpu]
      refine ⟨hsound.nodup, fun m' hm' => ?_, fun m' hm' => by cases hm'⟩
      obtain rfl : m = m' := Pc.lockWon.inj hm'
      simp [hheld, hfree]
    · rw [hcpu]
      by_cases hm' : m' = m
      · subst hm'
        simp [Context.Owns]
      · rw [Function.update_of_ne hm', ← hheld m']
        simp [Context.Owns, Ne.symm hm']
    · by_cases hm' : m' = m
      · subst hm'
        simp [hfree, Ne.symm hp]
      · rw [Function.update_of_ne hm']
    · rw [hmutexes]
      by_cases hm' : m' = m
      · subst hm'
        simp
      · rw [Function.update_of_ne hm', Function.update_of_ne hm']
        exact h.locked m'
  | @enter m hpc hmutexes hcpu =>
    refine ⟨a, .stay, h.byOwner hmem hf ?_ (fun m' => ?_) (fun _ _ _ => .rfl) fun m' => ?_⟩
    · rw [hcpu]
      exact ⟨List.nodup_cons.mpr ⟨hsound.won m hpc, hsound.nodup⟩, fun m' hm' => (by cases hm'),
        fun m' hm' => by cases hm'⟩
    · rw [hcpu, ← howns m']
      simp [Context.Owns, hpc, or_comm, eq_comm]
    · rw [hmutexes]
      exact h.locked m'
  | @release m hpc hmutexes hcpu =>
    have hown : a m = some s.cpu.owner := (howns m).mp (Or.inl (hsound.releasing m hpc))
    refine ⟨_, .release hown, h.byOwner hmem hf ?_ (fun m' => ?_) (fun m' p hp => ?_)
      fun m' => ?_⟩
    · rw [hcpu]
      exact ⟨hsound.nodup.erase m, fun m' hm' => (by cases hm'), fun m' hm' => by cases hm'⟩
    · have hmem' : Context.Owns s'.cpu m' ↔ m' ≠ m ∧ m' ∈ s.cpu.held := by
        rw [hcpu, Context.Owns, hsound.nodup.mem_erase_iff]
        simp
      rw [hmem']
      by_cases hm' : m' = m
      · subst hm'
        simp
      · rw [Function.update_of_ne hm', ← howns m']
        simp [Context.Owns, hpc, hm']
    · by_cases hm' : m' = m
      · subst hm'
        simp [hown, Ne.symm hp]
      · rw [Function.update_of_ne hm']
    · rw [hmutexes]
      by_cases hm' : m' = m
      · subst hm'
        simp
      · rw [Function.update_of_ne hm', Function.update_of_ne hm']
        exact h.locked m'

theorem Owned.goes {pc : Pc} (h : Owned s a) (hu : Aside s u)
    (hpc : s.threads ≠ [] → ∀ m, s.cpu.pc ≠ .lockWon m) (hwon : ∀ m, pc ≠ .lockWon m)
    (hrelease : ∀ m, pc = .unlockRelease m → m ∈ s.cpu.held)
    (hidle : s.threads = [] → pc = .body ∨ ∃ p, pc = .joinWait p) : Owned (u.setPc pc) a := by
  have hf := hu.setPc pc
  by_cases hnone : s.threads = []
  · have hempty : (u.setPc pc).threads = [] := hf.threads.trans hnone
    have hno : ∀ p, p ∉ (u.setPc pc).threads := fun p hp => by rw [hempty] at hp; cases hp
    obtain ⟨hcur, hheld, -⟩ := h.idle hnone
    refine ⟨fun hne => absurd hempty hne, fun _ => ⟨hf.currentTcb hcur, ?_, hidle hnone⟩,
      fun p hp => absurd hp (hno p), fun p hp => absurd hp (hno p), fun p hp => absurd hp (hno p),
      fun m p hp => ?_, fun m => ?_⟩
    · simpa [hu.cpu] using hheld
    · rw [hf.threads]
      exact h.owners m p hp
    · rw [State.setPc_mutexes, hu.mutexes]
      exact h.locked m
  · have hheld : (u.setPc pc).cpu.held = s.cpu.held := by simp [hu.cpu]
    exact h.quiet (h.running hnone) hf hu.mutexes hheld (hpc hnone) hwon hrelease

theorem Owned.congr (h : Owned s a) (htcbs : s'.tcbs = s.tcbs) (hcpu : s'.cpu = s.cpu)
    (hthreads : s'.threads = s.threads) (hfrontier : s'.frontier = s.frontier)
    (hlocked : ∀ m, s'.mutexes m = some .locked ↔ s.mutexes m = some .locked)
    (hcur : s.currentTcb = none → s'.currentTcb = none) : Owned s' a := by
  have hcontext : s'.contextOf = s.contextOf := by
    funext p
    simp only [State.contextOf, htcbs, hcpu]
  refine ⟨?_, ?_, ?_, ?_, ?_, ?_, fun m => (hlocked m).trans (h.locked m)⟩
  · rw [hthreads, hcpu]
    exact h.running
  · rw [hthreads, hcpu]
    exact fun hnone => ⟨hcur (h.idle hnone).1, (h.idle hnone).2⟩
  · rw [hthreads, hfrontier]
    exact h.allocated
  · rw [hthreads, hcontext]
    exact h.sound
  · rw [hthreads, hcontext]
    exact h.owns
  · rw [hthreads]
    exact h.owners

variable [QueueStore σ QueuePtr TcbPtr]

theorem Owned.mutexInit {m : MutexPtr} (h : Owned s a) (ht : myPthreadMutexInit m s = .ok s') :
    Owned s' a := by
  unfold myPthreadMutexInit at ht
  split_ifs at ht with hm hinit
  · -- the scheduler is there
    obtain rfl := Except.ok.inj ht
    refine h.congr rfl rfl rfl rfl (fun m' => ?_) id
    by_cases hm' : m' = m
    · subst hm'
      simp_all
    · simp [Function.update_of_ne hm']
  · obtain rfl := Except.ok.inj ht
    refine h.congr rfl rfl rfl rfl (fun m' => ?_) fun _ => rfl
    by_cases hm' : m' = m
    · subst hm'
      simp_all [initScheduler]
    · simp [Function.update_of_ne hm', initScheduler]

/-- Control blocks of threads stay as they are, and new threads are at the frontier. -/
structure Adds (s s' : State σ) (added : List TcbPtr) : Prop where
  context : ∀ p, p ≠ s.frontier → (s'.tcbs p).context = (s.tcbs p).context
  frontier : s'.frontier = s.frontier + 1
  mutexes : s'.mutexes = s.mutexes
  threads : s'.threads = s.threads ++ added

theorem createMain_adds {contextOk ok : Bool} (h : createMain contextOk s = .ok (ok, s')) :
    s'.tid = s.tid ∧
      (ok = false ∧ Adds s s' [] ∧ s'.cpu = s.cpu ∧ s'.currentTcb = s.currentTcb ∨
        ok = true ∧ Adds s s' [s.frontier] ∧ s'.cpu = { s.cpu with owner := s.frontier }) := by
  unfold createMain at h
  dsimp only at h
  split_ifs at h
  · obtain ⟨u, hu, h⟩ := bind_eq_ok.mp h
    obtain ⟨rfl, rfl⟩ := Prod.mk.inj (Except.ok.inj h)
    have haside := scheduleThread_aside hu
    refine ⟨haside.tid, Or.inr ⟨rfl, ⟨fun p hp => ?_, haside.frontier, haside.mutexes, ?_⟩, rfl⟩⟩
    · refine (haside.context p).trans ?_
      simp [State.readyTcb, State.allocateTcb, Function.update_of_ne hp]
    · exact congrArg (· ++ [s.frontier]) haside.threads
  · obtain ⟨rfl, rfl⟩ := Prod.mk.inj (Except.ok.inj h)
    refine ⟨rfl, Or.inl ⟨rfl, ⟨fun p hp => ?_, rfl, rfl, by simp [State.allocateTcb]⟩, rfl, rfl⟩⟩
    simp [State.allocateTcb, Function.update_of_ne hp]

theorem createNode_adds {contextOk ok : Bool} {routine : Routine}
    (h : createNode contextOk routine s = .ok (ok, s')) :
    s'.tid = s.tid + 1 ∧ s'.cpu = s.cpu ∧ (Adds s s' [] ∨ Adds s s' [s.frontier] ∧
      (s'.tcbs s.frontier).context = ⟨s.frontier, .start routine, []⟩) := by
  unfold createNode at h
  dsimp only at h
  split_ifs at h
  · obtain ⟨u, hu, h⟩ := bind_eq_ok.mp h
    obtain ⟨-, rfl⟩ := Prod.mk.inj (Except.ok.inj h)
    have haside := scheduleThread_aside hu
    refine ⟨haside.tid, haside.cpu, Or.inr ⟨⟨fun p hp => ?_, haside.frontier, haside.mutexes,
      ?_⟩, ?_⟩⟩
    · refine (haside.context p).trans ?_
      simp [State.readyTcb, State.allocateTcb, Function.update_of_ne hp]
    · exact congrArg (· ++ [s.frontier]) haside.threads
    · refine (haside.context _).trans ?_
      simp [State.readyTcb]
  · obtain ⟨-, rfl⟩ := Prod.mk.inj (Except.ok.inj h)
    refine ⟨rfl, rfl, Or.inl ⟨fun p hp => ?_, rfl, rfl, by simp [State.allocateTcb]⟩⟩
    simp [State.allocateTcb, Function.update_of_ne hp]

omit [QueueStore σ QueuePtr TcbPtr] in
theorem Owned.adds_none (h : Owned s a) (hadds : Adds s s' []) (hcpu : s'.cpu = s.cpu)
    (hcur : s.threads = [] → s'.currentTcb = s.currentTcb) : Owned s' a := by
  have hthreads : s'.threads = s.threads := by simpa using hadds.threads
  have hcontext : ∀ p ∈ s.threads, s'.contextOf p = s.contextOf p := by
    intro p hp
    simp only [State.contextOf, hcpu, hadds.context p (h.allocated p hp).ne]
  constructor
  · rw [hthreads, hcpu]
    exact h.running
  · rw [hthreads, hcpu]
    exact fun hnone => ⟨(hcur hnone).trans (h.idle hnone).1, (h.idle hnone).2⟩
  · rw [hthreads, hadds.frontier]
    exact fun p hp => (h.allocated p hp).trans (Nat.lt_succ_self _)
  · rw [hthreads]
    exact fun p hp => hcontext p hp ▸ h.sound p hp
  · rw [hthreads]
    exact fun p hp => hcontext p hp ▸ h.owns p hp
  · rw [hthreads]
    exact h.owners
  · rw [hadds.mutexes]
    exact h.locked

omit [QueueStore σ QueuePtr TcbPtr] in
theorem Owned.adds_one (h : Owned s a) (hadds : Adds s s' [s.frontier])
    (hidle : ∀ m, ¬ (s'.contextOf s.frontier).Owns m) (hsound : (s'.contextOf s.frontier).Sound)
    (hold : ∀ p ∈ s.threads, s'.contextOf p = s.contextOf p) (hcpu : s'.cpu.owner ∈ s'.threads) :
    Owned s' a := by
  have hmem : ∀ p, p ∈ s'.threads ↔ p ∈ s.threads ∨ p = s.frontier := by
    simp [hadds.threads]
  have hfresh : ∀ m, a m ≠ some s.frontier := fun m hm =>
    (h.allocated _ (h.owners m _ hm)).false
  constructor
  · exact fun _ => hcpu
  · exact fun hnone => absurd hcpu (by simp [hnone])
  · intro p hp
    rw [hadds.frontier]
    rcases (hmem p).mp hp with hp | rfl
    · exact (h.allocated p hp).trans (Nat.lt_succ_self _)
    · exact Nat.lt_succ_self _
  · intro p hp
    rcases (hmem p).mp hp with hp | rfl
    · rw [hold p hp]
      exact h.sound p hp
    · exact hsound
  · intro p hp m
    rcases (hmem p).mp hp with hp | rfl
    · rw [hold p hp]
      exact h.owns p hp m
    · exact iff_of_false (hidle m) (hfresh m)
  · exact fun m p hp => (hmem p).mpr (Or.inl (h.owners m p hp))
  · rw [hadds.mutexes]
    exact h.locked

theorem Owned.createMain {contextOk ok : Bool} (h : Owned s a) (hnone : s.threads = [])
    (ht : createMain contextOk s = .ok (ok, s')) :
    Owned s' a ∧ (ok = false ∧ s'.threads = [] ∨ ok = true ∧ s'.threads ≠ []) := by
  obtain ⟨-, ⟨rfl, hadds, hcpu, hcur⟩ | ⟨rfl, hadds, hcpu⟩⟩ := createMain_adds ht
  · exact ⟨h.adds_none hadds hcpu fun _ => hcur, Or.inl ⟨rfl, by simp [hadds.threads, hnone]⟩⟩
  · have hidle := (h.idle hnone).2
    have hcontext : s'.contextOf s.frontier = { s.cpu with owner := s.frontier } := by
      rw [State.contextOf, hcpu, if_pos rfl]
    have hne : s'.threads ≠ [] := by simp [hadds.threads]
    refine ⟨h.adds_one hadds ?_ ?_ (by simp [hnone]) (by simp [hcpu, hadds.threads]),
      Or.inr ⟨rfl, hne⟩⟩
    · rw [hcontext]
      exact fun m => Context.Idle.not_owns (c := { s.cpu with owner := s.frontier }) hidle
    · rw [hcontext]
      exact Context.Idle.sound (c := { s.cpu with owner := s.frontier }) hidle

theorem Owned.createNode {contextOk ok : Bool} {routine : Routine} (h : Owned s a)
    (hsome : s.threads ≠ [])
    (ht : createNode contextOk routine s = .ok (ok, s')) :
    Owned s' a ∧ s'.tid = s.tid + 1 ∧ s'.threads ≠ [] := by
  obtain ⟨htid, hcpu, hadds | ⟨hadds, hstart⟩⟩ := createNode_adds ht
  · exact ⟨h.adds_none hadds hcpu fun hnone => absurd hnone hsome, htid, by
      simpa [hadds.threads] using hsome⟩
  · have howner : s.cpu.owner ≠ s.frontier := (h.allocated _ (h.running hsome)).ne
    have hcontext : s'.contextOf s.frontier = ⟨s.frontier, .start routine, []⟩ := by
      rw [State.contextOf, hcpu, if_neg howner, hstart]
    have hold : ∀ p ∈ s.threads, s'.contextOf p = s.contextOf p := by
      intro p hp
      simp only [State.contextOf, hcpu, hadds.context p (h.allocated p hp).ne]
    refine ⟨h.adds_one hadds ?_ ?_ hold ?_, htid, by simp [hadds.threads]⟩
    · rw [hcontext]
      simp [Context.Owns]
    · rw [hcontext]
      exact ⟨.nil, fun m hm => (by cases hm), fun m hm => by cases hm⟩
    · rw [hcpu, hadds.threads]
      exact List.mem_append_left _ (h.running hsome)

theorem Owned.create {mainContext nodeContext ok : Bool} {routine : Routine} (h : Owned s a)
    (hcount : s.tid = 0 ↔ s.threads = [])
    (ht : myPthreadCreate mainContext nodeContext routine s = .ok (ok, s')) :
    Owned s' a ∧ (s'.tid = 0 ↔ s'.threads = []) := by
  obtain ⟨u, hu, hcount', ht⟩ : ∃ u, Owned u a ∧ (u.tid = 0 ↔ u.threads = []) ∧
      createThreads mainContext nodeContext routine u = .ok (ok, s') := by
    refine ⟨_, ?_, ?_, ht⟩
    · split_ifs
      · exact h
      · exact h.congr rfl rfl rfl rfl (fun _ => .rfl) fun _ => rfl
    · split_ifs
      · exact hcount
      · exact hcount
  have hnode : ∀ {v : State σ}, Owned v a → v.threads ≠ [] →
      Scheduler.createNode nodeContext routine v = .ok (ok, s') →
      Owned s' a ∧ (s'.tid = 0 ↔ s'.threads = []) := by
    intro v hv hne hn
    obtain ⟨hs', htid, hsome⟩ := hv.createNode hne hn
    exact ⟨hs', by simp [htid, hsome]⟩
  unfold createThreads at ht
  split_ifs at ht with htid
  · obtain ⟨⟨ok', v⟩, hmain, ht⟩ := bind_eq_ok.mp ht
    obtain ⟨hv, ⟨rfl, hnone⟩ | ⟨rfl, hsome⟩⟩ := hu.createMain (hcount'.mp htid) hmain
    · obtain ⟨rfl, rfl⟩ := Prod.mk.inj (Except.ok.inj ht)
      have hsame := (createMain_adds hmain).1
      exact ⟨hv, by simp [hsame, htid, hnone]⟩
    · exact hnode hv hsome ht
  · exact hnode hu (fun hnone => htid (hcount'.mpr hnone)) ht

omit [QueueStore σ QueuePtr TcbPtr] in
theorem Owned.threads_ne_nil {cur : TcbPtr} (h : Owned s a) (hcur : s.currentTcb = some cur) :
    s.threads ≠ [] := by
  intro hnone
  rw [(h.idle hnone).1] at hcur
  cases hcur

theorem Owned.call {c : ClientCall} {fuel : ℕ} (h : Owned s a)
    (hcount : s.tid = 0 ↔ s.threads = []) (hbody : s.cpu.pc = .body)
    (ht : c.run fuel s = .ok s') : Owned s' a ∧ (s'.tid = 0 ↔ s'.threads = []) := by
  have hpc : s.threads ≠ [] → ∀ m, s.cpu.pc ≠ .lockWon m := by simp [hbody]
  cases c with
  | create mainContext nodeContext routine =>
    obtain ⟨⟨ok, u⟩, hcreate, hu⟩ := bind_eq_ok.mp ht
    obtain rfl := Except.ok.inj hu
    exact h.create hcount hcreate
  | mutexInit m =>
    refine ⟨h.mutexInit ht, ?_⟩
    change myPthreadMutexInit m s = _ at ht
    unfold myPthreadMutexInit at ht
    split_ifs at ht <;> obtain rfl := Except.ok.inj ht <;> exact hcount
  | lock m =>
    obtain ⟨cur, hcur, hlock⟩ := bind_eq_ok.mp ht
    obtain rfl := Except.ok.inj hlock
    have hne := h.threads_ne_nil (State.current_eq_ok.mp hcur)
    exact ⟨h.goes (.refl s) hpc (by simp) (by simp) fun hnone => absurd hnone hne, hcount⟩
  | unlock m =>
    change (if m ∈ s.cpu.held then _ else _) = _ at ht
    split_ifs at ht with hheld
    obtain rfl := Except.ok.inj ht
    refine ⟨h.goes (.refl s) hpc (by simp) (fun m' hm' => ?_) fun hnone => ?_, hcount⟩
    · exact Pc.unlockRelease.inj hm' ▸ hheld
    · simp [(h.idle hnone).2.1] at hheld
  | exit value =>
    obtain ⟨cur, hcur, hexit⟩ := bind_eq_ok.mp ht
    obtain rfl := Except.ok.inj hexit
    have haside : Aside s (s.setTcb cur
        { s.tcbs cur with returnValue := value, state := .terminated }) := .setTcb rfl
    have hgoes : Owned (State.setPc _ s.cpu.pc) a := h.goes haside hpc (by simp [hbody])
      (by simp [hbody]) fun _ => Or.inl hbody
    exact ⟨hgoes, hcount⟩
  | join tid =>
    obtain ⟨found, -, hjoin⟩ := bind_eq_ok.mp ht
    cases found with
    | none =>
      obtain rfl := Except.ok.inj hjoin
      exact ⟨h, hcount⟩
    | some p =>
      obtain rfl := Except.ok.inj hjoin
      exact ⟨h.goes (.refl s) hpc (by simp) (by simp) fun _ => Or.inr ⟨p, rfl⟩, hcount⟩
  | functionReturn value =>
    change (if s.onMain then _ else _) = _ at ht
    split_ifs at ht with hmain
    obtain rfl := Except.ok.inj ht
    refine ⟨h.goes (.refl s) hpc (by simp) (by simp) fun hnone => absurd ?_ hmain, hcount⟩
    simp [State.onMain, hnone]

theorem Owned.statement (h : Owned s a) (ht : statement s = .ok s') :
    ∃ a', a.Step a' ∧ Owned s' a' := by
  obtain ⟨hf, ha⟩ := statement_acts ht
  by_cases hnone : s.threads = []
  · refine ⟨a, .stay, ?_⟩
    unfold Scheduler.statement at ht
    rcases (h.idle hnone).2.2 with hpc | ⟨p, hpc⟩
    · simp [hpc] at ht
    · rw [hpc] at ht
      obtain ⟨value, -, ht⟩ := bind_eq_ok.mp ht
      obtain rfl := Except.ok.inj ht
      exact h.goes (.refl s) (by simp [hpc]) (by simp) (by simp) fun _ => Or.inl rfl
  · exact h.acts (h.running hnone) hf ha

/-- Every event under a free scheduler is a step of the table of owners. -/
theorem Owned.step {e : Event} (h : Owned s a) (hcount : s.tid = 0 ↔ s.threads = [])
    (hs : FreeStep s e s') :
    ∃ a', a.Step a' ∧ Owned s' a' ∧ (s'.tid = 0 ↔ s'.threads = []) := by
  cases e with
  | tick now start =>
    have hr : Rescheduled s s' := hs
    refine ⟨a, .stay, h.rescheduled hr, ?_⟩
    rw [hr.tid, hr.threads]
    exact hcount
  | call c =>
    obtain ⟨fuel, hrun⟩ := hs
    change (if s.cpu.pc = .body then _ else _) = _ at hrun
    split_ifs at hrun with hpc
    exact ⟨a, .stay, h.call hcount hpc hrun⟩
  | next =>
    obtain ⟨fuel, hrun⟩ := hs
    obtain ⟨a', hstep, hs'⟩ := h.statement hrun
    obtain ⟨hf, -⟩ := statement_acts hrun
    refine ⟨a', hstep, hs', ?_⟩
    rw [hf.tid, hf.threads]
    exact hcount

/-- Under a free scheduler the machine refines the table of owners. -/
theorem run_owned {queues : σ} {storage : TcbPtr → Tcb} {events : List Event}
    (h : Run FreeStep (State.initial queues storage) events s) :
    ∃ a, Run (fun (a : Owners) (_ : Event) a' => a.Step a') (fun _ => none) events a ∧
      Owned s a ∧ (s.tid = 0 ↔ s.threads = []) := by
  refine Run.simulation (R := fun s a => Owned s a ∧ (s.tid = 0 ↔ s.threads = [])) ?_ ?_ h
  · rintro s e s' a ⟨ha, hcount⟩ hs
    exact ha.step hcount hs
  · exact ⟨.initial queues storage, by simp [State.initial]⟩

end Steps

end Machine

section Scheduling

theorem tick_rescheduled {t t' : State TcbLists} {now start : Time} {fuel : ℕ} (h : Steady t)
    (ht : tick now start fuel t = .ok t') : Rescheduled t t' := by
  obtain ⟨-, hf, -⟩ := tick_outcome h.toPlaced ht
  obtain ⟨cur, hcur⟩ := tick_current ht
  have hne : t.threads ≠ [] := List.ne_nil_of_mem (h.current cur hcur).1
  refine ⟨hf.threads, hf.frontier, hf.tid, hf.mutexes, ?_, fun p _ => ?_⟩
  · exact (h.tick ht).running (by rwa [hf.threads])
  · rw [hf.context]
    exact interrupt_contextOf t p

theorem EventStep.free {s s' : State TcbLinks} {t : State TcbLists} {e : Event}
    (hr : Refines s t) (ht : Steady t) (hs : EventStep s e s') : FreeStep s e s' := by
  cases e with
  | tick now start =>
    obtain ⟨t', ⟨fuel, htick⟩, hr', -⟩ := hs.simulates hr ht
    have hresched := tick_rescheduled ht htick
    obtain ⟨L, -, rfl⟩ := hr
    obtain ⟨L', -, rfl⟩ := hr'
    exact ⟨hresched.threads, hresched.frontier, hresched.tid, hresched.mutexes, hresched.owner,
      hresched.contexts⟩
  | call c => exact hs
  | next => exact hs

/-- Every interleaving under the real scheduler is one under a free scheduler. -/
theorem run_free {storage : TcbPtr → Tcb} {events : List Event} {s : State TcbLinks}
    (h : Run EventStep (State.initial noLinks storage) events s) :
    Run FreeStep (State.initial noLinks storage) events s := by
  induction h with
  | nil => exact .nil
  | snoc hrun hs ih =>
    obtain ⟨t, -, hr, ht⟩ := run_steady hrun
    exact ih.snoc (hs.free hr ht)

end Scheduling

/-- At most one thread is between lock and release of a mutex, which is `LOCKED` exactly when
one is or has just won the test-and-set. -/
theorem mutual_exclusion {σ : Type} [QueueStore σ QueuePtr TcbPtr] {queues : σ}
    {storage : TcbPtr → Tcb} {events : List Event} {s : State σ}
    (h : Run FreeStep (State.initial queues storage) events s) : MutuallyExclusive s := by
  obtain ⟨a, -, ha, -⟩ := run_owned h
  exact ha.mutuallyExclusive

/-- Main holds the mutex and releases it while thread 1 is between its test and its move. -/
def barging : List Event :=
  [.call (.create true true ⟨1, 0⟩), .call (.mutexInit 7), .call (.lock 7), .next, .next,
    .tick ⟨1, 0⟩ ⟨1, 0⟩, .next, .call (.lock 7), .next, .tick ⟨2, 0⟩ ⟨2, 0⟩, .call (.unlock 7),
    .next, .next, .next, .next, .call (.lock 7), .next, .next]

theorem mutual_exclusion_barging : ∃ s : State TcbLinks,
    Run EventStep (State.initial noLinks fun _ => zeroedTcb) barging s ∧ Holds s 7 0 ∧
      MutuallyExclusive s := by
  obtain ⟨s, hrun, hs⟩ := Run.of_runAll (Event.run_step 5) barging
    (State.initial noLinks fun _ => zeroedTcb)
    (fun s => (s.threads, s.cpu)) (b := ([0, 1], ⟨0, .body, [7]⟩)) (by decide +kernel)
  obtain ⟨hthreads, hcpu⟩ := Prod.mk.inj hs
  refine ⟨s, hrun, ⟨by simp [hthreads], ?_⟩, mutual_exclusion (run_free hrun)⟩
  rw [State.contextOf, hcpu]
  simp

end VirtualMemorySimulation.Scheduler
