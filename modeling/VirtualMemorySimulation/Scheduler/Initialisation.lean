import Mathlib.Data.List.TakeWhile
import VirtualMemorySimulation.Scheduler.Placement

/-!
# Initialisation in every order of calls

`init_scheduler` is called lazily by `my_pthread_mutex_init` and
`my_pthread_create`, and the calls on mutexes count on what it and the first
creation have set. The main program's calls are followed here with the number of
times that `init_scheduler` has been executed.
-/

namespace VirtualMemorySimulation.Scheduler

open Execution LinkedQueue

/-- A state with the number of times that `init_scheduler` has been executed. -/
structure Counted (σ : Type) where
  state : State σ
  inits : ℕ

namespace Counted

variable {σ : Type} [QueueStore σ QueuePtr TcbPtr]

/-- `init_scheduler`, counted. -/
def initScheduler (s : Counted σ) : Counted σ := ⟨Scheduler.initScheduler s.state, s.inits + 1⟩

/-- `my_pthread_mutex_init`, also of a mutex that has been initialised before. -/
def mutexInit (mutex : MutexPtr) (s : Counted σ) : Counted σ :=
  let s := if s.state.schedulerInit then s else s.initScheduler
  { s with
    state :=
      { s.state with
        queues := QueueStore.init (.wait mutex) s.state.queues
        mutexes := Function.update s.state.mutexes mutex (some .unlocked) } }

/-- `my_pthread_create`. -/
def create (mainContext nodeContext : Bool) (routine : Routine) (s : Counted σ) :
    Except Stop (Counted σ) := do
  let s := if s.state.schedulerInit then s
    else initScheduler { s with state := { s.state with schedulerInit := true } }
  let (_, state) ← createThreads mainContext nodeContext routine s.state
  .ok { s with state }

/-- `my_pthread_mutex_lock`. On a locked mutex the call does not come back. -/
def lock (mutex : MutexPtr) (s : Counted σ) : Except Stop (Counted σ) := do
  let state ← myPthreadMutexLock mutex s.state
  if s.state.mutexes mutex = some .locked then .error .notEnabled else .ok { s with state }

/-- `my_pthread_mutex_unlock`. -/
def unlock (mutex : MutexPtr) (s : Counted σ) : Except Stop (Counted σ) := do
  let state ← myPthreadMutexUnlock mutex s.state
  .ok { s with state }

theorem mutexInit_state {mutex : MutexPtr} {s : Counted σ} (h : s.state.mutexes mutex = none) :
    myPthreadMutexInit mutex s.state = .ok (s.mutexInit mutex).state := by
  unfold myPthreadMutexInit mutexInit
  rw [if_neg (by simp [h])]
  dsimp only
  split_ifs <;> rfl

theorem create_state (mainContext nodeContext : Bool) (routine : Routine) (s : Counted σ) :
    (s.create mainContext nodeContext routine).map Counted.state =
      (myPthreadCreate mainContext nodeContext routine s.state).map Prod.snd := by
  have hmap : ∀ u : Counted σ, (createThreads mainContext nodeContext routine u.state >>= fun r =>
      Except.ok { u with state := r.2 }).map Counted.state =
        (createThreads mainContext nodeContext routine u.state).map Prod.snd := by
    intro u
    cases createThreads mainContext nodeContext routine u.state <;> rfl
  unfold create myPthreadCreate
  split_ifs with h
  · exact hmap s
  · exact hmap (initScheduler { s with state := { s.state with schedulerInit := true } })

end Counted

/-- The calls of the main program. The flags tell whether `getcontext` succeeds. -/
inductive MainCall where
  | mutexInit (mutex : MutexPtr)
  | lock (mutex : MutexPtr)
  | unlock (mutex : MutexPtr)
  | create (mainContext nodeContext : Bool) (routine : Routine)
  deriving DecidableEq, Repr

namespace MainCall

def exec {σ : Type} [QueueStore σ QueuePtr TcbPtr] : MainCall → Counted σ → Except Stop (Counted σ)
  | .mutexInit mutex, s => .ok (s.mutexInit mutex)
  | .lock mutex, s => s.lock mutex
  | .unlock mutex, s => s.unlock mutex
  | .create mainContext nodeContext routine, s => s.create mainContext nodeContext routine

def isMutexInit : MainCall → Bool
  | .mutexInit _ => true
  | _ => false

def isCreate : MainCall → Bool
  | .create .. => true
  | _ => false

def takesMain : MainCall → Bool
  | .create mainContext _ _ => mainContext
  | _ => false

def uses : MainCall → Option MutexPtr
  | .lock mutex => some mutex
  | .unlock mutex => some mutex
  | _ => none

end MainCall

/-- Each mutex is initialised before it is used. -/
def InitialisedFirst (calls : List MainCall) : Prop :=
  ∀ pre c post mutex, calls = pre ++ c :: post → c.uses = some mutex → .mutexInit mutex ∈ pre

/-- The scheduler is initialised at most once in the course of the calls, so that it is never
replaced, and no call dereferences `SCHEDULER` or `current_tcb` when it is `NULL`. -/
def StartsSafely {σ : Type} [QueueStore σ QueuePtr TcbPtr] (s : Counted σ)
    (calls : List MainCall) : Prop :=
  runAll MainCall.exec calls s ≠ .error .nullDereference ∧
    ∀ pre s', pre <+: calls → runAll MainCall.exec pre s = .ok s' → s'.inits ≤ 1

/-- No mutex is initialised before the first creation, or only one and nothing is created;
and none is used before a creation has taken in the main context. -/
structure InOrder (calls : List MainCall) : Prop where
  inits : (∀ c ∈ calls.takeWhile fun c => ¬ c.isCreate, ¬ c.isMutexInit) ∨
    (∀ c ∈ calls, ¬ c.isCreate) ∧ calls.countP MainCall.isMutexInit ≤ 1
  uses : ∀ c ∈ calls.takeWhile fun c => ¬ c.takesMain, c.uses = none

section Sequences

variable {σ : Type} [QueueStore σ QueuePtr TcbPtr] {s s' : Counted σ} {c : MainCall}
  {calls : List MainCall}

theorem startsSafely_nil : StartsSafely s [] ↔ s.inits ≤ 1 := by
  constructor
  · intro h
    exact h.2 [] s List.nil_prefix rfl
  · intro h
    refine ⟨by simp [runAll], fun pre s' hpre hrun => ?_⟩
    obtain rfl := List.prefix_nil.mp hpre
    obtain rfl := Except.ok.inj hrun
    exact h

theorem startsSafely_cons (h : c.exec s = .ok s') :
    StartsSafely s (c :: calls) ↔ s.inits ≤ 1 ∧ StartsSafely s' calls := by
  have hrun : ∀ ks, runAll MainCall.exec (c :: ks) s = runAll MainCall.exec ks s' := by
    intro ks
    rw [runAll, h, ok_bind]
  unfold StartsSafely
  rw [hrun]
  constructor
  · rintro ⟨hnull, hinits⟩
    refine ⟨hinits [] s List.nil_prefix rfl, hnull, fun pre s₁ hpre h₁ => ?_⟩
    exact hinits (c :: pre) s₁ (List.cons_prefix_cons.mpr ⟨rfl, hpre⟩) ((hrun pre).trans h₁)
  · rintro ⟨hone, hnull, hinits⟩
    refine ⟨hnull, fun pre s₁ hpre h₁ => ?_⟩
    cases pre with
    | nil =>
      obtain rfl := Except.ok.inj h₁
      exact hone
    | cons k pre =>
      obtain ⟨rfl, hrest⟩ := List.cons_prefix_cons.mp hpre
      exact hinits pre s₁ hrest ((hrun pre).symm.trans h₁)

theorem startsSafely_stop {e : Stop} (h : c.exec s = .error e) :
    StartsSafely s (c :: calls) ↔ s.inits ≤ 1 ∧ e ≠ .nullDereference := by
  have hrun : ∀ ks, runAll MainCall.exec (c :: ks) s = .error e := by
    intro ks
    rw [runAll, h, error_bind]
  unfold StartsSafely
  rw [hrun]
  constructor
  · rintro ⟨hnull, hinits⟩
    exact ⟨hinits [] s List.nil_prefix rfl, by simpa using hnull⟩
  · rintro ⟨hone, hnull⟩
    refine ⟨by simpa using hnull, fun pre s₁ hpre h₁ => ?_⟩
    cases pre with
    | nil =>
      obtain rfl := Except.ok.inj h₁
      exact hone
    | cons k pre =>
      obtain ⟨rfl, -⟩ := List.cons_prefix_cons.mp hpre
      cases (hrun pre).symm.trans h₁

/-- What `init_scheduler` adds to the count if `SCHEDULER_INIT` is as given. -/
def initsOnce (schedulerInit : Bool) : ℕ := if schedulerInit then 0 else 1

/-- How often the calls execute `init_scheduler`, from a value of `SCHEDULER_INIT` on. -/
def initsOf : Bool → List MainCall → ℕ
  | _, [] => 0
  | init, .mutexInit _ :: calls => initsOnce init + initsOf init calls
  | init, .create .. :: calls => initsOnce init + initsOf true calls
  | init, _ :: calls => initsOf init calls

theorem initsOf_true (calls : List MainCall) : initsOf true calls = 0 := by
  induction calls with
  | nil => rfl
  | cons c calls ih => cases c <;> simp [initsOf, initsOnce, ih]

theorem initsOf_false (calls : List MainCall) : initsOf false calls =
    (calls.takeWhile fun c => ¬ c.isCreate).countP MainCall.isMutexInit +
      if ∃ c ∈ calls, c.isCreate then 1 else 0 := by
  induction calls with
  | nil => rfl
  | cons c calls ih =>
    cases c with
    | create mainContext nodeContext routine =>
      have hc : (MainCall.create mainContext nodeContext routine).isCreate := rfl
      simp [initsOf, initsOnce, initsOf_true, hc]
    | mutexInit mutex =>
      have hc : (MainCall.mutexInit mutex).isCreate = false := rfl
      have hm : (MainCall.mutexInit mutex).isMutexInit := rfl
      simp [initsOf, initsOnce, ih, hc, hm]
      omega
    | lock mutex =>
      have hc : (MainCall.lock mutex).isCreate = false := rfl
      have hm : (MainCall.lock mutex).isMutexInit = false := rfl
      simp [initsOf, ih, hc, hm]
    | unlock mutex =>
      have hc : (MainCall.unlock mutex).isCreate = false := rfl
      have hm : (MainCall.unlock mutex).isMutexInit = false := rfl
      simp [initsOf, ih, hc, hm]

theorem initsOf_le_one (calls : List MainCall) : initsOf false calls ≤ 1 ↔
    (∀ c ∈ calls.takeWhile fun c => ¬ c.isCreate, ¬ c.isMutexInit) ∨
      (∀ c ∈ calls, ¬ c.isCreate) ∧ calls.countP MainCall.isMutexInit ≤ 1 := by
  rw [initsOf_false]
  by_cases hcreate : ∃ c ∈ calls, c.isCreate
  · have hnot : ¬ ∀ c ∈ calls, ¬ c.isCreate := by simpa using hcreate
    rw [if_pos hcreate, or_iff_left fun h => hnot h.1, ← List.countP_eq_zero]
    omega
  · have hall : ∀ c ∈ calls, ¬ c.isCreate := by simpa using hcreate
    have htake : (calls.takeWhile fun c => ¬ c.isCreate) = calls := by
      rw [List.takeWhile_eq_self_iff]
      exact fun c hc => by simpa using hall c hc
    rw [if_neg hcreate, htake, and_iff_right hall, ← List.countP_eq_zero]
    omega

end Sequences

section OnLists

variable {t t' : State TcbLists} {s : Counted TcbLists} {m : MutexPtr}

/-- No creation has taken in the main context. -/
structure BeforeMain (t : State TcbLists) : Prop where
  current : t.currentTcb = none
  tid : t.tid = 0

/-- The main context is a thread, and level 0 is not empty. -/
structure HasMain (t : State TcbLists) : Prop where
  init : t.schedulerInit = true
  queued : t.queues (.level 0) ≠ []
  current : ∃ p, t.currentTcb = some p ∧ p < t.frontier ∧ (t.tcbs p).priority = 0

/-- A first creation has gone through that point. -/
structure AfterMain (t : State TcbLists) : Prop extends HasMain t where
  tid : t.tid ≠ 0

theorem HasMain.withMain (t : State TcbLists) (h : t.schedulerInit = true) : HasMain t.withMain where
  init := h
  queued := by
    change (t.queues.set (.level 0) (t.queues (.level 0) ++ [t.frontier])) (.level 0) ≠ []
    simp
  current :=
    ⟨t.frontier, rfl, Nat.lt_succ_self _, congrArg Tcb.priority (created_tcb_frontier t _ _)⟩

theorem HasMain.createNode (h : HasMain t) (nodeContext : Bool) (routine : Routine) :
    ∃ ok t', createNode nodeContext routine t = .ok (ok, t') ∧ AfterMain t' := by
  obtain ⟨p, hp, hlt, hprio⟩ := h.current
  refine ⟨_, _, createNode_lists nodeContext routine t, ?_⟩
  cases nodeContext with
  | false =>
    have htcb : (t.allocateTcb (t.tid + 1)).tcbs p = t.tcbs p := Function.update_of_ne hlt.ne ..
    exact ⟨⟨h.init, h.queued, p, hp, Nat.lt_succ_of_lt hlt, by rw [← hprio, ← htcb]; rfl⟩,
      Nat.succ_ne_zero _⟩
  | true =>
    have htcb : (t.withNode routine).tcbs p = t.tcbs p := Function.update_of_ne hlt.ne ..
    refine ⟨⟨h.init, ?_, p, hp, Nat.lt_succ_of_lt hlt, by rw [← hprio, ← htcb]; rfl⟩,
      Nat.succ_ne_zero _⟩
    change (t.queues.set (.level 0) (t.queues (.level 0) ++ [t.frontier])) (.level 0) ≠ []
    simp

theorem AfterMain.createThreads (h : AfterMain t) (mainContext nodeContext : Bool)
    (routine : Routine) :
    ∃ ok t', createThreads mainContext nodeContext routine t = .ok (ok, t') ∧ AfterMain t' := by
  unfold Scheduler.createThreads
  rw [if_neg h.tid]
  exact h.createNode nodeContext routine

theorem BeforeMain.createThreads (h : BeforeMain t) (hinit : t.schedulerInit = true)
    (mainContext nodeContext : Bool) (routine : Routine) :
    ∃ ok t', createThreads mainContext nodeContext routine t = .ok (ok, t') ∧
      t'.schedulerInit = true ∧
        if mainContext then AfterMain t' else BeforeMain t' ∧ t'.mutexes = t.mutexes := by
  unfold Scheduler.createThreads
  rw [if_pos h.tid, createMain_lists]
  cases mainContext with
  | false => exact ⟨false, t.allocateTcb t.tid, rfl, hinit, ⟨h.current, h.tid⟩, rfl⟩
  | true =>
    obtain ⟨ok, t', ht', hafter⟩ := (HasMain.withMain t hinit).createNode nodeContext routine
    exact ⟨ok, t', ht', hafter.init, hafter⟩

theorem BeforeMain.mutexInit (h : BeforeMain s.state) (m : MutexPtr) :
    BeforeMain (s.mutexInit m).state ∧
      (s.mutexInit m).state.schedulerInit = s.state.schedulerInit ∧
        (s.mutexInit m).inits = s.inits + initsOnce s.state.schedulerInit := by
  unfold Counted.mutexInit initsOnce
  cases hinit : s.state.schedulerInit with
  | false => exact ⟨⟨rfl, h.tid⟩, hinit, rfl⟩
  | true => exact ⟨⟨h.current, h.tid⟩, hinit, rfl⟩

theorem AfterMain.mutexInit (h : AfterMain s.state) (m : MutexPtr) :
    AfterMain (s.mutexInit m).state ∧ (s.mutexInit m).inits = s.inits := by
  unfold Counted.mutexInit
  rw [if_pos h.init]
  have hq : (s.state.queues.set (.wait m) []) (.level 0) = s.state.queues (.level 0) :=
    Lists.set_of_ne (by simp)
  exact ⟨⟨⟨h.init, hq ▸ h.queued, h.current⟩, h.tid⟩, rfl⟩

theorem BeforeMain.create (h : BeforeMain s.state) (mainContext nodeContext : Bool)
    (routine : Routine) :
    ∃ s', s.create mainContext nodeContext routine = .ok s' ∧ s'.state.schedulerInit = true ∧
      s'.inits = s.inits + initsOnce s.state.schedulerInit ∧
        if mainContext then AfterMain s'.state
        else BeforeMain s'.state ∧ s'.state.mutexes = s.state.mutexes := by
  unfold Counted.create initsOnce
  cases hinit : s.state.schedulerInit with
  | false =>
    have hbegun : BeforeMain (initScheduler { s.state with schedulerInit := true }) := ⟨rfl, h.tid⟩
    obtain ⟨ok, t', ht', hinit', hmain⟩ :=
      hbegun.createThreads rfl mainContext nodeContext routine
    refine ⟨⟨t', s.inits + 1⟩, ?_, hinit', rfl, hmain⟩
    simp [Counted.initScheduler, ht']
  | true =>
    obtain ⟨ok, t', ht', hinit', hmain⟩ := h.createThreads hinit mainContext nodeContext routine
    refine ⟨⟨t', s.inits⟩, ?_, hinit', rfl, hmain⟩
    simp [ht']

theorem AfterMain.create (h : AfterMain s.state) (mainContext nodeContext : Bool)
    (routine : Routine) :
    ∃ s', s.create mainContext nodeContext routine = .ok s' ∧ s'.inits = s.inits ∧
      AfterMain s'.state := by
  obtain ⟨ok, t', ht', hmain⟩ := h.createThreads mainContext nodeContext routine
  refine ⟨⟨t', s.inits⟩, ?_, rfl, hmain⟩
  unfold Counted.create
  rw [if_pos h.init]
  simp [ht']

theorem BeforeMain.lock (h : BeforeMain s.state) (m : MutexPtr) :
    s.lock m = .error .nullDereference := by
  unfold Counted.lock myPthreadMutexLock State.current
  rw [h.current]
  rfl

/-- What the statements on mutexes leave as it is. -/
structure Keeps (t u : State TcbLists) : Prop where
  currentTcb : u.currentTcb = t.currentTcb
  schedulerInit : u.schedulerInit = t.schedulerInit
  tid : u.tid = t.tid
  frontier : u.frontier = t.frontier
  queued : t.queues (.level 0) ≠ [] → u.queues (.level 0) ≠ []
  priority : ∀ p, (t.tcbs p).priority = 0 → (u.tcbs p).priority = 0

theorem Keeps.trans {u v : State TcbLists} (h : Keeps t u) (h' : Keeps u v) : Keeps t v :=
  ⟨h'.currentTcb.trans h.currentTcb, h'.schedulerInit.trans h.schedulerInit, h'.tid.trans h.tid,
    h'.frontier.trans h.frontier, fun hq => h'.queued (h.queued hq),
    fun p hp => h'.priority p (h.priority p hp)⟩

theorem AfterMain.keeps {u : State TcbLists} (h : AfterMain t) (hk : Keeps t u) : AfterMain u where
  init := hk.schedulerInit.trans h.init
  queued := hk.queued h.queued
  current := by
    obtain ⟨p, hp, hlt, hprio⟩ := h.current
    exact ⟨p, hk.currentTcb.trans hp, hk.frontier ▸ hlt, hk.priority p hprio⟩
  tid := hk.tid ▸ h.tid

theorem Keeps.withMutex (t : State TcbLists) (m : MutexPtr) (found : MutexState) :
    Keeps t { t with mutexes := Function.update t.mutexes m (some found) } :=
  ⟨rfl, rfl, rfl, rfl, id, fun _ => id⟩

theorem dequeueWaiter_keeps (m : MutexPtr) (t : State TcbLists) :
    ∃ node u, dequeueWaiter m t = .ok (node, u) ∧ Keeps t u := by
  change ∃ node u, (Lists.dequeue (.wait m) t.queues >>= fun res =>
    Except.ok (res.1, { t with queues := res.2 })) = Except.ok (node, u) ∧ _
  unfold Lists.dequeue
  cases t.queues (.wait m) with
  | nil => exact ⟨none, t, rfl, rfl, rfl, rfl, rfl, id, fun _ => id⟩
  | cons p l =>
    have hq : (t.queues.set (.wait m) l) (.level 0) = t.queues (.level 0) :=
      Lists.set_of_ne (by simp)
    exact ⟨some p, { t with queues := t.queues.set (.wait m) l }, rfl, rfl, rfl, rfl, rfl,
      fun hne => hq ▸ hne, fun _ => id⟩

theorem Keeps.scheduled (t : State TcbLists) (p : TcbPtr) : Keeps t (t.scheduled p) where
  currentTcb := rfl
  schedulerInit := rfl
  tid := rfl
  frontier := rfl
  queued _ := by simp
  priority r hr := by
    by_cases hp : r = p
    · subst hp
      simp
    · rw [State.scheduled_tcbs, State.setTcb_tcbs, Function.update_of_ne hp]
      exact hr

theorem scheduleWaiter_keeps (node : Option TcbPtr) (t : State TcbLists) :
    ∃ u, scheduleWaiter node t = .ok u ∧ Keeps t u := by
  cases node with
  | none => exact ⟨t, rfl, rfl, rfl, rfl, rfl, id, fun _ => id⟩
  | some p => exact ⟨t.scheduled p, scheduleThread_first t p, .scheduled t p⟩

theorem myPthreadMutexUnlock_marks (hm : t.mutexes m ≠ none) :
    ∃ u, myPthreadMutexUnlock m t = markUnlock u ∧ Keeps t u := by
  obtain ⟨found, hfound⟩ := Option.ne_none_iff_exists'.mp hm
  obtain ⟨node, u, hu, hk⟩ := dequeueWaiter_keeps m
    { t with mutexes := Function.update t.mutexes m (some .unlocked) }
  obtain ⟨v, hv, hk'⟩ := scheduleWaiter_keeps node u
  refine ⟨v, ?_, (Keeps.withMutex t m .unlocked).trans (hk.trans hk')⟩
  rw [myPthreadMutexUnlock, release, hfound]
  dsimp only
  rw [ok_bind, hu, ok_bind]
  dsimp only
  rw [hv, ok_bind]

theorem BeforeMain.unlock (h : BeforeMain s.state) (hm : s.state.mutexes m ≠ none) :
    s.unlock m = .error .nullDereference := by
  obtain ⟨u, hu, hk⟩ := myPthreadMutexUnlock_marks hm
  have hnone : u.currentTcb = none := hk.currentTcb.trans h.current
  unfold Counted.unlock
  rw [hu, markUnlock, State.current, hnone]
  rfl

/-- What becomes of a call when the main context is a thread: it ends, or it is not
enabled or does not come back. -/
def Goes (s : Counted TcbLists) (result : Except Stop (Counted TcbLists)) : Prop :=
  result = .error .notEnabled ∨
    ∃ s', result = .ok s' ∧ s'.inits = s.inits ∧ AfterMain s'.state

theorem AfterMain.unlock (h : AfterMain s.state) (m : MutexPtr) : Goes s (s.unlock m) := by
  unfold Counted.unlock
  by_cases hm : s.state.mutexes m = none
  · left
    rw [myPthreadMutexUnlock, release, hm]
    rfl
  · right
    obtain ⟨u, hu, hk⟩ := myPthreadMutexUnlock_marks hm
    have hmain := h.keeps hk
    obtain ⟨p, hp, -, -⟩ := hmain.current
    rw [hu, markUnlock, State.current_eq_ok.mpr hp]
    exact ⟨_, rfl, rfl, hmain.keeps ⟨rfl, rfl, rfl, rfl, id, fun _ => id⟩⟩

theorem moveHead_lists {p : TcbPtr} {l : List TcbPtr} (m : MutexPtr)
    (hq : t.queues (.level 0) = p :: l) : ∃ u, moveHead m 0 t = .ok u := by
  change ∃ u, (Lists.dequeue (.level 0) t.queues >>= _) = .ok u
  unfold Lists.dequeue
  rw [hq]
  exact ⟨_, rfl⟩

theorem AfterMain.lock (h : AfterMain s.state) (m : MutexPtr) : Goes s (s.lock m) := by
  obtain ⟨p, hp, -, hprio⟩ := h.current
  unfold Counted.lock myPthreadMutexLock lockPass testAndSet
  rw [State.current_eq_ok.mpr hp, ok_bind, hprio]
  cases hm : s.state.mutexes m with
  | none => exact Or.inl rfl
  | some found =>
    cases found with
    | unlocked => exact Or.inr ⟨_, rfl, rfl, h.keeps (.withMutex s.state m .locked)⟩
    | locked =>
      obtain ⟨r, l, hq⟩ := List.exists_cons_of_ne_nil h.queued
      obtain ⟨u, hu⟩ := moveHead_lists m (t := { s.state with
        mutexes := Function.update s.state.mutexes m (some .locked) }) hq
      left
      dsimp only
      rw [ok_bind]
      dsimp only
      rw [hu]
      rfl

theorem AfterMain.exec (h : AfterMain s.state) (c : MainCall) : Goes s (c.exec s) := by
  cases c with
  | mutexInit m =>
    obtain ⟨hmain, hinits⟩ := h.mutexInit m
    exact Or.inr ⟨_, rfl, hinits, hmain⟩
  | lock m => exact h.lock m
  | unlock m => exact h.unlock m
  | create mainContext nodeContext routine => exact Or.inr (h.create mainContext nodeContext routine)

theorem AfterMain.startsSafely (h : AfterMain s.state) (calls : List MainCall) :
    StartsSafely s calls ↔ s.inits ≤ 1 := by
  induction calls generalizing s with
  | nil => exact startsSafely_nil
  | cons c calls ih =>
    rcases h.exec c with hstop | ⟨s', hs', hinits, hmain⟩
    · rw [startsSafely_stop hstop]
      simp
    · rw [startsSafely_cons hs', ih hmain, hinits, and_self]

/-- Each mutex that a call uses has been initialised, before the calls or by one of them. -/
def Covered (t : State TcbLists) (calls : List MainCall) : Prop :=
  ∀ pre c post m, calls = pre ++ c :: post → c.uses = some m →
    t.mutexes m ≠ none ∨ .mutexInit m ∈ pre

theorem Covered.mutexInit {calls : List MainCall}
    (h : Covered s.state (.mutexInit m :: calls)) : Covered (s.mutexInit m).state calls := by
  have hmutexes : (s.mutexInit m).state.mutexes =
      Function.update s.state.mutexes m (some .unlocked) := by
    unfold Counted.mutexInit
    split_ifs <;> rfl
  intro pre c post m' hcalls huses
  rw [hmutexes]
  rcases h (.mutexInit m :: pre) c post m' (by rw [hcalls]; rfl) huses with hm | hm
  · by_cases heq : m' = m
    · subst heq
      simp
    · rw [Function.update_of_ne heq]
      exact Or.inl hm
  · rcases List.mem_cons.mp hm with heq | hm
    · obtain rfl := MainCall.mutexInit.inj heq
      simp
    · exact Or.inr hm

theorem Covered.create {s' : Counted TcbLists} {mainContext nodeContext : Bool} {routine : Routine}
    {calls : List MainCall} (h : Covered s.state (.create mainContext nodeContext routine :: calls))
    (hmutexes : s'.state.mutexes = s.state.mutexes) : Covered s'.state calls := by
  intro pre c post m' hcalls huses
  rw [hmutexes]
  rcases h (.create mainContext nodeContext routine :: pre) c post m' (by rw [hcalls]; rfl)
    huses with hm | hm
  · exact Or.inl hm
  · rcases List.mem_cons.mp hm with heq | hm
    · cases heq
    · exact Or.inr hm

theorem BeforeMain.startsSafely {calls : List MainCall} (h : BeforeMain s.state)
    (hcov : Covered s.state calls) : StartsSafely s calls ↔
      s.inits + initsOf s.state.schedulerInit calls ≤ 1 ∧
        ∀ c ∈ calls.takeWhile fun c => ¬ c.takesMain, c.uses = none := by
  induction calls generalizing s with
  | nil => simp [startsSafely_nil, initsOf]
  | cons c calls ih =>
    cases c with
    | mutexInit m =>
      obtain ⟨hbefore, hinit, hinits⟩ := h.mutexInit m
      have hexec : (MainCall.mutexInit m).exec s = .ok (s.mutexInit m) := rfl
      have htakes : (MainCall.mutexInit m).takesMain = false := rfl
      have huses : (MainCall.mutexInit m).uses = none := rfl
      rw [startsSafely_cons hexec, ih hbefore hcov.mutexInit, hinit, hinits, initsOf, ← add_assoc]
      simp only [htakes, List.takeWhile_cons, List.forall_mem_cons, huses, Bool.false_eq_true,
        not_false_eq_true, decide_true, if_true, true_and]
      refine and_iff_right_of_imp fun hle => ?_
      have := hle.1
      omega
    | lock m =>
      have huses : (MainCall.lock m).uses = some m := rfl
      have htakes : (MainCall.lock m).takesMain = false := rfl
      rw [startsSafely_stop (c := .lock m) (h.lock m)]
      simp [huses, htakes]
    | unlock m =>
      have huses : (MainCall.unlock m).uses = some m := rfl
      have htakes : (MainCall.unlock m).takesMain = false := rfl
      have hm : s.state.mutexes m ≠ none := by simpa using hcov [] _ calls m rfl huses
      rw [startsSafely_stop (c := .unlock m) (h.unlock hm)]
      simp [huses, htakes]
    | create mainContext nodeContext routine =>
      obtain ⟨s', hs', hinit, hinits, hmain⟩ := h.create mainContext nodeContext routine
      have huses : (MainCall.create mainContext nodeContext routine).uses = none := rfl
      rw [startsSafely_cons (c := .create mainContext nodeContext routine) hs', initsOf]
      cases mainContext with
      | false =>
        have htakes : (MainCall.create false nodeContext routine).takesMain = false := rfl
        rw [ih hmain.1 (hcov.create hmain.2), hinit, hinits, ← add_assoc]
        simp only [htakes, List.takeWhile_cons, List.forall_mem_cons, huses, Bool.false_eq_true,
          not_false_eq_true, decide_true, if_true, true_and]
        refine and_iff_right_of_imp fun hle => ?_
        have := hle.1
        omega
      | true =>
        have htakes : (MainCall.create true nodeContext routine).takesMain = true := rfl
        rw [AfterMain.startsSafely hmain, hinits, initsOf_true]
        simp [htakes]
        omega

end OnLists

section OnLinks

variable {s : Counted TcbLinks} {t : Counted TcbLists} {u u' : State TcbLists} {m : MutexPtr}

theorem Allocated.set {q : QueuePtr} {l : List TcbPtr} (h : Allocated u)
    (hl : ∀ p ∈ l, p < u.frontier) : Allocated { u with queues := u.queues.set q l } := by
  intro q' p hp
  change p ∈ (u.queues.set q l) q' at hp
  by_cases hq : q' = q
  · subst hq
    rw [Lists.set_self] at hp
    exact hl p hp
  · rw [Lists.set_of_ne hq] at hp
    exact h q' p hp

theorem Allocated.createNode {contextOk ok : Bool} {routine : Routine} (h : Allocated u)
    (hu : createNode contextOk routine u = .ok (ok, u')) : Allocated u' := by
  have hnew : Allocated (u.allocateTcb (u.tid + 1)) := fun q p hp => Nat.lt_succ_of_lt (h q p hp)
  rw [createNode_lists] at hu
  obtain ⟨rfl, rfl⟩ := hu
  cases contextOk with
  | false => exact hnew
  | true =>
    intro q p hp
    rcases Lists.mem_enqueue.mp hp with hp | ⟨-, rfl⟩
    · exact hnew q p hp
    · exact Nat.lt_succ_self _

theorem Allocated.createThreads {mainContext nodeContext ok : Bool} {routine : Routine}
    (h : Allocated u) (hu : createThreads mainContext nodeContext routine u = .ok (ok, u')) :
    Allocated u' := by
  unfold Scheduler.createThreads at hu
  split_ifs at hu with htid
  · obtain ⟨⟨main, v⟩, hmain, hu⟩ := bind_eq_ok.mp hu
    have hv := h.createMain hmain
    dsimp only at hu
    split_ifs at hu
    · exact hv.createNode hu
    · obtain ⟨rfl, rfl⟩ := hu
      exact hv
  · exact h.createNode hu

theorem Allocated.lock (h : Allocated u) (hu : myPthreadMutexLock m u = .ok u') : Allocated u' := by
  obtain ⟨cur, -, hpass⟩ := bind_eq_ok.mp hu
  rcases lockPass_ok hpass with ⟨-, rfl⟩ | ⟨-, p, l, hq, rfl⟩
  · exact h
  · have hold := h (.level (u.tcbs cur).priority)
    rw [hq] at hold
    have hrest : Allocated { u with queues := u.queues.set (.level (u.tcbs cur).priority) l } :=
      h.set fun r hr => hold r (List.mem_cons_of_mem _ hr)
    refine hrest.set fun r hr => ?_
    rcases List.mem_append.mp hr with hr | hr
    · exact hrest _ r hr
    · exact List.mem_singleton.mp hr ▸ hold p List.mem_cons_self

theorem Allocated.unlock (h : Allocated u) (hu : myPthreadMutexUnlock m u = .ok u') :
    Allocated u' := by
  obtain ⟨v, hv, hu⟩ := bind_eq_ok.mp hu
  obtain ⟨-, rfl⟩ := release_ok hv
  obtain ⟨⟨node, w⟩, hw, hu⟩ := bind_eq_ok.mp hu
  obtain ⟨x, hx, hu⟩ := bind_eq_ok.mp hu
  obtain ⟨cur, -, rfl⟩ := markUnlock_ok hu
  rcases dequeueWaiter_ok hw with ⟨rfl, rfl, -⟩ | ⟨p, l, rfl, hq, rfl⟩
  · obtain rfl := Except.ok.inj hx
    exact h
  · have hold := h (.wait m)
    rw [show u.queues (.wait m) = p :: l from hq] at hold
    have hrest : Allocated { u with queues := u.queues.set (.wait m) l } :=
      h.set fun r hr => hold r (List.mem_cons_of_mem _ hr)
    obtain rfl := Except.ok.inj ((scheduleThread_first _ p).symm.trans hx)
    refine hrest.set fun r hr => ?_
    rcases List.mem_append.mp hr with hr | hr
    · exact hrest _ r hr
    · exact List.mem_singleton.mp hr ▸ hold p List.mem_cons_self

/-- The counted state on links differs from the one on lists in its queues only. -/
structure Counted.Follows (s : Counted TcbLinks) (t : Counted TcbLists) : Prop where
  state : Refines s.state t.state
  inits : s.inits = t.inits
  allocated : Allocated t.state

namespace Counted.Follows

theorem mutexInit (h : s.Follows t) (m : MutexPtr) : (s.mutexInit m).Follows (t.mutexInit m) := by
  obtain ⟨⟨L, hL, hs⟩, hinits, halloc⟩ := h
  obtain ⟨s, n⟩ := s
  obtain rfl : s = t.state.withQueues L := hs
  obtain rfl : n = t.inits := hinits
  unfold Counted.mutexInit
  simp only [State.withQueues_schedulerInit]
  split_ifs with hinit
  · refine ⟨⟨_, hL.init (.wait m), rfl⟩, rfl, ?_⟩
    exact Allocated.set halloc (by simp)
  · refine ⟨⟨_, (((hL.init (.level 0)).init (.level 1)).init (.level 2)).init (.wait m), rfl⟩,
      rfl, ?_⟩
    exact Allocated.set (Allocated.initScheduler halloc) (by simp)

theorem lock (h : s.Follows t) (m : MutexPtr) : Matches Counted.Follows (s.lock m) (t.lock m) := by
  obtain ⟨⟨L, hL, hs⟩, hinits, halloc⟩ := h
  obtain ⟨s, n⟩ := s
  obtain rfl : s = t.state.withQueues L := hs
  obtain rfl : n = t.inits := hinits
  refine (myPthreadMutexLock_refines hL m).bind_of_ok fun v v' hv' hv => ?_
  simp only [State.withQueues_mutexes]
  split_ifs
  · exact .error
  · exact .ok ⟨hv, rfl, halloc.lock hv'⟩

theorem unlock (h : s.Follows t) (m : MutexPtr) :
    Matches Counted.Follows (s.unlock m) (t.unlock m) := by
  obtain ⟨⟨L, hL, hs⟩, hinits, halloc⟩ := h
  obtain ⟨s, n⟩ := s
  obtain rfl : s = t.state.withQueues L := hs
  obtain rfl : n = t.inits := hinits
  refine (myPthreadMutexUnlock_refines hL m).bind_of_ok fun v v' hv' hv => ?_
  exact .ok ⟨hv, rfl, halloc.unlock hv'⟩

/-- The part of a creation after `init_scheduler`. -/
theorem createThreads (h : s.Follows t) (mainContext nodeContext : Bool) (routine : Routine) :
    Matches Counted.Follows
      (createThreads mainContext nodeContext routine s.state >>= fun r =>
        Except.ok { s with state := r.2 })
      (Scheduler.createThreads mainContext nodeContext routine t.state >>= fun r =>
        Except.ok { t with state := r.2 }) := by
  obtain ⟨⟨L, hL, hs⟩, hinits, halloc⟩ := h
  obtain ⟨s, n⟩ := s
  obtain rfl : s = t.state.withQueues L := hs
  obtain rfl : n = t.inits := hinits
  refine (createThreads_refines hL halloc mainContext nodeContext routine).bind_of_ok ?_
  rintro ⟨ok, v⟩ ⟨ok', v'⟩ hv' ⟨-, hv⟩
  exact .ok ⟨hv, rfl, halloc.createThreads hv'⟩

theorem begun (h : s.Follows t) :
    Counted.Follows (Counted.initScheduler { s with state := { s.state with schedulerInit := true } })
      (Counted.initScheduler { t with state := { t.state with schedulerInit := true } }) := by
  obtain ⟨⟨L, hL, hs⟩, hinits, halloc⟩ := h
  obtain ⟨s, n⟩ := s
  obtain rfl : s = t.state.withQueues L := hs
  obtain rfl : n = t.inits := hinits
  exact ⟨initScheduler_refines (t := { t.state with schedulerInit := true }) hL, rfl,
    Allocated.initScheduler halloc⟩

theorem exec (h : s.Follows t) (c : MainCall) :
    Matches Counted.Follows (c.exec s) (c.exec t) := by
  cases c with
  | mutexInit m => exact .ok (h.mutexInit m)
  | lock m => exact h.lock m
  | unlock m => exact h.unlock m
  | create mainContext nodeContext routine =>
    have hinit : s.state.schedulerInit = t.state.schedulerInit := by
      obtain ⟨⟨L, -, hs⟩, -⟩ := h
      rw [hs]
      rfl
    change Matches _ (s.create ..) (t.create ..)
    unfold Counted.create
    rw [hinit]
    split_ifs
    · exact h.createThreads mainContext nodeContext routine
    · exact h.begun.createThreads mainContext nodeContext routine

theorem startsSafely (h : s.Follows t) (calls : List MainCall) :
    StartsSafely s calls ↔ StartsSafely t calls := by
  have hrun : ∀ ks, Matches Counted.Follows (runAll MainCall.exec ks s)
      (runAll MainCall.exec ks t) :=
    fun ks => Matches.runAll (fun c _ _ h => h.exec c) ks h
  unfold StartsSafely
  refine and_congr (hrun calls).error_iff.not
    ⟨fun hs pre t' hpre ht' => ?_, fun ht pre s' hpre hs' => ?_⟩
  · obtain ⟨s', hs', hfollows⟩ := (hrun pre).of_ok_right ht'
    exact hfollows.inits ▸ hs pre s' hpre hs'
  · obtain ⟨t', ht', hfollows⟩ := (hrun pre).of_ok hs'
    exact hfollows.inits ▸ ht pre t' hpre ht'

end Counted.Follows

end OnLinks

/-- `my_pthread_mutex_init` leaves `SCHEDULER_INIT` at 0, so that a later initialisation or the
first creation makes a new scheduler; and `current_tcb` is `NULL` until a creation has taken in
the main context. -/
theorem starts_safely_iff (storage : TcbPtr → Tcb) (calls : List MainCall)
    (h : InitialisedFirst calls) :
    StartsSafely ⟨State.initial noLinks storage, 0⟩ calls ↔ InOrder calls := by
  have hfollows : Counted.Follows ⟨State.initial noLinks storage, 0⟩
      ⟨State.initial noLists storage, 0⟩ :=
    ⟨⟨noLinks, noLinks_agrees, rfl⟩, rfl, fun q p hp => absurd hp List.not_mem_nil⟩
  have hbefore : BeforeMain (State.initial noLists storage) := ⟨rfl, rfl⟩
  rw [hfollows.startsSafely, hbefore.startsSafely fun pre c post m hcalls huses =>
    Or.inr (h pre c post m hcalls huses), zero_add]
  change initsOf false calls ≤ 1 ∧ _ ↔ _
  rw [initsOf_le_one]
  exact ⟨fun ⟨hinits, huses⟩ => ⟨hinits, huses⟩, fun hin => ⟨hin.inits, hin.uses⟩⟩

/-- Create, then initialise, lock and unlock. -/
def createFirst : List MainCall := [.create true true ⟨1, 0⟩, .mutexInit 0, .lock 0, .unlock 0]

/-- The order in which the benchmarks do it. -/
def mutexFirst : List MainCall := [.mutexInit 0, .create true true ⟨1, 0⟩]

theorem starts_safely_createFirst :
    StartsSafely ⟨State.initial noLinks fun _ => zeroedTcb, 0⟩ createFirst := by
  have hfirst : InitialisedFirst createFirst := by
    intro pre c post m hcalls huses
    simp only [createFirst, List.cons_eq_append_iff, List.nil_eq_append_iff] at hcalls
    grind [MainCall.uses]
  exact (starts_safely_iff _ createFirst hfirst).mpr ⟨by decide, by decide⟩

theorem mutexFirst_not_safe : ¬ ∀ (storage : TcbPtr → Tcb) (calls : List MainCall),
    InitialisedFirst calls → StartsSafely ⟨State.initial noLinks storage, 0⟩ calls := by
  intro h
  have hfirst : InitialisedFirst mutexFirst := by
    intro pre c post m hcalls huses
    simp only [mutexFirst, List.cons_eq_append_iff, List.nil_eq_append_iff] at hcalls
    grind [MainCall.uses]
  obtain ⟨-, hinits⟩ := h (fun _ => zeroedTcb) mutexFirst hfirst
  have hrun : (runAll MainCall.exec mutexFirst
      ⟨State.initial noLinks fun _ => zeroedTcb, 0⟩).map Counted.inits = .ok 2 := by
    decide +kernel
  cases hend : runAll MainCall.exec mutexFirst ⟨State.initial noLinks fun _ => zeroedTcb, 0⟩ with
  | error e => simp [hend, Except.map] at hrun
  | ok s =>
    have hone := hinits mutexFirst s List.prefix_rfl hend
    rw [hend] at hrun
    have htwo := Except.ok.inj hrun
    omega

end VirtualMemorySimulation.Scheduler
