import VirtualMemorySimulation.Scheduler.Interleaving

/-!
# Finished threads

A thread that has finished is in one of the wrapper's two `pause`s or has been
switched out. Only the handler keeps it there: a signal that returns to the
`pause` lets the wrapper go on, to store a value again or to return.
-/

namespace VirtualMemorySimulation.Scheduler

open Execution LinkedQueue

/-- The two `pause`s of `thread_function_wrapper`. -/
def Pc.inWrapperPause : Pc → Bool
  | .exitPause _ => true
  | .finalPause => true
  | _ => false

section Condition

variable {σ : Type} [QueueStore σ QueuePtr TcbPtr]

/-- A signal now does not return to the interrupted context: the time slice is over and,
after an unlock, some level is not empty. -/
def Switches (s : State σ) (now : Time) : Prop :=
  ∀ cur ∈ s.currentTcb, PastSlice s cur now ∧
    (s.afterUnlockPriority = -1 ∨ firstQueued s.queues ≠ none)

instance (s : State σ) (now : Time) : Decidable (Switches s now) :=
  inferInstanceAs (Decidable (∀ cur ∈ s.currentTcb, _ ∧ _))

/-- A signal that reaches one of the wrapper's `pause`s does not return to it. -/
def SwitchesInWrapper (s : State σ) (e : Event) : Prop :=
  match e with
  | .tick now _ => s.cpu.pc.inWrapperPause = true → Switches s now
  | _ => True

instance (s : State σ) (e : Event) : Decidable (SwitchesInWrapper s e) :=
  match e with
  | .tick now _ => inferInstanceAs (Decidable (s.cpu.pc.inWrapperPause = true → Switches s now))
  | .call _ => isTrue trivial
  | .next => isTrue trivial

/-- The thread has terminated, and if it is still on the processor, its function has
returned and it is in a `pause` of the wrapper. -/
structure Finished (s : State σ) (p : TcbPtr) : Prop where
  thread : p ∈ s.threads
  state : (s.tcbs p).state = .terminated
  paused : s.cpu.owner = p → s.cpu.pc.inWrapperPause = true

/-- From one state to a later one the thread has stayed finished. -/
structure StaysFinished (s s' : State σ) (p : TcbPtr) : Prop where
  state : (s'.tcbs p).state = .terminated
  value : (s'.tcbs p).returnValue = (s.tcbs p).returnValue
  dispatches : ∃ later, s'.dispatches = s.dispatches ++ later ∧ p ∉ later
  wrapper : s'.cpu.owner = p → s'.cpu.pc ≠ .ended

end Condition

section Steps

variable {t t' : State TcbLists} {p : TcbPtr} {now start : Time}

/-- The control block of a finished thread keeps its state and value, and the thread is not
dispatched. -/
structure Undisturbed (t t' : State TcbLists) (p : TcbPtr) : Prop where
  state : (t'.tcbs p).state = (t.tcbs p).state
  value : (t'.tcbs p).returnValue = (t.tcbs p).returnValue
  dispatches : ∃ later, t'.dispatches = t.dispatches ++ later ∧ p ∉ later

theorem Undisturbed.of_eq (htcb : t'.tcbs p = t.tcbs p)
    (hdispatches : t'.dispatches = t.dispatches) : Undisturbed t t' p :=
  ⟨by rw [htcb], by rw [htcb], [], by simp [hdispatches], by simp⟩

theorem Undisturbed.setTcb {r : TcbPtr} {tcb : Tcb} (h : p ≠ r) :
    Undisturbed t (t.setTcb r tcb) p := .of_eq (Function.update_of_ne h ..) rfl

theorem Executes.undisturbed (he : Executes t t') (hp : p ≠ t.cpu.owner) :
    Undisturbed t t' p := by
  cases he with
  | start => exact .of_eq (Function.update_of_ne hp ..) rfl
  | @wake m w =>
    by_cases hw : p = w
    · subst hw
      have htcb : ((t.scheduled p).setPc (.unlockMark m)).tcbs p =
          { t.tcbs p with priority := 0 } := Function.update_self ..
      exact ⟨by rw [htcb], by rw [htcb], [], by simp, by simp⟩
    · exact .of_eq (Function.update_of_ne hw ..) rfl
  | store => exact .of_eq (Function.update_of_ne hp ..) rfl
  | terminate => exact .of_eq (Function.update_of_ne hp ..) rfl
  | _ => exact .of_eq rfl rfl

theorem Called.undisturbed {c : ClientCall} (hc : Called t c t') (h : Steady t)
    (hmem : p ∈ t.threads) (hp : p ≠ t.cpu.owner) :
    Undisturbed t t' p ∧ p ∈ t'.threads ∧ t'.cpu.owner = t.cpu.owner := by
  have hfrontier := (h.allocated p hmem).ne
  cases hc with
  | create hcreate =>
    obtain ⟨hthreads, htid, hcpu, htcbs, -, -, hfront, hdispatches⟩ := h.toPlaced.begun_threads
    have hmain : t.begun.tid ≠ 0 := by
      rw [htid]
      exact fun h0 => List.ne_nil_of_mem hmem (h.counted.mp h0)
    have hold : ∀ {u : State TcbLists} {tcb : Tcb},
        u.tcbs = Function.update t.begun.tcbs t.begun.frontier tcb →
        u.dispatches = t.begun.dispatches → Undisturbed t u p := by
      intro u tcb hu hd
      refine .of_eq ?_ (hd.trans hdispatches)
      rw [hu, Function.update_of_ne (by rwa [hfront]), htcbs]
    cases hcreate with
    | mainFails htid0 => exact absurd htid0 hmain
    | nodeFails hu =>
      cases hu with
      | first htid0 => exact absurd htid0 hmain
      | later => exact ⟨hold rfl rfl, by simpa [State.allocateTcb, hthreads] using hmem,
          congrArg Context.owner hcpu⟩
    | node hu =>
      cases hu with
      | first htid0 => exact absurd htid0 hmain
      | later => exact ⟨hold rfl rfl, by simp [State.withNode, State.created, hthreads, hmem],
          congrArg Context.owner hcpu⟩
  | mutexInit _ hu =>
    rcases hu with rfl | ⟨-, rfl⟩
    · exact ⟨.of_eq rfl rfl, hmem, rfl⟩
    · exact ⟨.of_eq rfl rfl, hmem, rfl⟩
  | exit hcur =>
    have hne : p ≠ _ := fun heq => hp (heq.trans (h.current _ hcur).2.symm)
    exact ⟨.setTcb hne, hmem, rfl⟩
  | _ => exact ⟨.of_eq rfl rfl, hmem, rfl⟩

theorem tick_switched {fuel : ℕ} (h : Placed t) (hswitch : Switches t now)
    (ht : tick now start fuel t = .ok t') : ∃ r ∈ t.threads, Switched t.interrupt t' r := by
  obtain ⟨hh, -, houtcome⟩ := tick_outcome h ht
  have hne : t'.dispatches ≠ t.dispatches := by
    cases hh with
    | within hcur hpast => exact absurd (hswitch _ hcur).1 hpast
    | rotated _ _ _ _ hd =>
      obtain ⟨r, l, n, -, -, rfl⟩ := hd
      simp [State.save]
    | resumed _ _ _ _ hd =>
      obtain ⟨r, l, n, -, -, rfl⟩ := hd
      simp [State.save]
    | idle hcur _ hafter hq =>
      have hempty : firstQueued t.queues = none := firstQueued_none h.oneLevel hq
      rcases (hswitch _ hcur).2 with hno | hsome
      · exact absurd (hno.symm.trans hafter) (by decide)
      · exact absurd hempty hsome
  rcases houtcome with rfl | hswitched | hidle
  · exact absurd rfl hne
  · exact hswitched
  · exact absurd hidle.dispatches hne

/-- A signal never dispatches a thread that has terminated. -/
theorem tick_undisturbed {fuel : ℕ} (h : Placed t) (hdead : (t.tcbs p).state = .terminated)
    (ht : tick now start fuel t = .ok t') : Undisturbed t t' p := by
  obtain ⟨-, hf, houtcome⟩ := tick_outcome h ht
  have hkept := hf.tcbs p
  refine ⟨(hkept.terminated.mpr hdead).trans hdead.symm, hkept.returnValue, ?_⟩
  rcases houtcome with rfl | ⟨r, -, hswitched⟩ | hidle
  · exact ⟨[], by simp, by simp⟩
  · refine ⟨[r], hswitched.dispatches, fun hmem => ?_⟩
    obtain rfl := List.mem_singleton.mp hmem
    exact hswitched.alive hdead
  · exact ⟨[], by simp [hidle.dispatches], by simp⟩

/-- After a signal a finished thread is not on the processor, if the signal switches when it
reaches a `pause` of the wrapper. -/
theorem Finished.tick {fuel : ℕ} (h : Steady t) (hf : Finished t p)
    (hcond : SwitchesInWrapper t (.tick now start)) (ht : tick now start fuel t = .ok t') :
    t'.cpu.owner ≠ p := by
  by_cases hp : t.cpu.owner = p
  · obtain ⟨r, -, hswitched⟩ := tick_switched h.toPlaced (hcond (hf.paused hp)) ht
    rw [hswitched.owner]
    rintro rfl
    exact hswitched.alive hf.state
  · obtain ⟨-, -, rfl | ⟨r, -, hswitched⟩ | hidle⟩ := tick_outcome h.toPlaced ht
    · exact hp
    · rw [hswitched.owner]
      rintro rfl
      exact hswitched.alive hf.state
    · rw [hidle.cpu]
      exact hp

theorem Finished.event {e : Event} (h : Steady t) (hf : Finished t p)
    (hcond : SwitchesInWrapper t e) (hs : EventStep t e t') :
    Finished t' p ∧ Undisturbed t t' p := by
  -- in its `pause` the finished thread does nothing
  have howner : t.cpu.pc.inWrapperPause = false → p ≠ t.cpu.owner := by
    rintro hpc rfl
    rw [hf.paused rfl] at hpc
    cases hpc
  cases hs.happens h.toPlaced with
  | tick ht =>
    have hund := tick_undisturbed h.toPlaced hf.state ht
    obtain ⟨-, hframe, -⟩ := tick_outcome h.toPlaced ht
    refine ⟨⟨?_, hund.state.trans hf.state, fun hp => ?_⟩, hund⟩
    · rw [hframe.threads]
      exact hf.thread
    · exact absurd hp (hf.tick h hcond ht)
  | call hpc hc =>
    have hp := howner (by rw [hpc]; rfl)
    obtain ⟨hund, hmem, hown⟩ := hc.undisturbed h hf.thread hp
    refine ⟨⟨hmem, hund.state.trans hf.state, fun heq => ?_⟩, hund⟩
    exact absurd (hown.symm.trans heq).symm hp
  | next he =>
    have hp := howner (by cases he <;> simp_all [Pc.inWrapperPause])
    have hund := he.undisturbed hp
    refine ⟨⟨?_, hund.state.trans hf.state, fun heq => ?_⟩, hund⟩
    · rw [he.local.threads]
      exact hf.thread
    · exact absurd (he.local.owner.symm.trans heq).symm hp

theorem Undisturbed.trans {t'' : State TcbLists} (h : Undisturbed t t' p)
    (h' : Undisturbed t' t'' p) : Undisturbed t t'' p := by
  obtain ⟨ls, hls, hp⟩ := h.dispatches
  obtain ⟨ks, hks, hp'⟩ := h'.dispatches
  refine ⟨h'.state.trans h.state, h'.value.trans h.value, ls ++ ks, ?_, ?_⟩
  · rw [hks, hls, List.append_assoc]
  · simp [hp, hp']

/-- A finished thread stays finished through a whole run. -/
theorem Finished.run {events : List Event} (h : Steady t) (hf : Finished t p)
    (hrun : Run (Guarded SwitchesInWrapper EventStep) t events t') :
    Finished t' p ∧ Undisturbed t t' p := by
  have hinv := Run.invariant (I := fun _ u => Steady u ∧ Finished u p ∧ Undisturbed t u p)
    ⟨h, hf, .of_eq rfl rfl⟩ ?_ hrun
  · exact hinv.2
  · rintro - u e u' ⟨hu, hfu, hund⟩ ⟨hcond, hs⟩
    obtain ⟨hfu', hund'⟩ := hfu.event hu hcond hs
    exact ⟨hu.event hs, hfu', hund.trans hund'⟩

end Steps

section Refinement

theorem Switches.refines {L : TcbLinks} {t : State TcbLists} {now : Time}
    (hL : Agrees L t.queues) : Switches (t.withQueues L) now ↔ Switches t now := by
  have hfirst := firstQueued_refines hL
  constructor
  · intro h cur hcur
    exact ⟨(h cur hcur).1, hfirst ▸ (h cur hcur).2⟩
  · intro h cur hcur
    exact ⟨(h cur hcur).1, hfirst ▸ (h cur hcur).2⟩

theorem SwitchesInWrapper.refines (s : State TcbLinks) (t : State TcbLists) (e : Event)
    (hr : Refines s t) (h : SwitchesInWrapper s e) : SwitchesInWrapper t e := by
  obtain ⟨L, hL, rfl⟩ := hr
  cases e with
  | tick now start => exact fun hpc => (Switches.refines hL).mp (h hpc)
  | _ => trivial

end Refinement

/-- Once a thread has finished, in a run in which each signal that reaches a `pause` of the
wrapper switches, it stays finished. -/
theorem finished_stays {storage : TcbPtr → Tcb} {events events' : List Event}
    {s s' : State TcbLinks} {p : TcbPtr}
    (hbefore : Run EventStep (State.initial noLinks storage) events s) (hp : Finished s p)
    (hafter : Run (Guarded SwitchesInWrapper EventStep) s events' s') : StaysFinished s s' p := by
  obtain ⟨t, -, hr, ht⟩ := run_steady hbefore
  obtain ⟨t', hrun, hr', -⟩ := run_guarded SwitchesInWrapper.refines hr ht hafter
  obtain ⟨L, -, rfl⟩ := hr
  obtain ⟨L', -, rfl⟩ := hr'
  have hf : Finished t p := ⟨hp.thread, hp.state, hp.paused⟩
  obtain ⟨hf', hund⟩ := hf.run ht hrun
  refine ⟨hf'.state, hund.value, hund.dispatches, fun heq hended => ?_⟩
  have hpaused := hf'.paused heq
  rw [show t'.cpu.pc = .ended from hended] at hpaused
  cases hpaused

/-- Thread 1 calls `my_pthread_exit` with 5, and its function returns 6. -/
def exiting : List Event :=
  [.call (.create true true ⟨1, 0⟩), .tick ⟨1, 0⟩ ⟨1, 0⟩, .next, .call (.exit 5),
    .call (.functionReturn 6), .next]

/-- The time slice of thread 1 is over when a signal comes, and main goes on. -/
def resuming : List Event := [.tick ⟨2, 0⟩ ⟨2, 0⟩, .call (.join 1), .tick ⟨3, 0⟩ ⟨3, 0⟩, .next]

theorem finished_stays_resuming : ∃ s s' : State TcbLinks,
    Run EventStep (State.initial noLinks fun _ => zeroedTcb) exiting s ∧ Finished s 1 ∧
      Run (Guarded SwitchesInWrapper EventStep) s resuming s' ∧ StaysFinished s s' 1 := by
  obtain ⟨s, hrun, hs⟩ := Run.of_runAll (Event.run_step 5) exiting
    (State.initial noLinks fun _ => zeroedTcb)
    (fun s => (s.threads, (s.tcbs 1).state, s.cpu.pc,
      (runAll (guardedExec SwitchesInWrapper fun e : Event => e.run 5) resuming s).map fun s => s.tid))
    (b := ([0, 1], .terminated, .exitPause 6, .ok 1)) (by decide +kernel)
  simp only [Prod.mk.injEq] at hs
  obtain ⟨hthreads, hstate, hpc, hlater⟩ := hs
  obtain ⟨s', hrun', -⟩ := Run.of_runAll
    (guardedExec_step SwitchesInWrapper (Event.run_step 5)) resuming s (fun s => s.tid) hlater
  have hfinished : Finished s 1 := ⟨by simp [hthreads], hstate, fun _ => by rw [hpc]; rfl⟩
  exact ⟨s, s', hrun, hfinished, hrun', finished_stays hrun hfinished hrun'⟩

/-- Signals that come inside the time slice of thread 1 take its wrapper past both `pause`s. -/
def hurried : List Event := [.tick ⟨1, 0⟩ ⟨1, 0⟩, .next, .next, .tick ⟨1, 0⟩ ⟨1, 0⟩]

/-- The wrapper has replaced the 5 of `my_pthread_exit` by the function's 6 and returned. -/
theorem hurried_not_finished : ∃ s s' : State TcbLinks,
    Run EventStep (State.initial noLinks fun _ => zeroedTcb) exiting s ∧ Finished s 1 ∧
      (s.tcbs 1).returnValue = 5 ∧ Run EventStep s hurried s' ∧
      (s'.tcbs 1).returnValue = 6 ∧ s'.cpu.owner = 1 ∧ s'.cpu.pc = .ended ∧
      ¬ StaysFinished s s' 1 := by
  obtain ⟨s, hrun, hs⟩ := Run.of_runAll (Event.run_step 5) exiting
    (State.initial noLinks fun _ => zeroedTcb)
    (fun s => (s.threads, s.tcbs 1, s.cpu.pc, (runAll (fun e : Event => e.run 5) hurried s).map fun s =>
      ((s.tcbs 1).returnValue, s.cpu)))
    (b := ([0, 1], ⟨1, ⟨1, .start ⟨1, 0⟩, []⟩, .terminated, 0, ⟨1, 0⟩, 5⟩, .exitPause 6,
      .ok (6, ⟨1, .ended, []⟩)))
    (by decide +kernel)
  simp only [Prod.mk.injEq] at hs
  obtain ⟨hthreads, htcb, hpc, hlater⟩ := hs
  obtain ⟨s', hrun', hs'⟩ := Run.of_runAll (Event.run_step 5) hurried s _ hlater
  obtain ⟨hvalue, hcpu⟩ := Prod.mk.inj hs'
  have hfinished : Finished s 1 :=
    ⟨by simp [hthreads], by rw [htcb], fun _ => by rw [hpc]; rfl⟩
  refine ⟨s, s', hrun, hfinished, by rw [htcb], hrun', hvalue, by rw [hcpu], by rw [hcpu], ?_⟩
  intro hstays
  exact hstays.wrapper (by rw [hcpu]) (by rw [hcpu])

end VirtualMemorySimulation.Scheduler
