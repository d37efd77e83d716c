import VirtualMemorySimulation.Scheduler.Rota
import VirtualMemorySimulation.Scheduler.UnlockBypass

/-!
# What the rota says of every run

No thread is lost, waiters are woken in the order in which they came, and a ready thread
that is not sent back waits for no more turns than are ahead of it, and one for each
unlock.
-/

namespace VirtualMemorySimulation.Scheduler

open Execution LinkedQueue TurnQueue

section Statement

variable {σ : Type} [QueueStore σ QueuePtr TcbPtr]

/-- An expired signal with no unlock pending finds the thread at the head of the level of
`current_tcb`, and sends it to the end. -/
def SendsBack (p : TcbPtr) (s : State σ) : OpenEvent → Prop
  | .event (.tick now _) => s.afterUnlockPriority = -1 ∧ ∃ cur ∈ s.currentTcb,
      PastSlice s cur now ∧ QueueStore.peek (.level (s.tcbs cur).priority) s.queues = some p
  | _ => False

instance (p : TcbPtr) (s : State σ) (o : OpenEvent) : Decidable (SendsBack p s o) :=
  match o with
  | .event (.tick _ _) => inferInstanceAs (Decidable (_ ∧ ∃ cur ∈ s.currentTcb, _))
  | .event (.call _) | .event .next | .unlock _ => isFalse not_false

def State.pending (s : State σ) : ℕ := if s.afterUnlockPriority = -1 then 0 else 1

end Statement

section Places

variable {s : State TcbLinks} {t : State TcbLists} {r : Rota TcbPtr MutexPtr} {p : TcbPtr}

end Places

section Turns

variable {s s₀ : State TcbLinks} {t t' : State TcbLists} {o : OpenEvent} {p : TcbPtr}

theorem SendsBack.refines {L : TcbLinks} (hL : Agrees L t.queues) :
    SendsBack p (t.withQueues L) o ↔ SendsBack p t o := by
  cases o with
  | unlock m => rfl
  | event e =>
    cases e with
    | tick now start =>
      simp only [SendsBack, State.withQueues_queues, State.withQueues_tcbs,
        State.withQueues_currentTcb, State.withQueues_afterUnlockPriority, hL.peek]
      rfl
    | call c => rfl
    | next => rfl

/-- The rota sends a thread back only at such a signal. -/
theorem Regular.sendsBack (h : Regular t) (hs : OpenStep t o t')
    (hback : Rota.SendsBack p t.rota (o.shows t t')) : SendsBack p t o := by
  obtain ⟨hturned, hstays, hhead⟩ := hback
  have hafter : t.afterUnlockPriority = -1 := by simpa [State.rota] using hstays
  cases h.stepped hs with
  | tick hsteady ht =>
    rcases hsteady.toPlaced.ticked ht with ⟨⟨cur, hcur, -⟩, rfl⟩ | ⟨⟨cur, hcur, hpast⟩, -⟩
    · rw [shows_within hcur] at hturned
      exact absurd rfl hturned
    · refine ⟨hafter, cur, hcur, hpast, ?_⟩
      rw [h.placed.priority cur (h.placed.current cur hcur).1]
      exact hhead
  | @call c => cases c <;> exact absurd rfl hturned
  | unlock => exact absurd rfl hturned
  | next => exact absurd (shows_next t t') hturned

/-- From a state in which a thread is in level 0 on, as long as it is not dispatched, not moved
to a wait queue, not terminated and not sent back: each dispatch brings it forward by one at
least, and each unlock costs it at most one place. -/
theorem turns_before_own {storage : TcbPtr → Tcb} {os ws : List OpenEvent}
    {es : List (Happening TcbPtr MutexPtr)} {l : List TcbPtr} {i : ℕ}
    (h : Run OpenStep (State.initial noLinks storage) os s₀)
    (hl : Chain s₀.queues.next (s₀.queues.queue (.level 0)).head l) (hi : l[i]? = some p)
    (hwindow : Run (Guarded (fun x o => ¬ SendsBack p x.1 o) ShowingStep) (s₀, []) ws (s, es))
    (hlive : (s.tcbs p).state ≠ .terminated) (hblock : ∀ m, .block m p ∉ es)
    (hturn : p ∉ s.dispatches.drop s₀.dispatches.length) :
    ∃ l' j, Chain s.queues.next (s.queues.queue (.level 0)).head l' ∧ l'[j]? = some p ∧
      s.dispatches.length + j + s.pending ≤
        s₀.dispatches.length + i + s₀.pending + es.count .stay := by
  obtain ⟨es₀, hes₀⟩ := run_showing h
  obtain ⟨t₀, hr₀, hreg₀, hun₀, -, -⟩ := run_rota_initial hes₀
  obtain ⟨t, es', hr, hreg, -, hes, hdispatches, hrun⟩ := run_rota
    (D := fun r e => ¬ Rota.SendsBack p r e) (fun L t _ o t' hL hreg hstep hno hback =>
      hno ((SendsBack.refines hL).mpr (hreg.sendsBack hstep hback))) hwindow hr₀ hreg₀ hun₀
  obtain rfl : es = es' := hes
  obtain ⟨L₀, hL₀, rfl⟩ := hr₀
  obtain ⟨L, hL, rfl⟩ := hr
  have hplace : (t₀.rota.places .ready)[i]? = some p := by
    rw [rota_ready, (hL₀.denotes (.level 0)).chain.unique hl]
    exact hi
  have hturn' : .turn p ∉ es := by
    intro hmem
    refine hturn ?_
    change p ∈ t.dispatches.drop t₀.dispatches.length
    rw [hdispatches, List.drop_left]
    exact List.mem_filterMap.mpr ⟨_, hmem, rfl⟩
  obtain ⟨j, hj, hle⟩ := Rota.turns_le hrun hplace (fun hdead => hlive hdead.2) hblock hturn'
  refine ⟨_, j, (hL.denotes (.level 0)).chain, hj, ?_⟩
  have hpending : ∀ u : State TcbLists, u.rota.stays.toNat = u.pending := by
    intro u
    by_cases hafter : u.afterUnlockPriority = -1 <;> simp [State.rota, State.pending, hafter]
  rw [hpending, hpending] at hle
  have hlength : t.dispatches.length = t₀.dispatches.length + es.countP (·.turned.isSome) := by
    rw [hdispatches, List.length_append, List.length_filterMap_eq_countP]
  change t.dispatches.length + j + t.pending ≤ t₀.dispatches.length + i + t₀.pending + _
  omega

/-- What the three signals show, each followed by an unlock. -/
def shownByThreeSignals : List (Happening TcbPtr MutexPtr) :=
  (List.replicate 3 [.turn 0, .quiet, .quiet, .quiet, .quiet, .quiet, .quiet, .quiet, .stay]).flatten

/-- Thread 1 is second in level 0, an unlock is pending, and three more follow. -/
theorem turns_before_own_threeSignals : ∃ (s₀ s : State TcbLinks) (l' : List TcbPtr) (j : ℕ),
    Run OpenStep (State.initial noLinks fun _ => zeroedTcb) unlockingMain s₀ ∧
      Run (Guarded (fun x o => ¬ SendsBack 1 x.1 o) ShowingStep) (s₀, []) threeSignals
        (s, shownByThreeSignals) ∧ s.dispatches = [0, 0, 0] ∧
          Chain s.queues.next (s.queues.queue (.level 0)).head l' ∧ l'[j]? = some 1 ∧
            3 + j + s.pending ≤ 0 + 1 + 1 + 3 := by
  obtain ⟨s₀, hrun, hs₀⟩ := Run.of_runAll (OpenEvent.run_step 5) unlockingMain
    (State.initial noLinks fun _ => zeroedTcb)
    (fun s => ([(s.queues.queue (.level 0)).head, s.queues.next 0, s.queues.next 1], s.dispatches,
      s.pending, decide ((runAll (guardedExec (fun x o => ¬ SendsBack 1 x.1 o)
        (OpenEvent.showing 5)) threeSignals (s, [])).map
          (fun x => (x.2, x.1.dispatches, (x.1.tcbs 1).state)) =
            .ok (shownByThreeSignals, [0, 0, 0], .ready))))
    (b := ([some 0, some 1, none], [], 1, true)) (by decide +kernel)
  simp only [Prod.mk.injEq, List.cons.injEq, decide_eq_true_eq] at hs₀
  obtain ⟨⟨hhead, hnext, hlast, -⟩, hdispatches₀, hpending, hlater⟩ := hs₀
  obtain ⟨⟨s, es⟩, hwindow, hs⟩ := Run.of_runAll
    (guardedExec_step (fun x o => ¬ SendsBack 1 x.1 o) (OpenEvent.showing_step 5)) threeSignals
    (s₀, []) _ hlater
  simp only [Prod.mk.injEq] at hs
  obtain ⟨rfl, hdispatches, hstate⟩ := hs
  obtain ⟨l', j, hl', hj, hle⟩ := turns_before_own (i := 1) hrun
    (.link hhead (.link hnext (.last hlast))) rfl hwindow (by simp [hstate])
    (by simp [shownByThreeSignals, List.replicate]) (by simp [hdispatches, hdispatches₀])
  have hstay : shownByThreeSignals.count .stay = 3 := by decide
  rw [hdispatches, hdispatches₀, hpending, hstay] at hle
  exact ⟨s₀, s, l', j, hrun, hwindow, hdispatches, hl', hj, hle⟩

end Turns

end VirtualMemorySimulation.Scheduler
