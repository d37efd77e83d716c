import VirtualMemorySimulation.Scheduler.Interleaving

/-!
# Runs in which any thread unlocks

The same machine with unlocks that are not left to the holder of the mutex. A main
program that unlocks before it has created a thread is stranded: it gets as far as
the `NULL` in `current_tcb`, and neither a signal nor a call comes in between.
-/

namespace VirtualMemorySimulation.Scheduler

open Execution LinkedQueue

/-- An event, or an unlock by a thread that need not hold the mutex. -/
inductive OpenEvent where
  | event (e : Event)
  | unlock (mutex : MutexPtr)
  deriving DecidableEq, Repr

section Machine

variable {σ : Type} [QueueStore σ QueuePtr TcbPtr]

def OpenEvent.run : OpenEvent → ℕ → State σ → Except Stop (State σ)
  | .event e, fuel, s => e.run fuel s
  | .unlock mutex, _, s =>
    if s.cpu.pc = .body then .ok (s.setPc (.unlockRelease mutex)) else .error .notEnabled

def OpenStep (s : State σ) (o : OpenEvent) (s' : State σ) : Prop := ∃ fuel, o.run fuel s = .ok s'

theorem OpenEvent.run_step (fuel : ℕ) (s : State σ) (o : OpenEvent) (s' : State σ)
    (h : o.run fuel s = .ok s') : OpenStep s o s' := ⟨fuel, h⟩

end Machine

/-- The points of an unlock that has taken no waiter. -/
def Pc.withoutWaiter : Pc → Bool
  | .unlockRelease _ => true
  | .unlockDequeue _ => true
  | .unlockSchedule _ none => true
  | .unlockMark _ => true
  | _ => false

/-- The main program unlocks before it has created a thread. -/
structure Stranded (t : State TcbLists) : Prop extends Placed t where
  noThread : t.threads = []
  unlocking : t.cpu.pc.withoutWaiter = true

/-- What every open run keeps. -/
inductive Regular (t : State TcbLists) : Prop
  | steady : Steady t → Regular t
  | stranded : Stranded t → Regular t

inductive Stepped (t : State TcbLists) : OpenEvent → State TcbLists → Prop
  | tick {now start fuel t'} : Steady t → tick now start fuel t = .ok t' →
      Stepped t (.event (.tick now start)) t'
  | call {c fuel t'} : Steady t → t.cpu.pc = .body → c.run fuel t = .ok t' →
      Stepped t (.event (.call c)) t'
  | unlock {m} : Steady t → t.cpu.pc = .body →
      Stepped t (.unlock m) (t.setPc (.unlockRelease m))
  | next {t'} : Executes t t' → Stepped t (.event .next) t'

section Steps

variable {t t' : State TcbLists} {o : OpenEvent}

theorem Stranded.currentTcb (h : Stranded t) : t.currentTcb = none := by
  cases hcur : t.currentTcb with
  | none => rfl
  | some p =>
    have hmem := (h.current p hcur).1
    rw [h.noThread] at hmem
    exact absurd hmem List.not_mem_nil

theorem Stranded.not_body (h : Stranded t) : t.cpu.pc ≠ .body := by
  intro hpc
  have hwithout := h.unlocking
  rw [hpc] at hwithout
  cases hwithout

theorem Stranded.no_transit (h : Stranded t) (m : MutexPtr) (w : TcbPtr) :
    t.cpu.pc ≠ .unlockSchedule m (some w) := by
  intro hpc
  have hwithout := h.unlocking
  rw [hpc] at hwithout
  cases hwithout

theorem Stranded.executes (h : Stranded t) (he : Executes t t') : Stranded t' := by
  have hwithout := h.unlocking
  cases he with
  | @release m =>
    exact ⟨(h.toPlaced.withMutex m .unlocked).withCpu rfl, h.noThread, rfl⟩
  | noWaiter => exact ⟨h.toPlaced.setPc _, h.noThread, rfl⟩
  | waiter _ hq =>
    rw [h.toPlaced.queues_nil h.noThread] at hq
    cases hq
  | pass => exact ⟨h.toPlaced.setPc _, h.noThread, rfl⟩
  | mark _ hcur =>
    rw [h.currentTcb] at hcur
    cases hcur
  | wake hpc => exact absurd hpc (h.no_transit _ _)
  | _ => simp_all [Pc.withoutWaiter]

theorem Stranded.stepped (h : Stranded t) (hs : OpenStep t o t') :
    Executes t t' ∧ o = .event .next := by
  obtain ⟨fuel, hrun⟩ := hs
  cases o with
  | unlock m =>
    change (if t.cpu.pc = .body then _ else _) = _ at hrun
    rw [if_neg h.not_body] at hrun
    cases hrun
  | event e =>
    cases e with
    | tick now start =>
      obtain ⟨cur, hcur⟩ := tick_current hrun
      rw [h.currentTcb] at hcur
      cases hcur
    | call c =>
      change (if t.cpu.pc = .body then _ else _) = _ at hrun
      rw [if_neg h.not_body] at hrun
      cases hrun
    | next => exact ⟨statement_executes hrun, rfl⟩

theorem Steady.stepped (h : Steady t) (hs : OpenStep t o t') : Stepped t o t' := by
  obtain ⟨fuel, hrun⟩ := hs
  cases o with
  | unlock m =>
    change (if t.cpu.pc = .body then _ else _) = _ at hrun
    split_ifs at hrun with hpc
    obtain rfl := Except.ok.inj hrun
    exact .unlock h hpc
  | event e =>
    cases e with
    | tick now start => exact .tick h hrun
    | call c =>
      change (if t.cpu.pc = .body then _ else _) = _ at hrun
      split_ifs at hrun with hpc
      exact .call h hpc hrun
    | next => exact .next (statement_executes hrun)

theorem Regular.stepped (h : Regular t) (hs : OpenStep t o t') : Stepped t o t' := by
  cases h with
  | steady h => exact h.stepped hs
  | stranded h =>
    obtain ⟨he, rfl⟩ := h.stepped hs
    exact .next he

/-- With a thread there, an unlock is a step like the others; without one it strands. -/
theorem Steady.unlock (h : Steady t) (m : MutexPtr) : Regular (t.setPc (.unlockRelease m)) := by
  by_cases hnone : t.threads = []
  · exact .stranded ⟨h.toPlaced.setPc _, hnone, rfl⟩
  · exact .steady ⟨h.toPlaced.setPc _, h.toCoherent.setPc trivial (by simp), h.counted,
      fun hnone' => absurd hnone' hnone⟩

theorem Regular.step (h : Regular t) (hs : OpenStep t o t') : Regular t' := by
  cases h with
  | stranded h => exact .stranded (h.executes (h.stepped hs).1)
  | steady h =>
    cases h.stepped hs with
    | tick _ ht => exact .steady (h.tick ht)
    | call _ hpc hc => exact .steady (h.called hpc (ClientCall.called h.toPlaced hc))
    | unlock => exact h.unlock _
    | next he => exact .steady (h.executes he)

theorem Regular.placed (h : Regular t) : Placed t := by
  cases h with
  | steady h => exact h.toPlaced
  | stranded h => exact h.toPlaced

theorem Regular.no_transit (h : Regular t) (m : MutexPtr) (w : TcbPtr)
    (hpc : t.cpu.pc = .unlockSchedule m (some w)) : Unqueued t w := by
  cases h with
  | steady h =>
    have hsound := h.soundPc (by simp [hpc])
    rw [hpc] at hsound
    exact hsound.2
  | stranded h => exact absurd hpc (h.no_transit m w)

end Steps

section Simulation

theorem OpenStep.simulates {s s' : State TcbLinks} {t : State TcbLists} {o : OpenEvent}
    (hr : Refines s t) (ht : Regular t) (hs : OpenStep s o s') :
    ∃ t', OpenStep t o t' ∧ Refines s' t' ∧ Regular t' := by
  have hsim : ∃ t', OpenStep t o t' ∧ Refines s' t' := by
    cases o with
    | event e => exact EventStep.refines hr ht.placed.fresh ht.no_transit hs
    | unlock m =>
      obtain ⟨fuel, hrun⟩ := hs
      have hpc : s.cpu = t.cpu := by
        obtain ⟨L, -, rfl⟩ := hr
        rfl
      change (if s.cpu.pc = .body then _ else _) = _ at hrun
      split_ifs at hrun with hbody
      obtain rfl := Except.ok.inj hrun
      exact ⟨t.setPc (.unlockRelease m), ⟨fuel, if_pos (hpc ▸ hbody)⟩, hr.setPc _⟩
  obtain ⟨t', hstep, hr'⟩ := hsim
  exact ⟨t', hstep, hr', ht.step hstep⟩

/-- The linked state of every open run is that of a regular list state. -/
theorem run_regular {storage : TcbPtr → Tcb} {os : List OpenEvent} {s : State TcbLinks}
    (h : Run OpenStep (State.initial noLinks storage) os s) :
    ∃ t, Run OpenStep (State.initial noLists storage) os t ∧ Refines s t ∧ Regular t :=
  Run.simulation (R := fun s t => Refines s t ∧ Regular t)
    (fun _ _ _ _ hrel hs => hs.simulates hrel.1 hrel.2)
    ⟨⟨noLinks, noLinks_agrees, rfl⟩, .steady (.initial storage)⟩ h

end Simulation

end VirtualMemorySimulation.Scheduler
