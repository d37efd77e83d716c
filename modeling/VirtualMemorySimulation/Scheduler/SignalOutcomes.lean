import VirtualMemorySimulation.Scheduler.SkippingTerminated
import VirtualMemorySimulation.Scheduler.UnlockBypass

/-!
# What becomes of a signal

In every state of every interleaving the handler does one of five things: inside the
time slice it returns, otherwise it dispatches a thread, leaves `current_tcb` at `NULL`,
dereferences `NULL`, or calls itself without end. Which one is seen from `current_tcb`,
the run queues and the pending unlock.
-/

namespace VirtualMemorySimulation.Scheduler

open Execution LinkedQueue

inductive SignalOutcome where
  | stays
  | switches
  | idles
  | crashes
  | recurses
  deriving DecidableEq, Repr

section Statement

variable {σ : Type} [QueueStore σ QueuePtr TcbPtr]

/-- The result of the handler, with the fuel that it was given, is of this kind. -/
def SignalOutcome.Gives (s : State σ) (x : Except Stop (State σ)) : SignalOutcome → Prop
  | .stays => x = .ok s.interrupt
  | .switches => ∃ s', x = .ok s' ∧ DispatchesLive s s'
  | .idles => ∃ s', x = .ok s' ∧ s.currentTcb ≠ none ∧ s'.currentTcb = none
  | .crashes => x = .error .nullDereference
  | .recurses => x = .error .outOfFuel

/-- So it is with every fuel from some on. -/
def SignalOutcome.Holds (s : State σ) (now start : Time) (r : SignalOutcome) : Prop :=
  ∃ N, ∀ n, N ≤ n → r.Gives s (tick now start n s)

def SomeQueued (s : State TcbLinks) : Prop := ∃ i p, InQueue s.queues (.level i) p

def SomeLive (s : State TcbLinks) : Prop :=
  ∃ i p, InQueue s.queues (.level i) p ∧ (s.tcbs p).state ≠ .terminated

def WithinSlice (s : State TcbLinks) (now : Time) : Prop :=
  ∃ cur, s.currentTcb = some cur ∧ ¬ PastSlice s cur now

def SignalOutcome.When (s : State TcbLinks) (now : Time) : SignalOutcome → Prop
  | .stays => WithinSlice s now
  | .switches => Expired s now ∧ SomeLive s
  | .idles => Expired s now ∧ ¬ SomeQueued s ∧ s.afterUnlockPriority ≠ -1
  | .crashes => s.currentTcb = none ∨
      Expired s now ∧ ¬ SomeQueued s ∧ s.afterUnlockPriority = -1
  | .recurses => Expired s now ∧ SomeQueued s ∧ ¬ SomeLive s

end Statement

section Lists

variable {t : State TcbLists} {cur a p : TcbPtr} {l : List TcbPtr} {now start : Time}

/-- With only terminated threads in level 0 the helper turns it without end. -/
theorem OneLevel.endless (h : OneLevel t) (hcur : t.currentTcb = some cur)
    (hprio : (t.tcbs cur).priority = 0) (hq : t.queues (.level 0) = a :: l)
    (hdead : ∀ r ∈ t.queues (.level 0), (t.tcbs r).state = .terminated) (start : Time) (fuel : ℕ) :
    yieldHelper start fuel t = .error .outOfFuel := by
  induction fuel generalizing t cur a l with
  | zero => rfl
  | succ fuel ih =>
    have hrotated := h.rotate hq
    have hdead' : ∀ r ∈ (t.rotate a l).queues (.level 0),
        ((t.rotate a l).tcbs r).state = .terminated := by
      intro r hr
      rw [rotate_state_terminated]
      rw [rotate_level] at hr
      exact hdead r (by rw [hq]; simpa [or_comm] using hr)
    have hne : (t.rotate a l).queues (.level 0) ≠ [] := by simp
    obtain ⟨r, m, hr⟩ := List.exists_cons_of_ne_nil hne
    have hmem : r ∈ (t.rotate a l).queues (.level 0) := by
      rw [hr]
      exact List.mem_cons_self
    obtain ⟨n, hn⟩ := runNext_head hrotated hr start
    rw [yieldHelper_rotates h hcur hprio hq, hn, if_pos (hdead' r hmem)]
    exact ih (hrotated.select n (some r)) rfl (hrotated.priority r hmem) hr hdead'

end Lists

section Linked

variable {s : State TcbLinks} {t : State TcbLists} {now start : Time} {r r' : SignalOutcome}

theorem SignalOutcome.Holds.linked {L : TcbLinks} (hL : Agrees L t.queues) (hr : r ≠ .stays)
    (h : r.Holds t now start) : r.Holds (t.withQueues L) now start := by
  obtain ⟨N, hN⟩ := h
  refine ⟨N, fun n hn => ?_⟩
  have hmatch := tick_refines hL now start n
  have hgives := hN n hn
  cases r with
  | stays => exact absurd rfl hr
  | switches =>
    obtain ⟨t', ht', hdispatches⟩ := hgives
    obtain ⟨s', hs', L', -, rfl⟩ := hmatch.of_ok_right ht'
    exact ⟨_, hs', hdispatches⟩
  | idles =>
    obtain ⟨t', ht', hcur, hnone⟩ := hgives
    obtain ⟨s', hs', L', -, rfl⟩ := hmatch.of_ok_right ht'
    exact ⟨_, hs', hcur, hnone⟩
  | crashes => exact hmatch.error_iff.mpr hgives
  | recurses => exact hmatch.error_iff.mpr hgives

theorem SignalOutcome.Gives.unique {x : Except Stop (State TcbLinks)} (h : r.Gives s x)
    (h' : r'.Gives s x) : r = r' := by
  cases x with
  | error e => cases r <;> cases r' <;> simp_all [SignalOutcome.Gives]
  | ok u =>
    have hmore : ∀ p, u.dispatches = s.dispatches ++ [p] → u ≠ s.interrupt := by
      rintro p hp rfl
      simp at hp
    cases r <;> cases r' <;> simp_all [SignalOutcome.Gives, DispatchesLive]

theorem SignalOutcome.Holds.unique (h : r.Holds s now start) (h' : r'.Holds s now start) :
    r = r' := by
  obtain ⟨N, hN⟩ := h
  obtain ⟨M, hM⟩ := h'
  exact (hN _ (le_max_left N M)).unique (hM _ (le_max_right N M))

theorem SignalOutcome.When.unique (h : r.When s now) (h' : r'.When s now) : r = r' := by
  have hqueued : SomeLive s → SomeQueued s := fun ⟨i, p, hp, _⟩ => ⟨i, p, hp⟩
  have hslice : Expired s now → ¬ WithinSlice s now := by
    rintro ⟨cur, hcur, hpast⟩ ⟨cur', hcur', hnot⟩
    obtain rfl := Option.some.inj (hcur.symm.trans hcur')
    exact hnot hpast
  have hexpired : s.currentTcb = none → ¬ Expired s now := by
    rintro hnone ⟨cur, hcur, -⟩
    exact Option.some_ne_none cur (hcur.symm.trans hnone)
  have hwithin : s.currentTcb = none → ¬ WithinSlice s now := by
    rintro hnone ⟨cur, hcur, -⟩
    exact Option.some_ne_none cur (hcur.symm.trans hnone)
  cases r <;> cases r' <;> simp only [SignalOutcome.When] at h h' <;>
    first | rfl | (exfalso; tauto)

end Linked

end VirtualMemorySimulation.Scheduler
