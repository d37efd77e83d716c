import VirtualMemorySimulation.Scheduler.ElapsedTime
import VirtualMemorySimulation.Scheduler.Rota

/-!
# How often the processor changes hands

The handler reads the clock twice: when it begins, and when it dispatches. As the clock
does not go back, a dispatch costs the one before it a time slice, or the crossing of a
second; and signals that are a time slice apart never come to nothing.
-/

namespace VirtualMemorySimulation.Scheduler

open Execution LinkedQueue

section Statement

/-- The two readings of the clock in a delivery of the signal. -/
def OpenEvent.signal : OpenEvent → Option (Time × Time)
  | .event (.tick now start) => some (now, start)
  | _ => none

def signals (os : List OpenEvent) : List (Time × Time) := os.filterMap OpenEvent.signal

def readings (os : List OpenEvent) : List Time := (signals os).flatMap fun r => [r.1, r.2]

/-- A time that `gettimeofday` can give. -/
structure Time.IsReading (t : Time) : Prop extends t.Normalised where
  sec_nonneg : 0 ≤ t.sec

theorem Time.isReading_iff {t : Time} : t.IsReading ↔
    0 ≤ t.sec ∧ t.sec < 2147483648 ∧ 0 ≤ t.usec ∧ t.usec < 1000000 :=
  ⟨fun h => ⟨h.sec_nonneg, h.sec_high, h.usec_low, h.usec_high⟩,
    fun h => ⟨⟨by omega, h.2.1, h.2.2.1, h.2.2.2⟩, h.1⟩⟩

/-- Readings of a clock that does not go back. -/
structure Forward (ts : List Time) : Prop where
  readings : ∀ t ∈ ts, t.IsReading
  sorted : ts.Pairwise fun a b => 0 ≤ elapsed a b

end Statement

section Clock

variable {a b c : Time} {ts us : List Time} {os : List OpenEvent}

theorem elapsed_add (a b c : Time) : elapsed a b + elapsed b c = elapsed a c := by
  unfold elapsed
  ring

theorem Forward.of_append (h : Forward (ts ++ us)) : Forward ts :=
  ⟨fun t ht => h.readings t (List.mem_append_left _ ht), (List.pairwise_append.mp h.sorted).1⟩

theorem Forward.le (h : Forward (ts ++ us)) (ha : a ∈ ts) (hb : b ∈ us) : 0 ≤ elapsed a b :=
  (List.pairwise_append.mp h.sorted).2.2 a ha b hb

theorem signals_snoc (os : List OpenEvent) (o : OpenEvent) :
    signals (os ++ [o]) = signals os ++ o.signal.toList := by
  unfold signals
  rw [List.filterMap_append]
  cases h : o.signal <;> simp [h]

theorem readings_snoc (os : List OpenEvent) (o : OpenEvent) :
    readings (os ++ [o]) = readings os ++ o.signal.toList.flatMap fun r => [r.1, r.2] := by
  rw [readings, signals_snoc, List.flatMap_append]
  rfl

/-- The microseconds of a time, with a first time slice more for each second. -/
def Time.credit (t : Time) : ℤ := elapsed ⟨0, 0⟩ t + priorityTimeSlice 0 * t.sec

theorem credit_sub (a b : Time) :
    b.credit - a.credit = elapsed a b + priorityTimeSlice 0 * (b.sec - a.sec) := by
  unfold Time.credit elapsed
  ring

theorem credit_le (ha : a.IsReading) (hb : b.IsReading) (h : 0 ≤ elapsed a b) :
    a.credit ≤ b.credit := by
  have hdiff := credit_sub a b
  have hslice : priorityTimeSlice 0 = 5000 := by decide
  have ha' := ha.usec_low
  have hb' := hb.usec_high
  rw [hslice] at hdiff
  unfold elapsed at h hdiff
  omega

/-- Past the first time slice the credit has grown by a time slice: within a second the two parts
are compared as they should, and a second counts for one. -/
theorem PastSlice.credit_le {σ : Type} {s : State σ} {cur : TcbPtr} {now : Time}
    (h : PastSlice s cur now) (hpriority : (s.tcbs cur).priority = 0)
    (hstart : (s.tcbs cur).recentStartTime.IsReading) (hnow : now.IsReading)
    (hle : 0 ≤ elapsed (s.tcbs cur).recentStartTime now) :
    (s.tcbs cur).recentStartTime.credit + priorityTimeSlice 0 ≤ now.credit := by
  have hslice : priorityTimeSlice 0 = 5000 := by decide
  have husec := usec_difference hstart.toNormalised hnow.toNormalised
  have hdiff := credit_sub (s.tcbs cur).recentStartTime now
  obtain ⟨⟨-, -, hlow, hhigh⟩, -⟩ := hstart
  obtain ⟨⟨-, -, hlow', hhigh'⟩, -⟩ := hnow
  rw [hslice] at hdiff ⊢
  unfold elapsed at hdiff hle
  by_cases hsame : now.sec = (s.tcbs cur).recentStartTime.sec
  · -- the same second: the microseconds decide
    have hzero : intDifference now.sec (s.tcbs cur).recentStartTime.sec = 0 := by
      rw [hsame]
      unfold intDifference
      simp
    have hused : ¬ now.usec - (s.tcbs cur).recentStartTime.usec < 5000 := by
      intro hless
      refine h ?_
      rw [hpriority, hslice]
      simp only [timeCompare, hzero, husec]
      split_ifs <;> omega
    omega
  · omega

end Clock

section Steps

variable {t t' u : State TcbLists} {o : OpenEvent} {now start : Time} {fuel : ℕ} {p r : TcbPtr}

structure Unsignalled (t t' : State TcbLists) : Prop where
  starts : ∀ p, (t'.tcbs p).recentStartTime = (t.tcbs p).recentStartTime
  dispatches : t'.dispatches = t.dispatches
  threads : t.threads ≠ [] → t'.threads ≠ []
  current : t.threads ≠ [] → t'.currentTcb = t.currentTcb

theorem Unsignalled.refl (t : State TcbLists) : Unsignalled t t :=
  ⟨fun _ => rfl, rfl, id, fun _ => rfl⟩

theorem Unsignalled.trans (h : Unsignalled t u) (h' : Unsignalled u t') : Unsignalled t t' where
  starts p := (h'.starts p).trans (h.starts p)
  dispatches := h'.dispatches.trans h.dispatches
  threads hne := h'.threads (h.threads hne)
  current hne := (h'.current (h.threads hne)).trans (h.current hne)

theorem Executes.unsignalled (h : Executes t t') : Unsignalled t t' := by
  have hlocal := h.local
  refine ⟨fun r => ?_, hlocal.dispatches, fun hne => hlocal.threads ▸ hne,
    fun _ => hlocal.currentTcb⟩
  cases h with
  | start | store | terminate | wake =>
    refine update_kept Tcb.recentStartTime ?_ r
    rfl
  | _ => rfl

theorem Unsignalled.created (t : State TcbLists) (tid : ℕ) (context : Context) :
    Unsignalled t (t.created tid context) :=
  ⟨update_kept Tcb.recentStartTime rfl, rfl, fun _ => by simp [State.created], fun _ => rfl⟩

theorem Steady.unsignalled_creates {ok : Bool} (h : Steady t) (hinit : t.schedulerInit = true)
    (hpc : t.cpu.pc = .body) (hc : Creates t ok t') : Unsignalled t t' := by
  refine h.creates_induction (I := Unsignalled t) hinit hpc hc (.refl t) (fun hnone => ?_) ?_ ?_
  · exact ⟨update_kept Tcb.recentStartTime rfl, rfl, fun hne => absurd hnone hne,
      fun hne => absurd hnone hne⟩
  · exact fun u tid _ _ _ hu => hu.trans ⟨update_kept Tcb.recentStartTime rfl, rfl, id, fun _ => rfl⟩
  · intro u routine _ _ _ _ hu
    have hnode := Unsignalled.created u (u.tid + 1) ⟨u.frontier, .start routine, []⟩
    exact hu.trans ⟨hnode.starts, hnode.dispatches, hnode.threads, hnode.current⟩

theorem Placed.begun_unsignalled (h : Placed t) : Unsignalled t t.begun := by
  rcases h.begun_eq with ⟨-, heq⟩ | ⟨hnone, heq⟩
  · rw [heq]
    exact .refl t
  · rw [heq]
    exact ⟨fun _ => rfl, rfl, id, fun hne => absurd hnone hne⟩

theorem Steady.unsignalled_called {c : ClientCall} (h : Steady t) (hpc : t.cpu.pc = .body)
    (hc : Called t c t') : Unsignalled t t' := by
  cases hc with
  | create hcreate =>
    obtain ⟨-, -, hcpu, -⟩ := h.toPlaced.begun_threads
    exact h.toPlaced.begun_unsignalled.trans
      (h.begun.unsignalled_creates h.toPlaced.begun.2 (by rwa [hcpu]) hcreate)
  | @mutexInit m u _ hu =>
    rcases hu with rfl | ⟨hnone, rfl⟩
    · exact ⟨fun _ => rfl, rfl, id, fun _ => rfl⟩
    · exact ⟨fun _ => rfl, rfl, id, fun hne => absurd hnone hne⟩
  | exit => exact ⟨update_kept Tcb.recentStartTime rfl, rfl, id, fun _ => rfl⟩
  | _ => exact ⟨fun _ => rfl, rfl, id, fun _ => rfl⟩

theorem Regular.unsignalled (h : Regular t) (hs : OpenStep t o t') (ho : o.signal = none) :
    Unsignalled t t' := by
  cases h.stepped hs with
  | tick => cases ho
  | call hsteady hpc hc =>
    exact hsteady.unsignalled_called hpc (ClientCall.called hsteady.toPlaced hc)
  | unlock => exact ⟨fun _ => rfl, rfl, id, fun _ => rfl⟩
  | next he => exact he.unsignalled

theorem rotate_recentStartTime (t : State TcbLists) (l : List TcbPtr) (r : TcbPtr) :
    ((t.rotate p l).tcbs r).recentStartTime = (t.tcbs r).recentStartTime := by
  obtain ⟨state, heq⟩ := preempt_tcb { t with queues := t.queues.set (.level 0) (l ++ [p]) } p r
  rw [State.rotate, heq]

theorem save_recentStartTime (t : State TcbLists) (cur r : TcbPtr) :
    ((t.save cur).tcbs r).recentStartTime = (t.tcbs r).recentStartTime := by
  refine update_kept Tcb.recentStartTime ?_ r
  rfl

theorem Dispatched.starts (h : Dispatched start t t') : ∃ p, t'.currentTcb = some p ∧
    ∀ r, (t'.tcbs r).recentStartTime = if r = p then start else (t.tcbs r).recentStartTime := by
  obtain ⟨p, l, n, -, -, rfl⟩ := h
  refine ⟨p, rfl, fun r => ?_⟩
  rw [State.dispatch_tcbs, Function.update_apply]
  split_ifs <;> rfl

theorem Handled.starts (h : Handled now start t t') :
    (∀ r, (t'.tcbs r).recentStartTime = (t.tcbs r).recentStartTime) ∧
        (t' = t ∨ t'.currentTcb = none) ∨
      ∃ p, t'.currentTcb = some p ∧ ∀ r, (t'.tcbs r).recentStartTime =
        if r = p then start else (t.tcbs r).recentStartTime := by
  cases h with
  | within => exact Or.inl ⟨fun _ => rfl, Or.inl rfl⟩
  | @rotated cur _ l _ _ _ _ _ hd =>
    obtain ⟨p, hp, hstarts⟩ := hd.starts
    refine Or.inr ⟨p, hp, fun r => ?_⟩
    rw [hstarts, rotate_recentStartTime, save_recentStartTime]
  | @resumed cur _ _ _ _ _ _ _ hd =>
    obtain ⟨p, hp, hstarts⟩ := hd.starts
    refine Or.inr ⟨p, hp, fun r => ?_⟩
    rw [hstarts]
    exact congrArg (ite (r = p) start) (save_recentStartTime t cur r)
  | @idle cur => exact Or.inl ⟨save_recentStartTime t cur, Or.inr rfl⟩

/-- What a signal does to the dispatches and the start times. -/
inductive Signalled (now start : Time) (t t' : State TcbLists) (cur : TcbPtr) : Prop
  | within : ¬ PastSlice t cur now → t' = t.interrupt → Signalled now start t t' cur
  | idle : PastSlice t cur now → t'.dispatches = t.dispatches → t'.currentTcb = none →
      (∀ r, (t'.tcbs r).recentStartTime = (t.tcbs r).recentStartTime) →
      Signalled now start t t' cur
  | turn (p : TcbPtr) : PastSlice t cur now → t'.dispatches = t.dispatches ++ [p] →
      t'.currentTcb = some p → (∀ r, (t'.tcbs r).recentStartTime =
        if r = p then start else (t.tcbs r).recentStartTime) → Signalled now start t t' cur

theorem Placed.signalled (h : Placed t) (ht : Scheduler.tick now start fuel t = .ok t') :
    ∃ cur, t.currentTcb = some cur ∧ t'.threads = t.threads ∧ Signalled now start t t' cur := by
  obtain ⟨hh, hf, -⟩ := tick_outcome h ht
  rcases h.ticked ht with ⟨⟨cur, hcur, hpast⟩, rfl⟩ | ⟨⟨cur, hcur, hpast⟩, houtcome⟩
  · exact ⟨cur, hcur, rfl, .within hpast rfl⟩
  refine ⟨cur, hcur, hf.threads, ?_⟩
  rcases houtcome with hidle | ⟨_, p, _, -, hturned⟩
  · rcases hh.starts with ⟨hsame, -⟩ | ⟨q, hq, -⟩
    · exact .idle hpast hidle.dispatches hidle.current hsame
    · exact absurd (hidle.current.symm.trans hq) (by simp)
  · rcases hh.starts with ⟨-, rfl | hnone⟩ | ⟨q, hq, hstarts⟩
    · exact absurd hturned.dispatches (by simp)
    · exact absurd (hnone.symm.trans hturned.current) (by simp)
    · obtain rfl := Option.some.inj (hturned.current.symm.trans hq)
      exact .turn p hpast hturned.dispatches hq hstarts

end Steps

section Pace

variable {t t' : State TcbLists} {o : OpenEvent} {now start a b : Time} {fuel d : ℕ}
  {ts us : List Time}

/-- After the readings `ts`, each dispatch from the `d`-th on but the first has cost a slice of
credit, and the running thread's start is one of the readings. -/
def Paced (a : Time) (d : ℕ) (ts : List Time) (t : State TcbLists) : Prop :=
  t.dispatches.length = d ∨ t.threads ≠ [] ∧ ∃ last ∈ ts,
    a.credit + priorityTimeSlice 0 * ((t.dispatches.length : ℤ) - d - 1) ≤ last.credit ∧
      ∀ p, t.currentTcb = some p → (t.tcbs p).recentStartTime = last

theorem Paced.unsignalled (h : Paced a d ts t) (hu : Unsignalled t t') : Paced a d ts t' := by
  rcases h with hnone | ⟨hne, last, hlast, hcredit, hstart⟩
  · exact Or.inl (hu.dispatches ▸ hnone)
  · refine Or.inr ⟨hu.threads hne, last, hlast, hu.dispatches ▸ hcredit, fun p hp => ?_⟩
    rw [hu.starts]
    exact hstart p (hu.current hne ▸ hp)

theorem Paced.tick (h : Paced a d (a :: ts) t) (hp : Placed t)
    (ht : Scheduler.tick now start fuel t = .ok t')
    (hclock : Forward (a :: ts ++ [now, start])) : Paced a d (a :: ts ++ [now, start]) t' := by
  have hpast := hclock.of_append.readings
  have hnow : now.IsReading := hclock.readings now (by simp)
  have hstart' : start.IsReading := hclock.readings start (by simp)
  have hle : ∀ r ∈ a :: ts, r.credit ≤ start.credit := fun r hr =>
    credit_le (hpast r hr) hstart' (hclock.le hr (by simp))
  have hdispatch : now.credit ≤ start.credit :=
    credit_le hnow hstart' (by simpa using (List.pairwise_append.mp hclock.sorted).2.1)
  obtain ⟨cur, hcur, hthreads, hs⟩ := hp.signalled ht
  cases hs with
  | within _ heq =>
    subst heq
    rcases h with hnone | ⟨hne, last, hlast, hcredit, hstart⟩
    · exact Or.inl hnone
    · exact Or.inr ⟨hne, last, List.mem_append_left _ hlast, hcredit, hstart⟩
  | idle _ hdispatches hnone =>
    rcases h with hd | ⟨hne, last, hlast, hcredit, -⟩
    · exact Or.inl (hdispatches ▸ hd)
    · refine Or.inr ⟨hthreads ▸ hne, last, List.mem_append_left _ hlast, hdispatches ▸ hcredit,
        fun p hp => ?_⟩
      cases hnone.symm.trans hp
  | turn p hslice hdispatches hcurrent hstarts =>
    obtain ⟨hmem, -⟩ := hp.current cur hcur
    have hlength : t'.dispatches.length = t.dispatches.length + 1 := by
      rw [hdispatches, List.length_append]
      rfl
    refine Or.inr ⟨hthreads ▸ List.ne_nil_of_mem hmem, start, by simp, ?_, fun r hr => ?_⟩
    · rw [hlength]
      rcases h with hd | ⟨-, last, hlast, hcredit, hstart⟩
      · have hfirst := hle a List.mem_cons_self
        rw [hd]
        push_cast
        linarith
      · obtain rfl := hstart cur hcur
        have hused := hslice.credit_le (hp.priority cur hmem) (hpast _ hlast) hnow
          (hclock.le hlast (by simp))
        push_cast
        linarith
    · obtain rfl := Option.some.inj (hcurrent.symm.trans hr)
      rw [hstarts, if_pos rfl]

/-- In a run from a regular state, with the readings that it has had. -/
theorem Regular.paced {os : List OpenEvent} (h : Regular t) (hrun : Run OpenStep t os t')
    (hclock : Forward (a :: readings os)) :
    Paced a t.dispatches.length (a :: readings os) t' := by
  have hkept := Run.invariant (I := fun os t' => Regular t' ∧ (Forward (a :: readings os) →
    Paced a t.dispatches.length (a :: readings os) t')) ⟨h, fun _ => Or.inl rfl⟩ ?_ hrun
  · exact hkept.2 hclock
  rintro os u o u' ⟨hu, hpaced⟩ hs
  refine ⟨hu.step hs, fun hforward => ?_⟩
  rw [readings_snoc, ← List.cons_append] at hforward ⊢
  have hbefore := hpaced hforward.of_append
  cases ho : o.signal with
  | none =>
    have hunsignalled := hbefore.unsignalled (hu.unsignalled hs ho)
    simpa using hunsignalled
  | some r =>
    cases hu.stepped hs with
    | tick hsteady ht =>
      obtain rfl := Option.some.inj ho
      exact hbefore.tick hsteady.toPlaced ht hforward
    | call => cases ho
    | unlock => cases ho
    | next => cases ho

end Pace

section Punctuality

variable {t t' : State TcbLists} {o : OpenEvent} {now start a : Time} {fuel : ℕ}
  {rs : List (Time × Time)} {os : List OpenEvent}

/-- After the signals `rs`, counted with the start of the run, every one has dispatched, but
perhaps the last, and no thread has a start time after the last. -/
structure Punctual (rs : List (Time × Time)) (t : State TcbLists) : Prop where
  counted : rs.length = t.dispatches.length + 1 ∨
    t.currentTcb = none ∧ t.threads ≠ [] ∧ rs.length = t.dispatches.length + 2
  starts : ∀ p, (t.tcbs p).recentStartTime.IsReading ∧
    ∀ x ∈ rs.getLast?, 0 ≤ elapsed (t.tcbs p).recentStartTime x.2

theorem Punctual.unsignalled (h : Punctual rs t) (hu : Unsignalled t t') : Punctual rs t' where
  counted := by
    rw [hu.dispatches]
    rcases h.counted with hall | ⟨hnone, hne, hbut⟩
    · exact Or.inl hall
    · exact Or.inr ⟨hu.current hne ▸ hnone, hu.threads hne, hbut⟩
  starts p := by
    rw [hu.starts]
    exact h.starts p

theorem Punctual.tick (h : Punctual rs t) (hp : Placed t)
    (ht : Scheduler.tick now start fuel t = .ok t') {x : Time × Time} (hx : rs.getLast? = some x)
    (hnow : now.IsReading) (hstart : start.IsReading) (hle : 0 ≤ elapsed now start)
    (hspaced : priorityTimeSlice 0 ≤ elapsed x.2 now) : Punctual (rs ++ [(now, start)]) t' := by
  obtain ⟨cur, hcur, hthreads, hs⟩ := hp.signalled ht
  obtain ⟨hmem, -⟩ := hp.current cur hcur
  have hpriority := hp.priority cur hmem
  have hslice : priorityTimeSlice 0 = 5000 := by decide
  have hlast : ∀ p, 0 ≤ elapsed (t.tcbs p).recentStartTime x.2 := fun p => (h.starts p).2 x hx
  have hsum := fun p => elapsed_add (t.tcbs p).recentStartTime x.2 now
  have hsum' := fun p => elapsed_add (t.tcbs p).recentStartTime now start
  have hcount : rs.length = t.dispatches.length + 1 := by
    rcases h.counted with hall | ⟨hnone, -⟩
    · exact hall
    · cases hnone.symm.trans hcur
  have hother : ∀ p, 0 ≤ elapsed (t.tcbs p).recentStartTime start := by
    intro p
    have := hlast p
    have := hsum p
    have := hsum' p
    omega
  -- the running thread has used up its slice
  have hused : PastSlice t cur now := by
    have hhigh := hnow.sec_high
    have hlow := (h.starts cur).1.sec_nonneg
    refine pastSlice_of_elapsed (h.starts cur).1.toNormalised hnow.toNormalised (by omega)
      (by rw [hpriority]) (by rw [hpriority]; decide) ?_
    have := hlast cur
    have := hsum cur
    rw [hpriority]
    omega
  cases hs with
  | within hwithin => exact absurd hused hwithin
  | idle _ hdispatches hnone hsame =>
    refine ⟨Or.inr ⟨hnone, hthreads ▸ List.ne_nil_of_mem hmem, ?_⟩, fun p => ?_⟩
    · rw [hdispatches, List.length_append, hcount]
      rfl
    · rw [hsame]
      exact ⟨(h.starts p).1, by simpa using hother p⟩
  | turn p _ hdispatches _ hstarts =>
    refine ⟨Or.inl ?_, fun r => ?_⟩
    · rw [hdispatches, List.length_append, List.length_append, hcount]
      rfl
    · rw [hstarts]
      split_ifs
      · exact ⟨hstart, by simp [elapsed]⟩
      · exact ⟨(h.starts r).1, by simpa using hother r⟩

theorem Regular.punctual (hrun : Run OpenStep t os t') (h : Regular t) (h₀ : Punctual [(a, a)] t)
    (hclock : Forward (a :: readings os))
    (hspaced : ((a, a) :: signals os).IsChain fun x y => priorityTimeSlice 0 ≤ elapsed x.2 y.1) :
    Punctual ((a, a) :: signals os) t' := by
  have hkept := Run.invariant (I := fun os t' => Regular t' ∧ (Forward (a :: readings os) →
    (((a, a) :: signals os).IsChain fun x y => priorityTimeSlice 0 ≤ elapsed x.2 y.1) →
      Punctual ((a, a) :: signals os) t')) ⟨h, fun _ _ => h₀⟩ ?_ hrun
  · exact hkept.2 hclock hspaced
  rintro os u o u' ⟨hu, hpunctual⟩ hs
  refine ⟨hu.step hs, fun hforward hchain => ?_⟩
  rw [readings_snoc, ← List.cons_append] at hforward
  rw [signals_snoc, ← List.cons_append] at hchain ⊢
  obtain ⟨hbefore, -, hgap⟩ := List.isChain_append.mp hchain
  have hpunctual' := hpunctual hforward.of_append hbefore
  cases ho : o.signal with
  | none =>
    have hunsignalled := hpunctual'.unsignalled (hu.unsignalled hs ho)
    simpa using hunsignalled
  | some r =>
    cases hu.stepped hs with
    | @tick now start _ _ hsteady ht =>
      obtain rfl := Option.some.inj ho
      have hx := List.getLast?_eq_some_getLast (List.cons_ne_nil (a, a) (signals os))
      refine hpunctual'.tick hsteady.toPlaced ht hx (hforward.readings now ?_)
        (hforward.readings start ?_) ?_ (hgap _ hx _ rfl)
      · exact List.mem_append_right _ (by simp [OpenEvent.signal])
      · exact List.mem_append_right _ (by simp [OpenEvent.signal])
      · simpa [OpenEvent.signal] using (List.pairwise_append.mp hforward.sorted).2.1
    | call => cases ho
    | unlock => cases ho
    | next => cases ho

end Punctuality

section Runs

variable {storage : TcbPtr → Tcb} {os ws : List OpenEvent} {s s₀ : State TcbLinks} {a b : Time}

/-- In any window of any interleaving: each dispatch but the first takes a time slice, or the
crossing of a second. -/
theorem dispatches_spaced (h : Run OpenStep (State.initial noLinks storage) os s₀)
    (hwindow : Run OpenStep s₀ ws s) (hclock : Forward (a :: readings ws ++ [b])) :
    priorityTimeSlice 0 * ((s.dispatches.length : ℤ) - s₀.dispatches.length - 1) ≤
      elapsed a b + priorityTimeSlice 0 * (b.sec - a.sec) := by
  obtain ⟨t₀, -, hr₀, hreg₀⟩ := run_regular h
  obtain ⟨t, hrun, hr, -⟩ := Run.simulation (R := fun s t => Refines s t ∧ Regular t)
    (fun _ _ _ _ hrel hs => hs.simulates hrel.1 hrel.2) ⟨hr₀, hreg₀⟩ hwindow
  obtain ⟨L₀, -, rfl⟩ := hr₀
  obtain ⟨L, -, rfl⟩ := hr
  have hb := hclock.readings b (by simp)
  have hle : ∀ r ∈ a :: readings ws, r.credit ≤ b.credit := fun r hr =>
    credit_le (hclock.of_append.readings r hr) hb (hclock.le hr (by simp))
  have hslice : priorityTimeSlice 0 = 5000 := by decide
  rw [← credit_sub]
  change priorityTimeSlice 0 * ((t.dispatches.length : ℤ) - t₀.dispatches.length - 1) ≤ _
  rcases hreg₀.paced hrun hclock.of_append with hnone | ⟨-, last, hlast, hcredit, -⟩
  · have hfirst := hle a List.mem_cons_self
    rw [hnone]
    omega
  · have hlate := hle last hlast
    omega

/-- Two dispatches a microsecond apart, where a second begins. -/
theorem dispatches_spaced_newSecond : ∃ s₀ s : State TcbLinks,
    Run OpenStep (State.initial noLinks fun _ => zeroedTcb)
        [.event (.call (.create true true ⟨1, 0⟩))] s₀ ∧
      Run OpenStep s₀ [.event (.tick ⟨1, 999999⟩ ⟨1, 999999⟩), .event (.tick ⟨2, 0⟩ ⟨2, 0⟩)] s ∧
        s₀.dispatches = [] ∧ s.dispatches = [1, 0] ∧ elapsed ⟨1, 999999⟩ ⟨2, 0⟩ = 1 ∧
          (5000 * (2 - 0 - 1) : ℤ) ≤ 1 + 5000 * (2 - 1) := by
  obtain ⟨s₀, hrun, hs₀⟩ := Run.of_runAll (OpenEvent.run_step 5)
    [.event (.call (.create true true ⟨1, 0⟩))] (State.initial noLinks fun _ => zeroedTcb)
    (fun s => (s.dispatches, decide ((runAll (fun o : OpenEvent => o.run 5)
      [.event (.tick ⟨1, 999999⟩ ⟨1, 999999⟩), .event (.tick ⟨2, 0⟩ ⟨2, 0⟩)] s).map
        (·.dispatches) = .ok [1, 0]))) (b := ([], true)) (by decide +kernel)
  obtain ⟨hnone, hlater⟩ := Prod.mk.inj hs₀
  obtain ⟨s, hwindow, hs⟩ := Run.of_runAll (OpenEvent.run_step 5) _ s₀ _ (of_decide_eq_true hlater)
  have hspaced := dispatches_spaced (a := ⟨1, 999999⟩) (b := ⟨2, 0⟩) hrun hwindow
    ⟨by simp [readings, signals, OpenEvent.signal, Time.isReading_iff],
      by simp [readings, signals, OpenEvent.signal, elapsed]⟩
  rw [hnone, hs] at hspaced
  exact ⟨s₀, s, hrun, hwindow, hnone, hs, by decide, hspaced⟩

/-- Where the signals are a time slice apart, each of them dispatches a thread, but one after which
nothing runs. -/
theorem signals_dispatch (h : Run OpenStep (State.initial noLinks storage) os s)
    (hstorage : ∀ p, (storage p).recentStartTime.IsReading ∧
      0 ≤ elapsed (storage p).recentStartTime a) (hclock : Forward (a :: readings os))
    (hspaced : ((a, a) :: signals os).IsChain fun x y => priorityTimeSlice 0 ≤ elapsed x.2 y.1) :
    (signals os).length = s.dispatches.length ∨
      s.currentTcb = none ∧ (signals os).length = s.dispatches.length + 1 := by
  obtain ⟨t, hrun, ⟨L, -, rfl⟩, -⟩ := run_regular h
  have hinitial : Punctual [(a, a)] (State.initial noLists storage) := by
    refine ⟨Or.inl rfl, fun p => ⟨(hstorage p).1, ?_⟩⟩
    rintro x ⟨⟩
    exact (hstorage p).2
  obtain ⟨hcounted, -⟩ := Regular.punctual hrun (.steady (.initial storage)) hinitial hclock hspaced
  rw [List.length_cons] at hcounted
  rcases hcounted with hall | ⟨hnone, -, hbut⟩
  · exact Or.inl (Nat.succ.inj hall)
  · exact Or.inr ⟨hnone, Nat.succ.inj hbut⟩

/-- Both signals have dispatched. -/
theorem signals_dispatch_waitAndWake : ∃ s : State TcbLinks,
    Run OpenStep (State.initial noLinks fun _ => zeroedTcb) waitAndWake s ∧
      s.currentTcb = some 0 ∧ s.dispatches.length = 2 := by
  obtain ⟨s, hrun, hcurrent⟩ := Run.of_runAll (OpenEvent.run_step 5) waitAndWake
    (State.initial noLinks fun _ => zeroedTcb) (·.currentTcb) (b := some 0) (by decide +kernel)
  have hzero : Time.IsReading ⟨0, 0⟩ := by simp [Time.isReading_iff]
  have hsignals : signals waitAndWake = [(⟨1, 0⟩, ⟨1, 0⟩), (⟨2, 0⟩, ⟨2, 0⟩)] := rfl
  have hall := signals_dispatch (a := ⟨0, 0⟩) hrun (fun _ => ⟨hzero, le_rfl⟩)
    ⟨by simp [readings, hsignals, Time.isReading_iff], by simp [readings, hsignals, elapsed]⟩
    (by simp [hsignals, elapsed]; decide)
  rw [hcurrent, hsignals] at hall
  exact ⟨s, hrun, hcurrent, by simpa [eq_comm] using hall⟩

end Runs

end VirtualMemorySimulation.Scheduler
