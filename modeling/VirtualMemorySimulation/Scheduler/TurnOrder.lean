import VirtualMemorySimulation.Scheduler.OpenRuns

/-!
# The order of turns

With a thread in level 0 that has not terminated, an expired signal always comes to
an end, and in one way: the threads before the first live one go to the end of the
level in their order, and the first live one is dispatched. Without an unlock pending
the head of the level is not looked at first but last.
-/

namespace VirtualMemorySimulation.Scheduler

open Execution LinkedQueue

/-- Level 0 in the order in which the handler looks through it. -/
def State.lineup (t : State TcbLists) : List TcbPtr :=
  if t.afterUnlockPriority = -1 then (t.queues (.level 0)).rotate 1 else t.queues (.level 0)

/-- The list with its first live thread singled out. -/
structure Foremost (t : State TcbLists) (l dead : List TcbPtr) (p : TcbPtr) (rest : List TcbPtr) :
    Prop where
  split : l = dead ++ p :: rest
  dead : ∀ r ∈ dead, (t.tcbs r).state = .terminated
  live : (t.tcbs p).state ≠ .terminated

section Helpers

variable {t u : State TcbLists} {cur p : TcbPtr} {l dead rest : List TcbPtr}

theorem Foremost.find (h : Foremost t l dead p rest) : l.find? t.live = some p := by
  rw [h.split, List.find?_append, List.find?_eq_none.mpr, Option.none_or,
    List.find?_cons_of_pos (live_iff.mpr h.live)]
  intro r hr hlive
  exact live_iff.mp hlive (h.dead r hr)

theorem exists_foremost (h : l.find? t.live = some p) : ∃ dead rest, Foremost t l dead p rest := by
  obtain ⟨hlive, dead, rest, hl, hdead⟩ := List.find?_eq_some_iff_append.mp h
  refine ⟨dead, rest, hl, fun r hr => ?_, live_iff.mp hlive⟩
  by_contra hne
  simpa [live_iff.mpr hne] using hdead r hr

theorem Foremost.congr (h : Foremost t l dead p rest)
    (hstate : ∀ r, (u.tcbs r).state = .terminated ↔ (t.tcbs r).state = .terminated) :
    Foremost u l dead p rest :=
  ⟨h.split, fun r hr => (hstate r).mpr (h.dead r hr), fun hp => h.live ((hstate p).mp hp)⟩

/-- Terminated threads at the head of level 0 go to its end one after the other. -/
theorem runNextSending_settles (h : OneLevel t)
    (hfirst : Foremost t (t.queues (.level 0)) dead p rest) (start : Time) : ∃ n,
      Settles (fun fuel => runNextSending start (yieldHelperSending start fuel) 0 t)
        (.ok (dead, t.dispatch start p (rest ++ dead) n)) := by
  induction dead generalizing t rest with
  | nil =>
    obtain ⟨n, hn⟩ := runNextSending_head h hfirst.split start
    refine ⟨n + 1, Settles.congr (fun fuel => ?_) (Settles.const _)⟩
    rw [hn, if_neg hfirst.live, List.append_nil]
  | cons d dead ih =>
    have hq : t.queues (.level 0) = d :: (dead ++ p :: rest) := hfirst.split
    have hd : (t.tcbs d).state = .terminated := hfirst.dead d List.mem_cons_self
    obtain ⟨n, hn⟩ := runNextSending_head h hq start
    have hsel := h.select n (some d)
    have hprio : (t.tcbs d).priority = 0 := h.priority d (by rw [hq]; exact List.mem_cons_self)
    -- one more round of the helper, with the terminated head at the end
    have hrotated : (t.select n (some d)).rotate d (dead ++ p :: rest) =
        { t.select n (some d) with
          queues := t.queues.set (.level 0) (dead ++ p :: rest ++ [d]) } := rotate_terminated hd
    have hfirst' : Foremost ((t.select n (some d)).rotate d (dead ++ p :: rest))
        (((t.select n (some d)).rotate d (dead ++ p :: rest)).queues (.level 0)) dead p
          (rest ++ [d]) := by
      refine ⟨by rw [rotate_level]; simp, fun r hr => ?_, ?_⟩
      · rw [hrotated]
        exact hfirst.dead r (List.mem_cons_of_mem _ hr)
      · rw [hrotated]
        exact hfirst.live
    obtain ⟨k, hk⟩ := ih (hsel.rotate hq) hfirst'
    have hend : ((t.select n (some d)).rotate d (dead ++ p :: rest)).dispatch start p
        (rest ++ [d] ++ dead) k = t.dispatch start p (rest ++ d :: dead) k := by
      rw [hrotated]
      simp [State.dispatch, State.select]
    rw [hend] at hk
    have hround : ∀ fuel, runNextSending start (yieldHelperSending start fuel) 0 t =
        yieldHelperSending start fuel (t.select n (some d)) := by
      intro fuel
      rw [hn, if_pos hd]
    exact ⟨k, ((hk.map fun res => (d :: res.1, res.2)).succ rfl fun fuel =>
      yieldHelperSending_rotates hsel rfl hprio hq start fuel).congr hround⟩

theorem rotate_state_terminated (t : State TcbLists) (p r : TcbPtr) (l : List TcbPtr) :
    ((t.rotate p l).tcbs r).state = .terminated ↔ (t.tcbs r).state = .terminated :=
  (preempt_kept _ p r).terminated

theorem yieldHelperSending_settles (h : OneLevel t) (hcur : t.currentTcb = some cur)
    (hprio : (t.tcbs cur).priority = 0) {a : TcbPtr} (hq : t.queues (.level 0) = a :: l)
    (hfirst : Foremost t (l ++ [a]) dead p rest) (start : Time) : ∃ n,
      Settles (fun fuel => yieldHelperSending start fuel t)
        (.ok (a :: dead, (t.rotate a l).dispatch start p (rest ++ dead) n)) := by
  have hfirst' : Foremost (t.rotate a l) ((t.rotate a l).queues (.level 0)) dead p rest := by
    rw [rotate_level]
    exact hfirst.congr fun r => rotate_state_terminated t a r l
  obtain ⟨n, hn⟩ := runNextSending_settles (h.rotate hq) hfirst' start
  exact ⟨n, (hn.map fun res => (a :: res.1, res.2)).succ rfl fun fuel =>
    yieldHelperSending_rotates h hcur hprio hq start fuel⟩

end Helpers

section Signals

variable {t t' : State TcbLists} {now start : Time} {cur p : TcbPtr} {l dead rest : List TcbPtr}

/-- The state from which an expired signal dispatches. -/
def State.givenUp (t : State TcbLists) (cur : TcbPtr) : State TcbLists :=
  if t.afterUnlockPriority = -1 then
    match t.queues (.level 0) with
    | [] => t.save cur
    | a :: l => (t.save cur).rotate a l
  else { t.save cur with afterUnlockPriority := -1 }

theorem save_state_terminated (t : State TcbLists) (cur r : TcbPtr) :
    ((t.save cur).tcbs r).state = .terminated ↔ (t.tcbs r).state = .terminated := by
  obtain ⟨context, heq⟩ := save_tcb t cur r
  rw [heq]

/-- The threads that an expired signal sends back, given those that it passes over. -/
def State.sentBack (t : State TcbLists) (dead : List TcbPtr) : List TcbPtr :=
  if t.afterUnlockPriority = -1 then (t.queues (.level 0)).take 1 ++ dead else dead

/-- The result of an expired signal, when the lineup has a live thread. -/
theorem signalHandlerSending_settles (h : Placed t) (hcur : t.currentTcb = some cur)
    (hpast : PastSlice t cur now) (hfirst : Foremost t t.lineup dead p rest) (start : Time) : ∃ n,
      Settles (fun fuel => signalHandlerSending now start fuel t)
        (.ok (t.sentBack dead, (t.givenUp cur).dispatch start p (rest ++ dead) n)) := by
  have hprio : (t.tcbs cur).priority = 0 := h.priority cur (h.current cur hcur).1
  have hsave := h.oneLevel.save cur
  have hfirst' := hfirst.congr (u := t.save cur) (save_state_terminated t cur)
  have hhandler : ∀ fuel, signalHandlerSending now start fuel t = _ :=
    fun fuel => signalHandlerSending_past hcur hpast start fuel
  unfold State.lineup at hfirst'
  unfold State.givenUp State.sentBack
  rcases h.afterUnlock with hafter | hafter
  · rw [if_pos hafter] at hfirst' ⊢
    rw [if_pos hafter]
    cases hq : t.queues (.level 0) with
    | nil =>
      rw [hq] at hfirst'
      have hnone := hfirst'.split
      simp at hnone
    | cons a l =>
      rw [hq, List.rotate_cons_succ, List.rotate_zero] at hfirst'
      have hprio' : ((t.save cur).tcbs cur).priority = 0 := by
        obtain ⟨context, heq⟩ := save_tcb t cur cur
        rw [heq]
        exact hprio
      obtain ⟨n, hn⟩ := yieldHelperSending_settles hsave hcur hprio' hq hfirst' start
      refine ⟨n, hn.congr fun fuel => ?_⟩
      rw [hhandler, if_neg (by simp [hafter])]
  · have hne : t.afterUnlockPriority ≠ -1 := by simp [hafter]
    rw [if_neg hne] at hfirst' ⊢
    rw [if_neg hne]
    have hsave' : OneLevel { t.save cur with afterUnlockPriority := -1 } :=
      ⟨hsave.levels, hsave.priority, hsave.noYield⟩
    obtain ⟨n, hn⟩ := runNextSending_settles hsave' ⟨hfirst'.split, hfirst'.dead, hfirst'.live⟩ start
    refine ⟨n, hn.congr fun fuel => ?_⟩
    rw [hhandler, if_pos hne, hafter]

/-- What an expired signal makes of a state, with the order of level 0 after it. -/
structure Turned (t t' : State TcbLists) (p : TcbPtr) (l : List TcbPtr) : Prop
    extends Switched t.interrupt t' p, Frame t.interrupt t' where
  level : t'.queues (.level 0) = p :: l

theorem givenUp_dispatches (t : State TcbLists) (cur : TcbPtr) :
    (t.givenUp cur).dispatches = t.dispatches := by
  unfold State.givenUp
  split_ifs
  · cases t.queues (.level 0) with
    | nil => rfl
    | cons a l => exact rotate_dispatches (t.save cur) a l
  · rfl

theorem Placed.settlesSending (h : Placed t) (hcur : t.currentTcb = some cur)
    (hpast : PastSlice t cur now) (hfirst : Foremost t t.lineup dead p rest) (start : Time) :
    ∃ t', Settles (fun fuel => tickSending now start fuel t) (.ok (t.sentBack dead, t')) ∧
      Turned t t' p (rest ++ dead) := by
  obtain ⟨n, hn⟩ := signalHandlerSending_settles (t := t.interrupt) h.interrupt hcur hpast
    ⟨hfirst.split, hfirst.dead, hfirst.live⟩ start
  obtain ⟨fuel, hfuel⟩ := hn.exists_ok
  have htick : Scheduler.tick now start fuel t =
      .ok ((t.interrupt.givenUp cur).dispatch start p (rest ++ dead) n) := by
    rw [← tickSending_snd]
    exact congrArg (Except.map Prod.snd) hfuel
  refine ⟨_, hn, ?_⟩
  have hdispatches : ((t.interrupt.givenUp cur).dispatch start p (rest ++ dead) n).dispatches =
      t.interrupt.dispatches ++ [p] := congrArg (· ++ [p]) (givenUp_dispatches t.interrupt cur)
  have hlevel : ((t.interrupt.givenUp cur).dispatch start p (rest ++ dead) n).queues (.level 0) =
      p :: (rest ++ dead) := by simp
  obtain ⟨-, hframe, hsame | ⟨r, -, hswitched⟩ | hidle⟩ := tick_outcome h htick
  · rw [hsame] at hdispatches
    simp at hdispatches
  · have hr := hdispatches.symm.trans hswitched.dispatches
    obtain rfl : p = r := by simpa using hr
    exact ⟨hswitched, hframe, hlevel⟩
  · have hnone := hidle.dispatches
    rw [hdispatches] at hnone
    simp at hnone

theorem Placed.settles (h : Placed t) (hcur : t.currentTcb = some cur)
    (hpast : PastSlice t cur now) (hfirst : Foremost t t.lineup dead p rest) (start : Time) :
    ∃ t', Settles (fun fuel => Scheduler.tick now start fuel t) (.ok t') ∧
      Turned t t' p (rest ++ dead) := by
  obtain ⟨t', ht', hturned⟩ := h.settlesSending hcur hpast hfirst start
  exact ⟨t', (ht'.map Prod.snd).congr fun fuel => (tickSending_snd now start fuel t).symm, hturned⟩

/-- What a signal that comes back has done, with the order of level 0. -/
theorem Placed.ticked {fuel : ℕ} (h : Placed t)
    (ht : Scheduler.tick now start fuel t = .ok t') :
    (∃ cur ∈ t.currentTcb, ¬ PastSlice t cur now) ∧ t' = t.interrupt ∨
      (∃ cur ∈ t.currentTcb, PastSlice t cur now) ∧ (Idled t.interrupt t' ∨
        ∃ dead p rest, Foremost t t.lineup dead p rest ∧ Turned t t' p (rest ++ dead)) := by
  obtain ⟨cur, hcur⟩ := tick_current ht
  by_cases hpast : PastSlice t cur now
  · refine Or.inr ⟨⟨cur, hcur, hpast⟩, ?_⟩
    cases hfind : t.lineup.find? t.live with
    | some p =>
      obtain ⟨dead, rest, hfirst⟩ := exists_foremost hfind
      obtain ⟨u, hu, hturned⟩ := h.settles hcur hpast hfirst start
      obtain rfl := Except.ok.inj (hu.eq_of_ok ht)
      exact Or.inr ⟨dead, p, rest, hfirst, hturned⟩
    | none =>
      -- with no live thread in the lineup nothing can have been dispatched
      have hdead : ∀ r ∈ t.lineup, (t.tcbs r).state = .terminated := by
        simpa [State.live] using hfind
      obtain ⟨hh, -⟩ := tick_outcome h ht
      cases hh with
      | within hcur' hnot =>
        obtain rfl := Option.some.inj (hcur.symm.trans hcur')
        exact absurd hpast hnot
      | @rotated cur' a l _ _ _ hafter hq hd =>
        obtain ⟨r, m, n, -, hr, -⟩ := hd
        rw [rotate_level] at hr
        have hlive : (((t.interrupt.save cur').rotate a l).tcbs r).state ≠ .terminated :=
          live_iff.mp (List.find?_some hr)
        refine absurd (hdead r ?_) fun hterm => hlive ?_
        · have hmem := List.mem_of_find?_eq_some hr
          have hq' : t.queues (.level 0) = a :: l := hq
          have hafter' : t.afterUnlockPriority = -1 := hafter
          unfold State.lineup
          rwa [if_pos hafter', hq', List.rotate_cons_succ, List.rotate_zero]
        · rw [rotate_state_terminated, save_state_terminated]
          exact hterm
      | @resumed cur' _ _ _ _ _ hafter _ hd =>
        obtain ⟨r, m, n, -, hr, -⟩ := hd
        have hlive : ((t.interrupt.save cur').tcbs r).state ≠ .terminated :=
          live_iff.mp (List.find?_some hr)
        refine absurd (hdead r ?_) fun hterm => hlive ?_
        · have hmem := List.mem_of_find?_eq_some hr
          have hafter' : t.afterUnlockPriority = 0 := hafter
          unfold State.lineup
          rwa [if_neg (by simp [hafter'])]
        · rw [save_state_terminated]
          exact hterm
      | idle _ _ hafter hq =>
        have hafter' : t.afterUnlockPriority = 0 := hafter
        exact Or.inl ⟨hq, by simp [hafter'], rfl, rfl, rfl, rfl⟩
  · have hwithin := signalHandler_within (s := t.interrupt) hcur hpast start fuel
    exact Or.inl ⟨⟨cur, hcur, hpast⟩, (Except.ok.inj (hwithin.symm.trans ht)).symm⟩

end Signals

end VirtualMemorySimulation.Scheduler
