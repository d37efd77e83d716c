import VirtualMemorySimulation.Foundations.LinkedQueue

/-!
# An enqueue in single assignments

Between two assignments of an enqueue the queue may be rotated: its head is
dequeued and enqueued again, any number of times and on other queues as well.
Once the tail is the new node and two other nodes are queued, the rotations see
a queue whose count lags by one and work on it all the same. Before that, or
with one other node, the first rotation overwrites what links the new node.
-/

namespace VirtualMemorySimulation.LinkedQueue

open Execution

variable {κ ν : Type} [DecidableEq κ] [DecidableEq ν]

namespace Links

def setHead (q : κ) (p : ν) (L : Links κ ν) : Except Stop (Links κ ν) :=
  .ok { L with queue := Function.update L.queue q { L.queue q with head := some p } }

def setTail (q : κ) (p : ν) (L : Links κ ν) : Except Stop (Links κ ν) :=
  .ok { L with queue := Function.update L.queue q { L.queue q with tail := some p } }

def setNext (p : ν) (next : Option ν) (L : Links κ ν) : Except Stop (Links κ ν) :=
  .ok { L with next := Function.update L.next p next }

def setTailNext (q : κ) (next : Option ν) (L : Links κ ν) : Except Stop (Links κ ν) :=
  match (L.queue q).tail with
  | none => .error .nullDereference
  | some t => .ok { L with next := Function.update L.next t next }

def countUp (q : κ) (L : Links κ ν) : Except Stop (Links κ ν) :=
  .ok { L with queue := Function.update L.queue q { L.queue q with size := (L.queue q).size + 1 } }

/-- The assignments of an enqueue. The count found at its start decides the branch. -/
def assignments (q : κ) (p : ν) (count : ℕ) : List (Links κ ν → Except Stop (Links κ ν)) :=
  if count = 0 then [setHead q p, setTail q p, setNext p none, countUp q]
  else [setTailNext q (some p), setTail q p, setTailNext q none, countUp q]

def enqueueUpTo (q : κ) (p : ν) (k : ℕ) (L : Links κ ν) : Except Stop (Links κ ν) :=
  runAll id ((assignments q p (L.queue q).size).take k) L

/-- The assignments after the first `k` of an enqueue that has found `count` nodes. -/
def enqueueFrom (q : κ) (p : ν) (k count : ℕ) (L : Links κ ν) : Except Stop (Links κ ν) :=
  runAll id ((assignments q p count).drop k) L

theorem enqueueUpTo_all (q : κ) (p : ν) (L : Links κ ν) :
    enqueueUpTo q p 4 L = enqueue q (some p) L := by
  unfold enqueueUpTo enqueue assignments
  split_ifs with h
  · simp [runAll, setHead, setTail, setNext, countUp, h]
  · cases htail : (L.queue q).tail with
    | none => simp [runAll, setTailNext, htail]
    | some t => simp [runAll, setTailNext, setTail, countUp, htail]

theorem enqueueFrom_all (q : κ) (p : ν) (L : Links κ ν) :
    enqueueFrom q p 0 (L.queue q).size L = enqueue q (some p) L := by
  rw [← enqueueUpTo_all]
  unfold enqueueFrom enqueueUpTo assignments
  split_ifs <;> rfl

end Links

section Rotation

variable {L : Links κ ν} {A : Lists κ ν} {q r : κ} {p t u x : ν} {l : List ν}

/-- The links after the head `p` has gone behind the tail `u`. -/
def Links.rotated (q : κ) (p u : ν) (L : Links κ ν) : Links κ ν :=
  if (L.queue q).size = 1 then
    ⟨Function.update L.queue q ⟨some p, some p, 1⟩, Function.update L.next p none⟩
  else
    ⟨Function.update L.queue q ⟨L.next p, some p, (L.queue q).size⟩,
      Function.update (Function.update (Function.update L.next p none) u (some p)) p none⟩

/-- The head of the queue is dequeued and enqueued again. -/
def Links.Turns (q : κ) (p : ν) (L L' : Links κ ν) : Prop :=
  ∃ L₁, Links.dequeue q L = .ok (some p, L₁) ∧ Links.enqueue q (some p) L₁ = .ok L'

theorem Links.Turns.unique {L' L'' : Links κ ν} (h : Links.Turns q p L L')
    (h' : Links.Turns q t L L'') : L' = L'' := by
  obtain ⟨L₁, hdeq, henq⟩ := h
  obtain ⟨L₂, hdeq', henq'⟩ := h'
  have heq := hdeq.symm.trans hdeq'
  simp only [Except.ok.injEq, Prod.mk.injEq, Option.some.injEq] at heq
  obtain ⟨rfl, rfl⟩ := heq
  exact Except.ok.inj (henq.symm.trans henq')

theorem Links.turns_rotated (hhead : (L.queue q).head = some p) (htail : (L.queue q).tail = some u)
    (hsize : (L.queue q).size ≠ 0) : Links.Turns q p L (L.rotated q p u) := by
  by_cases h1 : (L.queue q).size = 1
  · refine ⟨⟨Function.update L.queue q ⟨none, none, 0⟩, Function.update L.next p none⟩, ?_, ?_⟩
    · rw [Links.dequeue, if_neg hsize, hhead]
      simp only [if_pos h1]
    · rw [Links.enqueue, if_pos (by simp), Links.rotated, if_pos h1]
      simp
  · refine ⟨⟨Function.update L.queue q ⟨L.next p, some u, (L.queue q).size - 1⟩,
      Function.update L.next p none⟩, ?_, ?_⟩
    · rw [Links.dequeue, if_neg hsize, hhead]
      simp only [if_neg h1, htail]
    · rw [Links.enqueue, if_neg (by simp; omega), Links.rotated, if_neg h1]
      simp only [Function.update_self, Function.update_idem]
      rw [Nat.sub_add_cancel (by omega)]

/-- A relation to lists that sees every queue rotate when its head turns. -/
structure Rotating (R : Links κ ν → Lists κ ν → Prop) : Prop where
  empty : ∀ {L A q}, R L A → A q = [] → Links.dequeue q L = .ok (none, L)
  head : ∀ {L A q p l}, R L A → A q = p :: l →
    ∃ L', Links.Turns q p L L' ∧ R L' (A.set q (l ++ [p]))

theorem Agrees.record (h : Agrees L A) (hq : A q = p :: l) : ∃ u, (p :: l).getLast? = some u ∧
    (L.queue q).head = some p ∧ (L.queue q).tail = some u ∧ (L.queue q).size = l.length + 1 := by
  have hpeek : (L.queue q).head = (A q).head? := h.peek q
  have htail := (h.denotes q).tail
  have hsize := (h.denotes q).size
  rw [hq] at hpeek htail hsize
  obtain ⟨u, hu⟩ := Option.isSome_iff_exists.mp (List.getLast?_isSome.mpr (List.cons_ne_nil p l))
  exact ⟨u, hu, hpeek, htail.trans hu, hsize⟩

theorem Agrees.rotating : Rotating (Agrees (κ := κ) (ν := ν)) where
  empty h hq := by
    rw [Links.dequeue, if_pos (by rw [(h.denotes _).size, hq]; rfl)]
  head := by
    intro L A q p l h hq
    obtain ⟨⟨node, L₁⟩, hres, hnode, hagrees, hun⟩ :=
      (h.dequeue q).of_ok_right (Lists.dequeue_cons hq)
    obtain rfl : node = some p := hnode
    obtain ⟨L₂, hres', hagrees'⟩ := (hagrees.enqueue q hun).of_ok_right rfl
    exact ⟨_, ⟨L₁, hres, hres'⟩, by simpa using hagrees'⟩

end Rotation

section Lag

variable {L : Links κ ν} {A : Lists κ ν} {q r : κ} {k : ℕ} {p t u x : ν} {l : List ν}

/-- The links after the last two assignments of an enqueue at the tail `t`. -/
def Links.caughtUp (q : κ) (t : ν) (L : Links κ ν) : Links κ ν :=
  ⟨Function.update L.queue q { L.queue q with size := (L.queue q).size + 1 },
    Function.update L.next t none⟩

@[simp] theorem Links.caughtUp_queue_self : (L.caughtUp q t).queue q =
    { L.queue q with size := (L.queue q).size + 1 } := Function.update_self ..

theorem Links.caughtUp_queue_of_ne (h : r ≠ q) : (L.caughtUp q t).queue r = L.queue r :=
  Function.update_of_ne h ..

/-- The links of a queue of at least three nodes whose count has not been raised for the
last one, and whose tail may not have been given its null link before `k = 3`. -/
structure Lagging (q : κ) (k : ℕ) (L : Links κ ν) (A : Lists κ ν) : Prop where
  long : 3 ≤ (A q).length
  caughtUp : ∃ t, (L.queue q).tail = some t ∧ Agrees (L.caughtUp q t) A ∧ (k = 3 → L.next t = none)

theorem Links.caughtUp_rotated (hpt : p ≠ t) (hsize : 2 ≤ (L.queue q).size) :
    (L.rotated q p t).caughtUp q p = (L.caughtUp q t).rotated q p t := by
  unfold Links.rotated Links.caughtUp
  rw [if_neg (by omega), if_neg (by simp; omega)]
  simp only [Function.update_self, Function.update_idem, Function.update_of_ne hpt]
  congr 1
  funext y
  by_cases hyp : y = p
  · simp [hyp]
  · by_cases hyt : y = t
    · simp [hyt, hpt.symm]
    · simp [hyp, hyt]

theorem Links.caughtUp_rotated_of_ne (hqr : r ≠ q) (hpt : p ≠ t) (hut : u ≠ t) :
    (L.rotated r p u).caughtUp q t = (L.caughtUp q t).rotated r p u := by
  unfold Links.rotated Links.caughtUp
  simp only [Function.update_of_ne hqr, Function.update_of_ne hpt]
  split_ifs with h1
  · simp only [Function.update_of_ne hqr.symm, Function.update_comm hqr.symm,
      Function.update_comm hpt.symm]
  · simp only [Function.update_of_ne hqr.symm, Function.update_comm hqr.symm,
      Function.update_comm hpt.symm, Function.update_comm hut.symm]

omit [DecidableEq ν] in
theorem head_ne_last (hnodup : (p :: l).Nodup) (hl : l ≠ []) (ht : (p :: l).getLast? = some t) :
    p ≠ t := by
  rintro rfl
  rw [List.getLast?_cons_of_ne_nil hl] at ht
  exact (List.nodup_cons.mp hnodup).1 (List.mem_of_getLast? ht)

theorem Lagging.rotating (q : κ) (k : ℕ) : Rotating (Lagging (ν := ν) q k) where
  empty := by
    intro L A r h hr
    obtain ⟨t, -, hagrees, -⟩ := h.caughtUp
    have hne : r ≠ q := by
      rintro rfl
      have := h.long
      simp [hr] at this
    have hsize := (hagrees.denotes r).size
    rw [Links.caughtUp_queue_of_ne hne, hr] at hsize
    exact if_pos hsize
  head := by
    intro L A r p l h hr
    obtain ⟨t, htail, hagrees, hended⟩ := h.caughtUp
    have hlong := h.long
    have hnodup := hagrees.distinct.nodup r
    obtain ⟨u, hu, hhead, hlast, hsize⟩ := hagrees.record hr
    obtain ⟨K, hK, hrotated⟩ := Agrees.rotating.head hagrees hr
    obtain rfl := hK.unique (Links.turns_rotated hhead hlast (by omega))
    by_cases hne : r = q
    · subst hne
      rw [hr] at hlong hnodup
      simp only [Links.caughtUp_queue_self] at hhead hlast hsize
      obtain rfl : t = u := Option.some.inj (htail.symm.trans hlast)
      have hpt : p ≠ t := head_ne_last hnodup (by rintro rfl; simp at hlong) hu
      simp only [List.length_cons] at hlong
      refine ⟨_, Links.turns_rotated hhead htail (by omega), by simp; omega, p, ?_, ?_, fun _ => ?_⟩
      · rw [Links.rotated, if_neg (by omega)]
        simp
      · rwa [Links.caughtUp_rotated hpt (by omega)]
      · rw [Links.rotated, if_neg (by omega)]
        simp
    · have hmem : t ∈ A q := by
        have hdenotes := (hagrees.denotes q).tail
        rw [Links.caughtUp_queue_self, htail] at hdenotes
        exact List.mem_of_getLast? hdenotes.symm
      have happart : ∀ s ∈ p :: l, s ≠ t := by
        rintro s hs rfl
        exact hne (hagrees.distinct.apart r q s (hr ▸ hs) hmem)
      have hpt : p ≠ t := happart p (by simp)
      have hut : u ≠ t := happart u (List.mem_of_getLast? hu)
      rw [Links.caughtUp_queue_of_ne hne] at hhead hlast hsize
      refine ⟨_, Links.turns_rotated hhead hlast (by omega), ?_, t, ?_, ?_, ?_⟩
      · rwa [Lists.set_of_ne (Ne.symm hne)]
      · unfold Links.rotated
        split_ifs <;> simpa [Function.update_of_ne (Ne.symm hne)] using htail
      · rwa [Links.caughtUp_rotated_of_ne hne hpt hut]
      · intro hk
        unfold Links.rotated
        split_ifs <;> simp [Function.update_of_ne hpt.symm, Function.update_of_ne hut.symm, hended hk]

end Lag

section Interruption

variable {L L' M : Links κ ν} {A B : Lists κ ν} {q : κ} {k count : ℕ} {p t u x : ν} {l : List ν}

theorem Links.enqueueUpTo_one (htail : (L.queue q).tail = some u) (hsize : (L.queue q).size ≠ 0) :
    Links.enqueueUpTo q x 1 L = .ok ⟨L.queue, Function.update L.next u (some x)⟩ := by
  simp [Links.enqueueUpTo, Links.assignments, hsize, runAll, Links.setTailNext, htail]

theorem Links.enqueueUpTo_two (htail : (L.queue q).tail = some u) (hsize : (L.queue q).size ≠ 0) :
    Links.enqueueUpTo q x 2 L = .ok
      ⟨Function.update L.queue q { L.queue q with tail := some x },
        Function.update L.next u (some x)⟩ := by
  simp [Links.enqueueUpTo, Links.assignments, hsize, runAll, Links.setTailNext, htail, Links.setTail]

theorem Links.enqueueUpTo_three (htail : (L.queue q).tail = some u)
    (hsize : (L.queue q).size ≠ 0) : Links.enqueueUpTo q x 3 L = .ok
      ⟨Function.update L.queue q { L.queue q with tail := some x },
        Function.update (Function.update L.next u (some x)) x none⟩ := by
  simp [Links.enqueueUpTo, Links.assignments, hsize, runAll, Links.setTailNext, htail, Links.setTail]

theorem Links.enqueueFrom_one (hcount : count ≠ 0) : Links.enqueueFrom q x 1 count L = .ok
    ⟨Function.update L.queue q ⟨(L.queue q).head, some x, (L.queue q).size + 1⟩,
      Function.update L.next x none⟩ := by
  simp [Links.enqueueFrom, Links.assignments, hcount, runAll, Links.setTailNext, Links.setTail,
    Links.countUp]

theorem Links.enqueueFrom_two (hcount : count ≠ 0) (htail : (L.queue q).tail = some t) :
    Links.enqueueFrom q x 2 count L = .ok (L.caughtUp q t) := by
  simp [Links.enqueueFrom, Links.assignments, hcount, runAll, Links.setTailNext, htail,
    Links.countUp, Links.caughtUp]

theorem Links.enqueueFrom_three (hcount : count ≠ 0) : Links.enqueueFrom q x 3 count L = .ok
    ⟨Function.update L.queue q { L.queue q with size := (L.queue q).size + 1 }, L.next⟩ := by
  simp [Links.enqueueFrom, Links.assignments, hcount, runAll, Links.countUp]

theorem Agrees.lags (h : Agrees L A) (hx : ∀ q', x ∉ A q') (hlen : 2 ≤ (A q).length) (hk : 2 ≤ k)
    (hk' : k ≤ 3) (hL' : Links.enqueueUpTo q x k L = .ok L') :
    Lagging q k L' (A.set q (A q ++ [x])) := by
  obtain ⟨p, l, hq⟩ := List.exists_cons_of_ne_nil (List.length_pos_iff.mp (by omega : 0 < (A q).length))
  obtain ⟨u, -, -, htail, hsize⟩ := h.record hq
  have henq := h.enqueue q (fun r hr q' => Option.some.inj hr ▸ hx q')
  change Matches _ (Links.enqueue q (some x) L) (.ok (A.set q (A q ++ [x]))) at henq
  rw [Links.enqueue, if_neg (by omega), htail] at henq
  cases henq with
  | ok hagrees =>
    refine ⟨by simp; omega, x, ?_⟩
    obtain rfl | rfl : k = 2 ∨ k = 3 := by omega
    · rw [Links.enqueueUpTo_two htail (by omega)] at hL'
      obtain rfl := Except.ok.inj hL'
      exact ⟨by simp, by simpa [Links.caughtUp] using hagrees, by simp⟩
    · rw [Links.enqueueUpTo_three htail (by omega)] at hL'
      obtain rfl := Except.ok.inj hL'
      exact ⟨by simp, by simpa [Links.caughtUp] using hagrees, by simp⟩

/-- The rest of the enqueue makes a lagging queue whole. -/
theorem Lagging.resumes (h : Lagging q k L A) (hcount : count ≠ 0) (hk : 2 ≤ k) (hk' : k ≤ 3) :
    ∃ L', Links.enqueueFrom q x k count L = .ok L' ∧ Agrees L' A := by
  obtain ⟨t, htail, hagrees, hended⟩ := h.caughtUp
  obtain rfl | rfl : k = 2 ∨ k = 3 := by omega
  · exact ⟨_, Links.enqueueFrom_two hcount htail, hagrees⟩
  · refine ⟨_, Links.enqueueFrom_three hcount, ?_⟩
    have hnext : Function.update L.next t none = L.next := by
      rw [← hended rfl, Function.update_eq_self]
    rwa [Links.caughtUp, hnext] at hagrees

omit [DecidableEq κ] [DecidableEq ν] in
theorem Agrees.congr (h : Agrees L A) (hqueue : M.queue = L.queue)
    (hnext : ∀ q, ∀ p ∈ A q, M.next p = L.next p) : Agrees M A := by
  refine ⟨fun q => ?_, h.distinct⟩
  have hq := h.denotes q
  rw [hqueue]
  exact ⟨hq.chain.congr (hnext q), hq.tail, hq.size⟩

theorem Links.rotated_linked (h1 : (L.queue q).size = 1 → p = u)
    (hne : (L.queue q).size ≠ 1 → p ≠ u) :
    Links.rotated q p u ⟨L.queue, Function.update L.next u (some x)⟩ = L.rotated q p u := by
  unfold Links.rotated
  dsimp only
  split_ifs with hsize
  · rw [h1 hsize, Function.update_idem]
  · have hpu := hne hsize
    rw [Function.update_of_ne hpu]
    congr 1
    funext y
    by_cases hyp : y = p
    · simp [hyp]
    · by_cases hyu : y = u
      · simp [hyu, hpu.symm]
      · simp [hyp, hyu]

/-- Before the tail is set, or with one node queued, the first rotation of the queue takes
back what has been assigned. -/
theorem Agrees.forgets (h : Agrees L A) (hx : ∀ q', x ∉ A q') (hq : A q = p :: l)
    (hk : k = 1 ∨ l = [] ∧ (k = 2 ∨ k = 3)) (hL' : Links.enqueueUpTo q x k L = .ok L') :
    ∃ M, Links.Turns q p L' M ∧ Agrees M (A.set q (l ++ [p])) := by
  obtain ⟨u, hu, hhead, htail, hsize⟩ := h.record hq
  have hnodup := h.distinct.nodup q
  obtain ⟨K, hK, hagrees⟩ := Agrees.rotating.head h hq
  obtain rfl := hK.unique (Links.turns_rotated hhead htail (by omega))
  rcases hk with rfl | ⟨rfl, rfl | rfl⟩
  · rw [Links.enqueueUpTo_one htail (by omega)] at hL'
    obtain rfl := Except.ok.inj hL'
    refine ⟨_, Links.turns_rotated hhead htail (by simp; omega), ?_⟩
    have hsame : Links.rotated q p u ⟨L.queue, Function.update L.next u (some x)⟩ =
        L.rotated q p u := by
      refine Links.rotated_linked (fun h1 => ?_) fun h1 => head_ne_last (hq ▸ hnodup) ?_ hu
      · obtain rfl : l = [] := List.length_eq_zero_iff.mp (by omega)
        simpa using hu
      · rintro rfl
        exact h1 hsize
    rwa [hsame]
  · obtain rfl : p = u := by simpa using hu
    simp only [List.length_nil, zero_add] at hsize
    rw [Links.enqueueUpTo_two htail (by omega)] at hL'
    obtain rfl := Except.ok.inj hL'
    refine ⟨_, Links.turns_rotated (u := x) (by simpa using hhead) (by simp) (by simp [hsize]), ?_⟩
    simpa [Links.rotated, hsize] using hagrees
  · obtain rfl : p = u := by simpa using hu
    simp only [List.length_nil, zero_add] at hsize
    rw [Links.enqueueUpTo_three htail (by omega)] at hL'
    obtain rfl := Except.ok.inj hL'
    refine ⟨_, Links.turns_rotated (u := x) (by simpa using hhead) (by simp) (by simp [hsize]), ?_⟩
    refine hagrees.congr (by simp [Links.rotated, hsize]) fun q' r hr => ?_
    have hrx : r ≠ x := by
      rintro rfl
      by_cases hqq : q' = q
      · subst hqq
        rw [Lists.set_self] at hr
        exact hx q' (by simpa [hq] using hr)
      · exact hx q' (by rwa [Lists.set_of_ne hqq] at hr)
    by_cases hrp : r = p
    · simp [Links.rotated, hsize, hrp]
    · simp [Links.rotated, hsize, hrp, hrx]

omit [DecidableEq κ] [DecidableEq ν] in
/-- A queue whose chain is one node short of its count denotes no list. -/
theorem Agrees.not_agrees_of_count (h : Agrees M B) (hhead : (L'.queue q).head = (M.queue q).head)
    (hsize : (L'.queue q).size = (M.queue q).size + 1)
    (hnext : ∀ r ∈ B q, L'.next r = M.next r) : ¬ ∃ C, Agrees L' C := by
  rintro ⟨C, hC⟩
  have hchain := (hC.denotes q).chain
  rw [hhead] at hchain
  have hlist := hchain.unique ((h.denotes q).chain.congr hnext)
  have hcount := (hC.denotes q).size
  rw [hsize, (h.denotes q).size, hlist] at hcount
  omega

/-- After the new node was forgotten the rest of the enqueue counts it all the same. -/
theorem Agrees.not_resumed (h : Agrees M B) (hx : x ∉ B q) (hcount : count ≠ 0)
    (hk : k = 1 ∨ k = 2 ∨ k = 3) (hL' : Links.enqueueFrom q x k count M = .ok L') :
    ¬ ∃ C, Agrees L' C := by
  rcases hk with rfl | rfl | rfl
  · rw [Links.enqueueFrom_one hcount] at hL'
    obtain rfl := Except.ok.inj hL'
    refine h.not_agrees_of_count (q := q) (by simp) (by simp) fun r hr => ?_
    exact Function.update_of_ne (ne_of_mem_of_not_mem hr hx) ..
  · cases htail : (M.queue q).tail with
    | none =>
      simp [Links.enqueueFrom, Links.assignments, hcount, runAll, Links.setTailNext, htail] at hL'
    | some t =>
      rw [Links.enqueueFrom_two hcount htail] at hL'
      obtain rfl := Except.ok.inj hL'
      have hlast : M.next t = none :=
        (h.denotes q).chain.next_last ((h.denotes q).tail.symm.trans htail)
      refine h.not_agrees_of_count (q := q) (by simp) (by simp) fun r _ => ?_
      rw [Links.caughtUp, ← hlast, Function.update_eq_self]
  · rw [Links.enqueueFrom_three hcount] at hL'
    obtain rfl := Except.ok.inj hL'
    exact h.not_agrees_of_count (q := q) (by simp) (by simp) fun _ _ => rfl

theorem Agrees.still_empty (h : Agrees L A) (hq : A q = []) (hk : k = 1 ∨ k = 2 ∨ k = 3)
    (hL' : Links.enqueueUpTo q x k L = .ok L') : Links.dequeue q L' = .ok (none, L') := by
  have hsize : (L.queue q).size = 0 := by rw [(h.denotes q).size, hq]; rfl
  rcases hk with rfl | rfl | rfl
  all_goals
    simp only [Links.enqueueUpTo, Links.assignments, hsize, if_true, List.take, runAll, id,
      Links.setHead, Links.setTail, Links.setNext, ok_bind, Except.ok.injEq] at hL'
    subst hL'
    simp [Links.dequeue]

end Interruption

end VirtualMemorySimulation.LinkedQueue
