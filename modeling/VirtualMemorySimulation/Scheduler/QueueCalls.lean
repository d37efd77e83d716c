import VirtualMemorySimulation.Scheduler.Threads

/-!
# Queues as first-in first-out sequences

Any number of queues live on one heap of control blocks, which starts out as
storage with whatever it holds. A queue counts once it has been initialised. As
long as a control block is enqueued only while it is in no queue, the calls do
to the heap what they do to one sequence for each queue.
-/

namespace VirtualMemorySimulation.Scheduler

open Execution LinkedQueue

inductive QueueCall where
  | queueInit (q : QueuePtr)
  | enqueue (q : QueuePtr) (node : TcbPtr)
  | dequeue (q : QueuePtr)
  | peek (q : QueuePtr)
  deriving DecidableEq, Repr

/-- The queues and the control blocks' links, with the queues initialised so far. -/
structure QueueHeap where
  links : TcbLinks
  initialised : Finset QueuePtr

/-- The pointer that a call returns, `NULL` for a `void` function, with the links after it. -/
def QueueCall.exec : QueueCall → TcbLinks → Except Stop (Option TcbPtr × TcbLinks)
  | .queueInit q, L => .ok (none, Links.init q L)
  | .enqueue q node, L => (Links.enqueue q (some node) L).map fun L' => (none, L')
  | .dequeue q, L => Links.dequeue q L
  | .peek q, L => .ok (QueueStore.peek q L, L)

namespace QueueHeap

/-- The control block is met on the way from the queue's head to `NULL`. -/
def InQueue (H : QueueHeap) (q : QueuePtr) (node : TcbPtr) : Prop :=
  ∃ l, Chain H.links.next (H.links.queue q).head l ∧ node ∈ l

/-- A queue is initialised before it is used, and what is enqueued is in no queue. -/
def Admits (H : QueueHeap) : QueueCall → Prop
  | .queueInit _ => True
  | .enqueue q node => q ∈ H.initialised ∧ ∀ q' ∈ H.initialised, ¬ H.InQueue q' node
  | .dequeue q => q ∈ H.initialised
  | .peek q => q ∈ H.initialised

def marked (H : QueueHeap) : QueueCall → Finset QueuePtr
  | .queueInit q => insert q H.initialised
  | _ => H.initialised

/-- An admitted call comes back with the pointer of the label. -/
def Performs (H : QueueHeap) (call : QueueCall × Option TcbPtr) (H' : QueueHeap) : Prop :=
  H.Admits call.1 ∧ call.1.exec H.links = .ok (call.2, H'.links) ∧
    H'.initialised = H.marked call.1

/-- Each initialised queue is the sequence it stands for, by head, tail, count and links. -/
structure Denotes (H : QueueHeap) (A : TcbLists) : Prop where
  queues : ∀ q ∈ H.initialised, (H.links.queue q).Denotes H.links.next (A q)
  others : ∀ q ∉ H.initialised, A q = []
  distinct : A.Distinct

def storage (L : TcbLinks) : QueueHeap := ⟨L, ∅⟩

end QueueHeap

/-- What the calls mean for the sequences; a call changes no other queue's sequence. -/
inductive FifoPerforms (A : TcbLists) : QueueCall × Option TcbPtr → TcbLists → Prop
  | queueInit (q : QueuePtr) : FifoPerforms A (.queueInit q, none) (A.set q [])
  | enqueue (q : QueuePtr) (node : TcbPtr) :
      FifoPerforms A (.enqueue q node, none) (A.set q (A q ++ [node]))
  | dequeue (q : QueuePtr) : FifoPerforms A (.dequeue q, (A q).head?) (A.set q (A q).tail)
  | peek (q : QueuePtr) : FifoPerforms A (.peek q, (A q).head?) A

namespace QueueHeap

variable {H H' : QueueHeap} {A : TcbLists} {q : QueuePtr} {node : TcbPtr} {L : TcbLinks}

theorem denotes_iff_agrees : H.Denotes A ↔ Agrees (H.links.mask H.initialised) A := by
  rw [agrees_mask]
  exact ⟨fun h => ⟨h.queues, h.others, h.distinct⟩, fun h => ⟨h.1, h.2.1, h.2.2⟩⟩

theorem storage_denotes (L : TcbLinks) : (storage L).Denotes noLists := by
  constructor
  · intro q hq
    cases hq
  · exact fun _ _ => rfl
  · exact noLinks_agrees.distinct

theorem Denotes.inQueue (h : H.Denotes A) (hq : q ∈ H.initialised) :
    H.InQueue q node ↔ node ∈ A q := by
  constructor
  · rintro ⟨l, hl, hnode⟩
    rwa [hl.unique (h.queues q hq).chain] at hnode
  · intro hnode
    exact ⟨A q, (h.queues q hq).chain, hnode⟩

theorem Denotes.unqueued (h : H.Denotes A) (hadmits : H.Admits (.enqueue q node)) (q' : QueuePtr) :
    node ∉ A q' := by
  by_cases hq' : q' ∈ H.initialised
  · intro hnode
    exact hadmits.2 q' hq' ((h.inQueue hq').mpr hnode)
  · rw [h.others q' hq']
    exact List.not_mem_nil

theorem Denotes.performs_init (h : H.Denotes A) (q : QueuePtr) :
    ∃ H', H.Performs (.queueInit q, none) H' ∧ H'.Denotes (A.set q []) := by
  refine ⟨⟨Links.init q H.links, insert q H.initialised⟩, ⟨trivial, rfl, rfl⟩, ?_⟩
  apply denotes_iff_agrees.mpr
  rw [Links.mask_init]
  exact (denotes_iff_agrees.mp h).init q

theorem Denotes.performs_enqueue (h : H.Denotes A) (hadmits : H.Admits (.enqueue q node)) :
    ∃ H', H.Performs (.enqueue q node, none) H' ∧ H'.Denotes (A.set q (A q ++ [node])) := by
  have hunqueued : ∀ p, some node = some p → ∀ q', p ∉ A q' :=
    fun p hp => Option.some.inj hp ▸ h.unqueued hadmits
  have hmatch := (denotes_iff_agrees.mp h).enqueue q hunqueued
  obtain ⟨masked, hmasked, hagrees⟩ := hmatch.of_ok_right rfl
  have hcall : (Links.enqueue q (some node) H.links).map (Links.mask H.initialised) = .ok masked :=
    (Links.mask_enqueue hadmits.1 _).symm.trans hmasked
  obtain ⟨L', hL', rfl⟩ := map_eq_ok.mp hcall
  refine ⟨⟨L', H.initialised⟩, ⟨hadmits, ?_, rfl⟩, denotes_iff_agrees.mpr hagrees⟩
  exact congrArg (Except.map _) hL'

theorem Denotes.performs_dequeue (h : H.Denotes A) (hadmits : H.Admits (.dequeue q)) :
    ∃ H', H.Performs (.dequeue q, (A q).head?) H' ∧ H'.Denotes (A.set q (A q).tail) := by
  have hlists : QueueStore.dequeue q A = .ok ((A q).head?, A.set q (A q).tail) := by
    cases hq : A q with
    | nil => rw [Lists.dequeue_nil hq, List.tail_nil, ← hq, Lists.set_eq_self, hq, List.head?_nil]
    | cons p l => rw [Lists.dequeue_cons hq, List.head?_cons, List.tail_cons]
  obtain ⟨⟨result, masked⟩, hmasked, hresult, hagrees, -⟩ :=
    ((denotes_iff_agrees.mp h).dequeue q).of_ok_right hlists
  obtain rfl : result = (A q).head? := hresult
  obtain ⟨⟨result, L'⟩, hL', hpair⟩ :=
    map_eq_ok.mp ((Links.mask_dequeue hadmits).symm.trans hmasked)
  obtain ⟨rfl, rfl⟩ := Prod.mk.inj hpair
  exact ⟨⟨L', H.initialised⟩, ⟨hadmits, hL', rfl⟩, denotes_iff_agrees.mpr hagrees⟩

theorem Denotes.performs_peek (h : H.Denotes A) (hadmits : H.Admits (.peek q)) :
    H.Performs (.peek q, (A q).head?) H := by
  have hpeek : ((H.links.mask H.initialised).queue q).head = (A q).head? :=
    (denotes_iff_agrees.mp h).peek q
  rw [Links.mask_queue hadmits] at hpeek
  refine ⟨hadmits, ?_, rfl⟩
  rw [← hpeek]
  rfl

/-- An admitted call comes back, and does to the sequences what it should. -/
theorem Denotes.performs (h : H.Denotes A) {call : QueueCall} (hadmits : H.Admits call) :
    ∃ result H' A', H.Performs (call, result) H' ∧ FifoPerforms A (call, result) A' ∧
      H'.Denotes A' := by
  cases call with
  | queueInit q =>
    obtain ⟨H', hperforms, hdenotes⟩ := h.performs_init q
    exact ⟨none, H', _, hperforms, .queueInit q, hdenotes⟩
  | enqueue q node =>
    obtain ⟨H', hperforms, hdenotes⟩ := h.performs_enqueue hadmits
    exact ⟨none, H', _, hperforms, .enqueue q node, hdenotes⟩
  | dequeue q =>
    obtain ⟨H', hperforms, hdenotes⟩ := h.performs_dequeue hadmits
    exact ⟨_, H', _, hperforms, .dequeue q, hdenotes⟩
  | peek q => exact ⟨_, H, A, h.performs_peek hadmits, .peek q, h⟩

theorem Performs.unique {call : QueueCall} {result result' : Option TcbPtr} {K : QueueHeap}
    (h : H.Performs (call, result) H') (h' : H.Performs (call, result') K) :
    result = result' ∧ H' = K := by
  obtain ⟨-, hexec, hmarked⟩ := h
  obtain ⟨-, hexec', hmarked'⟩ := h'
  obtain ⟨hresult, hlinks⟩ := Prod.mk.inj (Except.ok.inj (hexec.symm.trans hexec'))
  cases H'
  cases K
  simp only at hmarked hmarked' hresult hlinks
  exact ⟨hresult, by rw [hlinks, hmarked, hmarked']⟩

theorem Denotes.step (h : H.Denotes A) {call : QueueCall × Option TcbPtr}
    (hperforms : H.Performs call H') : ∃ A', FifoPerforms A call A' ∧ H'.Denotes A' := by
  obtain ⟨result, K, A', hK, hfifo, hdenotes⟩ := h.performs hperforms.1
  obtain ⟨hresult, rfl⟩ := hperforms.unique hK
  rw [← hresult] at hfifo
  exact ⟨A', hfifo, hdenotes⟩

end QueueHeap

/-- After any admitted calls on any storage the queues are the sequences that the same calls
with the same results make, every admitted call comes back, and what a dequeue returns is
linked to nothing. -/
theorem queues_refine_fifo {L : TcbLinks} {calls : List (QueueCall × Option TcbPtr)}
    {H : QueueHeap} (hrun : Run QueueHeap.Performs (.storage L) calls H) :
    ∃ A, Run FifoPerforms noLists calls A ∧ H.Denotes A ∧
      (∀ call, H.Admits call → ∃ result H' A', H.Performs (call, result) H' ∧
        FifoPerforms A (call, result) A' ∧ H'.Denotes A') ∧
      ∀ q node H', H.Performs (.dequeue q, some node) H' → H'.links.next node = none := by
  have hstep : ∀ (H : QueueHeap) call (H' : QueueHeap) A, H.Denotes A → H.Performs call H' →
      ∃ A', FifoPerforms A call A' ∧ H'.Denotes A' := fun _ _ _ _ h hperforms => h.step hperforms
  obtain ⟨A, hfifo, hdenotes⟩ := hrun.simulation hstep (QueueHeap.storage_denotes L)
  refine ⟨A, hfifo, hdenotes, fun call hadmits => hdenotes.performs hadmits, ?_⟩
  intro q node H' hperforms
  exact Links.dequeue_cleared hperforms.2.1

/-- Storage whose links and counts mean nothing. -/
def staleLinks : TcbLinks := ⟨fun _ => ⟨some 7, none, 3⟩, fun p => some (p + 1)⟩

/-- A call on the sequences of the queues initialised so far, where it is admitted and
returns the pointer of the label. -/
def fifoExec : QueueCall × Option TcbPtr → Finset QueuePtr × TcbLists →
    Except Stop (Finset QueuePtr × TcbLists)
  | (.queueInit q, none), (marked, A) => .ok (insert q marked, A.set q [])
  | (.enqueue q node, none), (marked, A) =>
    if q ∈ marked ∧ ∀ q' ∈ marked, node ∉ A q' then .ok (marked, A.set q (A q ++ [node]))
    else .error .notEnabled
  | (.dequeue q, result), (marked, A) =>
    if q ∈ marked ∧ result = (A q).head? then .ok (marked, A.set q (A q).tail)
    else .error .notEnabled
  | (.peek q, result), (marked, A) =>
    if q ∈ marked ∧ result = (A q).head? then .ok (marked, A) else .error .notEnabled
  | _, _ => .error .notEnabled

/-- What the sequences do the heap does as well. -/
theorem QueueHeap.Denotes.follow {H : QueueHeap} {A : TcbLists}
    {call : QueueCall × Option TcbPtr} {t : Finset QueuePtr × TcbLists} (h : H.Denotes A)
    (hexec : fifoExec call (H.initialised, A) = .ok t) :
    ∃ H', H.Performs call H' ∧ H'.Denotes t.2 ∧ H'.initialised = t.1 := by
  obtain ⟨call, result⟩ := call
  cases call with
  | queueInit q =>
    cases result with
    | none =>
      obtain rfl := Except.ok.inj hexec
      obtain ⟨H', hperforms, hdenotes⟩ := h.performs_init q
      exact ⟨H', hperforms, hdenotes, hperforms.2.2⟩
    | some p => cases hexec
  | enqueue q node =>
    cases result with
    | none =>
      simp only [fifoExec] at hexec
      split_ifs at hexec with hadmits
      obtain rfl := Except.ok.inj hexec
      have hadmits' : H.Admits (.enqueue q node) :=
        ⟨hadmits.1, fun q' hq' hin => hadmits.2 q' hq' ((h.inQueue hq').mp hin)⟩
      obtain ⟨H', hperforms, hdenotes⟩ := h.performs_enqueue hadmits'
      exact ⟨H', hperforms, hdenotes, hperforms.2.2⟩
    | some p => cases hexec
  | dequeue q =>
    simp only [fifoExec] at hexec
    split_ifs at hexec with hadmits
    obtain ⟨hq, rfl⟩ := hadmits
    obtain rfl := Except.ok.inj hexec
    obtain ⟨H', hperforms, hdenotes⟩ := h.performs_dequeue hq
    exact ⟨H', hperforms, hdenotes, hperforms.2.2⟩
  | peek q =>
    simp only [fifoExec] at hexec
    split_ifs at hexec with hadmits
    obtain ⟨hq, rfl⟩ := hadmits
    obtain rfl := Except.ok.inj hexec
    exact ⟨H, h.performs_peek hq, h, rfl⟩

/-- Two queues take turns: a control block goes from the one to the other. -/
def twoQueues : List (QueueCall × Option TcbPtr) :=
  [(.queueInit (.level 0), none), (.queueInit (.level 1), none), (.enqueue (.level 0) 5, none),
    (.enqueue (.level 1) 8, none), (.enqueue (.level 0) 6, none), (.dequeue (.level 0), some 5),
    (.enqueue (.level 1) 5, none), (.peek (.level 1), some 8), (.peek (.level 0), some 6)]

theorem twoQueues_exec : (runAll fifoExec twoQueues (∅, noLists)).map
    (fun t => (decide (.level 1 ∈ t.1), t.2 (.level 0), t.2 (.level 1))) =
      .ok (true, [6], [8, 5]) := by
  decide +kernel

theorem queues_refine_fifo_twoQueues : ∃ H A,
    Run QueueHeap.Performs (.storage staleLinks) twoQueues H ∧
      Run FifoPerforms noLists twoQueues A ∧ H.Denotes A ∧
      (∃ result H' A', H.Performs (.dequeue (.level 1), result) H' ∧
        FifoPerforms A (.dequeue (.level 1), result) A' ∧ H'.Denotes A') ∧
      ∀ q node H', H.Performs (.dequeue q, some node) H' → H'.links.next node = none := by
  obtain ⟨⟨marked, lists⟩, hrun, ht⟩ := Run.of_runAll
    (fun t call t' (h : fifoExec call t = .ok t') => h) twoQueues (∅, noLists) _ twoQueues_exec
  obtain ⟨H, hheap, -, hmarked⟩ := hrun.simulation
    (R := fun t (H : QueueHeap) => H.Denotes t.2 ∧ H.initialised = t.1)
    (fun t call t' H h hexec => h.1.follow (by rw [h.2]; exact hexec))
    ⟨QueueHeap.storage_denotes staleLinks, rfl⟩
  obtain ⟨A, hfifo, hdenotes, hcalls, hcleared⟩ := queues_refine_fifo hheap
  have hadmits : H.Admits (.dequeue (.level 1)) := by
    change QueuePtr.level 1 ∈ H.initialised
    rw [hmarked]
    exact of_decide_eq_true (Prod.mk.inj ht).1
  exact ⟨H, A, hheap, hfifo, hdenotes, hcalls _ hadmits, hcleared⟩

end VirtualMemorySimulation.Scheduler
